import LatencyOS.Lib.Str
import Mathlib.Data.List.Nodup

/-!
# JSON texts

A value of JSON can be written in many ways: blanks stand between the symbols, a character of
a string is written as it is, with a short escape or with its UTF-16 units in hexadecimal, a
number has digits, a fraction and an exponent.  A tree holds all these choices; it has a text
and a value, and a text is valid JSON when it is the text of a tree between blanks.
-/

namespace LatencyOS.Json

/-- A value; an object is an association list. -/
inductive JsonValue (F : Type)
  | null
  | bool (b : Bool)
  | number (x : F)
  | string (s : Str)
  | array (items : List (JsonValue F))
  | object (members : List (Str × JsonValue F))

/-! ## Symbols -/

def isBlank (c : Char) : Bool := c == ' ' || c == '\t' || c == '\n' || c == '\r'

/-- What may stand between symbols. -/
def Blank := { s : Str // ∀ c ∈ s, isBlank c = true }

def Blank.empty : Blank := ⟨[], by simp⟩

/-- One blank and then another. -/
def Blank.append (a b : Blank) : Blank :=
  ⟨a.1 ++ b.1, fun c hc => (List.mem_append.mp hc).elim (a.2 c) (b.2 c)⟩

def Digits (s : Str) : Prop := s ≠ [] ∧ ∀ c ∈ s, c.isDigit = true

/-- What may stand in front of the digits of an exponent. -/
def exponentMarks : List Str :=
  [['e'], ['e', '+'], ['e', '-'], ['E'], ['E', '+'], ['E', '-']]

/-- A number as it is written. -/
structure NumberText where
  negative : Bool
  int : Str
  frac : Option Str
  exp : Option (Str × Str)
  int_digits : Digits int
  no_leading_zero : int.head? = some '0' → int = ['0']
  frac_digits : ∀ f ∈ frac, Digits f
  exp_digits : ∀ e ∈ exp, e.1 ∈ exponentMarks ∧ Digits e.2

def NumberText.text (x : NumberText) : Str :=
  (if x.negative then ['-'] else []) ++ x.int ++ (x.frac.map fun f => '.' :: f).getD [] ++
    (x.exp.map fun e => e.1 ++ e.2).getD []

/-- The characters of a number. -/
theorem NumberText.mem_text {x : NumberText} {c : Char} (h : c ∈ x.text) :
    c.isDigit = true ∨ c ∈ ['-', '+', '.', 'e', 'E'] := by
  have hmarks : ∀ m ∈ exponentMarks,
      m.all (fun c => decide (c ∈ ['-', '+', '.', 'e', 'E'])) = true := by decide
  unfold NumberText.text at h
  rcases List.mem_append.mp h with h | h
  · rcases List.mem_append.mp h with h | h
    · rcases List.mem_append.mp h with h | h
      · split at h
        · rw [List.mem_singleton.mp h]
          exact .inr (by decide)
        · cases h
      · exact .inl (x.int_digits.2 c h)
    · cases hfrac : x.frac with
      | none =>
        rw [hfrac] at h
        cases h
      | some f =>
        rw [hfrac] at h
        rcases List.mem_cons.mp h with rfl | h
        · exact .inr (by decide)
        · exact .inl ((x.frac_digits f hfrac).2 c h)
  · cases hexp : x.exp with
    | none =>
      rw [hexp] at h
      cases h
    | some e =>
      rw [hexp] at h
      obtain ⟨hmark, hdigits⟩ := x.exp_digits e hexp
      rcases List.mem_append.mp h with h | h
      · exact .inr (forall_mem_of_all (hmarks _ hmark) c h)
      · exact .inl (hdigits.2 c h)

/-- The escapes with one letter. -/
inductive ShortEscape
  | quote | backslash | slash | backspace | formFeed | newline | carriageReturn | tab
  deriving DecidableEq

def ShortEscape.letter : ShortEscape → Char
  | quote => '"' | backslash => '\\' | slash => '/' | backspace => 'b' | formFeed => 'f'
  | newline => 'n' | carriageReturn => 'r' | tab => 't'

/-- The character an escape stands for. -/
def ShortEscape.char : ShortEscape → Char
  | quote => '"' | backslash => '\\' | slash => '/' | backspace => '\x08' | formFeed => '\x0c'
  | newline => '\n' | carriageReturn => '\r' | tab => '\t'

/-- The UTF-16 units of a character. -/
def utf16 (c : Char) : List ℕ :=
  if c.toNat < 0x10000 then [c.toNat]
  else [0xD800 + (c.toNat - 0x10000) / 0x400, 0xDC00 + (c.toNat - 0x10000) % 0x400]

def hexValue (c : Char) : Option ℕ :=
  if '0' ≤ c ∧ c ≤ '9' then some (c.toNat - 0x30)
  else if 'a' ≤ c ∧ c ≤ 'f' then some (c.toNat - 0x61 + 10)
  else if 'A' ≤ c ∧ c ≤ 'F' then some (c.toNat - 0x41 + 10)
  else none

/-- The value of four hexadecimal digits. -/
def unitValue : Str → Option ℕ
  | [a, b, c, d] => do
    let a ← hexValue a
    let b ← hexValue b
    let c ← hexValue c
    let d ← hexValue d
    return ((a * 16 + b) * 16 + c) * 16 + d
  | _ => none

theorem isHexDigit_of_unitValue {u : Str} {n : ℕ} (h : unitValue u = some n) :
    ∀ c ∈ u, (hexValue c).isSome = true := by
  unfold unitValue at h
  split at h
  · next a b c d =>
    obtain ⟨x, hx, h⟩ := Option.bind_eq_some_iff.mp h
    obtain ⟨y, hy, h⟩ := Option.bind_eq_some_iff.mp h
    obtain ⟨z, hz, h⟩ := Option.bind_eq_some_iff.mp h
    obtain ⟨w, hw, h⟩ := Option.bind_eq_some_iff.mp h
    simp [hx, hy, hz, hw]
  · cases h

theorem unitValue_of_mem {c : Char} {units : List Str}
    (h : units.map unitValue = (utf16 c).map some) {u : Str} (hu : u ∈ units) :
    ∃ n, unitValue u = some n := by
  have hmem : unitValue u ∈ (utf16 c).map some := h ▸ List.mem_map_of_mem hu
  obtain ⟨n, -, hn⟩ := List.mem_map.mp hmem
  exact ⟨n, hn.symm⟩

/-- A character that a string can hold as it is. -/
def Plain (c : Char) : Prop := c ≠ '"' ∧ c ≠ '\\' ∧ 0x20 ≤ c.toNat

instance (c : Char) : Decidable (Plain c) := inferInstanceAs (Decidable (_ ∧ _ ∧ _))

/-- A character of a string as it is written. -/
inductive Piece
  | plain (c : Char) (h : Plain c)
  | short (e : ShortEscape)
  | unicode (c : Char) (units : List Str) (h : units.map unitValue = (utf16 c).map some)

namespace Piece

def text : Piece → Str
  | plain c _ => [c]
  | short e => ['\\', e.letter]
  | unicode _ units _ => units.flatMap fun u => '\\' :: 'u' :: u

/-- The character that is written. -/
def char : Piece → Char
  | plain c _ => c
  | short e => e.char
  | unicode c _ _ => c

end Piece

/-- The text of a string between its quotes. -/
def stringText (s : List Piece) : Str := '"' :: (s.flatMap Piece.text ++ ['"'])

/-! ## Trees -/

mutual

inductive Tree
  | null
  | bool (b : Bool)
  | number (x : NumberText)
  | string (s : List Piece)
  | array (blank : Blank) (items : Items)
  | object (blank : Blank) (members : Members)

inductive Items
  | nil
  | cons (before : Blank) (item : Tree) (after : Blank) (rest : Items)

inductive Members
  | nil
  | cons (before : Blank) (key : List Piece) (behindKey beforeValue : Blank) (value : Tree)
      (after : Blank) (rest : Members)

end

mutual

def Tree.text : Tree → Str
  | .null => "null".toList
  | .bool b => if b then "true".toList else "false".toList
  | .number x => x.text
  | .string s => stringText s
  | .array blank items => '[' :: (blank.1 ++ [','].intercalate items.texts ++ [']'])
  | .object blank members => '{' :: (blank.1 ++ [','].intercalate members.texts ++ ['}'])

/-- The texts between the commas of an array. -/
def Items.texts : Items → List Str
  | .nil => []
  | .cons before item after rest => (before.1 ++ item.text ++ after.1) :: rest.texts

/-- The texts between the commas of an object. -/
def Members.texts : Members → List Str
  | .nil => []
  | .cons before key behindKey beforeValue value after rest =>
    (before.1 ++ stringText key ++ behindKey.1 ++ ':' :: (beforeValue.1 ++ value.text ++ after.1))
      :: rest.texts

end

section Value
variable {F : Type} (num : NumberText → F) (str : List Piece → Str)

mutual

/-- The value of a tree, for a reading of its numbers and its strings. -/
def Tree.read : Tree → JsonValue F
  | .null => .null
  | .bool b => .bool b
  | .number x => .number (num x)
  | .string s => .string (str s)
  | .array _ items => .array items.read
  | .object _ members => .object members.read

def Items.read : Items → List (JsonValue F)
  | .nil => []
  | .cons _ item _ rest => item.read :: rest.read

def Members.read : Members → List (Str × JsonValue F)
  | .nil => []
  | .cons _ key _ _ value _ rest => (str key, value.read) :: rest.read

end

end Value

/-- The string that pieces write. -/
def chars (s : List Piece) : Str := s.map Piece.char

/-- The value of a tree. -/
def Tree.value {F : Type} (num : NumberText → F) (t : Tree) : JsonValue F := t.read num chars

mutual

/-- A property of all trees in a tree. -/
def Tree.Forall (P : Tree → Prop) : Tree → Prop
  | .null => P .null
  | .bool b => P (.bool b)
  | .number x => P (.number x)
  | .string s => P (.string s)
  | .array blank items => P (.array blank items) ∧ items.Forall P
  | .object blank members => P (.object blank members) ∧ members.Forall P

def Items.Forall (P : Tree → Prop) : Items → Prop
  | .nil => True
  | .cons _ item _ rest => item.Forall P ∧ rest.Forall P

def Members.Forall (P : Tree → Prop) : Members → Prop
  | .nil => True
  | .cons _ _ _ _ value _ rest => value.Forall P ∧ rest.Forall P

end

def Members.keys : Members → List (List Piece)
  | .nil => []
  | .cons _ key _ _ _ _ rest => key :: rest.keys

/-- The keys of an object. -/
def Tree.keys : Tree → List (List Piece)
  | .object _ members => members.keys
  | _ => []

/-- The keys of every object are distinct. -/
def Tree.Distinct (t : Tree) : Prop := t.Forall fun t => (t.keys.map chars).Nodup

/-- A text is valid JSON with a value. -/
def Writes {F : Type} (num : NumberText → F) (s : Str) (v : JsonValue F) : Prop :=
  ∃ (before : Blank) (t : Tree) (after : Blank),
    s = before.1 ++ t.text ++ after.1 ∧ t.value num = v

end LatencyOS.Json
