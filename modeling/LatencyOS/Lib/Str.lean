import Mathlib.Algebra.Ring.Int.Defs
import Mathlib.Algebra.Ring.Nat
import Mathlib.Data.List.DropRight
import Mathlib.Tactic.Basic

/-!
# Strings

A `str` is its list of characters; what is stored is its UTF-8 encoding, and positions in it
are numbers of bytes.
-/

namespace LatencyOS

/-- A string slice. -/
abbrev Str := List Char

/-- The bytes of a string. -/
def utf8 (s : Str) : List UInt8 := s.flatMap String.utf8EncodeChar

/-- `str::len`. -/
def byteLen (s : Str) : ℕ := (utf8 s).length

@[simp] theorem utf8_nil : utf8 [] = [] := rfl

@[simp] theorem utf8_cons (c : Char) (s : Str) :
    utf8 (c :: s) = String.utf8EncodeChar c ++ utf8 s := rfl

@[simp] theorem utf8_append (s t : Str) : utf8 (s ++ t) = utf8 s ++ utf8 t :=
  List.flatMap_append

@[simp] theorem byteLen_nil : byteLen [] = 0 := rfl

@[simp] theorem byteLen_append (s t : Str) : byteLen (s ++ t) = byteLen s + byteLen t := by
  simp [byteLen]

theorem byteLen_cons (c : Char) (s : Str) : byteLen (c :: s) = c.utf8Size + byteLen s := by
  simp [byteLen]

theorem length_le_byteLen (s : Str) : s.length ≤ byteLen s := by
  induction s with
  | nil => simp
  | cons c s ih =>
    have hc := c.utf8Size_pos
    rw [List.length_cons, byteLen_cons]
    omega

/-- What is checked character by character holds of every character. -/
theorem forall_mem_of_all {p : Char → Prop} [DecidablePred p] {s : Str}
    (h : s.all (fun c => decide (p c)) = true) : ∀ c ∈ s, p c :=
  fun c hc => of_decide_eq_true (List.all_eq_true.mp h c hc)

/-- `char::is_whitespace`. -/
def isWhitespace (c : Char) : Bool :=
  let n := c.toNat
  (9 ≤ n && n ≤ 13) || n == 0x20 || n == 0x85 || n == 0xA0 || n == 0x1680 ||
    (0x2000 ≤ n && n ≤ 0x200A) || n == 0x2028 || n == 0x2029 || n == 0x202F || n == 0x205F ||
    n == 0x3000

/-- `str::trim`. -/
def trim (s : Str) : Str := (s.dropWhile isWhitespace).rdropWhile isWhitespace

theorem rdropWhile_append_of_pos {α : Type} {p : α → Bool} (l : List α) {b : List α}
    (hb : ∀ c ∈ b, p c = true) : (l ++ b).rdropWhile p = l.rdropWhile p := by
  have hrev : ∀ c ∈ b.reverse, p c = true := fun c hc => hb c (List.mem_reverse.mp hc)
  rw [List.rdropWhile, List.rdropWhile, List.reverse_append, List.dropWhile_append_of_pos hrev]

theorem trim_eq_nil {s : Str} (h : ∀ c ∈ s, isWhitespace c = true) : trim s = [] := by
  rw [trim, List.dropWhile_eq_nil_iff.mpr h]
  rfl

/-- Whitespace around a string is no matter. -/
theorem trim_surround {a b : Str} (ha : ∀ c ∈ a, isWhitespace c = true) (s : Str)
    (hb : ∀ c ∈ b, isWhitespace c = true) : trim (a ++ s ++ b) = trim s := by
  by_cases hs : ∀ c ∈ s, isWhitespace c = true
  · rw [trim_eq_nil hs]
    refine trim_eq_nil fun c hc => ?_
    rcases List.mem_append.mp hc with hc | hc
    · exact (List.mem_append.mp hc).elim (ha c) (hs c)
    · exact hb c hc
  · have hne : s.dropWhile isWhitespace ≠ [] := mt List.dropWhile_eq_nil_iff.mp hs
    have hempty : (s.dropWhile isWhitespace).isEmpty = false := by simpa using hne
    rw [trim, trim, List.append_assoc, List.dropWhile_append_of_pos ha, List.dropWhile_append,
      hempty, if_neg Bool.false_ne_true, rdropWhile_append_of_pos _ hb]

theorem trim_append {s b : Str} (hb : ∀ c ∈ b, isWhitespace c = true) : trim (s ++ b) = trim s :=
  trim_surround (a := []) (by simp) s hb

/-- A string between characters that are no whitespace. -/
theorem trim_eq_self {c d : Char} {s : Str} (hhead : s.head? = some c) (hlast : s.getLast? = some d)
    (hc : isWhitespace c = false) (hd : isWhitespace d = false) : trim s = s := by
  obtain ⟨r, rfl⟩ := List.head?_eq_some_iff.mp hhead
  rw [trim, List.dropWhile_cons_of_neg (by rw [hc]; exact Bool.false_ne_true)]
  rw [List.rdropWhile_eq_self_iff]
  intro hne
  rw [List.getLast?_eq_getLast_of_ne_nil hne] at hlast
  cases hlast
  rw [hd]
  exact Bool.false_ne_true

theorem length_trim_le (s : Str) : (trim s).length ≤ s.length :=
  ((List.rdropWhile_prefix _ _).length_le).trans (List.dropWhile_suffix _).length_le

end LatencyOS

namespace LatencyOS.Format

/-!
## Format strings

What the formatting macros write: texts, decimal numbers and hexadecimal columns, and how
a column is read back.
-/

/-- The characters of a literal. -/
def text (s : String) : Str := s.toList

/-- A number in decimal. -/
def decimalText (n : ℕ) : Str := Nat.toDigits 10 n

/-- A signed number in decimal. -/
def signedText (n : ℤ) : Str := if n < 0 then '-' :: decimalText n.natAbs else decimalText n.natAbs

/-- A truth value. -/
def boolText (b : Bool) : Str := if b then text "true" else text "false"

/-- `{:w$}` of a text: blanks after it. -/
def padRight (w : ℕ) (t : Str) : Str := t ++ List.replicate (w - t.length) ' '

/-- `{:w$}` of a number: blanks before it. -/
def padLeft (w : ℕ) (t : Str) : Str := List.replicate (w - t.length) ' ' ++ t

/-! ## Hexadecimal columns -/

/-- `{:02x}` -/
def hexByte (b : UInt8) : Str := [Nat.digitChar (b.toNat / 16), Nat.digitChar (b.toNat % 16)]

/-- `{:04x}` of a number below `2 ^ 16`. -/
def hexWord (n : ℕ) : Str := hexByte (UInt8.ofNat (n / 256)) ++ hexByte (UInt8.ofNat n)

/-- Bytes with a blank between them. -/
def hexColumns (bytes : List UInt8) : Str := [' '].intercalate (bytes.map hexByte)

/-- The value of a hexadecimal digit. -/
def readDigit (c : Char) : Option ℕ := (List.range 16).find? fun d => Nat.digitChar d = c

/-- The byte two digits spell. -/
def readByte (hi lo : Char) : Option UInt8 := do
  let h ← readDigit hi
  let l ← readDigit lo
  return UInt8.ofNat (16 * h + l)

/-- Reads bytes of two digits with a blank between them. -/
def readColumns : Str → Option (List UInt8)
  | [] => some []
  | [hi, lo] => (readByte hi lo).map fun b => [b]
  | hi :: lo :: ' ' :: rest => do
    let b ← readByte hi lo
    let bytes ← readColumns rest
    return b :: bytes
  | _ => none

@[simp] theorem length_hexByte (b : UInt8) : (hexByte b).length = 2 := rfl

@[simp] theorem length_hexWord (n : ℕ) : (hexWord n).length = 4 := rfl

theorem readDigit_digitChar : ∀ d < 16, readDigit (Nat.digitChar d) = some d := by decide

theorem halves_lt (b : UInt8) : b.toNat / 16 < 16 ∧ b.toNat % 16 < 16 := by
  have hlt := b.toNat_lt
  omega

/-- Reading a byte undoes writing it. -/
theorem readByte_digits (b : UInt8) :
    readByte (Nat.digitChar (b.toNat / 16)) (Nat.digitChar (b.toNat % 16)) = some b := by
  have hbyte : UInt8.ofNat (16 * (b.toNat / 16) + b.toNat % 16) = b := by
    rw [Nat.div_add_mod, UInt8.ofNat_toNat]
  unfold readByte
  rw [readDigit_digitChar _ (halves_lt b).1, readDigit_digitChar _ (halves_lt b).2]
  exact congrArg some hbyte

/-- Reading columns undoes writing them. -/
theorem readColumns_hexColumns (bytes : List UInt8) :
    readColumns (hexColumns bytes) = some bytes := by
  induction bytes with
  | nil => rfl
  | cons b bytes ih =>
    cases bytes with
    | nil => simp [hexColumns, hexByte, readColumns, readByte_digits]
    | cons c bytes =>
      have hcons : hexColumns (b :: c :: bytes) =
          Nat.digitChar (b.toNat / 16) :: Nat.digitChar (b.toNat % 16) :: ' ' ::
            hexColumns (c :: bytes) := by
        simp [hexColumns, hexByte, List.intercalate]
      rw [hcons, readColumns, ih, readByte_digits]
      rfl

end LatencyOS.Format
