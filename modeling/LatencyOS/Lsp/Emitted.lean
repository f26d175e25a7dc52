import LatencyOS.Lib.Str
import LatencyOS.Lib.JsonCost

/-!
# Texts made from format strings

The tools assemble JSON from format strings, which are spelled with `object`, `array` and
`quoted` and write no blanks.  A `Doc` is what a format string puts together: its literal parts,
strings that go through `escape_json` and strings that do not, and what a floating-point number
is displayed as.  It has a text and a value that the text is meant to write.  The text writes the
value exactly when every string can do with the escapes it gets and every number is finite.
-/

namespace LatencyOS.Json

open Format

/-! ## Format strings -/

/-- What `escape_json` writes for a character. -/
def escapeChar (c : Char) : Str :=
  if c = '"' then ['\\', '"']
  else if c = '\\' then ['\\', '\\']
  else if c = '\n' then ['\\', 'n']
  else if c = '\r' then ['\\', 'r']
  else if c = '\t' then ['\\', 't']
  else [c]

/-- `escape_json` and `escape_json_str`: the three copies are the same. -/
def escapeJson (s : Str) : Str := s.flatMap escapeChar

/-- A text between quotes. -/
def quoted (s : Str) : Str := '"' :: (s ++ ['"'])

/-- Items with commas between them. -/
def commaSep (items : List Str) : Str := [','].intercalate items

/-- `"key":value` -/
def member (key : String) (value : Str) : Str := quoted (text key) ++ ':' :: value

/-- An object with the given members. -/
def object (members : List (String × Str)) : Str :=
  '{' :: (commaSep (members.map fun m => member m.1 m.2) ++ ['}'])

/-- An array with the given items. -/
def array (items : List Str) : Str := '[' :: (commaSep items ++ [']'])

/-- A string between quotes, escaped. -/
def escaped (s : Str) : Str := quoted (escapeJson s)

/-- A literal that needs no escapes. -/
def literal (s : String) : Str := quoted (text s)

/-! ## Their parts -/

/-- What Rust displays a floating-point number as. -/
inductive FloatText
  | decimal (x : NumberText)
  | infinite (negative : Bool)
  | nan

namespace FloatText

def text : FloatText → Str
  | decimal x => x.text
  | infinite negative => if negative then Format.text "-inf" else Format.text "inf"
  | nan => Format.text "NaN"

def Finite : FloatText → Prop
  | decimal _ => True
  | infinite _ => False
  | nan => False

end FloatText

/-- What a format string puts together. -/
inductive Doc
  | null
  | bool (b : Bool)
  | number (x : FloatText)
  /-- A string that goes through `escape_json`. -/
  | escaped (s : Str)
  /-- A string between quotes as it is. -/
  | bare (s : Str)
  | array (items : List Doc)
  | object (members : List (Str × Doc))
  | padded (before : Blank) (d : Doc) (after : Blank)

mutual

def Doc.text : Doc → Str
  | .null => Format.text "null"
  | .bool b => boolText b
  | .number x => x.text
  | .escaped s => Json.escaped s
  | .bare s => quoted s
  | .array items => Json.array (itemTexts items)
  | .object members => '{' :: (commaSep (memberTexts members) ++ ['}'])
  | .padded before d after => before.1 ++ d.text ++ after.1

def itemTexts : List Doc → List Str
  | [] => []
  | d :: rest => d.text :: itemTexts rest

def memberTexts : List (Str × Doc) → List Str
  | [] => []
  | (key, d) :: rest => (Json.escaped key ++ ':' :: d.text) :: memberTexts rest

end

mutual

/-- The value that is meant, up to its numbers. -/
def Doc.value : Doc → JsonValue Unit
  | .null => .null
  | .bool b => .bool b
  | .number _ => .number ()
  | .escaped s => .string s
  | .bare s => .string s
  | .array items => .array (itemValues items)
  | .object members => .object (memberValues members)
  | .padded _ d _ => d.value

def itemValues : List Doc → List (JsonValue Unit)
  | [] => []
  | d :: rest => d.value :: itemValues rest

def memberValues : List (Str × Doc) → List (Str × JsonValue Unit)
  | [] => []
  | (key, d) :: rest => (key, d.value) :: memberValues rest

end

/-- A text is valid JSON whose strings are those of a value. -/
def WellFormed (s : Str) (v : JsonValue Unit) : Prop := Writes (fun _ => ()) s v

/-! ## When the text writes the value -/

/-- A character that `escape_json` writes well. -/
def Escapable (c : Char) : Prop := c = '\n' ∨ c = '\r' ∨ c = '\t' ∨ 0x20 ≤ c.toNat

instance (c : Char) : Decidable (Escapable c) := inferInstanceAs (Decidable (_ ∨ _ ∨ _ ∨ _))

/-- A string that `escape_json` writes well. -/
def ClearString (s : Str) : Prop := ∀ c ∈ s, Escapable c

/-- A string that can stand between quotes as it is. -/
def PlainString (s : Str) : Prop := ∀ c ∈ s, Plain c

mutual

/-- Every string gets the escapes it needs, and every number is finite. -/
def Doc.Clear : Doc → Prop
  | .null => True
  | .bool _ => True
  | .number x => x.Finite
  | .escaped s => ClearString s
  | .bare s => PlainString s
  | .array items => ClearItems items
  | .object members => ClearMembers members
  | .padded _ d _ => d.Clear

def ClearItems : List Doc → Prop
  | [] => True
  | d :: rest => d.Clear ∧ ClearItems rest

def ClearMembers : List (Str × Doc) → Prop
  | [] => True
  | (key, d) :: rest => ClearString key ∧ d.Clear ∧ ClearMembers rest

end

/-! ### It does -/

/-- `escape_json` writes a piece of a string. -/
theorem exists_piece_escapeChar {c : Char} (h : Escapable c) :
    ∃ p : Piece, p.text = escapeChar c ∧ p.char = c := by
  unfold escapeChar
  split
  · next hc => exact ⟨.short .quote, rfl, hc.symm⟩
  split
  · next hc => exact ⟨.short .backslash, rfl, hc.symm⟩
  split
  · next hc => exact ⟨.short .newline, rfl, hc.symm⟩
  split
  · next hc => exact ⟨.short .carriageReturn, rfl, hc.symm⟩
  split
  · next hc => exact ⟨.short .tab, rfl, hc.symm⟩
  · next hquote hslash hn hr ht =>
    have hlow : 0x20 ≤ c.toNat := by
      rcases h with h | h | h | h
      · exact absurd h hn
      · exact absurd h hr
      · exact absurd h ht
      · exact h
    exact ⟨.plain c ⟨hquote, hslash, hlow⟩, rfl, rfl⟩

theorem exists_pieces_escaped {s : Str} (h : ClearString s) :
    ∃ p : List Piece, stringText p = Json.escaped s ∧ chars p = s := by
  have hbody : ∃ p : List Piece, p.flatMap Piece.text = escapeJson s ∧ chars p = s := by
    induction s with
    | nil => exact ⟨[], rfl, rfl⟩
    | cons c s ih =>
      obtain ⟨hc, hs⟩ := List.forall_mem_cons.mp h
      obtain ⟨x, hx, hchar⟩ := exists_piece_escapeChar hc
      obtain ⟨p, hp, hchars⟩ := ih hs
      refine ⟨x :: p, ?_, ?_⟩
      · rw [List.flatMap_cons, hx, hp]
        rfl
      · rw [← hchars]
        exact congrArg (· :: chars p) hchar
  obtain ⟨p, hp, hchars⟩ := hbody
  exact ⟨p, by rw [stringText, hp, Json.escaped, quoted], hchars⟩

theorem exists_pieces_quoted {s : Str} (h : PlainString s) :
    ∃ p : List Piece, stringText p = quoted s ∧ chars p = s := by
  have hbody : ∃ p : List Piece, p.flatMap Piece.text = s ∧ chars p = s := by
    induction s with
    | nil => exact ⟨[], rfl, rfl⟩
    | cons c s ih =>
      obtain ⟨hc, hs⟩ := List.forall_mem_cons.mp h
      obtain ⟨p, hp, hchars⟩ := ih hs
      refine ⟨.plain c hc :: p, ?_, ?_⟩
      · rw [List.flatMap_cons, hp]
        rfl
      · exact congrArg (c :: ·) hchars
  obtain ⟨p, hp, hchars⟩ := hbody
  exact ⟨p, by rw [stringText, hp, quoted], hchars⟩

/-- A tree writes its value. -/
theorem wellFormed_tree {t : Tree} {s : Str} {v : JsonValue Unit} (hs : t.text = s)
    (hv : t.read (fun _ => ()) chars = v) : WellFormed s v := by
  refine ⟨.empty, t, .empty, ?_, hv⟩
  rw [hs]
  exact (List.append_nil s).symm

mutual

theorem Doc.wellFormed : (d : Doc) → d.Clear → WellFormed d.text d.value
  | .null, _ => wellFormed_tree (t := .null) rfl rfl
  | .bool true, _ => wellFormed_tree (t := .bool true) rfl rfl
  | .bool false, _ => wellFormed_tree (t := .bool false) rfl rfl
  | .number (.decimal x), _ => wellFormed_tree (t := .number x) rfl rfl
  | .number (.infinite _), h => h.elim
  | .number .nan, h => h.elim
  | .escaped s, h => by
    obtain ⟨p, hp, hchars⟩ := exists_pieces_escaped h
    refine wellFormed_tree (t := .string p) hp ?_
    rw [Tree.read, hchars]
    rfl
  | .bare s, h => by
    obtain ⟨p, hp, hchars⟩ := exists_pieces_quoted h
    refine wellFormed_tree (t := .string p) hp ?_
    rw [Tree.read, hchars]
    rfl
  | .array items, h => by
    obtain ⟨x, htexts, hread⟩ := exists_items items h
    refine wellFormed_tree (t := .array .empty x) ?_ ?_
    · rw [Tree.text, htexts]
      rfl
    · rw [Tree.read, hread]
      rfl
  | .object members, h => by
    obtain ⟨x, htexts, hread⟩ := exists_members members h
    refine wellFormed_tree (t := .object .empty x) ?_ ?_
    · rw [Tree.text, htexts]
      rfl
    · rw [Tree.read, hread]
      rfl
  | .padded before d after, h => by
    obtain ⟨before', t, after', htext, hvalue⟩ := d.wellFormed h
    refine ⟨Blank.append before before', t, Blank.append after' after, ?_, hvalue⟩
    rw [Doc.text, htext]
    simp [Blank.append]

theorem exists_items : (items : List Doc) → ClearItems items →
    ∃ x : Items, x.texts = itemTexts items ∧ x.read (fun _ => ()) chars = itemValues items
  | [], _ => ⟨.nil, rfl, rfl⟩
  | d :: rest, h => by
    obtain ⟨before, t, after, htext, hvalue⟩ := d.wellFormed h.1
    obtain ⟨x, htexts, hread⟩ := exists_items rest h.2
    refine ⟨.cons before t after x, ?_, ?_⟩
    · rw [Items.texts, itemTexts, htext, htexts]
    · rw [Items.read, itemValues, ← hvalue, hread]
      rfl

theorem exists_members : (members : List (Str × Doc)) → ClearMembers members →
    ∃ x : Members, x.texts = memberTexts members ∧
      x.read (fun _ => ()) chars = memberValues members
  | [], _ => ⟨.nil, rfl, rfl⟩
  | (key, d) :: rest, h => by
    obtain ⟨p, hp, hchars⟩ := exists_pieces_escaped h.1
    obtain ⟨before, t, after, htext, hvalue⟩ := d.wellFormed h.2.1
    obtain ⟨x, htexts, hread⟩ := exists_members rest h.2.2
    refine ⟨.cons .empty p .empty before t after x, ?_, ?_⟩
    · rw [Members.texts, memberTexts, hp, htext, htexts]
      simp [Blank.empty]
    · rw [Members.read, memberValues, ← hvalue, hread, hchars]
      rfl

end

/-! ### It does not -/

/-- A weight that is at most the cost, and the cost only if something holds. -/
def Tight (w cost : ℤ) (p : Prop) : Prop := w ≤ cost ∧ (cost ≤ w → p)

theorem Tight.add {w w' cost cost' : ℤ} {p q : Prop} (h : Tight w cost p)
    (h' : Tight w' cost' q) : Tight (w + w') (cost + cost') (p ∧ q) := by
  obtain ⟨hle, hp⟩ := h
  obtain ⟨hle', hq⟩ := h'
  exact ⟨Int.add_le_add hle hle', fun h => ⟨hp (by omega), hq (by omega)⟩⟩

theorem Tight.refl {w : ℤ} {p : Prop} (hp : p) : Tight w w p := ⟨Int.le_refl w, fun _ => hp⟩

/-- Character by character. -/
theorem tight_sum {f g : Char → ℤ} {P : Char → Prop} (h : ∀ c, Tight (f c) (g c) (P c)) (s : Str) :
    Tight (s.map f).sum (s.map g).sum (∀ c ∈ s, P c) := by
  induction s with
  | nil => exact .refl (by simp)
  | cons c s ih =>
    rw [List.map_cons, List.map_cons, List.sum_cons, List.sum_cons, List.forall_mem_cons]
    exact (h c).add ih

theorem tight_plain (c : Char) : Tight (weigh c) (charCost c) (Plain c) := by
  by_cases hslash : c = '\\'
  · rw [hslash]
    exact ⟨by decide, fun h => absurd h (by decide)⟩
  by_cases hquote : c = '"'
  · rw [hquote]
    exact ⟨by decide, fun h => absurd h (by decide)⟩
  by_cases hlow : c.toNat < 0x20
  · obtain ⟨hweigh, hcost⟩ := weigh_charCost_of_low hlow
    rw [hweigh, hcost]
    exact ⟨by decide, fun h => absurd h (by decide)⟩
  · have hplain : Plain c := ⟨hquote, hslash, Nat.not_lt.mp hlow⟩
    rw [charCost_of_plain hplain]
    exact .refl hplain

theorem tight_escapeChar (c : Char) :
    Tight (weight (escapeChar c)) (charCost c) (Escapable c) := by
  unfold escapeChar
  split
  · next hc =>
    rw [hc]
    exact .refl (by decide)
  split
  · next hc =>
    rw [hc]
    exact .refl (by decide)
  split
  · next hc =>
    rw [hc]
    exact .refl (by decide)
  split
  · next hc =>
    rw [hc]
    exact .refl (by decide)
  split
  · next hc =>
    rw [hc]
    exact .refl (by decide)
  · rw [weight_cons, weight_nil, Int.add_zero]
    obtain ⟨hle, hplain⟩ := tight_plain c
    exact ⟨hle, fun h => .inr (.inr (.inr (hplain h).2.2))⟩

theorem weight_quoted (s : Str) : weight (quoted s) = weight s := by
  have hquote : weigh '"' = 0 := rfl
  rw [quoted, weight_cons, weight_append, weight_cons, weight_nil, hquote]
  omega

theorem weight_escapeJson (s : Str) :
    weight (escapeJson s) = (s.map fun c => weight (escapeChar c)).sum := by
  induction s with
  | nil => rfl
  | cons c s ih =>
    rw [List.map_cons, List.sum_cons, ← ih, ← weight_append]
    rfl

theorem tight_escaped (s : Str) :
    Tight (weight (Json.escaped s)) (stringCost s) (ClearString s) := by
  rw [Json.escaped, weight_quoted, weight_escapeJson]
  exact tight_sum tight_escapeChar s

theorem tight_number (x : FloatText) : Tight (weight x.text) 0 x.Finite := by
  cases x with
  | decimal x =>
    rw [FloatText.text, x.weight_eq]
    exact .refl trivial
  | infinite negative =>
    cases negative <;> exact ⟨by decide, fun h => absurd h (by decide)⟩
  | nan => exact ⟨by decide, fun h => absurd h (by decide)⟩

mutual

/-- The text weighs what the value costs only if nothing is missing in it. -/
theorem Doc.tight : (d : Doc) → Tight (weight d.text) d.value.cost d.Clear
  | .null => .refl trivial
  | .bool true => .refl trivial
  | .bool false => .refl trivial
  | .number x => tight_number x
  | .escaped s => tight_escaped s
  | .bare s => by
    rw [Doc.text, weight_quoted]
    exact tight_sum tight_plain s
  | .array items => by
    have hitems := tight_items items
    have hopen : weigh '[' = 0 := rfl
    have hclose : weigh ']' = 0 := rfl
    rw [Doc.text, Json.array, weight_cons, weight_append, commaSep, weight_intercalate,
      weight_cons, weight_nil, hopen, hclose, Int.zero_add, Int.add_zero, Int.add_zero]
    exact hitems
  | .object members => by
    have hmembers := tight_members members
    have hopen : weigh '\x7b' = 0 := rfl
    have hclose : weigh '\x7d' = 0 := rfl
    rw [Doc.text, weight_cons, weight_append, commaSep, weight_intercalate, weight_cons,
      weight_nil, hopen, hclose, Int.zero_add, Int.add_zero, Int.add_zero]
    exact hmembers
  | .padded before d after => by
    have htight := d.tight
    rw [Doc.text, weight_append, weight_append, before.weight_eq, after.weight_eq, Int.zero_add,
      Int.add_zero]
    exact htight

theorem tight_items : (items : List Doc) →
    Tight ((itemTexts items).map weight).sum (costItems (itemValues items)) (ClearItems items)
  | [] => .refl trivial
  | d :: rest => by
    rw [itemTexts, List.map_cons, List.sum_cons, itemValues, costItems, ClearItems]
    exact d.tight.add (tight_items rest)

theorem tight_members : (members : List (Str × Doc)) →
    Tight ((memberTexts members).map weight).sum (costMembers (memberValues members))
      (ClearMembers members)
  | [] => .refl trivial
  | (key, d) :: rest => by
    have hcolon : weigh ':' = 0 := rfl
    rw [memberTexts, List.map_cons, List.sum_cons, memberValues, costMembers, ClearMembers,
      weight_append, weight_cons, hcolon, Int.zero_add, ← and_assoc]
    exact ((tight_escaped key).add d.tight).add (tight_members rest)

end

/-- **A format string writes what it means exactly if no escape is missing.** -/
theorem Doc.wellFormed_iff (d : Doc) : WellFormed d.text d.value ↔ d.Clear :=
  ⟨fun h => d.tight.2 (Writes.cost_le h), d.wellFormed⟩

/-! ## Parts that recur -/

/-- A decimal number without leading zeros. -/
theorem decimalText_head (n : ℕ) (h : (decimalText n).head? = some '0') :
    decimalText n = ['0'] := by
  induction n using Nat.strongRecOn with
  | ind n ih =>
    unfold decimalText at ih h ⊢
    by_cases hn : n < 10
    · rw [Nat.toDigits_of_lt_base hn] at h ⊢
      exact congrArg (fun c => [c]) (Option.some.inj h)
    · have hdigits := Nat.toDigits_of_base_le (by decide : 1 < 10) (Nat.not_lt.mp hn)
      rw [hdigits, List.head?_append_of_ne_nil _ Nat.toDigits_ne_nil] at h
      have hzero := ih (n / 10) (Nat.div_lt_self (by omega) (by decide)) h
      have hvalue := Nat.ofDigitChars_ten_toDigits (n := n / 10)
      rw [hzero] at hvalue
      have : n / 10 = 0 := hvalue.symm
      omega

theorem digits_of_none : ∀ f ∈ (none : Option Str), Digits f := by simp

theorem exponent_of_none :
    ∀ e ∈ (none : Option (Str × Str)), e.1 ∈ exponentMarks ∧ Digits e.2 := by simp

/-- A natural number as Rust displays it. -/
def NumberText.ofNat (n : ℕ) : NumberText where
  negative := false
  int := decimalText n
  frac := none
  exp := none
  int_digits :=
    ⟨Nat.toDigits_ne_nil, fun _ hc => Nat.isDigit_of_mem_toDigits (by decide) (by decide) hc⟩
  no_leading_zero := decimalText_head n
  frac_digits := digits_of_none
  exp_digits := exponent_of_none

namespace Doc

def nat (n : ℕ) : Doc := .number (.decimal (.ofNat n))

/-- A value, or `null`. -/
def orNull (d : Option Doc) : Doc := d.getD .null

/-- A literal of the format string. -/
def literal (s : String) : Doc := .bare (Format.text s)

/-- An object with literal keys. -/
def fields (members : List (String × Doc)) : Doc :=
  .object (members.map fun m => (Format.text m.1, m.2))

/-- Strings that go through `escape_json`. -/
def strings (l : List Str) : Doc := .array (l.map .escaped)

end Doc

/-! ### When they are clear -/

instance (s : Str) : Decidable (ClearString s) :=
  decidable_of_iff (s.all (fun c => decide (Escapable c)) = true) (by simp [ClearString])

instance (s : Str) : Decidable (PlainString s) :=
  decidable_of_iff (s.all (fun c => decide (Plain c)) = true) (by simp [PlainString])

theorem clearString_append (s t : Str) :
    ClearString (s ++ t) ↔ ClearString s ∧ ClearString t := List.forall_mem_append

theorem plainString_append (s t : Str) :
    PlainString (s ++ t) ↔ PlainString s ∧ PlainString t := List.forall_mem_append

theorem clearString_text_append (s t : String) :
    ClearString (text (s ++ t)) ↔ ClearString (text s) ∧ ClearString (text t) := by
  rw [text, String.toList_append]
  exact clearString_append _ _

/-- A literal is checked on its characters; the kernel is slow to decode its bytes. -/
theorem clearString_literal {l : Str} (h : ClearString l) :
    ClearString (text (String.ofList l)) := by
  rwa [text, String.toList_ofList]

theorem plainString_literal {l : Str} (h : PlainString l) :
    PlainString (text (String.ofList l)) := by
  rwa [text, String.toList_ofList]

/-- What needs no escape can do with the escapes it gets. -/
theorem PlainString.clear {s : Str} (h : PlainString s) : ClearString s :=
  fun c hc => .inr (.inr (.inr (h c hc).2.2))

theorem clearItems_iff (items : List Doc) : ClearItems items ↔ ∀ d ∈ items, d.Clear := by
  induction items with
  | nil => simp [ClearItems]
  | cons d rest ih => rw [ClearItems, ih, List.forall_mem_cons]

theorem clearMembers_iff (members : List (Str × Doc)) :
    ClearMembers members ↔ ∀ m ∈ members, ClearString m.1 ∧ m.2.Clear := by
  induction members with
  | nil => simp [ClearMembers]
  | cons m rest ih => rw [ClearMembers, ih, List.forall_mem_cons, and_assoc]

namespace Doc

@[simp] theorem clear_nat (n : ℕ) : (nat n).Clear := trivial

@[simp] theorem clear_bool (b : Bool) : (Doc.bool b).Clear := trivial

@[simp] theorem clear_null : Doc.null.Clear := trivial

@[simp] theorem clear_decimal (x : NumberText) : (Doc.number (.decimal x)).Clear := trivial

@[simp] theorem clear_escaped (s : Str) : (Doc.escaped s).Clear ↔ ClearString s := Iff.rfl

@[simp] theorem clear_bare (s : Str) : (Doc.bare s).Clear ↔ PlainString s := Iff.rfl

@[simp] theorem clear_literal (s : String) :
    (literal s).Clear ↔ PlainString (Format.text s) := Iff.rfl

@[simp] theorem clear_array (items : List Doc) :
    (Doc.array items).Clear ↔ ∀ d ∈ items, d.Clear := clearItems_iff items

@[simp] theorem clear_orNull (d : Option Doc) : (orNull d).Clear ↔ ∀ x ∈ d, x.Clear := by
  cases d <;> simp [orNull]

@[simp] theorem clear_object (members : List (Str × Doc)) :
    (Doc.object members).Clear ↔ ∀ m ∈ members, ClearString m.1 ∧ m.2.Clear :=
  clearMembers_iff members

@[simp] theorem clear_fields (members : List (String × Doc)) :
    (fields members).Clear ↔ ∀ m ∈ members, ClearString (Format.text m.1) ∧ m.2.Clear := by
  rw [fields, clear_object, List.forall_mem_map]

end Doc

/-! ### Their texts -/

/-- What needs no escape is written as it is. -/
theorem escapeJson_of_plain {s : Str} (h : PlainString s) : escapeJson s = s := by
  induction s with
  | nil => rfl
  | cons c s ih =>
    obtain ⟨⟨hquote, hslash, hlow⟩, hs⟩ := List.forall_mem_cons.mp h
    have hn : c ≠ '\n' := by
      rintro rfl
      exact absurd hlow (by decide)
    have hr : c ≠ '\r' := by
      rintro rfl
      exact absurd hlow (by decide)
    have ht : c ≠ '\t' := by
      rintro rfl
      exact absurd hlow (by decide)
    have hchar : escapeChar c = [c] := by
      rw [escapeChar, if_neg hquote, if_neg hslash, if_neg hn, if_neg hr, if_neg ht]
    rw [escapeJson, List.flatMap_cons, hchar]
    exact congrArg (c :: ·) (ih hs)

namespace Doc

theorem text_nat (n : ℕ) : (nat n).text = decimalText n := by
  simp [nat, Doc.text, FloatText.text, NumberText.text, NumberText.ofNat]

theorem text_literal (s : String) : (literal s).text = Json.literal s := rfl

theorem text_escaped (s : Str) : (Doc.escaped s).text = Json.escaped s := rfl

theorem text_array (items : List Doc) : (Doc.array items).text = Json.array (items.map text) := by
  have hitems : itemTexts items = items.map text := by
    induction items with
    | nil => rfl
    | cons d items ih => rw [itemTexts, ih, List.map_cons]
  rw [Doc.text, hitems]

/-- The format string of an object with literal keys. -/
theorem text_fields {members : List (String × Doc)}
    (h : ∀ m ∈ members, PlainString (Format.text m.1)) :
    (fields members).text = Json.object (members.map fun m => (m.1, m.2.text)) := by
  have htexts : memberTexts (members.map fun m => (Format.text m.1, m.2)) =
      (members.map fun m => (m.1, m.2.text)).map fun m => member m.1 m.2 := by
    induction members with
    | nil => rfl
    | cons m members ih =>
      obtain ⟨hkey, hrest⟩ := List.forall_mem_cons.mp h
      rw [List.map_cons, List.map_cons, List.map_cons, memberTexts, ih hrest, Json.escaped,
        escapeJson_of_plain hkey, member]
  rw [fields, Doc.text, htexts, Json.object]

end Doc

end LatencyOS.Json
