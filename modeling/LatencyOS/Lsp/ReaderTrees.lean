import LatencyOS.Lsp.Reader

/-!
# What the reader makes of a JSON text

The scanner that splits items passes over the text of a tree without a cut, so the reader
finds the structure of every text whose keys have no colon.  What it makes of a string is
right up to the escapes in hexadecimal, whose digits it keeps.
-/

namespace LatencyOS.Json

variable {F : Type}

/-! ## The scan over a tree -/

/-- The scan goes over a text without a cut. -/
def Passes (st : ItemScan) (s : Str) (st' : ItemScan) : Prop :=
  ∀ cur r, splitFrom st cur (s ++ r) = splitFrom st' (cur ++ s) r

theorem Passes.nil (st : ItemScan) : Passes st [] st := fun cur r => by
  rw [List.nil_append, List.append_nil]

theorem Passes.cons {st st' : ItemScan} {c : Char} {s : Str} (hc : ¬ st.Splits c)
    (hs : Passes (st.next c) s st') : Passes st (c :: s) st' := by
  intro cur r
  rw [List.cons_append, splitFrom, if_neg hc, hs, List.append_assoc, List.singleton_append]

theorem Passes.append {st st' st'' : ItemScan} {s t : Str} (hs : Passes st s st')
    (ht : Passes st' t st'') : Passes st (s ++ t) st'' := by
  intro cur r
  rw [List.append_assoc, hs, ht, List.append_assoc]

namespace ItemScan

/-- Outside strings, in a number of brackets. -/
def outside (depth : ℤ) : ItemScan := ⟨depth, false, false⟩

/-- In a string. -/
def within (depth : ℤ) : ItemScan := ⟨depth, true, false⟩

end ItemScan

open ItemScan

/-- A character that is nothing to the scan outside strings. -/
def Quiet (c : Char) : Prop :=
  c ≠ '"' ∧ c ≠ '{' ∧ c ≠ '[' ∧ c ≠ '}' ∧ c ≠ ']' ∧ c ≠ ','

instance (c : Char) : Decidable (Quiet c) :=
  inferInstanceAs (Decidable (_ ∧ _ ∧ _ ∧ _ ∧ _ ∧ _))

theorem passes_quiet {s : Str} (depth : ℤ) (h : ∀ c ∈ s, Quiet c) :
    Passes (outside depth) s (outside depth) := by
  induction s with
  | nil => exact .nil _
  | cons c s ih =>
    rw [List.forall_mem_cons] at h
    obtain ⟨⟨h₁, h₂, h₃, h₄, h₅, h₆⟩, hrest⟩ := h
    refine .cons (fun hsplit => h₆ hsplit.1) ?_
    have hnext : (outside depth).next c = outside depth := by
      simp [next, outside, h₁, h₂, h₃, h₄, h₅]
    rw [hnext]
    exact ih hrest

theorem quiet_of_isWhitespace {c : Char} (h : isWhitespace c = true) : Quiet c := by
  refine ⟨?_, ?_, ?_, ?_, ?_, ?_⟩ <;> rintro rfl <;> exact absurd h (by decide)

theorem isWhitespace_of_isBlank {c : Char} (h : isBlank c = true) : isWhitespace c = true := by
  simp only [isBlank, Bool.or_eq_true, beq_iff_eq] at h
  rcases h with ((rfl | rfl) | rfl) | rfl <;> decide

theorem Blank.isWhitespace (b : Blank) : ∀ c ∈ b.1, isWhitespace c = true :=
  fun c hc => isWhitespace_of_isBlank (b.2 c hc)

theorem passes_blank (depth : ℤ) (b : Blank) : Passes (outside depth) b.1 (outside depth) :=
  passes_quiet depth fun c hc => quiet_of_isWhitespace (b.isWhitespace c hc)

/-- In a string a character other than a quote and a backslash is passed. -/
theorem passes_within {s : Str} (depth : ℤ) (h : ∀ c ∈ s, c ≠ '"' ∧ c ≠ '\\') :
    Passes (within depth) s (within depth) := by
  induction s with
  | nil => exact .nil _
  | cons c s ih =>
    rw [List.forall_mem_cons] at h
    obtain ⟨⟨hquote, hescape⟩, hrest⟩ := h
    refine .cons (fun hsplit => by cases hsplit.2.2.1) ?_
    have hnext : (within depth).next c = within depth := by
      simp [next, within, hquote, hescape]
    rw [hnext]
    exact ih hrest

/-- A backslash in a string takes the next character along. -/
theorem passes_escape (depth : ℤ) (c : Char) :
    Passes (within depth) ['\\', c] (within depth) := by
  refine .cons (fun hsplit => by cases hsplit.2.2.1) ?_
  refine .cons (fun hsplit => by cases hsplit.2.1) ?_
  exact .nil _

theorem plain_of_hexValue {c : Char} (h : (hexValue c).isSome = true) : c ≠ '"' ∧ c ≠ '\\' := by
  constructor <;> rintro rfl <;> exact absurd h (by decide)

theorem passes_piece (depth : ℤ) (p : Piece) :
    Passes (within depth) p.text (within depth) := by
  cases p with
  | plain c h => exact passes_within depth (by simpa [Piece.text] using ⟨h.1, h.2.1⟩)
  | short e => exact passes_escape depth e.letter
  | unicode c units h =>
    have hunits : ∀ us : List Str, (∀ u ∈ us, ∃ n, unitValue u = some n) →
        Passes (within depth) (us.flatMap fun u => '\\' :: 'u' :: u) (within depth) := by
      intro us hus
      induction us with
      | nil => exact .nil _
      | cons u us ih =>
        rw [List.forall_mem_cons] at hus
        obtain ⟨⟨n, hn⟩, hrest⟩ := hus
        have hdigits : Passes (within depth) u (within depth) :=
          passes_within depth fun c hc => plain_of_hexValue (isHexDigit_of_unitValue hn c hc)
        exact ((passes_escape depth 'u').append hdigits).append (ih hrest)
    exact hunits units fun u hu => unitValue_of_mem h hu

theorem passes_string (depth : ℤ) (s : List Piece) :
    Passes (outside depth) (stringText s) (outside depth) := by
  have hbody : Passes (within depth) (s.flatMap Piece.text) (within depth) := by
    induction s with
    | nil => exact .nil _
    | cons p s ih => exact (passes_piece depth p).append ih
  refine .cons (fun hsplit => absurd hsplit.1 (by decide)) ?_
  refine hbody.append (.cons (fun hsplit => absurd hsplit.1 (by decide)) (.nil _))

theorem quiet_of_digit {c : Char} (h : c.isDigit = true) : Quiet c := by
  refine ⟨?_, ?_, ?_, ?_, ?_, ?_⟩ <;> rintro rfl <;> exact absurd h (by decide)

theorem NumberText.quiet {x : NumberText} : ∀ c ∈ x.text, Quiet c := by
  intro c hc
  rcases x.mem_text hc with h | h
  · exact quiet_of_digit h
  · have hall : ∀ c ∈ ['-', '+', '.', 'e', 'E'], Quiet c := forall_mem_of_all (by decide)
    exact hall c h

/-- Items between commas, in a bracket. -/
theorem passes_intercalate {depth : ℤ} (hdepth : 0 < depth) {texts : List Str}
    (h : ∀ x ∈ texts, Passes (outside depth) x (outside depth)) :
    Passes (outside depth) ([','].intercalate texts) (outside depth) := by
  have hcomma : Passes (outside depth) [','] (outside depth) := by
    refine .cons (fun hsplit => ?_) (.nil _)
    have hzero : depth = 0 := hsplit.2.2.2
    omega
  induction texts with
  | nil => exact .nil _
  | cons x texts ih =>
    rw [List.forall_mem_cons] at h
    cases texts with
    | nil => simpa [List.intercalate] using h.1
    | cons y texts =>
      have hcons : [','].intercalate (x :: y :: texts) =
          x ++ ([','] ++ [','].intercalate (y :: texts)) := by
        simp [List.intercalate]
      rw [hcons]
      exact h.1.append (hcomma.append (ih h.2))

mutual

/-- The scan goes over the text of a tree. -/
theorem passes_tree (depth : ℤ) (hdepth : 0 ≤ depth) :
    (t : Tree) → Passes (outside depth) t.text (outside depth)
  | .null => passes_quiet depth (forall_mem_of_all (by decide))
  | .bool b => by
    cases b
    · exact passes_quiet depth (forall_mem_of_all (by decide))
    · exact passes_quiet depth (forall_mem_of_all (by decide))
  | .number x => passes_quiet depth x.quiet
  | .string s => passes_string depth s
  | .array blank items => by
    have hbody := passes_intercalate (by omega) (passes_items (depth + 1) (by omega) items)
    have hclose : Passes (outside (depth + 1)) [']'] (outside depth) := by
      refine .cons (fun hsplit => absurd hsplit.1 (by decide)) ?_
      have hnext : (outside (depth + 1)).next ']' = outside depth := by
        simp [next, outside]
      rw [hnext]
      exact .nil _
    refine .cons (fun hsplit => absurd hsplit.1 (by decide)) ?_
    exact ((passes_blank (depth + 1) blank).append hbody).append hclose
  | .object blank members => by
    have hbody :=
      passes_intercalate (by omega) (passes_members (depth + 1) (by omega) members)
    have hclose : Passes (outside (depth + 1)) ['}'] (outside depth) := by
      refine .cons (fun hsplit => absurd hsplit.1 (by decide)) ?_
      have hnext : (outside (depth + 1)).next '}' = outside depth := by
        simp [next, outside]
      rw [hnext]
      exact .nil _
    refine .cons (fun hsplit => absurd hsplit.1 (by decide)) ?_
    exact ((passes_blank (depth + 1) blank).append hbody).append hclose

theorem passes_items (depth : ℤ) (hdepth : 0 ≤ depth) :
    (items : Items) → ∀ x ∈ items.texts, Passes (outside depth) x (outside depth)
  | .nil => fun x hx => by cases hx
  | .cons before item after rest => by
    rw [Items.texts, List.forall_mem_cons]
    refine ⟨?_, passes_items depth hdepth rest⟩
    exact ((passes_blank depth before).append (passes_tree depth hdepth item)).append
      (passes_blank depth after)

theorem passes_members (depth : ℤ) (hdepth : 0 ≤ depth) :
    (members : Members) → ∀ x ∈ members.texts, Passes (outside depth) x (outside depth)
  | .nil => fun x hx => by cases hx
  | .cons before key behindKey beforeValue value after rest => by
    rw [Members.texts, List.forall_mem_cons]
    refine ⟨?_, passes_members depth hdepth rest⟩
    have hcolon : Passes (outside depth) [':'] (outside depth) :=
      passes_quiet depth (forall_mem_of_all (by decide))
    have hkey := ((passes_blank depth before).append (passes_string depth key)).append
      (passes_blank depth behindKey)
    have hvalue := ((passes_blank depth beforeValue).append (passes_tree depth hdepth value)).append
      (passes_blank depth after)
    exact hkey.append (hcolon.append hvalue)

end

/-! ## Items -/

/-- Whitespace in front of an item is trimmed with it. -/
theorem splitFrom_whitespace_append {w : Str} (hw : ∀ c ∈ w, isWhitespace c = true)
    (st : ItemScan) (cur s : Str) : splitFrom st (w ++ cur) s = splitFrom st cur s := by
  have htrim : ∀ cur : Str, trim (w ++ cur) = trim cur := by
    intro cur
    simpa using trim_surround hw cur (b := []) (by simp)
  induction s generalizing st cur with
  | nil => rw [splitFrom, splitFrom, htrim]
  | cons c s ih =>
    rw [splitFrom, splitFrom, htrim, List.append_assoc, ih]

/-- Whitespace behind the last item is trimmed with it. -/
theorem splitFrom_append_whitespace {w : Str} (hw : ∀ c ∈ w, isWhitespace c = true)
    (st : ItemScan) (cur s : Str) : splitFrom st cur (s ++ w) = splitFrom st cur s := by
  induction s generalizing st cur with
  | nil =>
    rw [List.nil_append]
    have hend : ∀ (w : Str), (∀ c ∈ w, isWhitespace c = true) → ∀ st cur,
        splitFrom st cur w = if trim (cur ++ w) = [] then [] else [trim (cur ++ w)] := by
      intro w hw
      induction w with
      | nil =>
        intro st cur
        rw [List.append_nil, splitFrom]
      | cons c w ih =>
        rw [List.forall_mem_cons] at hw
        intro st cur
        have hc : ¬ st.Splits c := fun hsplit => (quiet_of_isWhitespace hw.1).2.2.2.2.2 hsplit.1
        conv_lhs => rw [splitFrom]
        rw [if_neg hc, ih hw.2, List.append_assoc, List.singleton_append]
    rw [hend w hw, splitFrom, trim_append hw]
  | cons c s ih =>
    rw [List.cons_append, splitFrom, splitFrom, ih, ih]

theorem exists_trim (s : Str) : ∃ a b : Str, s = a ++ trim s ++ b ∧
    (∀ c ∈ a, isWhitespace c = true) ∧ ∀ c ∈ b, isWhitespace c = true := by
  refine ⟨s.takeWhile isWhitespace, (s.dropWhile isWhitespace).rtakeWhile isWhitespace, ?_, ?_, ?_⟩
  · rw [trim, List.append_assoc, List.rdropWhile_append_rtakeWhile,
      List.takeWhile_append_dropWhile]
  · exact fun c hc => List.mem_takeWhile_imp hc
  · exact fun c hc => List.mem_rtakeWhile_imp hc

/-- The items of a text are those of the trimmed text. -/
theorem splitJsonItems_trim (s : Str) : splitJsonItems (trim s) = splitJsonItems s := by
  obtain ⟨a, b, hs, ha, hb⟩ := exists_trim s
  have hpass : splitFrom .start [] (a ++ trim s) = splitFrom .start ([] ++ a) (trim s) :=
    passes_quiet 0 (fun c hc => quiet_of_isWhitespace (ha c hc)) [] (trim s)
  have hall : splitJsonItems (a ++ trim s ++ b) = splitJsonItems (trim s) := by
    have hfront := splitFrom_whitespace_append ha .start [] (trim s)
    rw [List.append_nil] at hfront
    rw [splitJsonItems, splitFrom_append_whitespace hb, hpass, List.nil_append, hfront]
    rfl
  rw [← hs] at hall
  exact hall.symm

/-- A text of passed items is split into them. -/
theorem splitFrom_intercalate {texts : List Str} (hne : texts ≠ [])
    (hpass : ∀ x ∈ texts, Passes .start x .start) (hlast : ∀ x ∈ texts, trim x ≠ []) {w : Str}
    (hw : ∀ c ∈ w, isWhitespace c = true) :
    splitFrom .start w ([','].intercalate texts) = texts.map trim := by
  have htrim : ∀ x : Str, trim (w ++ x) = trim x := by
    intro x
    simpa using trim_surround hw x (b := []) (by simp)
  induction texts generalizing w with
  | nil => exact absurd rfl hne
  | cons x texts ih =>
    rw [List.forall_mem_cons] at hpass hlast
    cases texts with
    | nil =>
      have hone := hpass.1 w []
      rw [List.append_nil] at hone
      have hsingle : [','].intercalate [x] = x := by simp [List.intercalate]
      rw [hsingle, hone, splitFrom, htrim, if_neg hlast.1]
      rfl
    | cons y texts =>
      have hcons : [','].intercalate (x :: y :: texts) =
          x ++ ',' :: [','].intercalate (y :: texts) := by
        simp [List.intercalate]
      have hsplits : ItemScan.start.Splits ',' := ⟨rfl, rfl, rfl, rfl⟩
      rw [hcons, hpass.1, splitFrom, if_pos hsplits, htrim, List.map_cons,
        ih (List.cons_ne_nil _ _) hpass.2 hlast.2 (by simp) (by simp)]

/-- The items between brackets, with blanks. -/
theorem splitJsonItems_intercalate {texts : List Str} (hne : texts ≠ [])
    (hpass : ∀ x ∈ texts, Passes .start x .start) (hlast : ∀ x ∈ texts, trim x ≠ [])
    (blank : Blank) :
    splitJsonItems (trim (blank.1 ++ [','].intercalate texts)) = texts.map trim := by
  have hblank := passes_blank 0 blank [] ([','].intercalate texts)
  rw [splitJsonItems_trim]
  exact hblank.trans (splitFrom_intercalate hne hpass hlast blank.isWhitespace)

/-! ## Strings -/

/-- What the reader makes of a character: behind `\u` it keeps the letter and the digits. -/
def Piece.readerChars : Piece → Str
  | .plain c _ => [c]
  | .short e => [e.char]
  | .unicode _ units _ => units.flatMap fun u => 'u' :: u

def readString (s : List Piece) : Str := s.flatMap Piece.readerChars

theorem unescape_cons {c : Char} (h : c ≠ '\\') (s : Str) :
    unescape (c :: s) = c :: unescape s := by
  rw [unescape.eq_def]
  simp only [h, if_false]

theorem unescape_escape (c : Char) (s : Str) :
    unescape ('\\' :: c :: s) = unescapeChar c :: unescape s := by
  rw [unescape.eq_def]
  simp

theorem unescape_append {s : Str} (h : ∀ c ∈ s, c ≠ '\\') (r : Str) :
    unescape (s ++ r) = s ++ unescape r := by
  induction s with
  | nil => rfl
  | cons c s ih =>
    rw [List.forall_mem_cons] at h
    rw [List.cons_append, unescape_cons h.1, ih h.2, List.cons_append]

theorem unescape_piece (p : Piece) (r : Str) :
    unescape (p.text ++ r) = p.readerChars ++ unescape r := by
  cases p with
  | plain c h => exact unescape_cons h.2.1 r
  | short e =>
    have hletter : unescapeChar e.letter = e.char := by cases e <;> decide
    change unescape ('\\' :: e.letter :: r) = e.char :: unescape r
    rw [unescape_escape, hletter]
  | unicode c units h =>
    have hunits : ∀ us : List Str, (∀ u ∈ us, ∃ n, unitValue u = some n) →
        unescape ((us.flatMap fun u => '\\' :: 'u' :: u) ++ r) =
          (us.flatMap fun u => 'u' :: u) ++ unescape r := by
      intro us hus
      induction us with
      | nil => rfl
      | cons u us ih =>
        rw [List.forall_mem_cons] at hus
        obtain ⟨⟨n, hn⟩, hrest⟩ := hus
        have hdigits : ∀ c ∈ u, c ≠ '\\' := fun c hc =>
          (plain_of_hexValue (isHexDigit_of_unitValue hn c hc)).2
        rw [List.flatMap_cons, List.flatMap_cons, List.append_assoc, List.cons_append,
          List.cons_append, unescape_escape, unescape_append hdigits, ih hrest]
        simp [unescapeChar]
    exact hunits units fun u hu => unitValue_of_mem h hu

theorem unescape_pieces (s : List Piece) : unescape (s.flatMap Piece.text) = readString s := by
  induction s with
  | nil => rfl
  | cons p s ih => rw [List.flatMap_cons, unescape_piece, ih, readString, readString,
      List.flatMap_cons]

/-! ## Shapes of texts -/

section Shapes
variable {parseF64 : Str → Option F} {parse : Str → Option (JsonValue F)} {text body : Str}

theorem inner_between (c d : Char) (body : Str) : inner (c :: (body ++ [d])) = body := by
  rw [inner, List.tail_cons, List.dropLast_concat]

theorem parseStep_string (h : trim text = '"' :: (body ++ ['"'])) :
    parseStep parseF64 parse text = some (.string (unescape body)) := by
  have hlast : ('"' :: (body ++ ['"'])).getLast? = some '"' := by
    rw [← List.cons_append, List.getLast?_concat]
  unfold parseStep
  rw [h]
  dsimp only
  rw [if_neg (fun he => by cases he), if_neg (fun he => by cases he),
    if_neg (fun he => by cases he), if_pos ⟨rfl, hlast, by simp⟩, inner_between]

theorem parseStep_array (h : trim text = '[' :: (body ++ [']'])) :
    parseStep parseF64 parse text =
      if trim body = [] then some (.array [])
      else ((splitJsonItems (trim body)).mapM parse).map .array := by
  have hlast : ('[' :: (body ++ [']'])).getLast? = some ']' := by
    rw [← List.cons_append, List.getLast?_concat]
  unfold parseStep
  rw [h]
  dsimp only
  rw [if_neg (fun he => by cases he), if_neg (fun he => by cases he),
    if_neg (fun he => by cases he), if_neg (fun he => by cases he.1), if_pos ⟨rfl, hlast⟩,
    inner_between]

theorem parseStep_object (h : trim text = '{' :: (body ++ ['}'])) :
    parseStep parseF64 parse text =
      if trim body = [] then some (.object [])
      else ((splitJsonItems (trim body)).foldlM (insertPair parse) []).map .object := by
  have hlast : ('{' :: (body ++ ['}'])).getLast? = some '}' := by
    rw [← List.cons_append, List.getLast?_concat]
  unfold parseStep
  rw [h]
  dsimp only
  rw [if_neg (fun he => by cases he), if_neg (fun he => by cases he),
    if_neg (fun he => by cases he), if_neg (fun he => by cases he.1),
    if_neg (fun he => by cases he.1), if_pos ⟨rfl, hlast⟩, inner_between]

/-- What starts with none of the characters of the other shapes is a number. -/
theorem parseStep_number {c : Char} {s : Str} (h : trim text = c :: s)
    (hc : c = '-' ∨ c.isDigit = true) :
    parseStep parseF64 parse text = (parseF64 (c :: s)).map .number := by
  have hne : c ≠ 'n' ∧ c ≠ 't' ∧ c ≠ 'f' ∧ c ≠ '"' ∧ c ≠ '[' ∧ c ≠ '{' := by
    refine ⟨?_, ?_, ?_, ?_, ?_, ?_⟩ <;> rintro rfl <;> exact absurd hc (by decide)
  obtain ⟨hn, ht, hf, hquote, hbracket, hbrace⟩ := hne
  have hnull : c :: s ≠ "null".toList := fun he => hn (List.cons.inj he).1
  have htrue : c :: s ≠ "true".toList := fun he => ht (List.cons.inj he).1
  have hfalse : c :: s ≠ "false".toList := fun he => hf (List.cons.inj he).1
  unfold parseStep
  rw [h]
  dsimp only
  rw [if_neg hnull, if_neg htrue, if_neg hfalse, if_neg (fun he => hquote (Option.some.inj he.1)),
    if_neg (fun he => hbracket (Option.some.inj he.1)),
    if_neg (fun he => hbrace (Option.some.inj he.1))]

end Shapes

/-! ## Trees -/

/-- The ends of a text that is not trimmed. -/
def Solid (s : Str) : Prop :=
  ∃ c d, s.head? = some c ∧ s.getLast? = some d ∧ isWhitespace c = false ∧ isWhitespace d = false

theorem Solid.trim_eq {s : Str} (h : Solid s) : trim s = s := by
  obtain ⟨c, d, hhead, hlast, hc, hd⟩ := h
  exact trim_eq_self hhead hlast hc hd

theorem Solid.trim_surround {s : Str} (h : Solid s) (before after : Blank) :
    trim (before.1 ++ s ++ after.1) = s := by
  rw [LatencyOS.trim_surround before.isWhitespace s after.isWhitespace, h.trim_eq]

theorem Solid.between {c d : Char} (hc : isWhitespace c = false) (hd : isWhitespace d = false)
    (body : Str) : Solid (c :: (body ++ [d])) :=
  ⟨c, d, rfl, by rw [← List.cons_append, List.getLast?_concat], hc, hd⟩

theorem not_isWhitespace_of_digit {c : Char} (h : c.isDigit = true) : isWhitespace c = false := by
  rw [Bool.eq_false_iff]
  intro hw
  have hval : 48 ≤ c.toNat ∧ c.toNat ≤ 57 := Char.isDigit_iff_toNat.mp h
  simp only [isWhitespace, Bool.or_eq_true, Bool.and_eq_true, decide_eq_true_eq, beq_iff_eq] at hw
  omega

/-- A number starts with a sign or a digit. -/
theorem NumberText.head (x : NumberText) :
    ∃ c s, x.text = c :: s ∧ (c = '-' ∨ c.isDigit = true) := by
  obtain ⟨hne, hdigits⟩ := x.int_digits
  unfold NumberText.text
  by_cases h : x.negative = true
  · rw [if_pos h]
    exact ⟨'-', _, rfl, .inl rfl⟩
  · rw [if_neg h]
    cases hint : x.int with
    | nil => exact absurd hint hne
    | cons c s => exact ⟨c, _, rfl, .inr (hdigits c (by simp [hint]))⟩

/-- It ends with a digit. -/
theorem NumberText.last (x : NumberText) : ∃ d, x.text.getLast? = some d ∧ d.isDigit = true := by
  have hlast : ∀ s : Str, Digits s → ∃ d, s.getLast? = some d ∧ d.isDigit = true := by
    intro s hs
    exact ⟨_, List.getLast?_eq_getLast_of_ne_nil hs.1, hs.2 _ (List.getLast_mem hs.1)⟩
  have happend : ∀ a b : Str, (∃ d, b.getLast? = some d ∧ d.isDigit = true) →
      ∃ d, (a ++ b).getLast? = some d ∧ d.isDigit = true := by
    rintro a b ⟨d, hd, hdigit⟩
    exact ⟨d, by rw [List.getLast?_append, hd, Option.some_or], hdigit⟩
  unfold NumberText.text
  cases hexp : x.exp with
  | some e =>
    refine happend _ _ ?_
    exact happend _ _ (hlast _ (x.exp_digits e hexp).2)
  | none =>
    rw [Option.map_none, Option.getD_none, List.append_nil]
    cases hfrac : x.frac with
    | some f =>
      refine happend _ _ ?_
      exact happend ['.'] f (hlast _ (x.frac_digits f hfrac))
    | none =>
      rw [Option.map_none, Option.getD_none, List.append_nil]
      exact happend _ _ (hlast _ x.int_digits)

theorem solid_string (s : List Piece) : Solid (stringText s) :=
  .between (by decide) (by decide) _

theorem solid_tree (t : Tree) : Solid t.text := by
  cases t with
  | null => exact ⟨'n', 'l', rfl, rfl, by decide, by decide⟩
  | bool b =>
    cases b with
    | true => exact ⟨'t', 'e', rfl, rfl, by decide, by decide⟩
    | false => exact ⟨'f', 'e', rfl, rfl, by decide, by decide⟩
  | number x =>
    obtain ⟨c, s, htext, hc⟩ := x.head
    obtain ⟨d, hlast, hd⟩ := x.last
    refine ⟨c, d, by rw [Tree.text, htext]; rfl, hlast, ?_, not_isWhitespace_of_digit hd⟩
    rcases hc with rfl | hc
    · decide
    · exact not_isWhitespace_of_digit hc
  | string s => exact solid_string s
  | array blank items => exact .between (by decide) (by decide) _
  | object blank members => exact .between (by decide) (by decide) _

end LatencyOS.Json
