import LatencyOS.Tools.Fmt

/-!
# The slices of the formatter

The only slice that is not between characters by construction is the one that looks for a
unit behind a decimal number: it takes two bytes, whatever they belong to.  Lexeme by lexeme,
over characters, `TornNumber` says when such a number comes up.
-/

namespace LatencyOS.Fmt

open Format
open Lexer (isDigit isAlpha isDottedWord hexValue)

/-! ## Lexemes over characters -/

def isHexDigit (b : UInt8) : Bool := (hexValue b).isSome

/-- What is behind a string, from behind its opening quote. -/
def afterString : Str → Str
  | [] => []
  | c :: s =>
    if c = '"' then s
    else if c = '\\' then
      match s with
      | [] => []
      | _ :: s => afterString s
    else afterString s

/-- What is behind the digits and the fraction of a decimal number. -/
def afterDecimal (s : Str) : Str :=
  let r := s.dropWhile (onAscii isDigit)
  if r.head? = some '.' ∧ (r.drop 1).head?.any (onAscii isDigit) then
    (r.drop 1).dropWhile (onAscii isDigit)
  else r

/-- What is behind a unit, if there is one. -/
def afterUnit (r : Str) : Str :=
  if ∃ u ∈ [text "ns", text "us", text "ms"], u <+: r then r.drop 2
  else if r.head? = some 's' then r.drop 1
  else r

/-- A number in hexadecimal. -/
def IsHex (s : Str) : Prop :=
  s.head? = some '0' ∧ ((s.drop 1).head? = some 'x' ∨ (s.drop 1).head? = some 'X')

instance (s : Str) : Decidable (IsHex s) := inferInstanceAs (Decidable (_ ∧ _))

/-- What is behind a number, from its first digit on. -/
def afterNumber (s : Str) : Str :=
  if IsHex s then (s.drop 2).dropWhile (onAscii isHexDigit) else afterUnit (afterDecimal s)

/-- What is behind a lexeme of a line; the operators count as one character each. -/
def afterLexeme (c : Char) (s : Str) : Str :=
  if c = '"' then afterString s
  else if c = '$' ∨ c = '#' ∨ c = '@' then s.dropWhile (onAscii isDottedWord)
  else if onAscii isDigit c then afterNumber (c :: s)
  else if onAscii isAlpha c || c == '_' then s.dropWhile (onAscii isDottedWord)
  else s

/-- The first two bytes of a text end inside a character: it starts with one of three or four
bytes, or with one of one byte and then one of more. -/
def Torn : Str → Prop
  | [] => False
  | c :: s => 3 ≤ c.utf8Size ∨ c.utf8Size = 1 ∧ ∃ d ∈ s.head?, d.utf8Size ≠ 1

/-- A decimal number whose digits are followed by a torn text. -/
def TearsAt (s : Str) : Prop :=
  s.head?.any (onAscii isDigit) ∧ ¬ IsHex s ∧ Torn (afterDecimal s)

/-- One of the lexemes of a line is such a number. -/
inductive TornNumber : Str → Prop
  | here {s : Str} (h : TearsAt s) : TornNumber s
  | later {c : Char} {s : Str} (h : TornNumber (afterLexeme c s)) : TornNumber (c :: s)

theorem tornNumber_cons_iff {c : Char} {s : Str} :
    TornNumber (c :: s) ↔ TearsAt (c :: s) ∨ TornNumber (afterLexeme c s) := by
  constructor
  · intro h
    cases h with
    | here h => exact .inl h
    | later h => exact .inr h
  · rintro (h | h)
    · exact .here h
    · exact .later h

theorem not_tornNumber_nil : ¬ TornNumber [] := by
  intro h
  cases h with
  | here h => exact absurd h.1 (by simp)

/-! ## Slices -/

/-- A slice from between two characters on. -/
theorem sliceOf_drop (u r : Str) {k : ℕ} (hk : k ≤ byteLen r) :
    sliceOf (u ++ r) (utf8 r) ((utf8 r).drop k) =
      match splitAtByte r k with
      | some m => .ok m.1
      | none => .error .panic := by
  have hstart : byteLen (u ++ r) - (utf8 r).length = byteLen u := by
    rw [byteLen_append, byteLen, byteLen, Nat.add_sub_cancel]
  have hstop : byteLen (u ++ r) - ((utf8 r).drop k).length = byteLen u + k := by
    rw [List.length_drop, byteLen_append]
    unfold byteLen at hk ⊢
    omega
  rw [sliceOf, hstart, hstop, strSlice_append]
  cases splitAtByte r k <;> rfl

/-- A slice of whole characters. -/
theorem sliceOf_append (u m v : Str) :
    sliceOf (u ++ (m ++ v)) (utf8 (m ++ v)) (utf8 v) = .ok m := by
  have hdrop : (utf8 (m ++ v)).drop (byteLen m) = utf8 v := by
    rw [utf8_append, byteLen, List.drop_left]
  rw [← hdrop, sliceOf_drop u (m ++ v) (by simp), splitAtByte_eq_some_iff.mpr ⟨rfl, rfl⟩]

/-- A slice up to a suffix. -/
theorem sliceOf_suffix {line u r r' : Str} (hline : line = u ++ r) (h : r' <:+ r) :
    ∃ m, sliceOf line (utf8 r) (utf8 r') = .ok m := by
  obtain ⟨m, rfl⟩ := h
  exact ⟨m, hline ▸ sliceOf_append u m r'⟩

/-! ## Numbers -/

/-- A byte up to an ASCII one is ASCII. -/
theorem lt_of_range {lo hi b : UInt8} (hhi : hi < 0x80) (h : (lo ≤ b && b ≤ hi) = true) :
    b < 0x80 := by
  simp only [Bool.and_eq_true, decide_eq_true_eq] at h
  exact UInt8.lt_of_le_of_lt h.2 hhi

theorem isDigit_ascii (b : UInt8) (h : isDigit b = true) : b < 0x80 :=
  lt_of_range (by decide) h

theorem isHexDigit_ascii (b : UInt8) (h : isHexDigit b = true) : b < 0x80 := by
  unfold isHexDigit hexValue at h
  split at h
  · next hdigit => exact isDigit_ascii b hdigit
  · split at h
    · next hlower => exact lt_of_range (by decide) hlower
    · split at h
      · next hupper => exact lt_of_range (by decide) hupper
      · cases h

theorem isAlpha_ascii (b : UInt8) (h : isAlpha b = true) : b < 0x80 := by
  rcases Bool.or_eq_true_iff.mp h with h | h
  · exact lt_of_range (by decide) h
  · exact lt_of_range (by decide) h

theorem isDottedWord_ascii (b : UInt8) (h : isDottedWord b = true) : b < 0x80 := by
  simp only [isDottedWord, Lexer.isWord, Bool.or_eq_true, beq_iff_eq] at h
  rcases h with ((h | h) | rfl) | rfl
  · exact isAlpha_ascii b h
  · exact isDigit_ascii b h
  · decide
  · decide

theorem decimalRest_utf8 (s : Str) : decimalRest (utf8 s) = utf8 (afterDecimal s) := by
  unfold decimalRest afterDecimal
  rw [utf8_dropWhile isDigit_ascii]
  generalize s.dropWhile (onAscii isDigit) = r
  have hpoint : (utf8 r).head? = some 0x2E ↔ r.head? = some '.' :=
    head_utf8_iff (d := '.') (by decide) r
  by_cases h : r.head? = some '.'
  · have hdrop : (utf8 r).drop 1 = utf8 (r.drop 1) := drop_one_utf8 (by decide) h
    simp only [hpoint, h, true_and, hdrop, any_head_utf8 isDigit_ascii,
      utf8_dropWhile isDigit_ascii]
    split <;> rfl
  · simp only [hpoint, h, false_and, if_false]

/-- Two bytes are a slice unless they end inside a character. -/
theorem splitAtByte_two (r : Str) (hlen : 2 ≤ byteLen r) :
    (Torn r → splitAtByte r 2 = none) ∧
    (¬ Torn r → ∃ m, splitAtByte r 2 = some m ∧
      ∀ u : Str, byteLen u = 2 → (m.1 = u ↔ u <+: r)) := by
  have hsplit : ∀ m, splitAtByte r 2 = some m → ∀ u : Str, byteLen u = 2 →
      (m.1 = u ↔ u <+: r) := by
    rintro ⟨m, v⟩ h u hu
    obtain ⟨rfl, hm⟩ := splitAtByte_eq_some_iff.mp h
    constructor
    · rintro rfl
      exact List.prefix_append _ _
    · rintro ⟨t, ht⟩
      have hother : splitAtByte (m ++ v) 2 = some (u, t) :=
        splitAtByte_eq_some_iff.mpr ⟨ht.symm, hu⟩
      rw [h] at hother
      cases hother
      rfl
  cases r with
  | nil => cases hlen
  | cons c r =>
    constructor
    · rintro (hc | ⟨hc, d, hd, hsize⟩)
      · rw [splitAtByte, if_neg (by omega)]
      · obtain ⟨t, rfl⟩ := List.head?_eq_some_iff.mp hd
        have hpos := d.utf8Size_pos
        rw [splitAtByte, if_pos (by omega), hc, splitAtByte, if_neg (by omega)]
        rfl
    · intro hwhole
      unfold Torn at hwhole
      rw [not_or, not_and, not_exists] at hwhole
      suffices h : ∃ m, splitAtByte (c :: r) 2 = some m by
        obtain ⟨m, hm⟩ := h
        exact ⟨m, hm, hsplit m hm⟩
      have hpos := c.utf8Size_pos
      by_cases hc : c.utf8Size = 1
      · cases r with
        | nil => simp [byteLen_cons, hc] at hlen
        | cons d r =>
          have hd : d.utf8Size = 1 := by
            by_contra hne
            exact hwhole.2 hc d ⟨rfl, hne⟩
          exact ⟨([c, d], r), splitAtByte_eq_some_iff.mpr ⟨rfl, by simp [byteLen_cons, hc, hd]⟩⟩
      · have hc : c.utf8Size = 2 := by omega
        exact ⟨([c], r), splitAtByte_eq_some_iff.mpr ⟨rfl, by simp [byteLen_cons, hc]⟩⟩

theorem two_le_byteLen_of_torn {r : Str} (h : Torn r) : 2 ≤ byteLen r := by
  cases r with
  | nil => exact h.elim
  | cons c r =>
    rw [byteLen_cons]
    rcases h with hc | ⟨hc, d, hd, -⟩
    · omega
    · obtain ⟨t, rfl⟩ := List.head?_eq_some_iff.mp hd
      have hpos := d.utf8Size_pos
      rw [byteLen_cons]
      omega

theorem drop_two_utf8 {u r : Str} (hu : u ∈ [text "ns", text "us", text "ms"]) (h : u <+: r) :
    (utf8 r).drop 2 = utf8 (r.drop 2) := by
  obtain ⟨t, rfl⟩ := h
  simp only [List.mem_cons, List.not_mem_nil, or_false] at hu
  rcases hu with rfl | rfl | rfl <;> rfl

/-- The search for a unit panics at a torn text, and else finds it. -/
theorem unitRest_utf8 {line u r : Str} (hline : line = u ++ r) :
    (Torn r → unitRest line (utf8 r) = .error .panic) ∧
    (¬ Torn r → unitRest line (utf8 r) = .ok (utf8 (afterUnit r))) := by
  have hunits : ∀ u ∈ [text "ns", text "us", text "ms"], byteLen u = 2 := by decide
  have hsecond : (utf8 r).head? = some 0x73 ↔ r.head? = some 's' :=
    head_utf8_iff (d := 's') (by decide) r
  have hsingle : (if (utf8 r).head? = some 0x73 then (utf8 r).drop 1 else utf8 r) =
      utf8 (if r.head? = some 's' then r.drop 1 else r) := by
    by_cases h : r.head? = some 's'
    · rw [if_pos (hsecond.mpr h), if_pos h, drop_one_utf8 (by decide) h]
    · rw [if_neg (mt hsecond.mp h), if_neg h]
  have hbytes : (utf8 r).length = byteLen r := rfl
  unfold unitRest
  dsimp only
  rw [hsingle, hbytes]
  by_cases hlen : 2 ≤ byteLen r
  · obtain ⟨htorn, hwhole⟩ := splitAtByte_two r hlen
    rw [if_pos hlen, hline, sliceOf_drop u r hlen]
    constructor
    · intro h
      rw [htorn h]
      rfl
    · intro h
      obtain ⟨m, hm, hunit⟩ := hwhole h
      rw [hm]
      have hiff : (m.1 = text "ns" ∨ m.1 = text "us" ∨ m.1 = text "ms") ↔
          ∃ u ∈ [text "ns", text "us", text "ms"], u <+: r := by
        simp only [List.mem_cons, List.not_mem_nil, or_false, exists_eq_or_imp, exists_eq_left]
        rw [hunit _ (hunits _ (by simp)), hunit _ (hunits _ (by simp)),
          hunit _ (hunits _ (by simp))]
      change Except.ok (if m.1 = _ ∨ m.1 = _ ∨ m.1 = _ then _ else _) = _
      unfold afterUnit
      by_cases hex : ∃ u ∈ [text "ns", text "us", text "ms"], u <+: r
      · obtain ⟨v, hv, hprefix⟩ := hex
        rw [if_pos (hiff.mpr ⟨v, hv, hprefix⟩), if_pos ⟨v, hv, hprefix⟩, drop_two_utf8 hv hprefix]
      · rw [if_neg (mt hiff.mp hex), if_neg hex]
  · constructor
    · intro h
      exact absurd (two_le_byteLen_of_torn h) hlen
    · intro h
      have hnone : ¬ ∃ u ∈ [text "ns", text "us", text "ms"], u <+: r := by
        rintro ⟨v, hv, t, rfl⟩
        rw [byteLen_append, hunits v hv] at hlen
        omega
      rw [if_neg hlen, afterUnit, if_neg hnone]

/-- A number panics exactly when it tears. -/
theorem numberRest_utf8 {line u s : Str} (hline : line = u ++ s)
    (hdigit : s.head?.any (onAscii isDigit) = true) :
    (TearsAt s → numberRest line (utf8 s) = .error .panic) ∧
    (¬ TearsAt s → numberRest line (utf8 s) = .ok (utf8 (afterNumber s))) := by
  have hzero : (utf8 s).head? = some 0x30 ↔ s.head? = some '0' :=
    head_utf8_iff (d := '0') (by decide) s
  have hlower : ∀ t, (utf8 t).head? = some 0x78 ↔ t.head? = some 'x' :=
    fun t => head_utf8_iff (d := 'x') (by decide) t
  have hupper : ∀ t, (utf8 t).head? = some 0x58 ↔ t.head? = some 'X' :=
    fun t => head_utf8_iff (d := 'X') (by decide) t
  have hhex : ((utf8 s).head? = some 0x30 ∧
      (((utf8 s).drop 1).head? = some 0x78 ∨ ((utf8 s).drop 1).head? = some 0x58)) ↔ IsHex s := by
    unfold IsHex
    rw [hzero]
    constructor
    · rintro ⟨h, hx⟩
      rw [drop_one_utf8 (by decide) h, hlower, hupper] at hx
      exact ⟨h, hx⟩
    · rintro ⟨h, hx⟩
      rw [drop_one_utf8 (by decide) h, hlower, hupper]
      exact ⟨h, hx⟩
  unfold numberRest
  by_cases h : IsHex s
  · have hdrop : (utf8 s).drop 2 = utf8 (s.drop 2) := by
      obtain ⟨h₀, hx⟩ := h
      rw [show 2 = 1 + 1 from rfl, ← List.drop_drop, ← List.drop_drop,
        drop_one_utf8 (by decide) h₀]
      rcases hx with hx | hx <;> exact drop_one_utf8 (by decide) hx
    rw [if_pos (hhex.mpr h), hdrop]
    constructor
    · intro htears
      exact absurd h htears.2.1
    · intro _
      rw [afterNumber, if_pos h]
      exact congrArg Except.ok (utf8_dropWhile isHexDigit_ascii _)
  · rw [if_neg (mt hhex.mp h), decimalRest_utf8]
    have hsuffix : afterDecimal s <:+ s := by
      unfold afterDecimal
      have hdigits : s.dropWhile (onAscii isDigit) <:+ s := List.dropWhile_suffix _
      dsimp only
      split
      · exact ((List.dropWhile_suffix _).trans (List.drop_suffix _ _)).trans hdigits
      · exact hdigits
    obtain ⟨m, hm⟩ := hsuffix
    have hcut : line = (u ++ m) ++ afterDecimal s := by
      rw [hline, List.append_assoc, hm]
    have hunit := unitRest_utf8 hcut
    constructor
    · intro htears
      exact hunit.1 htears.2.2
    · intro hwhole
      rw [afterNumber, if_neg h]
      exact hunit.2 fun ht => hwhole ⟨hdigit, h, ht⟩

theorem afterDecimal_suffix (s : Str) : afterDecimal s <:+ s.dropWhile (onAscii isDigit) := by
  unfold afterDecimal
  dsimp only
  split
  · exact (List.dropWhile_suffix _).trans (List.drop_suffix _ _)
  · exact List.suffix_refl _

theorem afterUnit_suffix (r : Str) : afterUnit r <:+ r := by
  unfold afterUnit
  split
  · exact List.drop_suffix _ _
  · split
    · exact List.drop_suffix _ _
    · exact List.suffix_refl _

theorem afterNumber_suffix {c : Char} {s : Str} (hdigit : onAscii isDigit c = true) :
    afterNumber (c :: s) <:+ s := by
  unfold afterNumber
  split
  · exact (List.dropWhile_suffix _).trans (List.drop_suffix 1 s)
  · have hdigits : (c :: s).dropWhile (onAscii isDigit) <:+ s := by
      rw [List.dropWhile_cons_of_pos hdigit]
      exact List.dropWhile_suffix _
    exact ((afterUnit_suffix _).trans (afterDecimal_suffix _)).trans hdigits

/-! ## Strings -/

@[simp] theorem afterString_quote (s : Str) : afterString ('"' :: s) = s := by
  rw [afterString.eq_def]
  simp only [if_true]

@[simp] theorem afterString_escape (c : Char) (s : Str) :
    afterString ('\\' :: c :: s) = afterString s := by
  rw [afterString.eq_def]
  simp

theorem afterString_cons {c : Char} (hquote : c ≠ '"') (hescape : c ≠ '\\') (s : Str) :
    afterString (c :: s) = afterString s := by
  rw [afterString.eq_def]
  simp only [hquote, hescape, if_false]

theorem afterString_suffix (s : Str) : afterString s <:+ s := by
  induction s using afterString.induct with
  | case1 => exact List.suffix_refl _
  | case2 s =>
    rw [afterString_quote]
    exact List.suffix_cons _ _
  | case3 => exact List.nil_suffix
  | case4 _ c s ih =>
    rw [afterString_escape]
    exact ih.trans ((List.suffix_cons _ _).trans (List.suffix_cons _ _))
  | case5 c s hquote hescape ih =>
    rw [afterString_cons hquote hescape]
    exact ih.trans (List.suffix_cons _ _)

theorem stringRest_quote (bs : List UInt8) : stringRest (0x22 :: bs) = bs := by
  rw [stringRest.eq_def]
  simp only [if_true]

theorem stringRest_escape (b : UInt8) (bs : List UInt8) :
    stringRest (0x5C :: b :: bs) = stringRest bs := by
  rw [stringRest.eq_def]
  simp

theorem stringRest_cons {b : UInt8} (hquote : b ≠ 0x22) (hescape : b ≠ 0x5C) (bs : List UInt8) :
    stringRest (b :: bs) = stringRest bs := by
  rw [stringRest.eq_def]
  simp only [hquote, hescape, if_false]

theorem Behind.of_drop_one (c : Char) (s : Str) : Behind ((utf8 (c :: s)).drop 1) s := by
  rw [utf8_cons]
  rcases utf8EncodeChar_cases c with ⟨-, h⟩ | ⟨-, b, cont, h, -, -, hcont⟩
  · rw [h]
    exact Behind.of_utf8 s
  · rw [h]
    exact ⟨cont, hcont, rfl⟩

/-- The bytes are scanned as the characters are; the byte behind a backslash can be the first
of several of a character. -/
theorem stringRest_behind {bs : List UInt8} {s : Str} (h : Behind bs s) :
    stringRest bs = utf8 (afterString s) := by
  induction hn : bs.length using Nat.strong_induction_on generalizing bs s with
  | _ n ih =>
    subst hn
    cases bs with
    | nil =>
      rw [h.nil]
      rfl
    | cons b bs =>
      have hlt : bs.length < (b :: bs).length := Nat.lt_succ_self _
      rcases h.cons_cases with
        ⟨hb, hrest⟩ | ⟨c, r, rfl, hc, hcode, rfl⟩ | ⟨c, r, rfl, hc, hb, hrest⟩
      · have hne : b ≠ 0x22 ∧ b ≠ 0x5C := by
          constructor <;> rintro rfl <;> exact absurd hb (by decide)
        rw [stringRest_cons hne.1 hne.2]
        exact ih _ hlt hrest rfl
      · have hquote : b = 0x22 ↔ c = '"' := hcode ▸ ofNat_toNat_inj hc (d := '"') (by decide)
        have hescape : b = 0x5C ↔ c = '\\' := hcode ▸ ofNat_toNat_inj hc (d := '\\') (by decide)
        by_cases hcq : c = '"'
        · rw [hquote.mpr hcq, hcq, stringRest_quote, afterString_quote]
        · by_cases hce : c = '\\'
          · rw [hescape.mpr hce, hce]
            cases r with
            | nil => rfl
            | cons d r =>
              have hbehind := Behind.of_drop_one d r
              cases hxs : utf8 (d :: r) with
              | nil => exact absurd hxs (by simp [String.utf8EncodeChar_ne_nil])
              | cons x xs =>
                rw [hxs] at hbehind
                rw [stringRest_escape, afterString_escape]
                refine ih _ ?_ hbehind rfl
                rw [hxs, List.length_cons, List.length_cons]
                omega
          · rw [stringRest_cons (mt hquote.mp hcq) (mt hescape.mp hce), afterString_cons hcq hce]
            exact ih _ hlt (Behind.of_utf8 r) rfl
      · have hne : b ≠ 0x22 ∧ b ≠ 0x5C := by
          constructor <;> rintro rfl <;> exact absurd hb (by decide)
        have hne' : c ≠ '"' ∧ c ≠ '\\' := by
          constructor <;> rintro rfl <;> exact absurd hc (by decide)
        rw [stringRest_cons hne.1 hne.2, afterString_cons hne'.1 hne'.2]
        exact ih _ hlt hrest rfl

/-! ## The loop over a line -/

/-- A character that is a lexeme of its own. -/
structure Neutral (c : Char) : Prop where
  quote : c ≠ '"'
  sigil : ¬ (c = '$' ∨ c = '#' ∨ c = '@')
  digit : onAscii isDigit c = false
  letter : (onAscii isAlpha c || c == '_') = false

theorem Neutral.tornNumber_iff {c : Char} (h : Neutral c) (s : Str) :
    TornNumber (c :: s) ↔ TornNumber s := by
  have hlexeme : afterLexeme c s = s := by
    rw [afterLexeme, if_neg h.quote, if_neg h.sigil, h.digit, h.letter]
    rfl
  have htears : ¬ TearsAt (c :: s) := by
    intro ht
    have hdigit : onAscii isDigit c = true := ht.1
    rw [h.digit] at hdigit
    cases hdigit
  rw [tornNumber_cons_iff, hlexeme]
  exact or_iff_right htears

/-- A character of more than one byte is skipped. -/
theorem Neutral.of_le {c : Char} (hc : 128 ≤ c.toNat) : Neutral c where
  quote := by
    rintro rfl
    exact absurd hc (by decide)
  sigil := by
    rintro (rfl | rfl | rfl) <;> exact absurd hc (by decide)
  digit := onAscii_of_le _ hc
  letter := by
    rw [onAscii_of_le _ hc, Bool.false_or, beq_eq_false_iff_ne]
    rintro rfl
    exact absurd hc (by decide)

instance (c : Char) : Decidable (Neutral c) :=
  decidable_of_iff (c ≠ '"' ∧ ¬ (c = '$' ∨ c = '#' ∨ c = '@') ∧ onAscii isDigit c = false ∧
    (onAscii isAlpha c || c == '_') = false)
    ⟨fun h => ⟨h.1, h.2.1, h.2.2.1, h.2.2.2⟩, fun h => ⟨h.quote, h.sigil, h.digit, h.letter⟩⟩

/-- The bytes of an operator are characters of their own. -/
theorem operators_neutral : ∀ e ∈ operators, e.1.toList ≠ [] ∧ bytes e.1 = utf8 e.1.toList ∧
    ∀ c ∈ e.1.toList, c.toNat < 128 ∧ Neutral c := by
  have hall : ∀ e ∈ operators, e.1.toList ≠ [] ∧ bytes e.1 = utf8 e.1.toList ∧
      e.1.toList.all (fun c => decide (c.toNat < 128 ∧ Neutral c)) = true := by decide +kernel
  intro e he
  obtain ⟨hne, hbytes, hchars⟩ := hall e he
  exact ⟨hne, hbytes, forall_mem_of_all hchars⟩

/-- ASCII bytes in front of a string are characters of it. -/
theorem prefix_of_utf8_prefix {o s : Str} (ho : ∀ c ∈ o, c.toNat < 128) (h : utf8 o <+: utf8 s) :
    o <+: s := by
  induction o generalizing s with
  | nil => exact List.nil_prefix
  | cons d o ih =>
    rw [List.forall_mem_cons] at ho
    rcases utf8EncodeChar_cases d with ⟨hd, hbytes⟩ | ⟨hd, -⟩
    · rw [utf8_cons, hbytes] at h
      obtain ⟨t, ht⟩ := h
      have hhead : s.head? = some d := by
        rw [← head_utf8_iff hd s, ← ht]
        rfl
      obtain ⟨r, rfl⟩ := List.head?_eq_some_iff.mp hhead
      rw [utf8_cons, hbytes] at ht
      rw [List.prefix_cons_inj]
      exact ih ho.2 ⟨t, List.cons_inj_right _ |>.mp ht⟩
    · omega

/-- An operator is made of whole characters. -/
theorem operator?_utf8 {st : LineScan} {s : Str} {n : ℕ} {category : TokenCategory}
    (h : operator? st (utf8 s) = some (n, category)) :
    ∃ o r, o ≠ [] ∧ s = o ++ r ∧ n = byteLen o ∧ ∀ c ∈ o, Neutral c := by
  have hsingle : ∀ d : Char, d.toNat < 128 → Neutral d → byteLen [d] = 1 →
      (utf8 s).head? = some (UInt8.ofNat d.toNat) → n = 1 →
      ∃ o r, o ≠ [] ∧ s = o ++ r ∧ n = byteLen o ∧ ∀ c ∈ o, Neutral c := by
    intro d hd hneutral hlen hhead hn
    obtain ⟨r, rfl⟩ := List.head?_eq_some_iff.mp ((head_utf8_iff hd s).mp hhead)
    refine ⟨[d], r, List.cons_ne_nil _ _, rfl, hn.trans hlen.symm, ?_⟩
    simpa using hneutral
  unfold operator? at h
  split at h
  · next hflag =>
    cases h
    rcases hflag with ⟨hlt, -⟩ | ⟨hgt, -⟩
    · exact hsingle '<' (by decide) (by decide) (by decide) hlt rfl
    · exact hsingle '>' (by decide) (by decide) (by decide) hgt rfl
  · obtain ⟨e, he, heq⟩ := Option.map_eq_some_iff.mp h
    cases heq
    obtain ⟨hne, hbytes, hall⟩ := operators_neutral e (List.mem_of_find?_eq_some he)
    have hfound := List.find?_some he
    have hprefix : bytes e.1 <+: utf8 s := List.isPrefixOf_iff_prefix.mp hfound
    rw [hbytes] at hprefix
    obtain ⟨r, rfl⟩ := prefix_of_utf8_prefix (fun c hc => (hall c hc).1) hprefix
    exact ⟨_, r, hne, rfl, by rw [hbytes]; rfl, fun c hc => (hall c hc).2⟩

theorem tornNumber_append_iff {o : Str} (ho : ∀ c ∈ o, Neutral c) (s : Str) :
    TornNumber (o ++ s) ↔ TornNumber s := by
  induction o with
  | nil => rfl
  | cons c o ih =>
    rw [List.forall_mem_cons] at ho
    rw [List.cons_append, ho.1.tornNumber_iff, ih ho.2]

/-- Where a turn of the loop ends that stands at a character: it panics, and the character
starts a number that tears, or it goes on behind some characters without such a number. -/
inductive StepsTo (c : Char) (s : Str) : Except Abort (LineScan × List UInt8) → Prop
  | panics (h : TearsAt (c :: s)) : StepsTo c s (.error .panic)
  | goesOn {st : LineScan} {r : Str} (hrest : r <:+ s)
      (h : TornNumber (c :: s) ↔ TornNumber r) : StepsTo c s (.ok (st, utf8 r))

/-- A token that is pushed by a turn of the loop. -/
theorem StepsTo.push {line u : Str} {c : Char} {s r : Str} (hline : line = u ++ c :: s)
    (hrest : r <:+ s) (h : TornNumber (c :: s) ↔ TornNumber r) (f : Str → LineScan) :
    StepsTo c s (do
      let t ← sliceOf line (utf8 (c :: s)) (utf8 r)
      return (f t, utf8 r)) := by
  obtain ⟨m, hm⟩ := sliceOf_suffix hline (hrest.trans (List.suffix_cons _ _))
  rw [hm]
  exact .goesOn hrest h

theorem lineStep_stepsTo {line u : Str} {c : Char} {s : Str} (hline : line = u ++ c :: s)
    (hc : c.toNat < 128) (st : LineScan) :
    StepsTo c s (lineStep line st (UInt8.ofNat c.toNat) (utf8 s)) := by
  have hbytes : UInt8.ofNat c.toNat :: utf8 s = utf8 (c :: s) := by
    rcases utf8EncodeChar_cases c with ⟨-, h⟩ | ⟨h, -⟩
    · rw [utf8_cons, h]
      rfl
    · omega
  have hiff : ∀ d : Char, d.toNat < 128 → (UInt8.ofNat c.toNat = UInt8.ofNat d.toNat ↔ c = d) :=
    fun d hd => ofNat_toNat_inj hc hd
  have hdigit := onAscii_of_lt isDigit hc
  have halpha := onAscii_of_lt isAlpha hc
  have hnot : onAscii isDigit c = false → (TornNumber (c :: s) ↔ TornNumber (afterLexeme c s)) := by
    intro h
    rw [tornNumber_cons_iff]
    refine or_iff_right fun ht => ?_
    have hd : onAscii isDigit c = true := ht.1
    rw [h] at hd
    cases hd
  unfold lineStep
  dsimp only
  rw [hbytes]
  split
  · next hblank =>
    have hneutral : Neutral c := by
      have hcases : c = ' ' ∨ c = '\t' ∨ c = '\r' :=
        hblank.imp (hiff ' ' (by decide)).mp
          (Or.imp (hiff '\t' (by decide)).mp (hiff '\r' (by decide)).mp)
      rcases hcases with rfl | rfl | rfl <;> decide
    exact .goesOn (List.suffix_refl _) (hneutral.tornNumber_iff s)
  · split
    · next hquote =>
      obtain rfl : c = '"' := (hiff '"' (by decide)).mp hquote
      rw [stringRest_behind (Behind.of_utf8 s)]
      exact .push hline (afterString_suffix s) (hnot (by decide)) _
    · next hquote =>
      have hquote : c ≠ '"' := fun h => hquote ((hiff '"' (by decide)).mpr h)
      have hsigil : (UInt8.ofNat c.toNat = 0x24 ∨ UInt8.ofNat c.toNat = 0x23 ∨
          UInt8.ofNat c.toNat = 0x40) ↔ (c = '$' ∨ c = '#' ∨ c = '@') :=
        or_congr (hiff '$' (by decide)) (or_congr (hiff '#' (by decide)) (hiff '@' (by decide)))
      split
      · next hs =>
        have hs := hsigil.mp hs
        have hlexeme : afterLexeme c s = s.dropWhile (onAscii isDottedWord) := by
          rw [afterLexeme, if_neg hquote, if_pos hs]
        have hdigit : onAscii isDigit c = false := by
          rcases hs with rfl | rfl | rfl <;> decide
        rw [utf8_dropWhile isDottedWord_ascii]
        exact .push hline (List.dropWhile_suffix _) (hlexeme ▸ hnot hdigit) _
      · next hs =>
        have hs := mt hsigil.mpr hs
        split
        · next hd =>
          rw [← hdigit] at hd
          have hnumber := numberRest_utf8 hline hd
          by_cases ht : TearsAt (c :: s)
          · rw [hnumber.1 ht]
            exact .panics ht
          · have hlexeme : afterLexeme c s = afterNumber (c :: s) := by
              rw [afterLexeme, if_neg hquote, if_neg hs, if_pos hd]
            have htorn : TornNumber (c :: s) ↔ TornNumber (afterNumber (c :: s)) := by
              rw [tornNumber_cons_iff, hlexeme]
              exact or_iff_right ht
            rw [hnumber.2 ht]
            exact .push hline (afterNumber_suffix hd) htorn _
        · next hd =>
          have hd : onAscii isDigit c = false := by
            rw [hdigit]
            exact Bool.eq_false_iff.mpr hd
          have hunder : (UInt8.ofNat c.toNat == 0x5F) = (c == '_') :=
            Bool.eq_iff_iff.mpr (by rw [beq_iff_eq, beq_iff_eq]; exact hiff '_' (by decide))
          rw [← halpha, hunder]
          split
          · next hword =>
            have hlexeme : afterLexeme c s = s.dropWhile (onAscii isDottedWord) := by
              rw [afterLexeme, if_neg hquote, if_neg hs, hd, if_pos hword]
              rfl
            have hdotted : onAscii isDottedWord c = true := by
              rw [onAscii_of_lt _ hc, isDottedWord, Lexer.isWord, ← halpha]
              rcases Bool.or_eq_true_iff.mp hword with h | h
              · rw [h]
                rfl
              · rw [hunder.trans h, Bool.or_true, Bool.true_or]
            rw [utf8_dropWhile isDottedWord_ascii, List.dropWhile_cons_of_pos hdotted]
            exact .push hline (List.dropWhile_suffix _) (hlexeme ▸ hnot hd)
              fun word => { st.push word .identOrLiteral with afterFixed := word = text "fixed" }
          · next hword =>
            have hneutral : Neutral c := ⟨hquote, hs, hd, Bool.eq_false_iff.mpr hword⟩
            split
            · next n category hop =>
              obtain ⟨o, r, hne, hsplit, rfl, hall⟩ := operator?_utf8 hop
              have hdrop : (utf8 (c :: s)).drop (byteLen o) = utf8 r := by
                rw [hsplit, utf8_append, byteLen, List.drop_left]
              have hrest : r <:+ s := by
                cases o with
                | nil => exact absurd rfl hne
                | cons d o =>
                  cases hsplit
                  exact List.suffix_append _ _
              rw [hdrop]
              refine .push hline hrest ?_ fun t =>
                (st.push t category).flagged (UInt8.ofNat c.toNat)
              rw [hsplit]
              exact tornNumber_append_iff hall r
            · exact .goesOn (List.suffix_refl _) (hneutral.tornNumber_iff s)

/-- A byte that is not ASCII is skipped. -/
theorem lineStep_of_le {b : UInt8} (hb : 0x80 ≤ b) (line : Str) (st : LineScan)
    (rest : List UInt8) : lineStep line st b rest = .ok (st, rest) := by
  have hne : ∀ x : UInt8, x < 0x80 → b ≠ x := by
    rintro x hx rfl
    exact absurd (UInt8.lt_of_le_of_lt hb hx) (by decide)
  have hnot : ∀ p : UInt8 → Bool, (∀ x, p x = true → x < 0x80) → p b = false := by
    intro p hp
    rw [Bool.eq_false_iff]
    intro h
    exact hne b (hp b h) rfl
  have hheads : ∀ e ∈ operators, ∃ x xs, bytes e.1 = x :: xs ∧ x < 0x80 := by
    intro e he
    obtain ⟨hne, hbytes, hall⟩ := operators_neutral e he
    cases hchars : e.1.toList with
    | nil => exact absurd hchars hne
    | cons c cs =>
      rw [hchars] at hbytes hall
      have hc := (hall c (by simp)).1
      rcases utf8EncodeChar_cases c with ⟨-, h⟩ | ⟨h, -⟩
      · refine ⟨_, _, by rw [hbytes, utf8_cons, h]; rfl, ?_⟩
        rw [UInt8.lt_iff_toNat_lt, UInt8.toNat_ofNat', Nat.mod_eq_of_lt (by omega)]
        exact hc
      · omega
  have hoperator : operator? st (b :: rest) = none := by
    have hfind : (operators.find? fun e => (bytes e.1).isPrefixOf (b :: rest)) = none := by
      rw [List.find?_eq_none]
      intro e he hprefix
      obtain ⟨x, xs, hbytes, hx⟩ := hheads e he
      rw [hbytes, List.isPrefixOf_iff_prefix, List.cons_prefix_cons] at hprefix
      exact hne x hx hprefix.1.symm
    rw [operator?, hfind]
    simp [hne 0x3C (by decide), hne 0x3E (by decide)]
  unfold lineStep
  simp [hne 0x20 (by decide), hne 0x09 (by decide), hne 0x0D (by decide), hne 0x22 (by decide),
    hne 0x24 (by decide), hne 0x23 (by decide), hne 0x40 (by decide), hne 0x5F (by decide),
    hnot isDigit isDigit_ascii, hnot isAlpha isAlpha_ascii, hoperator]

theorem le_of_isContinuation {b : UInt8} (h : isContinuation b = true) : 0x80 ≤ b := by
  unfold isContinuation at h
  simp only [Bool.and_eq_true, decide_eq_true_eq] at h
  exact h.1

/-- The loop over a line panics exactly when a number tears. -/
theorem lineLoop_spec {line u s : Str} {bs : List UInt8} {n : ℕ} (st : LineScan)
    (hline : line = u ++ s) (hbehind : Behind bs s) (hn : bs.length ≤ n) :
    (TornNumber s → lineLoop line n st bs = .error .panic) ∧
    (¬ TornNumber s → ∃ tokens, lineLoop line n st bs = .ok tokens) := by
  induction n generalizing st u s bs with
  | zero =>
    obtain rfl := List.length_eq_zero_iff.mp (Nat.le_zero.mp hn)
    obtain rfl := hbehind.nil
    exact ⟨fun h => absurd h not_tornNumber_nil, fun _ => ⟨_, rfl⟩⟩
  | succ n ih =>
    cases bs with
    | nil =>
      obtain rfl := hbehind.nil
      exact ⟨fun h => absurd h not_tornNumber_nil, fun _ => ⟨_, rfl⟩⟩
    | cons b bs =>
      have hlen : bs.length ≤ n := Nat.le_of_succ_le_succ hn
      rcases hbehind.cons_cases with
        ⟨hb, hrest⟩ | ⟨c, r, rfl, hc, rfl, rfl⟩ | ⟨c, r, rfl, hc, hb, hrest⟩
      · rw [lineLoop, lineStep_of_le (le_of_isContinuation hb)]
        exact ih st hline hrest hlen
      · have hstep := lineStep_stepsTo hline hc st
        rw [lineLoop]
        revert hstep
        generalize lineStep line st (UInt8.ofNat c.toNat) (utf8 r) = result
        intro hstep
        cases hstep with
        | panics h => exact ⟨fun _ => rfl, fun hnot => absurd (.here h) hnot⟩
        | goesOn hsuffix h =>
          obtain ⟨m, rfl⟩ := hsuffix
          rw [h]
          refine ih _ (u := u ++ c :: m) ?_ (Behind.of_utf8 _) ?_
          · rw [hline, List.append_assoc, List.cons_append]
          · rw [utf8_append, List.length_append] at hlen
            exact Nat.le_trans (Nat.le_add_left _ _) hlen
      · have hhigh : 0x80 ≤ b := UInt8.le_trans (by decide) hb
        rw [lineLoop, lineStep_of_le hhigh, (Neutral.of_le hc).tornNumber_iff]
        refine ih st (u := u ++ [c]) ?_ hrest hlen
        rw [hline, List.append_assoc, List.singleton_append]

/-- `tokenize_line` panics exactly when a number of the line tears. -/
theorem tokenizeLine_spec (line : Str) :
    (TornNumber line → tokenizeLine line = .error .panic) ∧
    (¬ TornNumber line → ∃ tokens, tokenizeLine line = .ok tokens) :=
  lineLoop_spec _ (List.nil_append line).symm (Behind.of_utf8 line) (Nat.le_refl _)

end LatencyOS.Fmt
