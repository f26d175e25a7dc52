import LatencyOS.Compiler.Comments

/-!
# The tokens partition the source

Token after token the lexer takes bytes off the front of the source.  If no block comment
stays open, the tokens and the gaps between them are the whole source, and no token has a
byte of a comment; an open comment ends one byte too early, and that byte may become one.
-/

namespace LatencyOS

namespace Lexer

/-! ## The bytes of a token -/

/-- The bytes of a token, none of them in a comment, and the mode behind them. -/
structure TokenSpan (l span rest : List UInt8) : Prop where
  split : l = span ++ rest
  nonempty : span ≠ []
  clear : ∀ i < span.length, ¬ InComment .code l i
  mode : modeAt .code l span.length = .code ∨
    rest = [] ∧ modeAt .code l span.length = .string

theorem TokenSpan.length_eq {l span rest : List UInt8} (h : TokenSpan l span rest) :
    0 < span.length ∧ l.length = span.length + rest.length :=
  ⟨List.length_pos_iff.mpr h.nonempty, by rw [h.split, List.length_append]⟩

/-- Plain bytes make a token. -/
theorem TokenSpan.of_plain {span rest : List UInt8} (hne : span ≠ [])
    (hplain : ∀ b ∈ span, isPlain b = true) : TokenSpan (span ++ rest) span rest where
  split := rfl
  nonempty := hne
  clear := by
    rintro i hi ⟨b, hb, hcomment⟩
    rw [List.getElem?_append_left hi] at hb
    rw [modeAt_plain hplain rest (Nat.le_of_lt hi),
      isComment_of_isPlain (hplain b (List.mem_of_getElem? hb))] at hcomment
    cases hcomment
  mode := .inl (modeAt_plain hplain rest (Nat.le_refl _))

/-- A byte that starts no comment makes a token. -/
theorem TokenSpan.of_slash {rest : List UInt8}
    (h : ¬ (rest.head? = some 0x2F ∨ rest.head? = some 0x2A)) :
    TokenSpan (0x2F :: rest) [0x2F] rest where
  split := rfl
  nonempty := List.cons_ne_nil _ _
  clear := by
    intro i hi
    obtain rfl : i = 0 := Nat.lt_one_iff.mp hi
    rintro ⟨b, hb, hcomment⟩
    cases hb
    rw [not_or] at h
    rw [modeAt_zero] at hcomment
    simp [Mode.isComment, ← List.head?_eq_getElem?, h.1, h.2] at hcomment
  mode := by
    rw [not_or] at h
    left
    rw [List.length_singleton, modeAt_cons, modeAt_zero]
    simp [Mode.next, h.1, h.2]

/-- The bytes between the quotes of a string. -/
theorem modeAt_string {inner : List UInt8} (hinner : 0x22 ∉ inner) (rest : List UInt8) {n : ℕ}
    (hn : n ≤ inner.length) : modeAt .string (inner ++ rest) n = .string := by
  induction inner generalizing n with
  | nil =>
    obtain rfl : n = 0 := Nat.le_zero.mp hn
    exact modeAt_zero
  | cons b inner ih =>
    rw [List.mem_cons, not_or] at hinner
    cases n with
    | zero => exact modeAt_zero
    | succ n =>
      rw [List.cons_append, modeAt_cons, Mode.next, if_neg (Ne.symm hinner.1)]
      exact ih hinner.2 (Nat.le_of_succ_le_succ hn)

/-- A string literal is a token, closed or not. -/
theorem TokenSpan.of_string (rest : List UInt8) : ∃ span, TokenSpan (0x22 :: rest) span
    (rest.drop ((rest.takeWhile (· != 0x22)).length + 1)) := by
  obtain ⟨hrest, hinner, htail⟩ := span_eq_iff.mp
    ⟨Eq.refl (rest.takeWhile (· != 0x22)), Eq.refl (rest.dropWhile (· != 0x22))⟩
  revert hrest hinner htail
  generalize rest.takeWhile (· != 0x22) = inner, rest.dropWhile (· != 0x22) = tail
  rintro rfl hinner htail
  have hquote : (0x22 : UInt8) ∉ inner := fun hin => by simpa using hinner _ hin
  have hopen : ∀ ahead, Mode.code.next 0x22 ahead = .string := fun _ => rfl
  have hmode : ∀ n ≤ inner.length, modeAt .code (0x22 :: (inner ++ tail)) (n + 1) = .string := by
    intro n hn
    rw [modeAt_cons, hopen]
    exact modeAt_string hquote tail hn
  have hclear : ∀ i ≤ inner.length + 1, ¬ InComment .code (0x22 :: (inner ++ tail)) i := by
    rintro i hi ⟨b, hb, hcomment⟩
    cases i with
    | zero =>
      cases hb
      rw [modeAt_zero] at hcomment
      cases hcomment
    | succ i =>
      rw [hmode i (Nat.le_of_succ_le_succ hi)] at hcomment
      cases hcomment
  cases tail with
  | nil =>
    refine ⟨0x22 :: inner, ?_, List.cons_ne_nil _ _, fun i hi => hclear i (Nat.le_of_lt hi), ?_⟩
    · rw [List.append_nil, List.drop_eq_nil_of_le (Nat.le_succ _), List.append_nil]
    · refine .inr ⟨?_, hmode _ (Nat.le_refl _)⟩
      rw [List.append_nil, List.drop_eq_nil_of_le (Nat.le_succ _)]
  | cons b tail =>
    obtain rfl : b = 0x22 := by simpa using htail b rfl
    have hdrop : (inner ++ 0x22 :: tail).drop (inner.length + 1) = tail := by
      rw [List.drop_length_add_append]
      rfl
    refine ⟨0x22 :: (inner ++ [0x22]), ?_, List.cons_ne_nil _ _, fun i hi => hclear i ?_, .inl ?_⟩
    · rw [hdrop, List.cons_append, List.append_assoc, List.singleton_append]
    · rw [List.length_cons, List.length_append, List.length_singleton] at hi
      omega
    · rw [List.length_cons, List.length_append, List.length_singleton, modeAt_add,
        hmode _ (Nat.le_refl _), List.drop_succ_cons, List.drop_left, modeAt_cons, modeAt_zero]
      rfl

/-! ### Numbers and names -/

theorem isPlain_of_isWord {b : UInt8} (h : isDottedWord b = true) : isPlain b = true := by
  by_contra hnot
  simp only [isPlain, Bool.and_eq_true, bne_iff_ne, not_and_or, not_not] at hnot
  rcases hnot with rfl | rfl <;> revert h <;> decide

theorem isDottedWord_of_isWord {b : UInt8} (h : isWord b = true) : isDottedWord b = true := by
  rw [isDottedWord, h, Bool.true_or]

theorem isDottedWord_of_isDigit {b : UInt8} (h : isDigit b = true) : isDottedWord b = true := by
  rw [isDottedWord, isWord, h, Bool.or_true, Bool.true_or, Bool.true_or]

theorem isDottedWord_of_hexValue {b : UInt8} (h : (hexValue b).isSome = true) :
    isDottedWord b = true := by
  unfold hexValue at h
  split at h
  · next hdigit => exact isDottedWord_of_isDigit hdigit
  · have halpha : isAlpha b = true := by
      simp only [isAlpha, Bool.or_eq_true, Bool.and_eq_true, decide_eq_true_eq]
      split at h
      · next hlow =>
        simp only [Bool.and_eq_true, decide_eq_true_eq] at hlow
        exact .inl ⟨hlow.1, UInt8.le_trans hlow.2 (by decide)⟩
      · split at h
        · next hup =>
          simp only [Bool.and_eq_true, decide_eq_true_eq] at hup
          exact .inr ⟨hup.1, UInt8.le_trans hup.2 (by decide)⟩
        · cases h
    rw [isDottedWord, isWord, halpha, Bool.true_or, Bool.true_or, Bool.true_or]

/-- What follows the digits of a number, a fraction or a unit. -/
theorem split_numberRest {checks : Bool} {num : Word64} {l rest : List UInt8} {k : TokenKind}
    (h : numberRest checks num l = .ok (k, rest)) :
    ∃ span, l = span ++ rest ∧ ∀ b ∈ span, isDottedWord b = true := by
  unfold numberRest at h
  split at h
  · next hpoint =>
    cases h
    obtain ⟨r, rfl⟩ := List.head?_eq_some_iff.mp hpoint.1
    refine ⟨0x2E :: r.takeWhile isDigit, ?_, fun b hb => ?_⟩
    · rw [List.drop_succ_cons, List.drop_zero, Nat.add_comm 1, List.drop_succ_cons,
        drop_length_takeWhile, List.cons_append, List.takeWhile_append_dropWhile]
    · rcases List.mem_cons.mp hb with rfl | hb
      · rfl
      · exact isDottedWord_of_isDigit (List.mem_takeWhile_imp hb)
  · split at h
    · next u hu =>
      have hunits : ∀ u ∈ timeUnits, ∀ b ∈ u.1, isDottedWord b = true := by decide +kernel
      have hprefix := List.find?_some hu
      obtain ⟨r, rfl⟩ := List.isPrefixOf_iff_prefix.mp hprefix
      split at h
      · cases h
      · cases h
        exact ⟨u.1, by rw [List.drop_left], hunits u (List.mem_of_find?_eq_some hu)⟩
    · cases h
      exact ⟨[], rfl, fun b hb => absurd hb List.not_mem_nil⟩

/-- A number consists of digits, letters and points. -/
theorem split_number {checks : Bool} {b : UInt8} {l rest : List UInt8} {k : TokenKind}
    (hdigit : isDigit b = true) (h : number checks (b :: l) = .ok (k, rest)) :
    ∃ span, b :: l = span ++ rest ∧ span ≠ [] ∧ ∀ c ∈ span, isDottedWord c = true := by
  unfold number at h
  split at h
  · next hx =>
    cases h
    obtain ⟨hb, hx⟩ := hx
    cases hb
    rw [List.drop_succ_cons, List.drop_zero] at hx
    obtain ⟨x, r, rfl⟩ : ∃ x r, l = x :: r := by
      cases l with
      | nil => simp at hx
      | cons x r => exact ⟨x, r, rfl⟩
    have hxword : isDottedWord x = true := by
      rcases hx with hx | hx <;> cases hx <;> rfl
    refine ⟨0x30 :: x :: r.takeWhile fun b => (hexValue b).isSome, ?_, List.cons_ne_nil _ _, ?_⟩
    · rw [List.drop_succ_cons, List.drop_succ_cons, List.drop_zero, Nat.add_comm 2,
        List.drop_succ_cons, List.drop_succ_cons, drop_length_takeWhile, List.cons_append,
        List.cons_append, List.takeWhile_append_dropWhile]
    · intro c hc
      rcases List.mem_cons.mp hc with rfl | hc
      · rfl
      · rcases List.mem_cons.mp hc with rfl | hc
        · exact hxword
        · have hhex := List.mem_takeWhile_imp hc
          exact isDottedWord_of_hexValue hhex
  · obtain ⟨span, hspan, hword⟩ := split_numberRest h
    rw [drop_length_takeWhile] at hspan
    refine ⟨(b :: l).takeWhile isDigit ++ span, ?_, ?_, fun c hc => ?_⟩
    · rw [List.append_assoc, ← hspan, List.takeWhile_append_dropWhile]
    · rw [List.takeWhile_cons_of_pos hdigit]
      exact List.cons_ne_nil _ _
    · rcases List.mem_append.mp hc with hc | hc
      · exact isDottedWord_of_isDigit (List.mem_takeWhile_imp hc)
      · exact hword c hc

/-- A first byte and the word bytes behind it make a token. -/
theorem TokenSpan.of_word {p : UInt8 → Bool} {b : UInt8} (hb : isPlain b = true)
    (hp : ∀ c, p c = true → isDottedWord c = true) (rest : List UInt8) :
    TokenSpan (b :: rest) (b :: rest.takeWhile p) (rest.dropWhile p) := by
  have h : TokenSpan (b :: rest.takeWhile p ++ rest.dropWhile p) _ _ :=
    .of_plain (List.cons_ne_nil _ _) fun c hc => by
      rcases List.mem_cons.mp hc with rfl | hc
      · exact hb
      · exact isPlain_of_isWord (hp c (List.mem_takeWhile_imp hc))
  rwa [List.cons_append, List.takeWhile_append_dropWhile] at h

/-- Every operator is a slash or plain. -/
theorem operator_bytes : ∀ e ∈ operators,
    bytes e.1 = [0x2F] ∨ bytes e.1 ≠ [] ∧ ∀ b ∈ bytes e.1, isPlain b = true := by
  decide +kernel

/-- Every byte of punctuation is an operator of its own. -/
theorem exists_operator : ∀ b ∈ punctuation, ∃ e ∈ operators, bytes e.1 = [b] := by
  decide +kernel

/-- An operator is a token. -/
theorem tokenSpan_of_operator {l : List UInt8} {e : String × TokenKind} (hstart : StartsToken l)
    (h : operators.find? (fun e => (bytes e.1).isPrefixOf l) = some e) :
    TokenSpan l (bytes e.1) (l.drop (bytes e.1).length) := by
  have hprefix := List.find?_some h
  obtain ⟨rest, rfl⟩ := List.isPrefixOf_iff_prefix.mp hprefix
  rw [List.drop_left]
  rcases operator_bytes e (List.mem_of_find?_eq_some h) with hslash | ⟨hne, hplain⟩
  · rw [hslash, List.singleton_append] at hstart ⊢
    exact .of_slash fun hhead => hstart.2 ⟨rfl, hhead⟩
  · exact .of_plain hne hplain

/-- A byte at which nothing starts is ignored. -/
theorem isIgnored_of_token {b : UInt8} {l : List UInt8} (hwhite : isWhite b = false)
    (hquote : ¬ b = 0x22) (hdigit : ¬ isDigit b = true) (hdollar : ¬ b = 0x24)
    (hhash : ¬ b = 0x23) (hat : ¬ b = 0x40) (hword : ¬ (isAlpha b || b == 0x5F) = true)
    (h : operators.find? (fun e => (bytes e.1).isPrefixOf (b :: l)) = none) :
    isIgnored b = true := by
  have hpunct : b ∉ punctuation := by
    intro hin
    obtain ⟨e, he, hb⟩ := exists_operator b hin
    have hnot := List.find?_eq_none.mp h e he
    rw [hb] at hnot
    exact hnot (by simp [List.isPrefixOf])
  simp only [Bool.or_eq_true, beq_iff_eq, not_or] at hword
  simp [isIgnored, hwhite, hquote, hdigit, hdollar, hhash, hat, hword, hpunct]

/-- What `token` takes. -/
theorem tokenSpan_of_token {checks : Bool} {l rest : List UInt8} {k : Option TokenKind}
    (h : token checks l = .ok (k, rest)) (hne : l ≠ []) (hstart : StartsToken l) :
    ∃ span, TokenSpan l span rest ∧ (k = none → ∃ b, span = [b] ∧ isIgnored b = true) := by
  cases l with
  | nil => exact absurd rfl hne
  | cons b l =>
    have hsome : ∀ {kind : TokenKind} {P : Prop}, some kind = none → P := fun hk => by cases hk
    simp only [token] at h
    split at h
    · next hquote =>
      cases h
      subst hquote
      obtain ⟨span, hspan⟩ := TokenSpan.of_string l
      exact ⟨span, hspan, hsome⟩
    · next hquote =>
      split at h
      · next hdigit =>
        cases hnum : number checks (b :: l) with
        | error e =>
          rw [hnum] at h
          cases h
        | ok r =>
          obtain ⟨kind, rest'⟩ := r
          rw [hnum] at h
          cases h
          obtain ⟨span, hspan, hnonempty, hword⟩ := split_number hdigit hnum
          rw [hspan]
          exact ⟨span, .of_plain hnonempty fun c hc => isPlain_of_isWord (hword c hc), hsome⟩
      · next hdigit =>
        -- names: a first byte, then the bytes of a word
        split at h
        · next hdollar =>
          cases h
          subst hdollar
          exact ⟨_, .of_word rfl (fun c => isDottedWord_of_isWord) l, hsome⟩
        · next hdollar =>
          split at h
          · next hhash =>
            cases h
            subst hhash
            exact ⟨_, .of_word rfl (fun c => isDottedWord_of_isWord) l, hsome⟩
          · next hhash =>
            split at h
            · next hat =>
              cases h
              subst hat
              exact ⟨_, .of_word rfl (fun c hc => hc) l, hsome⟩
            · next hat =>
              split at h
              · next hword =>
                cases h
                have hb : isDottedWord b = true := by
                  simp only [Bool.or_eq_true] at hword
                  simp only [isDottedWord, isWord, Bool.or_eq_true]
                  exact .inl (hword.elim (fun h => .inl (.inl h)) .inr)
                rw [List.dropWhile_cons_of_pos hb]
                exact ⟨_, .of_word (isPlain_of_isWord hb) (fun c hc => hc) l, hsome⟩
              · next hword =>
                cases hop : operators.find? fun e => (bytes e.1).isPrefixOf (b :: l) with
                | some e =>
                  rw [hop] at h
                  cases h
                  exact ⟨_, tokenSpan_of_operator hstart hop, hsome⟩
                | none =>
                  rw [hop] at h
                  cases h
                  have hignored := isIgnored_of_token hstart.1 hquote hdigit hdollar hhash hat hword
                    hop
                  have hplain := isPlain_of_isIgnored hignored
                  have hspan : TokenSpan ([b] ++ rest) [b] rest :=
                    .of_plain (List.cons_ne_nil _ _) (by simpa using hplain)
                  exact ⟨[b], hspan, fun _ => ⟨b, rfl, hignored⟩⟩

/-! ## The partition -/

/-- The bytes from one position to another are whitespace, complete comments and ignored
bytes. -/
def Gap (src : List UInt8) (p q : ℕ) : Prop :=
  p ≤ q ∧ q ≤ src.length ∧ Skippable (src.drop q) ((src.take q).drop p)

/-- The tokens from a position on, in order and disjoint, with gaps between them, and the end
marker at the end of the source. -/
inductive Partition (src : List UInt8) : ℕ → List Token → Prop
  | eof {p : ℕ} {t : Token} (hgap : Gap src p src.length) (hkind : t.kind = .eof)
      (hstart : t.start = src.length) (hlen : t.len = 0) : Partition src p [t]
  | token {p : ℕ} {t : Token} {ts : List Token} (hgap : Gap src p t.start) (hlen : 0 < t.len)
      (hin : t.start + t.len ≤ src.length)
      (hclear : ∀ i, t.start ≤ i → i < t.start + t.len → ¬ InComment .code src i)
      (hrest : Partition src (t.start + t.len) ts) : Partition src p (t :: ts)

/-- The lexer goes from a suffix of the source to the end, and these are the tokens. -/
inductive Lexes (src : List UInt8) (checks : Bool) : List UInt8 → List Token → Prop
  | done {rest : List UInt8} (h : skipTrivia rest.length rest = []) :
      Lexes src checks rest [tokenAt src .eof [] []]
  | skip {rest rest' : List UInt8} {ts : List Token} (hne : skipTrivia rest.length rest ≠ [])
      (htoken : token checks (skipTrivia rest.length rest) = .ok (none, rest'))
      (hrest : Lexes src checks rest' ts) : Lexes src checks rest ts
  | take {rest rest' : List UInt8} {ts : List Token} {kind : TokenKind}
      (hne : skipTrivia rest.length rest ≠ [])
      (htoken : token checks (skipTrivia rest.length rest) = .ok (some kind, rest'))
      (hrest : Lexes src checks rest' ts) :
      Lexes src checks rest (tokenAt src kind (skipTrivia rest.length rest) rest' :: ts)

variable {src : List UInt8} {checks : Bool}

/-- A token that lies right is the first of a partition if the others are the rest. -/
theorem partition_cons_iff {p : ℕ} {t : Token} {ts : List Token} (hgap : Gap src p t.start)
    (hlen : 0 < t.len) (hin : t.start + t.len ≤ src.length)
    (hclear : ∀ i, t.start ≤ i → i < t.start + t.len → ¬ InComment .code src i) :
    Partition src p (t :: ts) ↔ Partition src (t.start + t.len) ts := by
  constructor
  · intro h
    cases h with
    | eof _ _ _ hzero =>
      rw [hzero] at hlen
      exact absurd hlen (Nat.lt_irrefl 0)
    | token _ _ _ _ hrest => exact hrest
  · exact .token hgap hlen hin hclear

theorem lexes_of_scan {room n : ℕ} {rest rest' : List UInt8} {toks toks' : List Token}
    (h : scan src checks room n rest toks = .ok (toks', rest'))
    (hend : skipTrivia rest'.length rest' = []) :
    ∃ new, toks' = toks ++ new ∧ Lexes src checks rest (new ++ [tokenAt src .eof [] []]) := by
  induction n generalizing rest toks with
  | zero =>
    cases h
    exact ⟨[], (List.append_nil _).symm, .done hend⟩
  | succ n ih =>
    simp only [scan] at h
    split at h
    · cases h
      exact ⟨[], (List.append_nil _).symm, .done hend⟩
    · split at h
      · next hempty =>
        cases h
        exact ⟨[], (List.append_nil _).symm, .done hempty⟩
      · next hne =>
        split at h
        · cases h
        · next htoken =>
          obtain ⟨new, hnew, hlex⟩ := ih h
          exact ⟨new, hnew, .skip hne htoken hlex⟩
        · next htoken =>
          obtain ⟨new, hnew, hlex⟩ := ih h
          refine ⟨_ :: new, ?_, .take hne htoken hlex⟩
          rw [hnew, List.append_assoc, List.singleton_append]

theorem lexes_of_tokenize {room : ℕ} {toks : List Token}
    (h : tokenize src checks room = .ok toks) : Lexes src checks src toks := by
  unfold tokenize at h
  split at h
  · cases h
  · split at h
    · cases h
    · next toks' rest hscan =>
      dsimp only at h
      split at h
      · cases h
      · next hend =>
        rw [not_not] at hend
        rw [hend] at h
        cases h
        obtain ⟨new, rfl, hlex⟩ := lexes_of_scan hscan hend
        exact hlex

/-- How far the lexer is: a gap behind the last token, which ended in code unless the source
ends with an open string. -/
structure Between (src pre gap rest : List UInt8) : Prop where
  split : src = pre ++ (gap ++ rest)
  mode : modeAt .code src pre.length = .code ∨
    gap ++ rest = [] ∧ modeAt .code src pre.length = .string
  skippable : Skippable rest gap

namespace Between

variable {pre gap rest : List UInt8}

theorem extend {gap' rest' : List UInt8} (h : Between src pre gap (gap' ++ rest'))
    (hgap : Skippable rest' gap') : Between src pre (gap ++ gap') rest' where
  split := by rw [h.split, List.append_assoc]
  mode := by
    rw [List.append_assoc]
    exact h.mode
  skippable := h.skippable.append hgap

/-- What is left of the source is in code. -/
theorem modeAt_rest (h : Between src pre gap rest) (hne : rest ≠ []) :
    modeAt .code src (pre.length + gap.length) = .code := by
  have hcode : modeAt .code src pre.length = .code :=
    h.mode.resolve_right fun hnone => hne (List.append_eq_nil_iff.mp hnone.1).2
  rw [modeAt_add, hcode]
  nth_rewrite 1 [h.split]
  rw [List.drop_left]
  exact h.skippable.modeAt_eq.resolve_right fun hnone => hne hnone.1

/-- The gap in front of what is left. -/
theorem gap_eq (h : Between src pre gap rest) :
    Gap src pre.length (src.length - rest.length) := by
  have hlen : src.length - rest.length = pre.length + gap.length := by
    rw [h.split, List.length_append, List.length_append]
    omega
  rw [hlen]
  refine ⟨Nat.le_add_right _ _, ?_, ?_⟩
  · rw [h.split, List.length_append, List.length_append]
    omega
  · rw [h.split, ← List.append_assoc, ← List.length_append, List.drop_left, List.take_left,
      List.drop_left]
    exact h.skippable

/-- At the end of the source the gap is complete, and no comment is open. -/
theorem eof (h : Between src pre gap []) :
    Partition src pre.length [tokenAt src .eof [] []] ∧ ¬ OpenComment src := by
  refine ⟨.eof h.gap_eq rfl rfl rfl, fun hopen => ?_⟩
  have hlen : src.length = pre.length + (gap ++ []).length := by
    rw [h.split, List.length_append]
  have hdrop : src.drop pre.length = gap ++ [] := by
    rw [h.split, List.drop_left]
  rw [OpenComment, hlen, modeAt_add, hdrop] at hopen
  rcases h.mode with hcode | ⟨hempty, hstring⟩
  · rw [hcode, List.append_nil] at hopen
    exact h.skippable.not_openComment hopen
  · rw [hempty, hstring] at hopen
    cases hopen

/-- In front of an open comment there is no complete gap up to the end. -/
theorem openComment {body : List UInt8} (h : Between src pre gap (0x2F :: 0x2A :: body))
    (hbody : ¬ blockEnd <:+: body) :
    OpenComment src ∧ ¬ Partition src pre.length [tokenAt src .eof [] []] := by
  have hmode := h.modeAt_rest (List.cons_ne_nil _ _)
  have hlen : src.length = pre.length + gap.length + (body.length + 2) := by
    rw [h.split, List.length_append, List.length_append, List.length_cons, List.length_cons]
    omega
  have hdrop : src.drop (pre.length + gap.length) = 0x2F :: 0x2A :: body := by
    rw [h.split, ← List.append_assoc, ← List.length_append, List.drop_left]
  have hopen : OpenComment src := by
    rw [OpenComment, hlen, modeAt_add, hmode, hdrop, modeAt_openComment hbody (Nat.le_refl _)]
  refine ⟨hopen, fun hpart => ?_⟩
  cases hpart with
  | token _ hpos => exact absurd hpos (Nat.lt_irrefl 0)
  | eof hgap =>
    have hskip := hgap.2.2
    rw [List.drop_length, List.take_length, h.split, List.drop_left] at hskip
    refine hskip.not_openComment ?_
    have hcode : modeAt .code src pre.length = .code :=
      h.mode.resolve_right fun hnone => by simp at hnone
    have hsplit : src.length = pre.length + (gap ++ 0x2F :: 0x2A :: body).length := by
      rw [h.split, List.length_append]
    rw [OpenComment, hsplit, modeAt_add, hcode] at hopen
    nth_rewrite 1 [h.split] at hopen
    rwa [List.drop_left] at hopen

theorem drop_eq (h : Between src pre gap rest) :
    src.drop (pre.length + gap.length) = rest := by
  rw [h.split, ← List.append_assoc, ← List.length_append, List.drop_left]

theorem length_eq (h : Between src pre gap rest) :
    src.length = pre.length + gap.length + rest.length := by
  rw [h.split, List.length_append, List.length_append, Nat.add_assoc]

/-- The lexer takes a token and stands behind it. -/
theorem take {span rest' : List UInt8} (h : Between src pre gap rest)
    (hspan : TokenSpan rest span rest') : Between src (pre ++ (gap ++ span)) [] rest' where
  split := by
    rw [List.nil_append, List.append_assoc, List.append_assoc, ← hspan.split]
    exact h.split
  mode := by
    have hne : rest ≠ [] := fun hnil => by
      have hpos := hspan.length_eq
      rw [hnil, List.length_nil] at hpos
      omega
    rw [List.length_append, List.length_append, ← Nat.add_assoc, modeAt_add, h.modeAt_rest hne,
      h.drop_eq, List.nil_append]
    exact hspan.mode
  skippable := .nil

/-- The token that is taken is the first of a partition if the others are the rest. -/
theorem partition_take_iff {span rest' : List UInt8} {ts : List Token} (kind : TokenKind)
    (h : Between src pre gap rest) (hspan : TokenSpan rest span rest') :
    Partition src pre.length (tokenAt src kind rest rest' :: ts) ↔
      Partition src (pre ++ (gap ++ span)).length ts := by
  obtain ⟨hpos, hlen⟩ := hspan.length_eq
  have hsrc := h.length_eq
  have hne : rest ≠ [] := fun hnil => by
    rw [hnil, List.length_nil] at hlen
    omega
  have hstart : (tokenAt src kind rest rest').start = pre.length + gap.length := by
    simp only [tokenAt]
    omega
  have hspanlen : (tokenAt src kind rest rest').len = span.length := by
    simp only [tokenAt]
    omega
  have hend : (tokenAt src kind rest rest').start + (tokenAt src kind rest rest').len =
      (pre ++ (gap ++ span)).length := by
    rw [hstart, hspanlen, List.length_append, List.length_append, Nat.add_assoc]
  rw [partition_cons_iff h.gap_eq (by omega) (by omega) fun i hge hlt => ?_, hend]
  obtain ⟨j, rfl⟩ : ∃ j, i = pre.length + gap.length + j :=
    ⟨i - (pre.length + gap.length), by omega⟩
  rw [inComment_add, h.modeAt_rest hne, h.drop_eq]
  exact hspan.clear j (by omega)

/-- The last byte of an open comment is in it. -/
theorem inComment_last {init : List UInt8} {last : UInt8}
    (h : Between src pre gap (0x2F :: 0x2A :: (init ++ [last])))
    (hbody : ¬ blockEnd <:+: init ++ [last]) : InComment .code src (src.length - 1) := by
  have hpos : src.length - 1 = pre.length + gap.length + (init.length + 2) := by
    rw [h.length_eq, List.length_cons, List.length_cons, List.length_append, List.length_singleton]
    omega
  have hmode : modeAt .code (0x2F :: 0x2A :: (init ++ [last])) (init.length + 2) = .block :=
    modeAt_openComment hbody (by rw [List.length_append]; exact Nat.le_add_right _ _)
  rw [hpos, inComment_add, h.modeAt_rest (List.cons_ne_nil _ _), h.drop_eq]
  refine ⟨last, ?_, by rw [hmode]; rfl⟩
  rw [List.getElem?_cons_succ, List.getElem?_cons_succ, List.getElem?_concat_length]

end Between

theorem Lexes.nil {ts : List Token} (h : Lexes src checks [] ts) :
    ts = [tokenAt src .eof [] []] := by
  cases h with
  | done => rfl
  | skip hne => exact absurd rfl hne
  | take hne => exact absurd rfl hne

/-- From wherever the lexer is, its tokens partition the source exactly if no comment is
open at the end. -/
theorem Lexes.partition_iff {rest : List UInt8} {ts : List Token} (h : Lexes src checks rest ts)
    {pre gap : List UInt8} (hb : Between src pre gap rest) :
    Partition src pre.length ts ↔ ¬ OpenComment src := by
  induction h generalizing pre gap with
  | @done rest hskip =>
    rcases skipTrivia_cases (Nat.le_refl rest.length) with
      ⟨gap', hrest, hgap, -⟩ | ⟨gap', body, rfl, hgap, hopen, -⟩
    · rw [hskip] at hrest hgap
      rw [hrest] at hb
      obtain ⟨hpart, hclosed⟩ := (hb.extend hgap).eof
      exact iff_of_true hpart hclosed
    · obtain ⟨hyes, hno⟩ := (hb.extend hgap).openComment hopen
      exact iff_of_false hno (not_not.mpr hyes)
  | @skip rest rest' ts hne htoken hlex ih =>
    rcases skipTrivia_cases (Nat.le_refl rest.length) with
      ⟨gap', hrest, hgap, hstart⟩ | ⟨gap', body, rfl, hgap, hopen, hlast⟩
    · obtain ⟨span, hspan, hnone⟩ := tokenSpan_of_token htoken hne hstart
      obtain ⟨b, rfl, hignored⟩ := hnone rfl
      rw [hrest] at hb
      have hb' := hb.extend hgap
      rw [hspan.split] at hb'
      exact ih (hb'.extend (.ignored hignored .nil))
    · obtain ⟨init, last, rfl, hsame, hstart⟩ := hlast.resolve_left hne
      rw [hsame] at htoken
      obtain ⟨span, hspan, -⟩ := tokenSpan_of_token htoken (List.cons_ne_nil _ _) hstart
      obtain ⟨hpos, hlen⟩ := hspan.length_eq
      rw [List.length_singleton] at hlen
      obtain rfl : rest' = [] := List.length_eq_zero_iff.mp (by omega)
      obtain ⟨hyes, hno⟩ := (hb.extend hgap).openComment hopen
      rw [hlex.nil]
      exact iff_of_false hno (not_not.mpr hyes)
  | @take rest rest' ts kind hne htoken hlex ih =>
    rcases skipTrivia_cases (Nat.le_refl rest.length) with
      ⟨gap', hrest, hgap, hstart⟩ | ⟨gap', body, rfl, hgap, hopen, hlast⟩
    · obtain ⟨span, hspan, -⟩ := tokenSpan_of_token htoken hne hstart
      obtain ⟨hpos, hlen⟩ := hspan.length_eq
      rw [hrest] at hb
      have hb' := hb.extend hgap
      rw [hb'.partition_take_iff kind hspan]
      exact ih (hb'.take hspan)
    · obtain ⟨init, last, rfl, hsame, hstart⟩ := hlast.resolve_left hne
      rw [hsame] at htoken
      obtain ⟨span, hspan, -⟩ := tokenSpan_of_token htoken (List.cons_ne_nil _ _) hstart
      obtain ⟨hpos, hlen⟩ := hspan.length_eq
      rw [List.length_singleton] at hlen
      obtain rfl : rest' = [] := List.length_eq_zero_iff.mp (by omega)
      have hb' := hb.extend hgap
      obtain ⟨hyes, -⟩ := hb'.openComment hopen
      refine iff_of_false (fun hpart => ?_) (not_not.mpr hyes)
      rw [hsame] at hpart
      cases hpart with
      | eof _ _ _ hzero => cases hzero
      | token _ _ hin hclear =>
        have hlast := hb'.inComment_last hopen
        exact hclear _ (Nat.le_refl _) (Nat.lt_succ_self _) hlast

/-- **When the tokens partition the source**: exactly when no block comment stays open at its
end. -/
theorem tokenize_partition_iff {room : ℕ} {toks : List Token}
    (h : tokenize src checks room = .ok toks) : Partition src 0 toks ↔ ¬ OpenComment src := by
  have hstart : Between src [] [] src := ⟨rfl, .inl modeAt_zero, .nil⟩
  exact (lexes_of_tokenize h).partition_iff hstart

/-- A source with both kinds of comment and an ignored byte. -/
def commentedSource : List UInt8 := bytes "$a /* b */ ~ // c"

theorem commentedSource_partitioned : ∃ toks,
    tokenize commentedSource true maxTokens = .ok toks ∧ Partition commentedSource 0 toks := by
  have htoks : tokenize commentedSource true maxTokens =
      .ok [⟨.varIdent, 0, 2, 1, 1⟩, ⟨.eof, 17, 0, 1, 18⟩] := by decide +kernel
  have hclosed : ¬ OpenComment commentedSource := by
    unfold OpenComment
    decide +kernel
  exact ⟨_, htoks, (tokenize_partition_iff htoks).mpr hclosed⟩

/-- The last byte of an open comment becomes an identifier. -/
theorem openComment_tokenized : ∃ toks, tokenize (bytes "/* a") true maxTokens = .ok toks ∧
    ¬ Partition (bytes "/* a") 0 toks := by
  have htoks : tokenize (bytes "/* a") true maxTokens =
      .ok [⟨.ident, 3, 1, 1, 4⟩, ⟨.eof, 4, 0, 1, 5⟩] := by decide +kernel
  refine ⟨_, htoks, fun hpart => ?_⟩
  cases hpart with
  | token _ _ _ hclear =>
    have hlast : InComment .code (bytes "/* a") 3 := ⟨0x61, by decide +kernel, by decide +kernel⟩
    exact hclear 3 (Nat.le_refl 3) (by decide) hlast

end Lexer

end LatencyOS
