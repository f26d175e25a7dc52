import LatencyOS.Compiler.FrontEnd
import LatencyOS.Tools.Slicing

/-!
# When the formatter returns

The validation reads the source at the tokens of the lexer, which lie in it, and a comment is
split off between characters.  What is left are the numbers of the lines and the time literals
of the lexer.
-/

namespace LatencyOS.Fmt

open Format

/-! ## Comments over characters -/

/-- A line from its comment on, if there is one. -/
def commentPart : Bool → Str → Option Str
  | _, [] => none
  | inStr, c :: s =>
    if c = '\\' ∧ inStr then
      match s with
      | [] => none
      | _ :: s => commentPart inStr s
    else if c = '"' then commentPart (!inStr) s
    else if c = '/' ∧ inStr = false ∧ s.head? = some '/' then some (c :: s)
    else commentPart inStr s

/-- A line up to its comment. -/
def codePart (line : Str) : Str :=
  match commentPart false line with
  | some comment => line.take (line.length - comment.length)
  | none => line

theorem commentPart_escape (c : Char) (s : Str) :
    commentPart true ('\\' :: c :: s) = commentPart true s := by
  rw [commentPart.eq_def]
  simp

theorem commentPart_cons {inStr : Bool} {c : Char} (h : ¬ (c = '\\' ∧ inStr = true)) (s : Str) :
    commentPart inStr (c :: s) =
      if c = '"' then commentPart (!inStr) s
      else if c = '/' ∧ inStr = false ∧ s.head? = some '/' then some (c :: s)
      else commentPart inStr s := by
  rw [commentPart.eq_def]
  simp only [h, if_false]

theorem commentRest_escape (b : UInt8) (bs : List UInt8) :
    commentRest true (0x5C :: b :: bs) = commentRest true bs := by
  rw [commentRest.eq_def]
  simp

theorem commentRest_cons {inStr : Bool} {b : UInt8} (h : ¬ (b = 0x5C ∧ inStr = true))
    (bs : List UInt8) :
    commentRest inStr (b :: bs) =
      if b = 0x22 then commentRest (!inStr) bs
      else if b = 0x2F ∧ inStr = false ∧ bs.head? = some 0x2F then some (b :: bs)
      else commentRest inStr bs := by
  rw [commentRest.eq_def]
  simp only [h, if_false]

theorem commentPart_suffix {inStr : Bool} {s comment : Str}
    (h : commentPart inStr s = some comment) : comment <:+ s := by
  induction hn : s.length using Nat.strong_induction_on generalizing inStr s with
  | _ n ih =>
    subst hn
    cases s with
    | nil => cases h
    | cons c s =>
      have hlt : s.length < (c :: s).length := Nat.lt_succ_self _
      by_cases hesc : c = '\\' ∧ inStr = true
      · obtain ⟨rfl, rfl⟩ := hesc
        cases s with
        | nil => cases h
        | cons d s =>
          rw [commentPart_escape] at h
          exact (ih _ (Nat.lt_trans (Nat.lt_succ_self _) hlt) h rfl).trans
            ((List.suffix_cons _ _).trans (List.suffix_cons _ _))
      · rw [commentPart_cons hesc] at h
        split at h
        · exact (ih _ hlt h rfl).trans (List.suffix_cons _ _)
        · split at h
          · cases h
            exact List.suffix_refl _
          · exact (ih _ hlt h rfl).trans (List.suffix_cons _ _)

/-- The bytes are scanned as the characters are. -/
theorem commentRest_behind {inStr : Bool} {bs : List UInt8} {s : Str} (h : Behind bs s) :
    commentRest inStr bs = (commentPart inStr s).map utf8 := by
  induction hn : bs.length using Nat.strong_induction_on generalizing inStr bs s with
  | _ n ih =>
    subst hn
    cases bs with
    | nil =>
      rw [h.nil]
      rfl
    | cons b bs =>
      have hlt : bs.length < (b :: bs).length := Nat.lt_succ_self _
      have hskip : b ≠ 0x5C → b ≠ 0x22 → b ≠ 0x2F →
          commentRest inStr (b :: bs) = commentRest inStr bs := by
        intro hescape hquote hslash
        rw [commentRest_cons fun he => hescape he.1, if_neg hquote, if_neg fun he => hslash he.1]
      rcases h.cons_cases with
        ⟨hb, hrest⟩ | ⟨c, r, rfl, hc, hcode, rfl⟩ | ⟨c, r, rfl, hc, hb, hrest⟩
      · have hne : b ≠ 0x5C ∧ b ≠ 0x22 ∧ b ≠ 0x2F := by
          refine ⟨?_, ?_, ?_⟩ <;> rintro rfl <;> exact absurd hb (by decide)
        rw [hskip hne.1 hne.2.1 hne.2.2]
        exact ih _ hlt hrest rfl
      · have hiff : ∀ d : Char, d.toNat < 128 → (b = UInt8.ofNat d.toNat ↔ c = d) :=
          fun d hd => hcode ▸ ofNat_toNat_inj hc hd
        have hescape : b = 0x5C ↔ c = '\\' := hiff '\\' (by decide)
        have hquote : b = 0x22 ↔ c = '"' := hiff '"' (by decide)
        have hslash : b = 0x2F ↔ c = '/' := hiff '/' (by decide)
        by_cases hesc : c = '\\' ∧ inStr = true
        · obtain ⟨hce, rfl⟩ := hesc
          rw [hescape.mpr hce, hce]
          cases r with
          | nil => rfl
          | cons d r =>
            have hbehind := Behind.of_drop_one d r
            cases hxs : utf8 (d :: r) with
            | nil => exact absurd hxs (by simp [String.utf8EncodeChar_ne_nil])
            | cons x xs =>
              rw [hxs] at hbehind
              rw [commentRest_escape, commentPart_escape]
              refine ih _ ?_ hbehind rfl
              rw [hxs, List.length_cons, List.length_cons]
              omega
        · rw [commentPart_cons hesc, commentRest_cons fun he => hesc ⟨hescape.mp he.1, he.2⟩]
          have hahead : (utf8 r).head? = some 0x2F ↔ r.head? = some '/' :=
            head_utf8_iff (d := '/') (by decide) r
          by_cases hcq : c = '"'
          · rw [if_pos (hquote.mpr hcq), if_pos hcq]
            exact ih _ hlt (Behind.of_utf8 r) rfl
          · rw [if_neg (mt hquote.mp hcq), if_neg hcq]
            by_cases hcs : c = '/' ∧ inStr = false ∧ r.head? = some '/'
            · rw [if_pos ⟨hslash.mpr hcs.1, hcs.2.1, hahead.mpr hcs.2.2⟩, if_pos hcs,
                hslash.mpr hcs.1, hcs.1]
              rfl
            · rw [if_neg fun he => hcs ⟨hslash.mp he.1, he.2.1, hahead.mp he.2.2⟩, if_neg hcs]
              exact ih _ hlt (Behind.of_utf8 r) rfl
      · have hne : b ≠ 0x5C ∧ b ≠ 0x22 ∧ b ≠ 0x2F := by
          refine ⟨?_, ?_, ?_⟩ <;> rintro rfl <;> exact absurd hb (by decide)
        have hne' : c ≠ '\\' ∧ c ≠ '"' ∧ c ≠ '/' := by
          refine ⟨?_, ?_, ?_⟩ <;> rintro rfl <;> exact absurd hc (by decide)
        rw [hskip hne.1 hne.2.1 hne.2.2, commentPart_cons fun he => hne'.1 he.1,
          if_neg hne'.2.1, if_neg fun he => hne'.2.2 he.1]
        exact ih _ hlt hrest rfl

/-- `split_line_comment` takes its slices between characters. -/
theorem splitLineComment_eq (line : Str) :
    splitLineComment line = .ok (codePart line, commentPart false line) := by
  have hrest : commentRest false (utf8 line) = (commentPart false line).map utf8 :=
    commentRest_behind (Behind.of_utf8 line)
  rw [splitLineComment, hrest, codePart]
  cases h : commentPart false line with
  | none => rfl
  | some comment =>
    obtain ⟨code, rfl⟩ := commentPart_suffix h
    have hcode := sliceOf_append [] code comment
    have hcomment := sliceOf_append code comment []
    rw [List.append_nil] at hcomment
    rw [List.nil_append] at hcode
    have htake : (code ++ comment).take ((code ++ comment).length - comment.length) = code := by
      rw [List.length_append, Nat.add_sub_cancel, List.take_left]
    simp only [Option.map_some, htake]
    rw [hcode, ← utf8_nil, hcomment]
    rfl

/-! ## Validation -/

/-- A call that returns a value or a diagnostic. -/
def Returns {α : Type} (r : Except Abort α) : Prop :=
  (∃ a, r = .ok a) ∨ ∃ e, r = .error (.error e)

theorem Returns.ok {α : Type} (a : α) : Returns (.ok a : Except Abort α) := .inl ⟨a, rfl⟩

theorem Returns.error {α : Type} (e : CompileError) :
    Returns (.error (.error e) : Except Abort α) := .inr ⟨e, rfl⟩

theorem Returns.bind {α β : Type} {x : Except Abort α} {f : α → Except Abort β} (hx : Returns x)
    (hf : ∀ a, x = .ok a → Returns (f a)) : Returns (x >>= f) := by
  rcases hx with ⟨a, rfl⟩ | ⟨e, rfl⟩
  · exact hf a rfl
  · exact .error e

theorem Returns.foldlM {α β : Type} {f : β → α → Except Abort β} {l : List α}
    (h : ∀ a ∈ l, ∀ b, Returns (f b a)) (b : β) : Returns (l.foldlM f b) := by
  induction l generalizing b with
  | nil => exact .ok b
  | cons a l ih =>
    rw [List.forall_mem_cons] at h
    rw [List.foldlM_cons]
    exact (h.1 b).bind fun b' _ => ih h.2 b'

theorem checkString_returns {src : List UInt8} {tok : Token}
    (h : tok.start + tok.len ≤ src.length) : Returns (checkString src tok) := by
  unfold checkString
  split
  · exact .error _
  · next hlen =>
    rw [List.getElem?_eq_getElem (by omega), List.getElem?_eq_getElem (by omega)]
    dsimp only
    split
    · exact .error _
    · split
      · exact .error _
      · exact .ok ()

theorem checkToken_returns {src : List UInt8} (d : Delimiters) {tok : Token}
    (h : tok.start + tok.len ≤ src.length) : Returns (checkToken src d tok) := by
  have hstring : Returns ((checkString src tok).map fun _ => d) := by
    rcases checkString_returns h with ⟨_, hok⟩ | ⟨e, herr⟩
    · rw [hok]
      exact .ok d
    · rw [herr]
      exact .error e
  unfold checkToken
  split
  case h_7 => exact hstring
  all_goals first
    | exact .ok _
    | (split
       · exact .error _
       · exact .ok _)

/-- The tokens of the lexer can be checked. -/
theorem validate_returns {src : List UInt8} {tokens : List Token}
    (h : Lexer.InSource src tokens) : Returns (validate src tokens) := by
  unfold validate
  refine (Returns.foldlM (fun tok htok d => checkToken_returns d (h tok htok)) _).bind ?_
  intro d _
  split
  · exact .error _
  · split
    · exact .error _
    · split
      · exact .error _
      · exact .ok ()

/-! ## Lines -/

/-- A line panics exactly when a number of its code tears. -/
theorem formatLine_spec (o : Output) (line : Str) :
    (TornNumber (trim (codePart line)) → formatLine o line = .error .panic) ∧
    (¬ TornNumber (trim (codePart line)) → ∃ o', formatLine o line = .ok o') := by
  have hsplit := splitLineComment_eq line
  unfold formatLine
  rw [hsplit]
  simp only [bind, Except.bind]
  by_cases hcode : trim (codePart line) = []
  · rw [if_pos hcode, hcode]
    refine ⟨fun h => absurd h not_tornNumber_nil, fun _ => ?_⟩
    cases (commentPart false line).map trim with
    | none => exact ⟨_, rfl⟩
    | some c => exact ⟨_, rfl⟩
  · rw [if_neg hcode]
    obtain ⟨htorn, hwhole⟩ := tokenizeLine_spec (trim (codePart line))
    constructor
    · intro h
      rw [htorn h]
    · intro h
      obtain ⟨tokens, htokens⟩ := hwhole h
      rw [htokens]
      exact ⟨_, rfl⟩

/-- The lines of a source panic exactly when one of them does. -/
theorem formatLines_returns_iff (ls : List Str) (o : Output) :
    Returns (ls.foldlM formatLine o) ↔ ∀ line ∈ ls, ¬ TornNumber (trim (codePart line)) := by
  induction ls generalizing o with
  | nil => exact ⟨fun _ => by simp, fun _ => .ok o⟩
  | cons line ls ih =>
    obtain ⟨htorn, hwhole⟩ := formatLine_spec o line
    rw [List.foldlM_cons, List.forall_mem_cons]
    by_cases h : TornNumber (trim (codePart line))
    · rw [htorn h]
      refine ⟨?_, fun hall => absurd h hall.1⟩
      rintro (⟨a, ha⟩ | ⟨e, he⟩)
      · cases ha
      · cases he
    · obtain ⟨o', ho⟩ := hwhole h
      rw [ho]
      exact (ih o').trans (and_iff_right h).symm

/-- The formatter returns exactly when the source is blank, or the time literals of the lexer
fit and, unless the validation ends it, no number of a line tears. -/
theorem formatSource_returns_iff (checks : Bool) (src : Str) :
    Returns (formatSource checks src) ↔
      trim src = [] ∨
        (Lexer.AllTokens (Lexer.TimeFits checks) (utf8 src) checks maxTokens
            ((utf8 src).length + 1) (utf8 src) [] ∧
          ∀ tokens, Lexer.tokenize (utf8 src) checks maxTokens = .ok tokens →
            validate (utf8 src) tokens = .ok () →
            ∀ line ∈ lines src, ¬ TornNumber (trim (codePart line))) := by
  unfold formatSource
  by_cases hblank : trim src = []
  · rw [if_pos hblank]
    exact ⟨fun _ => .inl hblank, fun _ => .ok []⟩
  · rw [if_neg hblank, or_iff_right hblank]
    have hpanic : Lexer.tokenize (utf8 src) checks maxTokens = .error .panic ↔ _ :=
      Lexer.tokenize_eq_panic_iff (by decide)
    cases htokens : Lexer.tokenize (utf8 src) checks maxTokens with
    | error e =>
      cases e with
      | panic =>
        refine ⟨?_, fun h => absurd h.1 (hpanic.mp htokens)⟩
        rintro (⟨a, ha⟩ | ⟨e, he⟩)
        · cases ha
        · cases he
      | fuel => exact absurd htokens Lexer.tokenize_ne_fuel
      | error e =>
        refine ⟨fun _ => ⟨?_, fun tokens h => by cases h⟩, fun _ => .error e⟩
        by_contra hnot
        rw [hpanic.mpr hnot] at htokens
        cases htokens
    | ok tokens =>
      have hfits : Lexer.AllTokens (Lexer.TimeFits checks) (utf8 src) checks maxTokens
          ((utf8 src).length + 1) (utf8 src) [] := by
        by_contra hnot
        rw [hpanic.mpr hnot] at htokens
        cases htokens
      rw [and_iff_right hfits]
      rcases validate_returns (Lexer.inSource_tokenize htokens) with ⟨⟨⟩, hok⟩ | ⟨e, herr⟩
      · have hlines : (∀ tokens', (.ok tokens : Except Abort (List Token)) = .ok tokens' →
            validate (utf8 src) tokens' = .ok () →
            ∀ line ∈ lines src, ¬ TornNumber (trim (codePart line))) ↔
            ∀ line ∈ lines src, ¬ TornNumber (trim (codePart line)) :=
          ⟨fun h => h tokens rfl hok, fun h _ _ _ => h⟩
        rw [hlines, ← formatLines_returns_iff (lines src) ⟨[], 0, true⟩]
        simp only [bind, Except.bind, hok]
        constructor
        · rintro (⟨a, ha⟩ | ⟨e, he⟩)
          · split at ha
            · cases ha
            · next o ho => exact ho ▸ .ok o
          · split at he
            · cases he
              next herr => exact herr ▸ .error e
            · cases he
        · rintro (⟨o, ho⟩ | ⟨e, he⟩)
          · rw [ho]
            exact .ok _
          · rw [he]
            exact .error e
      · refine ⟨fun _ tokens' h hok => ?_, fun _ => ?_⟩
        · cases h
          rw [herr] at hok
          cases hok
        · simp only [bind, Except.bind, herr]
          exact .error e

/-- A price where a number is expected. -/
def priceSource : Str := text "let $x = 5€;"

theorem priceSource_panics : ¬ Returns (formatSource false priceSource) := by
  have hpanic : formatSource false priceSource = .error .panic := by decide +kernel
  rw [hpanic]
  rintro (⟨a, ha⟩ | ⟨e, he⟩)
  · cases ha
  · cases he

end LatencyOS.Fmt
