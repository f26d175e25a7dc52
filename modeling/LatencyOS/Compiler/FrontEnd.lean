import LatencyOS.Compiler.Discipline.Compile

/-!
# The front end and panics

The tokens of the lexer lie in the source, so the compiler panics only where one of its own
unguarded primitives does; the lexer panics only at a time literal whose product overflows.
-/

namespace LatencyOS

namespace Compiler

/-!
## Compilation terminates

A bound on the recursion that depends on the number of tokens only is never reached, and every
call of `statement` or `expression` that returns has consumed a token.  For the second part the
compiler is run with an assertion after each of these calls.
-/

variable {s : Session} {st : CompilerState} {α : Type}

/-- A call followed by the assertion that it has moved the cursor forward; a failed assertion
counts as a reached bound. -/
def asserting (p : CompilerM α) : CompilerM α := do
  let before ← get
  let a ← p
  let after ← get
  if before.current < after.current then return a
  .throw .fuel

/-- The functions with an assertion after every call of `statement` and `expression`. -/
def Rec.asserting (r : Rec) : Rec where
  fuel := r.fuel
  statement := Compiler.asserting r.statement
  expression := fun dst => Compiler.asserting (r.expression dst)
  ternary := r.ternary
  primary := r.primary

/-- `recN` with the assertions, at every level. -/
def assertingN (fuel : ℕ) : ℕ → Rec
  | 0 => .bottom fuel
  | n + 1 => (assertingN fuel n).next.asserting

theorem Moves.asserting {p : CompilerM α} (h : Moves s p) : Moves s (Compiler.asserting p) := by
  refine ⟨fun {pend st} hs => runs_get (Prog.Wp.bind ((h.runs hs).mono fun a t ht => ?_))⟩
  refine runs_get ?_
  rw [if_pos ht.2.2]
  exact ht

theorem Calls.asserting {r : Rec} (h : Calls s r) : Calls s r.asserting where
  fuel := h.fuel
  expression := fun before level dst => (h.expression before level dst).asserting
  ternary := h.ternary
  primary := h.primary
  statement := fun before level => (h.statement before level).asserting

theorem calls_assertingN (n : ℕ) (hdepth : s.depth = n) : Calls s (assertingN s.fuel n) := by
  induction n generalizing s with
  | zero => exact calls_recN 0 hdepth
  | succ n ih =>
    have hup : s = Session.up { s with depth := n } := by
      rw [Session.up, ← hdepth]
    rw [hup]
    exact (ih (s := { s with depth := n }) rfl).next.asserting

/-- With enough fuel no bound is reached. -/
theorem compile_ne_fuel (src : List UInt8) (tokens : List Token) (checks : Bool) {fuel : ℕ}
    (hfuel : compileBound tokens.length ≤ fuel) {r : Rec}
    (hr : ∀ enough, Calls (Session.start src tokens fuel true enough) r) :
    (compile r).run perform (CompilerState.new src tokens checks) ≠ .error .fuel := by
  intro hrun
  have henough : tokens.length + 2 ≤ fuel := by
    simp only [compileBound] at hfuel
    omega
  by_cases hsafe : (compile r).Forall perform SafeOp (CompilerState.new src tokens checks)
  · have hend := (compile_keeps src tokens checks (fun _ => hfuel) (hr fun _ => henough) hsafe).2
    rw [hrun] at hend
    exact hend.1 rfl rfl
  · rw [Prog.run_of_not_forall perform_of_not_safeOp hsafe] at hrun
    cases hrun

/-- Compilation terminates for every token array, and every call of `statement` or `expression`
that returns has moved the cursor forward. -/
theorem compile_terminates (src : List UInt8) (tokens : List Token) (checks : Bool) :
    ∃ bound, ∀ fuel, bound ≤ fuel →
      (compile (recN fuel fuel)).run perform (CompilerState.new src tokens checks) ≠
        .error .fuel ∧
      (compile (assertingN fuel fuel)).run perform (CompilerState.new src tokens checks) ≠
        .error .fuel := by
  refine ⟨compileBound tokens.length, fun fuel hfuel => ⟨?_, ?_⟩⟩
  · exact compile_ne_fuel src tokens checks hfuel fun _ => calls_recN fuel rfl
  · exact compile_ne_fuel src tokens checks hfuel fun _ => calls_assertingN fuel rfl

end Compiler

namespace Lexer

/-! ## Tokens lie in the source -/

theorem length_skipBlockComment_le (l : List UInt8) :
    (skipBlockComment l).length ≤ l.length := by
  fun_induction skipBlockComment l with
  | case1 a b rest h =>
    simp only [List.length_cons]
    omega
  | case2 a b rest h ih =>
    simp only [List.length_cons] at ih ⊢
    omega
  | case3 rest h => exact Nat.le_refl _

theorem length_skipTrivia_le (n : ℕ) (l : List UInt8) : (skipTrivia n l).length ≤ l.length := by
  fun_induction skipTrivia n l with
  | case1 => exact Nat.le_refl _
  | case2 => exact Nat.le_refl _
  | case3 n b rest h ih => exact Nat.le_succ_of_le ih
  | case4 n b rest h h' ih =>
    exact Nat.le_succ_of_le (Nat.le_trans ih (List.dropWhile_sublist _).length_le)
  | case5 n b rest h h' h'' ih =>
    have hblock := length_skipBlockComment_le (rest.drop 1)
    rw [List.length_drop] at hblock
    simp only [List.length_cons]
    omega
  | case6 => exact Nat.le_refl _

theorem length_numberRest_le {checks : Bool} {num : Word64} {l rest : List UInt8} {k : TokenKind}
    (h : numberRest checks num l = .ok (k, rest)) : rest.length ≤ l.length := by
  unfold numberRest at h
  repeat' split at h
  all_goals cases h
  all_goals first | exact Nat.le_refl _ | exact (List.drop_sublist _ _).length_le

theorem length_number_le {checks : Bool} {l rest : List UInt8} {k : TokenKind}
    (h : number checks l = .ok (k, rest)) : rest.length ≤ l.length := by
  unfold number at h
  split at h
  · cases h
    exact (List.drop_sublist _ _).length_le
  · exact Nat.le_trans (length_numberRest_le h) (List.drop_sublist _ _).length_le

theorem length_token_le {checks : Bool} {l rest : List UInt8} {k : Option TokenKind}
    (h : token checks l = .ok (k, rest)) : rest.length ≤ l.length := by
  unfold token at h
  split at h
  · cases h
    exact Nat.le_refl _
  · next b tail =>
    have htail : ∀ l' : List UInt8, l'.Sublist tail → l'.length ≤ (b :: tail).length :=
      fun l' hsub => Nat.le_succ_of_le hsub.length_le
    split at h
    · cases h
      exact htail _ (List.drop_sublist _ _)
    · split at h
      · cases hnum : number checks (b :: tail) with
        | error e =>
          rw [hnum] at h
          cases h
        | ok r =>
          rw [hnum] at h
          cases h
          exact length_number_le hnum
      · repeat' split at h
        all_goals cases h
        all_goals first
          | exact htail _ (List.dropWhile_sublist _)
          | exact (List.dropWhile_sublist _).length_le
          | exact (List.drop_sublist _ _).length_le
          | exact htail _ (List.Sublist.refl _)

/-- A token between two suffixes of the source lies in it. -/
theorem tokenAt_le {src rest rest' : List UInt8} (kind : TokenKind)
    (h : rest.length ≤ src.length) :
    (tokenAt src kind rest rest').start + (tokenAt src kind rest rest').len ≤ src.length := by
  simp only [tokenAt]
  omega

/-- The tokens of a list lie in the source. -/
def InSource (src : List UInt8) (toks : List Token) : Prop :=
  ∀ tok ∈ toks, tok.start + tok.len ≤ src.length

theorem InSource.snoc {src : List UInt8} {toks : List Token} {tok : Token}
    (h : InSource src toks) (htok : tok.start + tok.len ≤ src.length) :
    InSource src (toks ++ [tok]) := by
  intro t ht
  rcases List.mem_append.mp ht with hold | hnew
  · exact h t hold
  · rw [List.mem_singleton.mp hnew]
    exact htok

theorem inSource_scan {src : List UInt8} {checks : Bool} {room n : ℕ} {rest rest' : List UInt8}
    {toks toks' : List Token} (h : scan src checks room n rest toks = .ok (toks', rest'))
    (hrest : rest.length ≤ src.length) (htoks : InSource src toks) :
    InSource src toks' ∧ rest'.length ≤ src.length := by
  induction n generalizing rest toks with
  | zero =>
    cases h
    exact ⟨htoks, hrest⟩
  | succ n ih =>
    have htrivia := Nat.le_trans (length_skipTrivia_le rest.length rest) hrest
    simp only [scan] at h
    split at h
    · cases h
      exact ⟨htoks, hrest⟩
    · split at h
      · cases h
        exact ⟨htoks, htrivia⟩
      · split at h
        · cases h
        · next htoken => exact ih h (Nat.le_trans (length_token_le htoken) htrivia) htoks
        · next htoken =>
          exact ih h (Nat.le_trans (length_token_le htoken) htrivia)
            (htoks.snoc (tokenAt_le _ htrivia))

theorem inSource_tokenize {src : List UInt8} {checks : Bool} {room : ℕ} {tokens : List Token}
    (h : tokenize src checks room = .ok tokens) : InSource src tokens := by
  unfold tokenize at h
  split at h
  · cases h
  · split at h
    · cases h
    · next toks rest hscan =>
      obtain ⟨htoks, hrest⟩ := inSource_scan hscan (Nat.le_refl _) nofun
      dsimp only at h
      split at h
      · cases h
      · cases h
        exact htoks.snoc (tokenAt_le _ (Nat.le_trans (length_skipTrivia_le _ _) hrest))

/-! ## Time literals -/

/-- The length in nanoseconds of the unit behind the digits at the start of a source, if they
are a time literal. -/
def timeUnit? (l : List UInt8) : Option ℕ :=
  let rest := l.drop (l.takeWhile isDigit).length
  if ¬ l.head?.any isDigit then none
  else if l.head? = some 0x30 ∧ ((l.drop 1).head? = some 0x78 ∨ (l.drop 1).head? = some 0x58) then
    none
  else if rest.head? = some 0x2E ∧ (rest.drop 1).head?.any isDigit then none
  else (timeUnits.find? fun u => u.1.isPrefixOf rest).map (·.2)

/-- The time literal at the start of a source, if there is one, fits a word; without overflow
checks every literal does. -/
def TimeFits (checks : Bool) (l : List UInt8) : Prop :=
  ∀ ns, timeUnit? l = some ns →
    ¬ (checks = true ∧ 2 ^ 64 ≤ (decNumber (l.takeWhile isDigit)).toNat * ns)

theorem numberRest_eq_error_iff {checks : Bool} {num : Word64} {rest : List UInt8} {e : Abort} :
    numberRest checks num rest = .error e ↔
      e = .panic ∧ ∃ ns, (if rest.head? = some 0x2E ∧ (rest.drop 1).head?.any isDigit then none
        else (timeUnits.find? fun u => u.1.isPrefixOf rest).map (·.2)) = some ns ∧
        checks = true ∧ 2 ^ 64 ≤ num.toNat * ns := by
  unfold numberRest
  by_cases hfrac : rest.head? = some 0x2E ∧ (rest.drop 1).head?.any isDigit
  · simp only [if_pos hfrac]
    simp
  · simp only [if_neg hfrac]
    cases timeUnits.find? fun u => u.1.isPrefixOf rest with
    | none => simp
    | some u =>
      simp only [Option.map_some, Option.some.injEq, exists_eq_left']
      by_cases hbig : checks = true ∧ 2 ^ 64 ≤ num.toNat * u.2
      · simp only [if_pos hbig, Except.error.injEq, eq_comm]
        exact (and_iff_left hbig).symm
      · simp only [if_neg hbig, reduceCtorEq]
        exact ⟨False.elim, fun h => hbig h.2⟩

theorem number_eq_error_iff {checks : Bool} {l : List UInt8} {e : Abort}
    (hdigit : l.head?.any isDigit) :
    number checks l = .error e ↔ e = .panic ∧ ¬ TimeFits checks l := by
  unfold number TimeFits timeUnit?
  by_cases hhex : l.head? = some 0x30 ∧
      ((l.drop 1).head? = some 0x78 ∨ (l.drop 1).head? = some 0x58)
  · simp only [if_pos hhex]
    simp [hdigit]
  · simp only [if_neg hhex, hdigit, not_true_eq_false, if_false, numberRest_eq_error_iff]
    simp only [not_forall, Decidable.not_not, exists_prop]

/-- The lexer panics exactly at a time literal that does not fit. -/
theorem token_eq_error_iff {checks : Bool} {l : List UInt8} {e : Abort} :
    token checks l = .error e ↔ e = .panic ∧ ¬ TimeFits checks l := by
  by_cases hdigit : l.head?.any isDigit
  · rw [← number_eq_error_iff hdigit]
    cases l with
    | nil => cases hdigit
    | cons b tail =>
      have hquote : b ≠ 0x22 := by
        rintro rfl
        cases hdigit
      have hb : isDigit b = true := hdigit
      simp only [token, if_neg hquote, hb, if_true]
      cases number checks (b :: tail) <;> simp [Except.map]
  · -- without a digit there is neither a number nor a time literal
    have hfits : TimeFits checks l := by
      intro ns hns
      rw [timeUnit?, if_pos hdigit] at hns
      cases hns
    simp only [hfits, not_true_eq_false, and_false, iff_false]
    intro h
    cases l with
    | nil => cases h
    | cons b tail =>
      have hb : isDigit b ≠ true := hdigit
      simp only [token, if_neg hb] at h
      repeat' split at h
      all_goals cases h

/-- A property holds of every suffix at which `scan` looks for a token. -/
def AllTokens (P : List UInt8 → Prop) (src : List UInt8) (checks : Bool) (room : ℕ) :
    ℕ → List UInt8 → List Token → Prop
  | 0, _, _ => True
  | n + 1, rest, toks =>
    if rest = [] ∨ room ≤ toks.length + 1 then True
    else
      let rest := skipTrivia rest.length rest
      if rest = [] then True
      else
        P rest ∧ match token checks rest with
          | .error _ => True
          | .ok (none, rest') => AllTokens P src checks room n rest' toks
          | .ok (some kind, rest') =>
            AllTokens P src checks room n rest' (toks ++ [tokenAt src kind rest rest'])

theorem scan_eq_error_iff {src : List UInt8} {checks : Bool} {room n : ℕ} {rest : List UInt8}
    {toks : List Token} {e : Abort} :
    scan src checks room n rest toks = .error e ↔
      e = .panic ∧ ¬ AllTokens (TimeFits checks) src checks room n rest toks := by
  induction n generalizing rest toks with
  | zero => simp [scan, AllTokens]
  | succ n ih =>
    simp only [scan, AllTokens]
    split
    · simp
    · split
      · simp
      · cases htoken : token checks (skipTrivia rest.length rest) with
        | error e' =>
          obtain ⟨rfl, hfits⟩ := token_eq_error_iff.mp htoken
          simp only [hfits, not_false_eq_true, and_true, Except.error.injEq, eq_comm]
        | ok r =>
          have hfits : TimeFits checks (skipTrivia rest.length rest) := by
            by_contra hnot
            rw [token_eq_error_iff.mpr ⟨rfl, hnot⟩] at htoken
            cases htoken
          obtain ⟨kind, rest'⟩ := r
          cases kind <;> simp only [hfits, true_and] <;> exact ih

theorem tokenize_eq_panic_iff {src : List UInt8} {checks : Bool} {room : ℕ} (hroom : room ≠ 0) :
    tokenize src checks room = .error .panic ↔
      ¬ AllTokens (TimeFits checks) src checks room (src.length + 1) src [] := by
  have hscan : scan src checks room (src.length + 1) src [] = .error .panic ↔ _ :=
    scan_eq_error_iff
  rw [tokenize, if_neg hroom]
  constructor
  · intro h
    split at h
    · next e he =>
      cases h
      exact (hscan.mp he).2
    · dsimp only at h
      split at h <;> cases h
  · intro h
    rw [hscan.mpr ⟨rfl, h⟩]

theorem tokenize_ne_fuel {src : List UInt8} {checks : Bool} {room : ℕ} :
    tokenize src checks room ≠ .error .fuel := by
  intro h
  unfold tokenize at h
  split at h
  · cases h
  · split at h
    · next e he =>
      cases h
      exact absurd (scan_eq_error_iff.mp he).1 nofun
    · dsimp only at h
      split at h <;> cases h

/-! ## Without overflow checks -/

theorem numberRest_unchecked {num : Word64} {l : List UInt8}
    (h : numberRest true num l ≠ .error .panic) :
    numberRest false num l = numberRest true num l := by
  unfold numberRest at h ⊢
  split
  · rfl
  · next hpoint =>
    rw [if_neg hpoint] at h
    split
    · next u hu =>
      rw [hu] at h
      dsimp only at h
      split at h
      · exact absurd rfl h
      · next hfits => rw [if_neg (by simp), if_neg hfits]
    · rfl

theorem token_unchecked {l : List UInt8} (h : token true l ≠ .error .panic) :
    token false l = token true l := by
  cases l with
  | nil => rfl
  | cons b tail =>
    simp only [token] at h ⊢
    split
    · rfl
    · next hquote =>
      rw [if_neg hquote] at h
      split
      · next hdigit =>
        rw [if_pos hdigit] at h
        have hnumber : number false (b :: tail) = number true (b :: tail) := by
          unfold number at h ⊢
          split
          · rfl
          · next hhex =>
            rw [if_neg hhex] at h
            refine numberRest_unchecked fun hpanic => ?_
            dsimp only at h
            rw [hpanic] at h
            exact h rfl
        rw [hnumber]
      · rfl

theorem scan_unchecked {src : List UInt8} {room n : ℕ} {rest : List UInt8} {toks : List Token}
    (h : scan src true room n rest toks ≠ .error .panic) :
    scan src false room n rest toks = scan src true room n rest toks := by
  induction n generalizing rest toks with
  | zero => rfl
  | succ n ih =>
    simp only [scan] at h ⊢
    split
    · rfl
    · next hroom =>
      rw [if_neg hroom] at h
      split
      · rfl
      · next hne =>
        rw [if_neg hne] at h
        have htoken : token false (skipTrivia rest.length rest) =
            token true (skipTrivia rest.length rest) := by
          refine token_unchecked fun hpanic => ?_
          rw [hpanic] at h
          exact h rfl
        rw [htoken]
        cases hres : token true (skipTrivia rest.length rest) with
        | error e => rfl
        | ok r =>
          obtain ⟨kind, rest'⟩ := r
          rw [hres] at h
          cases kind <;> exact ih h

/-- A source the checked lexer does not panic on is read the same way without the checks. -/
theorem tokenize_unchecked {src : List UInt8} {room : ℕ}
    (h : tokenize src true room ≠ .error .panic) :
    tokenize src false room = tokenize src true room := by
  unfold tokenize at h ⊢
  split
  · rfl
  · next hroom =>
    rw [if_neg hroom] at h
    have hscan : scan src false room (src.length + 1) src [] =
        scan src true room (src.length + 1) src [] := by
      refine scan_unchecked fun hpanic => ?_
      rw [hpanic] at h
      exact h rfl
    rw [hscan]

end Lexer

/-- **The front end never panics**: whatever the recursion bound, it ends with a program, a
diagnostic or at the bound, and from some bound on it ends with a program or a diagnostic. -/
def NeverPanics (checks : Bool) (src : List UInt8) : Prop :=
  (∀ fuel, compileState checks fuel src ≠ .error .panic) ∧
    ∃ bound, ∀ fuel, bound ≤ fuel → compileState checks fuel src ≠ .error .fuel

/-- What the front end does not check itself: the time literals fit, and no negation of a
literal, length of a range or entry of the array table is out of range where it is made. -/
def StaysInRange (checks : Bool) (src : List UInt8) : Prop :=
  Lexer.AllTokens (Lexer.TimeFits checks) src checks maxTokens (src.length + 1) src [] ∧
    ∀ tokens, Lexer.tokenize src checks maxTokens = .ok tokens → ∀ fuel,
      (Compiler.compile (Compiler.recN fuel fuel)).Forall perform Compiler.SafeOp
        (CompilerState.new src tokens checks)

namespace Compiler

theorem compileState_of_tokens {checks : Bool} {src : List UInt8} {tokens : List Token}
    (h : Lexer.tokenize src checks maxTokens = .ok tokens) (fuel : ℕ) :
    compileState checks fuel src = ((compile (recN fuel fuel)).run perform
      (CompilerState.new src tokens checks)).map (·.2) := by
  rw [compileState, h]

theorem map_eq_error {α β : Type} {x : Except Abort α} {f : α → β} {e : Abort} :
    x.map f = .error e ↔ x = .error e := by
  cases x <;> simp [Except.map]

/-- A compilation of lexed tokens panics exactly when one of its primitives does. -/
theorem compile_panics_iff {checks : Bool} {src : List UInt8} {tokens : List Token}
    (h : Lexer.tokenize src checks maxTokens = .ok tokens) (fuel : ℕ) :
    compileState checks fuel src = .error .panic ↔
      ¬ (compile (recN fuel fuel)).Forall perform SafeOp (CompilerState.new src tokens checks) := by
  rw [compileState_of_tokens h, map_eq_error]
  constructor
  · intro hpanic hsafe
    have hend := (compile_keeps_recN src tokens checks fuel hsafe).2
    rw [hpanic] at hend
    exact hend.2 (Lexer.inSource_tokenize h) rfl
  · exact Prog.run_of_not_forall perform_of_not_safeOp

/-- From some bound on no recursion bound is reached. -/
theorem compileState_ne_fuel (checks : Bool) (src : List UInt8) :
    ∃ bound, ∀ fuel, bound ≤ fuel → compileState checks fuel src ≠ .error .fuel := by
  cases htok : Lexer.tokenize src checks maxTokens with
  | error e =>
    refine ⟨0, fun fuel _ hfuel => ?_⟩
    rw [compileState, htok] at hfuel
    cases hfuel
    exact Lexer.tokenize_ne_fuel htok
  | ok tokens =>
    refine ⟨compileBound tokens.length, fun fuel hfuel => ?_⟩
    rw [compileState_of_tokens htok, Ne, map_eq_error]
    exact compile_ne_fuel src tokens checks hfuel fun _ => calls_recN fuel rfl

end Compiler

/-- The front end panics on no source but those that make it leave a range it does not check. -/
theorem frontEnd_neverPanics_iff (checks : Bool) (src : List UInt8) :
    NeverPanics checks src ↔ StaysInRange checks src := by
  have hlex : Lexer.tokenize src checks maxTokens = .error .panic ↔ _ :=
    Lexer.tokenize_eq_panic_iff (by decide)
  constructor
  · intro h
    refine ⟨?_, fun tokens htok fuel => ?_⟩
    · by_contra hfits
      refine h.1 0 ?_
      rw [compileState, hlex.mpr hfits]
    · by_contra hsafe
      exact h.1 fuel ((Compiler.compile_panics_iff htok fuel).mpr hsafe)
  · intro h
    refine ⟨fun fuel hpanic => ?_, Compiler.compileState_ne_fuel checks src⟩
    cases htok : Lexer.tokenize src checks maxTokens with
    | error e =>
      rw [compileState, htok] at hpanic
      cases hpanic
      exact hlex.mp htok h.1
    | ok tokens => exact (Compiler.compile_panics_iff htok fuel).mp hpanic (h.2 tokens htok fuel)

/-- Nine arrays, after the pool has been widened to sixteen. -/
def nineArrays : List UInt8 := bytes
  ("@pool_size(arrays: 16); let $a = [1]; let $b = [1]; let $c = [1]; let $d = [1]; " ++
    "let $e = [1]; let $f = [1]; let $g = [1]; let $h = [1]; let $i = [1];")

/-- Whether a compilation panics. -/
def panics {α : Type} : Except Abort α → Bool
  | .error .panic => true
  | _ => false

theorem eq_panic_of_panics {α : Type} {x : Except Abort α} (h : panics x = true) :
    x = .error .panic := by
  unfold panics at h
  split at h
  · rfl
  · cases h

/-- The table of arrays has eight entries, in every build. -/
theorem nineArrays_panics : ¬ ∀ (checks : Bool) (src : List UInt8), NeverPanics checks src := by
  intro hall
  have hpanic : panics (compileState false 60 nineArrays) = true := by decide +kernel
  exact (hall false nineArrays).1 60 (eq_panic_of_panics hpanic)

end LatencyOS
