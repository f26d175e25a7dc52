import LatencyOS.Compiler.Compile

/-!
# Register allocation

Variables are numbered upward from register 1 and temporaries downward from register 15.
Nothing keeps them apart: a temporary is fresh exactly while fewer variables are in scope
than its number.
-/

namespace LatencyOS

namespace CompilerState

/-- The register of the variable table's entry `i`. -/
def varHome (i : ℕ) : ℕ := if i < 13 then 1 + i else 255

/-- The variable counts saved by the enclosing functions never exceed the present one. -/
def ScopesBelow : ℕ → List (ℕ × Option ℕ) → Prop
  | _, [] => True
  | count, scope :: rest => scope.1 ≤ count ∧ ScopesBelow scope.1 rest

/-- The table gives every variable in scope its register by position. -/
structure VarsPlaced (st : CompilerState) : Prop where
  reg_eq : ∀ i < st.varCount, (st.vars i).reg = varHome i
  scopes : ScopesBelow st.varCount st.scopes

theorem ScopesBelow.mono {m n : ℕ} {scopes : List (ℕ × Option ℕ)} (h : ScopesBelow m scopes)
    (hmn : m ≤ n) : ScopesBelow n scopes := by
  cases scopes with
  | nil => trivial
  | cons scope rest => exact ⟨Nat.le_trans h.1 hmn, h.2⟩

/-- A fresh compiler has no variables. -/
theorem varsPlaced_new (src : List UInt8) (tokens : List Token) (checks : Bool) :
    VarsPlaced (CompilerState.new src tokens checks) :=
  ⟨fun i hi => absurd hi (Nat.not_lt_zero i), trivial⟩

variable {st st' : CompilerState}

/-! ## What a primitive does to the variable table -/

/-- Two entries are of one name and live in one place. -/
def SameHome (v w : Var) : Prop :=
  v.name = w.name ∧ v.reg = w.reg ∧ v.spill = w.spill ∧ v.spillSlot = w.spillSlot

/-- A primitive keeps the entries, enters a new name at the end of the table, or enters or
leaves a function. -/
inductive VarStep (st st' : CompilerState) : Prop
  | keep (vars : ∀ i, SameHome (st'.vars i) (st.vars i)) (count : st'.varCount = st.varCount)
    (scopes : st'.scopes = st.scopes)
  | push (name : List UInt8) (isMut : Bool) (reg : ℕ) (spill : Bool) (slot : ℕ)
    (vars : st'.vars = (st.pushVar name isMut reg spill slot).vars)
    (count : st'.varCount = st.varCount + 1) (scopes : st'.scopes = st.scopes)
    (unknown : registerAlias name = none ∧ st.findVar name = none)
    (home : st.varCount < 13 ∧ reg = 1 + st.varCount ∧
        (spill = true → (st.vars st.varCount).spill = true) ∨
      13 ≤ st.varCount ∧ reg = 255 ∧ spill = true ∧ slot < 32)
  | enter (vars : st'.vars = st.vars) (count : st'.varCount = st.varCount)
    (scopes : st'.scopes = (st.varCount, st.currentFn) :: st.scopes)
  | leave (count : ℕ) (fn : Option ℕ) (scopes : st.scopes = (count, fn) :: st'.scopes)
    (vars : st'.vars = st.vars) (left : st'.varCount = count)

theorem SameHome.refl (v : Var) : SameHome v v := ⟨rfl, rfl, rfl, rfl⟩

/-- The table is not touched. -/
theorem VarStep.same (hvars : st'.vars = st.vars) (hcount : st'.varCount = st.varCount)
    (hscopes : st'.scopes = st.scopes) : VarStep st st' :=
  .keep (fun i => by rw [hvars]; exact .refl _) hcount hscopes

/-- One entry changes its types or its mutability. -/
theorem VarStep.update {i : ℕ} {v : Var} (hv : SameHome v (st.vars i)) :
    VarStep st { st with vars := Function.update st.vars i v } := by
  refine .keep (fun j => ?_) rfl rfl
  by_cases hj : j = i
  · rw [hj]
    simpa using hv
  · simpa [hj] using SameHome.refl (st.vars j)

theorem varStep_declareVar {tok : Token} {isMut : Bool} {r : ℕ}
    (hd : st.declareVar tok isMut = .ok (r, st')) : VarStep st st' := by
  simp only [CompilerState.declareVar] at hd
  split at hd
  · cases hd
    exact .same rfl rfl rfl
  next halias =>
  split at hd
  · cases hd
    exact .update (.refl _)
  next hfind =>
  split at hd
  · cases hd
  split at hd
  · next hlt =>
    cases hd
    exact .push _ _ _ _ _ rfl rfl rfl ⟨halias, hfind⟩ (.inl ⟨hlt, rfl, fun h => by cases h⟩)
  next hlt =>
  split at hd
  · cases hd
  · next hslots =>
    cases hd
    exact .push _ _ _ _ _ rfl rfl rfl ⟨halias, hfind⟩
      (.inr ⟨Nat.not_lt.mp hlt, rfl, rfl, Nat.not_le.mp hslots⟩)

theorem varStep_resolveVar {tok : Token} {r : ℕ} (hd : st.resolveVar tok = .ok (r, st')) :
    VarStep st st' := by
  simp only [CompilerState.resolveVar] at hd
  split at hd
  · cases hd
  split at hd
  · cases hd
    exact .same rfl rfl rfl
  next halias =>
  split at hd
  · cases hd
    exact .same rfl rfl rfl
  split at hd
  · cases hd
    exact .same rfl rfl rfl
  next hfind =>
  split at hd
  · cases hd
  · next hlt =>
    cases hd
    exact .push _ _ _ _ _ rfl rfl rfl ⟨halias, hfind⟩ (.inl ⟨Nat.not_le.mp hlt, rfl, id⟩)

/-- What a primitive can do to the variable table. -/
theorem varStep_perform {β : Type} (o : CompilerOp β) {b : β}
    (ho : perform β o st = .ok (b, st')) : VarStep st st' := by
  cases o with
  | declareVar tok isMut => exact varStep_declareVar ho
  | resolveVar tok => exact varStep_resolveVar ho
  | setVarTypes i e f =>
    cases ho
    exact .update ⟨rfl, rfl, rfl, rfl⟩
  | enterFn i =>
    cases ho
    exact .enter rfl rfl rfl
  | leaveFn =>
    cases ho
    simp only [CompilerState.leaveFn]
    split
    · exact .same rfl rfl rfl
    · next hscopes => exact .leave _ _ hscopes rfl rfl
  | emitInst op rd rs1 rs2 =>
    simp only [perform, CompilerState.emitInst] at ho
    split at ho <;> cases ho
    exact .same rfl rfl rfl
  | patchImm16 pos imm =>
    cases ho
    refine .same ?_ ?_ ?_ <;> simp only [CompilerState.patchImm16] <;> split <;> rfl
  | allocTemp =>
    simp only [perform, CompilerState.allocTemp] at ho
    split at ho <;> cases ho
    exact .same rfl rfl rfl
  | freeTemp reg =>
    cases ho
    refine .same ?_ ?_ ?_ <;> simp only [CompilerState.freeTemp] <;> split <;> rfl
  | addConstant val =>
    simp only [perform, CompilerState.addConstant, CompilerState.pushConstant] at ho
    split at ho
    · cases ho
      exact .same rfl rfl rfl
    · split at ho <;> cases ho
      exact .same rfl rfl rfl
  | appendTableConstant val =>
    simp only [perform, CompilerState.pushConstant] at ho
    split at ho <;> cases ho
    exact .same rfl rfl rfl
  | appendStr text =>
    simp only [perform, CompilerState.appendStr] at ho
    split at ho <;> cases ho
    exact .same rfl rfl rfl
  | pushArray name len =>
    simp only [perform, CompilerState.pushArray] at ho
    split at ho <;> cases ho
    exact .same rfl rfl rfl
  | negate n =>
    simp only [perform, CompilerState.negate] at ho
    split at ho <;> cases ho
    exact .same rfl rfl rfl
  | rangeLen startVal endVal =>
    simp only [perform, CompilerState.rangeLen] at ho
    repeat' split at ho
    all_goals cases ho
    all_goals exact .same rfl rfl rfl
  | _ =>
    cases ho
    exact .same rfl rfl rfl

/-- Every step keeps the variables placed. -/
theorem VarsPlaced.step (h : VarsPlaced st) (hstep : VarStep st st') : VarsPlaced st' := by
  cases hstep with
  | keep vars count scopes =>
    refine ⟨fun i hi => ?_, ?_⟩
    · rw [(vars i).2.1]
      exact h.reg_eq i (count ▸ hi)
    · rw [count, scopes]
      exact h.scopes
  | push name isMut reg spill slot vars count scopes unknown home =>
    refine ⟨fun i hi => ?_, ?_⟩
    · rw [vars]
      simp only [CompilerState.pushVar, Function.update_apply]
      split
      · next hi' =>
        rcases home with ⟨hlt, rfl, -⟩ | ⟨hle, rfl, -, -⟩
        · rw [hi', varHome, if_pos hlt]
        · rw [hi', varHome, if_neg (Nat.not_lt.mpr hle)]
      · exact h.reg_eq i (by omega)
    · rw [count, scopes]
      exact h.scopes.mono (Nat.le_succ _)
  | enter vars count scopes =>
    refine ⟨fun i hi => ?_, ?_⟩
    · rw [vars]
      exact h.reg_eq i (count ▸ hi)
    · rw [count, scopes]
      exact ⟨Nat.le_refl _, h.scopes⟩
  | leave count fn scopes vars left =>
    have hs := h.scopes
    rw [scopes] at hs
    refine ⟨fun i hi => ?_, left ▸ hs.2⟩
    rw [vars]
    exact h.reg_eq i (Nat.lt_of_lt_of_le (left ▸ hi) hs.1)

/-- Every primitive keeps the variables placed. -/
theorem varsPlaced_perform {β : Type} (o : CompilerOp β) {b : β}
    (ho : perform β o st = .ok (b, st')) (h : VarsPlaced st) : VarsPlaced st' :=
  h.step (varStep_perform o ho)

/-- The registers of the variables and parameters in scope. -/
def scopeRegs (st : CompilerState) : List ℕ :=
  (List.range st.varCount).map (fun i => (st.vars i).reg) ++
    match st.currentFn.bind fun i => st.decls.functions[i]? with
    | some f => paramRegs.take f.params.length
    | none => []

/-- The next temporary is in no use as a variable or parameter. -/
def FreshTemp (st : CompilerState) : Prop :=
  Prog.After st.allocTemp fun r _ => r ∉ st.scopeRegs

instance decidableFreshTemp (st : CompilerState) : Decidable st.FreshTemp :=
  Prog.decidableAfter _ _

/-- The variables in registers end below the first free temporary. -/
def RoomForTemp (st : CompilerState) : Prop :=
  ∀ i ∈ st.freeSlot, min st.varCount 13 < 15 - i

theorem freeSlot_lt {i : ℕ} (h : st.freeSlot = some i) : i < 8 :=
  List.mem_range.mp (List.mem_of_find?_eq_some h)

theorem paramRegs_lt {r : ℕ} (h : r ∈ paramRegs) : r < 8 := by
  simp only [paramRegs, List.mem_cons, List.not_mem_nil, or_false] at h
  omega

/-- A register from 8 to 15 belongs to a variable exactly when enough are in scope. -/
theorem mem_scopeRegs (h : VarsPlaced st) {r : ℕ} (hr : 8 ≤ r) (hr' : r ≤ 15) :
    r ∈ st.scopeRegs ↔ r ≤ min st.varCount 13 := by
  have hparam : ∀ f : Option FnMeta, r ∉ (match f with
      | some f => paramRegs.take f.params.length
      | none => []) := by
    intro f hmem
    cases f with
    | none => exact List.not_mem_nil hmem
    | some f => exact absurd (paramRegs_lt (List.mem_of_mem_take hmem)) (Nat.not_lt.mpr hr)
  simp only [scopeRegs, List.mem_append, hparam, or_false, List.mem_map, List.mem_range]
  constructor
  · rintro ⟨i, hi, rfl⟩
    rw [h.reg_eq i hi] at hr' ⊢
    simp only [varHome] at hr' ⊢
    by_cases h13 : i < 13
    · rw [if_pos h13]
      omega
    · rw [if_neg h13] at hr'
      omega
  · intro hle
    refine ⟨r - 1, by omega, ?_⟩
    rw [h.reg_eq (r - 1) (by omega)]
    simp only [varHome]
    split <;> omega

/-- The next temporary is fresh exactly when the variables leave room for it. -/
theorem freshTemp_iff (h : VarsPlaced st) : st.FreshTemp ↔ st.RoomForTemp := by
  simp only [FreshTemp, RoomForTemp, CompilerState.allocTemp]
  cases hs : st.freeSlot with
  | none => simp [Prog.After]
  | some i =>
    have hi := freeSlot_lt hs
    simp only [Prog.After, Option.mem_def, Option.some.injEq, forall_eq']
    rw [mem_scopeRegs h (by omega) (by omega), Nat.not_le]

end CompilerState

namespace Compiler

/-- A property of the state at every call of `alloc_temp`. -/
def AtAllocTemp (P : CompilerState → Prop) : (β : Type) → CompilerOp β → CompilerState → Prop
  | _, .allocTemp, st => P st
  | _, _, _ => True

instance decidableAtAllocTemp (P : CompilerState → Prop) [DecidablePred P] (β : Type)
    (o : CompilerOp β) (st : CompilerState) : Decidable (AtAllocTemp P β o st) := by
  cases o <;> first | exact isTrue trivial | exact inferInstanceAs (Decidable (P st))

/-- The states between the statements of a source: what the compiler has made of the prefixes
it accepts. -/
inductive Accepted (checks : Bool) (src : List UInt8) : CompilerState → Prop
  | start {tokens : List Token} (h : Lexer.tokenize src checks maxTokens = .ok tokens) :
    Accepted checks src (CompilerState.new src tokens checks)
  | step {st st' : CompilerState} (fuel n : ℕ) (h : Accepted checks src st)
    (hs : (statement (recN fuel n)).run perform st = .ok ((), st')) : Accepted checks src st'

theorem varsPlaced_accepted {checks : Bool} {src : List UInt8} {st : CompilerState}
    (h : Accepted checks src st) : st.VarsPlaced := by
  induction h with
  | start h => exact CompilerState.varsPlaced_new _ _ _
  | step fuel n h hs ih =>
    exact Prog.run_invariant perform (fun o _ _ _ => CompilerState.varsPlaced_perform o) _ hs ih

/-- While a statement after an accepted prefix is compiled, every temporary handed out is apart
from the variables and parameters in scope exactly when, at every call, the variables in
registers end below the first free temporary. -/
theorem allocTemp_never_aliases_iff (checks : Bool) (src : List UInt8) (fuel n : ℕ)
    (st : CompilerState) (h : Accepted checks src st) :
    (statement (recN fuel n)).Forall perform (AtAllocTemp CompilerState.FreshTemp) st ↔
      (statement (recN fuel n)).Forall perform (AtAllocTemp CompilerState.RoomForTemp) st := by
  refine Prog.forall_congr perform (fun o _ _ _ => CompilerState.varsPlaced_perform o)
    (fun β o s hs => ?_) _ (varsPlaced_accepted h)
  cases o with
  | allocTemp => exact CompilerState.freshTemp_iff hs
  | _ => exact Iff.rfl

/-- Compile some statements. -/
def stepMany (fuel : ℕ) : ℕ → CompilerState → Except Abort CompilerState
  | 0, st => .ok st
  | k + 1, st =>
    match (statement (recN fuel fuel)).run perform st with
    | .ok (_, st') => stepMany fuel k st'
    | .error e => .error e

theorem accepted_stepMany {checks : Bool} {src : List UInt8} {fuel k : ℕ}
    {st st' : CompilerState} (h : Accepted checks src st) (hk : stepMany fuel k st = .ok st') :
    Accepted checks src st' := by
  induction k generalizing st with
  | zero =>
    cases hk
    exact h
  | succ k ih =>
    simp only [stepMany] at hk
    split at hk
    · next heq => exact ih (.step fuel fuel h heq) hk
    · cases hk

/-- The state after the first statements of a source. -/
def prefixState (checks : Bool) (fuel : ℕ) (src : List UInt8) (k : ℕ) :
    Except Abort CompilerState :=
  match Lexer.tokenize src checks maxTokens with
  | .ok tokens => stepMany fuel k (CompilerState.new src tokens checks)
  | .error e => .error e

theorem accepted_prefixState {checks : Bool} {src : List UInt8} {fuel k : ℕ}
    {st : CompilerState} (h : prefixState checks fuel src k = .ok st) :
    Accepted checks src st := by
  simp only [prefixState] at h
  split at h
  · next htok => exact accepted_stepMany (.start htok) h
  · cases h

/-- Thirteen variables, and an expression three temporaries deep. -/
def thirteenVars : List UInt8 := bytes
  ("let $a=1; let $b=1; let $c=1; let $d=1; let $e=1; let $f=1; let $g=1; let $h=1; let $i=1; " ++
    "let $j=1; let $k=1; let $l=1; let $m=1; @assert($a + $b * ($c + $d));")

/-- Whether a statement compiles with fresh temporaries only. -/
def compilesFresh (fuel : ℕ) : Except Abort CompilerState → Bool
  | .ok st => decide ((statement (recN fuel fuel)).Forall perform
      (AtAllocTemp CompilerState.FreshTemp) st)
  | .error _ => true

/-- The third temporary of an expression is register 13, which is the thirteenth variable. -/
theorem thirteenVars_not_fresh :
    ∃ st, prefixState true 40 thirteenVars 13 = .ok st ∧
      ¬ (statement (recN 40 40)).Forall perform (AtAllocTemp CompilerState.FreshTemp) st := by
  have hbad : compilesFresh 40 (prefixState true 40 thirteenVars 13) = false := by decide +kernel
  cases hst : prefixState true 40 thirteenVars 13 with
  | error e => simp [hst, compilesFresh] at hbad
  | ok st =>
    rw [hst, compilesFresh, decide_eq_false_iff_not] at hbad
    exact ⟨st, rfl, hbad⟩

theorem thirteenVars_aliases :
    ¬ ∀ (checks : Bool) (src : List UInt8) (fuel n : ℕ) (st : CompilerState),
      Accepted checks src st →
      (statement (recN fuel n)).Forall perform (AtAllocTemp CompilerState.FreshTemp) st := by
  intro hall
  obtain ⟨st, hst, hbad⟩ := thirteenVars_not_fresh
  exact hbad (hall true thirteenVars 40 40 st (accepted_prefixState hst))

/-- After thirteen declarations the variables leave no room for a third temporary. -/
theorem thirteenVars_no_room :
    ∃ st, Accepted true thirteenVars st ∧
      ¬ (statement (recN 40 40)).Forall perform (AtAllocTemp CompilerState.RoomForTemp) st := by
  obtain ⟨st, hst, hbad⟩ := thirteenVars_not_fresh
  refine ⟨st, accepted_prefixState hst, fun hroom => hbad ?_⟩
  exact (allocTemp_never_aliases_iff true thirteenVars 40 40 st
    (accepted_prefixState hst)).mpr hroom

end Compiler

end LatencyOS
