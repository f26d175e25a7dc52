import LatencyOS.Compiler.Registers
import LatencyOS.Compiler.Temps.Compile
import Mathlib

/-!
# Balanced temporaries

In a compilation in which no view is written in place and no function of three arguments is zipped,
every statement leaves the temporaries as it found them, nested ones included, and the arguments of
native functions are in place.  A view written in place breaks both.
-/

namespace LatencyOS

/-! ## Deciding the two constructs -/

namespace CompilerState

variable {st : CompilerState} {names : List (List UInt8)} {pos id : ℕ}

instance decidableNamesView (tok : Token) : Decidable (st.NamesView tok) :=
  inferInstanceAs (Decidable (_ ∧ ∀ name ∈ st.text? tok, Compiler.isViewIntrinsic name = false))

instance decidableNoFn (name : List UInt8) : Decidable (st.NoFn name) :=
  inferInstanceAs (Decidable (∀ f ∈ st.decls.functions, f.name ≠ name))

instance decidableCallsAt : Decidable (st.CallsAt names pos) :=
  decidable_of_iff
    ((∃ name ∈ names, st.text? (st.tokenAt pos) = some name ∧ st.NoFn name) ∧
      (st.tokenAt (pos + 1)).kind = .lParen)
    ⟨fun h => ⟨h.1, h.2⟩, fun h => ⟨h.name, h.paren⟩⟩

theorem exists_behind {P : ℕ → Prop} {n k : ℕ} :
    k ≤ n ∧ P (n - k) ↔ ∃ pos, P pos ∧ n = pos + k := by
  constructor
  · rintro ⟨hle, hP⟩
    exact ⟨n - k, hP, (Nat.sub_add_cancel hle).symm⟩
  · rintro ⟨pos, hP, rfl⟩
    rw [Nat.add_sub_cancel]
    exact ⟨Nat.le_add_left k pos, hP⟩

instance decidableStartsView : Decidable st.StartsView :=
  decidable_of_iff
    ((2 ≤ st.current ∧ st.CallsAt combinators (st.current - 2)) ∨
      (4 ≤ st.current ∧ st.CallsAt [bytes "@zip_with"] (st.current - 4) ∧
        st.NamesView (st.tokenAt (st.current - 4 + 2)) ∧
        (st.tokenAt (st.current - 4 + 3)).kind = .comma))
    (or_congr exists_behind ((exists_behind (P := fun pos => st.CallsAt [bytes "@zip_with"] pos ∧
      st.NamesView (st.tokenAt (pos + 2)) ∧ (st.tokenAt (pos + 3)).kind = .comma)).trans
        (exists_congr fun _ => by rw [and_assoc, and_assoc])))

instance decidableViewInPlace : Decidable st.ViewInPlace :=
  inferInstanceAs (Decidable (st.StartsView ∧ ¬ st.NamesView st.peek))

instance decidableZipsThree : Decidable (st.ZipsThree id) :=
  have (pos : ℕ) : Decidable (∃ name ∈ (st.text? (st.tokenAt (pos + 6))).toList, st.NoFn name ∧
      ∃ f ∈ (Compiler.combinatorBuiltin name).toList, f.id = id ∧ f.arity = 3) := inferInstance
  decidable_of_iff
    (∃ pos ∈ List.range' (st.current - 12) 13,
      (st.CallsAt [bytes "@zip_with"] pos ∧ pos + 8 ≤ st.current ∧ st.current ≤ pos + 12) ∧
        ∃ name ∈ (st.text? (st.tokenAt (pos + 6))).toList, st.NoFn name ∧
          ∃ f ∈ (Compiler.combinatorBuiltin name).toList, f.id = id ∧ f.arity = 3) (by
    constructor
    · rintro ⟨pos, -, ⟨hcall, hlow, hhigh⟩, name, hname, hfree, f, hf, hid, harity⟩
      rw [Option.mem_toList] at hname hf
      exact ⟨pos, name, f, hcall, hname, hfree, hf, hid, harity, hlow, hhigh⟩
    · rintro ⟨pos, name, f, hcall, hname, hfree, hf, hid, harity, hlow, hhigh⟩
      have hpos : pos ∈ List.range' (st.current - 12) 13 := by
        rw [List.mem_range'_1]
        omega
      exact ⟨pos, hpos, ⟨hcall, hlow, hhigh⟩, name, Option.mem_toList.mpr hname, hfree, f,
        Option.mem_toList.mpr hf, hid, harity⟩)

end CompilerState

/-- The id and the argument of a `CALL_NAT` that is emitted. -/
def CompilerOp.nativeCall? {β : Type} : CompilerOp β → Option (ℕ × ℕ)
  | .emitInst .callNat _ id arg => some (id, arg)
  | _ => none

def CompilerOp.allocates {β : Type} : CompilerOp β → Bool
  | .allocTemp => true
  | _ => false

/-- Every other primitive meets it. -/
theorem forall_mem_no_call {P : ℕ × ℕ → Prop} : ∀ call ∈ (none : Option (ℕ × ℕ)).toList, P call :=
  List.forall_mem_nil _

theorem tempStep_iff {β : Type} (o : CompilerOp β) (st : CompilerState) :
    ((o.allocates = true → ¬ st.ViewInPlace) ∧
      ∀ call ∈ o.nativeCall?.toList, ¬ st.ZipsThree call.1) ↔ TempStep β o st := by
  cases o with
  | allocTemp => exact ⟨fun h => h.1 rfl, fun h => ⟨fun _ => h, forall_mem_no_call⟩⟩
  | emitInst op rd id arg =>
    cases op
    case callNat =>
      refine ⟨fun h => h.2 (id, arg) (List.mem_singleton_self _), fun h => ⟨fun hf => absurd hf Bool.false_ne_true, ?_⟩⟩
      intro call hcall
      rw [List.mem_singleton.mp hcall]
      exact h
    all_goals
      exact iff_of_true ⟨fun hf => absurd hf Bool.false_ne_true, forall_mem_no_call⟩ trivial
  | _ => exact iff_of_true ⟨fun hf => absurd hf Bool.false_ne_true, forall_mem_no_call⟩ trivial

theorem argsInPlace_iff {β : Type} (o : CompilerOp β) (st : CompilerState) :
    (∀ call ∈ o.nativeCall?.toList, ∀ f ∈ Native.ofId? call.1, f.id = call.1 →
      2 ≤ f.arity → argRegs f.arity call.2 <:+ st.liveTemps) ↔ ArgsInPlace β o st := by
  cases o with
  | emitInst op rd id arg =>
    cases op
    case callNat =>
      constructor
      · intro h f hid
        exact h (id, arg) (List.mem_singleton_self _) f (hid ▸ Native.ofId?_id f) hid
      · intro h call hcall f _
        rw [List.mem_singleton.mp hcall]
        exact h f
    all_goals exact iff_of_true forall_mem_no_call trivial
  | _ => exact iff_of_true forall_mem_no_call trivial

instance decidableTempStep (β : Type) (o : CompilerOp β) (st : CompilerState) :
    Decidable (TempStep β o st) := decidable_of_iff _ (tempStep_iff o st)

instance decidableArgsInPlace (β : Type) (o : CompilerOp β) (st : CompilerState) :
    Decidable (ArgsInPlace β o st) := decidable_of_iff _ (argsInPlace_iff o st)

namespace Compiler

namespace Temps

variable {held : List ℕ} {st : CompilerState} {checks : Bool} {src : List UInt8}
  {tokens : List Token}

/-! ## The temporaries of a run -/

/-- A temporary may be given back twice. -/
theorem exists_held_freeTemp (h : TempsHeld held st) (reg : ℕ) :
    ∃ held', TempsHeld held' (st.freeTemp reg) := by
  by_cases hmem : 15 - reg ∈ held ∧ reg ≤ 15
  · obtain ⟨front, back, hheld⟩ := List.append_of_mem hmem.1
    rw [hheld] at h
    have hfree := h.freeTemp.1
    rw [Nat.sub_sub_self hmem.2] at hfree
    exact ⟨_, hfree⟩
  · refine ⟨held, ?_⟩
    rw [CompilerState.freeTemp]
    split
    · next hreg =>
      have hnot : 15 - reg ∉ held := fun hin => hmem ⟨hin, hreg.2⟩
      refine h.of_same ?_ rfl rfl
      have hunused : st.tempUsed (15 - reg) = false := by
        rw [h.used]
        exact decide_eq_false hnot
      rw [← hunused]
      exact Function.update_eq_self _ _
    · exact h

/-- A step of a run keeps the temporaries a set of slots. -/
theorem exists_held_perform {gapless : Prop} {β : Type} (o : CompilerOp β) {b : β}
    {st' : CompilerState} (hwell : TempWell gapless β o st)
    (hrun : perform β o st = .ok (b, st')) (hst : ∃ held, TempsHeld held st) :
    ∃ held, TempsHeld held st' := by
  obtain ⟨held, h⟩ := hst
  have hquiet : TempStep β o st → Quiet .empty (Prog.op o) → ∃ held, TempsHeld held st' := by
    intro hstep hq
    have hend := (hq.runs h hstep).2
    rw [hrun] at hend
    exact ⟨held, hend⟩
  cases o with
  | allocTemp =>
    obtain ⟨S, rfl⟩ := Pool.Stack.exists_base held
    have hnext := S.isNext 0
    rw [Pool.Stack.taken_zero] at hnext
    have hend := h.allocTemp hnext
    rw [show st.allocTemp = .ok (b, st') from hrun] at hend
    exact ⟨_, hend.2.1⟩
  | freeTemp reg =>
    cases hrun
    exact exists_held_freeTemp h reg
  | emitInst op rd rs1 rs2 =>
    have hend := ends_emitInst st op rd rs1 rs2
    rw [show st.emitInst op rd rs1 rs2 = .ok (b, st') from hrun] at hend
    exact ⟨held, hend.1.tempsHeld h⟩
  | setDecls d =>
    cases hrun
    exact ⟨held, h.lt, h.nodup, h.used, h.live, hwell h.params⟩
  | get =>
    cases hrun
    exact ⟨held, h⟩
  | patchImm16 pos imm => exact hquiet trivial (quiet_patchImm16 pos imm)
  | addConstant val => exact hquiet trivial (quiet_addConstant val)
  | declareVar tok isMut => exact hquiet trivial (quiet_declareVar tok isMut)
  | resolveVar tok => exact hquiet trivial (quiet_resolveVar tok)
  | setVarTypes idx enumType fixedScale =>
    exact hquiet trivial (quiet_setVarTypes idx enumType fixedScale)
  | negate n => exact hquiet trivial (quiet_negLiteral n)
  | rangeLen startVal endVal => exact hquiet trivial (quiet_forIterations startVal endVal)
  | _ => exact hquiet trivial inferInstance

theorem tempsHeld_new : TempsHeld [] (CompilerState.new src tokens checks) where
  lt := nofun
  nodup := List.nodup_nil
  used := fun _ => rfl
  live := rfl
  params := nofun

/-- Where a run comes to, some slots are in use. -/
theorem exists_held_of_visits {gapless : Prop} {p q : CompilerM Unit} {t : CompilerState}
    (hwell : p.Forall perform (TempWell gapless) (CompilerState.new src tokens checks))
    (hv : p.Visits perform (CompilerState.new src tokens checks) q t) : ∃ held, TempsHeld held t :=
  hv.invariant (fun o _ _ _ ho hrun => exists_held_perform o ho hrun) hwell
    ⟨[], tempsHeld_new⟩

/-- A statement leaves the temporaries as it found them, whatever is in use. -/
theorem tempUsed_statement {fuel n : ℕ} {st' : CompilerState} (h : TempsHeld held st)
    (hsteps : (statement (recN fuel n)).Forall perform TempStep st)
    (hrun : (statement (recN fuel n)).run perform st = .ok ((), st')) :
    st'.tempUsed = st.tempUsed := by
  obtain ⟨S, rfl⟩ := Pool.Stack.exists_base held
  have := calls_recN (S := S) fuel n
  rw [← Pool.Stack.taken_zero] at h
  have hend := (((uses_statement 0).runs h).sound hsteps).2
  rw [hrun] at hend
  have hafter : TempsHeld (S.taken 0) st' := hend
  funext i
  rw [hafter.used, h.used]

/-- What a compilation owes to its temporaries: arguments are in place where native functions are
called, and every statement it comes to, also inside another one, leaves in use what was in use. -/
structure Balanced (p : CompilerM Unit) (fuel : ℕ) (st : CompilerState) : Prop where
  args : p.Forall perform ArgsInPlace st
  statements : ∀ n k t t', p.Visits perform st (statement (recN fuel n) >>= k) t →
    (statement (recN fuel n)).run perform t = .ok ((), t') → t'.tempUsed = t.tempUsed

/-- A compilation is balanced if no view is written in place and no function of three arguments is
zipped. -/
theorem compile_balanced (src : List UInt8) (tokens : List Token) (checks : Bool) (fuel : ℕ)
    (hsteps : (compile (recN fuel fuel)).Forall perform TempStep
      (CompilerState.new src tokens checks)) :
    Balanced (compile (recN fuel fuel)) fuel (CompilerState.new src tokens checks) := by
  have := calls_recN (S := .empty) fuel fuel
  have hnew : TempsHeld (Pool.Stack.empty.taken 0) (CompilerState.new src tokens checks) :=
    tempsHeld_new
  have hwell := ((uses_compile.runs hnew).sound hsteps).1
  refine ⟨hwell.mono fun β o t ht => ?_, fun n k t t' hv hrun => ?_⟩
  · exact TempWell.argsInPlace ht Pool.Stack.gapless_empty
  · obtain ⟨held, hheld⟩ := exists_held_of_visits hwell hv
    exact tempUsed_statement hheld (hv.forall hsteps).left hrun

/-- Whether a source is compiled without the two constructs. -/
def tempStepped (fuel : ℕ) (src : List UInt8) : Bool :=
  match Lexer.tokenize src true maxTokens with
  | .ok tokens =>
    decide ((compile (recN fuel fuel)).Forall perform TempStep (CompilerState.new src tokens true))
  | .error _ => false

/-- Combinators over an array, as arguments of a function of two. -/
def combinedArrays : List UInt8 :=
  bytes "let $a: [i64; 2]; @print(@min(@sum($a), @zip_with($a, $a, max)));"

theorem compile_balanced_combinedArrays :
    ∃ tokens, Lexer.tokenize combinedArrays true maxTokens = .ok tokens ∧
      Balanced (compile (recN 40 40)) 40 (CompilerState.new combinedArrays tokens true) := by
  have hsteps : tempStepped 40 combinedArrays = true := by decide +kernel
  rw [tempStepped] at hsteps
  split at hsteps
  · next tokens htok =>
    exact ⟨tokens, htok, compile_balanced _ tokens true 40 (of_decide_eq_true hsteps)⟩
  · cases hsteps

/-! ## A view written in place -/

/-- The sum of a slice, as an argument of a function of two. -/
def sumOfSlice : List UInt8 := bytes "let $a: [i64; 4]; @print(@min(@sum(@slice($a, 0, 2)), 5));"

/-- Whether the arguments of a source are out of place. -/
def misplacesArgs (fuel : ℕ) (src : List UInt8) : Bool :=
  match Lexer.tokenize src true maxTokens with
  | .ok tokens => decide (¬ (compile (recN fuel fuel)).Forall perform ArgsInPlace
      (CompilerState.new src tokens true))
  | .error _ => false

/-- Whether a statement compiles and keeps a temporary. -/
def keepsTemp (fuel slot : ℕ) : Except Abort CompilerState → Bool
  | .ok st =>
    match (statement (recN fuel fuel)).run perform st with
    | .ok (_, st') => !st.tempUsed slot && st'.tempUsed slot
    | .error _ => false
  | .error _ => false

/-- The base of the slice stays in register 13, so the arguments of `@min` are in the registers 14
and 12. -/
theorem sumOfSlice_unbalanced :
    (∃ tokens, Lexer.tokenize sumOfSlice true maxTokens = .ok tokens ∧
      ¬ Balanced (compile (recN 40 40)) 40 (CompilerState.new sumOfSlice tokens true)) ∧
    ∃ st st', prefixState true 40 sumOfSlice 1 = .ok st ∧
      (statement (recN 40 40)).run perform st = .ok ((), st') ∧
      st.tempUsed 2 = false ∧ st'.tempUsed 2 = true := by
  constructor
  · have hargs : misplacesArgs 40 sumOfSlice = true := by decide +kernel
    rw [misplacesArgs] at hargs
    split at hargs
    · next tokens htok =>
      exact ⟨tokens, htok, fun hbal => of_decide_eq_true hargs hbal.args⟩
    · cases hargs
  · have hkeeps : keepsTemp 40 2 (prefixState true 40 sumOfSlice 1) = true := by decide +kernel
    cases hst : prefixState true 40 sumOfSlice 1 with
    | error e => simp [hst, keepsTemp] at hkeeps
    | ok st =>
      rw [hst, keepsTemp] at hkeeps
      split at hkeeps
      · next u st' hrun => exact ⟨st, st', rfl, hrun, by simpa using hkeeps⟩
      · cases hkeeps

end Temps

end Compiler

end LatencyOS
