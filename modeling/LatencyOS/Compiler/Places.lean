import LatencyOS.Compiler.ExprCorrect

/-!
# Where known names live

The variable table gives the first thirteen variables a register each and later ones a spill
slot.  The table keeps this shape in every state the compiler's primitives lead to, so a known
name always lives in a register or slot of the machine.
-/

namespace LatencyOS

open CompilerState

namespace CompilerState

variable {st st' : CompilerState}

/-- Entries below the thirteenth are not spilled, all later ones are, and slots are in range. -/
structure SlotsPlaced (st : CompilerState) : Prop where
  low : ∀ i < 13, (st.vars i).spill = false
  high : ∀ i < st.varCount, 13 ≤ i → (st.vars i).spill = true
  slot : ∀ i, (st.vars i).spill = true → (st.vars i).spillSlot < 32

theorem slotsPlaced_new (src : List UInt8) (tokens : List Token) (checks : Bool) :
    SlotsPlaced (CompilerState.new src tokens checks) :=
  ⟨fun _ _ => rfl, fun i hi => absurd hi (Nat.not_lt_zero i), fun _ h => by cases h⟩

theorem SlotsPlaced.step (h : SlotsPlaced st) (hvars : st.VarsPlaced) (hstep : VarStep st st') :
    SlotsPlaced st' := by
  cases hstep with
  | keep vars count scopes =>
    refine ⟨fun i hi => ?_, fun i hi h13 => ?_, fun i hs => ?_⟩
    · rw [(vars i).2.2.1]
      exact h.low i hi
    · rw [(vars i).2.2.1]
      exact h.high i (count ▸ hi) h13
    · rw [(vars i).2.2.2]
      exact h.slot i ((vars i).2.2.1 ▸ hs)
  | push name isMut reg spill slot vars count scopes unknown home =>
    have hnew : (st'.vars st.varCount).spill = spill ∧
        (st'.vars st.varCount).spillSlot = slot := by simp [vars, pushVar]
    have hold : ∀ i, i ≠ st.varCount → st'.vars i = st.vars i := fun i hi => by
      rw [vars]
      exact Function.update_of_ne hi ..
    refine ⟨fun i hi => ?_, fun i hi h13 => ?_, fun i hs => ?_⟩
    · by_cases hc : i = st.varCount
      · rcases home with ⟨-, -, hspill⟩ | ⟨hle, -⟩
        · rw [hc, hnew.1]
          exact Bool.eq_false_iff.mpr fun hs => by
            have := hspill hs
            rw [h.low _ (hc ▸ hi)] at this
            cases this
        · omega
      · rw [hold i hc]
        exact h.low i hi
    · by_cases hc : i = st.varCount
      · rcases home with ⟨hlt, -⟩ | ⟨-, -, hspill, -⟩
        · omega
        · rw [hc, hnew.1, hspill]
      · rw [hold i hc]
        exact h.high i (by omega) h13
    · by_cases hc : i = st.varCount
      · rcases home with ⟨hlt, -, hspill⟩ | ⟨-, -, -, hslot⟩
        · rw [hc, hnew.1] at hs
          have := hspill hs
          rw [h.low _ hlt] at this
          cases this
        · rw [hc, hnew.2]
          exact hslot
      · rw [hold i hc] at hs ⊢
        exact h.slot i hs
  | enter vars count scopes =>
    refine ⟨fun i hi => ?_, fun i hi h13 => ?_, fun i hs => ?_⟩
    · rw [vars]
      exact h.low i hi
    · rw [vars]
      exact h.high i (count ▸ hi) h13
    · rw [vars] at hs ⊢
      exact h.slot i hs
  | leave count fn scopes vars left =>
    have hs := hvars.scopes
    rw [scopes] at hs
    refine ⟨fun i hi => ?_, fun i hi h13 => ?_, fun i hs => ?_⟩
    · rw [vars]
      exact h.low i hi
    · rw [vars]
      exact h.high i (Nat.lt_of_lt_of_le (left ▸ hi) hs.1) h13
    · rw [vars] at hs ⊢
      exact h.slot i hs

/-- The states the compiler's primitives lead to from a source. -/
inductive Reached (checks : Bool) (src : List UInt8) : CompilerState → Prop
  | start {tokens : List Token} (h : Lexer.tokenize src checks maxTokens = .ok tokens) :
    Reached checks src (CompilerState.new src tokens checks)
  | step {β : Type} {st st' : CompilerState} (o : CompilerOp β) {b : β}
    (h : Reached checks src st) (ho : perform β o st = .ok (b, st')) : Reached checks src st'

variable {checks : Bool} {src : List UInt8}

/-- A computation of the compiler stays among them. -/
theorem Reached.of_yields {α : Type} {p : CompilerM α} {a : α} (h : Reached checks src st)
    (hy : Compiler.Yields p st a st') : Reached checks src st' :=
  Prog.run_invariant perform (fun o _ _ _ ho hs => hs.step o ho) p hy h

theorem Reached.of_accepted (h : Compiler.Accepted checks src st) : Reached checks src st := by
  induction h with
  | start h => exact .start h
  | step fuel n h hs ih => exact ih.of_yields hs

theorem Reached.varsPlaced (h : Reached checks src st) : st.VarsPlaced := by
  induction h with
  | start h => exact varsPlaced_new _ _ _
  | step o h ho ih => exact ih.step (varStep_perform o ho)

theorem Reached.slotsPlaced (h : Reached checks src st) : st.SlotsPlaced := by
  induction h with
  | start h => exact slotsPlaced_new _ _ _
  | step o h ho ih => exact ih.step h.varsPlaced (varStep_perform o ho)

theorem Reached.fits (h : Reached checks src st) : Compiler.Fits st := by
  induction h with
  | start h => exact ⟨Nat.zero_le _, Nat.zero_le _⟩
  | step o h ho ih => exact Compiler.fits_perform o ho ih

theorem registerAlias_lt {x : List UInt8} {r : ℕ} (h : registerAlias x = some r) : r < 20 := by
  have hite : ∀ {p : Prop} [Decidable p] {n : ℕ} {o : Option ℕ}, n < 20 → (∀ r ∈ o, r < 20) →
      ∀ r ∈ (if p then some n else o), r < 20 := by
    intro p _ n o hn ho r hr
    split at hr
    · cases hr
      exact hn
    · exact ho r hr
  have hall : ∀ r ∈ registerAlias x, r < 20 := by
    unfold registerAlias
    repeat' refine hite (by decide) ?_
    exact fun r hr => by cases hr
  exact hall r h

/-- A known name lives in a register or slot of the machine. -/
theorem Reached.valid (h : Reached checks src st) {x : List UInt8} {p : Place}
    (hx : st.place x = some p) : p.Valid := by
  have hslots := h.slotsPlaced
  simp only [place] at hx
  cases hs : st.spillOf x with
  | some s =>
    rw [hs] at hx
    cases hx
    obtain ⟨i, hi, rfl⟩ := Option.map_eq_some_iff.mp hs
    obtain ⟨hi, -, -⟩ := List.find?_range_eq_some.mp hi
    exact hslots.slot i (Bool.and_eq_true_iff.mp hi).2
  | none =>
    rw [hs] at hx
    obtain ⟨r, hr, rfl⟩ := Option.map_eq_some_iff.mp hx
    simp only [regOf] at hr
    split at hr
    · next halias =>
      cases hr
      exact registerAlias_lt halias
    split at hr
    · next hparam =>
      cases hr
      simp only [paramReg, Option.bind_eq_bind, Option.bind_eq_some_iff] at hparam
      obtain ⟨_, -, _, -, i, -, hp⟩ := hparam
      have := paramRegs_lt (List.mem_of_getElem? hp)
      exact Nat.lt_trans this (by decide)
    · obtain ⟨i, hi, rfl⟩ := Option.map_eq_some_iff.mp hr
      obtain ⟨hname, hlt, -⟩ := List.find?_range_eq_some.mp hi
      rw [List.mem_range] at hlt
      have hreg := h.varsPlaced.reg_eq i hlt
      have h13 : i < 13 := by
        -- a later entry is spilled, and its slot would have been found
        by_contra hge
        have hsp := hslots.high i hlt (Nat.not_lt.mp hge)
        simp only [spillOf, Option.map_eq_none_iff, List.find?_range_eq_none] at hs
        have := hs i hlt
        rw [hname, hsp] at this
        cases this
      rw [varHome, if_pos h13] at hreg
      change (st.vars i).reg < 20
      omega

/-- The word a known name stands for. -/
def read (st : CompilerState) (vm : PX64VM) (x : List UInt8) : Option Word64 :=
  (st.place x).map (Place.read vm)

/-- The place of a name that is known. -/
def placeOf (st : CompilerState) (x : List UInt8) : Place := (st.place x).getD (.slot 0)

theorem place_eq_placeOf {x : List UInt8} (h : (st.place x).isSome) :
    st.place x = some (st.placeOf x) := by
  obtain ⟨p, hp⟩ := Option.isSome_iff_exists.mp h
  rw [placeOf, hp]
  rfl

theorem placeOf_eq_reg {x : List UInt8} {r : ℕ} :
    st.placeOf x = .reg r ↔ st.place x = some (.reg r) := by
  rw [placeOf]
  cases st.place x with
  | none => simp
  | some p => simp

/-- The names of the variables and parameters in scope. -/
def scopeNames (st : CompilerState) : List (List UInt8) :=
  (List.range st.varCount).map (fun i => (st.vars i).name) ++
    (((st.currentFn.bind fun i => st.decls.functions[i]?).map (·.params)).getD []).map (·.name)

end CompilerState

end LatencyOS
