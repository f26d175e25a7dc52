import LatencyOS.Compiler.Grammar
import LatencyOS.Vm.Exec

/-!
# What the compiler's primitives do

Rules for running the small functions of the compiler, how the state grows while an
expression is compiled, where a variable lives, and which machine holds the code between two
states of the compiler.
-/

namespace LatencyOS

/-- Where a variable lives. -/
inductive Place
  | reg (r : ℕ)
  | slot (s : ℕ)
  deriving DecidableEq

/-- The word at a place. -/
def Place.read (vm : PX64VM) : Place → Word64
  | .reg r => vm.regs r
  | .slot s => vm.spillSlots s

namespace CompilerState

/-- The spill slot of a name, as `is_spilled_var` finds it. -/
def spillOf (st : CompilerState) (x : List UInt8) : Option ℕ :=
  ((List.range st.varCount).find? fun i => (st.vars i).name == x && (st.vars i).spill).map
    fun i => (st.vars i).spillSlot

/-- The register of a name that is known, as `resolve_var` finds it. -/
def regOf (st : CompilerState) (x : List UInt8) : Option ℕ :=
  match registerAlias x with
  | some r => some r
  | none =>
    match st.paramReg x with
    | some r => some r
    | none => (st.findVar x).map fun i => (st.vars i).reg

/-- Where a name that is known lives. -/
def place (st : CompilerState) (x : List UInt8) : Option Place :=
  match st.spillOf x with
  | some s => some (.slot s)
  | none => (st.regOf x).map .reg

/-- The parameter of a name. -/
def paramOf (st : CompilerState) (x : List UInt8) : Option Param :=
  (((st.currentFn.bind fun i => st.decls.functions[i]?).map (·.params)).getD []).find? (·.name == x)

/-- The fixed-point scale of a name. -/
def scaleOf (st : CompilerState) (x : List UInt8) : Option ℕ :=
  match st.paramOf x with
  | some p => p.fixedScale
  | none => (st.findVar x).bind fun i => (st.vars i).fixedScale

/-- The unused entries of the variable table carry no scale and no spill mark. -/
def Clean (st : CompilerState) : Prop :=
  ∀ i, st.varCount ≤ i → (st.vars i).fixedScale = none ∧ (i < 13 → (st.vars i).spill = false)

/-- A name is an integer variable: a known one, or one that will be declared on its first use. -/
def IntVar (st : CompilerState) (x : List UInt8) : Prop :=
  st.scaleOf x = none ∧ ((st.place x).isSome ∨ x.length ≤ 16 ∧ st.Clean)

/-- The temporaries handed out since an earlier state. -/
def scratch (st st' : CompilerState) : List ℕ := st'.allocLog.drop st.allocLog.length

/-- A temporary that is not in use. -/
def Free (st : CompilerState) (r : ℕ) : Prop := 8 ≤ r ∧ r ≤ 15 ∧ st.tempUsed (15 - r) = false

/-- The parts of the state that the compilation of an integer expression leaves alone. -/
def frozen (st : CompilerState) : CompilerState :=
  { st with
    current := 0, code := [], vars := fun _ => .empty, varCount := 0, constPool := [],
    tempUsed := fun _ => false, info := ⟨none, none, none⟩, allocLog := [] }

theorem eq_of_frozen {α : Type} (f : CompilerState → α)
    (hf : ∀ st : CompilerState, f st.frozen = f st) {st st' : CompilerState}
    (h : st'.frozen = st.frozen) : f st' = f st := by
  rw [← hf st', h, hf st]

/-- How the state grows while an expression is compiled: code and constants are added at the
end, and variables on their first use. -/
structure Grows (st st' : CompilerState) : Prop where
  frozen : st'.frozen = st.frozen
  code_le : st.code.length ≤ st'.code.length
  code : ∀ i < st.code.length, st'.code[i]? = st.code[i]?
  consts : st.constPool <+: st'.constPool
  log : st.allocLog <+: st'.allocLog
  count_le : st.varCount ≤ st'.varCount
  vars : ∀ i, i < st.varCount ∨ st'.varCount ≤ i → st'.vars i = st.vars i
  fresh : ∀ i, st.varCount ≤ i → i < st'.varCount →
    (st'.vars i).spill = false ∧ (st'.vars i).fixedScale = none

namespace Grows

variable {a b c st st' : CompilerState}

theorem src (h : Grows st st') : st'.src = st.src :=
  eq_of_frozen CompilerState.src (fun _ => rfl) h.frozen

theorem tokens (h : Grows st st') : st'.tokens = st.tokens :=
  eq_of_frozen CompilerState.tokens (fun _ => rfl) h.frozen

theorem checks (h : Grows st st') : st'.overflowChecks = st.overflowChecks :=
  eq_of_frozen CompilerState.overflowChecks (fun _ => rfl) h.frozen

theorem currentFn (h : Grows st st') : st'.currentFn = st.currentFn :=
  eq_of_frozen CompilerState.currentFn (fun _ => rfl) h.frozen

theorem decls (h : Grows st st') : st'.decls = st.decls :=
  eq_of_frozen CompilerState.decls (fun _ => rfl) h.frozen

theorem trans (h₁ : Grows a b) (h₂ : Grows b c) : Grows a c where
  frozen := h₂.frozen.trans h₁.frozen
  code_le := Nat.le_trans h₁.code_le h₂.code_le
  code := fun i hi => (h₂.code i (Nat.lt_of_lt_of_le hi h₁.code_le)).trans (h₁.code i hi)
  consts := h₁.consts.trans h₂.consts
  log := h₁.log.trans h₂.log
  count_le := Nat.le_trans h₁.count_le h₂.count_le
  vars := by
    rintro i (hi | hi)
    · exact (h₂.vars i (.inl (Nat.lt_of_lt_of_le hi h₁.count_le))).trans (h₁.vars i (.inl hi))
    · exact (h₂.vars i (.inr hi)).trans (h₁.vars i (.inr (Nat.le_trans h₂.count_le hi)))
  fresh := by
    intro i hi hi'
    by_cases hb : i < b.varCount
    · rw [h₂.vars i (.inl hb)]
      exact h₁.fresh i hi hb
    · exact h₂.fresh i (Nat.not_lt.mp hb) hi'

/-- The variables are the same, and code, constants and temporaries are only added. -/
theorem of_append (hf : st'.frozen = st.frozen) (hvars : st'.vars = st.vars)
    (hcount : st'.varCount = st.varCount) (hcode : st.code <+: st'.code)
    (hconsts : st.constPool <+: st'.constPool) (hlog : st.allocLog <+: st'.allocLog) :
    Grows st st' where
  frozen := hf
  code_le := hcode.length_le
  code := fun i hi => by
    obtain ⟨rest, hrest⟩ := hcode
    rw [← hrest, List.getElem?_append_left hi]
  consts := hconsts
  log := hlog
  count_le := Nat.le_of_eq hcount.symm
  vars := fun i _ => by rw [hvars]
  fresh := fun i h₁ h₂ => absurd h₂ (by omega)

theorem refl (st : CompilerState) : Grows st st :=
  of_append rfl rfl rfl List.prefix_rfl List.prefix_rfl List.prefix_rfl

/-- A jump behind the old code may be patched. -/
theorem patchImm16 (h : Grows a b) {pos : ℕ} (hpos : a.code.length ≤ pos) (imm : ℕ) :
    Grows a (b.patchImm16 pos imm) := by
  simp only [CompilerState.patchImm16]
  split
  · refine { h with code_le := ?_, code := ?_ }
    · simpa using h.code_le
    · intro i hi
      rw [List.getElem?_set_ne (by omega), List.getElem?_set_ne (by omega)]
      exact h.code i hi
  · exact h

/-! ### Names are stable -/

theorem findVar_of_some (h : Grows st st') {x : List UInt8} {i : ℕ} (hx : st.findVar x = some i) :
    st'.findVar x = some i := by
  simp only [findVar, List.find?_range_eq_some, List.mem_range] at hx ⊢
  obtain ⟨hi, hlt, hfirst⟩ := hx
  refine ⟨by rwa [h.vars i (.inl hlt)], Nat.lt_of_lt_of_le hlt h.count_le, fun j hj => ?_⟩
  rw [h.vars j (.inl (by omega))]
  exact hfirst j hj

theorem paramReg (h : Grows st st') (x : List UInt8) : st'.paramReg x = st.paramReg x := by
  simp only [CompilerState.paramReg, h.decls, h.currentFn]

theorem paramOf (h : Grows st st') (x : List UInt8) : st'.paramOf x = st.paramOf x := by
  simp only [CompilerState.paramOf, h.decls, h.currentFn]

theorem text? (h : Grows st st') : st'.text? = st.text? := by
  funext tok
  simp only [CompilerState.text?, h.src]

theorem tok (h : Grows st st') : st'.tok = st.tok := by
  funext i
  simp only [CompilerState.tok, h.tokens]

theorem regOf_of_some (h : Grows st st') {x : List UInt8} {r : ℕ} (hx : st.regOf x = some r) :
    st'.regOf x = some r := by
  simp only [regOf, h.paramReg] at hx ⊢
  split at hx
  · exact hx
  split at hx
  · exact hx
  obtain ⟨i, hi, rfl⟩ := Option.map_eq_some_iff.mp hx
  have hlt : i < st.varCount := by
    simp only [findVar, List.find?_range_eq_some, List.mem_range] at hi
    exact hi.2.1
  rw [h.findVar_of_some hi, Option.map_some, h.vars i (.inl hlt)]

theorem spillOf (h : Grows st st') (x : List UInt8) : st'.spillOf x = st.spillOf x := by
  simp only [CompilerState.spillOf]
  cases hs : (List.range st.varCount).find? fun i =>
      (st.vars i).name == x && (st.vars i).spill with
  | some i =>
    obtain ⟨hi, hlt, hfirst⟩ := List.find?_range_eq_some.mp hs
    rw [List.mem_range] at hlt
    have hs' : (List.range st'.varCount).find? (fun i =>
        (st'.vars i).name == x && (st'.vars i).spill) = some i := by
      refine List.find?_range_eq_some.mpr ⟨?_, ?_, fun j hj => ?_⟩
      · rwa [h.vars i (.inl hlt)]
      · exact List.mem_range.mpr (Nat.lt_of_lt_of_le hlt h.count_le)
      · rw [h.vars j (.inl (by omega))]
        exact hfirst j hj
    rw [hs', Option.map_some, Option.map_some, h.vars i (.inl hlt)]
  | none =>
    have hs' : (List.range st'.varCount).find? (fun i =>
        (st'.vars i).name == x && (st'.vars i).spill) = none := by
      refine List.find?_range_eq_none.mpr fun i hi => ?_
      by_cases hlt : i < st.varCount
      · rw [h.vars i (.inl hlt)]
        exact List.find?_range_eq_none.mp hs i hlt
      · simp [(h.fresh i (Nat.not_lt.mp hlt) hi).1]
    rw [hs', Option.map_none, Option.map_none]

/-- A known name keeps its place. -/
theorem place_of_some (h : Grows st st') {x : List UInt8} {π : Place}
    (hx : st.place x = some π) : st'.place x = some π := by
  simp only [place, h.spillOf] at hx ⊢
  split at hx
  · exact hx
  · obtain ⟨r, hr, rfl⟩ := Option.map_eq_some_iff.mp hx
    rw [h.regOf_of_some hr, Option.map_some]

theorem clean (h : Grows st st') (hc : st.Clean) : st'.Clean := by
  intro i hi
  rw [h.vars i (.inr hi)]
  exact hc i (Nat.le_trans h.count_le hi)

theorem scaleOf_eq_none (h : Grows st st') {x : List UInt8} (hx : st.scaleOf x = none) :
    st'.scaleOf x = none := by
  simp only [scaleOf, h.paramOf] at hx ⊢
  split at hx
  · exact hx
  cases hf : st'.findVar x with
  | none => rfl
  | some i =>
    have hlt : i < st'.varCount := by
      simp only [findVar, List.find?_range_eq_some, List.mem_range] at hf
      exact hf.2.1
    by_cases hi : i < st.varCount
    · have hfi : st.findVar x = some i := by
        simp only [findVar, List.find?_range_eq_some, List.mem_range] at hf ⊢
        refine ⟨by rw [← h.vars i (.inl hi)]; exact hf.1, hi, fun j hj => ?_⟩
        rw [← h.vars j (.inl (by omega))]
        exact hf.2.2 j hj
      rw [hfi, Option.bind_some] at hx
      rw [Option.bind_some, h.vars i (.inl hi), hx]
    · rw [Option.bind_some, (h.fresh i (Nat.not_lt.mp hi) hlt).2]

/-- A known name keeps its scale, and a new one has none. -/
theorem scaleOf_eq (h : Grows st st') (x : List UInt8) : st'.scaleOf x = st.scaleOf x := by
  cases hx : st.scaleOf x with
  | none => exact h.scaleOf_eq_none hx
  | some s =>
    simp only [scaleOf, h.paramOf] at hx ⊢
    split at hx
    · exact hx
    · obtain ⟨i, hi, hscale⟩ := Option.bind_eq_some_iff.mp hx
      have hlt : i < st.varCount := by
        simp only [findVar, List.find?_range_eq_some, List.mem_range] at hi
        exact hi.2.1
      rw [h.findVar_of_some hi, Option.bind_some, h.vars i (.inl hlt), hscale]

/-- An integer variable stays one. -/
theorem intVar (h : Grows st st') {x : List UInt8} (hx : st.IntVar x) : st'.IntVar x := by
  refine ⟨h.scaleOf_eq_none hx.1, ?_⟩
  obtain hp | ⟨hlen, hclean⟩ := hx.2
  · obtain ⟨π, hπ⟩ := Option.isSome_iff_exists.mp hp
    exact .inl (by rw [h.place_of_some hπ]; rfl)
  · exact .inr ⟨hlen, h.clean hclean⟩

end Grows

/-! ## The machine that holds the code between two states -/

/-- A machine holds what was emitted between two states, at its place, and the constants. -/
structure Holds (vm : PX64VM) (st st' : CompilerState) : Prop where
  code : ∀ i, st.code.length ≤ i → i < st'.code.length → vm.code[i]? = st'.code[i]?
  consts : st'.constPool <+: vm.constPool

namespace Holds

variable {vm vm' : PX64VM} {a b c : CompilerState}

theorem left (h : Holds vm a c) (hbc : Grows b c) : Holds vm a b where
  code := fun i h₁ h₂ =>
    (h.code i h₁ (Nat.lt_of_lt_of_le h₂ hbc.code_le)).trans (hbc.code i h₂)
  consts := hbc.consts.trans h.consts

theorem right (h : Holds vm a c) (hab : a.code.length ≤ b.code.length) : Holds vm b c where
  code := fun i h₁ h₂ => h.code i (Nat.le_trans hab h₁) h₂
  consts := h.consts

theorem of_core (h : Holds vm a b) (hcore : vm'.core = vm.core) : Holds vm' a b where
  code := fun i h₁ h₂ => by
    rw [PX64VM.code_of_core hcore]
    exact h.code i h₁ h₂
  consts := by
    rw [PX64VM.constPool_of_core hcore]
    exact h.consts

/-- The instruction emitted first stands at the first position. -/
theorem instAt (h : Holds vm a b) {op : Opcode} {rd rs1 rs2 : ℕ}
    (hb : b.code = a.code ++ instBytes op rd rs1 rs2) : vm.InstAt a.code.length op rd rs1 rs2 := by
  intro i hi
  have hlen : (instBytes op rd rs1 rs2).length = 4 := rfl
  rw [h.code _ (Nat.le_add_right _ _) (by rw [hb, List.length_append, hlen]; omega), hb,
    List.getElem?_append_right (Nat.le_add_right _ _), Nat.add_sub_cancel_left]

end Holds

end CompilerState

end LatencyOS
