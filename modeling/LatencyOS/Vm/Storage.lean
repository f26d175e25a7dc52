import LatencyOS.Lib.Layout
import LatencyOS.Vm.Effects

/-!
# Arrays and struct instances in memory

`ARR_DEF` and `STRUCT_DEF` place a block at the sum of the lengths defined so far below its id,
while the compiler gives out ids in the order of the text.  The blocks stay apart in every run
that executes the definitions in the order of their ids, or executes again one whose length does
not change.
-/

namespace LatencyOS

namespace PX64VM

/-- The arrays of a machine. -/
def arrays (vm : PX64VM) : Layout := ⟨vm.arrayLens, vm.arrayBases⟩

/-- The struct instances of a machine. -/
def structs (vm : PX64VM) : Layout := ⟨vm.structFieldCounts, vm.structBases⟩

/-- Element `k` of an array. -/
def arrayElem (vm : PX64VM) (arrId k : ℕ) : Word64 := vm.arraySlots (vm.arrayBases arrId + k)

/-- Field `k` of a struct instance. -/
def structField (vm : PX64VM) (instId k : ℕ) : Word64 := vm.structSlots (vm.structBases instId + k)

/-- A definition repeats the length it had, or comes before every definition with a higher id. -/
def InOrder (lens : ℕ → ℕ) (id len : ℕ) : Prop := len = lens id ∨ ∀ j < 16, id < j → lens j = 0

/-- The definition about to be executed is in order, and an array fits the table. -/
def OrderedInstr (vm : PX64VM) (op : Opcode) (rd rs1 rs2 : ℕ) : Prop :=
  match op with
  | .arrDef => rd < 16 → InOrder vm.arrayLens rd (rs1 * 256 + rs2) ∧
      arrayBase vm.arrayLens rd + (rs1 * 256 + rs2) ≤ 1024
  | .structDef => rd < 16 → InOrder vm.structFieldCounts rd rs1
  | _ => True

/-- The next step defines in order. -/
def OrderedStep (vm : PX64VM) : Prop :=
  ∀ op rd rs1 rs2, vm.Fetches op rd rs1 rs2 → vm.OrderedInstr op rd rs1 rs2

/-- The next step neither defines nor stores to array `i`. -/
def SparesArray (vm : PX64VM) (i : ℕ) : Prop :=
  ∀ op rd rs1 rs2, vm.Fetches op rd rs1 rs2 → op = .arrDef ∨ op = .arrStore → rd ≠ i

/-- The next step neither defines nor stores to struct instance `i`. -/
def SparesStruct (vm : PX64VM) (i : ℕ) : Prop :=
  ∀ op rd rs1 rs2, vm.Fetches op rd rs1 rs2 → op = .structDef ∨ op = .structStore → rd ≠ i

/-- The elements of every array, and the fields of every struct instance, that a step does not
name are the same after it. -/
structure KeepsOthers (vm vm' : PX64VM) : Prop where
  array : ∀ i, vm.SparesArray i → vm'.arrayLens i = vm.arrayLens i ∧
    ∀ k < vm.arrayLens i, vm'.arrayElem i k = vm.arrayElem i k
  struct : ∀ i, vm.SparesStruct i → vm'.structFieldCounts i = vm.structFieldCounts i ∧
    ∀ k < vm.structFieldCounts i, vm'.structField i k = vm.structField i k

/-- What the definitions in order keep: every block starts at its offset, and no id is past the
table. -/
structure WellStored (vm : PX64VM) : Prop where
  arrays : vm.arrays.Packed
  structs : vm.structs.Packed
  arrayIds : ∀ j, 16 ≤ j → vm.arrayLens j = 0
  structIds : ∀ j, 16 ≤ j → vm.structFieldCounts j = 0

variable {vm vm' : PX64VM} {rd rs1 rs2 : ℕ}

theorem wellStored_new (p : Program) (args : List (List UInt8)) : WellStored (p.start args) where
  arrays := fun _ h => absurd h (Nat.lt_irrefl 0)
  structs := fun _ h => absurd h (Nat.lt_irrefl 0)
  arrayIds := fun _ _ => rfl
  structIds := fun _ _ => rfl

/-- Empty past the table too. -/
theorem inOrder_above {lens : ℕ → ℕ} {id len : ℕ} (h : InOrder lens id len)
    (hids : ∀ j, 16 ≤ j → lens j = 0) : len = lens id ∨ ∀ j, id < j → lens j = 0 := by
  refine h.imp_right fun habove j hj => ?_
  by_cases hlt : j < 16
  · exact habove j hlt hj
  · exact hids j (Nat.not_lt.mp hlt)

/-- A length past the table stays zero. -/
theorem update_ids {lens : ℕ → ℕ} {id : ℕ} (hids : ∀ j, 16 ≤ j → lens j = 0) (hid : id < 16)
    (len : ℕ) : ∀ j, 16 ≤ j → Function.update lens id len j = 0 := by
  intro j hj
  rw [Function.update_of_ne (by omega)]
  exact hids j hj

/-! ## One instruction -/

/-- The tables of arrays and structs are the same. -/
structure SameTables (vm vm' : PX64VM) : Prop where
  arrays : vm'.arrays = vm.arrays
  structs : vm'.structs = vm.structs
  arraySlots : vm'.arraySlots = vm.arraySlots
  structSlots : vm'.structSlots = vm.structSlots

/-- An array is the same in both states. -/
def SameArray (vm vm' : PX64VM) (i : ℕ) : Prop :=
  vm'.arrayLens i = vm.arrayLens i ∧ ∀ k < vm.arrayLens i, vm'.arrayElem i k = vm.arrayElem i k

/-- A struct instance is the same in both states. -/
def SameStruct (vm vm' : PX64VM) (i : ℕ) : Prop :=
  vm'.structFieldCounts i = vm.structFieldCounts i ∧
    ∀ k < vm.structFieldCounts i, vm'.structField i k = vm.structField i k

theorem sameArray_of_eq (hl : vm'.arrays = vm.arrays) (hs : vm'.arraySlots = vm.arraySlots)
    (i : ℕ) : SameArray vm vm' i := by
  have hlens : vm'.arrayLens = vm.arrayLens := congrArg Layout.lens hl
  have hbases : vm'.arrayBases = vm.arrayBases := congrArg Layout.bases hl
  exact ⟨by rw [hlens], fun k _ => by rw [arrayElem, arrayElem, hbases, hs]⟩

theorem sameStruct_of_eq (hl : vm'.structs = vm.structs) (hs : vm'.structSlots = vm.structSlots)
    (i : ℕ) : SameStruct vm vm' i := by
  have hlens : vm'.structFieldCounts = vm.structFieldCounts := congrArg Layout.lens hl
  have hbases : vm'.structBases = vm.structBases := congrArg Layout.bases hl
  exact ⟨by rw [hlens], fun k _ => by rw [structField, structField, hbases, hs]⟩

theorem WellStored.of_layout (h : WellStored vm) (ha : vm'.arrays = vm.arrays)
    (hs : vm'.structs = vm.structs) : WellStored vm' := by
  have hlens : vm'.arrayLens = vm.arrayLens := congrArg Layout.lens ha
  have hcounts : vm'.structFieldCounts = vm.structFieldCounts := congrArg Layout.lens hs
  refine ⟨ha ▸ h.arrays, hs ▸ h.structs, ?_, ?_⟩
  · rw [hlens]
    exact h.arrayIds
  · rw [hcounts]
    exact h.structIds

theorem sameTables_of_plain (h : Plain vm vm') : SameTables vm vm' := by
  obtain ⟨_, _, _, _, _, _, _, _, _, _, rfl⟩ := h
  exact ⟨rfl, rfl, rfl, rfl⟩

/-- Only definitions and stores touch the tables. -/
theorem sameTables_exec {host : Host} {op : Opcode}
    (hop : op ∉ [.arrDef, .arrStore, .structDef, .structStore])
    (h : vm.exec host op rd rs1 rs2 = .ok vm') : SameTables vm vm' := by
  by_cases hs : op ∈ structuralOps
  · cases op
    case call =>
      simp only [exec, execCommon] at h
      split at h <;> cases h
      exact ⟨rfl, rfl, rfl, rfl⟩
    case ret =>
      simp only [exec] at h
      split at h <;> cases h
      exact ⟨rfl, rfl, rfl, rfl⟩
    case jmp =>
      cases h
      exact ⟨rfl, rfl, rfl, rfl⟩
    case jz | jnz =>
      simp only [exec, execCommon, Except.ok.injEq] at h
      split at h <;> subst h <;> exact ⟨rfl, rfl, rfl, rfl⟩
    all_goals first
      | exact absurd (by decide) hop
      | exact absurd hs (by decide)
  · exact sameTables_of_plain (plain_exec host vm hs rd rs1 rs2 vm' h)

/-- The place `ARR_DEF` gives an array that fits the table. -/
theorem arrays_of_arrDef {host : Host} (hid : rd < 16)
    (hfit : arrayBase vm.arrayLens rd + (rs1 * 256 + rs2) ≤ 1024)
    (h : vm.exec host .arrDef rd rs1 rs2 = .ok vm') :
    vm'.arrays = vm.arrays.place rd (rs1 * 256 + rs2) ∧ vm'.structs = vm.structs ∧
      vm'.structSlots = vm.structSlots ∧
      ∀ s, ¬ vm'.arrays.Holds rd s → vm'.arraySlots s = vm.arraySlots s := by
  have hbase : arrayBase (Function.update vm.arrayLens rd (rs1 * 256 + rs2)) rd =
      arrayBase vm.arrayLens rd :=
    Layout.offset_congr fun k hk => Function.update_of_ne (Nat.ne_of_lt hk) _ _
  have hmod : arrayBase vm.arrayLens rd % 65536 = arrayBase vm.arrayLens rd :=
    Nat.mod_eq_of_lt (by omega)
  have hplace : (vm.arrays.place rd (rs1 * 256 + rs2)).bases =
      Function.update vm.arrayBases rd (arrayBase vm.arrayLens rd) := by
    rw [← hbase]
    rfl
  simp only [exec, execCommon, coreTables, hid, if_true, hbase, hmod] at h
  cases h
  refine ⟨?_, rfl, rfl, fun s hs => ?_⟩
  · exact congrArg (Layout.mk _) hplace.symm
  · refine if_neg fun hin => hs ?_
    simp only [Layout.Holds, arrays, Function.update_self]
    exact hin.2

/-- `ARR_DEF` in order keeps the arrays apart and the others as they are. -/
theorem stored_arrDef {host : Host} (hw : WellStored vm)
    (hord : vm.OrderedInstr .arrDef rd rs1 rs2) (h : vm.exec host .arrDef rd rs1 rs2 = .ok vm') :
    WellStored vm' ∧ (∀ i, rd ≠ i → SameArray vm vm' i) ∧ ∀ i, SameStruct vm vm' i := by
  by_cases hid : rd < 16
  · obtain ⟨hin, hfit⟩ := hord hid
    obtain ⟨ha, hs, hss, hslots⟩ := arrays_of_arrDef hid hfit h
    have hpacked : vm'.arrays.Packed := by
      rw [ha]
      exact hw.arrays.place (inOrder_above hin hw.arrayIds)
    have hlens : vm'.arrayLens = Function.update vm.arrayLens rd (rs1 * 256 + rs2) :=
      congrArg Layout.lens ha
    have hcounts : vm'.structFieldCounts = vm.structFieldCounts := congrArg Layout.lens hs
    refine ⟨⟨hpacked, hs ▸ hw.structs, ?_, ?_⟩, fun i hi => ?_, sameStruct_of_eq hs hss⟩
    · rw [hlens]
      exact update_ids hw.arrayIds hid _
    · rw [hcounts]
      exact hw.structIds
    · have hbase : vm'.arrayBases i = vm.arrayBases i := by
        have hb : vm'.arrays.bases i = vm.arrays.bases i := by
          rw [ha]
          exact Layout.place_bases_of_ne hi.symm
        exact hb
      have hlen : vm'.arrayLens i = vm.arrayLens i := by
        rw [hlens]
        exact Function.update_of_ne hi.symm _ _
      refine ⟨hlen, fun k hk => ?_⟩
      have hmem : vm'.arrays.Holds i (vm.arrayBases i + k) := by
        refine ⟨?_, ?_⟩
        · exact Nat.le_trans (Nat.le_of_eq hbase) (Nat.le_add_right _ _)
        · change vm.arrayBases i + k < vm'.arrayBases i + vm'.arrayLens i
          omega
      rw [arrayElem, arrayElem, hbase]
      exact hslots _ fun hrd => hpacked.apart _ _ _ hi hrd hmem
  · simp only [exec, execCommon, coreTables, hid, if_false] at h
    cases h
    exact ⟨hw, fun i _ => sameArray_of_eq rfl rfl i, fun i => sameStruct_of_eq rfl rfl i⟩

/-- `STRUCT_DEF` in order keeps the instances apart and the others as they are. -/
theorem stored_structDef {host : Host} (hw : WellStored vm)
    (hord : vm.OrderedInstr .structDef rd rs1 rs2)
    (h : vm.exec host .structDef rd rs1 rs2 = .ok vm') :
    WellStored vm' ∧ (∀ i, SameArray vm vm' i) ∧ ∀ i, rd ≠ i → SameStruct vm vm' i := by
  by_cases hid : rd < 16
  · simp only [exec, execCommon, coreTables, hid, if_true] at h
    cases h
    refine ⟨⟨hw.arrays, ?_, hw.arrayIds, update_ids hw.structIds hid _⟩,
      fun i => sameArray_of_eq rfl rfl i, fun i hi => ?_⟩
    · exact hw.structs.place (inOrder_above (hord hid) hw.structIds)
    · refine ⟨Function.update_of_ne hi.symm _ _, fun k _ => ?_⟩
      simp only [structField, Function.update_of_ne hi.symm]
  · simp only [exec, execCommon, coreTables, hid, if_false] at h
    cases h
    exact ⟨hw, fun i => sameArray_of_eq rfl rfl i, fun i _ => sameStruct_of_eq rfl rfl i⟩

/-- `ARR_STORE` changes its own array only. -/
theorem stored_arrStore {host : Host} (hw : WellStored vm)
    (h : vm.exec host .arrStore rd rs1 rs2 = .ok vm') :
    WellStored vm' ∧ (∀ i, rd ≠ i → SameArray vm vm' i) ∧ ∀ i, SameStruct vm vm' i := by
  simp only [exec, execCommon] at h
  split at h
  · cases h
  split at h
  · cases h
  next hin =>
  split at h
  · cases h
    refine ⟨⟨hw.arrays, hw.structs, hw.arrayIds, hw.structIds⟩, fun i hi => ⟨rfl, fun k hk => ?_⟩,
      fun i => sameStruct_of_eq rfl rfl i⟩
    rw [not_or, Int.not_lt, Int.not_le] at hin
    have hidx : (vm.regOr rs1 (-1#64)).toNat < vm.arrayLens rd := by
      have := BitVec.toInt_eq_toNat_of_msb (BitVec.msb_eq_false_iff_two_mul_lt.mpr (by
        have h0 := hin.1
        rw [BitVec.toInt_eq_toNat_cond] at h0
        split at h0
        · assumption
        · have := (vm.regOr rs1 (-1#64)).isLt
          omega))
      omega
    refine Function.update_of_ne (fun heq => ?_) _ _
    exact hw.arrays.apart i rd _ hi.symm ⟨Nat.le_add_right _ _, Nat.add_lt_add_left hk _⟩
      (by
        change vm.arrayBases i + k = _ at heq
        change vm.arrayBases rd ≤ vm.arrayBases i + k ∧
          vm.arrayBases i + k < vm.arrayBases rd + vm.arrayLens rd
        omega)
  · cases h

/-- `STRUCT_STORE` changes its own instance only. -/
theorem stored_structStore {host : Host} (hw : WellStored vm)
    (h : vm.exec host .structStore rd rs1 rs2 = .ok vm') :
    WellStored vm' ∧ (∀ i, SameArray vm vm' i) ∧ ∀ i, rd ≠ i → SameStruct vm vm' i := by
  simp only [exec, execCommon] at h
  split at h
  · cases h
  next hin =>
  split at h
  · cases h
    refine ⟨⟨hw.arrays, hw.structs, hw.arrayIds, hw.structIds⟩,
      fun i => sameArray_of_eq rfl rfl i, fun i hi => ⟨rfl, fun k hk => ?_⟩⟩
    rw [not_or, Nat.not_le, Nat.not_le] at hin
    refine Function.update_of_ne (fun heq => ?_) _ _
    exact hw.structs.apart i rd _ hi.symm ⟨Nat.le_add_right _ _, Nat.add_lt_add_left hk _⟩
      (by
        change vm.structBases i + k = _ at heq
        change vm.structBases rd ≤ vm.structBases i + k ∧
          vm.structBases i + k < vm.structBases rd + vm.structFieldCounts rd
        omega)
  · cases h

/-! ## Runs -/

/-- A step that defines in order keeps the blocks stored well, and every block it does not
name. -/
theorem stored_step {host : Host} (hw : WellStored vm) (hord : vm.OrderedStep)
    (h : vm.step host = .ok vm') : WellStored vm' ∧ KeepsOthers vm vm' := by
  obtain ⟨op, rd, rs1, rs2, hf, he⟩ := fetches_of_step h
  have hadv : WellStored vm.advance := ⟨hw.arrays, hw.structs, hw.arrayIds, hw.structIds⟩
  have hin : vm.advance.OrderedInstr op rd rs1 rs2 := hord op rd rs1 rs2 hf
  suffices hkeep : WellStored vm' ∧
      (∀ i, (op = .arrDef ∨ op = .arrStore → rd ≠ i) → SameArray vm.advance vm' i) ∧
      ∀ i, (op = .structDef ∨ op = .structStore → rd ≠ i) → SameStruct vm.advance vm' i by
    obtain ⟨hw', ha, hs⟩ := hkeep
    exact ⟨hw', fun i hi => ha i (hi op rd rs1 rs2 hf), fun i hi => hs i (hi op rd rs1 rs2 hf)⟩
  by_cases hop : op ∈ [.arrDef, .arrStore, .structDef, .structStore]
  · simp only [List.mem_cons, List.not_mem_nil, or_false] at hop
    rcases hop with rfl | rfl | rfl | rfl
    · obtain ⟨hw', ha, hs⟩ := stored_arrDef hadv hin he
      exact ⟨hw', fun i hi => ha i (hi (.inl rfl)), fun i _ => hs i⟩
    · obtain ⟨hw', ha, hs⟩ := stored_arrStore hadv he
      exact ⟨hw', fun i hi => ha i (hi (.inr rfl)), fun i _ => hs i⟩
    · obtain ⟨hw', ha, hs⟩ := stored_structDef hadv hin he
      exact ⟨hw', fun i _ => ha i, fun i hi => hs i (hi (.inl rfl))⟩
    · obtain ⟨hw', ha, hs⟩ := stored_structStore hadv he
      exact ⟨hw', fun i _ => ha i, fun i hi => hs i (hi (.inr rfl))⟩
  · have hsame := sameTables_exec hop he
    exact ⟨hadv.of_layout hsame.arrays hsame.structs,
      fun i _ => sameArray_of_eq hsame.arrays hsame.arraySlots i,
      fun i _ => sameStruct_of_eq hsame.structs hsame.structSlots i⟩

/-- A run whose definitions are all in order keeps the blocks stored well. -/
theorem stored_reaches {host : Host} {p : Program} {args : List (List UInt8)}
    (hord : ∀ c, Machine.Reaches (step host) (p.start args) c → c.OrderedStep)
    (h : Machine.Reaches (step host) (p.start args) vm) : WellStored vm :=
  h.invariant_reached (fun hr hs hw => (stored_step hw (hord _ hr) hs).1) (wellStored_new p args)

end PX64VM

end LatencyOS
