import LatencyOS.Container
import LatencyOS.Lib.Outcome

/-!
# Where the host machine can leave its tables

Register operands, pool indexes and stacks are guarded by the interpreter; array
and struct slots, the further arguments of natives and vram offsets are not.
`SafeStep` says exactly when the instruction a state is about to execute stays
inside every table.  A step panics precisely when it fails, so a container can
bring the machine down precisely when its run meets an unsafe step.
-/

namespace LatencyOS

/-- How many registers below its first argument a native reads. -/
def Native.furtherArgs : Native → ℕ
  | .charAt | .fileWrite | .streq | .mathMin | .mathMax | .crc32 | .vramRead
  | .fixToFix | .fixToI64 => 1
  | .mathClamp | .vramWrite | .fixMul | .fixDiv => 2
  | _ => 0

/-- A panic stops the machine. -/
def Panics {σ α : Type} (x : Except (Stop × σ) α) : Prop := Raises (fun r => r.1 = .panic) x

section Panics

variable {σ α β : Type}

@[simp] theorem panics_ok (a : α) : ¬ Panics (.ok a : Except (Stop × σ) α) := raises_ok a

@[simp] theorem panics_error (r : Stop × σ) :
    Panics (.error r : Except (Stop × σ) α) ↔ r.1 = .panic := raises_error r

@[simp] theorem panics_ite (c : Prop) [Decidable c] (x y : Except (Stop × σ) α) :
    Panics (if c then x else y) ↔ (c ∧ Panics x) ∨ (¬ c ∧ Panics y) := raises_ite c x y

@[simp] theorem panics_bind (x : Except (Stop × σ) α) (f : α → Except (Stop × σ) β) :
    Panics (x >>= f) ↔ Panics x ∨ ∃ a, x = .ok a ∧ Panics (f a) := raises_bind x f

end Panics

namespace PX64VM

/-- The element an array instruction addresses lies in the slot table, if the
instruction gets past the interpreter's own length check. -/
def SafeElement (lim : TableLimits) (vm : PX64VM) (arrId : ℕ) (idx : Word64) : Prop :=
  arrId < lim.ids → 0 ≤ idx.toInt → idx.toInt < vm.arrayLens arrId →
    vm.arrayBases arrId + idx.toNat < lim.slots

/-- The field a struct instruction addresses lies in the slot table. -/
def SafeField (lim : TableLimits) (vm : PX64VM) (structId off : ℕ) : Prop :=
  structId < lim.ids → off < vm.structFieldCounts structId →
    vm.structBases structId + off < lim.slots

/-- An instruction both interpreters share stays inside the tables. -/
def SafeTables (lim : TableLimits) (vm : PX64VM) (op : Opcode) (rd rs1 rs2 : ℕ) : Prop :=
  match op with
  | .arrLoad => rd < px64NumRegisters → SafeElement lim vm rs1 (vm.regOr rs2 (-1#64))
  | .arrStore => SafeElement lim vm rd (vm.regOr rs1 (-1#64))
  | .structLoad => SafeField lim vm rs1 rs2
  | .structStore => SafeField lim vm rd rs1
  | _ => True

/-- The registers and vram bytes a native reads exist. -/
def SafeNative (vm : PX64VM) (f : Native) (argReg : ℕ) : Prop :=
  (0 < f.furtherArgs → argReg ≤ px64NumRegisters) ∧
    (f = .vramRead ∨ f = .vramWrite → 0 < argReg → (vm.regs (argReg - 1)).toNat + 8 < 2 ^ 64)

/-- The instruction stays inside every table. -/
def SafeInstr (vm : PX64VM) (op : Opcode) (rd rs1 rs2 : ℕ) : Prop :=
  match op with
  | .callNat => ∀ f, Native.ofId? rs1 = some f → vm.SafeNative f rs2
  | op => SafeTables coreTables vm op rd rs1 rs2

/-- The instruction about to be executed is `op rd rs1 rs2`. -/
def Fetches (vm : PX64VM) (op : Opcode) (rd rs1 rs2 : ℕ) : Prop :=
  vm.ip + 4 ≤ vm.code.length ∧ vm.steps < vm.maxSteps ∧
    Opcode.ofCode? (byteAt vm.code vm.ip) = some op ∧ rd = byteAt vm.code (vm.ip + 1) ∧
    rs1 = byteAt vm.code (vm.ip + 2) ∧ rs2 = byteAt vm.code (vm.ip + 3)

/-- The instruction about to be executed, if there is one. -/
def instr? (vm : PX64VM) : Option (Opcode × ℕ × ℕ × ℕ) :=
  if vm.ip + 4 ≤ vm.code.length ∧ vm.steps < vm.maxSteps then
    (Opcode.ofCode? (byteAt vm.code vm.ip)).map fun op =>
      (op, byteAt vm.code (vm.ip + 1), byteAt vm.code (vm.ip + 2), byteAt vm.code (vm.ip + 3))
  else none

theorem fetches_iff {vm : PX64VM} {op : Opcode} {rd rs1 rs2 : ℕ} :
    vm.Fetches op rd rs1 rs2 ↔ vm.instr? = some (op, rd, rs1, rs2) := by
  unfold Fetches instr?
  by_cases h : vm.ip + 4 ≤ vm.code.length ∧ vm.steps < vm.maxSteps
  · rw [if_pos h, Option.map_eq_some_iff]
    constructor
    · rintro ⟨_, _, hop, rfl, rfl, rfl⟩
      exact ⟨op, hop, rfl⟩
    · rintro ⟨_, hop, heq⟩
      cases heq
      exact ⟨h.1, h.2, hop, rfl, rfl, rfl⟩
  · rw [if_neg h]
    constructor
    · rintro ⟨hip, hsteps, _⟩
      exact absurd ⟨hip, hsteps⟩ h
    · intro hnone
      cases hnone

instance decidableFetched (vm : PX64VM) (P : Opcode → ℕ → ℕ → ℕ → Prop)
    [∀ op rd rs1 rs2, Decidable (P op rd rs1 rs2)] :
    Decidable (∀ op rd rs1 rs2, vm.Fetches op rd rs1 rs2 → P op rd rs1 rs2) :=
  decidable_of_iff (∀ i ∈ vm.instr?, P i.1 i.2.1 i.2.2.1 i.2.2.2) (by
    constructor
    · intro h op rd rs1 rs2 hf
      exact h _ (fetches_iff.mp hf)
    · rintro h ⟨op, rd, rs1, rs2⟩ hi
      exact h op rd rs1 rs2 (fetches_iff.mpr hi))

/-- The next step stays inside every table. -/
def SafeStep (vm : PX64VM) : Prop :=
  ∀ op rd rs1 rs2, vm.Fetches op rd rs1 rs2 → vm.SafeInstr op rd rs1 rs2

@[simp] theorem panics_fail {α : Type} (vm : PX64VM) (c m : String) :
    ¬ Panics (vm.fail c m : Except (Stop × PX64VM) α) := by
  simp [Panics, fail]

@[simp] theorem panics_panicked {α : Type} (vm : PX64VM) :
    Panics (vm.panicked : Except (Stop × PX64VM) α) := by
  simp [Panics, panicked]

/-- Reading a further argument panics only past the register file. -/
@[simp] theorem panics_argBelow (vm : PX64VM) (argReg k : ℕ) (d : Word64) :
    Panics (vm.argBelow argReg k d) ↔ px64NumRegisters + k ≤ argReg := by
  unfold argBelow
  simp only [panics_ite, panics_ok, panics_panicked, and_true, and_false, or_false, false_or]
  omega

/-- What a further argument is. -/
@[simp] theorem exists_argBelow (vm : PX64VM) (argReg k : ℕ) (d : Word64) (P : Word64 → Prop) :
    (∃ v, vm.argBelow argReg k d = .ok v ∧ P v) ↔
      argReg < px64NumRegisters + k ∧ P (if k ≤ argReg then vm.regs (argReg - k) else d) := by
  unfold argBelow panicked
  by_cases hk : k ≤ argReg
  · by_cases hr : argReg - k < px64NumRegisters
    · have h : argReg < px64NumRegisters + k := by omega
      simp [hk, hr, h]
    · have h : ¬ argReg < px64NumRegisters + k := by omega
      simp [hk, hr, h]
  · have h : argReg < px64NumRegisters + k := by omega
    simp [hk, h]

@[simp] theorem exists_argBelow_eq_ok (vm : PX64VM) (argReg k : ℕ) (d : Word64) :
    (∃ v, vm.argBelow argReg k d = .ok v) ↔ argReg < px64NumRegisters + k := by
  have h := exists_argBelow vm argReg k d fun _ => True
  simpa only [and_true] using h

theorem vramLoad_eq_none {size offset : ℕ} {data : ℕ → UInt8} :
    vramLoad size data offset = none ↔ 2 ^ 64 ≤ offset + 8 := by
  unfold vramLoad
  split
  · simp_all
  · split
    · simp_all
    · split <;> simp_all

@[simp] theorem panics_vramRead (vm : PX64VM) (slot offset : ℕ) :
    Panics (vm.vramRead slot offset) ↔ 2 ^ 64 ≤ offset + 8 := by
  rw [← @vramLoad_eq_none 4096 offset (vm.vram slot), vramRead]
  split <;> simp_all

@[simp] theorem panics_vramWrite (vm : PX64VM) (slot offset : ℕ) (val : Word64) :
    Panics (vm.vramWrite slot offset val) ↔ 2 ^ 64 ≤ offset + 8 := by
  unfold vramWrite
  simp only [panics_ite, panics_ok, panics_panicked, and_true, and_false, or_false]

/-- A shared native panics exactly when a further argument is past the registers. -/
theorem panics_callNativeCommon (vm : PX64VM) {f : Native} (argReg : ℕ) (argVal : Word64)
    (hf : f ∈ commonNatives) :
    Panics (vm.callNativeCommon f argReg argVal) ↔
      0 < f.furtherArgs ∧ px64NumRegisters < argReg := by
  simp only [commonNatives, List.mem_cons, List.not_mem_nil, or_false] at hf
  rcases hf with rfl | rfl | rfl | rfl | rfl | rfl | rfl | rfl | rfl | rfl | rfl | rfl | rfl | rfl |
    rfl | rfl | rfl <;>
    simp [callNativeCommon, Native.furtherArgs]
  all_goals omega

/-- A native panics exactly when it is not safe. -/
theorem panics_callNative (host : Host) (vm : PX64VM) (f : Native) (argReg : ℕ)
    (argVal : Word64) :
    Panics (vm.callNative host f argReg argVal) ↔ ¬ vm.SafeNative f argReg := by
  by_cases hf : f ∈ commonNatives
  · have hv : ¬ (f = .vramRead ∨ f = .vramWrite) := by
      rintro (rfl | rfl) <;> simp [commonNatives] at hf
    rw [callNative_common host vm hf]
    simp [panics_callNativeCommon vm argReg argVal hf, SafeNative, hv]
  · cases f <;> first
      | exact absurd (by decide) hf
      | simp [callNative, SafeNative, Native.furtherArgs, px64NumRegisters]
    -- what is left are the natives with further arguments; only vram looks at a value
    case vramRead | vramWrite =>
      rcases Nat.eq_zero_or_pos argReg with h | h
      · simp [h]
      · rw [if_pos (show 1 ≤ argReg from h)]
        omega
    all_goals omega

/-- A shared instruction panics exactly when it leaves the tables. -/
theorem panics_execCommon (lim : TableLimits) (str : Word64 → Option (List UInt8)) (vm : PX64VM)
    (op : Opcode) (rd rs1 rs2 : ℕ) :
    Panics (vm.execCommon lim str op rd rs1 rs2) ↔ ¬ SafeTables lim vm op rd rs1 rs2 := by
  cases op <;> simp only [execCommon, SafeTables, panics_ite, panics_ok, panics_fail,
    panics_panicked, and_false, or_false, not_true_eq_false, and_true, false_or]
  case ldc => split <;> simp
  case arrLoad | arrStore =>
    simp only [SafeElement]
    grind
  case structLoad | structStore =>
    simp only [SafeField]
    grind

/-- An instruction panics exactly when it is not safe. -/
theorem panics_exec (host : Host) (vm : PX64VM) (op : Opcode) (rd rs1 rs2 : ℕ) :
    Panics (vm.exec host op rd rs1 rs2) ↔ ¬ vm.SafeInstr op rd rs1 rs2 := by
  cases op
  case callNat =>
    simp only [exec, SafeInstr]
    cases hf : Native.ofId? rs1 with
    | none => simp
    | some f =>
      have key := panics_callNative host vm f rs2 (vm.regOr rs2 0#64)
      simp only [Option.some.injEq, forall_eq', ← key]
      split <;> simp_all [Panics]
  case halt | ret | withinStart | drop => simp [exec, SafeInstr, SafeTables]
  case tblLoad =>
    simp only [exec, SafeInstr, SafeTables, panics_ite, panics_fail, and_false, false_or]
    split <;> simp
  all_goals
    rw [exec_common host vm (by decide)]
    exact panics_execCommon ..

/-- A state fetches at most one instruction. -/
theorem Fetches.safeStep_iff {vm : PX64VM} {op : Opcode} {rd rs1 rs2 : ℕ}
    (h : vm.Fetches op rd rs1 rs2) : vm.SafeStep ↔ vm.SafeInstr op rd rs1 rs2 := by
  refine ⟨fun hs => hs _ _ _ _ h, fun hs op' rd' rs1' rs2' h' => ?_⟩
  obtain ⟨_, _, hop, rfl, rfl, rfl⟩ := h
  obtain ⟨_, _, hop', rfl, rfl, rfl⟩ := h'
  cases hop.symm.trans hop'
  exact hs

/-- The step of a state that fetches an instruction executes it. -/
theorem Fetches.step_eq {vm : PX64VM} {op : Opcode} {rd rs1 rs2 : ℕ}
    (h : vm.Fetches op rd rs1 rs2) (host : Host) :
    vm.step host = vm.advance.exec host op rd rs1 rs2 := by
  obtain ⟨hip, hlim, hop, rfl, rfl, rfl⟩ := h
  rw [step, if_pos hip, if_neg (Nat.not_le.mpr hlim)]
  simp only [hop]

/-- A state that fetches nothing stops without a panic. -/
theorem step_of_not_fetches {vm : PX64VM} (hf : ∀ op rd rs1 rs2, ¬ vm.Fetches op rd rs1 rs2)
    (host : Host) : ∃ r, vm.step host = .error r ∧ r.1 ≠ .panic := by
  unfold step
  split
  · next hip =>
    split
    · exact ⟨_, rfl, by simp⟩
    · next hlim =>
      have hop : Opcode.ofCode? (byteAt vm.code vm.ip) = none :=
        Option.eq_none_iff_forall_ne_some.mpr fun op hop =>
          hf op _ _ _ ⟨hip, Nat.not_le.mp hlim, hop, rfl, rfl, rfl⟩
      simp only [hop]
      exact ⟨_, rfl, by simp⟩
  · exact ⟨_, rfl, by simp⟩

/-- A step panics exactly when it is not safe. -/
theorem panics_step (host : Host) (vm : PX64VM) : Panics (vm.step host) ↔ ¬ vm.SafeStep := by
  by_cases hf : ∃ op rd rs1 rs2, vm.Fetches op rd rs1 rs2
  · obtain ⟨op, rd, rs1, rs2, h⟩ := hf
    rw [h.safeStep_iff, h.step_eq]
    exact panics_exec ..
  · simp only [not_exists] at hf
    have hsafe : vm.SafeStep := fun op rd rs1 rs2 h => absurd h (hf op rd rs1 rs2)
    obtain ⟨r, hr, hne⟩ := step_of_not_fetches hf host
    simp only [hsafe, not_true_eq_false, iff_false, hr]
    simpa using hne

/-! ## The step limit -/

/-- What no instruction changes. -/
structure SameProgram (vm vm' : PX64VM) : Prop where
  code : vm'.code = vm.code
  strPool : vm'.strPool = vm.strPool
  constPool : vm'.constPool = vm.constPool
  args : vm'.args = vm.args
  maxSteps : vm'.maxSteps = vm.maxSteps
  replayConfig : vm'.replayConfig = vm.replayConfig

theorem SameProgram.refl (vm : PX64VM) : SameProgram vm vm := ⟨rfl, rfl, rfl, rfl, rfl, rfl⟩

theorem SameProgram.trans {a b c : PX64VM} (h₁ : SameProgram a b) (h₂ : SameProgram b c) :
    SameProgram a c :=
  ⟨h₂.code.trans h₁.code, h₂.strPool.trans h₁.strPool, h₂.constPool.trans h₁.constPool,
    h₂.args.trans h₁.args, h₂.maxSteps.trans h₁.maxSteps, h₂.replayConfig.trans h₁.replayConfig⟩

/-- The effect of every instruction but the keyboard native on the program and the
step count: none. -/
structure Quiet (vm vm' : PX64VM) : Prop extends SameProgram vm vm' where
  steps : vm'.steps = vm.steps

theorem Quiet.refl (vm : PX64VM) : Quiet vm vm := ⟨.refl vm, rfl⟩

theorem Quiet.trans {a b c : PX64VM} (h₁ : Quiet a b) (h₂ : Quiet b c) : Quiet a c :=
  ⟨h₁.toSameProgram.trans h₂.toSameProgram, h₂.steps.trans h₁.steps⟩

theorem quiet_setReg (vm : PX64VM) (rd : ℕ) (v : Word64) : Quiet vm (vm.setReg rd v) := by
  unfold setReg
  split <;> exact ⟨⟨rfl, rfl, rfl, rfl, rfl, rfl⟩, rfl⟩

theorem quiet_alu (vm : PX64VM) (rd rs1 rs2 : ℕ) (f : Word64 → Word64 → Word64) :
    Quiet vm (vm.alu rd rs1 rs2 f) := by
  unfold alu
  split <;> exact ⟨⟨rfl, rfl, rfl, rfl, rfl, rfl⟩, rfl⟩

theorem quiet_getTsc (host : Host) (vm : PX64VM) : Quiet vm (vm.getTsc host).2 := by
  unfold getTsc
  split
  · split <;> exact ⟨⟨rfl, rfl, rfl, rfl, rfl, rfl⟩, rfl⟩
  · exact ⟨⟨rfl, rfl, rfl, rfl, rfl, rfl⟩, rfl⟩

theorem quiet_getUptimeNs (host : Host) (vm : PX64VM) : Quiet vm (vm.getUptimeNs host).2 := by
  unfold getUptimeNs
  split
  · split <;> exact ⟨⟨rfl, rfl, rfl, rfl, rfl, rfl⟩, rfl⟩
  · exact ⟨⟨rfl, rfl, rfl, rfl, rfl, rfl⟩, rfl⟩

theorem quiet_vramWrite (vm : PX64VM) (slot offset : ℕ) (val : Word64) :
    Returns (Quiet vm) (vm.vramWrite slot offset val) := by
  unfold vramWrite
  refine .ite ?_ (.ite ?_ ?_)
  · simp [panicked]
  · exact (returns_ok _).mpr ⟨⟨rfl, rfl, rfl, rfl, rfl, rfl⟩, rfl⟩
  · exact (returns_ok _).mpr (.refl vm)

/-- A native other than the keyboard leaves the step count alone. -/
theorem quiet_callNative (host : Host) (vm : PX64VM) {f : Native} (hf : f ≠ .termReadKey)
    (argReg : ℕ) (argVal : Word64) :
    Returns (fun r => Quiet vm r.2) (vm.callNative host f argReg argVal) := by
  by_cases hc : f ∈ commonNatives
  · rw [callNative_common host vm hc, returns_bind]
    exact fun _ _ => (returns_ok _).mpr (.refl vm)
  · cases f <;> first
      | exact absurd (by decide) hc
      | simp only [callNative, returns_ok, returns_bind]
    case termReadKey => exact absurd rfl hf
    case sysTsc => exact quiet_getTsc host vm
    case uptimeNs => exact quiet_getUptimeNs host vm
    case vramWrite => exact fun _ _ _ _ => quiet_vramWrite _ _ _ _
    all_goals first
      | exact ⟨⟨rfl, rfl, rfl, rfl, rfl, rfl⟩, rfl⟩
      | exact fun _ _ => ⟨⟨rfl, rfl, rfl, rfl, rfl, rfl⟩, rfl⟩
      | exact fun _ _ _ _ => ⟨⟨rfl, rfl, rfl, rfl, rfl, rfl⟩, rfl⟩

/-- A shared instruction leaves the step count alone. -/
theorem quiet_execCommon (lim : TableLimits) (str : Word64 → Option (List UInt8)) (vm : PX64VM)
    (op : Opcode) (rd rs1 rs2 : ℕ) :
    Returns (Quiet vm) (vm.execCommon lim str op rd rs1 rs2) := by
  cases op <;> simp only [execCommon]
  all_goals repeat' split
  all_goals first
    | exact returns_error _
    | exact (returns_ok _).mpr (quiet_setReg ..)
    | exact (returns_ok _).mpr (quiet_alu ..)
    | exact (returns_ok _).mpr ⟨⟨rfl, rfl, rfl, rfl, rfl, rfl⟩, rfl⟩

/-- An instruction other than the keyboard native leaves the step count alone. -/
theorem quiet_exec (host : Host) (vm : PX64VM) (op : Opcode) (rd rs1 rs2 : ℕ)
    (hk : ¬ (op = .callNat ∧ Native.ofId? rs1 = some .termReadKey)) :
    Returns (Quiet vm) (vm.exec host op rd rs1 rs2) := by
  have hup := quiet_getUptimeNs host vm
  by_cases hc : op ∈ ownOps
  · cases op <;> first
      | exact absurd hc (by decide)
      | simp only [exec]
    case callNat =>
      split
      · exact (returns_ok _).mpr (quiet_setReg ..)
      · next f hf =>
        have hne : f ≠ .termReadKey := fun h => hk ⟨rfl, h ▸ hf⟩
        have key := quiet_callNative host vm hne rs2 (vm.regOr rs2 0#64)
        split
        · next ret vm' h => exact (returns_ok _).mpr ((key _ h).trans (quiet_setReg ..))
        · exact returns_error _
    case withinStart =>
      refine .ite ((returns_ok _).mpr (hup.trans ?_)) ((returns_ok _).mpr hup)
      exact ⟨⟨rfl, rfl, rfl, rfl, rfl, rfl⟩, rfl⟩
    case drop =>
      refine .ite (.ite ((returns_ok _).mpr (hup.trans ?_)) ((returns_ok _).mpr hup))
        ((returns_ok _).mpr (.refl vm))
      exact ⟨⟨rfl, rfl, rfl, rfl, rfl, rfl⟩, rfl⟩
    case halt => exact returns_error _
    case ret =>
      exact .ite (returns_error _) ((returns_ok _).mpr ⟨⟨rfl, rfl, rfl, rfl, rfl, rfl⟩, rfl⟩)
    case tblLoad =>
      refine .ite (returns_error _) (.ite (returns_error _) ?_)
      split
      · exact returns_error _
      · exact (returns_ok _).mpr (quiet_setReg ..)
  · rw [exec_common host vm hc]
    exact quiet_execCommon _ _ _ _ _ _ _

/-- No instruction changes the program. -/
theorem sameProgram_exec (host : Host) (vm : PX64VM) (op : Opcode) (rd rs1 rs2 : ℕ) :
    Returns (SameProgram vm) (vm.exec host op rd rs1 rs2) := by
  by_cases hk : op = .callNat ∧ Native.ofId? rs1 = some .termReadKey
  · obtain ⟨rfl, hid⟩ := hk
    simp only [exec, hid, callNative, returns_ok]
    have hreset : SameProgram vm { vm with steps := 0, asked := vm.asked + 1 } :=
      ⟨rfl, rfl, rfl, rfl, rfl, rfl⟩
    exact hreset.trans (quiet_setReg ..).toSameProgram
  · exact (quiet_exec host vm op rd rs1 rs2 hk).mono fun _ h => h.toSameProgram

/-- No step changes the program. -/
theorem sameProgram_step {host : Host} {vm vm' : PX64VM} (h : vm.step host = .ok vm') :
    SameProgram vm vm' := by
  by_cases hf : ∃ op rd rs1 rs2, vm.Fetches op rd rs1 rs2
  · obtain ⟨op, rd, rs1, rs2, hf⟩ := hf
    rw [hf.step_eq] at h
    have hadv : SameProgram vm vm.advance := ⟨rfl, rfl, rfl, rfl, rfl, rfl⟩
    exact hadv.trans (sameProgram_exec host vm.advance op rd rs1 rs2 vm' h)
  · simp only [not_exists] at hf
    obtain ⟨r, hr, _⟩ := step_of_not_fetches hf host
    rw [hr] at h
    cases h

/-- No run changes the program. -/
theorem sameProgram_reaches {host : Host} {vm vm' : PX64VM}
    (h : Machine.Reaches (step host) vm vm') : SameProgram vm vm' :=
  h.invariant (fun hs hI => hI.trans (sameProgram_step hs)) (.refl vm)

/-- The instruction about to be executed reads the keyboard, which resets the step
count. -/
def ReadsKey (vm : PX64VM) : Prop :=
  ∃ rd rs1 rs2, vm.Fetches .callNat rd rs1 rs2 ∧ Native.ofId? rs1 = some .termReadKey

/-- A step that does not read the keyboard counts, and is within the limit. -/
theorem step_counts {host : Host} {vm vm' : PX64VM} (h : vm.step host = .ok vm')
    (hk : ¬ vm.ReadsKey) :
    SameProgram vm vm' ∧ vm'.steps = vm.steps + 1 ∧ vm.steps < vm.maxSteps := by
  by_cases hf : ∃ op rd rs1 rs2, vm.Fetches op rd rs1 rs2
  · obtain ⟨op, rd, rs1, rs2, hf⟩ := hf
    have hne : ¬ (op = .callNat ∧ Native.ofId? rs1 = some .termReadKey) := by
      rintro ⟨rfl, hid⟩
      exact hk ⟨rd, rs1, rs2, hf, hid⟩
    have hquiet := quiet_exec host _ op rd rs1 rs2 hne vm' (hf.step_eq host ▸ h)
    exact ⟨sameProgram_step h, hquiet.steps, hf.2.1⟩
  · simp only [not_exists] at hf
    obtain ⟨r, hr, _⟩ := step_of_not_fetches hf host
    rw [hr] at h
    cases h

/-- A run that never reads the keyboard takes at most the limit's number of steps. -/
theorem run_stops (host : Host) {vm : PX64VM}
    (hk : ∀ vm', Machine.Reaches (step host) vm vm' → ¬ vm'.ReadsKey) {n : ℕ}
    (hle : vm.steps ≤ vm.maxSteps) (hn : vm.maxSteps < vm.steps + n) :
    ∃ r, runWithOutput host n vm = some r := by
  induction n generalizing vm with
  | zero => omega
  | succ n ih =>
    cases hs : step host vm with
    | error r => exact ⟨r, by rw [runWithOutput, Machine.run, Machine.iter_succ_of_error _ hs]⟩
    | ok vm' =>
      obtain ⟨hsame, hsteps, hlt⟩ := step_counts hs (hk vm (.refl vm))
      obtain ⟨r, hr⟩ := ih (fun u hu => hk u ((Machine.Reaches.single hs).trans hu))
        (by rw [hsame.maxSteps, hsteps]; omega) (by rw [hsame.maxSteps, hsteps]; omega)
      exact ⟨r, by rw [runWithOutput, Machine.run, Machine.iter_succ_of_ok _ hs]; exact hr⟩

/-- A run panics exactly when it reaches an unsafe state. -/
theorem run_never_panics_iff (host : Host) (vm : PX64VM) :
    (∀ n r, runWithOutput host n vm = some r → r.1 ≠ .panic) ↔
      ∀ vm', Machine.Reaches (step host) vm vm' → vm'.SafeStep := by
  rw [show (∀ n r, runWithOutput host n vm = some r → r.1 ≠ .panic) ↔ _ from
    Machine.run_forall_iff (step host)]
  refine forall_congr' fun vm' => imp_congr_right fun _ => ?_
  rw [← not_iff_not, ← panics_step host vm']
  simp [Panics, Raises]

end PX64VM

/-! ## Whole containers -/

theorem runBinaryWithOutput_eq_some {host : Host} {n : ℕ} {bin : List UInt8}
    {args : List (List UInt8)} {p : Program} (hload : loadBinary bin = .ok p)
    {r : Stop × List UInt8} :
    runBinaryWithOutput host n bin args = some r ↔
      ∃ vm, PX64VM.runWithOutput host n (p.start args) = some (r.1, vm) ∧ vm.output = r.2 := by
  obtain ⟨stop, out⟩ := r
  simp only [runBinaryWithOutput, hload, Option.map_eq_some_iff, Prod.exists, Prod.mk.injEq]
  constructor
  · rintro ⟨a, vm, h, rfl, rfl⟩
    exact ⟨vm, h, rfl⟩
  · rintro ⟨vm, h, rfl⟩
    exact ⟨stop, vm, h, rfl, rfl⟩

/-- **When a container cannot panic the host machine**: exactly when every state its
run reaches is safe; and the run ends with a result or an error unless it keeps
reading the keyboard. -/
theorem runBinary_never_panics_iff (host : Host) (bin : List UInt8) (args : List (List UInt8)) :
    ((∀ n r, runBinaryWithOutput host n bin args = some r → r.1 ≠ .panic) ↔
      ∀ vm₀ vm, startsAs bin args vm₀ → Machine.Reaches (PX64VM.step host) vm₀ vm →
        vm.SafeStep) ∧
    ((∀ vm₀ vm, startsAs bin args vm₀ → Machine.Reaches (PX64VM.step host) vm₀ vm →
        ¬ vm.ReadsKey) →
      ∃ r, runBinaryWithOutput host (maxVmSteps + 1) bin args = some r) := by
  cases hload : loadBinary bin with
  | error e => simp [runBinaryWithOutput, hload, startsAs]
  | ok p =>
    have hstart : ∀ vm₀, startsAs bin args vm₀ ↔ vm₀ = p.start args := by
      simp [startsAs, hload]
    refine ⟨⟨fun h vm₀ vm hvm₀ => ?_, fun h n r hr => ?_⟩, fun hk => ?_⟩
    · rw [hstart] at hvm₀
      subst hvm₀
      refine (PX64VM.run_never_panics_iff host _).mp (fun n r hr => ?_) vm
      exact h n (r.1, r.2.output) ((runBinaryWithOutput_eq_some hload).mpr ⟨r.2, hr, rfl⟩)
    · obtain ⟨vm, hvm, _⟩ := (runBinaryWithOutput_eq_some hload).mp hr
      exact (PX64VM.run_never_panics_iff host _).mpr
        (fun vm hvm => h _ vm ((hstart _).mpr rfl) hvm) n _ hvm
    · have hlimit : (p.start args).maxSteps < (p.start args).steps + (maxVmSteps + 1) := by
        change maxVmSteps < 0 + (maxVmSteps + 1)
        omega
      obtain ⟨r, hr⟩ := PX64VM.run_stops host
        (fun vm hvm => hk _ vm ((hstart _).mpr rfl) hvm) (Nat.zero_le _) hlimit
      exact ⟨(r.1, r.2.output), (runBinaryWithOutput_eq_some hload).mpr ⟨r.2, hr, rfl⟩⟩

/-- A container that defines an array longer than the slot table and loads past it. -/
def hostileArray : Program where
  code := instBytes .arrDef 0 0xFF 0xFF ++ instBytes .movImm 1 0x07 0xD0 ++
    instBytes .arrLoad 2 0 1
  strPool := []
  constPool := []

/-- Loading element 2000 of an array of 65535 elements brings the host machine down. -/
theorem hostileArray_panics :
    ¬ ∀ (host : Host) (bin : List UInt8) (args : List (List UInt8)) n r,
      runBinaryWithOutput host n bin args = some r → r.1 ≠ .panic := by
  intro h
  let host : Host := ⟨fun _ => 0, fun _ => 0, fun _ => 0, fun _ _ => false, fun _ _ _ => false⟩
  have hrun : (runBinaryWithOutput host 3 hostileArray.toBinary []).map Prod.fst =
      some .panic := by decide +kernel
  obtain ⟨r, hr, hstop⟩ := Option.map_eq_some_iff.mp hrun
  exact h host _ [] 3 r hr hstop

end LatencyOS
