import LatencyOS.Vm.Kernel
import LatencyOS.Vm.Safety

/-!
# Where the kernel machine can leave its tables

The kernel's interpreter checks less than the host's: the constant pool of a container
is cut with the header's count, const tables index it unchecked, a printed word with
the sign bit set gives a bad slice, and clock values are added without a check.
`SafeStep` says exactly when the next iteration stays inside every table; a container
panics the kernel precisely when the loader does or its run meets an unsafe step.
-/

namespace LatencyOS

/-- How many registers below its first argument a kernel native reads. -/
def Native.kernelFurtherArgs : Native → ℕ
  | .charAt | .fileWrite | .streq => 0
  | f => f.furtherArgs

namespace KernelVM

/-- A clock sum does not overflow in a build that checks it. -/
def SafeSum (host : KernelHost) (a b : Word64) : Prop :=
  host.overflowChecks → a.toNat + b.toNat < 2 ^ 64

/-- The slice of a printed string is well formed: its end does not wrap around, except in
an unchecked build and past the pool. -/
def SafePrint (host : KernelHost) (k : KernelVM) (argVal : Word64) : Prop :=
  let raw := argVal &&& ~~~strTag
  let stop := (raw.sshiftRight 32).toNat + (raw &&& 0xFFFFFFFF#64).toNat
  ¬ hasTag argVal argTag → hasTag argVal strTag →
    stop < 2 ^ 64 ∨ ¬ host.overflowChecks ∧ k.vm.strPool.length < stop % 2 ^ 64

/-- A native stays inside the registers, the pools and the frame slots; `k` has just read
the clock. -/
def SafeNative (host : KernelHost) (k : KernelVM) (f : Native) (argReg : ℕ) (argVal : Word64) :
    Prop :=
  (0 < f.kernelFurtherArgs → argReg ≤ px64NumRegisters) ∧
    (f = .vramRead ∨ f = .vramWrite → 0 < argReg →
      (k.vm.regs (argReg - 1)).toNat + 8 < 2 ^ 64) ∧
    (f = .print ∨ f = .println → SafePrint host k argVal) ∧
    (f = .netSend →
      SafeSum host (k.readTsc host) (nsToTsc 50000000#64 host.tscFreqHz)) ∧
    (f = .busyWait → 0 < argVal.toInt →
      SafeSum host (k.readTsc host) (nsToTsc argVal host.tscFreqHz))

/-- The instruction stays inside every table. -/
def SafeInstr (host : KernelHost) (k : KernelVM) (op : Opcode) (rd rs1 rs2 : ℕ) : Prop :=
  match op with
  | .tblLoad =>
    rs1 < 8 → 0 ≤ (k.vm.regOr rs2 (-1#64)).toInt →
      (k.vm.regOr rs2 (-1#64)).toInt < k.vm.tableLens rs1 →
      k.vm.tableBases rs1 + (k.vm.regOr rs2 (-1#64)).toNat < k.vm.constPool.length
  | .callNat =>
    ∀ f, Native.ofId? rs1 = some f →
      SafeNative host k.tick f rs2 (k.vm.regOr rs2 0#64)
  | .withinStart =>
    SafeSum host (k.readTsc host) (nsToTsc (k.vm.regOr rd 500000#64) host.tscFreqHz)
  | op => PX64VM.SafeTables kernelTables k.vm op rd rs1 rs2

/-- The state an instruction is executed in: the clock has been read for the watchdog, and
`ip` and the step count have been advanced. -/
def fetched (k : KernelVM) : KernelVM :=
  k.tick.update k.tick.vm.advance

/-- The instruction about to be executed is `op rd rs1 rs2`: no wait is running, and
neither the watchdog nor the step limit stops the machine. -/
def Fetches (host : KernelHost) (k : KernelVM) (op : Opcode) (rd rs1 rs2 : ℕ) : Prop :=
  k.spinUntil = none ∧ ¬ k.timeoutTsc < k.readTsc host ∧
    k.vm.ip + 4 ≤ k.vm.code.length ∧ k.vm.steps < maxVmSteps ∧
    Opcode.ofCode? (byteAt k.vm.code k.vm.ip) = some op ∧ rd = byteAt k.vm.code (k.vm.ip + 1) ∧
    rs1 = byteAt k.vm.code (k.vm.ip + 2) ∧ rs2 = byteAt k.vm.code (k.vm.ip + 3)

/-- The next iteration stays inside every table. -/
def SafeStep (host : KernelHost) (k : KernelVM) : Prop :=
  ∀ op rd rs1 rs2, k.Fetches host op rd rs1 rs2 →
    SafeInstr host k.fetched op rd rs1 rs2

@[simp] theorem panics_fail {α : Type} (k : KernelVM) (c m : String) :
    ¬ Panics (k.fail c m : Except (Stop × KernelVM) α) := by
  simp [fail]

@[simp] theorem panics_panicked {α : Type} (k : KernelVM) :
    Panics (k.panicked : Except (Stop × KernelVM) α) := by
  simp [panicked]

@[simp] theorem panics_lift {α : Type} (k : KernelVM) (x : Except (Stop × PX64VM) α) :
    Panics (k.lift x) ↔ Panics x := by
  unfold lift
  split <;> simp

@[simp] theorem lift_eq_ok {α : Type} {k : KernelVM} {x : Except (Stop × PX64VM) α} {a : α} :
    k.lift x = .ok a ↔ x = .ok a := by
  unfold lift
  split <;> simp

@[simp] theorem panics_addTsc (host : KernelHost) (k : KernelVM) (a b : Word64) :
    Panics (k.addTsc host a b) ↔ ¬ SafeSum host a b := by
  simp [addTsc, SafeSum]

@[simp] theorem panics_finish (host : KernelHost) (k : KernelVM) : ¬ Panics (k.finish host) := by
  simp [finish]

@[simp] theorem panics_vramRead (host : KernelHost) (k : KernelVM) (slot offset : ℕ) :
    Panics (k.vramRead host slot offset) ↔ 2 ^ 64 ≤ offset + 8 := by
  rw [← @PX64VM.vramLoad_eq_none 65536 offset (host.slotData k.vm.asked slot), vramRead]
  split <;> simp_all

theorem panics_strText (host : KernelHost) (k : KernelVM) (argVal : Word64)
    (h : hasTag argVal strTag) (ha : ¬ hasTag argVal argTag) :
    Panics (k.strText host argVal) ↔ ¬ SafePrint host k argVal := by
  simp only [strText, SafePrint, h, ha, panics_ite, panics_panicked, panics_ok, and_true, and_false,
    or_false, true_imp_iff]
  grind

/-- Printing panics exactly when the slice is not well formed. -/
theorem panics_print (host : KernelHost) (k : KernelVM) (argVal : Word64) :
    Panics (k.print host argVal) ↔ ¬ SafePrint host k argVal := by
  unfold print
  by_cases ha : hasTag argVal argTag
  · simp [ha, SafePrint]
  · by_cases hs : hasTag argVal strTag
    · simp [ha, hs, panics_strText]
    · simp [ha, hs, SafePrint]

theorem panics_println (host : KernelHost) (k : KernelVM) (argReg : ℕ) (argVal : Word64) :
    Panics (k.println host argReg argVal) ↔ ¬ SafePrint host k argVal := by
  unfold println
  by_cases ha : hasTag argVal argTag
  · simp [ha, SafePrint]
  · by_cases hs : hasTag argVal strTag
    · simp [ha, hs, panics_strText]
    · simp [ha, hs, SafePrint]

/-- A native panics exactly when it is not safe. -/
theorem panics_callNative (host : KernelHost) (k : KernelVM) (f : Native) (argReg : ℕ)
    (argVal : Word64) :
    Panics (k.callNative host f argReg argVal) ↔ ¬ SafeNative host k.tick f argReg argVal := by
  by_cases hf : f ∈ PX64VM.commonNatives
  · have hfurther : f.kernelFurtherArgs = f.furtherArgs := by
      cases f <;> first | rfl | exact absurd hf (by decide)
    have hother : ∀ g ∈ [Native.vramRead, .vramWrite, .print, .println, .netSend, .busyWait],
        f ≠ g := by
      rintro g hg rfl
      revert hg hf
      cases f <;> decide
    rw [callNative_common host k hf]
    simp only [List.forall_mem_cons, List.not_mem_nil, false_imp_iff, implies_true, and_true]
      at hother
    obtain ⟨h1, h2, h3, h4, h5, h6⟩ := hother
    simp [PX64VM.panics_callNativeCommon _ argReg argVal hf, SafeNative, hfurther, h1, h2, h3, h4,
      h5, h6]
  · cases f <;> first
      | exact absurd (by decide) hf
      | simp [callNative, SafeNative, Native.kernelFurtherArgs, Native.furtherArgs,
          px64NumRegisters, panics_print, panics_println]
    -- what is left are the natives with further arguments; only vram looks at a value
    case vramRead | vramWrite =>
      rcases Nat.eq_zero_or_pos argReg with h | h
      · simp [h]
      · rw [if_pos (show 1 ≤ argReg from h)]
        omega

/-- An instruction panics exactly when it is not safe. -/
theorem panics_exec (host : KernelHost) (k : KernelVM) (op : Opcode) (rd rs1 rs2 : ℕ) :
    Panics (k.exec host op rd rs1 rs2) ↔ ¬ SafeInstr host k op rd rs1 rs2 := by
  cases op
  case callNat =>
    simp only [exec, SafeInstr]
    cases hf : Native.ofId? rs1 with
    | none => simp
    | some f => simp [panics_callNative]
  case halt | ret | drop => simp [exec, SafeInstr, PX64VM.SafeTables]
  case withinStart => simp [exec, SafeInstr]
  case tblLoad =>
    simp only [exec, SafeInstr, panics_ite, panics_fail, and_false, false_or]
    cases hc : k.vm.constPool[k.vm.tableBases rs1 + (k.vm.regOr rs2 (-1#64)).toNat]? with
    | none =>
      rw [List.getElem?_eq_none_iff] at hc
      simp only [panics_panicked, and_true]
      grind
    | some c =>
      obtain ⟨hc, _⟩ := List.getElem?_eq_some_iff.mp hc
      simp only [panics_ok, and_false, false_iff, not_not]
      exact fun _ _ _ => hc
  all_goals
    rw [exec_common host k (by decide)]
    simp [PX64VM.panics_execCommon, SafeInstr]

/-- The iteration of a state that fetches an instruction executes it. -/
theorem Fetches.step_eq {host : KernelHost} {k : KernelVM} {op : Opcode} {rd rs1 rs2 : ℕ}
    (h : k.Fetches host op rd rs1 rs2) : k.step host = k.fetched.exec host op rd rs1 rs2 := by
  obtain ⟨hspin, htime, hip, hlim, hop, rfl, rfl, rfl⟩ := h
  rw [step, hspin]
  simp only [if_pos hip]
  rw [fetch, if_neg (show ¬ k.tick.timeoutTsc < k.readTsc host from htime)]
  rw [if_neg (show ¬ maxVmSteps ≤ k.tick.vm.steps from Nat.not_le.mpr hlim)]
  have hop' : Opcode.ofCode? (byteAt k.tick.vm.code k.tick.vm.ip) = some op := hop
  simp only [hop']
  rfl

theorem Fetches.safeStep_iff {host : KernelHost} {k : KernelVM} {op : Opcode} {rd rs1 rs2 : ℕ}
    (h : k.Fetches host op rd rs1 rs2) :
    k.SafeStep host ↔ SafeInstr host k.fetched op rd rs1 rs2 := by
  refine ⟨fun hs => hs _ _ _ _ h, fun hs op' rd' rs1' rs2' h' => ?_⟩
  obtain ⟨_, _, _, _, hop, rfl, rfl, rfl⟩ := h
  obtain ⟨_, _, _, _, hop', rfl, rfl, rfl⟩ := h'
  cases hop.symm.trans hop'
  exact hs

/-- An iteration that fetches nothing waits or stops without a panic. -/
theorem step_of_not_fetches {host : KernelHost} {k : KernelVM}
    (hf : ∀ op rd rs1 rs2, ¬ k.Fetches host op rd rs1 rs2) :
    ¬ Panics (k.step host) ∧ (k.spinUntil = none → ∃ r, k.step host = .error r) := by
  cases hspin : k.spinUntil with
  | some target =>
    simp only [step, hspin, panics_ite, panics_ok, and_false, or_self, not_false_eq_true, true_and]
    intro h
    cases h
  | none =>
    have hfin : ∀ k : KernelVM, ∃ r, k.finish host = .error r := by
      intro k
      simp only [finish]
      split
      · exact ⟨_, rfl⟩
      · split <;> exact ⟨_, rfl⟩
    simp only [step, hspin, true_imp_iff]
    split
    · next hip =>
      simp only [fetch]
      split
      · exact ⟨panics_fail _ _ _, _, rfl⟩
      · next htime =>
        split
        · exact ⟨panics_fail _ _ _, _, rfl⟩
        · next hlim =>
          have hop : Opcode.ofCode? (byteAt k.tick.vm.code k.tick.vm.ip) = none :=
            Option.eq_none_iff_forall_ne_some.mpr fun op hop =>
              hf op _ _ _ ⟨hspin, htime, hip, Nat.not_le.mp hlim, hop, rfl, rfl, rfl⟩
          simp only [hop]
          exact ⟨panics_fail _ _ _, _, rfl⟩
    · exact ⟨panics_finish host k, hfin k⟩

/-- An iteration panics exactly when it is not safe. -/
theorem panics_step (host : KernelHost) (k : KernelVM) :
    Panics (k.step host) ↔ ¬ k.SafeStep host := by
  by_cases hf : ∃ op rd rs1 rs2, k.Fetches host op rd rs1 rs2
  · obtain ⟨op, rd, rs1, rs2, h⟩ := hf
    rw [h.safeStep_iff, h.step_eq]
    exact panics_exec ..
  · simp only [not_exists] at hf
    have hsafe : k.SafeStep host := fun op rd rs1 rs2 h => absurd h (hf op rd rs1 rs2)
    simp only [hsafe, not_true_eq_false, iff_false]
    exact (step_of_not_fetches hf).1

/-! ## The step limit -/

/-- Every instruction but `@busy_wait` leaves the step count and the wait alone. -/
structure Quiet (k k' : KernelVM) : Prop where
  steps : k'.vm.steps = k.vm.steps
  spinUntil : k'.spinUntil = k.spinUntil

theorem quiet_update {k k' : KernelVM} {vm : PX64VM} (h : Quiet k k')
    (hvm : PX64VM.Quiet k'.vm vm) : Quiet k (k'.update vm) :=
  ⟨hvm.steps.trans h.steps, h.spinUntil⟩

theorem quiet_tick (k : KernelVM) : Quiet k k.tick := ⟨rfl, rfl⟩

theorem quiet_callNative (host : KernelHost) (k : KernelVM) {f : Native} (hf : f ≠ .busyWait)
    (argReg : ℕ) (argVal : Word64) :
    Returns (fun r => Quiet k r.2) (k.callNative host f argReg argVal) := by
  by_cases hc : f ∈ PX64VM.commonNatives
  · rw [callNative_common host k hc, returns_bind]
    exact fun _ _ => (returns_ok _).mpr (quiet_tick k)
  · cases f <;> first
      | exact absurd (by decide) hc
      | simp only [callNative, returns_ok, returns_bind]
    case busyWait => exact absurd rfl hf
    case vramWrite =>
      exact fun _ _ _ _ => .ite (returns_error _) ((returns_ok _).mpr (quiet_tick k))
    all_goals first
      | exact ⟨rfl, rfl⟩
      | exact fun _ _ => ⟨rfl, rfl⟩
      | exact fun _ _ _ _ => ⟨rfl, rfl⟩

theorem returns_lift {α : Type} {Q : α → Prop} {k : KernelVM} {x : Except (Stop × PX64VM) α}
    (h : Returns Q x) : Returns Q (k.lift x) := fun a ha => h a (lift_eq_ok.mp ha)

theorem not_ok_finish (host : KernelHost) (k k' : KernelVM) : k.finish host ≠ .ok k' := by
  simp only [finish, fail]
  split
  · simp
  · split <;> simp

theorem quiet_exec (host : KernelHost) (k : KernelVM) (op : Opcode) (rd rs1 rs2 : ℕ)
    (hk : ¬ (op = .callNat ∧ Native.ofId? rs1 = some .busyWait)) :
    Returns (Quiet k) (k.exec host op rd rs1 rs2) := by
  have hfin : Returns (Quiet k) (k.finish host) := fun k' h => absurd h (not_ok_finish host k k')
  by_cases hc : op ∈ PX64VM.ownOps
  · cases op <;> first
      | exact absurd hc (by decide)
      | simp only [exec]
    case halt => exact hfin
    case ret => exact .ite hfin ((returns_ok _).mpr ⟨rfl, rfl⟩)
    case tblLoad =>
      refine .ite (returns_error _) (.ite (returns_error _) ?_)
      split
      · exact returns_error _
      · exact (returns_ok _).mpr (quiet_update ⟨rfl, rfl⟩ (PX64VM.quiet_setReg ..))
    case callNat =>
      split
      · exact (returns_ok _).mpr (quiet_update (quiet_tick k) (PX64VM.quiet_setReg ..))
      · next f hf =>
        have hne : f ≠ .busyWait := fun h => hk ⟨rfl, h ▸ hf⟩
        rw [returns_bind]
        refine (quiet_callNative host k hne rs2 _).mono fun r hr => ?_
        exact (returns_ok _).mpr (quiet_update hr (PX64VM.quiet_setReg ..))
    case withinStart =>
      rw [returns_bind]
      exact fun _ _ => .ite ((returns_ok _).mpr ⟨rfl, rfl⟩) ((returns_ok _).mpr ⟨rfl, rfl⟩)
    case drop =>
      exact .ite (.ite ((returns_ok _).mpr ⟨rfl, rfl⟩) ((returns_ok _).mpr ⟨rfl, rfl⟩))
        ((returns_ok _).mpr ⟨rfl, rfl⟩)
  · rw [exec_common host k hc, returns_bind]
    refine (returns_lift (PX64VM.quiet_execCommon _ _ _ _ _ _ _)).mono fun vm hvm => ?_
    exact (returns_ok _).mpr (quiet_update ⟨rfl, rfl⟩ hvm)

/-- The instruction about to be executed is a `@busy_wait`. -/
def Waits (host : KernelHost) (k : KernelVM) : Prop :=
  ∃ rd rs1 rs2, k.Fetches host .callNat rd rs1 rs2 ∧ Native.ofId? rs1 = some .busyWait

/-- An iteration that does not wait counts, and is within the limit. -/
theorem step_counts {host : KernelHost} {k k' : KernelVM} (h : k.step host = .ok k')
    (hspin : k.spinUntil = none) (hk : ¬ k.Waits host) :
    k'.spinUntil = none ∧ k'.vm.steps = k.vm.steps + 1 ∧ k.vm.steps < maxVmSteps := by
  by_cases hf : ∃ op rd rs1 rs2, k.Fetches host op rd rs1 rs2
  · obtain ⟨op, rd, rs1, rs2, hf⟩ := hf
    rw [hf.step_eq] at h
    have hne : ¬ (op = .callNat ∧ Native.ofId? rs1 = some .busyWait) := by
      rintro ⟨rfl, hid⟩
      exact hk ⟨rd, rs1, rs2, hf, hid⟩
    obtain ⟨hsteps, hs⟩ := quiet_exec host _ op rd rs1 rs2 hne k' h
    exact ⟨hs.trans hspin, hsteps, hf.2.2.2.1⟩
  · simp only [not_exists] at hf
    obtain ⟨r, hr⟩ := (step_of_not_fetches hf).2 hspin
    rw [hr] at h
    cases h

/-- A run that never waits takes at most the limit's number of steps. -/
theorem run_stops (host : KernelHost) {k : KernelVM}
    (hk : ∀ k', Machine.Reaches (step host) k k' → ¬ k'.Waits host) (hspin : k.spinUntil = none)
    {n : ℕ} (hle : k.vm.steps ≤ maxVmSteps) (hn : maxVmSteps < k.vm.steps + n) :
    ∃ r, Machine.run (step host) n k = some r := by
  induction n generalizing k with
  | zero => omega
  | succ n ih =>
    cases hs : step host k with
    | error r => exact ⟨r, by rw [Machine.run, Machine.iter_succ_of_error _ hs]⟩
    | ok k' =>
      obtain ⟨hspin', hsteps, hlt⟩ := step_counts hs hspin (hk k (.refl k))
      obtain ⟨r, hr⟩ := ih (fun u hu => hk u ((Machine.Reaches.single hs).trans hu)) hspin'
        (by omega) (by omega)
      exact ⟨r, by rw [Machine.run, Machine.iter_succ_of_ok _ hs]; exact hr⟩

end KernelVM

/-! ## Whole containers -/

/-- The kernel gets as far as the first instruction: the header's constant count fits the
table it is cut from, and the first deadline does not overflow. -/
def SafeStart (host : KernelHost) (bin : List UInt8) : Prop :=
  ∀ p, loadBinary bin = .ok p →
    headerField bin 10 ≤ maxConstPool ∧
      KernelVM.SafeSum host (host.tsc 0)
        (nsToTsc (BitVec.ofNat 64 maxScriptTimeoutNs) host.tscFreqHz)

/-- The machine a container starts in the kernel, when the loader accepts it. -/
def startsInKernel (host : KernelHost) (bin : List UInt8) (args : List (List UInt8))
    (k : KernelVM) : Prop :=
  ∃ p, loadBinary bin = .ok p ∧ k = KernelVM.start host p args

/-- A loaded container panics before its first instruction exactly when it does not start
safely. -/
theorem runPulseBinary_of_not_safeStart {host : KernelHost} {bin : List UInt8}
    (h : ¬ SafeStart host bin) (n : ℕ) (args : List (List UInt8)) :
    runPulseBinary host n bin args = some (.panic, []) := by
  simp only [SafeStart, KernelVM.SafeSum, not_forall, not_and_or] at h
  obtain ⟨p, hload, h⟩ := h
  by_cases hcount : maxConstPool < headerField bin 10
  · simp [runPulseBinary, loadPulseBinary, hload, hcount]
  · rcases h with h | ⟨hchk, h⟩
    · exact absurd h (by omega)
    · have hsum := Nat.not_lt.mp h
      simp only [runPulseBinary, loadPulseBinary, hload, hcount, runPulseProgram, hchk, hsum]
      simp

theorem runPulseBinary_of_safeStart {host : KernelHost} {bin : List UInt8} {p : Program}
    (h : SafeStart host bin) (hload : loadBinary bin = .ok p) (n : ℕ) (args : List (List UInt8)) :
    runPulseBinary host n bin args =
      (Machine.run (KernelVM.step host) n (KernelVM.start host p args)).map fun r =>
        (r.1, r.2.vm.output) := by
  obtain ⟨hcount, hsum⟩ := h p hload
  have hsum' : ¬ (host.overflowChecks = true ∧ 2 ^ 64 ≤ (host.tsc 0).toNat +
      (nsToTsc (BitVec.ofNat 64 maxScriptTimeoutNs) host.tscFreqHz).toNat) := by
    rintro ⟨hchk, hle⟩
    exact absurd (hsum hchk) (by omega)
  simp only [runPulseBinary, loadPulseBinary, hload, if_neg (Nat.not_lt.mpr hcount),
    runPulseProgram, if_neg hsum']

/-- **When a container cannot panic the kernel**: exactly when it starts safely and every
state its run reaches is safe; and the run ends with a result or an error unless it
waits. -/
theorem runPulseBinary_never_panics_iff (host : KernelHost) (bin : List UInt8)
    (args : List (List UInt8)) :
    ((∀ n r, runPulseBinary host n bin args = some r → r.1 ≠ .panic) ↔
      SafeStart host bin ∧
        ∀ k₀ k, startsInKernel host bin args k₀ → Machine.Reaches (KernelVM.step host) k₀ k →
          k.SafeStep host) ∧
    ((∀ k₀ k, startsInKernel host bin args k₀ → Machine.Reaches (KernelVM.step host) k₀ k →
        ¬ k.Waits host) →
      ∃ r, runPulseBinary host (maxVmSteps + 1) bin args = some r) := by
  by_cases hsafe : SafeStart host bin
  · simp only [hsafe, true_and]
    cases hload : loadBinary bin with
    | error e => simp [runPulseBinary, loadPulseBinary, hload, startsInKernel]
    | ok p =>
      have hstart : ∀ k₀, startsInKernel host bin args k₀ ↔ k₀ = KernelVM.start host p args := by
        simp [startsInKernel, hload]
      simp only [runPulseBinary_of_safeStart hsafe hload, hstart, Option.map_eq_some_iff]
      refine ⟨⟨fun h k₀ k hk₀ hk => ?_, ?_⟩, fun hk => ?_⟩
      · subst hk₀
        by_contra hns
        obtain ⟨r, hr, hpanic⟩ := (KernelVM.panics_step host k).mpr hns
        obtain ⟨m, hm⟩ := hk
        have hrun := Machine.run_of_iter _ hm hr (Nat.lt_succ_self m)
        exact h _ _ ⟨r, hrun, rfl⟩ hpanic
      · rintro h n _ ⟨r, hr, rfl⟩ hpanic
        obtain ⟨k, hk, hstop⟩ := Machine.run_eq_some _ hr
        exact (KernelVM.panics_step host k).mp ⟨r, hstop, hpanic⟩ (h _ k rfl hk)
      · have hlimit : maxVmSteps < (KernelVM.start host p args).vm.steps + (maxVmSteps + 1) := by
          change maxVmSteps < 0 + (maxVmSteps + 1)
          omega
        obtain ⟨r, hr⟩ := KernelVM.run_stops host (fun k h => hk _ k rfl h) rfl
          (Nat.zero_le _) hlimit
        exact ⟨_, r, hr, rfl⟩
  · have hrun := fun n => runPulseBinary_of_not_safeStart hsafe n args
    simp [hrun, hsafe]

/-- A container whose header announces 65 constants. -/
def hostileConstCount : List UInt8 :=
  px64BinMagic ++ headerBytes px64BinVersion ++ headerBytes 0 ++ headerBytes 0 ++ headerBytes 65 ++
    headerBytes px64NumRegisters ++ headerBytes 0 ++ List.replicate 520 0

/-- A container with 65 constants brings the kernel down before its first instruction. -/
theorem hostileConstCount_panics :
    ¬ ∀ (host : KernelHost) (bin : List UInt8) (args : List (List UInt8)) n r,
      runPulseBinary host n bin args = some r → r.1 ≠ .panic := by
  intro h
  let host : KernelHost :=
    { tsc := fun _ => 0, tscFreqHz := 2500000000#64, lastRtt := fun _ => 0, lapicId := 0
      ringLen := fun _ _ => 0, slotData := fun _ _ _ => 0, overflowChecks := false }
  have hrun : runPulseBinary host 0 hostileConstCount [] = some (.panic, []) := by decide +kernel
  exact h host _ [] 0 _ hrun rfl

end LatencyOS
