import LatencyOS.Vm.KernelSafety

/-!
# Host and kernel runs in lock-step

The two interpreters of the instruction set agree, instruction by instruction, as long
as a program stays inside the smaller of the two implementations: the kernel's tables,
natives the kernel has, words whose string offset the kernel does not cut, printed
strings that exist, and one instruction fewer than the step limit.  `AgreesStep` is that
condition on the host state about to take a step; under it the host and the kernel run
print the same bytes and stop the same way, unless the kernel's watchdog fires.
-/

namespace LatencyOS

namespace PX64VM

/-- The state with another count of questions asked. -/
def setAsked (vm : PX64VM) (a : ℕ) : PX64VM := { vm with asked := a }

/-- Where the host machine and where the kernel machine look for the string of a word. -/
def strOffset (v : Word64) : ℕ := ((v &&& ~~~strTag) >>> 32).toNat

/-- The kernel keeps 24 bits of the offset. -/
def kernelStrOffset (v : Word64) : ℕ := ((v &&& 0x00FFFFFF00000000#64) >>> 32).toNat

/-- The length field of a string word. -/
def strLength (v : Word64) : ℕ := (v &&& 0xFFFFFFFF#64).toNat

/-- Both machines find the same bytes: they look in the same place, or outside the pool. -/
def StrAgrees (vm : PX64VM) (v : Word64) : Prop :=
  hasTag v strTag → strOffset v = kernelStrOffset v ∨
    vm.strPool.length < strOffset v + strLength v ∧
      vm.strPool.length < kernelStrOffset v + strLength v

/-- The two string comparisons look up the same strings. -/
def CompareAgrees (vm : PX64VM) (v1 v2 : Word64) : Prop :=
  v1 ≠ v2 → vm.StrAgrees v1 ∧ vm.StrAgrees v2

/-- `CMP_EQ` and `CMP_NE` look up words with a tag only. -/
def TaggedAgrees (vm : PX64VM) (v1 v2 : Word64) : Prop :=
  hasTag v1 strTag || hasTag v1 argTag → hasTag v2 strTag || hasTag v2 argTag →
    vm.CompareAgrees v1 v2

/-- A printed string word is not negative. -/
def PrintAgrees (v : Word64) : Prop :=
  ¬ hasTag v argTag → hasTag v strTag → v.msb = false

/-- A printed line has a text: the argument exists, or the string lies in the pool and is
UTF-8. -/
def PrintlnAgrees (vm : PX64VM) (v : Word64) : Prop :=
  PrintAgrees v ∧
    (hasTag v argTag → (v &&& 0xFF#64).toNat < vm.args.length) ∧
    (¬ hasTag v argTag → hasTag v strTag →
      strOffset v + strLength v ≤ vm.strPool.length ∧
        validUtf8 ((vm.strPool.drop (strOffset v)).take (strLength v)))

/-- The native is one the kernel implements alike, at an argument where it does. -/
def NativeAgrees (vm : PX64VM) (f : Native) (argVal : Word64) : Prop :=
  match f with
  | .print => PrintAgrees argVal
  | .println => vm.PrintlnAgrees argVal
  | .scriptArg => 0 ≤ argVal.toInt → argVal.toNat < 8 → argVal.toNat < vm.args.length
  | f => f ∈ commonNatives

/-- The instruction does the same on both machines; `vm` has already been advanced. -/
def AgreesInstr (vm : PX64VM) (op : Opcode) (rd rs1 rs2 : ℕ) : Prop :=
  match op with
  | .halt => vm.steps < maxVmSteps
  | .ret => vm.callSp = 0 → vm.steps < maxVmSteps
  | .withinStart | .drop => False
  | .arrDef =>
    rd < 8 ∧
      arrayBase (Function.update vm.arrayLens rd (rs1 * 256 + rs2)) rd + (rs1 * 256 + rs2) ≤ 256
  | .structDef | .tblDef => rd < 8
  | .arrLoad | .structLoad => rs1 < 8 ∧ SafeTables KernelVM.kernelTables vm op rd rs1 rs2
  | .arrStore | .structStore => rd < 8 ∧ SafeTables KernelVM.kernelTables vm op rd rs1 rs2
  | .tblLoad =>
    rs1 < 8 ∧ (0 ≤ (vm.regOr rs2 (-1#64)).toInt →
      (vm.regOr rs2 (-1#64)).toInt < vm.tableLens rs1 →
      vm.tableBases rs1 + (vm.regOr rs2 (-1#64)).toNat < vm.constPool.length)
  | .cmpEq | .cmpNe =>
    rs1 < px64NumRegisters → rs2 < px64NumRegisters →
      vm.TaggedAgrees (vm.regs rs1) (vm.regs rs2)
  | .streq =>
    rs1 < px64NumRegisters → rs2 < px64NumRegisters →
      vm.CompareAgrees (vm.regs rs1) (vm.regs rs2)
  | .callNat => ∀ f, Native.ofId? rs1 = some f → vm.NativeAgrees f (vm.regOr rs2 0#64)
  | _ => True

/-- The next step does the same on both machines. -/
def AgreesStep (vm : PX64VM) : Prop :=
  (∀ op rd rs1 rs2, vm.Fetches op rd rs1 rs2 → vm.advance.AgreesInstr op rd rs1 rs2) ∧
    (vm.code.length < vm.ip + 4 → vm.steps < maxVmSteps)

theorem strLength_raw (v : Word64) :
    (v &&& ~~~strTag &&& 0xFFFFFFFF#64).toNat = strLength v := by
  rw [BitVec.and_assoc, show ~~~strTag &&& 0xFFFFFFFF#64 = 0xFFFFFFFF#64 by decide]
  rfl

theorem getStrBytes_of_agrees {vm : PX64VM} {v : Word64} (h : vm.StrAgrees v) :
    KernelVM.getStrBytes vm v = vm.getStrBytes v := by
  unfold KernelVM.getStrBytes getStrBytes
  split
  · next hs =>
    simp only [strLength_raw]
    change vm.poolSlice (kernelStrOffset v) (strLength v) = vm.poolSlice (strOffset v) (strLength v)
    rcases h hs with h | ⟨h₁, h₂⟩
    · rw [h]
    · simp [poolSlice, Nat.not_le.mpr h₁, Nat.not_le.mpr h₂]
  · rfl

theorem strEq_of_agrees {vm : PX64VM} {v1 v2 : Word64} (h : vm.CompareAgrees v1 v2) :
    strEq (KernelVM.getStrBytes vm) v1 v2 = strEq vm.getStrBytes v1 v2 := by
  unfold strEq
  split
  · rfl
  · next hne => rw [getStrBytes_of_agrees (h hne).1, getStrBytes_of_agrees (h hne).2]

theorem cmpEq_of_agrees {vm : PX64VM} {v1 v2 : Word64} (h : vm.TaggedAgrees v1 v2) :
    cmpEq (KernelVM.getStrBytes vm) v1 v2 = cmpEq vm.getStrBytes v1 v2 := by
  unfold cmpEq
  split
  · rfl
  · split
    · next htag =>
      rw [Bool.and_eq_true] at htag
      exact strEq_of_agrees (h htag.1 htag.2)
    · rfl

/-! ## One instruction -/

/-- An outcome with another count of questions asked. -/
def askedOutcome (a : ℕ) : Except (Stop × PX64VM) PX64VM → Except (Stop × PX64VM) PX64VM
  | .ok vm => .ok (vm.setAsked a)
  | .error (stop, vm) => .error (stop, vm.setAsked a)

section SetAsked

variable (vm : PX64VM) (a : ℕ)

@[simp] theorem setAsked_regs : (vm.setAsked a).regs = vm.regs := rfl
@[simp] theorem setAsked_regOr (r : ℕ) (d : Word64) :
    (vm.setAsked a).regOr r d = vm.regOr r d := rfl
@[simp] theorem setAsked_constPool : (vm.setAsked a).constPool = vm.constPool := rfl
@[simp] theorem setAsked_callSp : (vm.setAsked a).callSp = vm.callSp := rfl
@[simp] theorem setAsked_arrayLens : (vm.setAsked a).arrayLens = vm.arrayLens := rfl
@[simp] theorem setAsked_arrayBases : (vm.setAsked a).arrayBases = vm.arrayBases := rfl
@[simp] theorem setAsked_structFieldCounts :
    (vm.setAsked a).structFieldCounts = vm.structFieldCounts := rfl
@[simp] theorem setAsked_structBases : (vm.setAsked a).structBases = vm.structBases := rfl

@[simp] theorem setAsked_tableLens : (vm.setAsked a).tableLens = vm.tableLens := rfl
@[simp] theorem setAsked_tableBases : (vm.setAsked a).tableBases = vm.tableBases := rfl

theorem setAsked_setReg (rd : ℕ) (v : Word64) :
    (vm.setAsked a).setReg rd v = (vm.setReg rd v).setAsked a := by
  unfold setReg
  split <;> rfl

theorem setAsked_alu (rd rs1 rs2 : ℕ) (f : Word64 → Word64 → Word64) :
    (vm.setAsked a).alu rd rs1 rs2 f = (vm.alu rd rs1 rs2 f).setAsked a := by
  unfold alu
  split <;> rfl

theorem askedOutcome_ite (c : Prop) [Decidable c] (x y : Except (Stop × PX64VM) PX64VM) :
    askedOutcome a (if c then x else y) = if c then askedOutcome a x else askedOutcome a y := by
  split <;> rfl

theorem askedOutcome_ok_ite (c : Prop) [Decidable c] (x y : PX64VM) :
    askedOutcome a (.ok (if c then x else y)) =
      .ok (if c then x.setAsked a else y.setAsked a) := by
  split <;> rfl

/-- The shared instructions do not look at the count of questions. -/
theorem execCommon_setAsked (lim : TableLimits) (str : Word64 → Option (List UInt8))
    (op : Opcode) (rd rs1 rs2 : ℕ) :
    (vm.setAsked a).execCommon lim str op rd rs1 rs2 =
      askedOutcome a (vm.execCommon lim str op rd rs1 rs2) := by
  cases op <;>
    simp only [execCommon, askedOutcome_ite, askedOutcome_ok_ite, setAsked_setReg, setAsked_alu,
      setAsked_regs, setAsked_regOr, setAsked_constPool, setAsked_callSp, setAsked_arrayLens,
      setAsked_arrayBases, setAsked_structFieldCounts, setAsked_structBases]
  case ldc => split <;> rfl
  all_goals rfl

end SetAsked

theorem alu_congr (vm : PX64VM) (rd rs1 rs2 : ℕ) {f g : Word64 → Word64 → Word64}
    (h : rs1 < px64NumRegisters → rs2 < px64NumRegisters →
      f (vm.regs rs1) (vm.regs rs2) = g (vm.regs rs1) (vm.regs rs2)) :
    vm.alu rd rs1 rs2 f = vm.alu rd rs1 rs2 g := by
  unfold alu
  split
  · next hr => rw [h hr.2.1 hr.2.2]
  · rfl

/-- A shared instruction with the kernel's tables and string lookup does what it does
with the host's. -/
theorem execCommon_agrees {vm : PX64VM} {op : Opcode} {rd rs1 rs2 : ℕ}
    (h : vm.AgreesInstr op rd rs1 rs2) :
    vm.execCommon KernelVM.kernelTables (KernelVM.getStrBytes vm) op rd rs1 rs2 =
      vm.execCommon coreTables vm.getStrBytes op rd rs1 rs2 := by
  cases op
  case cmpEq =>
    simp only [execCommon]
    refine congrArg Except.ok (alu_congr vm rd rs1 rs2 fun h1 h2 => ?_)
    simp only [cmpEq_of_agrees (h h1 h2)]
  case cmpNe =>
    simp only [execCommon]
    refine congrArg Except.ok (alu_congr vm rd rs1 rs2 fun h1 h2 => ?_)
    simp only [cmpEq_of_agrees (h h1 h2)]
  case streq =>
    simp only [execCommon]
    refine congrArg Except.ok (alu_congr vm rd rs1 rs2 fun h1 h2 => ?_)
    simp only [strEq_of_agrees (h h1 h2)]
  case arrDef =>
    obtain ⟨hid, hfit⟩ := h
    have hfit' : arrayBase (Function.update vm.arrayLens rd (rs1 * 256 + rs2)) rd +
        (rs1 * 256 + rs2) ≤ 1024 := by omega
    simp only [execCommon, KernelVM.kernelTables, coreTables, hid, show rd < 16 by omega, hfit,
      hfit', if_true, true_and]
  case structDef | tblDef =>
    have hid : rd < 8 := h
    simp only [execCommon, KernelVM.kernelTables, coreTables, hid, show rd < 16 by omega, if_true]
  case arrLoad =>
    obtain ⟨hid, hsafe⟩ := h
    simp only [execCommon, KernelVM.kernelTables, coreTables, show ¬ 8 ≤ rs1 by omega,
      show ¬ 16 ≤ rs1 by omega, if_false]
    refine ite_congr rfl (fun _ => rfl) fun hin => ite_congr rfl (fun hrd => ?_) fun _ => rfl
    rw [not_or, Int.not_lt, Int.not_le] at hin
    have hslot : _ < 256 := hsafe hrd hid hin.1 hin.2
    simp only [hslot, Nat.lt_trans hslot (show 256 < 1024 by decide), if_true]
  case arrStore =>
    obtain ⟨hid, hsafe⟩ := h
    simp only [execCommon, KernelVM.kernelTables, coreTables, show ¬ 8 ≤ rd by omega,
      show ¬ 16 ≤ rd by omega, if_false]
    refine ite_congr rfl (fun _ => rfl) fun hin => ?_
    rw [not_or, Int.not_lt, Int.not_le] at hin
    have hslot : _ < 256 := hsafe hid hin.1 hin.2
    simp only [hslot, Nat.lt_trans hslot (show 256 < 1024 by decide), if_true]
  case structLoad =>
    obtain ⟨hid, hsafe⟩ := h
    simp only [execCommon, KernelVM.kernelTables, coreTables, show ¬ 8 ≤ rs1 by omega,
      show ¬ 16 ≤ rs1 by omega, false_or]
    refine ite_congr rfl (fun _ => rfl) fun hin => ?_
    have hslot : _ < 256 := hsafe hid (Nat.not_le.mp hin)
    simp only [hslot, Nat.lt_trans hslot (show 256 < 1024 by decide), if_true]
  case structStore =>
    obtain ⟨hid, hsafe⟩ := h
    simp only [execCommon, KernelVM.kernelTables, coreTables, show ¬ 8 ≤ rd by omega,
      show ¬ 16 ≤ rd by omega, false_or]
    refine ite_congr rfl (fun _ => rfl) fun hin => ?_
    have hslot : _ < 256 := hsafe hid (Nat.not_le.mp hin)
    simp only [hslot, Nat.lt_trans hslot (show 256 < 1024 by decide), if_true]
  all_goals simp only [execCommon]

end PX64VM

/-! ## One step -/

namespace KernelVM

/-- The kernel state runs the host state's machine, and is not waiting. -/
structure Mirrors (c : PX64VM) (k : KernelVM) : Prop where
  vm : ∃ a, k.vm = c.setAsked a
  spinUntil : k.spinUntil = none

/-- The machine runs with the common step limit, and its arguments fit the kernel's
table. -/
structure FitsKernel (c : PX64VM) : Prop where
  maxSteps : c.maxSteps = maxVmSteps
  args_length : c.args.length ≤ 8
  args_utf8 : ∀ s ∈ c.args, validUtf8 s

/-- The same end and the same output. -/
def SameEnd (r : Stop × PX64VM) (r' : Stop × KernelVM) : Prop :=
  r'.1 = r.1 ∧ r'.2.vm.output = r.2.output

/-- The kernel's watchdog fired. -/
def TimedOut {σ : Type} (r : Stop × σ) : Prop :=
  ∃ e, r.1 = .error e ∧ e.code = "ERR_PX64_TIMEOUT_EXCEEDED"

/-- The outcomes of one step of the two machines agree. -/
abbrev StepAgree : Except (Stop × PX64VM) PX64VM → Except (Stop × KernelVM) KernelVM → Prop :=
  Machine.Agree Mirrors SameEnd TimedOut

variable {host : Host} {khost : KernelHost} {c : PX64VM} {k : KernelVM}

/-- A normal end, in both machines. -/
theorem finish_agrees (h : Mirrors c k) (hsteps : c.steps < maxVmSteps) :
    StepAgree (.error (.ok, c)) (k.finish khost) := by
  obtain ⟨⟨a, hk⟩, _⟩ := h
  have hlim : ¬ maxVmSteps ≤ k.tick.vm.steps := by
    change ¬ maxVmSteps ≤ k.vm.steps
    rw [hk]
    exact Nat.not_le.mpr hsteps
  simp only [finish, hlim, if_false]
  split
  · exact .gaveUp ⟨_, rfl, rfl⟩
  · refine .error ⟨rfl, ?_⟩
    change k.vm.output = c.output
    rw [hk]
    rfl

theorem strLength_lt (v : Word64) : PX64VM.strLength v < 2 ^ 32 := by
  have h : (v &&& 0xFFFFFFFF#64).toNat ≤ (0xFFFFFFFF#64).toNat := by
    rw [BitVec.toNat_and]
    exact Nat.and_le_right
  exact Nat.lt_of_le_of_lt h (by decide)

theorem strOffset_lt (v : Word64) : PX64VM.strOffset v < 2 ^ 32 := by
  have h := (v &&& ~~~strTag).isLt
  unfold PX64VM.strOffset
  rw [BitVec.toNat_ushiftRight, Nat.shiftRight_eq_div_pow]
  omega

/-- The kernel's string text, for a word that is not negative. -/
theorem strText_eq (k : KernelVM) {v : Word64} (hv : v.msb = false) :
    k.strText khost v =
      .ok ((k.vm.poolSlice (PX64VM.strOffset v) (PX64VM.strLength v)).filter validUtf8) := by
  have hraw : (v &&& ~~~strTag).msb = false := by
    rw [BitVec.msb_and, hv, Bool.false_and]
  have hoff : ((v &&& ~~~strTag).sshiftRight 32).toNat = PX64VM.strOffset v := by
    rw [BitVec.sshiftRight_eq_of_msb_false hraw]
    rfl
  have hsum : PX64VM.strOffset v + PX64VM.strLength v < 2 ^ 64 := by
    have h1 := strLength_lt v
    have h2 := strOffset_lt v
    omega
  simp only [strText, hoff, PX64VM.strLength_raw, Nat.not_le.mpr hsum, and_false, if_false,
    Nat.mod_eq_of_lt hsum, PX64VM.poolSlice]
  split
  · simp only [Option.filter]
  · rfl

theorem printText_of_str {v : Word64} (ha : ¬ hasTag v argTag) (hs : hasTag v strTag) :
    c.printText v =
      ((c.poolSlice (PX64VM.strOffset v) (PX64VM.strLength v)).filter validUtf8).getD [] := by
  have hoff : ((v &&& ~~~strTag) >>> 32).toNat = PX64VM.strOffset v := rfl
  simp only [PX64VM.printText, ha, hs, if_true, PX64VM.strLength_raw, hoff]
  cases c.poolSlice (PX64VM.strOffset v) (PX64VM.strLength v) with
  | none => rfl
  | some s => by_cases hu : validUtf8 s <;> simp [Option.filter, hu]

theorem argText_eq (hargs : ∀ s ∈ c.args, validUtf8 s) {a : ℕ} (hk : k.vm = c.setAsked a)
    (v : Word64) : k.argText v = c.args[(v &&& 0xFF#64).toNat]? := by
  have hvm : k.vm.args = c.args := by
    rw [hk]
    rfl
  unfold argText
  rw [hvm]
  cases h : c.args[(v &&& 0xFF#64).toNat]? with
  | none => rfl
  | some s => simp [hargs s (List.mem_of_getElem? h)]

/-- `@print` writes the same bytes. -/
theorem print_agrees (hargs : ∀ s ∈ c.args, validUtf8 s) {a : ℕ} (hk : k.vm = c.setAsked a)
    {v : Word64} (h : PX64VM.PrintAgrees v) : k.print khost v = .ok (c.printText v) := by
  unfold print
  by_cases ha : hasTag v argTag
  · simp [ha, argText_eq hargs hk, PX64VM.printText]
  · by_cases hs : hasTag v strTag
    · simp only [ha, hs, if_true, strText_eq k (h ha hs), printText_of_str ha hs, hk]
      rfl
    · simp [ha, hs, PX64VM.printText]

/-- `@println` writes the same bytes. -/
theorem println_agrees (hargs : ∀ s ∈ c.args, validUtf8 s) {a : ℕ} (hk : k.vm = c.setAsked a)
    (argReg : ℕ) {v : Word64} (h : c.PrintlnAgrees v) :
    k.println khost argReg v = .ok (c.printlnText argReg v) := by
  obtain ⟨hmsb, harg, hstr⟩ := h
  unfold println PX64VM.printlnText
  by_cases ha : hasTag v argTag
  · obtain ⟨s, hs⟩ : ∃ s, c.args[(v &&& 0xFF#64).toNat]? = some s :=
      ⟨_, List.getElem?_eq_getElem (harg ha)⟩
    simp only [ha, argText_eq hargs hk, PX64VM.printText, hs, if_true, Bool.true_or]
    rfl
  · by_cases hs : hasTag v strTag
    · obtain ⟨hle, hu⟩ := hstr ha hs
      have hslice : c.poolSlice (PX64VM.strOffset v) (PX64VM.strLength v) =
          some ((c.strPool.drop (PX64VM.strOffset v)).take (PX64VM.strLength v)) := if_pos hle
      have hslice' : k.vm.poolSlice (PX64VM.strOffset v) (PX64VM.strLength v) =
          some ((c.strPool.drop (PX64VM.strOffset v)).take (PX64VM.strLength v)) := hk ▸ hslice
      simp [ha, hs, strText_eq k (hmsb ha hs), printText_of_str ha hs, hslice, hslice', hu,
        Option.filter, bind, Except.bind]
    · simp [ha, hs]
      split <;> rfl

theorem scriptArg_agrees (hlen : c.args.length ≤ 8) {v : Word64}
    (h : 0 ≤ v.toInt → v.toNat < 8 → v.toNat < c.args.length) :
    (0 ≤ v.toInt ∧ v.toNat < c.args.length ∧ v.toNat < 256) ↔ 0 ≤ v.toInt ∧ v.toNat < 8 := by
  constructor
  · rintro ⟨h1, h2, _⟩
    exact ⟨h1, by omega⟩
  · rintro ⟨h1, h2⟩
    exact ⟨h1, h h1 h2, by omega⟩

/-- The state of a failure with another count of questions asked. -/
def askedError (a : ℕ) (r : Stop × PX64VM) : Stop × PX64VM := (r.1, r.2.setAsked a)

theorem mapError_bind {α β ε ε' : Type} (g : ε → ε') (x : Except ε α) (f : α → Except ε β) :
    (x >>= f).mapError g = x.mapError g >>= fun v => (f v).mapError g := by
  cases x <;> rfl

theorem mapError_ite {α ε ε' : Type} (g : ε → ε') (p : Prop) [Decidable p] (x y : Except ε α) :
    (if p then x else y).mapError g = if p then x.mapError g else y.mapError g := by
  split <;> rfl

theorem argBelow_setAsked (c : PX64VM) (a argReg n : ℕ) (d : Word64) :
    (c.setAsked a).argBelow argReg n d = (c.argBelow argReg n d).mapError (askedError a) := by
  simp only [PX64VM.argBelow, mapError_ite]
  rfl

/-- The shared natives do not look at the count of questions. -/
theorem callNativeCommon_setAsked (c : PX64VM) (a : ℕ) (f : Native) (argReg : ℕ) (v : Word64) :
    (c.setAsked a).callNativeCommon f argReg v =
      (c.callNativeCommon f argReg v).mapError (askedError a) := by
  cases f <;>
    simp only [PX64VM.callNativeCommon, mapError_bind, mapError_ite, argBelow_setAsked]
  all_goals rfl

theorem Mirrors.tick (h : Mirrors c k) : Mirrors c k.tick := by
  obtain ⟨⟨a, hk⟩, hspin⟩ := h
  exact ⟨⟨a + 1, by simp only [KernelVM.tick, update_vm, hk]; rfl⟩, hspin⟩

theorem Mirrors.setReg (h : Mirrors c k) (rd : ℕ) (v : Word64) :
    Mirrors (c.setReg rd v) (k.update (k.vm.setReg rd v)) := by
  obtain ⟨⟨a, hk⟩, hspin⟩ := h
  exact ⟨⟨a, by rw [update_vm, hk, PX64VM.setAsked_setReg]⟩, hspin⟩

theorem Mirrors.write (h : Mirrors c k) (text : List UInt8) :
    Mirrors (c.write text) (k.write text) := by
  obtain ⟨⟨a, hk⟩, hspin⟩ := h
  exact ⟨⟨a, by rw [KernelVM.write, update_vm, hk]; rfl⟩, hspin⟩

theorem Mirrors.creditTimeout (h : Mirrors c k) (start : Word64) :
    Mirrors c (k.creditTimeout khost start) := by
  obtain ⟨hvm, hspin⟩ := h.tick
  exact ⟨hvm, hspin⟩

/-- The outcomes of one native call agree. -/
theorem callNative_agrees (hfit : FitsKernel c) (h : Mirrors c k) {f : Native} (argReg rd : ℕ)
    {v : Word64} (hn : c.NativeAgrees f v) :
    StepAgree
      (match c.callNative host f argReg v with
        | .ok (ret, vm') => .ok (vm'.setReg rd ret)
        | .error r => .error r)
      (do
        let (ret, k') ← k.callNative khost f argReg v
        .ok (k'.update (k'.vm.setReg rd ret))) := by
  have ht := h.tick
  obtain ⟨a, hk⟩ := ht.vm
  by_cases hc : f ∈ PX64VM.commonNatives
  · rw [PX64VM.callNative_common host c hc, callNative_common khost k hc, hk,
      callNativeCommon_setAsked]
    cases c.callNativeCommon f argReg v with
    | ok w => exact .ok (ht.setReg rd w)
    | error r => exact .error ⟨rfl, rfl⟩
  · cases f
    case print =>
      simp only [PX64VM.callNative, callNative, print_agrees hfit.args_utf8 hk hn]
      exact .ok (((ht.write _).creditTimeout _).setReg rd _)
    case println =>
      simp only [PX64VM.callNative, callNative, println_agrees hfit.args_utf8 hk argReg hn]
      exact .ok (((ht.write _).creditTimeout _).setReg rd _)
    case scriptArg =>
      simp only [PX64VM.callNative, callNative, scriptArg_agrees hfit.args_length hn]
      exact .ok (ht.setReg rd _)
    all_goals exact absurd hn hc

/-- The outcomes of one instruction agree. -/
theorem exec_agrees (hfit : FitsKernel c) (h : Mirrors c k) {op : Opcode} {rd rs1 rs2 : ℕ}
    (hag : c.AgreesInstr op rd rs1 rs2) :
    StepAgree (c.exec host op rd rs1 rs2) (k.exec khost op rd rs1 rs2) := by
  obtain ⟨a, hk⟩ := h.vm
  by_cases hop : op ∈ PX64VM.ownOps
  · cases op
    case halt => exact finish_agrees h hag
    case ret =>
      simp only [PX64VM.exec, exec, hk, PX64VM.setAsked_callSp]
      by_cases h0 : c.callSp = 0
      · simp only [h0, if_true]
        exact finish_agrees h (hag h0)
      · simp only [h0, if_false]
        exact .ok ⟨⟨a, rfl⟩, h.spinUntil⟩
    case tblLoad =>
      obtain ⟨hid, hpool⟩ := hag
      simp only [PX64VM.exec, exec, hk, PX64VM.setAsked_regOr, PX64VM.setAsked_tableLens,
        PX64VM.setAsked_tableBases, PX64VM.setAsked_constPool, show ¬ 8 ≤ rs1 by omega,
        show ¬ 16 ≤ rs1 by omega, if_false]
      by_cases hin : (c.regOr rs2 (-1#64)).toInt < 0 ∨
          (c.tableLens rs1 : Int) ≤ (c.regOr rs2 (-1#64)).toInt
      · simp only [hin, if_true]
        exact .error ⟨rfl, by rw [hk]; rfl⟩
      · simp only [hin, if_false]
        rw [not_or, Int.not_lt, Int.not_le] at hin
        rw [List.getElem?_eq_getElem (hpool hin.1 hin.2)]
        exact .ok (hk ▸ h.setReg rd _)
    case callNat =>
      simp only [PX64VM.exec, exec, hk, PX64VM.setAsked_regOr]
      cases hf : Native.ofId? rs1 with
      | none => exact .ok (h.tick.setReg rd _)
      | some f => exact callNative_agrees hfit h rs2 rd (hag f hf)
    case withinStart => exact hag.elim
    case drop => exact hag.elim
    all_goals exact absurd hop (by decide)
  · rw [PX64VM.exec_common host c hop, exec_common khost k hop, hk,
      PX64VM.execCommon_setAsked]
    change StepAgree _ (do
      let vm ← k.lift (PX64VM.askedOutcome a
        (c.execCommon kernelTables (getStrBytes c) op rd rs1 rs2))
      .ok (k.update vm))
    rw [PX64VM.execCommon_agrees hag]
    cases c.execCommon PX64VM.coreTables c.getStrBytes op rd rs1 rs2 with
    | ok vm => exact .ok ⟨⟨a, rfl⟩, h.spinUntil⟩
    | error r => exact .error ⟨rfl, rfl⟩

/-- The outcomes of one step agree. -/
theorem step_agrees (hfit : FitsKernel c) (h : Mirrors c k) (hag : c.AgreesStep) :
    StepAgree (c.step host) (k.step khost) := by
  obtain ⟨a, hk⟩ := h.vm
  have hout : k.vm.output = c.output := by rw [hk]; rfl
  simp only [step, h.spinUntil]
  have hlen : k.vm.ip + 4 ≤ k.vm.code.length ↔ c.ip + 4 ≤ c.code.length := by rw [hk]; rfl
  by_cases hip : c.ip + 4 ≤ c.code.length
  · simp only [PX64VM.step, hlen, hip, if_true, fetch]
    by_cases htime : k.tick.timeoutTsc < k.readTsc khost
    · simp only [htime, if_true]
      exact .gaveUp ⟨_, rfl, rfl⟩
    · simp only [htime, if_false]
      have hlim : maxVmSteps ≤ k.tick.vm.steps ↔ c.maxSteps ≤ c.steps := by
        change maxVmSteps ≤ k.vm.steps ↔ _
        rw [hk, hfit.maxSteps]
        rfl
      have hbyte : ∀ i, byteAt k.tick.vm.code (k.tick.vm.ip + i) = byteAt c.code (c.ip + i) := by
        intro i
        change byteAt k.vm.code (k.vm.ip + i) = _
        rw [hk]
        rfl
      by_cases hmax : c.maxSteps ≤ c.steps
      · simp only [hlim, hmax, if_true]
        exact .error ⟨rfl, hout⟩
      · simp only [hlim, hmax, if_false, hbyte]
        have hop0 : byteAt k.tick.vm.code k.tick.vm.ip = byteAt c.code c.ip := hbyte 0
        rw [hop0]
        cases hop : Opcode.ofCode? (byteAt c.code c.ip) with
        | none => exact .error ⟨rfl, hout⟩
        | some op =>
          have hfit' : FitsKernel c.advance := ⟨hfit.maxSteps, hfit.args_length, hfit.args_utf8⟩
          have hmir : Mirrors c.advance (k.tick.update k.tick.vm.advance) := by
            refine ⟨⟨a + 1, ?_⟩, h.spinUntil⟩
            simp only [update_vm, tick, hk]
            rfl
          exact exec_agrees hfit' hmir
            (hag.1 op _ _ _ ⟨hip, Nat.not_le.mp hmax, hop, rfl, rfl, rfl⟩)
  · simp only [PX64VM.step, hlen, hip, if_false]
    exact finish_agrees h (hag.2 (Nat.not_le.mp hip))

end KernelVM

/-! ## Whole runs -/

/-- What the host prints and how it ends, for a program already loaded. -/
def runProgram (host : Host) (n : ℕ) (p : Program) (args : List (List UInt8)) :
    Option (Stop × List UInt8) :=
  (PX64VM.runWithOutput host n (p.start args)).map fun r => (r.1, r.2.output)

/-- The arguments the kernel passes on unchanged. -/
def ArgsAgree (args : List (List UInt8)) : Prop :=
  setScriptArgs args = args ∧ ∀ s ∈ args, validUtf8 s

/-- **Host and kernel runs agree** when every state the host reaches agrees on its next
step, unless the kernel's watchdog stops it. -/
theorem runPulseProgram_agrees (host : Host) (khost : KernelHost) {p : Program}
    {args : List (List UInt8)} (hargs : ArgsAgree args)
    (hclock : KernelVM.SafeSum khost (khost.tsc 0)
      (nsToTsc (BitVec.ofNat 64 maxScriptTimeoutNs) khost.tscFreqHz))
    (hsteps : ∀ c, Machine.Reaches (PX64VM.step host) (p.start args) c → c.AgreesStep) (n : ℕ) :
    runPulseProgram khost n p args = runProgram host n p args ∨
      ∃ r, runPulseProgram khost n p args = some r ∧ KernelVM.TimedOut r := by
  have hsum : ¬ (khost.overflowChecks = true ∧ 2 ^ 64 ≤ (khost.tsc 0).toNat +
      (nsToTsc (BitVec.ofNat 64 maxScriptTimeoutNs) khost.tscFreqHz).toNat) := by
    rintro ⟨hchk, hle⟩
    exact absurd (hclock hchk) (by omega)
  have hlen : args.length ≤ 8 := by
    rw [← hargs.1, setScriptArgs, List.length_map, List.length_take]
    exact Nat.min_le_left _ _
  have hfit : ∀ c, Machine.Reaches (PX64VM.step host) (p.start args) c → KernelVM.FitsKernel c := by
    intro c hc
    have hsame := PX64VM.sameProgram_reaches hc
    exact ⟨hsame.maxSteps, hsame.args ▸ hlen, hsame.args ▸ hargs.2⟩
  have hstart : KernelVM.Mirrors (p.start args) (KernelVM.start khost p args) := by
    refine ⟨⟨1, ?_⟩, rfl⟩
    rw [KernelVM.start, hargs.1]
    rfl
  simp only [runPulseProgram, if_neg hsum, runProgram, PX64VM.runWithOutput]
  rcases Machine.run_lockStep
    (fun c k hc hk => KernelVM.step_agrees (hfit c hc) hk (hsteps c hc)) hstart n with
    ⟨r', hr', hT⟩ | ⟨h₁, h₂⟩ | ⟨r, r', h₁, h₂, hstop, hout⟩
  · exact .inr ⟨(r'.1, r'.2.vm.output), by rw [hr']; rfl, hT⟩
  · exact .inl (by rw [h₁, h₂]; rfl)
  · exact .inl (by rw [h₁, h₂]; simp [hstop, hout])

end LatencyOS
