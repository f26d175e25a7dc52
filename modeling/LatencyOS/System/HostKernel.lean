import LatencyOS.System.Roundtrip
import LatencyOS.Vm.Agreement
import LatencyOS.Vm.Storage

/-!
# Compiled programs on the host and in the kernel

A source is compiled once and its container is run by two interpreters.  They print the same
bytes and end the same way as long as every state of the host's run stays inside what the
kernel implements alike; a string intrinsic that the kernel does not have is enough to tell
them apart.
-/

namespace LatencyOS

instance decidableNativeAgrees (vm : PX64VM) (f : Native) (v : Word64) :
    Decidable (vm.NativeAgrees f v) := by
  unfold PX64VM.NativeAgrees PX64VM.PrintlnAgrees PX64VM.PrintAgrees
  split <;> infer_instance

instance decidableAgreesInstr (vm : PX64VM) (op : Opcode) (rd rs1 rs2 : ℕ) :
    Decidable (vm.AgreesInstr op rd rs1 rs2) := by
  have hnative : Decidable
      (∀ f, Native.ofId? rs1 = some f → vm.NativeAgrees f (vm.regOr rs2 0#64)) :=
    inferInstanceAs (Decidable (∀ f ∈ Native.ofId? rs1, vm.NativeAgrees f (vm.regOr rs2 0#64)))
  unfold PX64VM.AgreesInstr PX64VM.SafeTables PX64VM.SafeElement PX64VM.SafeField
    PX64VM.TaggedAgrees PX64VM.CompareAgrees PX64VM.StrAgrees
  cases op <;> infer_instance

instance decidableAgreesStep (vm : PX64VM) : Decidable vm.AgreesStep :=
  inferInstanceAs (Decidable (_ ∧ _))

/-- The kernel's loader gives back the program that was encoded. -/
theorem loadPulseBinary_toBinary {p : Program} (h : p.Encodable) :
    loadPulseBinary p.toBinary = .ok p := by
  have hcount : headerField p.toBinary 10 = p.constPool.length := by
    rw [Program.toBinary_eq]
    exact (Program.headed_append h _).constPool
  unfold loadPulseBinary
  rw [Program.loadBinary_toBinary h, hcount]
  exact if_neg (Nat.not_lt.mpr h.constPool)

/-- A host whose questions all have the same answer. -/
def stillHost : Host := ⟨fun _ => 0, fun _ => 0, fun _ => 0, fun _ _ => false, fun _ _ _ => false⟩

/-- A kernel whose clock stands still. -/
def stillKernel : KernelHost where
  tsc := fun _ => 0
  tscFreqHz := 2500000000#64
  lastRtt := fun _ => 0
  lapicId := 0
  ringLen := fun _ _ => 0
  slotData := fun _ _ _ => 0
  overflowChecks := true

/-- The program of a source, or nothing. -/
def compiled (src : String) : Program :=
  match compileSource true 60 (bytes src) with
  | .ok p => p
  | .error _ => ⟨[], [], []⟩

/-- The container of a source, or nothing. -/
def container (src : String) : List UInt8 :=
  match compilePulseToBinary true 60 (bytes src) 8192 with
  | .ok bin => bin
  | .error _ => []

/-- A source with a string intrinsic. -/
def strLenSource : String := "@println(@str_len(\"abc\"));"

/-- A source that stays inside what both machines do alike. -/
def productSource : String := "let $x = 6; @println($x * 7);"

/-- **Blocks stay apart in a run that defines them in order**: no slot belongs to two arrays or
to two struct instances, and no step changes an array or an instance that it does not name. -/
theorem blocks_stay_apart (host : Host) (p : Program) (args : List (List UInt8))
    (hord : ∀ c, Machine.Reaches (PX64VM.step host) (p.start args) c → c.OrderedStep) (vm : PX64VM)
    (h : Machine.Reaches (PX64VM.step host) (p.start args) vm) :
    vm.arrays.Apart ∧ vm.structs.Apart ∧
      ∀ vm', vm.step host = .ok vm' → PX64VM.KeepsOthers vm vm' := by
  have hw := PX64VM.stored_reaches hord h
  refine ⟨hw.arrays.apart, hw.structs.apart, fun vm' hs => ?_⟩
  exact (PX64VM.stored_step hw (hord vm h) hs).2

instance decidableOrderedInstr (vm : PX64VM) (op : Opcode) (rd rs1 rs2 : ℕ) :
    Decidable (vm.OrderedInstr op rd rs1 rs2) := by
  unfold PX64VM.OrderedInstr PX64VM.InOrder
  cases op <;> infer_instance

instance decidableOrderedStep (vm : PX64VM) : Decidable vm.OrderedStep :=
  inferInstanceAs (Decidable (∀ op rd rs1 rs2, vm.Fetches op rd rs1 rs2 →
    vm.OrderedInstr op rd rs1 rs2))

/-- A state of the run of a source. -/
def stateAfter (src : String) (n : ℕ) : PX64VM :=
  match Machine.iter (PX64VM.step stillHost) n ((compiled src).start []) with
  | .ok vm => vm
  | .error r => r.2

theorem reaches_stateAfter {src : String} {n : ℕ}
    (h : (Machine.iter (PX64VM.step stillHost) n ((compiled src).start [])).isOk = true) :
    Machine.Reaches (PX64VM.step stillHost) ((compiled src).start []) (stateAfter src n) := by
  refine ⟨n, ?_⟩
  unfold stateAfter
  cases hiter : Machine.iter (PX64VM.step stillHost) n ((compiled src).start []) with
  | ok vm => rfl
  | error r =>
    rw [hiter] at h
    cases h

/-- An array of a function and an array of the main program. -/
def lateArraySource : String :=
  "fn f() \x7b let $a: [i64; 4]; return 0; \x7d let $b: [i64; 4]; $b[0] = 7; f(); @println($b[0]);"

/-- Calling the function places its array on the array of the main program and clears it. -/
theorem lateArray_overlaps :
    compileSource true 60 (bytes lateArraySource) = .ok (compiled lateArraySource) ∧
      ∃ vm, Machine.Reaches (PX64VM.step stillHost) ((compiled lateArraySource).start []) vm ∧
        vm.arrays.Holds 0 0 ∧ vm.arrays.Holds 1 0 ∧ ¬ vm.arrays.Apart := by
  refine ⟨by decide +kernel, stateAfter lateArraySource 8,
    reaches_stateAfter (by decide +kernel), ?_⟩
  have h₀ : (stateAfter lateArraySource 8).arrays.Holds 0 0 := by
    unfold Layout.Holds
    decide +kernel
  have h₁ : (stateAfter lateArraySource 8).arrays.Holds 1 0 := by
    unfold Layout.Holds
    decide +kernel
  exact ⟨h₀, h₁, fun hapart => hapart 0 1 0 (by decide) h₀ h₁⟩

/-- Two arrays defined in the order of their ids. -/
def twoArraysSource : String :=
  "let $a: [i64; 4]; let $b: [i64; 3]; $a[3] = 5; $b[0] = 7; @println($a[3]);"

theorem twoArrays_stay_apart :
    (stateAfter twoArraysSource 8).arrays.Holds 0 3 ∧
      (stateAfter twoArraysSource 8).arrays.Holds 1 4 ∧
      (stateAfter twoArraysSource 8).arrays.Apart := by
  have hord : Machine.allAlong (PX64VM.step stillHost) (fun c => decide c.OrderedStep) 40
      ((compiled twoArraysSource).start []) = true := by decide +kernel
  have hreach : Machine.Reaches (PX64VM.step stillHost) ((compiled twoArraysSource).start [])
      (stateAfter twoArraysSource 8) := reaches_stateAfter (by decide +kernel)
  have hapart := blocks_stay_apart stillHost (compiled twoArraysSource) []
    (fun c hc => of_decide_eq_true (Machine.forall_of_allAlong _ hord c hc)) _ hreach
  refine ⟨?_, ?_, hapart.1⟩
  · unfold Layout.Holds
    decide +kernel
  · unfold Layout.Holds
    decide +kernel

end LatencyOS
