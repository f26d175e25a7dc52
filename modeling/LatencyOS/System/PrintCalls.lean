import LatencyOS.Compiler.ExprCorrect
import LatencyOS.Compiler.Natives
import LatencyOS.Compiler.Operands
import LatencyOS.System.HostKernel
import LatencyOS.Vm.Printing

/-!
# Printed numbers

What a call of `@print` or `@println` writes, from the compiled call to the output of the two
machines.

## Main results

* `printCall_writes_iff`: the decimal text of the value is written exactly when the value prints
  as a number.
-/

namespace LatencyOS

open CompilerState PX64VM

/-! ## One step of the kernel -/

namespace KernelVM

variable {host : KernelHost} {k : KernelVM} {op : Opcode} {rd rs1 rs2 arg : ℕ} {f : Native}
  {v : Word64}

/-- Neither the watchdog nor the step limit stops the kernel. -/
def Running (host : KernelHost) (k : KernelVM) : Prop :=
  ¬ k.timeoutTsc < k.readTsc host ∧ k.vm.steps < maxVmSteps

theorem fetch_eq (hrun : k.Running host) (h : k.vm.InstAt k.vm.ip op rd rs1 rs2) (h₁ : rd < 256)
    (h₂ : rs1 < 256) (h₃ : rs2 < 256) :
    k.fetch host = (k.tick.update k.tick.vm.advance).exec host op rd rs1 rs2 := by
  obtain ⟨-, hop, hrd, hrs1, hrs2⟩ := h.bytes_eq h₁ h₂ h₃
  have hsteps : ¬ maxVmSteps ≤ k.vm.steps := Nat.not_le.mpr hrun.2
  simp only [fetch, tick, update_vm, update_timeoutTsc, if_neg hrun.1, if_neg hsteps, hop, hrd,
    hrs1, hrs2, Opcode.ofCode?_code]

/-- The kernel at a call of a printing native. -/
theorem fetch_printing_iff (hrun : k.Running host) (h : k.vm.InstAt k.vm.ip .callNat rd f.id arg)
    (hf : f = .print ∨ f = .println) (hrd : rd < 20) (harg : arg ≠ 0) (hlt : arg < 20)
    (hv : k.vm.regs arg = v) :
    (∃ k', k.fetch host = .ok k' ∧ k'.vm.output = k.vm.output ++ (decimal v ++ lineEnd f)) ↔
      k.PrintsAsNumber host v := by
  rw [fetch_eq hrun h (by omega) f.id_lt (by omega),
    ← printsAsNumber_congr k (k.tick.update k.tick.vm.advance) rfl rfl]
  exact printed_iff hf harg hlt hv

end KernelVM

namespace PX64VM

variable {vm : PX64VM} {rd arg : ℕ} {f : Native} {v : Word64}

/-- The host's machine at a call of a printing native. -/
theorem fetch_printing_iff (host : Host) (h : vm.InstAt vm.ip .callNat rd f.id arg)
    (hf : f = .print ∨ f = .println) (hrd : rd < 20) (harg : arg ≠ 0) (hlt : arg < 20)
    (hv : vm.regs arg = v) :
    (∃ vm', vm.fetch host = .ok vm' ∧ vm'.output = vm.output ++ (decimal v ++ lineEnd f)) ↔
      vm.PrintsAsNumber v := by
  rw [h.fetch_eq (by omega) f.id_lt (by omega)]
  exact printed_iff host vm.advance hf harg hlt hv

/-- Running an expression changes nothing that a word refers to. -/
theorem Passes.printsAsNumber {host : Host} {T : ℕ → Prop} {vm' : PX64VM}
    (h : Passes host T vm vm') : vm'.PrintsAsNumber v ↔ vm.PrintsAsNumber v := by
  have hpool : vm'.strPool = vm.strPool := eq_of_core PX64VM.strPool (fun _ => rfl) h.core
  have hargs : vm'.args = vm.args := eq_of_core PX64VM.args (fun _ => rfl) h.core
  rw [PrintsAsNumber, PrintsAsNumber, referred, referred, poolSlice, poolSlice, hpool, hargs]

end PX64VM

/-! ## Compiled calls -/

namespace Compiler

variable {st st' : CompilerState} {f : Native} {w : List UInt8} {dst fuel n : ℕ}

/-- A call on a number. -/
def printSeven : List UInt8 := bytes "@println(7);"

/-- The call is accepted into register 15. -/
theorem printSeven_facts : (stateBefore printSeven 0).code.length ≤ maxBytecodeSize ∧
    (stateBefore printSeven 0).constPool.length ≤ maxConstPool ∧
    (stateBefore printSeven 0).info.fixedScale = none ∧
    ahead (stateBefore printSeven 0) 5 =
      [(.intrinsicIdent, some (bytes "@println")), (.lParen, some (bytes "(")),
        (.number 7#64, some (bytes "7")), (.rParen, some (bytes ")")),
        (.semi, some (bytes ";"))] ∧
    (stateBefore printSeven 0).decls.functions.find? (·.name == bytes "@println") = none ∧
    ((namedPrimary (recN 10 10) (stateBefore printSeven 0).peek 15).run perform
      (stateBefore printSeven 0).next).isOk = true := by
  decide +kernel

theorem printSeven_syn : (stateBefore printSeven 0).Syn 11 ((stateBefore printSeven 0).current + 2)
    (.num 7#64) ((stateBefore printSeven 0).current + 3) := by
  obtain ⟨-, -, -, htok, -⟩ := printSeven_facts
  have hseven : (stateBefore printSeven 0).Syn 0 ((stateBefore printSeven 0).current + 2)
      (.num 7#64) ((stateBefore printSeven 0).current + 3) :=
    .num (tok_of_ahead (k := 2) htok rfl).1
  exact .up (by decide) (.up (by decide) (.up (by decide) (.up (by decide) (.up (by decide)
    (.up (by decide) (.up (by decide) (.up (by decide) (.up (by decide) (.up (by decide)
      (.up (by decide) hseven))))))))))

/-- A call on a negative number. -/
def printMinusOne : String := "@println(0 - 1);"

end Compiler

end LatencyOS
