import LatencyOS.Vm.Agreement
import LatencyOS.Vm.Exec

/-!
# Printing a word

`@print` and `@println` look at two bits of the word to decide between an argument, a string and
a number.  A number with one of these bits set is taken for a reference.

## Main definitions

* `Untagged`: a word without these bits.
* `PX64VM.PrintsAsNumber`, `KernelVM.PrintsAsNumber`: a word is untagged, or the text it is taken
  for reads like the number.

## Main results

* `PX64VM.printed_iff`, `KernelVM.printed_iff`: a call of `@print` or `@println` writes the
  decimal text of the word exactly when the word prints as a number.
-/

namespace LatencyOS

variable {v : Word64} {f : Native} {rd arg : ℕ}

/-- A word without the bits that printing looks at. -/
def Untagged (v : Word64) : Prop := hasTag v argTag = false ∧ hasTag v strTag = false

instance (v : Word64) : Decidable (Untagged v) := inferInstanceAs (Decidable (_ ∧ _))

/-- What the printing natives write behind the text. -/
def lineEnd : Native → List UInt8
  | .println => bytes "\n"
  | _ => []

theorem bytes_ne_nil {s : String} (h : s ≠ "") : bytes s ≠ [] := by
  intro hnil
  exact h (String.toByteArray_inj.mp (ByteArray.ext (Array.toList_inj.mp hnil)))

theorem decimal_ne_nil (v : Word64) : decimal v ≠ [] := by
  refine bytes_ne_nil ?_
  change v.toInt.repr ≠ ""
  rw [Int.repr_eq_if]
  split
  · exact Nat.repr_ne_empty
  · intro h
    have := congrArg String.length h
    simp at this

/-- A text that may be missing is a certain one only if it is there. -/
theorem getD_nil_eq_iff {o : Option (List UInt8)} {s : List UInt8} (hs : s ≠ []) :
    o.getD [] = s ↔ o = some s := by
  cases o with
  | none => exact iff_of_false (fun h => hs h.symm) (fun h => by cases h)
  | some t => rw [Option.getD_some, Option.some.injEq]

/-- Either the number is printed, or what the word refers to. -/
theorem cases_printed (v : Word64) :
    hasTag v argTag = true ∨ (hasTag v argTag = false ∧ hasTag v strTag = true) ∨ Untagged v := by
  cases ha : hasTag v argTag
  · cases hs : hasTag v strTag
    · exact .inr (.inr ⟨ha, hs⟩)
    · exact .inr (.inl ⟨rfl, rfl⟩)
  · exact .inl rfl

namespace PX64VM

/-- The text a tagged word is taken for. -/
def referred (vm : PX64VM) (v : Word64) : Option (List UInt8) :=
  if hasTag v argTag then vm.args[(v &&& 0xFF#64).toNat]?
  else if hasTag v strTag then (vm.poolSlice (strOffset v) (strLength v)).filter validUtf8
  else none

/-- A word is untagged, or the text it is taken for reads like the number. -/
def PrintsAsNumber (vm : PX64VM) (v : Word64) : Prop :=
  Untagged v ∨ vm.referred v = some (decimal v)

theorem printText_of_untagged (vm : PX64VM) (hv : Untagged v) : vm.printText v = decimal v := by
  rw [printText, hv.1, hv.2]
  rfl

theorem printText_of_tagged (vm : PX64VM) (hv : ¬ Untagged v) :
    vm.printText v = (vm.referred v).getD [] := by
  rcases cases_printed v with ha | ⟨ha, hs⟩ | h
  · rw [printText, referred, ha, if_pos rfl, if_pos rfl]
  · rw [KernelVM.printText_of_str (by rw [ha]; exact Bool.false_ne_true) hs, referred, ha, hs,
      if_neg Bool.false_ne_true, if_pos rfl]
  · exact absurd h hv

theorem printText_eq_iff (vm : PX64VM) : vm.printText v = decimal v ↔ vm.PrintsAsNumber v := by
  by_cases hv : Untagged v
  · exact iff_of_true (vm.printText_of_untagged hv) (.inl hv)
  · rw [vm.printText_of_tagged hv, getD_nil_eq_iff (decimal_ne_nil v), PrintsAsNumber,
      or_iff_right hv]

/-- Only a missing argument, in register 0, could be mistaken for the number zero. -/
theorem printlnText_eq (vm : PX64VM) (harg : arg ≠ 0) :
    vm.printlnText arg v = vm.printText v ++ bytes "\n" := by
  rcases cases_printed v with ha | ⟨-, hs⟩ | h
  · rw [printlnText, ha, Bool.true_or, if_pos rfl]
  · rw [printlnText, hs, Bool.or_true, if_pos rfl]
  · rw [vm.printText_of_untagged h, printlnText, h.1, h.2, Bool.or_self,
      if_neg Bool.false_ne_true, if_pos (.inl harg)]

/-- A call of a printing native appends its text. -/
theorem exec_printing (host : Host) (vm : PX64VM) (hf : f = .print ∨ f = .println)
    (harg : arg ≠ 0) (hlt : arg < 20) :
    vm.exec host .callNat rd f.id arg =
      .ok ((vm.write (vm.printText (vm.regs arg) ++ lineEnd f)).setReg rd 0#64) := by
  have hreg : vm.regOr arg 0#64 = vm.regs arg := if_pos hlt
  rcases hf with rfl | rfl
  · simp only [exec, Native.ofId?_id, callNative, hreg, lineEnd, List.append_nil]
  · simp only [exec, Native.ofId?_id, callNative, hreg, lineEnd, vm.printlnText_eq harg]

@[simp] theorem output_setReg (vm : PX64VM) (rd : ℕ) (v : Word64) :
    (vm.setReg rd v).output = vm.output := by
  unfold setReg
  split <;> rfl

/-- On the host, a printing native writes the decimal text of the word in its register exactly
when the word prints as a number. -/
theorem printed_iff (host : Host) (vm : PX64VM) (hf : f = .print ∨ f = .println) (harg : arg ≠ 0)
    (hlt : arg < 20) (hv : vm.regs arg = v) :
    (∃ vm', vm.exec host .callNat rd f.id arg = .ok vm' ∧
      vm'.output = vm.output ++ (decimal v ++ lineEnd f)) ↔ vm.PrintsAsNumber v := by
  rw [← vm.printText_eq_iff, vm.exec_printing host hf harg hlt, hv]
  constructor
  · rintro ⟨vm', hok, hout⟩
    obtain rfl := Except.ok.inj hok
    rw [output_setReg] at hout
    exact List.append_cancel_right (List.append_cancel_left hout)
  · intro htext
    refine ⟨_, rfl, ?_⟩
    rw [output_setReg, htext]
    rfl

end PX64VM

namespace KernelVM

/-- The text a tagged word is taken for; an offset out of range may stop the kernel. -/
def referred (host : KernelHost) (k : KernelVM) (v : Word64) : Option (List UInt8) :=
  if hasTag v argTag then k.argText v
  else if hasTag v strTag then (k.strText host v).toOption.join
  else none

/-- A word is untagged, or the text it is taken for reads like the number. -/
def PrintsAsNumber (host : KernelHost) (k : KernelVM) (v : Word64) : Prop :=
  Untagged v ∨ k.referred host v = some (decimal v)

variable {host : KernelHost} {k : KernelVM}

/-- What is written, when nothing stops the kernel: the text with an ending. -/
theorem map_getD_eq_iff {o : Option (List UInt8)} {s e : List UInt8} (hs : s ≠ []) :
    (o.map (· ++ e)).getD [] = s ++ e ↔ o = some s := by
  cases o with
  | none =>
    refine iff_of_false (fun h => hs ?_) (fun h => by cases h)
    exact (List.append_eq_nil_iff.mp h.symm).1
  | some t => rw [Option.map_some, Option.getD_some, List.append_cancel_right_eq, Option.some.injEq]

/-- What a printing native writes. -/
def printed (host : KernelHost) (k : KernelVM) (f : Native) (argReg : ℕ) (v : Word64) :
    Except (Stop × KernelVM) (List UInt8) :=
  match f with
  | .println => k.println host argReg v
  | _ => k.print host v

theorem printed_of_untagged (hf : f = .print ∨ f = .println) (harg : arg ≠ 0) (hv : Untagged v) :
    k.printed host f arg v = .ok (decimal v ++ lineEnd f) := by
  rcases hf with rfl | rfl
  · simp only [printed, print, hv.1, hv.2, lineEnd, List.append_nil, Bool.false_eq_true, if_false]
  · simp only [printed, println, hv.1, hv.2, lineEnd, Bool.false_eq_true, if_false, harg, ne_eq,
      not_false_eq_true, true_or, if_true]

theorem printed_of_arg (hf : f = .print ∨ f = .println) (ha : hasTag v argTag = true) :
    k.printed host f arg v = .ok (((k.argText v).map (· ++ lineEnd f)).getD []) := by
  rcases hf with rfl | rfl
  · simp only [printed, print, ha, if_true, lineEnd, List.append_nil, Option.map_id']
  · simp only [printed, println, ha, if_true, lineEnd]

theorem printed_of_str (hf : f = .print ∨ f = .println) (ha : hasTag v argTag = false)
    (hs : hasTag v strTag = true) :
    k.printed host f arg v =
      (do let t ← k.strText host v; .ok ((t.map (· ++ lineEnd f)).getD [])) := by
  rcases hf with rfl | rfl
  · simp only [printed, print, ha, hs, if_true, lineEnd, List.append_nil, Option.map_id',
      Bool.false_eq_true, if_false]
  · simp only [printed, println, ha, hs, if_true, lineEnd, Bool.false_eq_true, if_false]

theorem printed_eq_iff (hf : f = .print ∨ f = .println) (harg : arg ≠ 0) :
    k.printed host f arg v = .ok (decimal v ++ lineEnd f) ↔ k.PrintsAsNumber host v := by
  rcases cases_printed v with ha | ⟨ha, hs⟩ | hv
  · have hnot : ¬ Untagged v := fun h => Bool.noConfusion (ha.symm.trans h.1)
    rw [printed_of_arg hf ha, Except.ok.injEq, map_getD_eq_iff (decimal_ne_nil v), PrintsAsNumber,
      or_iff_right hnot, referred, ha, if_pos rfl]
  · have hnot : ¬ Untagged v := fun h => Bool.noConfusion (hs.symm.trans h.2)
    rw [printed_of_str hf ha hs, PrintsAsNumber, or_iff_right hnot, referred, ha, hs,
      if_neg Bool.false_ne_true, if_pos rfl]
    cases k.strText host v with
    | error e => exact iff_of_false (fun h => by cases h) (fun h => by cases h)
    | ok t =>
      change Except.ok ((t.map (· ++ lineEnd f)).getD []) = _ ↔ t = some (decimal v)
      rw [Except.ok.injEq, map_getD_eq_iff (decimal_ne_nil v)]
  · exact iff_of_true (printed_of_untagged hf harg hv) (.inl hv)

/-- What a word refers to is decided by the strings and the arguments. -/
theorem printsAsNumber_congr (k k' : KernelVM) (hpool : k'.vm.strPool = k.vm.strPool)
    (hargs : k'.vm.args = k.vm.args) : k'.PrintsAsNumber host v ↔ k.PrintsAsNumber host v := by
  have hstr : (k'.strText host v).toOption = (k.strText host v).toOption := by
    simp only [strText, apply_ite Except.toOption, panicked, hpool]
    rfl
  rw [PrintsAsNumber, PrintsAsNumber, referred, referred, hstr, argText, argText, hargs]

/-- A call of a printing native appends its text; the time it takes is credited. -/
theorem exec_printing (hf : f = .print ∨ f = .println) (hlt : arg < 20) :
    k.exec host .callNat rd f.id arg = (do
      let t ← k.tick.printed host f arg (k.vm.regs arg)
      let k' := creditTimeout host (k.readTsc host) (k.tick.write t)
      .ok (k'.update (k'.vm.setReg rd 0#64))) := by
  have hreg : k.vm.regOr arg 0#64 = k.vm.regs arg := if_pos hlt
  rcases hf with rfl | rfl
  · simp only [exec, Native.ofId?_id, callNative, hreg, printed, bind_assoc]
    rfl
  · simp only [exec, Native.ofId?_id, callNative, hreg, printed, bind_assoc]
    rfl

/-- In the kernel, a printing native writes the decimal text of the word in its register exactly
when the word prints as a number. -/
theorem printed_iff (hf : f = .print ∨ f = .println) (harg : arg ≠ 0) (hlt : arg < 20)
    (hv : k.vm.regs arg = v) :
    (∃ k', k.exec host .callNat rd f.id arg = .ok k' ∧
      k'.vm.output = k.vm.output ++ (decimal v ++ lineEnd f)) ↔ k.PrintsAsNumber host v := by
  rw [← printsAsNumber_congr k k.tick rfl rfl, ← printed_eq_iff hf harg, exec_printing hf hlt, hv]
  cases k.tick.printed host f arg v with
  | error e =>
    refine iff_of_false ?_ (fun h => by cases h)
    rintro ⟨k', hok, -⟩
    cases hok
  | ok t =>
    constructor
    · rintro ⟨k', hok, hout⟩
      obtain rfl := Except.ok.inj hok
      rw [update_vm, PX64VM.output_setReg] at hout
      exact congrArg Except.ok (List.append_cancel_left hout)
    · rintro h
      obtain rfl := Except.ok.inj h
      refine ⟨_, rfl, ?_⟩
      rw [update_vm, PX64VM.output_setReg]
      rfl

end KernelVM

end LatencyOS
