import LatencyOS.Compiler.ArmCode
import LatencyOS.Compiler.Operands
import LatencyOS.System.HostKernel

/-!
# Result values in compiled code

Nested calls of the result natives run one after the other, and the `Ok` and `Err` arms of a
`match` write the payload to the variable of the pattern.

## Main results

* `results_roundTrip`: what becomes of a word in a result value.
-/

namespace LatencyOS

open CompilerState PX64VM

namespace PX64VM

variable {vm : PX64VM} {f g : Native} {arg mid rd : ℕ} {x y : Word64}

/-- A call of a native and one of another native on its result: the code of nested calls. -/
structure Nested (vm : PX64VM) (f g : Native) (arg mid rd : ℕ) : Prop where
  inner : vm.InstAt vm.ip .callNat mid f.id arg
  outer : vm.InstAt (vm.ip + 4) .callNat rd g.id mid

/-- A register gets a word from two instructions that leave all but one other register alone. -/
def Leaves (host : Host) (vm : PX64VM) (mid rd : ℕ) (w : Word64) : Prop :=
  ∃ vm', PassesIn host (fun r => r = mid ∨ r = rd) vm.ip (vm.ip + 8) vm vm' ∧
    vm'.ip = vm.ip + 8 ∧ vm'.regs rd = w

theorem Nested.leaves (h : Nested vm f g arg mid rd) (hf : f ∈ commonNatives)
    (hg : g ∈ commonNatives) (harg : arg < 20) (hmid : mid < 20) (hrd : rd < 20)
    (hx : ∀ t : PX64VM, t.callNativeCommon f arg (vm.regs arg) = .ok x)
    (hy : ∀ t : PX64VM, t.callNativeCommon g mid x = .ok y) (host : Host) :
    Leaves host vm mid rd y := by
  obtain ⟨vm₁, hp₁, hip₁, hv₁⟩ := h.inner.callNat host hmid harg hf (hx _)
  have houter : vm₁.InstAt vm₁.ip .callNat rd g.id mid := by
    intro i hi
    rw [code_of_core hp₁.core, hip₁]
    exact h.outer i hi
  obtain ⟨vm₂, hp₂, hip₂, hv₂⟩ := houter.callNat host hrd hmid hg (by rw [hv₁]; exact hy _)
  refine ⟨vm₂, ?_, by omega, hv₂⟩
  exact ((PassesIn.of_short hp₁ (Nat.le_of_eq hip₁)).mono (fun _ => .inl) (Nat.le_refl _)
    (by omega)).trans ((PassesIn.of_short hp₂ (Nat.le_of_eq hip₂)).mono (fun _ => .inr) (by omega)
    (by omega))

end PX64VM

namespace Compiler

variable {st s a : CompilerState} {tok : Token} {x : List UInt8} {d reg fuel n : ℕ} {arms : Arms}
  {hd : ArmHead}

/-- A name can be bound: it is known, or fits an entry of the table, and it has no spill slot. -/
def Bindable (st : CompilerState) (x : List UInt8) : Prop :=
  ((st.place x).isSome ∨ x.length ≤ 16 ∧ st.Clean) ∧ st.spillOf x = none

/-- Behind a binding the variable is where it was resolved to. -/
theorem Resolves.place (h : Resolves tok d a s) (hst : Grows st a) (hx : st.text? tok = some x)
    (hbind : Bindable st x) : s.place x = some (.reg d) := by
  obtain ⟨b, hy, hgrows⟩ := h
  have hknown : (a.place x).isSome ∨ x.length ≤ 16 ∧ a.Clean :=
    hbind.1.imp hst.place_isSome fun hfit => ⟨hfit.1, hst.clean hfit.2⟩
  have hres := resolved_of_yields (by rw [hst.text?]; exact hx) hknown
    (by rw [hst.spillOf]; exact hbind.2) hy
  exact hgrows.place_of_some hres.place

/-- The head of an arm leaves a word in the register of a variable whenever the matched value is
another one. -/
def BindsWord (reg : ℕ) (x : List UInt8) (r w : Word64) (st : CompilerState) (hd : ArmHead)
    (s : CompilerState) : Prop :=
  ∃ pos d, hd.skip = some pos ∧ s.place x = some (.reg d) ∧
    ∀ (host : Host) (vm : PX64VM) (next : ℕ), Holds vm st (s.patchImm16 pos next) →
      vm.ip = st.code.length → s.code.length ≤ next → next < 65536 → vm.regs reg = r → d < 20 →
      ∃ vm', PassesIn host (fun _ => True) st.code.length s.code.length vm vm' ∧
        vm'.ip = s.code.length ∧ vm'.regs d = w

theorem okHead_bindsWord (hk : st.peek.kind ≠ .eof) (hx : st.text? (st.peekAhead 2) = some x)
    (hbind : Bindable st x) (hreg : reg < 20) (hfree : ¬ st.Free reg)
    (hy : Yields (okHead reg arms) st hd s) (v : Word64) :
    BindsWord reg x (okWord v) (payload v) st hd s := by
  obtain ⟨-, pos, d, a, hskip, hst, hres, hcode⟩ := okHead_binds hk hy
  refine ⟨pos, d, hskip, hres.place hst hx hbind, fun host vm next hvm hip hle hnext hr hd => ?_⟩
  obtain ⟨hyes, -⟩ := hcode.runs host vm next hvm hip hle hnext hreg hfree
  obtain ⟨vm', hp, hip', hval⟩ := hyes (by rw [hr]; exact hasTag_okWord)
  exact ⟨vm', hp, hip', (hval hd).trans hr⟩

theorem errHead_bindsWord (hk : st.peek.kind ≠ .eof) (hfits : Fits st)
    (hx : st.text? (st.peekAhead 2) = some x) (hbind : Bindable st x) (hreg : reg < 20)
    (hfree : ¬ st.Free reg) (hy : Yields (errHead reg arms) st hd s) (v : Word64) :
    BindsWord reg x (errWord v) (payload v) st hd s := by
  obtain ⟨-, pos, d, a, hskip, hst, hres, hcode⟩ := errHead_binds hk hfits hy
  refine ⟨pos, d, hskip, hres.place hst hx hbind, fun host vm next hvm hip hle hnext hr hd => ?_⟩
  obtain ⟨hyes, -⟩ := hcode.runs host vm next hvm hip hle hnext hreg hfree
  obtain ⟨vm', hp, hip', hval⟩ := hyes (by rw [hr, hasTag_errWord]; rfl)
  refine ⟨vm', hp, hip', (hval hd).trans ?_⟩
  rw [hr]
  exact errWord_xor

/-- **What becomes of a word in a result value.**  The kind of the value is told apart, and its
payload comes back, from `@unwrap` and in the variable of a pattern; the payload is the word itself
unless the word has the bit of the tag.  No word is a result value of both kinds, and `==` takes
two of different kinds for equal only as references. -/
theorem results_roundTrip (v w : Word64) :
    (∀ (host : Host) (vm : PX64VM) (arg mid rd : Reg), vm.regs arg = v →
      (Nested vm .tagOk .isOk arg mid rd → Leaves host vm mid rd 1#64) ∧
      (Nested vm .tagOk .unwrap arg mid rd → Leaves host vm mid rd (payload v)) ∧
      (Nested vm .tagErr .isErr arg mid rd → Leaves host vm mid rd 1#64)) ∧
    (∀ (st s : CompilerState) (reg : ℕ) (x : List UInt8) (arms : Arms) (hd : ArmHead),
      st.peek.kind ≠ .eof → Fits st → st.text? (st.peekAhead 2) = some x → Bindable st x →
      reg < 20 → ¬ st.Free reg →
      (Yields (okHead reg arms) st hd s → BindsWord reg x (okWord v) (payload v) st hd s) ∧
      (Yields (errHead reg arms) st hd s → BindsWord reg x (errWord v) (payload v) st hd s)) ∧
    (payload v = v ↔ v.getLsbD 60 = false) ∧ okWord v ≠ errWord w ∧
    ∀ vm : PX64VM, cmpEq vm.getStrBytes (okWord v) (errWord w) = true ↔
      ∃ s, vm.getStrBytes (okWord v) = some s ∧ vm.getStrBytes (errWord w) = some s := by
  refine ⟨fun host vm arg mid rd hv => ⟨fun h => ?_, fun h => ?_, fun h => ?_⟩,
    fun st s reg x arms hd hk hfits hx hbind hreg hfree =>
      ⟨fun hy => okHead_bindsWord hk hx hbind hreg hfree hy v,
        fun hy => errHead_bindsWord hk hfits hx hbind hreg hfree hy v⟩,
    payload_eq_iff, okWord_ne_errWord, fun vm => ?_⟩
  · refine h.leaves (x := okWord v) (by decide) (by decide) arg.isLt mid.isLt rd.isLt
      (fun t => by rw [hv]; rfl) (fun t => ?_) host
    change Except.ok (boolWord (!hasTag (okWord v) errTag)) = _
    rw [hasTag_okWord]
    rfl
  · refine h.leaves (x := okWord v) (by decide) (by decide) arg.isLt mid.isLt rd.isLt
      (fun t => by rw [hv]; rfl) (fun t => ?_) host
    change (if hasTag (okWord v) errTag then _ else _) = _
    rw [hasTag_okWord]
    rfl
  · refine h.leaves (x := errWord v) (by decide) (by decide) arg.isLt mid.isLt rd.isLt
      (fun t => by rw [hv]; rfl) (fun t => ?_) host
    change Except.ok (boolWord (hasTag (errWord v) errTag)) = _
    rw [hasTag_errWord]
    rfl
  · rw [cmpEq_eq_decide, decide_eq_true_iff]
    exact same_result_iff vm

/-- An arm for an `Ok` value. -/
def okSource : List UInt8 := bytes "Ok($rax) => \x7b \x7d"

theorem okSource_facts : (stateBefore okSource 0).peek.kind = .ident ∧
    (stateBefore okSource 0).code.length ≤ maxBytecodeSize ∧
    (stateBefore okSource 0).constPool.length ≤ maxConstPool ∧
    (stateBefore okSource 0).text? ((stateBefore okSource 0).peekAhead 2) = some (bytes "$rax") ∧
    ((stateBefore okSource 0).place (bytes "$rax")).isSome = true ∧
    (stateBefore okSource 0).spillOf (bytes "$rax") = none ∧
    (stateBefore okSource 0).tempUsed 0 = true ∧
    ((okHead 15 ⟨none, [], false, false, false, []⟩).run perform (stateBefore okSource 0)).isOk =
      true := by
  decide +kernel

/-- A machine with seven in register 8, before `@unwrap(@ok(7))`. -/
def sevenMachine : PX64VM :=
  { PX64VM.new (instBytes .callNat 9 Native.tagOk.id 8 ++ instBytes .callNat 10 Native.unwrap.id 9)
      [] [] [] with regs := fun _ => 7#64 }

/-- Seven comes back. -/
theorem seven_comesBack : Leaves silentHost sevenMachine 9 10 7#64 ∧
    ∃ hd s, Yields (okHead 15 ⟨none, [], false, false, false, []⟩) (stateBefore okSource 0) hd s ∧
      BindsWord 15 (bytes "$rax") 7#64 7#64 (stateBefore okSource 0) hd s := by
  obtain ⟨hident, hcode, hpool, hx, hplace, hspill, hused, hok⟩ := okSource_facts
  obtain ⟨hnatives, harms, -⟩ := results_roundTrip 7#64 0#64
  have hnested : Nested sevenMachine .tagOk .unwrap 8 9 10 :=
    ⟨by rw [InstAt]; decide, by rw [InstAt]; decide⟩
  refine ⟨(hnatives silentHost sevenMachine ⟨8, by decide⟩ ⟨9, by decide⟩ ⟨10, by decide⟩
    rfl).2.1 hnested, ?_⟩
  cases hrun : (okHead 15 ⟨none, [], false, false, false, []⟩).run perform
      (stateBefore okSource 0) with
  | error e =>
    rw [hrun] at hok
    cases hok
  | ok r =>
    refine ⟨r.1, r.2, hrun, ?_⟩
    have hfree : ¬ (stateBefore okSource 0).Free 15 :=
      fun hfree => Bool.noConfusion (hused.symm.trans hfree.2.2)
    exact (harms _ _ 15 _ _ _ (by rw [hident]; exact TokenKind.noConfusion) ⟨hcode, hpool⟩ hx
      ⟨.inl hplace, hspill⟩ (by decide) hfree).1 hrun

/-- A program that takes minus one through a result value and compares. -/
def minusOneThrough : String := "let $v = 0 - 1; let $u = @unwrap(@ok($v)); " ++
  "if ($u == $v) \x7b @println(1); \x7d else \x7b @println(0); \x7d"

/-- Minus one comes back as another number. -/
theorem minusOne_lost :
    compileSource true 60 (bytes minusOneThrough) = .ok (compiled minusOneThrough) ∧
      runProgram stillHost 200 (compiled minusOneThrough) [] = some (.ok, bytes "0\n") ∧
      payload (-1#64) ≠ -1#64 := by
  decide +kernel

end Compiler

end LatencyOS
