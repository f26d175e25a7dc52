import LatencyOS.Compiler.Compiled

/-!
# Calls of native functions

A call of an intrinsic leaves its arguments in temporaries and ends with one instruction, which
names the register of the first argument.

## Main results

* `nativeCall_of_yields`: what a call of an intrinsic is compiled to.
* `oneArgCall_of_yields`: the same for an intrinsic with one argument.
-/

namespace LatencyOS

open CompilerState PX64VM

/-! ## On the machine -/

namespace PX64VM

variable {vm : PX64VM} {f : Native} {rd arg : ℕ}

/-- A native function that computes from its argument registers. -/
theorem InstAt.callNat {v : Word64} (h : vm.InstAt vm.ip .callNat rd f.id arg) (host : Host)
    (hd : rd < 20) (harg : arg < 20) (hf : f ∈ commonNatives)
    (hv : vm.advance.callNativeCommon f arg (vm.regs arg) = .ok v) : Writes host vm rd v := by
  refine writes_of_exec host h (by omega) f.id_lt (by omega) ?_
  have hcall : vm.advance.callNative host f arg (vm.advance.regOr arg 0#64) =
      .ok (v, vm.advance) := by
    rw [callNative_common host _ hf, regOr, if_pos (show arg < px64NumRegisters from harg)]
    change (do let v ← vm.advance.callNativeCommon f arg (vm.regs arg); .ok (v, vm.advance)) = _
    rw [hv]
    rfl
  simp only [exec, Native.ofId?_id, hcall]
  exact congrArg Except.ok (setReg_of_lt vm.advance hd v)

/-- A native function that divides by zero. -/
theorem InstAt.callNat_zero {r : Stop × PX64VM} (h : vm.InstAt vm.ip .callNat rd f.id arg)
    (host : Host) (hd : rd < 20) (harg : arg < 20) (hf : f ∈ commonNatives)
    (hr : vm.advance.callNativeCommon f arg (vm.regs arg) = .error r)
    (hcode : stopCode r.1 = some "ERR_PX64_DIV_BY_ZERO") (T : ℕ → Prop) :
    DividesByZero host T vm (vm.ip + 4) := by
  refine ⟨vm, r, .refl host T vm, Nat.le_refl _, ?_, hcode⟩
  have hcall : vm.advance.callNative host f arg (vm.advance.regOr arg 0#64) = .error r := by
    rw [callNative_common host _ hf, regOr, if_pos (show arg < px64NumRegisters from harg)]
    change (do let v ← vm.advance.callNativeCommon f arg (vm.regs arg); .ok (v, vm.advance)) = _
    rw [hr]
    rfl
  rw [h.fetch_eq (by omega) f.id_lt (by omega)]
  simp only [exec, Native.ofId?_id, hcall]

theorem argBelow_of_le {vm : PX64VM} {k : ℕ} (hk : k ≤ arg) (harg : arg < 20) (dflt : Word64) :
    vm.argBelow arg k dflt = .ok (vm.regs (arg - k)) := by
  rw [argBelow, if_pos hk, if_pos (show arg - k < px64NumRegisters from by
    have : px64NumRegisters = 20 := rfl
    omega)]

end PX64VM

/-! ## In the compiler -/

namespace Compiler

variable {st st' : CompilerState} {dst n : ℕ} {f : Native} {w : List UInt8}

theorem yields_findFn {n : List UInt8} {r : Option FnMeta} :
    Yields (findFn n) st r st' ↔ r = st.decls.functions.find? (·.name == n) ∧ st' = st := by
  simp only [findFn, yields_bind, yields_get, yields_pure]
  constructor
  · rintro ⟨_, _, ⟨rfl, rfl⟩, rfl, rfl⟩
    exact ⟨rfl, rfl⟩
  · rintro ⟨rfl, rfl⟩
    exact ⟨_, _, ⟨rfl, rfl⟩, rfl, rfl⟩

/-- The calls that are compiled in a way of their own. -/
def ownCalls : List (List UInt8) :=
  [bytes "@streq", bytes "str.eq", bytes "@zip_with", bytes "@sum", bytes "sum", bytes "@reduce",
    bytes "reduce"]

/-- A name of an intrinsic with some number of arguments. -/
def NamesNative (w : List UInt8) (f : Native) (n : ℕ) : Prop :=
  w ∉ ownCalls ∧
    (intrinsics.find? fun i => bytes i.1 == w || bytes i.2.1 == w).map (·.2.2) = some (f, n)

instance (w : List UInt8) (f : Native) (n : ℕ) : Decidable (NamesNative w f n) :=
  inferInstanceAs (Decidable (_ ∧ _))

theorem callPrimary_native {r : Rec} (hw : NamesNative w f n) :
    callPrimary r w dst = (do
      match ← findFn w with
      | some g => userCall r g dst
      | none => intrinsicCall r w dst) := by
  refine bind_congr fun g => ?_
  cases g with
  | some g => rfl
  | none =>
    have hother := hw.1
    simp only [ownCalls, List.mem_cons, List.not_mem_nil, or_false, not_or] at hother
    simp only [hother, or_self, if_false]

theorem lookupIntrinsic_native (hw : NamesNative w f n) : lookupIntrinsic w = pure (f, n) := by
  obtain ⟨i, hfind, hi⟩ := Option.map_eq_some_iff.mp hw.2
  rw [lookupIntrinsic, hfind, ← hi]

/-- An intrinsic that is no function of the program is called as such. -/
theorem nativeCall_of_yields {r : Rec} {v : Option Word64} (hw : NamesNative w f n)
    (hname : st.text? st.peek = some w) (hparen : st.next.peek.kind = .lParen)
    (hnone : st.decls.functions.find? (·.name == w) = none)
    (hy : Yields (namedPrimary r st.peek dst) st.next v st') :
    ∃ args s, Yields (intrinsicArgs r f n) st.next.next args s ∧ v = none ∧
      s.peek.kind = .rParen ∧
      Yields (freeArgs args) (s.next.emitted .callNat dst f.id (args.headD 0)) () st' := by
  have hnone' : st.next.decls.functions.find? (·.name == w) = none := hnone
  simp only [namedPrimary, yields_bind, yields_text (show st.next.text? st.peek = _ from hname),
    yields_peekKind] at hy
  obtain ⟨_, _, ⟨rfl, rfl⟩, _, _, ⟨rfl, rfl⟩, hy⟩ := hy
  rw [hparen] at hy
  simp only [reduceCtorEq, if_false, if_true, yields_bind, refuseStructLiteral, yields_peekKind,
    callPrimary_native hw, yields_findFn] at hy
  obtain ⟨_, _, ⟨_, _, ⟨rfl, rfl⟩, hbrace⟩, _, _, ⟨rfl, rfl⟩, hy⟩ := hy
  rw [hparen, if_neg TokenKind.noConfusion] at hbrace
  obtain ⟨-, rfl⟩ := yields_pure.mp hbrace
  rw [hnone'] at hy
  simp only [intrinsicCall, lookupIntrinsic_native hw, yields_bind, yields_pure, yields_require,
    checkIntrinsicRuntime, yields_get, yields_emit] at hy
  obtain ⟨_, _, ⟨rfl, rfl⟩, _, _, hadv, args, s, hargs, closed, t, hclosed, _, _, ⟨rfl, rfl⟩, _, _,
    ⟨_, _, ⟨rfl, rfl⟩, -, rfl⟩, _, _, ⟨-, rfl⟩, _, _, hfree, rfl, rfl⟩ := hy
  obtain ⟨rfl, rfl⟩ := (yields_advance (by rw [hparen]; exact TokenKind.noConfusion)).mp hadv
  have hkind : s.peek.kind = .rParen := by
    by_contra hne
    exact Bool.noConfusion ((yields_matchToken_of_ne hne).mp hclosed).1
  obtain ⟨-, rfl⟩ := (yields_matchToken_of_eq hkind (by decide)).mp hclosed
  exact ⟨args, s, hargs, rfl, hkind, hfree⟩

theorem yields_peek {tok : Token} : Yields peek st tok st' ↔ tok = st.peek ∧ st' = st := by
  simp only [peek, peekAhead, yields_bind, yields_get, yields_pure]
  constructor
  · rintro ⟨_, _, ⟨rfl, rfl⟩, rfl, rfl⟩
    exact ⟨rfl, rfl⟩
  · rintro ⟨rfl, rfl⟩
    exact ⟨_, _, ⟨rfl, rfl⟩, rfl, rfl⟩

/-- The argument of an intrinsic that does nothing to a handle. -/
theorem oneArg_of_yields {r : Rec} {arg : ℕ} (hf : f ≠ .netSend ∧ f ≠ .drop)
    (harg : st.peek.kind ≠ .rParen) (hhandle : st.peek.kind ≠ .hardwareIdent)
    (hy : Yields (oneArg r f) st arg st') :
    ∃ m, st.freeSlot = some m ∧ arg = 15 - m ∧
      Yields (r.expression (15 - m)) (st.take m) () st' := by
  simp only [oneArg, yields_bind, yields_peek] at hy
  obtain ⟨_, _, ⟨rfl, rfl⟩, hy⟩ := hy
  rw [if_neg harg, if_neg hhandle] at hy
  have hquiet : ∀ reg, consumeBy f reg = pure () := fun reg => by
    rw [consumeBy, if_neg hf.1, if_neg hf.2, ite_self]
  simp only [yields_bind, yields_pure, hquiet, yields_allocTemp] at hy
  obtain ⟨_, _, ⟨rfl, rfl⟩, _, _, ⟨-, rfl⟩, _, _, ⟨m, hm, rfl, rfl⟩, u, s, hexpr, rfl, rfl⟩ := hy
  exact ⟨m, hm, rfl, hexpr⟩

/-- A call of an intrinsic with one argument is the code of the argument, in a fresh temporary,
and one instruction. -/
theorem oneArgCall_of_yields {r : Rec} {v : Option Word64} (hw : NamesNative w f 1)
    (hf : f ≠ .netSend ∧ f ≠ .drop) (hname : st.text? st.peek = some w)
    (hparen : st.next.peek.kind = .lParen)
    (harg : st.next.next.peek.kind ≠ .rParen)
    (hhandle : st.next.next.peek.kind ≠ .hardwareIdent)
    (hnone : st.decls.functions.find? (·.name == w) = none)
    (hy : Yields (namedPrimary r st.peek dst) st.next v st') :
    ∃ m s, st.freeSlot = some m ∧
      Yields (r.expression (15 - m)) (st.next.next.take m) () s ∧ v = none ∧
      s.peek.kind = .rParen ∧
      st' = (s.next.emitted .callNat dst f.id (15 - m)).freeTemp (15 - m) := by
  obtain ⟨args, s, hargs, hv, hclosed, hfree⟩ := nativeCall_of_yields hw hname hparen hnone hy
  simp only [intrinsicArgs, yields_bind, yields_pure] at hargs
  obtain ⟨arg, t, hone, rfl, rfl⟩ := hargs
  obtain ⟨m, hm, rfl, hexpr⟩ := oneArg_of_yields hf harg hhandle hone
  simp only [freeArgs, yields_bind, yields_freeTemp, yields_pure, List.headD_cons] at hfree
  obtain ⟨_, _, ⟨-, rfl⟩, rfl⟩ := hfree
  exact ⟨m, s, hm, hexpr, hv, hclosed, rfl⟩

end Compiler

end LatencyOS
