import LatencyOS.Compiler.Levels

/-!
# The code of operators on fixed-point operands

A product of operands with a scale is shifted back by it, and the dividend of two such operands
is shifted forth.  The other operators have the code they have between integers.
-/

namespace LatencyOS

open CompilerState PX64VM

/-- The value of an operator on the machine, by the scales of its operands. -/
def BinOp.applyScaled (str : Word64 → Option (List UInt8)) (op : BinOp) (s₁ s₂ : Option ℕ)
    (x y : Word64) : Option Word64 :=
  match op, s₁, s₂ with
  | .mul, some s, _ => some ((x * y) >>> s)
  | .mul, none, some s => some ((x * y) >>> s)
  | .div, some s, some _ => if y = 0#64 then none else some ((x <<< s).sdiv y)
  | op, _, _ => op.apply str x y

namespace Compiler

variable {st st' t : CompilerState} {op : BinOp} {dst rhs i : ℕ}

/-! ## Shifting by a scale -/

/-- Shift a register by a number of places. -/
def emitShift (opc : Opcode) (dst scale : ℕ) : CompilerM Unit := do
  let shiftReg ← allocTemp
  let _ ← emitImm16 .movImm shiftReg scale
  emit opc dst dst shiftReg
  freeTemp shiftReg

/-- What the code of a shift does. -/
structure ShiftCode (f : Word64 → Word64) (dst : ℕ) (st st' : CompilerState) : Prop where
  segment : Segment st st'
  current : st'.current = st.current
  runs : ∀ (host : Host) (vm : PX64VM), Holds vm st st' → vm.ip = st.code.length → dst < 20 →
    dst ∉ scratch st st' →
    ∃ vm', Passes host (fun r => r = dst ∨ r ∈ scratch st st') vm vm' ∧
      vm'.ip = st'.code.length ∧ vm'.regs dst = f (vm.regs dst)

theorem toNat_shiftAmount {s : ℕ} (hs : s < 64) : (BitVec.ofNat 64 s &&& 63#64).toNat = s := by
  rw [BitVec.toNat_and, BitVec.toNat_ofNat, show (63#64).toNat = 2 ^ 6 - 1 from rfl,
    Nat.and_two_pow_sub_one_eq_mod]
  omega

theorem shiftCode_of_yields {opc : Opcode} {g : Word64 → ℕ → Word64} {s : ℕ} {u : Unit}
    (hopc : ∀ str, aluFn str opc = some fun x y => g x (y &&& 63#64).toNat) (hs : s < 64)
    (h : Yields (emitShift opc dst s) st u st') : ShiftCode (g · s) dst st st' := by
  simp only [emitShift, emitImm16, yields_bind, yields_allocTemp, yields_emitInst, yields_emit,
    yields_freeTemp] at h
  obtain ⟨_, _, ⟨i, hi, rfl, rfl⟩, _, _, ⟨-, rfl, rfl⟩, _, _, ⟨-, rfl⟩, rfl⟩ := h
  have hi8 := (freeSlot_eq_some hi).1
  generalize ha : (st.take i).emitted .movImm (15 - i) (s / 256) (s % 256) = a
  have hta : Segment (st.take i) a := ha ▸ .emitted ..
  have hab : Segment a (a.emitted opc dst dst (15 - i)) := .emitted ..
  have hscratch : scratch st ((a.emitted opc dst dst (15 - i)).freeTemp (15 - i)) = [15 - i] := by
    rw [scratch_congr (freeTemp_allocLog _ _),
      scratch_take i (hta.grows.trans hab.grows).log, ← ha]
    exact congrArg (List.cons (15 - i)) (scratch_self (st.take i))
  refine ⟨.bracket hi (hta.trans hab), ?_, fun host vm hvm hip hd hdst => ?_⟩
  · rw [freeTemp_current, ← ha]
    rfl
  rw [hscratch, List.mem_singleton] at hdst
  have hvm' := hvm.left (Grows.freeTemp _ (15 - i))
  have hinst₁ : vm.InstAt vm.ip .movImm (15 - i) (s / 256) (s % 256) := by
    rw [hip]
    exact (hvm'.left hab.grows).instAt (by rw [← ha]; rfl)
  obtain ⟨vm₁, hp₁, hip₁, hreg₁⟩ := hinst₁.movImm host (by omega) (by omega) (by omega)
  have hlen : a.code.length = st.code.length + 4 := by
    rw [← ha]
    simp [emitted, instBytes, CompilerState.take]
  have hinst₂ : vm₁.InstAt vm₁.ip opc dst dst (15 - i) := by
    rw [hip₁, hip, ← hlen]
    exact ((hvm'.right (by omega)).of_core hp₁.core).instAt rfl
  obtain ⟨vm₂, hp₂, hip₂, hreg₂⟩ := hinst₂.alu host (hopc _) hd hd (by omega)
  have hp₁' : Passes host (fun r => r = dst ∨ r ∈ scratch st
      ((a.emitted opc dst dst (15 - i)).freeTemp (15 - i))) vm vm₁ := hp₁.mono fun r hr => by
    rw [hscratch, List.mem_singleton]
    exact .inr hr
  refine ⟨vm₂, hp₁'.trans (hp₂.mono fun r hr => .inl hr), ?_, ?_⟩
  · rw [hip₂, hip₁, hip, freeTemp_code]
    simp [emitted, instBytes, hlen]
  · rw [hreg₂, hreg₁, hp₁.frame dst hdst, show s / 256 * 256 + s % 256 = s by omega,
      toNat_shiftAmount hs]

/-! ## Operators -/

/-- The code of an operator on two registers whose values have scales. -/
structure ScaledCode (op : BinOp) (s₁ s₂ : Option ℕ) (dst rhs : ℕ) (st st' : CompilerState) :
    Prop where
  segment : Segment st st'
  current : st'.current = st.current
  runs : ∀ (host : Host) (vm : PX64VM), Holds vm st st' → vm.ip = st.code.length → dst < 20 →
    rhs < 20 → dst ≠ rhs → dst ∉ scratch st st' → rhs ∉ scratch st st' →
    Computes host (fun r => r = dst ∨ r ∈ scratch st st') dst vm st'.code.length
      (op.applyScaled vm.getStrBytes s₁ s₂ (vm.regs dst) (vm.regs rhs))

variable {s₁ s₂ : Option ℕ} {u : Unit}

/-- What an operator reports does not matter to its code. -/
theorem ScaledCode.quiet (h : ScaledCode op s₁ s₂ dst rhs st st') (hq : Quiet st' t)
    (hcur : t.current = st'.current) : ScaledCode op s₁ s₂ dst rhs st t where
  segment := h.segment.trans hq.segment
  current := hcur.trans h.current
  runs := by
    rw [scratch_congr hq.log, hq.code]
    exact fun host vm hvm => h.runs host vm (hvm.left hq.segment.grows)

/-- Where no scale plays a part, the code is that between integers. -/
theorem scaledCode_of_plain (hpool : st.constPool.length ≤ maxConstPool)
    (hmul : op = .mul → s₁ = none ∧ s₂ = none) (hdiv : op = .div → s₁ = none ∨ s₂ = none)
    (h : Yields ((level op.height).emitOp op.kind s₁ s₂ dst rhs) st u st') :
    ScaledCode op s₁ s₂ dst rhs st st' := by
  have hcode := opCode_of_yields hpool hmul hdiv h
  refine ⟨hcode.segment, hcode.current, fun host vm hvm hip hd hr hne hS hS' => ?_⟩
  have happly : op.applyScaled vm.getStrBytes s₁ s₂ (vm.regs dst) (vm.regs rhs) =
      op.apply vm.getStrBytes (vm.regs dst) (vm.regs rhs) := by
    cases op with
    | mul =>
      obtain ⟨rfl, rfl⟩ := hmul rfl
      rfl
    | div =>
      rcases hdiv rfl with rfl | rfl
      · rfl
      · cases s₁ <;> rfl
    | _ => rfl
  rw [happly]
  exact hcode.runs host vm hvm hip hd hr hne hS hS'

theorem scaledCode_mul {s : ℕ} (hs : s < 64)
    (happly : ∀ str x y, BinOp.mul.applyScaled str s₁ s₂ x y = some ((x * y) >>> s))
    (h : Yields (emitScaledMul dst rhs s) st u st') : ScaledCode .mul s₁ s₂ dst rhs st st' := by
  obtain ⟨_, t, hmul, hshift⟩ := yields_bind.mp h
  obtain ⟨-, rfl⟩ := yields_emit.mp hmul
  have hcode := shiftCode_of_yields (g := (· >>> ·)) (fun str => rfl) hs hshift
  have hseg := Segment.emitted st .mul dst dst rhs
  have hscratch : scratch st st' = scratch (st.emitted .mul dst dst rhs) st' := rfl
  refine ⟨hseg.trans hcode.segment, hcode.current, fun host vm hvm hip hd hr _ hS _ => ?_⟩
  have hinst : vm.InstAt vm.ip .mul dst dst rhs := by
    rw [hip]
    exact (hvm.left hcode.segment.grows).instAt rfl
  obtain ⟨vm₁, hp₁, hip₁, hreg₁⟩ := hinst.alu host rfl hd hd hr
  have hlen : (st.emitted .mul dst dst rhs).code.length = st.code.length + 4 := by
    simp [emitted, instBytes]
  obtain ⟨vm₂, hp₂, hip₂, hreg₂⟩ := hcode.runs host vm₁
    ((hvm.right hseg.grows.code_le).of_core hp₁.core) (by rw [hip₁, hip, hlen]) hd hS
  rw [happly]
  exact ⟨vm₂, (hp₁.mono fun r hr => .inl hr).trans hp₂, hip₂, by rw [hreg₂, hreg₁]⟩

theorem scaledCode_div {s s' : ℕ} (hs : s < 64)
    (h : Yields (do emitShift .shl dst s; emit .div dst dst rhs) st u st') :
    ScaledCode .div (some s) (some s') dst rhs st st' := by
  obtain ⟨_, t, hshift, hdiv⟩ := yields_bind.mp h
  obtain ⟨-, rfl⟩ := yields_emit.mp hdiv
  have hcode := shiftCode_of_yields (g := (· <<< ·)) (fun str => rfl) hs hshift
  have hseg := Segment.emitted t .div dst dst rhs
  have hscratch : scratch st (t.emitted .div dst dst rhs) = scratch st t := rfl
  refine ⟨hcode.segment.trans hseg, hcode.current, fun host vm hvm hip hd hr hne hS hS' => ?_⟩
  obtain ⟨vm₁, hp₁, hip₁, hreg₁⟩ := hcode.runs host vm (hvm.left hseg.grows) hip hd hS
  have hrhs : vm₁.regs rhs = vm.regs rhs :=
    hp₁.frame rhs fun hr' => hr'.elim (fun heq => hne heq.symm) hS'
  have hinst : vm₁.InstAt vm₁.ip .div dst dst rhs := by
    rw [hip₁]
    exact ((hvm.right hcode.segment.grows.code_le).of_core hp₁.core).instAt rfl
  have happly (str : Word64 → Option (List UInt8)) (x y : Word64) :
      BinOp.div.apply str x y = if y = 0#64 then none else some (BitVec.sdiv x y) := rfl
  have hdivides := computes_div rfl happly host vm₁ (fun r => r = dst ∨ r ∈ scratch st t) hinst
    hd hr (.inl rfl)
  rw [hreg₁, hrhs, getStrBytes_of_core hp₁.core] at hdivides
  have hstop : (t.emitted .div dst dst rhs).code.length = vm₁.ip + 4 := by
    simp [hip₁, emitted, instBytes]
  rw [hstop]
  exact Computes.after hp₁ hdivides

/-- The instructions of an operator, whatever the scales. -/
theorem scaledCode_of_yields (hpool : st.constPool.length ≤ maxConstPool)
    (hs₁ : ∀ s ∈ s₁, s < 64) (hs₂ : ∀ s ∈ s₂, s < 64)
    (h : Yields ((level op.height).emitOp op.kind s₁ s₂ dst rhs) st u st') :
    ScaledCode op s₁ s₂ dst rhs st st' := by
  cases op with
  | mul =>
    simp only [BinOp.height, BinOp.kind, level, factorLevel] at h
    cases s₁ with
    | none =>
      cases s₂ with
      | none => exact scaledCode_of_plain hpool (fun _ => ⟨rfl, rfl⟩) (fun h => by cases h) h
      | some s =>
        simp only [emitMul, setFixedScale, yields_bind, yields_modifyInfo] at h
        obtain ⟨_, t, hmul, rfl⟩ := h
        exact (scaledCode_mul (hs₂ s rfl) (fun _ _ _ => rfl) hmul).quiet (.move t _ _) rfl
    | some s =>
      have hcode : ∃ (u : Unit) (t : CompilerState) (info : ExprInfo),
          Yields (emitScaledMul dst rhs s) st u t ∧ st' = { t with info := info } := by
        cases s₂ with
        | none =>
          simp only [emitMul, setFixedScale, yields_bind, yields_modifyInfo] at h
          obtain ⟨_, t, hmul, rfl⟩ := h
          exact ⟨_, t, _, hmul, rfl⟩
        | some s' =>
          simp only [emitMul, setFixedScale, yields_bind, yields_require, yields_modifyInfo] at h
          obtain ⟨_, _, ⟨-, rfl⟩, _, t, hmul, rfl⟩ := h
          exact ⟨_, t, _, hmul, rfl⟩
      obtain ⟨_, t, info, hmul, rfl⟩ := hcode
      exact (scaledCode_mul (hs₁ s rfl) (fun _ _ _ => rfl) hmul).quiet (.move t _ _) rfl
  | div =>
    simp only [BinOp.height, BinOp.kind, level, factorLevel] at h
    by_cases hnone : s₁ = none ∨ s₂ = none
    · exact scaledCode_of_plain hpool (fun h => by cases h) (fun _ => hnone) h
    · rw [not_or] at hnone
      obtain ⟨s, rfl⟩ := Option.ne_none_iff_exists'.mp hnone.1
      obtain ⟨s', rfl⟩ := Option.ne_none_iff_exists'.mp hnone.2
      simp only [emitDiv, setFixedScale, yields_bind, yields_require, yields_modifyInfo] at h
      obtain ⟨_, _, ⟨-, rfl⟩, _, _, halloc, _, _, himm, _, _, hshl, _, _, hfree, _, t, hdiv,
        rfl⟩ := h
      have hshift : Yields (emitShift .shl dst s) _ () _ :=
        yields_seq halloc (yields_seq himm (yields_seq hshl hfree))
      have hcode : Yields (do emitShift .shl dst s; emit .div dst dst rhs) _ () t :=
        yields_seq hshift hdiv
      exact (scaledCode_div (hs₁ s rfl) hcode).quiet (.move t _ _) rfl
  | _ => exact scaledCode_of_plain hpool (fun h => by cases h) (fun h => by cases h) h

end Compiler

end LatencyOS
