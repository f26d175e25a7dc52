import LatencyOS.Vm.Core
import LatencyOS.Lib.Machine

/-!
# Running pieces of code

What the host machine does on a stretch of straight-line code: `fetch` is one step with the
step limit aside, and `Passes` says that a stretch is run through, which registers it may
change, and that nothing else does.  The limit comes back in `iter_step`: a stretch that fits
the budget is run as it is, and a longer one is cut off.
-/

namespace LatencyOS

namespace PX64VM

/-- One step, the step limit aside. -/
def fetch (host : Host) (vm : PX64VM) : Except (Stop × PX64VM) PX64VM :=
  if vm.ip + 4 ≤ vm.code.length then
    match Opcode.ofCode? (byteAt vm.code vm.ip) with
    | some op => vm.advance.exec host op (byteAt vm.code (vm.ip + 1))
        (byteAt vm.code (vm.ip + 2)) (byteAt vm.code (vm.ip + 3))
    | none =>
      vm.advance.fail "ERR_PX64_INVALID_OPCODE" "Invalid px64 instruction opcode encountered"
  else .error (.ok, vm)

theorem step_eq_fetch (host : Host) {vm : PX64VM} (h : vm.steps < vm.maxSteps) :
    vm.step host = vm.fetch host := by
  have hle : ¬ vm.maxSteps ≤ vm.steps := Nat.not_le.mpr h
  unfold step fetch
  exact if_congr Iff.rfl (if_neg hle) rfl

/-- The diagnostic of the step limit. -/
def wcetExceeded : Stop := .error (.simple "ERR_PX64_WCET_EXCEEDED"
  "Execution exceeded px64 WCET instruction step limit (infinite loop protection)")

/-- The code of an error with which the machine stopped. -/
def stopCode : Stop → Option String
  | .error e => some e.code
  | _ => none

/-- An instruction stands at a position of the code. -/
def InstAt (vm : PX64VM) (pos : ℕ) (op : Opcode) (rd rs1 rs2 : ℕ) : Prop :=
  ∀ i < 4, vm.code[pos + i]? = (instBytes op rd rs1 rs2)[i]?

/-- The four bytes of an instruction. -/
theorem InstAt.bytes_eq {vm : PX64VM} {pos : ℕ} {op : Opcode} {rd rs1 rs2 : ℕ}
    (h : vm.InstAt pos op rd rs1 rs2) (h₁ : rd < 256) (h₂ : rs1 < 256) (h₃ : rs2 < 256) :
    pos + 4 ≤ vm.code.length ∧ byteAt vm.code pos = op.code ∧ byteAt vm.code (pos + 1) = rd ∧
      byteAt vm.code (pos + 2) = rs1 ∧ byteAt vm.code (pos + 3) = rs2 := by
  have hbyte : ∀ (i n : ℕ), i < 4 → (instBytes op rd rs1 rs2)[i]? = some (UInt8.ofNat n) →
      n < 256 → byteAt vm.code (pos + i) = n := by
    intro i n hi hb hn
    have hcode := h i hi
    rw [hb] at hcode
    rw [byteAt, List.getD_eq_getElem?_getD, hcode, Option.getD_some, UInt8.toNat_ofNat',
      Nat.mod_eq_of_lt hn]
  have hlen : pos + 4 ≤ vm.code.length := by
    have hlast := h 3 (by decide)
    have hsome : vm.code[pos + 3]? ≠ none := by
      rw [hlast]
      simp [instBytes]
    have := List.getElem?_eq_none_iff.not.mp hsome
    omega
  exact ⟨hlen, hbyte 0 op.code (by decide) rfl op.code_lt, hbyte 1 rd (by decide) rfl h₁,
    hbyte 2 rs1 (by decide) rfl h₂, hbyte 3 rs2 (by decide) rfl h₃⟩

theorem InstAt.fetch_eq {vm : PX64VM} {op : Opcode} {rd rs1 rs2 : ℕ}
    (h : vm.InstAt vm.ip op rd rs1 rs2) (h₁ : rd < 256) (h₂ : rs1 < 256) (h₃ : rs2 < 256)
    (host : Host) : vm.fetch host = vm.advance.exec host op rd rs1 rs2 := by
  obtain ⟨hlen, hop, hrd, hrs1, hrs2⟩ := h.bytes_eq h₁ h₂ h₃
  rw [fetch, if_pos hlen, hop, Opcode.ofCode?_code, hrd, hrs1, hrs2]

/-! ## What compiled statements leave alone -/

/-- The parts of the machine that assignments and conditions never touch. -/
def core (vm : PX64VM) : PX64VM :=
  { vm with regs := fun _ => 0, spillSlots := fun _ => 0, output := [], ip := 0, steps := 0 }

variable {vm vm' : PX64VM}

theorem eq_of_core {α : Type} (f : PX64VM → α) (hf : ∀ vm : PX64VM, f vm.core = f vm)
    (h : vm'.core = vm.core) : f vm' = f vm := by rw [← hf vm', h, hf vm]

theorem code_of_core (h : vm'.core = vm.core) : vm'.code = vm.code :=
  eq_of_core PX64VM.code (fun _ => rfl) h

theorem constPool_of_core (h : vm'.core = vm.core) : vm'.constPool = vm.constPool :=
  eq_of_core PX64VM.constPool (fun _ => rfl) h

theorem getStrBytes_of_core (h : vm'.core = vm.core) : vm'.getStrBytes = vm.getStrBytes := by
  have hpool : vm'.strPool = vm.strPool := eq_of_core PX64VM.strPool (fun _ => rfl) h
  have hargs : vm'.args = vm.args := eq_of_core PX64VM.args (fun _ => rfl) h
  funext val
  simp only [getStrBytes, poolSlice, hpool, hargs]

/-- The states on the way of a stretch of code count their steps and leave all but the registers
in `T` alone. -/
def OnWay (T : ℕ → Prop) (vm : PX64VM) (k : ℕ) (t : PX64VM) : Prop :=
  t.steps = vm.steps + k ∧ t.maxSteps = vm.maxSteps ∧ ∀ r, ¬ T r → t.regs r = vm.regs r

/-- A stretch of code is run from one state to another: only the registers in `T` change, and
no instruction is run twice. -/
structure Passes (host : Host) (T : ℕ → Prop) (vm vm' : PX64VM) : Prop where
  run : ∃ n, Machine.iter (fetch host) n vm = .ok vm' ∧ vm.ip + 4 * n ≤ vm'.ip ∧
    ∀ k ≤ n, ∃ t, Machine.iter (fetch host) k vm = .ok t ∧ OnWay T vm k t
  core : vm'.core = vm.core
  spill : vm'.spillSlots = vm.spillSlots
  output : vm'.output = vm.output
  frame : ∀ r, ¬ T r → vm'.regs r = vm.regs r

namespace Passes

variable {host : Host} {T U : ℕ → Prop} {a b c : PX64VM}

theorem refl (host : Host) (T : ℕ → Prop) (vm : PX64VM) : Passes host T vm vm where
  run := by
    refine ⟨0, rfl, Nat.le_refl _, fun k hk => ?_⟩
    obtain rfl := Nat.le_zero.mp hk
    exact ⟨vm, rfl, rfl, rfl, fun _ _ => rfl⟩
  core := rfl
  spill := rfl
  output := rfl
  frame := fun _ _ => rfl

theorem trans (h₁ : Passes host T a b) (h₂ : Passes host T b c) : Passes host T a c where
  run := by
    obtain ⟨m, hm, hipm, hway₁⟩ := h₁.run
    obtain ⟨n, hn, hipn, hway₂⟩ := h₂.run
    refine ⟨m + n, by rw [Machine.iter_add _ hm, hn], by omega, fun k hk => ?_⟩
    by_cases hkm : k ≤ m
    · exact hway₁ k hkm
    · obtain ⟨d, rfl⟩ : ∃ d, k = m + d := ⟨k - m, by omega⟩
      obtain ⟨t, ht, hsteps, hmax, hframe⟩ := hway₂ d (by omega)
      obtain ⟨t', ht', hsteps', hmax', -⟩ := hway₁ m (Nat.le_refl _)
      obtain rfl : b = t' := Except.ok.inj (hm.symm.trans ht')
      exact ⟨t, by rw [Machine.iter_add _ hm, ht], by omega, hmax.trans hmax',
        fun r hr => (hframe r hr).trans (h₁.frame r hr)⟩
  core := h₂.core.trans h₁.core
  spill := h₂.spill.trans h₁.spill
  output := h₂.output.trans h₁.output
  frame := fun r hr => (h₂.frame r hr).trans (h₁.frame r hr)

theorem mono (h : Passes host T a b) (hTU : ∀ r, T r → U r) : Passes host U a b where
  run := by
    obtain ⟨n, hn, hip, hway⟩ := h.run
    refine ⟨n, hn, hip, fun k hk => ?_⟩
    obtain ⟨t, ht, hsteps, hmax, hframe⟩ := hway k hk
    exact ⟨t, ht, hsteps, hmax, fun r hr => hframe r fun ht => hr (hTU r ht)⟩
  core := h.core
  spill := h.spill
  output := h.output
  frame := fun r hr => h.frame r fun ht => hr (hTU r ht)

/-- One instruction. -/
theorem single (h : a.fetch host = .ok b) (hip : a.ip + 4 ≤ b.ip) (hcore : b.core = a.core)
    (hspill : b.spillSlots = a.spillSlots) (hout : b.output = a.output)
    (hsteps : b.steps = a.steps + 1) (hframe : ∀ r, ¬ T r → b.regs r = a.regs r) :
    Passes host T a b where
  run := by
    have hone : Machine.iter (fetch host) 1 a = .ok b := Machine.iter_succ_of_ok _ h 0
    refine ⟨1, hone, hip, fun k hk => ?_⟩
    rcases Nat.le_one_iff_eq_zero_or_eq_one.mp hk with rfl | rfl
    · exact ⟨a, rfl, rfl, rfl, fun _ _ => rfl⟩
    · exact ⟨b, hone, hsteps, eq_of_core PX64VM.maxSteps (fun _ => rfl) hcore, hframe⟩
  core := hcore
  spill := hspill
  output := hout
  frame := hframe

/-- One instruction that only writes a register. -/
theorem write {d : ℕ} {v : Word64} (hT : T d)
    (h : a.fetch host = .ok { a.advance with regs := Function.update a.regs d v }) :
    Passes host T a { a.advance with regs := Function.update a.regs d v } :=
  .single h (Nat.le_refl _) rfl rfl rfl rfl fun r hr =>
    Function.update_of_ne (fun hrd => hr (by rw [hrd]; exact hT)) ..

/-- One instruction that only moves forward. -/
theorem jump {ip : ℕ} (h : a.fetch host = .ok { a.advance with ip := ip }) (hip : a.ip + 4 ≤ ip) :
    Passes host T a { a.advance with ip := ip } :=
  .single h hip rfl rfl rfl rfl fun _ _ => rfl

end Passes

/-- A stretch of code is run without leaving `[lo, hi)` on the way. -/
structure PassesIn (host : Host) (T : ℕ → Prop) (lo hi : ℕ) (vm vm' : PX64VM) : Prop
    extends Passes host T vm vm' where
  inside : Machine.Through (fetch host) (fun t => lo ≤ t.ip ∧ t.ip < hi) vm vm'

namespace PassesIn

variable {host : Host} {T U : ℕ → Prop} {a b c : PX64VM} {lo hi lo' hi' : ℕ}

theorem refl (host : Host) (T : ℕ → Prop) (lo hi : ℕ) (vm : PX64VM) :
    PassesIn host T lo hi vm vm := ⟨.refl host T vm, .refl vm⟩

theorem trans (h₁ : PassesIn host T lo hi a b) (h₂ : PassesIn host T lo hi b c) :
    PassesIn host T lo hi a c := ⟨h₁.toPasses.trans h₂.toPasses, h₁.inside.trans h₂.inside⟩

theorem mono (h : PassesIn host T lo hi a b) (hTU : ∀ r, T r → U r) (hlo : lo' ≤ lo)
    (hhi : hi ≤ hi') : PassesIn host U lo' hi' a b :=
  ⟨h.toPasses.mono hTU, h.inside.mono fun _ hin =>
    ⟨Nat.le_trans hlo hin.1, Nat.lt_of_lt_of_le hin.2 hhi⟩⟩

/-- One instruction. -/
theorem of_fetch (h : Passes host T a b) (hf : a.fetch host = .ok b) :
    PassesIn host T a.ip (a.ip + 4) a b :=
  ⟨h, .single hf ⟨Nat.le_refl _, Nat.lt_add_of_pos_right (by decide)⟩⟩

/-- At most one instruction, since none is run twice. -/
theorem of_short (h : Passes host T a b) (hle : b.ip ≤ a.ip + 4) :
    PassesIn host T a.ip b.ip a b := by
  refine ⟨h, ?_⟩
  obtain ⟨n, hn, hip, -⟩ := h.run
  refine ⟨n, hn, fun k hk => ?_⟩
  obtain rfl : k = 0 := by omega
  exact ⟨a, rfl, Nat.le_refl _, by omega⟩

end PassesIn

/-- A stretch of code stops at a division by zero. -/
structure DividesByZero (host : Host) (T : ℕ → Prop) (vm : PX64VM) (bound : ℕ) : Prop where
  stops : ∃ vm' r, Passes host T vm vm' ∧ vm'.ip + 4 ≤ bound ∧ vm'.fetch host = .error r ∧
    stopCode r.1 = some "ERR_PX64_DIV_BY_ZERO"

namespace DividesByZero

variable {host : Host} {T U : ℕ → Prop} {a b : PX64VM} {m n : ℕ}

theorem mono (h : DividesByZero host T a m) (hTU : ∀ r, T r → U r) (hmn : m ≤ n) :
    DividesByZero host U a n := by
  obtain ⟨vm', r, hp, hip, hf, hr⟩ := h.stops
  exact ⟨vm', r, hp.mono hTU, Nat.le_trans hip hmn, hf, hr⟩

theorem after (h₁ : Passes host T a b) (h₂ : DividesByZero host T b m) :
    DividesByZero host T a m := by
  obtain ⟨vm', r, hp, hip, hf, hr⟩ := h₂.stops
  exact ⟨vm', r, h₁.trans hp, hip, hf, hr⟩

end DividesByZero

/-! ## The step limit -/

/-- A machine out of steps stops at its next instruction. -/
theorem step_of_out {host : Host} {vm : PX64VM} (hin : vm.ip + 4 ≤ vm.code.length)
    (h : vm.maxSteps ≤ vm.steps) : vm.step host = .error (wcetExceeded, vm) := by
  rw [step, if_pos hin, if_pos h]
  rfl

/-- A stretch of code is run by the machine as it is, unless the step limit cuts it off. -/
theorem Passes.iter_step {host : Host} {T : ℕ → Prop} {a b : PX64VM} (h : Passes host T a b) :
    ∃ n t, Machine.iter (step host) n a = .ok t ∧ (∀ r, ¬ T r → t.regs r = a.regs r) ∧
      (t = b ∨ (∃ s, t.step host = .error (wcetExceeded, s)) ∧
        a.maxSteps < a.steps + (b.ip - a.ip) / 4) := by
  obtain ⟨n, hn, hip, hway⟩ := h.run
  -- as many steps as the budget allows
  have hrun : ∀ k ≤ n, (∃ t, Machine.iter (fetch host) k a = .ok t ∧
        Machine.iter (step host) k a = .ok t) ∨
      ∃ m < n, ∃ t, Machine.iter (fetch host) m a = .ok t ∧
        Machine.iter (step host) m a = .ok t ∧ t.maxSteps ≤ t.steps := by
    intro k
    induction k with
    | zero => exact fun _ => .inl ⟨a, rfl, rfl⟩
    | succ k ih =>
      intro hk
      rcases ih (by omega) with ⟨t, hf, hs⟩ | hcut
      · by_cases hbudget : t.maxSteps ≤ t.steps
        · exact .inr ⟨k, hk, t, hf, hs, hbudget⟩
        · obtain ⟨t', ht', -⟩ := hway (k + 1) hk
          rw [Machine.iter_add _ hf] at ht'
          refine .inl ⟨t', by rw [Machine.iter_add _ hf, ht'], ?_⟩
          rw [Machine.iter_add _ hs, ← ht']
          simp only [Machine.iter, step_eq_fetch host (Nat.not_le.mp hbudget)]
      · exact .inr hcut
  rcases hrun n (Nat.le_refl _) with ⟨t, hf, hs⟩ | ⟨m, hm, t, hf, hs, hbudget⟩
  · obtain rfl : b = t := Except.ok.inj (hn.symm.trans hf)
    exact ⟨n, b, hs, h.frame, .inl rfl⟩
  · obtain ⟨t', ht', hsteps, hmax, hframe⟩ := hway m (by omega)
    obtain rfl : t = t' := Except.ok.inj (hf.symm.trans ht')
    obtain ⟨t', ht', -⟩ := hway (m + 1) hm
    have hinside : t.ip + 4 ≤ t.code.length := by
      rw [Machine.iter_add _ hf] at ht'
      by_contra hout
      simp only [Machine.iter, fetch, if_neg hout] at ht'
      cases ht'
    exact ⟨m, t, hs, hframe, .inr ⟨⟨t, step_of_out hinside hbudget⟩, by omega⟩⟩

/-- The steps of a stretch of code are counted. -/
theorem Passes.steps_le {host : Host} {T : ℕ → Prop} {a b : PX64VM} (h : Passes host T a b) :
    a.ip + 4 * (b.steps - a.steps) ≤ b.ip ∧ b.maxSteps = a.maxSteps := by
  obtain ⟨n, hn, hip, hway⟩ := h.run
  obtain ⟨t, ht, hsteps, hmax, -⟩ := hway n (Nat.le_refl _)
  obtain rfl : b = t := Except.ok.inj (hn.symm.trans ht)
  exact ⟨by omega, hmax⟩

/-- An error other than the end of the code comes from an instruction. -/
theorem inside_of_fetch {host : Host} {vm : PX64VM} {r : Stop × PX64VM} {code : String}
    (h : vm.fetch host = .error r) (hr : stopCode r.1 = some code) :
    vm.ip + 4 ≤ vm.code.length := by
  by_contra hout
  rw [fetch, if_neg hout] at h
  cases h
  cases hr

/-! ## Single instructions -/

/-- The next instruction writes a word to a register and nothing else. -/
def Writes (host : Host) (vm : PX64VM) (d : ℕ) (v : Word64) : Prop :=
  ∃ vm', Passes host (· = d) vm vm' ∧ vm'.ip = vm.ip + 4 ∧ vm'.regs d = v

/-- The function a two-source instruction computes. -/
def aluFn (str : Word64 → Option (List UInt8)) : Opcode → Option (Word64 → Word64 → Word64)
  | .add => some (· + ·)
  | .sub => some (· - ·)
  | .mul => some (· * ·)
  | .and => some (· &&& ·)
  | .or => some (· ||| ·)
  | .xor => some (· ^^^ ·)
  | .shl => some fun a b => a <<< (b &&& 63#64).toNat
  | .shr => some fun a b => a >>> (b &&& 63#64).toNat
  | .cmpEq => some fun a b => boolWord (cmpEq str a b)
  | .cmpNe => some fun a b => boolWord (!cmpEq str a b)
  | .cmpLt => some fun a b => boolWord (a.slt b)
  | .cmpLe => some fun a b => boolWord (a.sle b)
  | .cmpGt => some fun a b => boolWord (b.slt a)
  | .cmpGe => some fun a b => boolWord (b.sle a)
  | _ => none

/-- The two instructions that check their divisor. -/
def divFn : Opcode → Option (Word64 → Word64 → Word64)
  | .div => some BitVec.sdiv
  | .mod => some BitVec.srem
  | _ => none

theorem exec_alu (host : Host) (vm : PX64VM) {op : Opcode} {f : Word64 → Word64 → Word64}
    (h : aluFn vm.getStrBytes op = some f) (rd rs1 rs2 : ℕ) :
    vm.exec host op rd rs1 rs2 = .ok (vm.alu rd rs1 rs2 f) := by
  cases op <;> simp only [aluFn, Option.some.injEq, reduceCtorEq] at h <;> subst h <;> rfl

theorem exec_div (host : Host) (vm : PX64VM) {op : Opcode} {f : Word64 → Word64 → Word64}
    (h : divFn op = some f) {rd rs1 rs2 : ℕ} (h₂ : vm.regs rs2 ≠ 0#64) :
    vm.exec host op rd rs1 rs2 = .ok (vm.alu rd rs1 rs2 f) := by
  have hguard : ¬ (rd < px64NumRegisters ∧ rs1 < px64NumRegisters ∧ rs2 < px64NumRegisters ∧
      vm.regs rs2 = 0#64) := fun hc => h₂ hc.2.2.2
  cases op <;> simp only [divFn, Option.some.injEq, reduceCtorEq] at h <;> subst h
  · exact if_neg hguard
  · exact if_neg hguard

/-- Division by zero stops the machine. -/
theorem exec_div_zero (host : Host) (vm : PX64VM) {op : Opcode} {f : Word64 → Word64 → Word64}
    (h : divFn op = some f) {rd rs1 rs2 : ℕ} (hd : rd < 20) (h₁ : rs1 < 20) (h₂ : rs2 < 20)
    (hz : vm.regs rs2 = 0#64) :
    ∃ r, vm.exec host op rd rs1 rs2 = .error r ∧ stopCode r.1 = some "ERR_PX64_DIV_BY_ZERO" := by
  have hguard : rd < px64NumRegisters ∧ rs1 < px64NumRegisters ∧ rs2 < px64NumRegisters ∧
      vm.regs rs2 = 0#64 := ⟨hd, h₁, h₂, hz⟩
  cases op <;> simp only [divFn, reduceCtorEq] at h
  · exact ⟨_, if_pos hguard, rfl⟩
  · exact ⟨_, if_pos hguard, rfl⟩

section Instructions

variable (host : Host) {rd rs1 rs2 : ℕ}

theorem writes_of_exec {op : Opcode} {v : Word64} (h : vm.InstAt vm.ip op rd rs1 rs2)
    (hd : rd < 256) (h₁ : rs1 < 256) (h₂ : rs2 < 256) {d : ℕ}
    (hexec : vm.advance.exec host op rd rs1 rs2 =
      .ok { vm.advance with regs := Function.update vm.regs d v }) : Writes host vm d v := by
  refine ⟨_, Passes.write rfl (d := d) (v := v) ?_, rfl, Function.update_self ..⟩
  rw [h.fetch_eq hd h₁ h₂, hexec]

theorem setReg_of_lt (vm : PX64VM) {d : ℕ} (hd : d < 20) (v : Word64) :
    vm.setReg d v = { vm with regs := Function.update vm.regs d v } := if_pos hd

theorem alu_of_lt (vm : PX64VM) (hd : rd < 20) (h₁ : rs1 < 20) (h₂ : rs2 < 20)
    (f : Word64 → Word64 → Word64) : vm.alu rd rs1 rs2 f =
      { vm with regs := Function.update vm.regs rd (f (vm.regs rs1) (vm.regs rs2)) } :=
  if_pos ⟨hd, h₁, h₂⟩

theorem InstAt.movImm {hi lo : ℕ} (h : vm.InstAt vm.ip .movImm rd hi lo) (hd : rd < 20)
    (h₁ : hi < 256) (h₂ : lo < 256) : Writes host vm rd (BitVec.ofNat 64 (hi * 256 + lo)) :=
  writes_of_exec host h (by omega) h₁ h₂ (congrArg Except.ok (setReg_of_lt vm.advance hd _))

theorem InstAt.ldc {hi lo : ℕ} {c : Word64} (h : vm.InstAt vm.ip .ldc rd hi lo) (hd : rd < 20)
    (h₁ : hi < 256) (h₂ : lo < 256) (hc : vm.constPool[hi * 256 + lo]? = some c) :
    Writes host vm rd c := by
  refine writes_of_exec host h (by omega) h₁ h₂ ?_
  have hc' : vm.advance.constPool[hi * 256 + lo]? = some c := hc
  simp only [exec, execCommon, hc']
  exact congrArg Except.ok (setReg_of_lt vm.advance hd c)

theorem InstAt.movReg (h : vm.InstAt vm.ip .movReg rd rs1 0) (hd : rd < 20) (h₁ : rs1 < 20) :
    Writes host vm rd (vm.regs rs1) := by
  refine writes_of_exec host h (by omega) (by omega) (by omega) (congrArg Except.ok ?_)
  rw [if_pos (show rs1 < px64NumRegisters from h₁), setReg_of_lt _ hd]
  rfl

theorem InstAt.spillLoad {slot : ℕ} (h : vm.InstAt vm.ip .spillLoad rd slot 0) (hd : rd < 20)
    (hslot : slot < 32) : Writes host vm rd (vm.spillSlots slot) := by
  refine writes_of_exec host h (by omega) (by omega) (by omega) (congrArg Except.ok ?_)
  rw [if_pos hslot, setReg_of_lt _ hd]
  rfl

theorem InstAt.spillStore {slot : ℕ} (h : vm.InstAt vm.ip .spillStore slot rs1 0)
    (hslot : slot < 32) (h₁ : rs1 < 20) : vm.fetch host =
      .ok { vm.advance with
        spillSlots := Function.update vm.spillSlots slot (vm.regs rs1) } := by
  rw [h.fetch_eq (by omega) (by omega) (by omega)]
  refine (if_pos hslot).trans (congrArg Except.ok ?_)
  rw [regOr, if_pos (show rs1 < px64NumRegisters from h₁)]
  rfl

theorem InstAt.alu {op : Opcode} {f : Word64 → Word64 → Word64}
    (h : vm.InstAt vm.ip op rd rs1 rs2) (hop : aluFn vm.getStrBytes op = some f) (hd : rd < 20)
    (h₁ : rs1 < 20) (h₂ : rs2 < 20) : Writes host vm rd (f (vm.regs rs1) (vm.regs rs2)) := by
  refine writes_of_exec host h (by omega) (by omega) (by omega) ?_
  rw [exec_alu host vm.advance hop, alu_of_lt _ hd h₁ h₂]
  rfl

theorem InstAt.div {op : Opcode} {f : Word64 → Word64 → Word64}
    (h : vm.InstAt vm.ip op rd rs1 rs2) (hop : divFn op = some f) (hd : rd < 20) (h₁ : rs1 < 20)
    (h₂ : rs2 < 20) (hz : vm.regs rs2 ≠ 0#64) :
    Writes host vm rd (f (vm.regs rs1) (vm.regs rs2)) := by
  refine writes_of_exec host h (by omega) (by omega) (by omega) ?_
  rw [exec_div host vm.advance hop hz, alu_of_lt _ hd h₁ h₂]
  rfl

theorem InstAt.div_zero {op : Opcode} {f : Word64 → Word64 → Word64}
    (h : vm.InstAt vm.ip op rd rs1 rs2) (hop : divFn op = some f) (hd : rd < 20) (h₁ : rs1 < 20)
    (h₂ : rs2 < 20) (hz : vm.regs rs2 = 0#64) (T : ℕ → Prop) :
    DividesByZero host T vm (vm.ip + 4) := by
  obtain ⟨r, hr, hcode⟩ := exec_div_zero host vm.advance hop hd h₁ h₂ hz
  refine ⟨vm, r, .refl host T vm, Nat.le_refl _, ?_, hcode⟩
  rw [h.fetch_eq (by omega) (by omega) (by omega), hr]

theorem InstAt.jmp {hi lo : ℕ} (h : vm.InstAt vm.ip .jmp 0 hi lo) (h₁ : hi < 256)
    (h₂ : lo < 256) : vm.fetch host = .ok { vm.advance with ip := hi * 256 + lo } :=
  h.fetch_eq (by decide) h₁ h₂ host

theorem InstAt.jz {hi lo : ℕ} (h : vm.InstAt vm.ip .jz rd hi lo) (hd : rd < 20) (h₁ : hi < 256)
    (h₂ : lo < 256) : vm.fetch host =
      .ok { vm.advance with ip := if vm.regs rd = 0#64 then hi * 256 + lo else vm.ip + 4 } := by
  rw [h.fetch_eq (by omega) h₁ h₂]
  refine congrArg Except.ok ?_
  by_cases hz : vm.regs rd = 0#64
  · rw [if_pos (show rd < px64NumRegisters ∧ vm.advance.regs rd = 0#64 from ⟨hd, hz⟩), if_pos hz]
  · rw [if_neg (fun hc : rd < px64NumRegisters ∧ vm.advance.regs rd = 0#64 => hz hc.2),
      if_neg hz]
    rfl

end Instructions

end PX64VM

end LatencyOS
