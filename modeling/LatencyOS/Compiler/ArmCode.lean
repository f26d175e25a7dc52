import LatencyOS.Compiler.LiteralCode
import LatencyOS.Compiler.Natives
import LatencyOS.Vm.Equality

/-!
# The code of the arms

What the machine does at the head of an arm: it compares the matched value with the pattern, and
goes on at the body or behind it.
-/

namespace LatencyOS

open CompilerState PX64VM

/-! ## On the machine -/

namespace PX64VM

variable {host : Host} {vm : PX64VM} {op : Opcode} {pos rd rs1 rs2 reg pat cmp next : ℕ}

/-- An instruction keeps the last byte of each operand. -/
theorem InstAt.mod (h : vm.InstAt pos op rd rs1 rs2) :
    vm.InstAt pos op (rd % 256) (rs1 % 256) (rs2 % 256) := by
  have hmod (n : ℕ) : UInt8.ofNat (n % 256) = UInt8.ofNat n := UInt8.ofNat_mod_size
  have hbytes : instBytes op (rd % 256) (rs1 % 256) (rs2 % 256) = instBytes op rd rs1 rs2 := by
    simp only [instBytes, hmod]
  intro i hi
  rw [hbytes]
  exact h i hi

theorem InstAt.jnz {hi lo : ℕ} (h : vm.InstAt vm.ip .jnz rd hi lo) (host : Host) (hd : rd < 20)
    (h₁ : hi < 256) (h₂ : lo < 256) : vm.fetch host =
      .ok { vm.advance with ip := if vm.regs rd = 0#64 then vm.ip + 4 else hi * 256 + lo } := by
  rw [h.fetch_eq (by omega) h₁ h₂]
  refine congrArg Except.ok ?_
  by_cases hz : vm.regs rd = 0#64
  · rw [if_neg (fun hc : rd < px64NumRegisters ∧ vm.advance.regs rd ≠ 0#64 => hc.2 hz), if_pos hz]
    rfl
  · rw [if_pos (show rd < px64NumRegisters ∧ vm.advance.regs rd ≠ 0#64 from ⟨hd, hz⟩), if_neg hz]

/-- A move or an exclusive or goes on with the next instruction, whatever its operands. -/
theorem passes_written (host : Host) (h : vm.InstAt vm.ip op rd rs1 rs2)
    (hop : op = .movReg ∨ op = .xor) :
    ∃ vm', Passes host (fun _ => True) vm vm' ∧ vm'.ip = vm.ip + 4 := by
  have hfetch := h.mod.fetch_eq (Nat.mod_lt _ (by decide)) (Nat.mod_lt _ (by decide))
    (Nat.mod_lt _ (by decide)) host
  have hset (v : Word64) : ∃ regs, vm.advance.setReg (rd % 256) v =
      { vm.advance with regs := regs } := by
    rw [setReg]
    split
    · exact ⟨_, rfl⟩
    · exact ⟨_, rfl⟩
  obtain ⟨regs, hexec⟩ : ∃ regs, vm.advance.exec host op (rd % 256) (rs1 % 256) (rs2 % 256) =
      .ok { vm.advance with regs := regs } := by
    rcases hop with rfl | rfl
    · simp only [exec, execCommon]
      split
      · obtain ⟨regs, hregs⟩ := hset (vm.advance.regs (rs1 % 256))
        exact ⟨regs, congrArg Except.ok hregs⟩
      · exact ⟨_, rfl⟩
    · simp only [exec, execCommon, alu]
      split
      · exact ⟨_, rfl⟩
      · exact ⟨_, rfl⟩
  rw [hexec] at hfetch
  exact ⟨_, .single hfetch (Nat.le_refl _) rfl rfl rfl rfl fun _ hr => absurd trivial hr, rfl⟩

/-- An instruction that writes a register, and a jump forward. -/
theorem passesIn_then {T : ℕ → Prop} {vm₁ : PX64VM} {ip : ℕ} (h₁ : Passes host T vm vm₁)
    (hip₁ : vm₁.ip = vm.ip + 4) (h₂ : vm₁.fetch host = .ok { vm₁.advance with ip := ip })
    (hle : vm₁.ip + 4 ≤ ip) :
    PassesIn host T vm.ip (vm.ip + 8) vm { vm₁.advance with ip := ip } :=
  ((PassesIn.of_short h₁ (Nat.le_of_eq hip₁)).mono (fun _ => id) (Nat.le_refl _)
    (by omega)).trans ((PassesIn.of_fetch (.jump h₂ hle) h₂).mono (fun _ => id) (by omega)
    (by omega))

/-- A comparison and a jump on its result. -/
theorem compare_runs (host : Host) (hcmp : vm.InstAt vm.ip .cmpEq cmp reg pat)
    (hjz : vm.InstAt (vm.ip + 4) .jz cmp (next / 256) (next % 256)) (hc : cmp < 20)
    (hreg : reg < 20) (hpat : pat < 20) (hnext : next < 65536) (hle : vm.ip + 8 ≤ next) :
    ∃ vm', PassesIn host (· = cmp) vm.ip (vm.ip + 8) vm vm' ∧ vm'.ip =
      if cmpEq vm.getStrBytes (vm.regs reg) (vm.regs pat) = true then vm.ip + 8 else next := by
  obtain ⟨vm₁, hp₁, hip₁, hval⟩ := hcmp.alu host rfl hc hreg hpat
  have hjz₁ : vm₁.InstAt vm₁.ip .jz cmp (next / 256) (next % 256) := by
    intro i hi
    rw [code_of_core hp₁.core, hip₁]
    exact hjz i hi
  have hfetch := hjz₁.jz host hc (by omega) (by omega)
  rw [hval, Nat.div_add_mod' next 256] at hfetch
  refine ⟨_, passesIn_then hp₁ hip₁ hfetch ?_, ?_⟩
  · split <;> omega
  · cases cmpEq vm.getStrBytes (vm.regs reg) (vm.regs pat) with
    | true =>
      change (if boolWord true = 0#64 then next else vm₁.ip + 4) = _
      rw [if_neg (by decide), if_pos rfl, hip₁]
    | false =>
      change (if boolWord false = 0#64 then next else vm₁.ip + 4) = _
      rw [if_pos (by decide), if_neg Bool.false_ne_true]

/-- A test of a result value and a jump on it. -/
theorem test_runs {f : Native} {b : Bool} (host : Host)
    (htest : vm.InstAt vm.ip .callNat cmp f.id reg)
    (hjnz : vm.InstAt (vm.ip + 4) .jnz cmp (next / 256) (next % 256)) (hf : f ∈ commonNatives)
    (hb : vm.advance.callNativeCommon f reg (vm.regs reg) = .ok (boolWord b)) (hc : cmp < 20)
    (hreg : reg < 20) (hnext : next < 65536) (hle : vm.ip + 8 ≤ next) :
    ∃ vm', PassesIn host (· = cmp) vm.ip (vm.ip + 8) vm vm' ∧
      vm'.ip = if b = true then next else vm.ip + 8 := by
  obtain ⟨vm₁, hp₁, hip₁, hval⟩ := htest.callNat host hc hreg hf hb
  have hjnz₁ : vm₁.InstAt vm₁.ip .jnz cmp (next / 256) (next % 256) := by
    intro i hi
    rw [code_of_core hp₁.core, hip₁]
    exact hjnz i hi
  have hfetch := hjnz₁.jnz host hc (by omega) (by omega)
  rw [hval, Nat.div_add_mod' next 256] at hfetch
  refine ⟨_, passesIn_then hp₁ hip₁ hfetch ?_, ?_⟩
  · split <;> omega
  · cases b with
    | true =>
      change (if boolWord true = 0#64 then vm₁.ip + 4 else next) = _
      rw [if_neg (by decide), if_pos rfl]
    | false =>
      change (if boolWord false = 0#64 then vm₁.ip + 4 else next) = _
      rw [if_pos (by decide), if_neg Bool.false_ne_true, hip₁]

end PX64VM

/-! ## Code with one jump patched -/

namespace CompilerState

variable {vm : PX64VM} {a b s : CompilerState} {op : Opcode} {q pos rd rs1 rs2 next : ℕ}

theorem InstIn.grow (h : InstIn a q op rd rs1 rs2) (hp : a.code <+: b.code) :
    InstIn b q op rd rs1 rs2 := by
  intro i hi
  have hin := h i hi
  have hlt : q + i < a.code.length := by
    by_contra hge
    rw [List.getElem?_eq_none (Nat.not_lt.mp hge), eq_comm, List.getElem?_eq_none_iff] at hin
    exact Nat.not_le.mpr hi hin
  obtain ⟨rest, hrest⟩ := hp
  rw [← hrest, List.getElem?_append_left hlt]
  exact hin

/-- The instructions aside from the jump are held. -/
theorem Holds.inst_patched (h : Holds vm a (s.patchImm16 pos next))
    (hin : InstIn s q op rd rs1 rs2) (hlo : a.code.length ≤ q) (hne : q + 4 ≤ pos ∨ pos + 4 ≤ q) :
    vm.InstAt q op rd rs1 rs2 :=
  h.inst (hin.of_eq fun i h₁ h₂ => getElem?_patchImm16_of_ne (by omega)) hlo

/-- The jump is held with its target. -/
theorem Holds.jump_patched (h : Holds vm a (s.patchImm16 pos next))
    (hin : InstIn s pos op rd 0 0) (hlo : a.code.length ≤ pos) (hroom : pos + 4 ≤ maxBytecodeSize) :
    vm.InstAt pos op rd (next / 256) (next % 256) :=
  h.inst (hin.patchImm16 hroom) hlo

/-- Patching a jump changes nothing behind it. -/
theorem getElem?_patchImm16_of_prefix (h : a.code <+: s.code) (hpos : pos + 4 ≤ a.code.length)
    {i : ℕ} (hi : i < a.code.length) :
    (s.patchImm16 pos next).code[i]? = (a.patchImm16 pos next).code[i]? := by
  obtain ⟨rest, hrest⟩ := h
  rw [CompilerState.patchImm16, CompilerState.patchImm16]
  split
  · simp only [← hrest]
    rw [List.set_append_left _ _ (by omega), List.set_append_left _ _ (by
      rw [List.length_set]; omega), List.getElem?_append_left (by simpa using hi)]
  · rw [← hrest, List.getElem?_append_left hi]

/-- What is emitted before the jump is held. -/
theorem Holds.before_patched (h : Holds vm a (s.patchImm16 pos next)) (hp : b.code <+: s.code)
    (hconsts : b.constPool <+: s.constPool) (hpos : b.code.length ≤ pos) : Holds vm a b where
  code := fun i h₁ h₂ => by
    obtain ⟨rest, hrest⟩ := hp
    have hlt : i < s.code.length := by
      rw [← hrest, List.length_append]
      omega
    rw [h.code i h₁ (by rwa [length_patchImm16]), getElem?_patchImm16_of_ne (by omega), ← hrest,
      List.getElem?_append_left h₂]
  consts := by
    have hc := h.consts
    rw [patchImm16_constPool] at hc
    exact hconsts.trans hc

end CompilerState

/-! ## In the compiler -/

namespace Compiler

variable {st s t a : CompilerState} {m pos reg pat : ℕ} {u : Unit}

theorem Moved.still (h : Moved st t) : Still st t := by
  obtain ⟨c, rfl⟩ := h
  exact ⟨rfl, rfl, rfl⟩

theorem Moved.grows (h : Moved st t) : Grows st t := by
  obtain ⟨c, rfl⟩ := h
  exact .of_append rfl rfl rfl List.prefix_rfl List.prefix_rfl List.prefix_rfl

theorem moved_fatArrow {suggestion : String} (h : Yields (fatArrow suggestion) st u t) :
    Moved st t := by
  simp only [fatArrow, yields_bind, yields_require] at h
  obtain ⟨_, _, hm, -, rfl⟩ := h
  exact moved_matchToken hm

/-- The variable of a pattern is its third token. -/
theorem bindPattern_of_yields {variant stage hint close arrow : String} {tok : Token}
    (hk : st.peek.kind ≠ .eof) (h : Yields (bindPattern variant stage hint close arrow) st tok t) :
    tok = st.peekAhead 2 ∧ Moved st t := by
  simp only [bindPattern, yields_bind, yields_require, yields_pure] at h
  obtain ⟨_, _, h₁, opened, _, h₂, _, _, ⟨hopened, rfl⟩, _, _, h₃, _, _, h₄, _, _, ⟨-, rfl⟩, _, _,
    h₅, rfl, rfl⟩ := h
  obtain ⟨rfl, rfl⟩ := (yields_advance hk).mp h₁
  have hparen : st.next.peek.kind = .lParen := by
    by_contra hne
    exact Bool.noConfusion (hopened.symm.trans ((yields_matchToken_of_ne hne).mp h₂).1)
  obtain ⟨-, rfl⟩ := (yields_matchToken_of_eq hparen (by decide)).mp h₂
  obtain ⟨htok, h₃⟩ := moved_advance h₃
  have hstart : Moved st st.next.next := ⟨_, rfl⟩
  exact ⟨htok, hstart.trans (h₃.trans ((moved_matchToken h₄).trans (moved_fatArrow h₅)))⟩

/-- What is emitted stays. -/
theorem code_prefix_emitted (st : CompilerState) (op : Opcode) (rd rs1 rs2 : ℕ) :
    st.code <+: (st.emitted op rd rs1 rs2).code := List.prefix_append _ _

/-- A comparison with a pattern and the jump behind the body. -/
structure Tests (pos : ℕ) (op jop : Opcode) (rs1 rs2 : ℕ) (a s : CompilerState) : Prop where
  code : a.code <+: s.code
  consts : s.constPool = a.constPool
  length : s.code.length = a.code.length + 8
  pos_eq : pos = a.code.length + 4
  room : pos + 4 ≤ maxBytecodeSize
  insts : ∃ cmp, a.Free cmp ∧ InstIn s a.code.length op cmp rs1 rs2 ∧ InstIn s pos jop cmp 0 0

theorem tests_of_emitted {op jop : Opcode} {rs1 rs2 : ℕ} (hm : a.freeSlot = some m)
    (hroom : a.code.length + 8 ≤ maxBytecodeSize)
    (hs : s.code = (((a.take m).emitted op (15 - m) rs1 rs2).emitted jop (15 - m) 0 0).code)
    (hconsts : s.constPool = a.constPool) :
    Tests (a.code.length + 4) op jop rs1 rs2 a s where
  code := by
    rw [hs]
    exact (code_prefix_emitted (a.take m) ..).trans (code_prefix_emitted _ ..)
  consts := hconsts
  length := by
    rw [hs]
    simp only [CompilerState.emitted, List.length_append, length_instBytes]
    rfl
  pos_eq := rfl
  room := hroom
  insts := by
    refine ⟨15 - m, free_of_freeSlot hm, ?_, ?_⟩
    · refine InstIn.grow (instIn_emitted (a.take m) op (15 - m) rs1 rs2) ?_
      rw [hs]
      exact code_prefix_emitted _ ..
    · have h := instIn_emitted ((a.take m).emitted op (15 - m) rs1 rs2) jop (15 - m) 0 0
      rw [show ((a.take m).emitted op (15 - m) rs1 rs2).code.length = a.code.length + 4 by
        simp only [CompilerState.emitted, List.length_append, length_instBytes]; rfl] at h
      exact h.grow (hs ▸ List.prefix_rfl)

theorem compareArm_of_yields (h : Yields (compareArm reg pat) a pos s) :
    Tests pos .cmpEq .jz reg pat a s := by
  simp only [compareArm, yields_bind, yields_allocTemp, yields_emit, yields_freeTemp, emitImm16,
    yields_emitInst, yields_pure] at h
  obtain ⟨_, _, ⟨m, hm, rfl, rfl⟩, _, _, ⟨-, rfl⟩, _, _, rfl, _, _, ⟨hroom, rfl, rfl⟩, _, _, rfl,
    rfl, rfl⟩ := h
  rw [freeTemp_code] at hroom ⊢
  rw [length_emitted] at hroom ⊢
  refine tests_of_emitted hm hroom ?_ ?_
  · rw [freeTemp_code]
    exact congrArg (· ++ _) (freeTemp_code ..)
  · simp only [freeTemp_constPool, CompilerState.emitted, CompilerState.take]

theorem skipWhen_of_yields {f : Native} (h : Yields (skipWhen f reg) a pos s) :
    Tests pos .callNat .jnz f.id reg a s ∧ s.tempUsed = a.tempUsed := by
  simp only [skipWhen, yields_bind, yields_allocTemp, yields_emit, yields_freeTemp, emitImm16,
    yields_emitInst, yields_pure] at h
  obtain ⟨_, _, ⟨m, hm, rfl, rfl⟩, _, _, ⟨-, rfl⟩, _, _, ⟨hroom, rfl, rfl⟩, _, _, rfl, rfl, rfl⟩ :=
    h
  rw [length_emitted] at hroom ⊢
  refine ⟨tests_of_emitted hm hroom (freeTemp_code ..) ?_, temps_freeTemp hm rfl⟩
  rw [freeTemp_constPool]
  rfl

theorem grows_skipWhen {f : Native} (h : Yields (skipWhen f reg) a pos s) : Grows a s := by
  simp only [skipWhen, yields_bind, yields_allocTemp, yields_emit, yields_freeTemp, emitImm16,
    yields_emitInst, yields_pure] at h
  obtain ⟨_, _, ⟨m, -, rfl, rfl⟩, _, _, ⟨-, rfl⟩, _, _, ⟨-, rfl, rfl⟩, _, _, rfl, rfl, rfl⟩ := h
  exact (Grows.take a m).trans ((Segment.emitted _ ..).grows.trans
    ((Segment.emitted _ ..).grows.trans (.freeTemp ..)))

/-- The head of an arm that tests the matched value: the jump at `pos` skips the body. -/
structure HeadCode (reg : ℕ) (q : Pattern) (pos : ℕ) (st s : CompilerState) : Prop where
  code : st.code <+: s.code
  pos_ge : st.code.length ≤ pos
  pos_le : pos + 4 ≤ s.code.length
  runs : ∀ (host : Host) (vm : PX64VM) (next : ℕ), Holds vm st (s.patchImm16 pos next) →
    vm.ip = st.code.length → s.code.length ≤ next → next < 65536 → reg < 20 → ¬ st.Free reg →
    (q.Matches vm.getStrBytes (vm.regs reg) →
      ∃ vm', PassesIn host (fun _ => True) st.code.length s.code.length vm vm' ∧
        vm'.ip = s.code.length) ∧
    (¬ q.Matches vm.getStrBytes (vm.regs reg) →
      ∃ vm', PassesIn host (· ≠ reg) st.code.length s.code.length vm vm' ∧ vm'.ip = next)

/-- A comparison with a register runs on the machine. -/
theorem Tests.compares (h : Tests pos .cmpEq .jz reg pat a s) {vm : PX64VM} {next : ℕ}
    (hvm : Holds vm a (s.patchImm16 pos next)) (hip : vm.ip = a.code.length) (hreg : reg < 20)
    (hpat : pat < 20) (hle : s.code.length ≤ next) (hnext : next < 65536) (host : Host) :
    ∃ vm', PassesIn host a.Free a.code.length s.code.length vm vm' ∧ vm'.ip =
      if cmpEq vm.getStrBytes (vm.regs reg) (vm.regs pat) = true then s.code.length else next := by
  obtain ⟨cmp, hfree, hcmp, hjz⟩ := h.insts
  have hlen := h.length
  have hpos := h.pos_eq
  have hcmp' := hvm.inst_patched hcmp (Nat.le_refl _) (.inl (Nat.le_of_eq hpos.symm))
  have hjz' := hvm.jump_patched hjz (by omega) h.room
  rw [hpos, ← hip] at hjz'
  rw [← hip] at hcmp'
  have hcmp20 : cmp < 20 := by
    have := hfree.2.1
    omega
  obtain ⟨vm', hp, hip'⟩ := compare_runs host hcmp' hjz' hcmp20 hreg hpat hnext (by omega)
  refine ⟨vm', hp.mono (fun r hr => hr ▸ hfree) (Nat.le_of_eq hip.symm) (by omega), ?_⟩
  rw [hip', hlen, hip]

/-- A test of a result value runs on the machine. -/
theorem Tests.tests {f : Native} (h : Tests pos .callNat .jnz f.id reg a s) {vm : PX64VM}
    {next : ℕ} {b : Bool} (hvm : Holds vm a (s.patchImm16 pos next)) (hip : vm.ip = a.code.length)
    (hreg : reg < 20) (hf : f ∈ commonNatives)
    (hb : vm.advance.callNativeCommon f reg (vm.regs reg) = .ok (boolWord b))
    (hle : s.code.length ≤ next) (hnext : next < 65536) (host : Host) :
    ∃ vm', PassesIn host a.Free a.code.length s.code.length vm vm' ∧
      vm'.ip = if b = true then next else s.code.length := by
  obtain ⟨cmp, hfree, htest, hjnz⟩ := h.insts
  have hlen := h.length
  have hpos := h.pos_eq
  have htest' := hvm.inst_patched htest (Nat.le_refl _) (.inl (Nat.le_of_eq hpos.symm))
  have hjnz' := hvm.jump_patched hjnz (by omega) h.room
  rw [hpos, ← hip] at hjnz'
  rw [← hip] at htest'
  have hcmp20 : cmp < 20 := by
    have := hfree.2.1
    omega
  obtain ⟨vm', hp, hip'⟩ := test_runs host htest' hjnz' hf hb hcmp20 hreg hnext (by omega)
  refine ⟨vm', hp.mono (fun r hr => hr ▸ hfree) (Nat.le_of_eq hip.symm) (by omega), ?_⟩
  rw [hip', hlen, hip]

/-! ### Bindings -/

/-- A result value is tested for, and its payload is written to a register. -/
structure Binds (reg d : ℕ) (ok : Word64 → Prop) (f : Word64 → Word64) (a s : CompilerState) :
    Prop where
  code : a.code <+: s.code
  consts : a.constPool <+: s.constPool
  runs : ∀ (host : Host) (vm : PX64VM), Holds vm a s → vm.ip = a.code.length → reg < 20 →
    ¬ a.Free reg → ok (vm.regs reg) → ∃ vm',
      PassesIn host (fun _ => True) a.code.length s.code.length vm vm' ∧
      vm'.ip = s.code.length ∧ (d < 20 → vm'.regs d = f (vm.regs reg))

/-- The register of a variable, as it is known behind the binding. -/
def Resolves (tok : Token) (d : ℕ) (a s : CompilerState) : Prop :=
  ∃ b, Yields (resolveVar tok) a d b ∧ Grows b s

/-- The name of a variable is resolved without code. -/
theorem resolveVar_of_yields {tok : Token} {d : ℕ} {b : CompilerState}
    (h : Yields (resolveVar tok) a d b) : Still a b := by
  rw [Yields, resolveVar, Prog.run_op, perform, CompilerState.resolveVar] at h
  split at h
  · cases h
  split at h
  · cases h
    exact .refl _
  split at h
  · cases h
    exact .refl _
  split at h
  · cases h
    exact .refl _
  split at h
  · cases h
  · cases h
    exact ⟨rfl, rfl, rfl⟩

/-- An instruction that writes a word to a variable, or to none. -/
theorem writes_variable {vm : PX64VM} {op : Opcode} {d rs1 rs2 : ℕ} {v : Word64} (host : Host)
    (h : vm.InstAt vm.ip op d rs1 rs2) (hop : op = .movReg ∨ op = .xor)
    (hv : d < 20 → Writes host vm d v) :
    ∃ vm', Passes host (fun _ => True) vm vm' ∧ vm'.ip = vm.ip + 4 ∧ (d < 20 → vm'.regs d = v) := by
  by_cases hd : d < 20
  · obtain ⟨vm', hp, hip, hval⟩ := hv hd
    exact ⟨vm', hp.mono fun _ _ => trivial, hip, fun _ => hval⟩
  · obtain ⟨vm', hp, hip⟩ := passes_written host h hop
    exact ⟨vm', hp, hip, fun hd' => absurd hd' hd⟩

/-- A binding is a word in a fresh temporary, and an instruction that writes the variable. -/
theorem binds_of_emitted {tok : Token} {ok : Word64 → Prop} {f g : Word64 → Word64} {op : Opcode}
    {b t : CompilerState} {d x y : ℕ} (hd : Yields (resolveVar tok) a d b)
    (hm : b.freeSlot = some m) (hop : op = .movReg ∨ op = .xor) (hgrows : Grows (b.take m) t)
    (hlen : t.code.length = b.code.length + 4) (hs : s = (t.emitted op d x y).freeTemp (15 - m))
    (hfirst : ∀ (host : Host) (vm : PX64VM), Holds vm (b.take m) t → vm.ip = b.code.length →
      reg < 20 → ok (vm.regs reg) → Writes host vm (15 - m) (g (vm.regs reg)))
    (hlast : ∀ (host : Host) (vm : PX64VM) (v : Word64), vm.InstAt vm.ip op d x y → reg < 20 →
      d < 20 → vm.regs reg = v → vm.regs (15 - m) = g v → Writes host vm d (f v)) :
    Resolves tok d a s ∧ Binds reg d ok f a s := by
  subst hs
  have hb := resolveVar_of_yields hd
  have hcode' : t.code <+: ((t.emitted op d x y).freeTemp (15 - m)).code := by
    rw [freeTemp_code]
    exact code_prefix_emitted ..
  refine ⟨⟨b, hd, (Grows.take b m).trans (hgrows.trans ((Segment.emitted t op d x y).grows.trans
    (.freeTemp ..)))⟩, ?_, ?_, fun host vm hvm hip hreg hfree hok => ?_⟩
  · rw [← hb.code]
    exact (code_prefix_of_grows hgrows).trans hcode'
  · rw [freeTemp_constPool, ← hb.consts]
    exact hgrows.consts
  · have hlast' : vm.InstAt (vm.ip + 4) op d x y := by
      rw [hip, ← hb.code, ← hlen]
      refine hvm.inst (InstIn.grow (instIn_emitted t op d x y) ?_) (by rw [hlen, hb.code]; omega)
      exact (freeTemp_code (t.emitted op d x y) (15 - m)) ▸ List.prefix_rfl
    have hvm' : Holds vm (b.take m) t := by
      have hleft := left_of_prefix hvm hcode' (by rw [freeTemp_constPool]; exact List.prefix_rfl)
      exact ⟨fun i hi => hleft.code i (hb.code ▸ hi), hleft.consts⟩
    obtain ⟨vm₁, hp₁, hip₁, hv₁⟩ :=
      hfirst host vm hvm' (hip.trans (congrArg _ hb.code.symm)) hreg hok
    have hne : reg ≠ 15 - m := fun heq => hfree (heq ▸ hb.free (free_of_freeSlot hm))
    have hlast₁ : vm₁.InstAt vm₁.ip op d x y := by
      intro i hi
      rw [code_of_core hp₁.core, hip₁]
      exact hlast' i hi
    obtain ⟨vm₂, hp₂, hip₂, hv₂⟩ := writes_variable host hlast₁ hop fun hd =>
      hlast host vm₁ (vm.regs reg) hlast₁ hreg hd (hp₁.frame reg hne) hv₁
    have hba : b.code.length = a.code.length := congrArg List.length hb.code
    rw [freeTemp_code, length_emitted]
    refine ⟨vm₂, ((PassesIn.of_short hp₁ (Nat.le_of_eq hip₁)).mono (fun _ _ => trivial)
      (Nat.le_of_eq hip.symm) (by omega)).trans ((PassesIn.of_short hp₂ (Nat.le_of_eq hip₂)).mono
      (fun _ => id) (by omega) (by omega)), by omega, hv₂⟩

theorem bindOk_of_yields {tok : Token} (h : Yields (bindOk reg tok) a u s) :
    ∃ d, Resolves tok d a s ∧ Binds reg d (hasTag · errTag = false) id a s := by
  simp only [bindOk, yields_bind, yields_allocTemp, yields_emit, yields_freeTemp] at h
  obtain ⟨d, b, hd, _, _, ⟨m, hm, rfl, rfl⟩, _, _, ⟨-, rfl⟩, _, _, ⟨-, rfl⟩, hs⟩ := h
  refine ⟨d, binds_of_emitted (g := id) hd hm (.inl rfl) (Segment.emitted (b.take m) ..).grows
    (length_emitted (b.take m) ..) hs ?_ ?_⟩
  · intro host vm hvm hip hreg hok
    have hcall := hvm.inst (instIn_emitted (b.take m) .callNat (15 - m) Native.unwrap.id reg)
      (Nat.le_refl _)
    have hval : vm.advance.callNativeCommon .unwrap reg (vm.regs reg) = .ok (vm.regs reg) :=
      if_neg (by rw [hok]; exact Bool.false_ne_true)
    exact InstAt.callNat (hip.symm ▸ hcall) host (by omega) hreg (by decide) hval
  · intro host vm v hinst hreg hd hv hg
    rw [← hg]
    exact hinst.movReg host hd (by omega)

theorem bindErr_of_yields {tok : Token} (hfits : Fits a) (h : Yields (bindErr reg tok) a u s) :
    ∃ d, Resolves tok d a s ∧ Binds reg d (fun _ => True) (· ^^^ errTag) a s := by
  simp only [bindErr, yields_bind, yields_allocTemp, yields_emit, yields_freeTemp] at h
  obtain ⟨d, b, hd, _, _, ⟨m, hm, rfl, rfl⟩, _, t, hconst, _, _, ⟨-, rfl⟩, hs⟩ := h
  have hpool : (b.take m).constPool.length ≤ maxConstPool := (fits_of_yields hd hfits).pool
  have hload := loads_of_yields hpool hconst
  refine ⟨d, binds_of_emitted (g := fun _ => errTag) hd hm (.inr rfl) hload.segment.grows
    hload.codeLen hs ?_ ?_⟩
  · intro host vm hvm hip hreg _
    exact hload.writes hvm hip (by omega) host
  · intro host vm v hinst hreg hd hv hg
    have hxor := hinst.alu host rfl hd hreg (show 15 - m < 20 by omega)
    rw [hv, hg] at hxor
    exact hxor

/-! ### Heads -/

variable {a₀ : CompilerState} {q : Pattern} {c : Word64}

/-- A pattern that is loaded and compared. -/
theorem headCode_of_literal (h₀ : Still st a₀) (hm : a₀.freeSlot = some m)
    (hlit : LiteralCode c (15 - m) none (a₀.take m) t) (ht : Still t a)
    (htest : Tests pos .cmpEq .jz reg (15 - m) a s)
    (hq : ∀ vm : PX64VM, q.Matches vm.getStrBytes (vm.regs reg) ↔
      cmpEq vm.getStrBytes (vm.regs reg) c = true) : HeadCode reg q pos st s := by
  have hpre : st.code <+: t.code := h₀.code ▸ hlit.code
  have hpos := htest.pos_eq
  have hlen := htest.length
  have hta : t.code.length = a.code.length := congrArg List.length ht.code.symm
  have hle := hpre.length_le
  refine ⟨hpre.trans (ht.code ▸ htest.code), by omega, by omega,
    fun host vm next hvm hip hle' hnext hreg hfree => ?_⟩
  have hvm₁ : Holds vm st a := hvm.before_patched htest.code (htest.consts ▸ List.prefix_rfl)
    (by omega)
  have hvm₂ : Holds vm (a₀.take m) t :=
    ⟨fun i hi => (ht.holds hvm₁).code i (h₀.code ▸ hi), (ht.holds hvm₁).consts⟩
  obtain ⟨vm₁, hp₁, hip₁, hv₁⟩ := hlit.runs host vm hvm₂
    (hip.trans (congrArg List.length h₀.code.symm)) (by omega)
  have hsub : ∀ r, (a₀.take m).Free r → st.Free r := fun r hr =>
    h₀.free (hr.of_take (freeSlot_eq_some hm).1).1
  have hframe : ∀ r, r = 15 - m ∨ (a₀.take m).Free r → r ≠ reg := by
    rintro r (rfl | hr) rfl
    · exact hfree (h₀.free (free_of_freeSlot hm))
    · exact hfree (hsub r hr)
  have hkeep : vm₁.regs reg = vm.regs reg := hp₁.frame reg fun hr => hframe reg hr rfl
  have hvm₃ : Holds vm₁ a (s.patchImm16 pos next) :=
    (hvm.right (b := a) (by rw [← hta]; exact hle)).of_core hp₁.core
  obtain ⟨vm₂, hp₂, hip₂⟩ := htest.compares hvm₃ (hip₁.trans hta) hreg (by omega) hle' hnext host
  rw [hv₁ rfl, hkeep, getStrBytes_of_core hp₁.core] at hip₂
  have hframe' : ∀ r, a.Free r → r ≠ reg := by
    rintro r hr rfl
    refine hfree (hsub r ⟨hr.1, hr.2.1, ?_⟩)
    rw [← hlit.temps, ← ht.temps]
    exact hr.2.2
  have hst : (a₀.take m).code.length = st.code.length := congrArg List.length h₀.code
  have hp : PassesIn host (· ≠ reg) st.code.length s.code.length vm vm₂ :=
    (hp₁.mono hframe (Nat.le_of_eq hst.symm) (by omega)).trans
      (hp₂.mono hframe' (by omega) (Nat.le_refl _))
  constructor
  · intro hmatch
    rw [if_pos ((hq vm).mp hmatch)] at hip₂
    exact ⟨vm₂, hp.mono (fun _ _ => trivial) (Nat.le_refl _) (Nat.le_refl _), hip₂⟩
  · intro hmatch
    rw [if_neg (fun heq => hmatch ((hq vm).mpr heq))] at hip₂
    exact ⟨vm₂, hp, hip₂⟩

/-- The head of an arm that tests a result value and binds its payload to register `d`: the jump at
`pos` skips the body of the other kind. -/
structure BindCode (reg d pos : ℕ) (other : Word64 → Bool) (g : Word64 → Word64)
    (st s : CompilerState) : Prop where
  code : st.code <+: s.code
  pos_ge : st.code.length ≤ pos
  pos_le : pos + 4 ≤ s.code.length
  runs : ∀ (host : Host) (vm : PX64VM) (next : ℕ), Holds vm st (s.patchImm16 pos next) →
    vm.ip = st.code.length → s.code.length ≤ next → next < 65536 → reg < 20 → ¬ st.Free reg →
    (other (vm.regs reg) = false →
      ∃ vm', PassesIn host (fun _ => True) st.code.length s.code.length vm vm' ∧
        vm'.ip = s.code.length ∧ (d < 20 → vm'.regs d = g (vm.regs reg))) ∧
    (other (vm.regs reg) = true →
      ∃ vm', PassesIn host (· ≠ reg) st.code.length s.code.length vm vm' ∧ vm'.ip = next)

/-- A result value that is tested and bound. -/
theorem bindCode_of_tests {f : Native} {d : ℕ} {ok : Word64 → Prop} {g : Word64 → Word64}
    {b : Word64 → Bool} (h₀ : Still st a₀) (htest : Tests pos .callNat .jnz f.id reg a₀ a)
    (htemps : a.tempUsed = a₀.tempUsed) (hf : f ∈ commonNatives) (hbind : Binds reg d ok g a s)
    (hb : ∀ (vm : PX64VM) (v : Word64), vm.callNativeCommon f reg v = .ok (boolWord (b v)))
    (hok : ∀ v, b v = false → ok v) : BindCode reg d pos b g st s := by
  have hpos := htest.pos_eq
  have hlen := htest.length
  have hst : a₀.code.length = st.code.length := congrArg List.length h₀.code
  have has := hbind.code.length_le
  refine ⟨?_, by omega, by omega, fun host vm next hvm hip hle hnext hreg hfree => ?_⟩
  · rw [← h₀.code]
    exact htest.code.trans hbind.code
  have hvm₁ : Holds vm a₀ (a.patchImm16 pos next) := by
    refine ⟨fun i hi hlt => ?_, ?_⟩
    · rw [length_patchImm16] at hlt
      rw [hvm.code i (hst ▸ hi) (by rw [length_patchImm16]; omega)]
      exact getElem?_patchImm16_of_prefix hbind.code (by omega) hlt
    · rw [patchImm16_constPool]
      have hc := hvm.consts
      rw [patchImm16_constPool] at hc
      exact hbind.consts.trans hc
  have hvm₂ : Holds vm a s := by
    refine ⟨fun i hi hlt => ?_, ?_⟩
    · rw [hvm.code i (by omega) (by rwa [length_patchImm16]), getElem?_patchImm16_of_ne (by omega)]
    · have hc := hvm.consts
      rwa [patchImm16_constPool] at hc
  have hfree₀ : ¬ a₀.Free reg := fun hr => hfree (h₀.free hr)
  obtain ⟨vm₁, hp₁, hip₁⟩ := htest.tests hvm₁ (hip.trans hst.symm) hreg hf (hb _ _) (by omega)
    hnext host
  have hframe : ∀ r, a₀.Free r → r ≠ reg := by
    rintro r hr rfl
    exact hfree₀ hr
  have hp : PassesIn host (· ≠ reg) st.code.length s.code.length vm vm₁ :=
    hp₁.mono hframe (Nat.le_of_eq hst.symm) has
  constructor
  · intro hbv
    rw [hbv, if_neg Bool.false_ne_true] at hip₁
    have hfree₁ : ¬ a.Free reg := fun hr => hfree₀ ⟨hr.1, hr.2.1, htemps ▸ hr.2.2⟩
    have hkeep : vm₁.regs reg = vm.regs reg := hp₁.frame reg hfree₀
    obtain ⟨vm₂, hp₂, hip₂, hval⟩ := hbind.runs host vm₁ (hvm₂.of_core hp₁.core) hip₁ hreg
      hfree₁ (by rw [hkeep]; exact hok _ hbv)
    rw [hkeep] at hval
    exact ⟨vm₂, (hp.mono (fun _ _ => trivial) (Nat.le_refl _) (Nat.le_refl _)).trans
      (hp₂.mono (fun _ => id) (by omega) (Nat.le_refl _)), hip₂, hval⟩
  · intro hbv
    rw [if_pos hbv] at hip₁
    exact ⟨vm₁, hp, hip₁⟩

theorem BindCode.headCode {d : ℕ} {b : Word64 → Bool} {g : Word64 → Word64}
    (h : BindCode reg d pos b g st s)
    (hq : ∀ vm : PX64VM, q.Matches vm.getStrBytes (vm.regs reg) ↔ b (vm.regs reg) = false) :
    HeadCode reg q pos st s := by
  refine ⟨h.code, h.pos_ge, h.pos_le, fun host vm next hvm hip hle hnext hreg hfree => ?_⟩
  obtain ⟨hyes, hno⟩ := h.runs host vm next hvm hip hle hnext hreg hfree
  constructor
  · intro hmatch
    obtain ⟨vm', hp, hip', -⟩ := hyes ((hq vm).mp hmatch)
    exact ⟨vm', hp, hip'⟩
  · intro hmatch
    exact hno (by simpa using fun heq => hmatch ((hq vm).mpr heq))

variable {arms : Arms} {hd : ArmHead} {fuel n : ℕ}

theorem text_of_yields {tok : Token} {name : List UInt8} (h : Yields (text tok) st name t) :
    st.text? tok = some name ∧ t = st := by
  cases hx : st.text? tok with
  | some x =>
    obtain ⟨rfl, rfl⟩ := (yields_text hx).mp h
    exact ⟨rfl, rfl⟩
  | none =>
    simp only [text, yields_bind, yields_get] at h
    obtain ⟨_, _, ⟨rfl, rfl⟩, h⟩ := h
    rw [hx] at h
    exact absurd h not_yields_panic

theorem wildcardHead_of_yields (h : Yields (wildcardHead arms) st hd s) :
    hd.skip = none ∧ hd.seen.jumps = arms.jumps ∧ Still st s := by
  simp only [wildcardHead, yields_bind, yields_pure] at h
  obtain ⟨_, _, hadv, _, _, harrow, rfl, rfl⟩ := h
  exact ⟨rfl, rfl, ((moved_advance hadv).2.trans (moved_fatArrow harrow)).still⟩

/-- The head of an `Ok` arm binds the value as it is. -/
theorem okHead_binds (hk : st.peek.kind ≠ .eof) (h : Yields (okHead reg arms) st hd s) :
    hd.seen.jumps = arms.jumps ∧ ∃ pos d a, hd.skip = some pos ∧ Grows st a ∧
      Resolves (st.peekAhead 2) d a s ∧ BindCode reg d pos (hasTag · errTag) id st s := by
  simp only [okHead, yields_bind, yields_pure] at h
  obtain ⟨tok, a₀, hpat, pos, a, hskip, _, _, hbind, rfl, rfl⟩ := h
  obtain ⟨rfl, hmoved⟩ := bindPattern_of_yields hk hpat
  obtain ⟨htest, htemps⟩ := skipWhen_of_yields hskip
  obtain ⟨d, hres, hbinds⟩ := bindOk_of_yields hbind
  exact ⟨rfl, pos, d, a, rfl, hmoved.grows.trans (grows_skipWhen hskip), hres,
    bindCode_of_tests hmoved.still htest htemps (by decide) hbinds (fun _ _ => rfl) fun _ hv => hv⟩

/-- The head of an `Err` arm binds the value without the tag. -/
theorem errHead_binds (hk : st.peek.kind ≠ .eof) (hfits : Fits st)
    (h : Yields (errHead reg arms) st hd s) :
    hd.seen.jumps = arms.jumps ∧ ∃ pos d a, hd.skip = some pos ∧ Grows st a ∧
      Resolves (st.peekAhead 2) d a s ∧
      BindCode reg d pos (fun v => !hasTag v errTag) (· ^^^ errTag) st s := by
  simp only [errHead, yields_bind, yields_pure] at h
  obtain ⟨tok, a₀, hpat, pos, a, hskip, _, _, hbind, rfl, rfl⟩ := h
  have hfits' := fits_of_yields hskip (fits_of_yields hpat hfits)
  obtain ⟨rfl, hmoved⟩ := bindPattern_of_yields hk hpat
  obtain ⟨htest, htemps⟩ := skipWhen_of_yields hskip
  obtain ⟨d, hres, hbinds⟩ := bindErr_of_yields hfits' hbind
  exact ⟨rfl, pos, d, a, rfl, hmoved.grows.trans (grows_skipWhen hskip), hres,
    bindCode_of_tests hmoved.still htest htemps (by decide) hbinds (fun _ _ => rfl)
      fun _ _ => trivial⟩

theorem valueHead_of_yields (hlit : st.literalAt = some c) (hfits : Fits st)
    (h : Yields (valueHead (recN fuel n) reg arms) st hd s) :
    hd.seen.jumps = arms.jumps ∧
      ∃ pos, hd.skip = some pos ∧ HeadCode reg (.literal c) pos st s := by
  simp only [valueHead, yields_bind, yields_allocTemp, yields_pure] at h
  obtain ⟨_, _, ⟨m, hm, rfl, rfl⟩, _, t, hexpr, _, a, harrow, pos, _, hcmp, rfl, rfl⟩ := h
  obtain ⟨n, rfl, hexpr⟩ := expression_of_yields hexpr
  have hlit' : LiteralCode c (15 - m) none (st.take m) t :=
    literal_of_yields hlit ⟨hfits.code, hfits.pool⟩ hexpr
  exact ⟨rfl, pos, rfl, headCode_of_literal (.refl st) hm hlit' (moved_fatArrow harrow).still
    (compareArm_of_yields hcmp) fun vm => Iff.rfl⟩

/-- A variant is loaded as an immediate of two bytes. -/
theorem literalCode_variant {idx dst : ℕ} (ht : t = a.emitted .movImm dst (idx / 256) (idx % 256)) :
    LiteralCode (BitVec.ofNat 64 (idx % 65536)) dst none a t := by
  subst ht
  refine ⟨code_prefix_emitted .., List.prefix_rfl, rfl, .inr rfl, fun host vm hvm hip hd => ?_⟩
  have hinst := (hvm.inst (instIn_emitted a .movImm dst (idx / 256) (idx % 256))
    (Nat.le_refl _)).mod
  rw [← hip, Nat.mod_eq_of_lt (show dst < 256 by omega)] at hinst
  obtain ⟨vm', hp, hip', hv⟩ := hinst.movImm host hd (Nat.mod_lt _ (by decide))
    (Nat.mod_lt _ (by decide))
  rw [length_emitted]
  refine ⟨vm', (PassesIn.of_short hp (Nat.le_of_eq hip')).mono (fun r => .inl)
    (Nat.le_of_eq hip.symm) (by omega), by omega, fun _ => ?_⟩
  · rw [hv, show idx / 256 % 256 * 256 + idx % 256 % 256 = idx % 65536 by omega]

/-- A word without tag bits is equal to itself only. -/
theorem cmpEq_variant {str : Word64 → Option (List UInt8)} {v : Word64} {idx : ℕ} :
    cmpEq str v (BitVec.ofNat 64 (idx % 65536)) = true ↔ v = BitVec.ofNat 64 (idx % 65536) := by
  have hlt : idx % 65536 < 65536 := Nat.mod_lt _ (by decide)
  have hbit (i : ℕ) (hi : 16 ≤ i) (hi' : i < 64) :
      hasTag (BitVec.ofNat 64 (idx % 65536)) (BitVec.twoPow 64 i) = false := by
    rw [hasTag_twoPow hi', BitVec.getLsbD_ofNat,
      Nat.testBit_lt_two_pow
        (Nat.lt_of_lt_of_le hlt (Nat.pow_le_pow_right (n := 2) (by decide) hi)),
      Bool.and_false]
  have htag : (hasTag (BitVec.ofNat 64 (idx % 65536)) strTag ||
      hasTag (BitVec.ofNat 64 (idx % 65536)) argTag) = false := by
    rw [strTag_eq, argTag_eq, hbit 62 (by decide) (by decide),
      hbit 61 (by decide) (by decide), Bool.or_false]
  rw [cmpEq]
  split
  · next heq => exact iff_of_true rfl heq
  · next hne =>
    rw [htag, Bool.and_false, if_neg Bool.false_ne_true]
    exact iff_of_false Bool.false_ne_true hne

theorem enumHead_of_yields (hk : st.peek.kind ≠ .eof) (hcolon : (st.peekAhead 1).kind = .colonColon)
    (h : Yields (enumHead reg arms) st hd s) :
    hd.seen.jumps = arms.jumps ∧ ∃ pos idx, hd.skip = some pos ∧
      ((st.text? st.peek).bind fun n => (st.text? (st.peekAhead 2)).bind (st.variantOf n)) =
        some idx ∧ HeadCode reg (.variant idx) pos st s := by
  simp only [enumHead, yields_bind, yields_require] at h
  obtain ⟨_, _, h₁, _, _, h₂, varTok, t₃, h₃, _, _, ⟨hident, rfl⟩, enumName, _, hn₁, varName, _,
    hn₂, enumIdx, _, hlookup, h⟩ := h
  obtain ⟨rfl, rfl⟩ := (yields_advance hk).mp h₁
  have hk₂ : st.next.peek.kind = .colonColon := hcolon
  obtain ⟨-, rfl⟩ := (yields_advance (by rw [hk₂]; exact TokenKind.noConfusion)).mp h₂
  obtain ⟨rfl, -⟩ := moved_advance h₃
  rw [decide_eq_true_eq] at hident
  obtain ⟨-, rfl⟩ := (yields_advance (by rw [hident]; exact TokenKind.noConfusion)).mp h₃
  obtain ⟨hname, rfl⟩ := text_of_yields hn₁
  obtain ⟨hvar, rfl⟩ := text_of_yields hn₂
  simp only [lookupEnumByName, yields_bind, yields_get, yields_pure] at hlookup
  obtain ⟨_, _, ⟨rfl, rfl⟩, rfl, rfl⟩ := hlookup
  split at h
  · exact absurd h not_yields_fail
  · next enumIdx hidx =>
    simp only [yields_bind, yields_require, lookupEnumVariant, yields_get, yields_pure] at h
    obtain ⟨_, _, ⟨-, rfl⟩, variantIdx, _, ⟨_, _, ⟨rfl, rfl⟩, rfl, rfl⟩, h⟩ := h
    split at h
    · exact absurd h not_yields_fail
    · next idx hvariant =>
      simp only [yields_bind, yields_require, yields_allocTemp, emitImm16, yields_emitInst,
        yields_pure] at h
      obtain ⟨_, _, ⟨-, rfl⟩, _, a₀, harrow, _, _, ⟨m, hm, rfl, rfl⟩, _, _, ⟨-, -, rfl⟩, pos, _,
        hcmp, rfl, rfl⟩ := h
      refine ⟨rfl, pos, idx, rfl, ?_, headCode_of_literal (?_ : Still st a₀) hm
        (literalCode_variant rfl) (.refl _) (compareArm_of_yields hcmp)
        fun vm => cmpEq_variant.symm⟩
      · have hname' : st.text? st.peek = some enumName := hname
        have hvar' : st.text? (st.peekAhead 2) = some varName := hvar
        rw [hname', hvar', Option.bind_some, Option.bind_some, CompilerState.variantOf]
        change ((st.decls.enums.findIdx? (·.name == enumName)).bind _) = _
        rw [show st.decls.enums.findIdx? (·.name == enumName) = some enumIdx from hidx]
        exact hvariant
      · exact (((still_next st).trans (still_next _)).trans (still_next _)).trans
          (moved_fatArrow harrow).still

theorem yields_map {α β : Type} {p : CompilerM α} {f : α → β} {b : β} :
    Yields (f <$> p) st b t ↔ ∃ x, Yields p st x t ∧ b = f x := by
  rw [map_eq_pure_bind, yields_bind]
  constructor
  · rintro ⟨x, _, hp, h⟩
    obtain ⟨rfl, rfl⟩ := yields_pure.mp h
    exact ⟨x, hp, rfl⟩
  · rintro ⟨x, hp, rfl⟩
    exact ⟨x, t, hp, yields_pure.mpr ⟨rfl, rfl⟩⟩

/-- The head of an arm: a wildcard has no code, and any other pattern is tested. -/
theorem armHead_of_yields (hfits : Fits st) (hother : st.patternAt ≠ .other)
    (h : Yields (armHead (recN fuel n) reg arms) st (some hd) s) :
    hd.seen.jumps = arms.jumps ∧
      (hd.skip = none ∧ st.patternAt = .wildcard ∧ Still st s ∨
        ∃ pos, hd.skip = some pos ∧ HeadCode reg st.patternAt pos st s) := by
  simp only [armHead, yields_bind, yields_peek] at h
  obtain ⟨_, _, ⟨rfl, rfl⟩, h⟩ := h
  split at h
  · cases (yields_pure.mp h).1
  next hend =>
  simp only [not_or] at hend
  simp only [yields_bind, yields_require] at h
  obtain ⟨_, _, ⟨-, rfl⟩, name, _, htext, next, _, hpeek, h⟩ := h
  obtain ⟨hname, rfl⟩ := text_of_yields htext
  simp only [peekAhead, yields_bind, yields_get, yields_pure] at hpeek
  obtain ⟨_, _, ⟨rfl, rfl⟩, rfl, rfl⟩ := hpeek
  rename_i st
  rw [CompilerState.patternAt, hname] at hother ⊢
  simp only [Option.some.injEq, Option.bind_some] at hother ⊢
  split at h
  · next hwild =>
    obtain ⟨hd, h, heq⟩ := yields_map.mp h
    obtain rfl := Option.some.inj heq
    obtain ⟨hskip, hjumps, hstill⟩ := wildcardHead_of_yields h
    rw [if_pos hwild]
    exact ⟨hjumps, .inl ⟨hskip, rfl, hstill⟩⟩
  next hwild =>
  rw [if_neg hwild] at hother ⊢
  split at h
  · next henum =>
    obtain ⟨hd, h, heq⟩ := yields_map.mp h
    obtain rfl := Option.some.inj heq
    obtain ⟨hjumps, pos, idx, hskip, hidx, hcode⟩ := enumHead_of_yields hend.2 henum.2 h
    rw [hname, Option.bind_some] at hidx
    rw [if_pos henum, hidx]
    exact ⟨hjumps, .inr ⟨pos, hskip, hcode⟩⟩
  next henum =>
  rw [if_neg henum] at hother ⊢
  split at h
  · next hok =>
    obtain ⟨hd, h, heq⟩ := yields_map.mp h
    obtain rfl := Option.some.inj heq
    rw [if_pos hok]
    obtain ⟨hjumps, pos, _, _, hskip, -, -, hcode⟩ := okHead_binds hend.2 h
    exact ⟨hjumps, .inr ⟨pos, hskip, hcode.headCode fun vm => Iff.rfl⟩⟩
  next hok =>
  rw [if_neg hok] at hother ⊢
  split at h
  · next herr =>
    obtain ⟨hd, h, heq⟩ := yields_map.mp h
    obtain rfl := Option.some.inj heq
    rw [if_pos herr]
    obtain ⟨hjumps, pos, _, _, hskip, -, -, hcode⟩ := errHead_binds hend.2 hfits h
    refine ⟨hjumps, .inr ⟨pos, hskip, hcode.headCode fun vm => ?_⟩⟩
    rw [Bool.not_eq_false']
    rfl
  next herr =>
  rw [if_neg herr] at hother ⊢
  obtain ⟨hd, h, heq⟩ := yields_map.mp h
  obtain rfl := Option.some.inj heq
  cases hlit : st.literalAt with
  | none =>
    rw [hlit] at hother
    exact absurd rfl hother
  | some c =>
    obtain ⟨hjumps, hcode⟩ := valueHead_of_yields hlit hfits h
    exact ⟨hjumps, .inr hcode⟩

end Compiler

end LatencyOS
