import LatencyOS.Compiler.Unary

/-!
# The code of binary operators

What a level of the expression compiler does between its operands: how it folds two constants,
and the instructions that combine two registers.
-/

namespace LatencyOS

open CompilerState PX64VM

namespace Compiler

variable {st st' a : CompilerState} {op : BinOp} {dst rhs i j : ℕ}

/-- An operator that folds does so as the source does. -/
theorem fold_of_yields {x y v : Word64}
    (h : Yields ((level op.height).fold op.kind x y) st v st') :
    op.fold x y = some v ∧ st' = st := by
  cases op
  case div | mod =>
    simp only [BinOp.height, BinOp.kind, level, factorLevel, yields_bind, yields_require,
      yields_pure] at h
    obtain ⟨_, _, ⟨hne, rfl⟩, rfl, rfl⟩ := h
    have hy : y ≠ 0#64 := by simpa using hne
    exact ⟨by simp [BinOp.fold, BinOp.applyWith, hy], rfl⟩
  all_goals
    obtain ⟨rfl, rfl⟩ := yields_pure.mp h
    exact ⟨rfl, rfl⟩

/-- The check of the scales changes no scale. -/
theorem checkScales_of_yields {s : Option ℕ} {u : Unit} (op : BinOp)
    (h : Yields ((level op.height).checkScales s st.info.fixedScale) st u st') :
    ∃ info : ExprInfo, info.fixedScale = st.info.fixedScale ∧ st' = { st with info := info } := by
  have hquiet : ∀ {w : Unit} {t : CompilerState}, Yields (pure ()) st w t →
      ∃ info : ExprInfo, info.fixedScale = st.info.fixedScale ∧ t = { st with info := info } := by
    intro w t ht
    obtain ⟨_, rfl⟩ := yields_pure.mp ht
    exact ⟨_, rfl, rfl⟩
  cases op
  case add | sub =>
    simp only [BinOp.height, level, termLevel] at h
    split at h
    · next s₁ s₂ hs₂ =>
      simp only [setFixedScale, yields_bind, yields_require, yields_modifyInfo] at h
      obtain ⟨_, _, ⟨heq, rfl⟩, rfl⟩ := h
      refine ⟨_, ?_, rfl⟩
      rw [hs₂, show s₁ = s₂ by simpa using heq]
    · exact hquiet h
  all_goals exact hquiet h

/-! ## Code for one operator -/

/-- The code of an operator on two registers. -/
structure OpCode (op : BinOp) (dst rhs : ℕ) (st st' : CompilerState) : Prop where
  segment : Segment st st'
  temps : ∀ r ∈ scratch st st', st.Reaches op.temps r
  current : st'.current = st.current
  scale : st'.info.fixedScale = if op.isFactor then none else st.info.fixedScale
  runs : ∀ (host : Host) (vm : PX64VM), Holds vm st st' → vm.ip = st.code.length → dst < 20 →
    rhs < 20 → dst ≠ rhs → dst ∉ scratch st st' → rhs ∉ scratch st st' →
    Computes host (fun r => r = dst ∨ r ∈ scratch st st') dst vm st'.code.length
      (op.apply vm.getStrBytes (vm.regs dst) (vm.regs rhs))

/-- One instruction, and what is reported afterwards. -/
theorem opCode_inst {opc : Opcode} (info : ExprInfo)
    (hscale : info.fixedScale = if op.isFactor then none else st.info.fixedScale)
    (hrun : ∀ (host : Host) (vm : PX64VM) (T : ℕ → Prop), vm.InstAt vm.ip opc dst dst rhs →
      dst < 20 → rhs < 20 → T dst →
      Computes host T dst vm (vm.ip + 4) (op.apply vm.getStrBytes (vm.regs dst) (vm.regs rhs))) :
    OpCode op dst rhs st { st.emitted opc dst dst rhs with info := info } where
  segment := (Segment.emitted st opc dst dst rhs).trans (.move _ st.current info)
  temps := reaches_of_log_eq rfl
  current := rfl
  scale := hscale
  runs := fun host vm hvm hip hd hr _ _ _ => by
    have hinst : vm.InstAt vm.ip opc dst dst rhs := by
      rw [hip]
      exact hvm.instAt rfl
    have hstop : { st.emitted opc dst dst rhs with info := info }.code.length = vm.ip + 4 := by
      simp [hip, emitted, instBytes]
    rw [hstop]
    exact hrun host vm _ hinst hd hr (.inl rfl)

/-- An operator the machine has an instruction for. -/
theorem computes_alu {opc : Opcode}
    (hop : ∀ str, ∃ f, aluFn str opc = some f ∧ ∀ x y, op.apply str x y = some (f x y))
    (host : Host) (vm : PX64VM) (T : ℕ → Prop) (hinst : vm.InstAt vm.ip opc dst dst rhs)
    (hd : dst < 20) (hr : rhs < 20) (hT : T dst) :
    Computes host T dst vm (vm.ip + 4) (op.apply vm.getStrBytes (vm.regs dst) (vm.regs rhs)) := by
  obtain ⟨f, hf, happly⟩ := hop vm.getStrBytes
  rw [happly]
  exact .of_writes (hinst.alu host hf hd hd hr) hT rfl

/-- An operator that checks its divisor. -/
theorem computes_div {opc : Opcode} {f : Word64 → Word64 → Word64} (hf : divFn opc = some f)
    (hop : ∀ str x y, op.apply str x y = if y = 0#64 then none else some (f x y))
    (host : Host) (vm : PX64VM) (T : ℕ → Prop) (hinst : vm.InstAt vm.ip opc dst dst rhs)
    (hd : dst < 20) (hr : rhs < 20) (hT : T dst) :
    Computes host T dst vm (vm.ip + 4) (op.apply vm.getStrBytes (vm.regs dst) (vm.regs rhs)) := by
  rw [hop]
  split
  · next hz => exact hinst.div_zero host hf hd hd hr hz T
  · next hz => exact .of_writes (hinst.div host hf hd hd hr hz) hT rfl

/-- The truth values of both registers are combined. -/
theorem opCode_logic {opc : Opcode} {g : Bool → Bool → Bool} (hfactor : op.isFactor = false)
    (htemps : op.temps = 2)
    (happly : ∀ str x y, op.apply str x y =
      some (boolWord (g (!decide (x = 0#64)) (!decide (y = 0#64)))))
    (hopc : ∀ str, ∃ f, aluFn str opc = some f ∧ ∀ p q, f (boolWord p) (boolWord q) =
      boolWord (g p q))
    (hi : st.freeSlot = some i) (hload : Loads (st.take i) (15 - i) 0#64 a)
    (hj : (a.emitted .cmpNe dst dst (15 - i)).freeSlot = some j) :
    OpCode op dst rhs st
      ((((((a.emitted .cmpNe dst dst (15 - i)).take j).emitted .cmpNe (15 - j) rhs
        (15 - i)).emitted opc dst dst (15 - j)).freeTemp (15 - j)).freeTemp (15 - i)) := by
  have hi8 := (freeSlot_eq_some hi).1
  have hj8 := (freeSlot_eq_some hj).1
  generalize hb : a.emitted .cmpNe dst dst (15 - i) = b at hj ⊢
  generalize hc : (b.take j).emitted .cmpNe (15 - j) rhs (15 - i) = c
  generalize hd : c.emitted opc dst dst (15 - j) = d
  have hsa : Grows st a := (Grows.take st i).trans hload.segment.grows
  have hab : Segment a b := hb ▸ .emitted ..
  have hbc : Segment (b.take j) c := hc ▸ .emitted ..
  have hcd : Segment c d := hd ▸ .emitted ..
  have hbc' : Grows b c := (Grows.take b j).trans hbc.grows
  have hend : Grows d ((d.freeTemp (15 - j)).freeTemp (15 - i)) :=
    (Grows.freeTemp d _).trans (.freeTemp _ _)
  have hlog : ((d.freeTemp (15 - j)).freeTemp (15 - i)).allocLog = d.allocLog := by simp
  have hmem : ∀ r, r ∈ scratch st d ↔ r = 15 - i ∨ r = 15 - j := by
    intro r
    have hnil : scratch (st.take i) b = [] := by
      rw [scratch_trans hload.segment.grows.log hab.grows.log, hload.scratch, List.nil_append,
        ← hb]
      exact scratch_self a
    have hlast : scratch b d = [15 - j] := by
      rw [scratch_take j (hbc.grows.trans hcd.grows).log, ← hd, ← hc]
      exact congrArg (List.cons (15 - j)) (scratch_self (b.take j))
    rw [scratch_take i (hload.segment.grows.trans
        (hab.grows.trans (hbc'.trans hcd.grows))).log,
      scratch_trans (hload.segment.grows.trans hab.grows).log (hbc'.trans hcd.grows).log, hnil,
      hlast]
    simp
  have hij : i ≠ j := by
    rintro rfl
    have hused : b.tempUsed i = true := by
      rw [hab.temps, hload.segment.temps]
      exact take_tempUsed st i
    rw [(freeSlot_eq_some hj).2] at hused
    cases hused
  refine ⟨.bracket hi (hload.segment.trans (hab.trans (.bracket hj (hbc.trans hcd)))), ?_, ?_, ?_,
    ?_⟩
  · rw [scratch_congr hlog, htemps]
    have hba : ∀ r ∈ scratch (st.take i) b, (st.take i).Reaches 1 r := by
      refine hload.segment.reaches_trans hab.grows.log ?_ (reaches_of_log_eq (hb ▸ rfl))
      rw [hload.scratch]
      exact fun r hr => absurd hr List.not_mem_nil
    have hbd : ∀ r ∈ scratch b d, b.Reaches 1 r :=
      reaches_bracket hj (hbc.grows.trans hcd.grows).log
        (reaches_of_log_eq (by rw [← hd, ← hc]; rfl))
    exact reaches_bracket hi
      (hload.segment.grows.trans (hab.grows.trans (hbc'.trans hcd.grows))).log
      ((hload.segment.trans hab).reaches_trans (hbc'.trans hcd.grows).log hba hbd)
  · simp only [freeTemp_current, ← hd, ← hc, ← hb]
    exact hload.current
  · simp only [freeTemp_info, ← hd, ← hc, ← hb, hfactor]
    exact congrArg ExprInfo.fixedScale hload.info
  intro host vm hvm hip hdst hrhs hne hdstS hrhsS
  rw [scratch_congr hlog] at hdstS hrhsS ⊢
  simp only [hmem, not_or] at hdstS hrhsS ⊢
  have hlen : ∀ {s : CompilerState} {o : Opcode} {x y z : ℕ},
      (s.emitted o x y z).code.length = s.code.length + 4 := by simp [emitted, instBytes]
  -- the zero, the two comparisons and the combination
  obtain ⟨vm₁, hp₁, hip₁, hz₁⟩ := hload.writes (((hvm.left hend).left
    (hab.grows.trans (hbc'.trans hcd.grows))).right (Grows.take st i).code_le) hip (by omega) host
  have hip₁' : vm₁.ip = a.code.length := by
    rw [hip₁, hip]
    exact hload.codeLen.symm
  have hinst₁ : vm₁.InstAt vm₁.ip .cmpNe dst dst (15 - i) := by
    rw [hip₁']
    exact ((((hvm.left hend).left (hbc'.trans hcd.grows)).right hsa.code_le).of_core
      hp₁.core).instAt (by rw [← hb]; rfl)
  obtain ⟨vm₂, hp₂, hip₂, hd₂⟩ := hinst₁.alu host rfl hdst hdst (by omega)
  rw [hz₁, cmpEq_zero, hp₁.frame dst (by omega)] at hd₂
  have hip₂' : vm₂.ip = (b.take j).code.length := by
    rw [hip₂, hip₁', ← hb]
    exact hlen.symm
  have hcore₂ := hp₂.core.trans hp₁.core
  have hinst₂ : vm₂.InstAt vm₂.ip .cmpNe (15 - j) rhs (15 - i) := by
    rw [hip₂']
    exact ((((hvm.left hend).left hcd.grows).right
      (hsa.trans (hab.grows.trans (.take b j))).code_le).of_core hcore₂).instAt (by rw [← hc]; rfl)
  obtain ⟨vm₃, hp₃, hip₃, hr₃⟩ := hinst₂.alu host rfl (by omega) hrhs (by omega)
  rw [hp₂.frame (15 - i) (by omega), hz₁, cmpEq_zero, hp₂.frame rhs (by omega),
    hp₁.frame rhs (by omega)] at hr₃
  have hip₃' : vm₃.ip = c.code.length := by
    rw [hip₃, hip₂', ← hc]
    exact hlen.symm
  have hcore₃ := hp₃.core.trans hcore₂
  have hinst₃ : vm₃.InstAt vm₃.ip opc dst dst (15 - j) := by
    rw [hip₃']
    exact (((hvm.left hend).right (hsa.trans (hab.grows.trans hbc')).code_le).of_core
      hcore₃).instAt (by rw [← hd]; rfl)
  obtain ⟨f, hf, hfg⟩ := hopc vm₃.getStrBytes
  have hw := hinst₃.alu host hf hdst hdst (by omega)
  rw [hr₃, hp₃.frame dst (by omega), hd₂, hfg] at hw
  rw [happly]
  refine Computes.after (((hp₁.mono ?_).trans (hp₂.mono ?_)).trans (hp₃.mono ?_))
    (.of_writes hw (.inl rfl) ?_)
  · exact fun r hr => .inr (.inl hr)
  · exact fun r hr => .inl hr
  · exact fun r hr => .inr (.inr hr)
  · rw [hip₃', freeTemp_code, freeTemp_code, ← hd]
    exact hlen.symm

/-- The instructions of an operator, when no scale is mistaken. -/
theorem opCode_of_yields {s₁ s₂ : Option ℕ} (hpool : st.constPool.length ≤ maxConstPool)
    (hmul : op = .mul → s₁ = none ∧ s₂ = none) (hdiv : op = .div → s₁ = none ∨ s₂ = none)
    {u : Unit} (h : Yields ((level op.height).emitOp op.kind s₁ s₂ dst rhs) st u st') :
    OpCode op dst rhs st st' := by
  have hlogic : ∀ (opc : Opcode) (g : Bool → Bool → Bool), op.isFactor = false → op.temps = 2 →
      (∀ str x y, op.apply str x y =
        some (boolWord (g (!decide (x = 0#64)) (!decide (y = 0#64))))) →
      (∀ str, ∃ f, aluFn str opc = some f ∧ ∀ p q, f (boolWord p) (boolWord q) =
        boolWord (g p q)) →
      Yields (emitLogic opc dst rhs) st u st' → OpCode op dst rhs st st' := by
    intro opc g hfactor htemps happly hopc h
    simp only [emitLogic, yields_bind, yields_allocTemp, yields_emit, yields_freeTemp] at h
    obtain ⟨_, _, ⟨i, hi, rfl, rfl⟩, _, a, hconst, _, _, ⟨-, rfl⟩, _, _, ⟨j, hj, rfl, rfl⟩, _, _,
      ⟨-, rfl⟩, _, _, ⟨-, rfl⟩, _, _, rfl, rfl⟩ := h
    exact opCode_logic hfactor htemps happly hopc hi
      (loads_of_yields (by exact hpool) hconst) hj
  have halu : ∀ opc : Opcode, op.isFactor = false →
      (∀ str, ∃ f, aluFn str opc = some f ∧ ∀ x y, op.apply str x y = some (f x y)) →
      Yields (emit opc dst dst rhs) st u st' → OpCode op dst rhs st st' := by
    intro opc hfactor hop h
    obtain ⟨-, rfl⟩ := yields_emit.mp h
    exact opCode_inst st.info (by rw [hfactor]; rfl) (computes_alu hop)
  cases op with
  | or =>
    refine hlogic .or or rfl rfl (fun str x y => ?_) (fun str => ⟨_, rfl, by decide⟩) h
    simp only [BinOp.apply, BinOp.applyWith, bne, beq_eq_decide]
  | and =>
    refine hlogic .and and rfl rfl (fun str x y => ?_) (fun str => ⟨_, rfl, by decide⟩) h
    simp only [BinOp.apply, BinOp.applyWith, bne, beq_eq_decide]
  | eq => exact halu .cmpEq rfl (fun str => ⟨_, rfl, fun x y => rfl⟩) h
  | ne => exact halu .cmpNe rfl (fun str => ⟨_, rfl, fun x y => rfl⟩) h
  | lt => exact halu .cmpLt rfl (fun str => ⟨_, rfl, fun x y => rfl⟩) h
  | le => exact halu .cmpLe rfl (fun str => ⟨_, rfl, fun x y => rfl⟩) h
  | gt => exact halu .cmpGt rfl (fun str => ⟨_, rfl, fun x y => rfl⟩) h
  | ge => exact halu .cmpGe rfl (fun str => ⟨_, rfl, fun x y => rfl⟩) h
  | bor => exact halu .or rfl (fun str => ⟨_, rfl, fun x y => rfl⟩) h
  | bxor => exact halu .xor rfl (fun str => ⟨_, rfl, fun x y => rfl⟩) h
  | band => exact halu .and rfl (fun str => ⟨_, rfl, fun x y => rfl⟩) h
  | shl => exact halu .shl rfl (fun str => ⟨_, rfl, fun x y => rfl⟩) h
  | shr => exact halu .shr rfl (fun str => ⟨_, rfl, fun x y => rfl⟩) h
  | add => exact halu .add rfl (fun str => ⟨_, rfl, fun x y => rfl⟩) h
  | sub => exact halu .sub rfl (fun str => ⟨_, rfl, fun x y => rfl⟩) h
  | mul =>
    obtain ⟨rfl, rfl⟩ := hmul rfl
    simp only [BinOp.height, BinOp.kind, level, factorLevel, emitMul, setFixedScale, yields_bind,
      yields_emit, yields_modifyInfo] at h
    obtain ⟨_, _, ⟨-, rfl⟩, rfl⟩ := h
    exact opCode_inst _ rfl (computes_alu fun str => ⟨_, rfl, fun x y => rfl⟩)
  | div =>
    have hplain : emitDiv dst rhs s₁ s₂ =
        (emit .div dst dst rhs >>= fun _ => setFixedScale none) := by
      rcases hdiv rfl with rfl | rfl
      · rfl
      · cases s₁ <;> rfl
    simp only [BinOp.height, BinOp.kind, level, factorLevel, hplain, setFixedScale, yields_bind,
      yields_emit, yields_modifyInfo] at h
    obtain ⟨_, _, ⟨-, rfl⟩, rfl⟩ := h
    exact opCode_inst _ rfl (computes_div rfl fun str x y => rfl)
  | mod =>
    simp only [BinOp.height, BinOp.kind, level, factorLevel, setFixedScale, yields_bind,
      yields_emit, yields_modifyInfo] at h
    obtain ⟨_, _, ⟨-, rfl⟩, rfl⟩ := h
    exact opCode_inst _ rfl (computes_div rfl fun str x y => rfl)

end Compiler

end LatencyOS
