import LatencyOS.Compiler.Segment
import LatencyOS.Compiler.Compile

/-!
# The invariant of the expression compiler

`Compiled e dst v st st'` says what compiling `e` into a register did.  A constant is still
pending, and the code emitted so far changes temporaries only; otherwise the code leaves the
value in the register or stops at a division by zero.  Literals and variables are the leaves.
-/

namespace LatencyOS

open CompilerState PX64VM

/-- A machine register or spill slot. -/
def Place.Valid : Place → Prop
  | .reg r => r < 20
  | .slot s => s < 32

/-- Running to a position leaves a word in a register, or divides by zero. -/
def Computes (host : Host) (T : ℕ → Prop) (dst : ℕ) (vm : PX64VM) (stop : ℕ) :
    Option Word64 → Prop
  | some x => ∃ vm', Passes host T vm vm' ∧ vm'.ip = stop ∧ vm'.regs dst = x
  | none => DividesByZero host T vm stop

/-- What comes after a stretch of code. -/
theorem Computes.after {host : Host} {T : ℕ → Prop} {dst stop : ℕ} {a b : PX64VM}
    {res : Option Word64} (h₁ : Passes host T a b) (h₂ : Computes host T dst b stop res) :
    Computes host T dst a stop res := by
  cases res with
  | none => exact DividesByZero.after h₁ h₂
  | some x =>
    obtain ⟨c, hp, hip, hx⟩ := h₂
    exact ⟨c, h₁.trans hp, hip, hx⟩

theorem Computes.mono {host : Host} {T U : ℕ → Prop} {dst stop : ℕ} {vm : PX64VM}
    {res : Option Word64} (h : Computes host T dst vm stop res) (hTU : ∀ r, T r → U r) :
    Computes host U dst vm stop res := by
  cases res with
  | none => exact DividesByZero.mono h hTU (Nat.le_refl _)
  | some x =>
    obtain ⟨c, hp, hip, hx⟩ := h
    exact ⟨c, hp.mono hTU, hip, hx⟩

theorem Computes.of_writes {host : Host} {T : ℕ → Prop} {dst stop : ℕ} {vm : PX64VM} {x : Word64}
    (h : Writes host vm dst x) (hT : T dst) (hstop : vm.ip + 4 = stop) :
    Computes host T dst vm stop (some x) := by
  obtain ⟨vm', hp, hip, hx⟩ := h
  refine ⟨vm', hp.mono fun r hr => ?_, hip.trans hstop, hx⟩
  rw [hr]
  exact hT

namespace Compiler

variable {st st' t : CompilerState}

/-! ## Loading constants -/

/-- One instruction that loads a constant was emitted. -/
def Loads (st : CompilerState) (dst : ℕ) (c : Word64) (st' : CompilerState) : Prop :=
  ∃ op hi lo consts,
    st' = { st with
      code := st.code ++ instBytes op dst hi lo, constPool := st.constPool ++ consts } ∧
    (consts = [] ∨ (st.constPool ++ consts).length ≤ maxConstPool) ∧ hi < 256 ∧ lo < 256 ∧
    (op = .movImm ∧ BitVec.ofNat 64 (hi * 256 + lo) = c ∨
      op = .ldc ∧ (st.constPool ++ consts)[hi * 256 + lo]? = some c)

theorem Loads.segment {dst : ℕ} {c : Word64} (h : Loads st dst c st') : Segment st st' := by
  obtain ⟨op, hi, lo, consts, rfl, hpool, _⟩ := h
  exact Segment.add st _ consts st.current st.info hpool

theorem Loads.current {dst : ℕ} {c : Word64} (h : Loads st dst c st') :
    st'.current = st.current := by
  obtain ⟨op, hi, lo, consts, rfl, _⟩ := h
  rfl

theorem Loads.info {dst : ℕ} {c : Word64} (h : Loads st dst c st') : st'.info = st.info := by
  obtain ⟨op, hi, lo, consts, rfl, _⟩ := h
  rfl

theorem Loads.scratch {dst : ℕ} {c : Word64} (h : Loads st dst c st') : st.scratch st' = [] := by
  obtain ⟨op, hi, lo, consts, rfl, _⟩ := h
  exact scratch_eq_nil rfl

theorem Loads.codeLen {dst : ℕ} {c : Word64} (h : Loads st dst c st') :
    st'.code.length = st.code.length + 4 := by
  obtain ⟨op, hi, lo, consts, rfl, _⟩ := h
  simp [instBytes]

/-- The instruction does load the constant. -/
theorem Loads.writes {dst : ℕ} {c : Word64} (h : Loads st dst c st') {vm : PX64VM}
    (hvm : Holds vm st st') (hip : vm.ip = st.code.length) (hd : dst < 20) (host : Host) :
    Writes host vm dst c := by
  obtain ⟨op, hi, lo, consts, rfl, _, hhi, hlo, hload⟩ := h
  have hinst := hvm.instAt rfl
  rw [← hip] at hinst
  rcases hload with ⟨rfl, rfl⟩ | ⟨rfl, hc⟩
  · exact hinst.movImm host hd hhi hlo
  · refine hinst.ldc host hd hhi hlo ?_
    obtain ⟨rest, hrest⟩ := hvm.consts
    rw [← hrest, List.getElem?_append_left (List.getElem?_eq_some_iff.mp hc).1]
    exact hc

/-- A constant is loaded from the pool once it is there. -/
theorem loads_ldc {dst idx pos : ℕ} {c : Word64} (hpool : st.constPool.length ≤ maxConstPool)
    (hadd : Yields (addConstant c) st idx t) (himm : Yields (emitImm16 .ldc dst idx) t pos st') :
    Loads st dst c st' := by
  simp only [emitImm16, yields_emitInst] at himm
  obtain ⟨-, -, rfl⟩ := himm
  have hsplit : idx / 256 * 256 + idx % 256 = idx := by omega
  rw [Yields, addConstant, Prog.run_op, perform, CompilerState.addConstant] at hadd
  split at hadd
  · next i hi =>
    cases hadd
    obtain ⟨hlt, hc, _⟩ := List.findIdx?_eq_some_iff_getElem.mp hi
    refine ⟨.ldc, idx / 256, idx % 256, [], by simp [emitted], .inl rfl, ?_, by omega,
      .inr ⟨rfl, ?_⟩⟩
    · have : maxConstPool = 64 := rfl
      omega
    · rw [hsplit, List.append_nil, List.getElem?_eq_getElem hlt]
      simpa using hc
  · rw [pushConstant] at hadd
    split at hadd
    · cases hadd
    · next hfull =>
      cases hadd
      have : maxConstPool = 64 := rfl
      refine ⟨.ldc, st.constPool.length / 256, st.constPool.length % 256, [c], rfl,
        .inr (by simp; omega), by omega, by omega, .inr ⟨rfl, ?_⟩⟩
      rw [hsplit]
      simp

theorem loads_of_yields {dst : ℕ} {c : Word64} {u : Unit}
    (hpool : st.constPool.length ≤ maxConstPool) (h : Yields (emitConst dst c) st u st') :
    Loads st dst c st' := by
  rw [emitConst] at h
  split at h
  · next hfits =>
    have hle : c.toNat ≤ 65535 := by simpa [fitsImm] using hfits
    simp only [emitImm16, yields_bind, yields_emitInst, yields_pure] at h
    obtain ⟨_, _, ⟨_, _, rfl⟩, _, rfl⟩ := h
    refine ⟨.movImm, c.toNat / 256, c.toNat % 256, [], by simp [emitted], .inl rfl, by omega,
      by omega, .inl ⟨rfl, ?_⟩⟩
    rw [show c.toNat / 256 * 256 + c.toNat % 256 = c.toNat by omega, BitVec.ofNat_toNat,
      BitVec.setWidth_eq]
  · simp only [yields_bind, yields_pure] at h
    obtain ⟨idx, t, hadd, pos, _, himm, _, rfl⟩ := h
    exact loads_ldc hpool hadd himm

/-- A pending constant, if there is one, is loaded. -/
structure Pending (st : CompilerState) (dst : ℕ) (v : Option Word64) (st' : CompilerState) :
    Prop where
  segment : Segment st st'
  current : st'.current = st.current
  info : st'.info = st.info
  scratch : st.scratch st' = []
  runs : ∀ (host : Host) (vm : PX64VM), Holds vm st st' → vm.ip = st.code.length → dst < 20 →
    ∃ vm', Passes host (fun r => r = dst ∧ v.isSome) vm vm' ∧ vm'.ip = st'.code.length ∧
      ∀ c, v = some c → vm'.regs dst = c

theorem pending_of_yields {dst : ℕ} {v : Option Word64} {u : Unit}
    (hpool : st.constPool.length ≤ maxConstPool) (h : Yields (emitPending dst v) st u st') :
    Pending st dst v st' := by
  cases v with
  | none =>
    obtain ⟨-, rfl⟩ := yields_pure.mp h
    refine ⟨.refl _, rfl, rfl, scratch_self _, fun host vm _ hip _ => ?_⟩
    exact ⟨vm, .refl .., hip, fun c hc => by cases hc⟩
  | some c =>
    have hload := loads_of_yields hpool h
    refine ⟨hload.segment, hload.current, hload.info, hload.scratch, fun host vm hvm hip hd => ?_⟩
    obtain ⟨vm', hp, hip', hc⟩ := hload.writes hvm hip hd host
    refine ⟨vm', hp.mono fun r hr => ⟨hr, rfl⟩, ?_, fun c' hc' => ?_⟩
    · rw [hip', hip, hload.codeLen]
    · cases hc'
      exact hc

/-- Where nothing is pending, the value in the register stays there. -/
theorem Pending.computes {host : Host} {vm : PX64VM} {T : ℕ → Prop} {dst : ℕ}
    {res : Option Word64} (h : Pending st dst none st') (hvm : Holds vm st st') (hd : dst < 20)
    (hc : Computes host T dst vm st.code.length res) :
    Computes host T dst vm st'.code.length res := by
  cases res with
  | none => exact DividesByZero.mono hc (fun _ => id) h.segment.grows.code_le
  | some x =>
    obtain ⟨vm₁, hp₁, hip₁, hx⟩ := hc
    obtain ⟨vm₂, hp₂, hip₂, -⟩ := h.runs host vm₁ (hvm.of_core hp₁.core) hip₁ hd
    refine ⟨vm₂, hp₁.trans (hp₂.mono fun r hr => absurd hr.2 Bool.false_ne_true), hip₂, ?_⟩
    rw [hp₂.frame dst fun hr => absurd hr.2 Bool.false_ne_true]
    exact hx

/-! ## Variables -/

theorem yields_isSpilledVar {tok : Token} {x : List UInt8} (hx : st.text? tok = some x)
    {s : Option ℕ} : Yields (isSpilledVar tok) st s st' ↔ s = st.spillOf x ∧ st' = st := by
  simp only [isSpilledVar, yields_bind, yields_get, yields_pure]
  constructor
  · rintro ⟨_, _, ⟨rfl, rfl⟩, rfl, rfl⟩
    rw [hx]
    exact ⟨rfl, rfl⟩
  · rintro ⟨rfl, rfl⟩
    refine ⟨_, _, ⟨rfl, rfl⟩, ?_, rfl⟩
    rw [hx]
    rfl

theorem yields_text {tok : Token} {x name : List UInt8} (hx : st.text? tok = some x) :
    Yields (text tok) st name st' ↔ name = x ∧ st' = st := by
  simp only [text, yields_bind, yields_get]
  constructor
  · rintro ⟨_, _, ⟨rfl, rfl⟩, h⟩
    rw [hx] at h
    exact yields_pure.mp h
  · rintro ⟨rfl, rfl⟩
    refine ⟨_, _, ⟨rfl, rfl⟩, ?_⟩
    rw [hx]
    exact yields_pure.mpr ⟨rfl, rfl⟩

theorem yields_getVarIndex {tok : Token} {x : List UInt8} (hx : st.text? tok = some x)
    {i : Option ℕ} : Yields (getVarIndex tok) st i st' ↔ i = st.findVar x ∧ st' = st := by
  simp only [getVarIndex, yields_bind, yields_get, yields_pure]
  constructor
  · rintro ⟨_, _, ⟨rfl, rfl⟩, rfl, rfl⟩
    rw [hx]
    exact ⟨rfl, rfl⟩
  · rintro ⟨rfl, rfl⟩
    refine ⟨_, _, ⟨rfl, rfl⟩, ?_, rfl⟩
    rw [hx]
    rfl

theorem yields_getVarFixedScale {tok : Token} {x : List UInt8} (hx : st.text? tok = some x)
    {s : Option ℕ} (h : Yields (getVarFixedScale tok) st s st') :
    s = st.scaleOf x ∧ st' = st := by
  simp only [getVarFixedScale, yields_bind, yields_get] at h
  obtain ⟨_, _, ⟨rfl, rfl⟩, _, _, hname, h⟩ := h
  obtain ⟨rfl, rfl⟩ := (yields_text hx).mp hname
  split at h
  · next p hp =>
    rw [yields_pure] at h
    simpa only [scaleOf, paramOf, hp] using h
  · next hp =>
    simp only [yields_bind, yields_getVarIndex hx, yields_pure] at h
    obtain ⟨_, _, ⟨rfl, rfl⟩, rfl, rfl⟩ := h
    simp only [scaleOf, paramOf, hp, and_self]

/-- A variable reports its scale. -/
theorem yields_reportVar {tok : Token} {x : List UInt8} (hx : st.text? tok = some x) {u : Unit}
    (h : Yields (reportVar tok) st u st') :
    ∃ e, st' = { st with info := { st.info with enumType := e, fixedScale := st.scaleOf x } } := by
  simp only [reportVar, getVarEnumType, setEnumType, setFixedScale, yields_bind, yields_get,
    yields_pure, yields_modifyInfo] at h
  obtain ⟨e, _, ⟨_, _, ⟨rfl, rfl⟩, _, _, hidx, rfl, rfl⟩, _, _, rfl, s, _, hs, rfl⟩ := h
  obtain ⟨rfl, rfl⟩ := (yields_getVarIndex hx).mp hidx
  obtain ⟨rfl, rfl⟩ := yields_getVarFixedScale (x := x) (by exact hx) hs
  exact ⟨_, rfl⟩

/-- A variable that is not spilled has a register, or gets one on its first use. -/
structure Resolved (st : CompilerState) (x : List UInt8) (r : ℕ) (st' : CompilerState) :
    Prop where
  segment : Segment st st'
  place : st'.place x = some (.reg r)
  code : st'.code = st.code
  info : st'.info = st.info
  current : st'.current = st.current
  handles : st'.handleStates = st.handleStates
  log : st'.allocLog = st.allocLog

theorem resolved_of_known {x : List UInt8} {r : ℕ} (hspill : st.spillOf x = none)
    (hreg : st.regOf x = some r) : Resolved st x r st :=
  ⟨.refl st, by simp [place, hspill, hreg], rfl, rfl, rfl, rfl, rfl⟩

/-- A name that fits an entry is found there once it is entered. -/
theorem resolved_pushVar {x : List UInt8} (hspill : st.spillOf x = none) (hlen : x.length ≤ 16)
    (hclean : st.Clean) (hcount : st.varCount < 13) (halias : registerAlias x = none)
    (hparam : st.paramReg x = none) (hfind : st.findVar x = none) :
    Resolved st x (1 + st.varCount) (st.pushVar x true (1 + st.varCount)
      (st.vars st.varCount).spill (st.vars st.varCount).spillSlot) := by
  obtain ⟨hscale, hnospill⟩ := hclean st.varCount (Nat.le_refl _)
  have hgrows : Grows st (st.pushVar x true (1 + st.varCount) (st.vars st.varCount).spill
      (st.vars st.varCount).spillSlot) :=
    { frozen := rfl
      code_le := Nat.le_refl _
      code := fun _ _ => rfl
      consts := List.prefix_rfl
      log := List.prefix_rfl
      count_le := Nat.le_succ _
      vars := fun i hi => Function.update_of_ne (by
        have : (st.pushVar x true (1 + st.varCount) (st.vars st.varCount).spill
          (st.vars st.varCount).spillSlot).varCount = st.varCount + 1 := rfl
        omega) ..
      fresh := fun i h₁ h₂ => by
        obtain rfl : i = st.varCount := by
          have : i < st.varCount + 1 := h₂
          omega
        simp only [pushVar, Function.update_self]
        exact ⟨hnospill hcount, hscale⟩ }
  refine ⟨⟨hgrows, rfl, free_of_log_eq rfl, id⟩, ?_, rfl, rfl, rfl, rfl, rfl⟩
  have hfound : (st.pushVar x true (1 + st.varCount) (st.vars st.varCount).spill
      (st.vars st.varCount).spillSlot).findVar x = some st.varCount := by
    simp only [findVar, List.find?_range_eq_some, List.mem_range, pushVar,
      Function.update_self, beq_iff_eq]
    refine ⟨List.take_of_length_le hlen, Nat.lt_succ_self _, fun j hj => ?_⟩
    rw [Function.update_of_ne (by omega)]
    exact List.find?_range_eq_none.mp hfind j hj
  rw [place, hgrows.spillOf, hspill, regOf, halias, hgrows.paramReg, hparam, hfound]
  simp only [Option.map_some, pushVar, Function.update_self]

theorem resolved_of_yields {tok : Token} {x : List UInt8} {r : ℕ} (hx : st.text? tok = some x)
    (hknown : (st.place x).isSome ∨ x.length ≤ 16 ∧ st.Clean) (hspill : st.spillOf x = none)
    (h : Yields (resolveVar tok) st r st') : Resolved st x r st' := by
  rw [Yields, resolveVar, Prog.run_op, perform, CompilerState.resolveVar] at h
  simp only [hx] at h
  split at h
  · next r' halias =>
    cases h
    exact resolved_of_known hspill (by rw [regOf, halias])
  next halias =>
  split at h
  · next r' hparam =>
    cases h
    exact resolved_of_known hspill (by rw [regOf, halias, hparam])
  next hparam =>
  split at h
  · next i hfind =>
    cases h
    exact resolved_of_known hspill (by rw [regOf, halias, hparam, hfind, Option.map_some])
  next hfind =>
  split at h
  · cases h
  next hcount =>
  cases h
  rcases hknown with hplace | ⟨hlen, hclean⟩
  · rw [place, hspill, regOf, halias, hparam, hfind] at hplace
    cases hplace
  · exact resolved_pushVar hspill hlen hclean (Nat.not_le.mp hcount) halias hparam hfind

/-- The code of a variable puts its value into a register. -/
structure Fetches (x : List UInt8) (dst : ℕ) (st st' : CompilerState) : Prop where
  segment : Segment st st'
  log : st'.allocLog = st.allocLog
  current : st'.current = st.current
  scale : st'.info.fixedScale = st.scaleOf x
  known : (st'.place x).isSome
  runs : ∀ (host : Host) (vm : PX64VM) (p : Place), st'.place x = some p → p.Valid →
    Holds vm st st' → vm.ip = st.code.length → dst < 20 →
    ∃ vm', Passes host (· = dst) vm vm' ∧ vm'.ip = st'.code.length ∧ vm'.regs dst = p.read vm

/-- What a variable reports is set before its code. -/
theorem Fetches.of_quiet {x : List UInt8} {dst : ℕ} (hq : Quiet t st) (h : Fetches x dst st st')
    (hcur : st.current = t.current) (hscale : st.scaleOf x = t.scaleOf x) :
    Fetches x dst t st' where
  segment := hq.segment.trans h.segment
  log := h.log.trans hq.log
  current := h.current.trans hcur
  scale := h.scale.trans hscale
  known := h.known
  runs := fun host vm p hp hvalid hvm hip hd =>
    h.runs host vm p hp hvalid (hvm.right hq.segment.grows.code_le) (by rw [hip, hq.code]) hd

theorem fetches_spilled {x : List UInt8} {dst s : ℕ} (hs : st.spillOf x = some s)
    (hscale : st.info.fixedScale = st.scaleOf x) :
    Fetches x dst st (st.emitted .spillLoad dst s 0) where
  segment := .emitted ..
  log := rfl
  current := rfl
  scale := hscale
  known := by
    have hplace : st.place x = some (.slot s) := by rw [place, hs]
    rw [(Segment.emitted st .spillLoad dst s 0).grows.place_of_some hplace]
    rfl
  runs := fun host vm p hp hvalid hvm hip hd => by
    obtain rfl : p = .slot s := by
      rw [(Segment.emitted st .spillLoad dst s 0).grows.place_of_some (by rw [place, hs])] at hp
      exact (Option.some.inj hp).symm
    have hinst : vm.InstAt vm.ip .spillLoad dst s 0 := by
      rw [hip]
      exact hvm.instAt rfl
    obtain ⟨vm', hpass, hip', hval⟩ := hinst.spillLoad host hd hvalid
    exact ⟨vm', hpass, by simp [hip', hip, emitted, instBytes], hval⟩

/-- A register variable is copied, unless it is the destination. -/
theorem fetches_resolved {x : List UInt8} {dst r : ℕ} (hres : Resolved st x r t)
    (hscale : st.info.fixedScale = st.scaleOf x) {u : Unit}
    (h : Yields (moveTo dst r) t u st') : Fetches x dst st st' := by
  have hlast : Segment t st' ∧ st'.info = t.info ∧ st'.allocLog = t.allocLog ∧
      st'.current = t.current ∧
      (r = dst ∧ st'.code = t.code ∨ r ≠ dst ∧ st'.code = t.code ++ instBytes .movReg dst r 0) := by
    rw [moveTo] at h
    split at h
    · next hne =>
      obtain ⟨_, rfl⟩ := yields_emit.mp h
      exact ⟨.emitted .., rfl, rfl, rfl, .inr ⟨hne, rfl⟩⟩
    · next heq =>
      obtain ⟨_, rfl⟩ := yields_pure.mp h
      exact ⟨.refl _, rfl, rfl, rfl, .inl ⟨Decidable.not_not.mp heq, rfl⟩⟩
  obtain ⟨hseg, hinfo, hlog, hcur, hcode⟩ := hlast
  have hplace : st'.place x = some (.reg r) := hseg.grows.place_of_some hres.place
  refine ⟨hres.segment.trans hseg, hlog.trans hres.log, hcur.trans hres.current, ?_, ?_, ?_⟩
  · rw [hinfo, hres.info]
    exact hscale
  · rw [hplace]
    rfl
  · intro host vm p hp hvalid hvm hip hd
    obtain rfl : p = .reg r := by
      rw [hplace] at hp
      exact (Option.some.inj hp).symm
    rw [← hres.code] at hip
    rcases hcode with ⟨rfl, hcode⟩ | ⟨-, hcode⟩
    · rw [hcode]
      exact ⟨vm, .refl .., hip, rfl⟩
    · have hinst : vm.InstAt vm.ip .movReg dst r 0 := by
        rw [hip]
        exact (hvm.right hres.segment.grows.code_le).instAt hcode
      obtain ⟨vm', hpass, hip', hval⟩ := hinst.movReg host hd hvalid
      exact ⟨vm', hpass, by simp [hip', hip, hcode, instBytes], hval⟩

theorem fetches_varValue {tok : Token} {x : List UInt8} {dst : ℕ} {v : Option Word64}
    (hx : st.text? tok = some x) (hknown : (st.place x).isSome ∨ x.length ≤ 16 ∧ st.Clean)
    (h : Yields (varValue tok dst) st v st') : v = none ∧ Fetches x dst st st' := by
  simp only [varValue, yields_bind] at h
  obtain ⟨_, st, hsp, h⟩ := h
  obtain ⟨rfl, rfl⟩ := (yields_isSpilledVar hx).mp hsp
  split at h
  · next s hs =>
    simp only [yields_bind, yields_emit, yields_pure] at h
    obtain ⟨_, _, hrep, _, _, ⟨_, rfl⟩, rfl, rfl⟩ := h
    obtain ⟨_, rfl⟩ := yields_reportVar hx hrep
    exact ⟨rfl, .of_quiet (.move st st.current _) (fetches_spilled hs rfl) rfl rfl⟩
  · next hs =>
    simp only [yields_bind] at h
    obtain ⟨_, t, hrep, h⟩ := h
    obtain ⟨e, rfl⟩ := yields_reportVar hx hrep
    obtain ⟨r, t, hres, h⟩ := h
    have hquiet := Quiet.move st st.current
      { st.info with enumType := e, fixedScale := st.scaleOf x }
    have hresolved := resolved_of_yields (x := x) (by exact hx) (by exact hknown) (by exact hs) hres
    -- the check of a moved handle passed
    have hmove : Yields (do moveTo dst r; pure none) t v st' := by
      split at h
      · simp only [handleState, yields_bind, yields_get, yields_pure] at h
        obtain ⟨_, _, ⟨_, _, ⟨rfl, rfl⟩, rfl, rfl⟩, h⟩ := h
        split at h
        · obtain ⟨_, _, hfail, _⟩ := yields_bind.mp h
          exact absurd hfail not_yields_fail
        · exact h
      · exact h
    simp only [yields_bind, yields_pure] at hmove
    obtain ⟨_, _, hmove, rfl, rfl⟩ := hmove
    exact ⟨rfl, .of_quiet hquiet (fetches_resolved hresolved rfl hmove) rfl rfl⟩

/-! ## The invariant -/

/-- The registers and variables an expression needs are apart from the temporaries its code
takes. -/
structure Apart (π : List UInt8 → Place) (S : List ℕ) (dst : ℕ) (e : Expr) : Prop where
  dst_lt : dst < 20
  dst_notMem : dst ∉ S
  valid : ∀ x ∈ e.vars, (π x).Valid
  vars : ∀ x ∈ e.vars, ∀ r ∈ S, π x ≠ .reg r
  inPlace : e.InPlace (π · = .reg dst)

/-- The expression, its variables at their places. -/
def valueAt (π : List UInt8 → Place) (vm : PX64VM) (e : Expr) : Option Word64 :=
  e.eval vm.getStrBytes fun x => (π x).read vm

theorem valueAt_bin {π : List UInt8 → Place} {vm : PX64VM} {op : BinOp} {a b : Expr}
    {x y : Word64} (hboth : Expr.bothConst a b = false) (hx : valueAt π vm a = some x)
    (hy : valueAt π vm b = some y) :
    valueAt π vm (.bin op a b) = op.apply vm.getStrBytes x y := by
  unfold valueAt at hx hy ⊢
  simp only [Expr.eval, hx, hy, hboth, Bool.false_eq_true, if_false]

theorem valueAt_bin_none {π : List UInt8 → Place} {vm : PX64VM} {op : BinOp} {a b : Expr}
    (h : valueAt π vm a = none ∨ valueAt π vm b = none) : valueAt π vm (.bin op a b) = none := by
  unfold valueAt at h ⊢
  rcases h with h | h
  · simp only [Expr.eval, h]
  · simp only [Expr.eval, h]
    cases a.eval vm.getStrBytes fun x => (π x).read vm with
    | none => rfl
    | some v => rfl

/-- What the code of an expression does on a machine. -/
def Does (host : Host) (π : List UInt8 → Place) (S : List ℕ) (e : Expr) (dst : ℕ) (vm : PX64VM)
    (stop : ℕ) : Option Word64 → Prop
  | some _ => ∃ vm', Passes host (· ∈ S) vm vm' ∧ vm'.ip = stop
  | none => Computes host (fun r => r = dst ∨ r ∈ S) dst vm stop (valueAt π vm e)

section

variable {host : Host} {π : List UInt8 → Place} {S : List ℕ} {e : Expr} {dst stop : ℕ}
  {vm : PX64VM}

theorem does_none : Does host π S e dst vm stop none ↔
    Computes host (fun r => r = dst ∨ r ∈ S) dst vm stop (valueAt π vm e) := Iff.rfl

end

/-- An expression was compiled into a register. -/
structure Compiled (e : Expr) (dst : ℕ) (v : Option Word64) (st st' : CompilerState) : Prop where
  segment : Segment st st'
  temps : ∀ r ∈ scratch st st', st.Reaches e.temps r
  scale : st'.info.fixedScale = e.scaleAfter st.info.fixedScale
  places : ∀ x ∈ e.vars, (st'.place x).isSome
  runs : ∀ (host : Host) (vm : PX64VM) (π : List UInt8 → Place),
    (∀ x ∈ e.vars, st'.place x = some (π x)) → Holds vm st st' → vm.ip = st.code.length →
    Apart π (scratch st st') dst e →
    Does host π (scratch st st') e dst vm st'.code.length v

/-- What the compiler needs to know of an integer expression. -/
structure Ready (e : Expr) (st : CompilerState) : Prop where
  vars : ∀ x ∈ e.vars, st.IntVar x
  unscaled : e.Unscaled st.info.fixedScale

/-- The value stays while no place of a variable is written. -/
theorem valueAt_of_passes {host : Host} {T : ℕ → Prop} {vm vm' : PX64VM} {e : Expr}
    {π : List UInt8 → Place} (h : Passes host T vm vm')
    (hπ : ∀ x ∈ e.vars, ∀ r, π x = .reg r → ¬ T r) : valueAt π vm' e = valueAt π vm e := by
  rw [valueAt, valueAt, getStrBytes_of_core h.core]
  refine Expr.eval_congr fun x hx => ?_
  cases hp : π x with
  | reg r => exact h.frame r (hπ x hx r hp)
  | slot s => exact congrFun h.spill s

namespace Apart

variable {π : List UInt8 → Place} {S S' : List ℕ} {dst : ℕ} {e e' : Expr}

/-- Fewer temporaries and variables. -/
theorem mono (h : Apart π S dst e) (hS : ∀ r ∈ S', r ∈ S) (hvars : ∀ x ∈ e'.vars, x ∈ e.vars)
    (hin : e'.InPlace (π · = .reg dst)) : Apart π S' dst e' where
  dst_lt := h.dst_lt
  dst_notMem := fun hmem => h.dst_notMem (hS dst hmem)
  valid := fun x hx => h.valid x (hvars x hx)
  vars := fun x hx r hr => h.vars x (hvars x hx) r (hS r hr)
  inPlace := hin

/-- Into one of the temporaries themselves. -/
theorem temp (h : Apart π S dst e) (hS : ∀ r ∈ S', r ∈ S) (hvars : ∀ x ∈ e'.vars, x ∈ e.vars)
    {tmp : ℕ} (hlt : tmp < 20) (hmem : tmp ∈ S) (hnot : tmp ∉ S') : Apart π S' tmp e' where
  dst_lt := hlt
  dst_notMem := hnot
  valid := fun x hx => h.valid x (hvars x hx)
  vars := fun x hx r hr => h.vars x (hvars x hx) r (hS r hr)
  inPlace := Expr.inPlace_of_avoids fun x hx => h.vars x (hvars x hx) tmp hmem

end Apart

namespace Compiled

variable {e : Expr} {dst : ℕ} {v : Option Word64}

theorem of_quiet (hq : Quiet t st) (h : Compiled e dst v st st')
    (hscale : e.scaleAfter st.info.fixedScale = e.scaleAfter t.info.fixedScale) :
    Compiled e dst v t st' where
  segment := hq.segment.trans h.segment
  temps := hq.segment.reaches_trans h.segment.grows.log (reaches_of_log_eq hq.log) h.temps
  scale := h.scale.trans hscale
  places := h.places
  runs := by
    have hS : scratch t st' = scratch st st' := by
      rw [scratch_trans hq.segment.grows.log h.segment.grows.log, scratch_eq_nil hq.log,
        List.nil_append]
    intro host vm π hπ hvm hip hapart
    rw [hS] at hapart ⊢
    rw [← hq.code] at hip
    exact h.runs host vm π hπ (hvm.right hq.segment.grows.code_le) hip hapart

theorem quiet (h : Compiled e dst v st st') (hq : Quiet st' t)
    (hscale : t.info.fixedScale = st'.info.fixedScale) : Compiled e dst v st t where
  segment := h.segment.trans hq.segment
  temps := by
    rw [scratch_congr hq.log]
    exact h.temps
  scale := hscale.trans h.scale
  places := fun x hx => hq.segment.grows.place_isSome (h.places x hx)
  runs := by
    intro host vm π hπ hvm hip hapart
    rw [scratch_congr hq.log] at hapart ⊢
    rw [hq.code]
    exact h.runs host vm π (fun x hx => hq.segment.grows.place_eq (h.places x hx) (hπ x hx))
      (hvm.left hq.segment.grows) hip hapart

/-- A pending constant is loaded behind the code. -/
theorem load (h : Compiled e dst v st t) (hv : v = e.constVal) (hload : Pending t dst v st') :
    Compiled e dst none st st' where
  segment := h.segment.trans hload.segment
  temps := by
    rw [scratch_trans h.segment.grows.log hload.segment.grows.log, hload.scratch,
      List.append_nil]
    exact h.temps
  scale := by rw [hload.info, h.scale]
  places := fun x hx => hload.segment.grows.place_isSome (h.places x hx)
  runs := by
    have hgrows := hload.segment.grows
    have hS : scratch st st' = scratch st t := by
      rw [scratch_trans h.segment.grows.log hgrows.log, hload.scratch, List.append_nil]
    intro host vm π hπ hvm hip hapart
    rw [hS] at hapart ⊢
    have hdo := h.runs host vm π (fun x hx => hgrows.place_eq (h.places x hx) (hπ x hx))
      (hvm.left hgrows) hip hapart
    have hvm_t := hvm.right h.segment.grows.code_le
    cases v with
    | some c =>
      obtain ⟨vm₁, hp₁, hip₁⟩ := hdo
      obtain ⟨vm₂, hp₂, hip₂, hc⟩ :=
        hload.runs host vm₁ (hvm_t.of_core hp₁.core) hip₁ hapart.dst_lt
      have hval : valueAt π vm e = some c := Expr.eval_of_constVal hv.symm
      rw [does_none, hval]
      exact ⟨vm₂, (hp₁.mono fun r => .inr).trans (hp₂.mono fun r hr => .inl hr.1), hip₂, hc c rfl⟩
    | none =>
      rw [does_none] at hdo ⊢
      exact hload.computes hvm_t hapart.dst_lt hdo

end Compiled

/-! ## Literals and variables -/

theorem compiled_num (n : Word64) (dst : ℕ) (st : CompilerState) :
    Compiled (.num n) dst (some n) st st.next where
  segment := .next st
  temps := reaches_of_log_eq rfl
  scale := rfl
  places := fun _ hx => absurd hx List.not_mem_nil
  runs := fun _ vm _ _ _ hip _ => ⟨vm, .refl .., hip⟩

theorem compiled_varValue {tok : Token} {x : List UInt8} {dst : ℕ} {v : Option Word64}
    (hx : st.text? tok = some x) (hint : st.IntVar x)
    (h : Yields (varValue tok dst) st v st') :
    v = none ∧ Compiled (.var x) dst none st st' ∧ st'.current = st.current := by
  obtain ⟨rfl, hfetch⟩ := fetches_varValue hx hint.2 h
  refine ⟨rfl, ⟨hfetch.segment, reaches_of_log_eq hfetch.log, ?_, ?_, ?_⟩, hfetch.current⟩
  · rw [hfetch.scale]
    exact hint.1
  · intro y hy
    obtain rfl := List.mem_singleton.mp hy
    exact hfetch.known
  · intro host vm π hπ hvm hip hapart
    obtain ⟨vm', hp, hip', hval⟩ := hfetch.runs host vm (π x) (hπ x (List.mem_singleton_self x))
      (hapart.valid x (List.mem_singleton_self x)) hvm hip hapart.dst_lt
    rw [does_none, valueAt, Expr.eval]
    exact ⟨vm', hp.mono fun r hr => .inl hr, hip', hval⟩

end Compiler

end LatencyOS
