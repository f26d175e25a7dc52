import LatencyOS.Compiler.Discipline.Rules

/-!
# The discipline of the small functions

Primitives, token access, lookups and the ownership checks.
-/

namespace LatencyOS

namespace Compiler

variable {s : Session} {pend : List ℕ} {st st' : CompilerState} {α β σ : Type}

/-! ## Primitives -/

theorem fails_error (e : CompileError) : s.terms.fails (.error e) := by
  constructor <;> intro _ h <;> cases h

/-- A primitive that changes nothing the discipline looks at. -/
theorem keeps_op {o : CompilerOp β} (hwell : ∀ st, WellOp β o st)
    (hend : ∀ st, SafeOp β o st →
      Prog.Ends s.terms.fails (perform β o st) fun _ st' => Same st st') :
    Keeps s (Prog.op o) := by
  refine ⟨fun {pend st} hs hsafe => ⟨hwell st, (hend st hsafe).mono fun b st' h => ?_⟩⟩
  exact ⟨h.sound hs, h.later⟩

instance keeps_get : Keeps s get := keeps_op (fun _ => trivial) fun st _ => .refl st

instance keeps_allocTemp : Keeps s allocTemp := by
  refine keeps_op (fun _ => trivial) fun st _ => ?_
  simp only [perform, CompilerState.allocTemp]
  split
  · exact ⟨rfl, rfl, rfl, rfl, rfl⟩
  · exact fails_error _

instance keeps_freeTemp (reg : ℕ) : Keeps s (freeTemp reg) := by
  refine keeps_op (fun _ => trivial) fun st _ => ?_
  simp only [perform, CompilerState.freeTemp]
  split
  · exact ⟨rfl, rfl, rfl, rfl, rfl⟩
  · exact .refl st

theorem ends_pushConstant (st : CompilerState) (val : Word64) (hint : String) :
    Prog.Ends s.terms.fails (st.pushConstant val hint) fun _ st' => Same st st' := by
  simp only [CompilerState.pushConstant]
  split
  · exact fails_error _
  · exact ⟨rfl, rfl, rfl, rfl, rfl⟩

instance keeps_addConstant (val : Word64) : Keeps s (addConstant val) := by
  refine keeps_op (fun _ => trivial) fun st _ => ?_
  simp only [perform, CompilerState.addConstant]
  split
  · exact .refl st
  · exact ends_pushConstant st val _

instance keeps_appendTableConstant (val : Word64) :
    Keeps s (Prog.op (.appendTableConstant val)) :=
  keeps_op (fun _ => trivial) fun st _ => ends_pushConstant st val _

instance keeps_declareVar (tok : Token) (isMut : Bool) : Keeps s (declareVar tok isMut) := by
  refine keeps_op (fun _ => trivial) fun st _ => ?_
  simp only [perform, CompilerState.declareVar]
  repeat' split
  all_goals first
    | exact fails_error _
    | exact .refl st
    | exact ⟨rfl, rfl, rfl, rfl, rfl⟩

instance keeps_setVarTypes (idx : ℕ) (e f : Option ℕ) : Keeps s (setVarTypes idx e f) :=
  keeps_op (fun _ => trivial) fun _ _ => ⟨rfl, rfl, rfl, rfl, rfl⟩

instance keeps_setHandles (states : ℕ → Typestate) : Keeps s (Prog.op (.setHandles states)) :=
  keeps_op (fun _ => trivial) fun _ _ => ⟨rfl, rfl, rfl, rfl, rfl⟩

instance keeps_setInfo (info : ExprInfo) : Keeps s (Prog.op (.setInfo info)) :=
  keeps_op (fun _ => trivial) fun _ _ => ⟨rfl, rfl, rfl, rfl, rfl⟩

instance keeps_pushArray (name : List UInt8) (len : ℕ) :
    Keeps s (Prog.op (.pushArray name len)) := by
  refine keeps_op (fun _ => trivial) fun st hsafe => ?_
  simp only [perform, CompilerState.pushArray]
  rw [if_neg (Nat.not_le.mpr hsafe)]
  exact ⟨rfl, rfl, rfl, rfl, rfl⟩

instance keeps_negLiteral (n : Word64) : Keeps s (negLiteral n) := by
  refine keeps_op (fun _ => trivial) fun st hsafe => ?_
  simp only [perform, CompilerState.negate]
  rw [if_neg hsafe]
  exact .refl st

instance keeps_forIterations (startVal endVal : Word64) :
    Keeps s (forIterations startVal endVal) := by
  refine keeps_op (fun _ => trivial) fun st hsafe => ?_
  simp only [perform, CompilerState.rangeLen]
  split
  · exact .refl st
  · next hlt =>
    rw [if_neg (hsafe.resolve_left hlt)]
    exact .refl st

instance keeps_enterFn (i : ℕ) : Keeps s (Prog.op (.enterFn i)) :=
  keeps_op (fun _ => trivial) fun _ _ => ⟨rfl, rfl, rfl, rfl, rfl⟩

instance keeps_leaveFn : Keeps s (Prog.op .leaveFn) := by
  refine keeps_op (fun _ => trivial) fun st _ => ?_
  simp only [perform, CompilerState.leaveFn]
  split
  · exact .refl st
  · exact ⟨rfl, rfl, rfl, rfl, rfl⟩

/-- The text of a token of the session is there. -/
theorem IsTok.text? {tok : Token} (h : IsTok s tok) (hsrc : st.src = s.src) (hv : s.Valid) :
    ∃ name, st.text? tok = some name := by
  refine ⟨_, if_pos ?_⟩
  rw [hsrc]
  exact h.le hv

/-- A use of a token's text. -/
theorem ends_text? {tok : Token} (h : IsTok s tok) (hsrc : st.src = s.src)
    (hnone : st.text? tok = none) : s.terms.fails .panic := by
  refine ⟨fun _ => nofun, fun hv => ?_⟩
  obtain ⟨name, hname⟩ := h.text? hsrc hv
  rw [hnone] at hname
  cases hname

instance keeps_resolveVar (tok : Token) [htok : IsTok s tok] : Keeps s (resolveVar tok) := by
  refine ⟨fun {pend st} hs _ => ⟨trivial, ?_⟩⟩
  have hend : Prog.Ends s.terms.fails (st.resolveVar tok) fun _ st' => Same st st' := by
    simp only [CompilerState.resolveVar]
    split
    · next hnone => exact ends_text? htok hs.src hnone
    · repeat' split
      all_goals first
        | exact fails_error _
        | exact .refl st
        | exact ⟨rfl, rfl, rfl, rfl, rfl⟩
  exact hend.mono fun _ _ h => ⟨h.sound hs, h.later⟩

/-- The state after an emitted instruction. -/
theorem Sound.emit (hs : Sound s pend st) {op : Opcode} {rd rs1 rs2 : ℕ} {pend' : List ℕ}
    (hj : JumpsLand s.before.length s.level pend' (st.code ++ instBytes op rd rs1 rs2)) :
    Sound s pend' { st with code := st.code ++ instBytes op rd rs1 rs2 } ∧
      Later st { st with code := st.code ++ instBytes op rd rs1 rs2 } := by
  have hle : st.code.length ≤ (st.code ++ instBytes op rd rs1 rs2).length := by
    rw [List.length_append]
    exact Nat.le_add_right _ _
  have hl : Later st { st with code := st.code ++ instBytes op rd rs1 rs2 } :=
    ⟨Nat.le_refl _, hle, Nat.le_refl _, fun _ _ => rfl, fun _ hn => levelAt_append _ hn⟩
  refine ⟨⟨hs.src, hs.tokens, fun hb => Nat.le_trans (hl.rank_le s) (hs.rank_le hb),
    hs.start.trans (List.prefix_append _ _), hj, ?_, hs.wcet⟩, hl⟩
  exact fun f hf => (hs.entries f hf).append _

/-- An instruction that is not a jump. -/
theorem runs_emitInst {op : Opcode} {rd rs1 rs2 : ℕ} (hs : Sound s pend st) (hop : op ∉ jumpOps)
    (hnest : op.nesting = 0) (hwell : WellOp ℕ (.emitInst op rd rs1 rs2) st) :
    s.Runs (emitInst op rd rs1 rs2) (fun _ st' => Sound s pend st' ∧ Later st st') st := by
  refine fun _ => ⟨hwell, ?_⟩
  simp only [perform, CompilerState.emitInst]
  split
  · exact fails_error _
  · next hfit => exact hs.emit (hs.jumps.plain (Nat.not_lt.mp hfit) hnest hop)

instance keeps_emitInst (op : Opcode) (rd rs1 rs2 : ℕ) [hop : Obvious (PlainOp op)] :
    Keeps s (emitInst op rd rs1 rs2) :=
  ⟨fun hs => runs_emitInst hs hop.holds.notMem hop.holds.nesting fun h =>
    absurd h hop.holds.ne_callNat⟩

/-! ## Reading tokens -/

/-- Run a computation that looks at the state first. -/
theorem runs_get {f : CompilerState → CompilerM α} {Q : α → CompilerState → Prop}
    (h : s.Runs (f st) Q st) : s.Runs (get >>= f) Q st :=
  Prog.Wp.bind fun _ => ⟨trivial, h⟩

instance keeps_fail (code message expected stage suggestion : String) :
    Keeps s (fail code message expected stage suggestion : CompilerM α) := by
  dsimp only [fail]
  infer_instance

theorem fail_bind (code message expected stage suggestion : String) (f : α → CompilerM β) :
    (fail code message expected stage suggestion >>= f) =
      fail code message expected stage suggestion := rfl

instance keeps_require (c : Bool) (code message expected stage suggestion : String) :
    Keeps s (require c code message expected stage suggestion) := by
  dsimp only [require]
  infer_instance

theorem runs_require {c : Bool} {code message expected stage suggestion : String}
    {Q : Unit → CompilerState → Prop} (h : c = true → Q () st) :
    s.Runs (require c code message expected stage suggestion) Q st := by
  cases c with
  | true => exact h rfl
  | false => exact runs_get (fails_error _)

/-- What stands past the end of the buffer lies in every source. -/
theorem isTok_getD (s : Session) (i : ℕ) : IsTok s (s.tokens.getD i Token.empty) := by
  refine ⟨fun hv => ?_⟩
  by_cases hi : i < s.tokens.length
  · rw [List.getD_eq_getElem _ _ hi]
    exact hv _ (List.getElem_mem hi)
  · rw [List.getD_eq_default _ _ (Nat.not_lt.mp hi)]
    exact Nat.zero_le _

theorem Sound.isTok (hs : Sound s pend st) (offset : ℕ) : IsTok s (st.peekAhead offset) := by
  rw [CompilerState.peekAhead, hs.tokens]
  exact isTok_getD s _

/-- A token that is not the end stands in the buffer. -/
theorem Sound.in_buffer (hs : Sound s pend st) (hk : st.peek.kind ≠ .eof) :
    st.current < s.tokens.length := by
  by_contra hlt
  rw [CompilerState.peek, CompilerState.peekAhead, hs.tokens, Nat.add_zero,
    List.getD_eq_default _ _ (Nat.not_lt.mp hlt)] at hk
  exact hk rfl

instance reads_peekAhead (offset : ℕ) : Reads s (peekAhead offset) :=
  ⟨fun hs => runs_get ⟨hs.isTok offset, hs, .refl _⟩⟩

instance reads_peek : Reads s peek := reads_peekAhead 0

/-- The kind of the current token. -/
theorem runs_peekKind {f : TokenKind → CompilerM α} {Q : α → CompilerState → Prop}
    (h : s.Runs (f st.peek.kind) Q st) : s.Runs (peekKind >>= f) Q st :=
  Prog.Wp.bind (Prog.Wp.bind (runs_get h))

instance keeps_peekKind : Keeps s peekKind := by
  dsimp only [peekKind]
  infer_instance

/-- The cursor set to a later position. -/
theorem Sound.setCurrent (hs : Sound s pend st) {n : ℕ} (hn : st.current ≤ n) :
    Sound s pend { st with current := n } ∧ Later st { st with current := n } := by
  have hl : Later st { st with current := n } :=
    ⟨hn, Nat.le_refl _, Nat.le_refl _, fun _ _ => rfl, fun _ _ => rfl⟩
  exact ⟨⟨hs.src, hs.tokens, fun hb => Nat.le_trans (hl.rank_le s) (hs.rank_le hb), hs.start,
    hs.jumps, hs.entries, hs.wcet⟩, hl⟩

/-- `advance` answers with the current token and moves past it if it stands in the buffer. -/
theorem runs_advance (hs : Sound s pend st) :
    s.Runs advance (fun tok st' => tok = st.peek ∧ Sound s pend st' ∧ Later st st' ∧
      (st.current < s.tokens.length → st.current < st'.current)) st := by
  refine runs_get ?_
  by_cases hin : st.current < st.tokens.length
  · rw [if_pos hin]
    obtain ⟨hsound, hlater⟩ := hs.setCurrent (Nat.le_succ st.current)
    exact fun _ => ⟨trivial, rfl, hsound, hlater, fun _ => Nat.lt_succ_self _⟩
  · rw [if_neg hin]
    exact ⟨rfl, hs, .refl _, fun hlt => absurd (hs.tokens ▸ hlt) hin⟩

instance reads_advance : Reads s advance := by
  refine ⟨fun hs => (runs_advance hs).mono fun tok st' h => ?_⟩
  exact ⟨h.1 ▸ hs.isTok 0, h.2.1, h.2.2.1⟩

instance keeps_advance : Keeps s advance := reads_advance.keeps

instance steps_advance : Steps s advance :=
  ⟨keeps_advance, fun hs hin =>
    (runs_advance hs).mono fun _ _ h => ⟨h.2.1, h.2.2.1, h.2.2.2 hin⟩⟩

/-- A matched token is consumed. -/
theorem runs_matchToken (hs : Sound s pend st) {kind : TokenKind} (hk : kind ≠ .eof) :
    s.Runs (matchToken kind) (fun b st' => Sound s pend st' ∧ Later st st' ∧
      (b = true → st.current < s.tokens.length ∧ st.current < st'.current)) st := by
  refine runs_peekKind ?_
  split
  · next hkind =>
    have hin := hs.in_buffer (hkind ▸ hk)
    refine Prog.Wp.bind ((runs_advance hs).mono fun _ _ h => ?_)
    exact ⟨h.2.1, h.2.2.1, fun _ => ⟨hin, h.2.2.2 hin⟩⟩
  · exact ⟨hs, .refl _, fun h => nomatch h⟩

instance keeps_matchToken (kind : TokenKind) : Keeps s (matchToken kind) := by
  dsimp only [matchToken]
  infer_instance

instance keeps_skip (kind : TokenKind) : Keeps s (skip kind) := by
  dsimp only [skip]
  infer_instance

theorem runs_text {tok : Token} [htok : IsTok s tok] {Q : List UInt8 → CompilerState → Prop}
    (hs : Sound s pend st) (h : ∀ name, Q name st) : s.Runs (text tok) Q st := by
  refine runs_get ?_
  split
  · exact h _
  · next hnone => exact ends_text? htok hs.src hnone

instance keeps_text (tok : Token) [IsTok s tok] : Keeps s (text tok) :=
  ⟨fun hs => runs_text hs fun _ => ⟨hs, .refl _⟩⟩

/-! ### Loops -/

/-- A loop that stops at a token or at the end. -/
theorem Advances.guard {kind : TokenKind} {a : σ} {rest : TokenKind → CompilerM (ForInStep σ)}
    (hrest : ∀ k, Steps s (rest k)) :
    Advances s (peekKind >>= fun k =>
      if k = kind ∨ k = .eof then pure (.done a) else rest k) := by
  refine ⟨fun {pend st} hs => runs_peekKind ?_⟩
  split
  · refine ⟨hs, .refl _, ?_⟩
    intro _ h
    cases h
  · next hne =>
    have hin := hs.in_buffer fun heof => hne (.inr heof)
    exact ((hrest _).runs hs hin).mono fun _ _ h => ⟨h.1, h.2.1, fun _ _ => ⟨hin, h.2.2⟩⟩

instance advances_guard {kind : TokenKind} {a : σ} {rest : TokenKind → CompilerM (ForInStep σ)}
    [hrest : ∀ k, Steps s (rest k)] :
    Advances s (peekKind >>= fun k =>
      if k = kind ∨ k = .eof then pure (.done a) else rest k) := .guard hrest

/-- A loop that goes on with a matched token. -/
instance advances_match {kind : TokenKind} {p q : CompilerM (ForInStep σ)}
    [hkind : Obvious (NotEof kind)] [hp : Keeps s p] [hq : Advances s q] :
    Advances s (matchToken kind >>= fun b => if b = true then p else q) := by
  refine ⟨fun {pend st} hs => Prog.Wp.bind ?_⟩
  refine (runs_matchToken hs hkind.holds.ne).mono fun b t ht => ?_
  obtain ⟨hsound, hlater, hmoved⟩ := ht
  cases b with
  | true =>
    refine (hp.runs hsound).mono fun _ _ h => ⟨h.1, hlater.trans h.2, fun _ _ => ?_⟩
    exact ⟨(hmoved rfl).1, Nat.lt_of_lt_of_le (hmoved rfl).2 h.2.current_le⟩
  | false =>
    refine (hq.runs hsound).mono fun _ _ h => ⟨h.1, hlater.trans h.2.1, fun b hb => ?_⟩
    obtain ⟨hin, hlt⟩ := h.2.2 b hb
    exact ⟨Nat.lt_of_le_of_lt hlater.current_le hin, Nat.lt_of_le_of_lt hlater.current_le hlt⟩

instance keeps_untilToken {kind : TokenKind} {step : CompilerM Unit} [Steps s step] {n : ℕ}
    [LoopBound s n] : Keeps s (untilToken n kind step) := by
  dsimp only [untilToken]
  infer_instance

/-! ## Emitting code and reporting -/

instance keeps_emit (op : Opcode) (rd rs1 rs2 : ℕ) [Obvious (PlainOp op)] :
    Keeps s (emit op rd rs1 rs2) := by
  dsimp only [emit]
  infer_instance

/-- A call of a native function where it may be called. -/
theorem runs_callNat {f : Native} (hs : Sound s pend st) (hf : st.decls.Admits f) (rd rs2 : ℕ) :
    s.Runs (emit .callNat rd f.id rs2) (fun _ st' => Sound s pend st' ∧ Later st st') st := by
  have hwell : WellOp ℕ (.emitInst .callNat rd f.id rs2) st := fun _ => ⟨f, rfl, hf⟩
  exact Prog.Wp.bind ((runs_emitInst hs (by decide) rfl hwell).mono fun _ _ h => h)

/-- A native function that may be called anywhere. -/
class Ungated (f : Native) : Prop where
  mem : f ∈ Native.ungated

instance keeps_callNat (f : Native) (rd rs2 : ℕ) [hf : Ungated f] :
    Keeps s (emit .callNat rd f.id rs2) :=
  ⟨fun hs => runs_callNat hs (fun _ => .inl hf.mem) rd rs2⟩

instance keeps_emitImm16 (op : Opcode) (rd imm : ℕ) [Obvious (PlainOp op)] :
    Keeps s (emitImm16 op rd imm) := by
  dsimp only [emitImm16]
  infer_instance

instance keeps_codeLen : Keeps s codeLen := by
  dsimp only [codeLen]
  infer_instance

instance keeps_emitConst (dst : ℕ) (val : Word64) : Keeps s (emitConst dst val) := by
  dsimp only [emitConst]
  infer_instance

instance keeps_modifyInfo (f : ExprInfo → ExprInfo) : Keeps s (modifyInfo f) := by
  dsimp only [modifyInfo]
  infer_instance

instance keeps_setEnumType (e : Option ℕ) : Keeps s (setEnumType e) := keeps_modifyInfo _

instance keeps_setFixedScale (e : Option ℕ) : Keeps s (setFixedScale e) := keeps_modifyInfo _

instance keeps_setTargetScale (e : Option ℕ) : Keeps s (setTargetScale e) := keeps_modifyInfo _

instance keeps_handleState (slot : ℕ) : Keeps s (handleState slot) := by
  dsimp only [handleState]
  infer_instance

instance keeps_setHandleState (slot : ℕ) (t : Typestate) : Keeps s (setHandleState slot t) := by
  dsimp only [setHandleState]
  infer_instance

instance keeps_setHandleStates (states : ℕ → Typestate) : Keeps s (setHandleStates states) :=
  keeps_setHandles states

/-- A change of the declarations that is not one of functions or imports. -/
class Outside (f : Decls → Decls) : Prop where
  functions : ∀ d, (f d).functions = d.functions
  explicit : ∀ d, (f d).hasExplicitImports = d.hasExplicitImports
  imported : ∀ d, (f d).importedRuntimes = d.importedRuntimes

instance outside_mk {enums : Decls → List EnumDefMeta} {arrays : Decls → List ArrayMeta}
    {totalArrayElements : Decls → ℕ} {structDefs : Decls → List StructDefMeta}
    {structInsts : Decls → List StructInstMeta} {totalStructFields : Decls → ℕ}
    {constTables : Decls → List ConstTableMeta} {views : Decls → List ViewMeta}
    {wcet budget : Decls → Option ℕ} {wcetItems : Decls → List WcetItem}
    {total maxElements maxArrays : Decls → ℕ} :
    Outside (fun d => ⟨enums d, arrays d, totalArrayElements d, d.functions, structDefs d,
      structInsts d, totalStructFields d, constTables d, views d, wcet d, budget d, wcetItems d,
      total d, maxElements d, maxArrays d, d.importedRuntimes, d.hasExplicitImports⟩) :=
  ⟨fun _ => rfl, fun _ => rfl, fun _ => rfl⟩

instance keeps_modifyDecls (f : Decls → Decls) [hf : Outside f] : Keeps s (modifyDecls f) := by
  refine ⟨fun {pend st} hs => runs_get fun _ => ⟨?_, ?_⟩⟩
  · exact Decls.importsGrow_of_eq (hf.explicit _) (hf.imported _)
  · have hsame : Same st { st with decls := f st.decls } :=
      ⟨rfl, rfl, rfl, rfl, hf.functions _⟩
    exact ⟨hsame.sound hs, hsame.later⟩

/-! ## Lookups and checks -/

instance keeps_isSpilledVar (tok : Token) : Keeps s (isSpilledVar tok) := by
  dsimp only [isSpilledVar]
  infer_instance

instance keeps_getVarIndex (tok : Token) : Keeps s (getVarIndex tok) := by
  dsimp only [getVarIndex]
  infer_instance

instance keeps_getVarEnumType (tok : Token) : Keeps s (getVarEnumType tok) := by
  dsimp only [getVarEnumType]
  infer_instance

instance keeps_getVarFixedScale (tok : Token) [IsTok s tok] : Keeps s (getVarFixedScale tok) := by
  dsimp only [getVarFixedScale]
  refine .bind inferInstance fun st => .bind inferInstance fun _ => ?_
  split <;> infer_instance

instance keeps_checkVarMutation (tok : Token) [IsTok s tok] : Keeps s (checkVarMutation tok) := by
  dsimp only [checkVarMutation]
  refine .bind inferInstance fun st => .bind inferInstance fun _ => ?_
  repeat' split
  all_goals infer_instance

instance keeps_tryResolveVar (tok : Token) [htok : IsTok s tok] : Keeps s (tryResolveVar tok) := by
  refine ⟨fun {pend st} hs => runs_get ?_⟩
  split
  · exact keeps_bind.runs hs
  · next hpanic =>
    refine ends_text? htok hs.src ?_
    simp only [CompilerState.resolveVar] at hpanic
    repeat' split at hpanic
    all_goals first | assumption | cases hpanic
  · exact ⟨hs, .refl _⟩

instance keeps_checkHwAssignPre (varReg : ℕ) : Keeps s (checkHwAssignPre varReg) := by
  dsimp only [checkHwAssignPre]
  refine @keeps_ite _ _ _ _ _ _ inferInstance (.bind inferInstance fun old =>
    .bind inferInstance fun _ => reads_peek.bind fun tok _ =>
      @keeps_ite _ _ _ _ _ _ inferInstance (.bind inferInstance fun src => ?_))
  cases src with
  | none => infer_instance
  | some srcReg =>
    refine @keeps_ite _ _ _ _ _ _ inferInstance (.bind inferInstance fun t => ?_)
    cases t <;> infer_instance

instance keeps_applyHwAssignPost (varReg : ℕ) (ident : Token) (moved : Option (ℕ × ResourceKind)) :
    Keeps s (applyHwAssignPost varReg ident moved) := by
  dsimp only [applyHwAssignPost]
  repeat' split
  all_goals infer_instance

/-- A call of a native function behind the check of its module. -/
instance keeps_checkIntrinsicRuntime {f : Native} {rd rs2 : ℕ} {g : Unit → CompilerM α}
    [hg : ∀ u, Keeps s (g u)] :
    Keeps s (checkIntrinsicRuntime f >>= fun _ => emit .callNat rd f.id rs2 >>= g) := by
  refine ⟨fun {pend st} hs => Prog.Wp.bind (runs_get (runs_require fun hcheck => ?_))⟩
  have hadmits : st.decls.Admits f := by
    intro hex
    rw [hex, Bool.not_true, Bool.false_or] at hcheck
    exact .inr (bne_iff_ne.mp hcheck)
  refine Prog.Wp.bind ((runs_callNat hs hadmits rd rs2).mono fun u t ht => ?_)
  exact ((hg u).runs ht.1).mono fun _ _ h => ⟨h.1, ht.2.trans h.2⟩

end Compiler

end LatencyOS
