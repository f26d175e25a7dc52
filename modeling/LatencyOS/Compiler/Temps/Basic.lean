import LatencyOS.Compiler.Temps.Rules

/-!
# Temporaries and the small functions

Primitives, token access, lookups, ownership checks and declarations hand out no temporary and take
none back.
-/

namespace LatencyOS

namespace Compiler

namespace Temps

-- the size of an instance doubles with every statement of a block
set_option synthInstance.maxSize 1000000000000
-- token kinds have many constructors, and `split` looks at all of them
set_option maxRecDepth 10000

variable {S : Pool.Stack} {d d' : ℕ} {st st' : CompilerState} {α β : Type}

/-! ## Primitives -/

/-- Two states with the same temporaries and functions. -/
structure SameTemps (st st' : CompilerState) : Prop where
  used : st'.tempUsed = st.tempUsed
  log : st'.allocLog = st.allocLog
  functions : st'.decls.functions = st.decls.functions

theorem SameTemps.tempsHeld (hs : SameTemps st st') {held : List ℕ} (h : TempsHeld held st) :
    TempsHeld held st' :=
  h.of_same hs.used hs.log hs.functions

/-- A primitive that leaves the temporaries and the functions alone. -/
theorem quiet_op {o : CompilerOp β} (hwell : ∀ st, TempWell S.Gapless β o st)
    (hend : ∀ st, Prog.Ends (fun _ => True) (perform β o st) fun _ st' => SameTemps st st') :
    Quiet S (Prog.op o) := by
  refine ⟨fun {held st} h _ => ⟨hwell st, (hend st).mono fun _ _ hs => hs.tempsHeld h⟩⟩

instance looks_get : Looks S get := ⟨fun h _ => ⟨trivial, h _⟩⟩

instance quiet_setCurrent (n : ℕ) : Quiet S (Prog.op (.setCurrent n)) :=
  quiet_op (fun _ => trivial) fun _ => ⟨rfl, rfl, rfl⟩

instance quiet_patchImm16 (pos imm : ℕ) : Quiet S (patchImm16 pos imm) := by
  refine quiet_op (fun _ => trivial) fun st => ?_
  simp only [perform, CompilerState.patchImm16]
  split
  · exact ⟨rfl, rfl, rfl⟩
  · exact ⟨rfl, rfl, rfl⟩

theorem ends_pushConstant (st : CompilerState) (val : Word64) (hint : String) :
    Prog.Ends (fun _ => True) (st.pushConstant val hint) fun _ st' => SameTemps st st' := by
  simp only [CompilerState.pushConstant]
  split
  · trivial
  · exact ⟨rfl, rfl, rfl⟩

instance quiet_addConstant (val : Word64) : Quiet S (addConstant val) := by
  refine quiet_op (fun _ => trivial) fun st => ?_
  simp only [perform, CompilerState.addConstant]
  split
  · exact ⟨rfl, rfl, rfl⟩
  · exact ends_pushConstant st val _

instance quiet_appendTableConstant (val : Word64) : Quiet S (Prog.op (.appendTableConstant val)) :=
  quiet_op (fun _ => trivial) fun st => ends_pushConstant st val _

instance quiet_declareVar (tok : Token) (isMut : Bool) : Quiet S (declareVar tok isMut) := by
  refine quiet_op (fun _ => trivial) fun st => ?_
  simp only [perform, CompilerState.declareVar]
  repeat' split
  all_goals first
    | trivial
    | exact ⟨rfl, rfl, rfl⟩

instance quiet_resolveVar (tok : Token) : Quiet S (resolveVar tok) := by
  refine quiet_op (fun _ => trivial) fun st => ?_
  simp only [perform, CompilerState.resolveVar]
  repeat' split
  all_goals first
    | trivial
    | exact ⟨rfl, rfl, rfl⟩

instance quiet_setVarTypes (idx : ℕ) (e f : Option ℕ) : Quiet S (setVarTypes idx e f) :=
  quiet_op (fun _ => trivial) fun _ => ⟨rfl, rfl, rfl⟩

instance quiet_setHandles (states : ℕ → Typestate) : Quiet S (Prog.op (.setHandles states)) :=
  quiet_op (fun _ => trivial) fun _ => ⟨rfl, rfl, rfl⟩

instance quiet_setInfo (info : ExprInfo) : Quiet S (Prog.op (.setInfo info)) :=
  quiet_op (fun _ => trivial) fun _ => ⟨rfl, rfl, rfl⟩

instance quiet_appendStr (text : List UInt8) : Quiet S (Prog.op (.appendStr text)) := by
  refine quiet_op (fun _ => trivial) fun st => ?_
  simp only [perform, CompilerState.appendStr]
  split
  · trivial
  · exact ⟨rfl, rfl, rfl⟩

instance quiet_pushArray (name : List UInt8) (len : ℕ) :
    Quiet S (Prog.op (.pushArray name len)) := by
  refine quiet_op (fun _ => trivial) fun st => ?_
  simp only [perform, CompilerState.pushArray]
  split
  · trivial
  · exact ⟨rfl, rfl, rfl⟩

instance quiet_negLiteral (n : Word64) : Quiet S (negLiteral n) := by
  refine quiet_op (fun _ => trivial) fun st => ?_
  simp only [perform, CompilerState.negate]
  split
  · trivial
  · exact ⟨rfl, rfl, rfl⟩

instance quiet_forIterations (startVal endVal : Word64) :
    Quiet S (forIterations startVal endVal) := by
  refine quiet_op (fun _ => trivial) fun st => ?_
  simp only [perform, CompilerState.rangeLen]
  repeat' split
  all_goals first
    | trivial
    | exact ⟨rfl, rfl, rfl⟩

instance quiet_enterFn (i : ℕ) : Quiet S (Prog.op (.enterFn i)) :=
  quiet_op (fun _ => trivial) fun _ => ⟨rfl, rfl, rfl⟩

instance quiet_leaveFn : Quiet S (Prog.op .leaveFn) := by
  refine quiet_op (fun _ => trivial) fun st => ?_
  simp only [perform, CompilerState.leaveFn]
  split
  · exact ⟨rfl, rfl, rfl⟩
  · exact ⟨rfl, rfl, rfl⟩

/-- The opcodes but that of a call of a native function. -/
@[reducible] def NoCall : Opcode → Prop
  | .callNat => False
  | _ => True

theorem NoCall.tempWell {op : Opcode} (h : NoCall op) (gapless : Prop) (rd rs1 rs2 : ℕ) :
    TempWell gapless ℕ (.emitInst op rd rs1 rs2) st := by
  cases op <;> first | exact h.elim | trivial

/-- An emitted instruction changes the code only. -/
theorem ends_emitInst (st : CompilerState) (op : Opcode) (rd rs1 rs2 : ℕ) :
    Prog.Ends (fun _ => True) (st.emitInst op rd rs1 rs2) fun _ st' =>
      SameTemps st st' ∧ SameTokens st st' := by
  simp only [CompilerState.emitInst]
  split
  · trivial
  · exact ⟨⟨rfl, rfl, rfl⟩, ⟨rfl, rfl, rfl, rfl⟩⟩

instance quiet_emitInst (op : Opcode) (rd rs1 rs2 : ℕ) [hop : Obvious (NoCall op)] :
    Quiet S (emitInst op rd rs1 rs2) :=
  quiet_op (fun _ => hop.holds.tempWell _ rd rs1 rs2) fun st =>
    (ends_emitInst st op rd rs1 rs2).mono fun _ _ h => h.1

/-! ## Reading tokens -/

instance looks_fail (code message expected stage suggestion : String) :
    Looks S (fail code message expected stage suggestion : CompilerM α) :=
  ⟨fun _ _ => ⟨trivial, trivial⟩⟩

/-- A failure ends with any temporaries in use. -/
instance uses_fail (code message expected stage suggestion : String) :
    Uses S d d' (fail code message expected stage suggestion : CompilerM α) :=
  ⟨fun _ _ => ⟨trivial, trivial⟩⟩

instance looks_panic : Looks S (panic : CompilerM α) := looks_throw _

instance looks_require (c : Bool) (code message expected stage suggestion : String) :
    Looks S (require c code message expected stage suggestion) := by
  dsimp only [require]
  infer_instance

instance looks_peekAhead (offset : ℕ) : Looks S (peekAhead offset) := by
  dsimp only [peekAhead]
  infer_instance

instance looks_peek : Looks S peek := looks_peekAhead 0

instance looks_peekKind : Looks S peekKind := by
  dsimp only [peekKind]
  infer_instance

instance quiet_advance : Quiet S advance := by
  dsimp only [advance]
  infer_instance

instance quiet_matchToken (kind : TokenKind) : Quiet S (matchToken kind) := by
  dsimp only [matchToken]
  infer_instance

instance quiet_skip (kind : TokenKind) : Quiet S (skip kind) := by
  dsimp only [skip]
  infer_instance

instance looks_text (tok : Token) : Looks S (text tok) := by
  dsimp only [text]
  refine .bind inferInstance fun st => ?_
  split <;> infer_instance

instance quiet_untilToken {kind : TokenKind} {step : CompilerM Unit} [Quiet S step] {n : ℕ} :
    Quiet S (untilToken n kind step) := by
  dsimp only [untilToken]
  infer_instance

instance uses_untilToken {kind : TokenKind} {step : CompilerM Unit} [Uses S d d step] {n : ℕ} :
    Uses S d d (untilToken n kind step) := by
  dsimp only [untilToken]
  infer_instance

/-! ## Emitting code and reporting -/

instance quiet_emit (op : Opcode) (rd rs1 rs2 : ℕ) [Obvious (NoCall op)] :
    Quiet S (emit op rd rs1 rs2) := by
  dsimp only [emit]
  infer_instance

instance quiet_emitImm16 (op : Opcode) (rd imm : ℕ) [Obvious (NoCall op)] :
    Quiet S (emitImm16 op rd imm) := by
  dsimp only [emitImm16]
  infer_instance

instance looks_codeLen : Looks S codeLen := by
  dsimp only [codeLen]
  infer_instance

instance quiet_emitConst (dst : ℕ) (val : Word64) : Quiet S (emitConst dst val) := by
  dsimp only [emitConst]
  infer_instance

instance quiet_modifyInfo (f : ExprInfo → ExprInfo) : Quiet S (modifyInfo f) := by
  dsimp only [modifyInfo]
  infer_instance

instance quiet_setEnumType (e : Option ℕ) : Quiet S (setEnumType e) := quiet_modifyInfo _

instance quiet_setFixedScale (e : Option ℕ) : Quiet S (setFixedScale e) := quiet_modifyInfo _

instance quiet_setTargetScale (e : Option ℕ) : Quiet S (setTargetScale e) := quiet_modifyInfo _

instance looks_handleState (slot : ℕ) : Looks S (handleState slot) := by
  dsimp only [handleState]
  infer_instance

instance quiet_setHandleState (slot : ℕ) (t : Typestate) : Quiet S (setHandleState slot t) := by
  dsimp only [setHandleState]
  infer_instance

instance quiet_setHandleStates (states : ℕ → Typestate) : Quiet S (setHandleStates states) :=
  quiet_setHandles states

/-- A change of the declarations that is not one of the parameters of functions. -/
theorem quiet_modifyDecls_of {f : Decls → Decls}
    (hf : ∀ d : Decls, d.ParamsFit → (f d).ParamsFit) : Quiet S (modifyDecls f) := by
  refine ⟨fun {held st} h => Prog.Wp.bind fun _ => ⟨trivial, fun _ => ⟨hf _, ?_⟩⟩⟩
  exact ⟨h.lt, h.nodup, h.used, h.live, hf _ h.params⟩

instance quiet_modifyDecls (f : Decls → Decls) [hf : Outside f] : Quiet S (modifyDecls f) := by
  refine quiet_modifyDecls_of fun d hd => ?_
  rw [Decls.ParamsFit, hf.functions]
  exact hd

/-! ## Lookups and checks -/

instance looks_isSpilledVar (tok : Token) : Looks S (isSpilledVar tok) := by
  dsimp only [isSpilledVar]
  infer_instance

instance looks_getVarIndex (tok : Token) : Looks S (getVarIndex tok) := by
  dsimp only [getVarIndex]
  infer_instance

instance looks_getVarEnumType (tok : Token) : Looks S (getVarEnumType tok) := by
  dsimp only [getVarEnumType]
  infer_instance

instance looks_getVarFixedScale (tok : Token) : Looks S (getVarFixedScale tok) := by
  dsimp only [getVarFixedScale]
  refine .bind inferInstance fun st => .bind inferInstance fun _ => ?_
  split <;> infer_instance

instance looks_checkVarMutation (tok : Token) : Looks S (checkVarMutation tok) := by
  dsimp only [checkVarMutation]
  refine .bind inferInstance fun st => .bind inferInstance fun _ => ?_
  repeat' split
  all_goals infer_instance

instance quiet_tryResolveVar (tok : Token) : Quiet S (tryResolveVar tok) := by
  dsimp only [tryResolveVar]
  refine .bind inferInstance fun st => ?_
  split <;> infer_instance

instance quiet_checkHwAssignPre (varReg : ℕ) : Quiet S (checkHwAssignPre varReg) := by
  dsimp only [checkHwAssignPre]
  refine .ite inferInstance (.bind inferInstance fun old =>
    .bind inferInstance fun _ => .bind inferInstance fun tok =>
      .ite inferInstance (.bind inferInstance fun src => ?_))
  cases src with
  | none => infer_instance
  | some srcReg =>
    refine .ite inferInstance (.bind inferInstance fun t => ?_)
    cases t <;> infer_instance

instance quiet_applyHwAssignPost (varReg : ℕ) (ident : Token) (moved : Option (ℕ × ResourceKind)) :
    Quiet S (applyHwAssignPost varReg ident moved) := by
  dsimp only [applyHwAssignPost]
  repeat' split
  all_goals infer_instance

instance looks_checkIntrinsicRuntime (f : Native) : Looks S (checkIntrinsicRuntime f) := by
  dsimp only [checkIntrinsicRuntime]
  infer_instance

/-! ## Declarations -/

instance quiet_declareArray (tok : Token) (len : ℕ) : Quiet S (declareArray tok len) := by
  dsimp only [declareArray]
  infer_instance

instance quiet_declarePoolSize (fuel : ℕ) : Quiet S (declarePoolSize fuel) := by
  dsimp only [declarePoolSize]
  refine .bind inferInstance fun _ =>
    .bind (.loop_of fun _ => ?_) fun _ => inferInstance
  refine .bind inferInstance fun k =>
    .ite inferInstance (.bind inferInstance fun tok => ?_)
  generalize tok.kind = k
  cases k
  case ident =>
    refine .bind inferInstance fun name => .bind inferInstance fun _ =>
      .bind inferInstance fun valTok => ?_
    split <;> infer_instance
  all_goals infer_instance

instance looks_findArray (name : List UInt8) : Looks S (findArray name) := by
  dsimp only [findArray]
  infer_instance

instance looks_lookupArray (tok : Token) : Looks S (lookupArray tok) := by
  dsimp only [lookupArray]
  refine .bind inferInstance fun name => .bind inferInstance fun a => ?_
  cases a <;> infer_instance

instance looks_isArray (tok : Token) : Looks S (isArray tok) := by
  dsimp only [isArray]
  infer_instance

instance quiet_declareView (tok : Token) (view : ViewMeta) : Quiet S (declareView tok view) := by
  dsimp only [declareView]
  refine .bind inferInstance fun st => .bind inferInstance fun name =>
    .bind inferInstance fun _ => ?_
  split <;> infer_instance

instance looks_lookupView (tok : Token) : Looks S (lookupView tok) := by
  dsimp only [lookupView]
  infer_instance

instance quiet_declareStructDef (fuel : ℕ) : Quiet S (declareStructDef fuel) := by
  dsimp only [declareStructDef]
  infer_instance

instance looks_isStructType (tok : Token) : Looks S (isStructType tok) := by
  dsimp only [isStructType]
  infer_instance

instance quiet_declareStructInst (varTok typeTok : Token) :
    Quiet S (declareStructInst varTok typeTok) := by
  dsimp only [declareStructInst]
  refine .bind inferInstance fun st => .bind inferInstance fun _ => .bind inferInstance fun _ => ?_
  split <;> infer_instance

instance looks_lookupStructField (varName fieldName : List UInt8) :
    Looks S (lookupStructField varName fieldName) := by
  dsimp only [lookupStructField]
  refine .bind inferInstance fun st => ?_
  repeat' split
  all_goals infer_instance

instance quiet_declareEnumDef (fuel : ℕ) : Quiet S (declareEnumDef fuel) := by
  dsimp only [declareEnumDef]
  infer_instance

instance looks_lookupEnumByName (name : List UInt8) : Looks S (lookupEnumByName name) := by
  dsimp only [lookupEnumByName]
  infer_instance

instance looks_lookupEnumVariant (enumIdx : ℕ) (name : List UInt8) :
    Looks S (lookupEnumVariant enumIdx name) := by
  dsimp only [lookupEnumVariant]
  infer_instance

instance looks_countArrayLiteralElements : Looks S countArrayLiteralElements := by
  dsimp only [countArrayLiteralElements]
  infer_instance

instance looks_lookupConstTable (name : List UInt8) : Looks S (lookupConstTable name) := by
  dsimp only [lookupConstTable]
  refine .bind inferInstance fun st => ?_
  split <;> infer_instance

instance looks_findFn (name : List UInt8) : Looks S (findFn name) := by
  dsimp only [findFn]
  infer_instance

instance looks_lookupFnByName (name : List UInt8) : Looks S (lookupFnByName name) := by
  dsimp only [lookupFnByName]
  refine .bind inferInstance fun f => ?_
  cases f <;> infer_instance

instance looks_lookupCombinatorFn (name : List UInt8) : Looks S (lookupCombinatorFn name) := by
  dsimp only [lookupCombinatorFn]
  refine .bind inferInstance fun f => ?_
  cases f with
  | some f => infer_instance
  | none =>
    dsimp only
    split <;> infer_instance

instance quiet_declareConstTable (fuel : ℕ) : Quiet S (declareConstTable fuel) := by
  dsimp only [declareConstTable]
  repeat refine Quiet.bind inferInstance fun _ => ?_
  split
  all_goals
    repeat refine Quiet.bind inferInstance fun _ => ?_
    refine Quiet.bind (.loop_of fun _ => ?_) fun _ => inferInstance
    refine .bind inferInstance fun k => .ite inferInstance
      (.bind inferInstance fun isNeg => .bind inferInstance fun tok => ?_)
    split <;> infer_instance

end Temps

end Compiler

end LatencyOS
