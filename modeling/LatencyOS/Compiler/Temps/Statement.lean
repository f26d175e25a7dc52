import LatencyOS.Compiler.Temps.Combinators

/-!
# Temporaries and statements

Loops, branches, declarations, assignments and `match` give back what they take.
-/

namespace LatencyOS

namespace Compiler

namespace Temps

/-!
## Temporaries and expressions

A binary operator takes a temporary for its right operand and gives it back behind the operator, so
a level uses temporaries like a stack as soon as the next one does.
-/

-- the size of an instance doubles with every statement of a block
set_option synthInstance.maxSize 1000000000000

variable {S : Pool.Stack} {held : List ℕ} {d : ℕ} {st : CompilerState}

/-! ## Binary levels -/

/-- The parts of a binary level use temporaries like a stack. -/
class UsesLevel S (l : Level) : Prop where
  checkScales : ∀ s₁ s₂, Quiet S (l.checkScales s₁ s₂)
  fold : ∀ op a b, Looks S (l.fold op a b)
  emitOp : ∀ d op s₁ s₂ dst rhs, Uses S d d (l.emitOp op s₁ s₂ dst rhs)

section Level

variable {l : Level} [hl : UsesLevel S l]

instance quiet_checkScales (s₁ s₂ : Option ℕ) : Quiet S (l.checkScales s₁ s₂) :=
  hl.checkScales s₁ s₂

instance looks_fold (op : TokenKind) (a b : Word64) : Looks S (l.fold op a b) := hl.fold op a b

instance uses_emitOp (op : TokenKind) (s₁ s₂ : Option ℕ) (dst rhs : ℕ) :
    Uses S d d (l.emitOp op s₁ s₂ dst rhs) := hl.emitOp d op s₁ s₂ dst rhs

instance uses_combine (op : TokenKind) (s₁ s₂ : Option ℕ) (dst rhsReg : ℕ)
    (a b : Option Word64) : Uses S d d (combine l op s₁ s₂ dst rhsReg a b) := by
  cases a <;> cases b <;> dsimp only [combine] <;> infer_instance

instance looks_fixedScale : Looks S fixedScale := by
  dsimp only [fixedScale]
  infer_instance

/-- Every right operand takes a temporary and gives it back. -/
theorem uses_binaryRest {next : ℕ → CompilerM (Option Word64)}
    [hnext : ∀ d dst, Uses S d d (next dst)] {fuel : ℕ} (dst : ℕ) (val : Option Word64) :
    Uses S d d (binaryRest fuel l next dst val) := by
  dsimp only [binaryRest]
  infer_instance

theorem uses_binaryLevel {next : ℕ → CompilerM (Option Word64)}
    (hnext : ∀ d dst, Uses S d d (next dst)) {fuel : ℕ} (d dst : ℕ) :
    Uses S d d (binaryLevel fuel l next dst) :=
  (hnext d dst).bind fun val => uses_binaryRest dst val

end Level

instance uses_emitLogic (op : Opcode) (dst rhsReg : ℕ) [Obvious (NoCall op)] :
    Uses S d d (emitLogic op dst rhsReg) := by
  dsimp only [emitLogic]
  infer_instance

instance uses_emitScaledMul (dst rhsReg scale : ℕ) :
    Uses S d d (emitScaledMul dst rhsReg scale) := by
  dsimp only [emitScaledMul]
  infer_instance

instance uses_emitMul (dst rhsReg : ℕ) (s₁ s₂ : Option ℕ) :
    Uses S d d (emitMul dst rhsReg s₁ s₂) := by
  cases s₁ <;> cases s₂ <;> dsimp only [emitMul] <;> infer_instance

instance uses_emitDiv (dst rhsReg : ℕ) (s₁ s₂ : Option ℕ) :
    Uses S d d (emitDiv dst rhsReg s₁ s₂) := by
  cases s₁ <;> cases s₂ <;> dsimp only [emitDiv] <;> infer_instance

/-- A level without scales. -/
theorem UsesLevel.plain {isOp : TokenKind → Bool} {fold : TokenKind → Word64 → Word64 → Word64}
    {emitOp : TokenKind → ℕ → ℕ → CompilerM Unit}
    (hemit : ∀ d op dst rhs, Uses S d d (emitOp op dst rhs)) :
    UsesLevel S (plainLevel isOp fold emitOp) :=
  ⟨fun _ _ => (looks_pure _).quiet, fun _ _ _ => looks_pure _, fun d op _ _ => hemit d op⟩

instance usesLevel_logicOr : UsesLevel S logicOrLevel := .plain inferInstance

instance usesLevel_logicAnd : UsesLevel S logicAndLevel := .plain inferInstance

instance usesLevel_equality : UsesLevel S equalityLevel := .plain inferInstance

instance usesLevel_comparison : UsesLevel S comparisonLevel := by
  refine .plain fun d op dst rhs => ?_
  cases op <;> infer_instance

instance usesLevel_bitwiseOr : UsesLevel S bitwiseOrLevel := .plain inferInstance

instance usesLevel_bitwiseXor : UsesLevel S bitwiseXorLevel := .plain inferInstance

instance usesLevel_bitwiseAnd : UsesLevel S bitwiseAndLevel := .plain inferInstance

instance usesLevel_shift : UsesLevel S shiftLevel := by
  refine .plain fun d op dst rhs => ?_
  cases op <;> infer_instance

instance usesLevel_term : UsesLevel S termLevel where
  checkScales := fun s₁ s₂ => by
    cases s₁ <;> cases s₂ <;> dsimp only [termLevel] <;> infer_instance
  fold := fun _ _ _ => looks_pure _
  emitOp := fun _ _ _ _ _ _ => uses_ite

instance usesLevel_factor : UsesLevel S factorLevel where
  checkScales := fun _ _ => (looks_pure _).quiet
  fold := fun op a b => by
    dsimp only [factorLevel]
    cases op <;> infer_instance
  emitOp := fun d op s₁ s₂ dst rhs => by
    dsimp only [factorLevel]
    cases op <;> infer_instance

/-! ## Conditionals and pipes -/

section Recursive

variable {r : Rec} [Calls S r] (dst : ℕ)

theorem uses_logicOr (d : ℕ) : Uses S d d (logicOr r dst) := by
  repeat refine uses_binaryLevel (fun d dst => ?_) _ _
  exact uses_primary dst

instance uses_branch : Uses S d d (branch r dst) := by
  dsimp only [branch]
  infer_instance

instance uses_ternaryRest (val : Option Word64) : Uses S d d (ternaryRest r dst val) := by
  dsimp only [ternaryRest]
  infer_instance

theorem uses_ternary (d : ℕ) : Uses S d d (ternary r dst) :=
  (uses_logicOr dst d).bind fun _ => inferInstance

instance fewArgs_print : FewArgs .print := ⟨by decide⟩

instance fewArgs_println : FewArgs .println := ⟨by decide⟩

instance fewArgs_netSetRate : FewArgs .netSetRate := ⟨by decide⟩

instance fewArgs_netSend : FewArgs .netSend := ⟨by decide⟩

instance fewArgs_drop : FewArgs .drop := ⟨by decide⟩

/-- A value is piped to a function of one argument. -/
theorem runs_pipeTarget (h : TempsHeld held st) (name : List UInt8) :
    Runs S (pipeTarget name dst) (fun f st' => FewArgs f ∧ TempsHeld held st') st := by
  dsimp only [pipeTarget]
  split
  · exact Prog.Wp.bind (((quiet_consumeBy _ dst).runs h).mono fun _ t ht => ⟨inferInstance, ht⟩)
  · split
    · exact Prog.Wp.bind (((quiet_consumeBy _ dst).runs h).mono fun _ t ht => ⟨inferInstance, ht⟩)
    · split
      · exact ⟨inferInstance, h⟩
      · split
        · exact ⟨inferInstance, h⟩
        · split
          · exact ⟨inferInstance, h⟩
          · exact fun _ => ⟨trivial, trivial⟩

instance quiet_pipes : Quiet S (pipes r dst) := by
  dsimp only [pipes]
  refine .loop_of fun _ => .bind inferInstance fun _ => ?_
  refine .ite (.bind inferInstance fun k => ?_) inferInstance
  refine .ite (.bind inferInstance fun tok => .bind inferInstance fun name => ?_)
    inferInstance
  refine ⟨fun h => Prog.Wp.bind ((runs_pipeTarget dst h name).mono fun f t ht => ?_)⟩
  obtain ⟨hfew, ht⟩ := ht
  exact Quiet.runs ht

theorem uses_expression (d : ℕ) : Uses S d d (expression r dst) :=
  (uses_ternary dst d).bind fun _ => inferInstance

end Recursive

end Temps

namespace Temps

-- the size of an instance doubles with every statement of a block
set_option synthInstance.maxSize 1000000000000
-- token kinds have many constructors, and `split` looks at all of them
set_option maxRecDepth 10000

variable {S : Pool.Stack} {held : List ℕ} {d d' : ℕ} {st : CompilerState} {α : Type}

/-! ## Small parts -/

instance looks_handleStates : Looks S handleStates := by
  dsimp only [handleStates]
  infer_instance

instance looks_checkConfined (before : ℕ → Typestate) (hint : String) :
    Looks S (checkConfined before hint) := by
  dsimp only [checkConfined]
  infer_instance

instance quiet_skipToClosing (fuel : ℕ) : Quiet S (skipToClosing fuel) := by
  dsimp only [skipToClosing]
  infer_instance

instance quiet_matchAssign : Quiet S matchAssign := by
  dsimp only [matchAssign]
  infer_instance

instance looks_peekAssign : Looks S peekAssign := by
  dsimp only [peekAssign]
  infer_instance

instance quiet_fixedType : Quiet S fixedType := by
  dsimp only [fixedType]
  infer_instance

instance looks_followsLiteral : Looks S followsLiteral := by
  dsimp only [followsLiteral]
  infer_instance

instance looks_followsView : Looks S followsView := by
  dsimp only [followsView]
  infer_instance

instance quiet_setTypesOf (ident : Token) (f : Var → Option ℕ × Option ℕ) :
    Quiet S (setTypesOf ident f) := by
  dsimp only [setTypesOf]
  refine .bind inferInstance fun st => .bind inferInstance fun idx => ?_
  cases idx <;> infer_instance

instance quiet_endAssign : Quiet S endAssign := by
  dsimp only [endAssign]
  infer_instance

instance quiet_endCompound (stage : String) : Quiet S (endCompound stage) := by
  dsimp only [endCompound]
  infer_instance

instance quiet_forBound (message expected suggestion : String) :
    Quiet S (forBound message expected suggestion) := by
  dsimp only [forBound]
  refine .bind inferInstance fun tok => ?_
  split <;> infer_instance

section Recursive

variable {r : Rec} [Calls S r]

/-! ## Contract clauses -/

instance quiet_loopInvariant : Quiet S (loopInvariant r) := by
  dsimp only [loopInvariant]
  infer_instance

instance uses_assertAt (startTok : ℕ) : Uses S d d (assertAt r startTok) := by
  dsimp only [assertAt]
  infer_instance

instance uses_emitInvariantCheck (inv : Option ℕ) : Uses S d d (emitInvariantCheck r inv) := by
  cases inv <;> dsimp only [emitInvariantCheck] <;> infer_instance

instance uses_assertAll (clauses : List (ℕ × ℕ)) : Uses S d d (assertAll r clauses) := by
  induction clauses with
  | nil => exact (looks_pure ()).quiet.uses
  | cons clause rest ih => exact (uses_assertAt clause.1).bind fun _ => ih

instance uses_emitEnsuresChecks (fnIdx : ℕ) : Uses S d d (emitEnsuresChecks r fnIdx) := by
  dsimp only [emitEnsuresChecks]
  infer_instance

/-! ## Loops and branches -/

instance uses_whileStatement : Uses S d d (whileStatement r) := by
  dsimp only [whileStatement]
  infer_instance

instance uses_forStatement : Uses S d d (forStatement r) := by
  dsimp only [forStatement]
  infer_instance

instance uses_assertStatement : Uses S d d (assertStatement r) := by
  dsimp only [assertStatement]
  infer_instance

instance uses_elseBranch : Uses S d d (elseBranch r) := by
  dsimp only [elseBranch]
  infer_instance

instance uses_ifStatement : Uses S d d (ifStatement r) := by
  dsimp only [ifStatement]
  infer_instance

instance uses_expressionStatement : Uses S d d (expressionStatement r) := by
  dsimp only [expressionStatement]
  infer_instance

/-! ## Declarations and assignments -/

instance uses_storeElement (arrId elemIdx : ℕ) : Uses S d d (storeElement r arrId elemIdx) := by
  dsimp only [storeElement]
  infer_instance

instance uses_arrayElements (arrId : ℕ) (capacity : Option ℕ) :
    Uses S d d (arrayElements r arrId capacity) := by
  dsimp only [arrayElements]
  infer_instance

instance uses_letArray (ident : Token) : Uses S d d (letArray r ident) := by
  dsimp only [letArray]
  infer_instance

instance uses_letArrayLiteral (ident : Token) : Uses S d d (letArrayLiteral r ident) := by
  dsimp only [letArrayLiteral]
  infer_instance

instance uses_letView (ident : Token) (isMut : Bool) : Uses S d d (letView r ident isMut) := by
  dsimp only [letView]
  infer_instance

instance uses_annotation (ident : Token) : Uses S d d ( annotation r ident) := by
  dsimp only [ annotation]
  infer_instance

instance uses_assignValue (ident : Token) (varReg : ℕ) :
    Uses S d d (assignValue r ident varReg) := by
  dsimp only [assignValue]
  refine .bind inferInstance fun slot => ?_
  cases slot <;> infer_instance

instance uses_letVar (ident : Token) (isMut : Bool) (enumType scale : Option ℕ) :
    Uses S d d (letVar r ident isMut enumType scale) := by
  dsimp only [letVar]
  infer_instance

instance uses_letStatement : Uses S d d (letStatement r) := by
  dsimp only [letStatement]
  refine .bind inferInstance fun _ => .bind inferInstance fun isMut =>
    .bind inferInstance fun ident => .bind inferInstance fun ann => ?_
  cases ann <;> infer_instance

instance uses_fieldAssign : Uses S d d (fieldAssign r) := by
  dsimp only [fieldAssign]
  infer_instance

instance uses_elementAssign : Uses S d d (elementAssign r) := by
  dsimp only [elementAssign]
  infer_instance

instance uses_spilledAssign (ident : Token) (slot : ℕ) :
    Uses S d d (spilledAssign r ident slot) := by
  dsimp only [spilledAssign]
  infer_instance

instance uses_spilledCompound (ident : Token) (slot : ℕ) (op : Opcode) (stage : String)
    [Obvious (NoCall op)] : Uses S d d (spilledCompound r ident slot op stage) := by
  dsimp only [spilledCompound]
  infer_instance

instance uses_regAssign (ident : Token) (varReg : ℕ) : Uses S d d (regAssign r ident varReg) := by
  dsimp only [regAssign]
  infer_instance

instance uses_regCompound (ident : Token) (varReg : ℕ) (op immOp : Opcode) (stage : String)
    [Obvious (NoCall op)] [Obvious (NoCall immOp)] :
    Uses S d d (regCompound r ident varReg op immOp stage) := by
  dsimp only [regCompound]
  refine .bind inferInstance fun _ => .bind inferInstance fun k => ?_
  split <;> infer_instance

instance uses_varStatement : Uses S d d (varStatement r) := by
  dsimp only [varStatement]
  refine .bind inferInstance fun ident => .bind inferInstance fun k =>
    .bind inferInstance fun slot => ?_
  cases slot <;> cases k <;> infer_instance

instance uses_identStatement : Uses S d d (identStatement r) := by
  dsimp only [identStatement]
  infer_instance

/-! ## `match` -/

instance quiet_fatArrow (suggestion : String) : Quiet S (fatArrow suggestion) := by
  dsimp only [fatArrow]
  infer_instance

instance uses_armBody : Uses S d d (armBody r) := by
  dsimp only [armBody]
  infer_instance

instance uses_guardedBody (skipPos : ℕ) : Uses S d d (guardedBody r skipPos) := by
  dsimp only [guardedBody]
  infer_instance

/-- The pattern is given back before the result of the comparison. -/
theorem runs_compareArm (h : TempsHeld (S.taken (d + 1)) st) (matchReg : ℕ) :
    Runs S (compareArm matchReg (15 - S.slot d)) (fun _ st' => TempsHeld (S.taken d) st') st := by
  refine Prog.Wp.bind (runs_push h fun t ht _ => ?_)
  refine Prog.Wp.bind (((quiet_emit .cmpEq _ matchReg _).runs ht).mono fun _ u hu => ?_)
  have hmid : TempsHeld (S.taken d ++ S.slot d :: [S.slot (d + 1)]) u := by
    rw [Pool.Stack.taken_succ, Pool.Stack.taken_succ, List.append_assoc] at hu
    exact hu
  refine Prog.Wp.bind (runs_freeTemp hmid fun v hv _ => ?_)
  refine Prog.Wp.bind (((quiet_emitImm16 .jz _ 0).runs hv).mono fun jzSkip w hw => ?_)
  refine Prog.Wp.bind (runs_freeTemp hw fun x hx _ => ?_)
  rw [List.append_nil] at hx
  exact hx

instance uses_compareArm {matchReg : ℕ} {f : ℕ → CompilerM α} [hf : ∀ pos, Uses S d d' (f pos)] :
    Uses S (d + 1) d' (compareArm matchReg (15 - S.slot d) >>= f) :=
  ⟨fun h => Prog.Wp.bind ((runs_compareArm h matchReg).mono fun pos _ ht => (hf pos).runs ht)⟩

instance uses_wildcardArm (arms : Arms) : Uses S d d (wildcardArm r arms) := by
  dsimp only [wildcardArm]
  infer_instance

instance uses_enumArm (matchReg : ℕ) (arms : Arms) : Uses S d d (enumArm r matchReg arms) := by
  dsimp only [enumArm]
  refine .bind inferInstance fun _ => .bind inferInstance fun _ => .bind inferInstance fun varTok =>
    .bind inferInstance fun _ => .bind inferInstance fun _ => .bind inferInstance fun _ =>
    .bind inferInstance fun enumIdx => ?_
  cases enumIdx with
  | none => infer_instance
  | some enumIdx =>
    refine .bind inferInstance fun _ => .bind inferInstance fun variantIdx => ?_
    cases variantIdx <;> infer_instance

instance quiet_bindPattern (variant stage hint close arrow : String) :
    Quiet S (bindPattern variant stage hint close arrow) := by
  dsimp only [bindPattern]
  infer_instance

instance fewArgs_isErr : FewArgs .isErr := ⟨by decide⟩

instance fewArgs_isOk : FewArgs .isOk := ⟨by decide⟩

instance fewArgs_unwrap : FewArgs .unwrap := ⟨by decide⟩

instance uses_skipWhen (test : Native) [FewArgs test] (matchReg : ℕ) :
    Uses S d d (skipWhen test matchReg) := by
  dsimp only [skipWhen]
  infer_instance

instance uses_okArm (matchReg : ℕ) (arms : Arms) : Uses S d d (okArm r matchReg arms) := by
  dsimp only [okArm]
  infer_instance

instance uses_errArm (matchReg : ℕ) (arms : Arms) : Uses S d d (errArm r matchReg arms) := by
  dsimp only [errArm]
  infer_instance

instance uses_valueArm (matchReg : ℕ) (arms : Arms) : Uses S d d (valueArm r matchReg arms) := by
  dsimp only [valueArm]
  infer_instance

instance uses_matchArm (matchReg : ℕ) (arms : Arms) : Uses S d d (matchArm r matchReg arms) := by
  dsimp only [matchArm]
  infer_instance

instance looks_checkExhaustive (arms : Arms) : Looks S (checkExhaustive arms) := by
  dsimp only [checkExhaustive]
  refine .bind inferInstance fun st => ?_
  cases arms.enumType <;> infer_instance

instance quiet_landAll (jumps : List ℕ) : Quiet S (landAll jumps) := by
  induction jumps with
  | nil => exact (looks_pure ()).quiet
  | cons pos rest ih =>
    dsimp only [landAll]
    infer_instance

instance uses_matchStatement : Uses S d d (matchStatement r) := by
  dsimp only [matchStatement]
  infer_instance

end Recursive

end Temps

end Compiler

end LatencyOS
