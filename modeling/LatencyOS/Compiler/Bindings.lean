import LatencyOS.Compiler.Loops

/-!
# Compiling declarations and assignments

A variable in a register is the destination of its right-hand side; a spilled one is
assigned through a temporary.
-/

namespace LatencyOS

namespace Compiler

/-- `:=` or `=`. -/
def matchAssign : CompilerM Bool := do
  if ← matchToken .colonEq then return true
  matchToken .eq

/-- Whether the current token is `:=` or `=`. -/
def peekAssign : CompilerM Bool := do
  let k ← peekKind
  return k == .colonEq || k == .eq

/-- Store one element of an array literal. -/
def storeElement (r : Rec) (arrId elemIdx : ℕ) : CompilerM Unit := do
  let idxReg ← allocTemp
  let valReg ← allocTemp
  movImm idxReg elemIdx
  r.expression valReg
  emit .arrStore arrId idxReg valReg
  freeTemp valReg
  freeTemp idxReg

/-- The elements of an array literal, up to a capacity if there is one. -/
def arrayElements (r : Rec) (arrId : ℕ) (capacity : Option ℕ) : CompilerM Unit := do
  let _ ← loop r.fuel 0 fun elemIdx => do
    let k ← peekKind
    if k = .rBracket ∨ k = .eof then return .done elemIdx
    require (match capacity with | some len => elemIdx < len | none => true)
      "ERR_ARRAY_INIT_TOO_MANY_ELEMENTS"
      "Array literal has more elements than declared array capacity"
      "Matching number of elements" "Statement -> Array Initialization"
      "Ensure element count does not exceed declared array size"
    storeElement r arrId elemIdx
    if ← matchToken .comma then return .yield (elemIdx + 1)
    return .done (elemIdx + 1)
  let closed ← matchToken .rBracket
  require closed "ERR_ARRAY_SYNTAX" "Expected ']' after array initialization elements"
    "Right bracket ']'" "Statement -> Array Initialization"
    "Close array initialization list with ']'"

/-- An array declaration with its type, after the opening bracket. -/
def letArray (r : Rec) (ident : Token) : CompilerM Unit := do
  let _ ← advance
  let semi ← matchToken .semi
  require semi "ERR_ARRAY_SYNTAX" "Expected ';' in array type [i64; N]" "Semicolon ';'"
    "Statement -> Array Declaration" "Specify array type as '[i64; N]'"
  let lenTok ← advance
  let len := positiveOr lenTok 0
  require (0 < len) "ERR_ARRAY_INVALID_LEN" "Array size must be a positive constant integer"
    "Positive integer" "Statement -> Array Declaration"
    "Specify constant array size, e.g. '[i64; 16]'"
  let closed ← matchToken .rBracket
  require closed "ERR_ARRAY_SYNTAX" "Expected ']' after array length" "Right bracket ']'"
    "Statement -> Array Declaration" "Close array type with ']'"
  let arrId ← declareArray ident len
  let _ ← emitImm16 .arrDef arrId len
  if ← matchAssign then
    let opened ← matchToken .lBracket
    require opened "ERR_EXPECTED_LBRACKET" "Expected '[' to start array literal initialization"
      "Left bracket '['" "Statement -> Array Initialization"
      "Initialize array elements with '= [elem0, elem1, ...]'"
    arrayElements r arrId (some len)
  skip .semi

/-- An array declaration by its literal. -/
def letArrayLiteral (r : Rec) (ident : Token) : CompilerM Unit := do
  let _ ← advance
  let _ ← advance
  let len ← countArrayLiteralElements
  require (len != 0) "ERR_ARRAY_INVALID_LEN" "Array literal cannot be empty"
    "At least one element" "Statement -> Array Initialization"
    "Provide elements in array literal, e.g. '[1, 2, 3]'"
  let arrId ← declareArray ident len
  let _ ← emitImm16 .arrDef arrId len
  arrayElements r arrId none
  skip .semi

/-- A view declaration. -/
def letView (r : Rec) (ident : Token) (isMut : Bool) : CompilerM Unit := do
  let _ ← advance
  let varReg ← declareVar ident isMut
  let view ← parseViewSourceToReg r.expression varReg
  declareView ident { view with baseReg := varReg }
  skip .semi

/-- The scale of a `fixed<N>` type, after the keyword. -/
def fixedType : CompilerM ℕ := do
  let lt ← matchToken .lt
  require lt "ERR_FIXED_SYNTAX" "Expected '<' after 'fixed' type keyword"
    "Left angle bracket '<'" "Type Specification -> Fixed-Point"
    "Specify fixed-point type as 'fixed<N>' (e.g. fixed<16>)"
  let nTok ← advance
  let scale := positiveOr nTok 0
  require (1 ≤ scale && scale ≤ 31) "ERR_INVALID_FIXED_SCALE"
    "Fixed-point fractional scale must be an integer between 1 and 31" "Integer 1..=31"
    "Type Specification -> Fixed-Point" "Specify scale between 1 and 31 (e.g. fixed<16>)"
  let gt ← matchToken .gt
  require gt "ERR_FIXED_SYNTAX" "Expected '>' after fixed-point scale" "Right angle bracket '>'"
    "Type Specification -> Fixed-Point" "Close fixed-point scale with '>'"
  return scale

/-- What the type annotation of a declaration says. -/
inductive Annotation
  /-- An enum type or a fixed-point scale, if any. -/
  | value (enumType fixedScale : Option ℕ)
  /-- The declaration was an array or a struct and is complete. -/
  | done

/-- Whether a token is a primitive integer type. -/
def isIntType (k : TokenKind) : Bool :=
  k == .u8 || k == .u16 || k == .u32 || k == .u64 || k == .i64

/-- The type annotation of a declaration. -/
def annotation (r : Rec) (ident : Token) : CompilerM Annotation := do
  if ← matchToken .colon then
    if ← matchToken .lBracket then
      letArray r ident
      return .done
    let typeTok ← advance
    if typeTok.kind = .fixed then
      let scale ← fixedType
      return .value none (some scale)
    if ← isStructType typeTok then
      let _ ← declareStructInst ident typeTok
      skip .semi
      return .done
    if isIntType typeTok.kind then return .value none none
    let typeName ← text typeTok
    let e ← lookupEnumByName typeName
    return .value e none
  return .value none none

/-- Whether an array literal or a view follows an assignment sign. -/
def followsLiteral : CompilerM Bool := do
  let assign ← peekAssign
  let next ← peekAhead 1
  return assign && next.kind == .lBracket

def followsView : CompilerM Bool := do
  let st ← get
  let assign ← peekAssign
  let next := st.peekAhead 1
  return assign && (next.kind == .intrinsicIdent || next.kind == .ident) &&
    isViewIntrinsic ((st.text? next).getD [])

/-- The value of a variable being declared or assigned. -/
def assignValue (r : Rec) (ident : Token) (varReg : ℕ) : CompilerM Unit := do
  match ← isSpilledVar ident with
  | some slot =>
    let tempVal ← allocTemp
    r.expression tempVal
    emit .spillStore slot tempVal 0
    freeTemp tempVal
  | none => r.expression varReg

/-- Set the types of a variable, if the name has an entry. -/
def setTypesOf (ident : Token) (f : Var → Option ℕ × Option ℕ) : CompilerM Unit := do
  let st ← get
  match ← getVarIndex ident with
  | some i => setVarTypes i (f (st.vars i)).1 (f (st.vars i)).2
  | none => pure ()

/-- A variable declaration, after its name and annotation. -/
def letVar (r : Rec) (ident : Token) (isMut : Bool) (enumType scale : Option ℕ) :
    CompilerM Unit := do
  let varReg ← declareVar ident isMut
  if ← matchAssign then
    let hwMove ← checkHwAssignPre varReg
    setEnumType none
    setFixedScale none
    setTargetScale scale
    assignValue r ident varReg
    applyHwAssignPost varReg ident hwMove
    let st ← get
    setTypesOf ident fun _ => (enumType.or st.info.enumType, scale.or st.info.fixedScale)
    setTargetScale none
  else if enumType.isSome || scale.isSome then
    setTypesOf ident fun _ => (enumType, scale)
  skip .semi

/-- A `let` statement. -/
def letStatement (r : Rec) : CompilerM Unit := do
  let _ ← advance
  let isMut ← matchToken .mut
  let ident ← advance
  match ← annotation r ident with
  | .done => return ()
  | .value enumType scale =>
    if ← followsLiteral then letArrayLiteral r ident
    else if ← followsView then letView r ident isMut
    else letVar r ident isMut enumType scale

/-- An assignment to a struct field. -/
def fieldAssign (r : Rec) : CompilerM Unit := do
  let varTok ← advance
  skip .dot
  let fieldTok ← advance
  require (fieldTok.kind = .ident) "ERR_EXPECTED_FIELD_NAME"
    "Expected field name identifier after '.'" "Field identifier name"
    "Statement -> Struct Field Assignment" "Specify field name, e.g. '$pt.x := 10;'"
  let varName ← text varTok
  let fieldName ← text fieldTok
  let f ← lookupStructField varName fieldName
  let assign ← matchAssign
  require assign "ERR_EXPECTED_COLON_EQ" "Expected ':=' or '=' in struct field assignment"
    "':=' or '='" "Statement -> Struct Field Assignment"
    "Assign field value with '$inst.field := val;'"
  let valReg ← allocTemp
  r.expression valReg
  skip .semi
  emit .structStore f.1 f.2 valReg
  freeTemp valReg

/-- An assignment to an array element. -/
def elementAssign (r : Rec) : CompilerM Unit := do
  let ident ← advance
  let arr ← lookupArray ident
  skip .lBracket
  let idxReg ← allocTemp
  r.expression idxReg
  skip .rBracket
  let assign ← matchAssign
  require assign "ERR_EXPECTED_COLON_EQ" "Expected ':=' in array element assignment" "':='"
    "Statement -> Array Assignment" "Assign value with '$arr[$idx] := val;'"
  let valReg ← allocTemp
  r.expression valReg
  skip .semi
  emit .arrStore arr.arrId idxReg valReg
  freeTemp valReg
  freeTemp idxReg

/-- The semicolon after an assignment. -/
def endAssign : CompilerM Unit := do
  let semi ← matchToken .semi
  require semi "ERR_MISSING_SEMICOLON" "Missing semicolon ';' at end of assignment"
    "Semicolon ';'" "Statement -> Variable Assignment"
    "Append ';' at end of assignment statement"

/-- The semicolon after a compound assignment. -/
def endCompound (stage : String) : CompilerM Unit := do
  let semi ← matchToken .semi
  require semi "ERR_MISSING_SEMICOLON" "Missing semicolon ';' at end of compound assignment"
    "Semicolon ';'" stage "Append ';' at end of statement"

/-- An assignment to a spilled variable, after the sign. -/
def spilledAssign (r : Rec) (ident : Token) (slot : ℕ) : CompilerM Unit := do
  checkVarMutation ident
  setEnumType none
  let tempVal ← allocTemp
  r.expression tempVal
  emit .spillStore slot tempVal 0
  freeTemp tempVal
  let st ← get
  setTypesOf ident fun v => (st.info.enumType, v.fixedScale)
  endAssign

/-- A compound assignment to a spilled variable, after the sign. -/
def spilledCompound (r : Rec) (ident : Token) (slot : ℕ) (op : Opcode) (stage : String) :
    CompilerM Unit := do
  checkVarMutation ident
  let tempLhs ← allocTemp
  emit .spillLoad tempLhs slot 0
  let tempRhs ← allocTemp
  r.expression tempRhs
  emit op tempLhs tempLhs tempRhs
  emit .spillStore slot tempLhs 0
  freeTemp tempRhs
  freeTemp tempLhs
  endCompound stage

/-- An assignment to a variable in a register, after the sign. -/
def regAssign (r : Rec) (ident : Token) (varReg : ℕ) : CompilerM Unit := do
  checkVarMutation ident
  let hwMove ← checkHwAssignPre varReg
  setEnumType none
  r.expression varReg
  applyHwAssignPost varReg ident hwMove
  let st ← get
  setTypesOf ident fun v => (st.info.enumType, v.fixedScale)
  endAssign

/-- The literal that fits the immediate byte of `ADDI` and `SUBI`. -/
def smallLiteral (k : TokenKind) : Option ℕ :=
  match k with
  | .number n => if n.toNat ≤ 255 then some n.toNat else none
  | _ => none

/-- A compound assignment to a variable in a register, after the sign.  A small literal is
taken as the whole right-hand side. -/
def regCompound (r : Rec) (ident : Token) (varReg : ℕ) (op immOp : Opcode) (stage : String) :
    CompilerM Unit := do
  checkVarMutation ident
  let k ← peekKind
  match smallLiteral k with
  | some n =>
    let _ ← advance
    emit immOp varReg varReg n
    endCompound stage
  | none =>
    let tmpReg ← allocTemp
    r.expression tmpReg
    emit op varReg varReg tmpReg
    freeTemp tmpReg
    endCompound stage

/-- The stages named in the diagnostics of compound assignments. -/
def addStage : String := "Statement -> Compound Addition Assignment"
def subStage : String := "Statement -> Compound Subtraction Assignment"

/-- What a statement that starts with a plain variable is, by its second token; a spilled
variable that is not assigned to is an expression. -/
def varStatement (r : Rec) : CompilerM Unit := do
  let ident ← advance
  let k ← peekKind
  match ← isSpilledVar ident, k with
  | some slot, .colonEq | some slot, .eq => do
    let _ ← advance
    spilledAssign r ident slot
  | some slot, .plusEq => do
    let _ ← advance
    spilledCompound r ident slot .add addStage
  | some slot, .minusEq => do
    let _ ← advance
    spilledCompound r ident slot .sub subStage
  | _, _ => do
    let varReg ← resolveVar ident
    match k with
    | .colonEq | .eq =>
      let _ ← advance
      regAssign r ident varReg
    | .plusEq =>
      let _ ← advance
      regCompound r ident varReg .add .addi addStage
    | .minusEq =>
      let _ ← advance
      regCompound r ident varReg .sub .subi subStage
    | _ =>
      let st ← get
      Prog.op (.setCurrent (st.current - 1))
      expressionStatement r

/-- A statement that starts with a variable or handle. -/
def identStatement (r : Rec) : CompilerM Unit := do
  let next ← peekAhead 1
  if next.kind = .dot then fieldAssign r
  else if next.kind = .lBracket then elementAssign r
  else varStatement r

end Compiler

end LatencyOS
