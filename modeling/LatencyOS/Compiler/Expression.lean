import LatencyOS.Compiler.Primary

/-!
# Compiling expressions

One function per precedence level over `primary`, then the conditional and pipes.  All
binary levels have one shape: operands of the next level, folded while both are constants,
and otherwise combined by an instruction.  They differ in their operators, in how they
fold and emit them, and, for `term` and `factor`, in what they do with fixed-point scales.
-/

namespace LatencyOS

namespace Compiler

/-- What a binary level does. -/
structure Level where
  /-- The operators of the level. -/
  isOp : TokenKind → Bool
  /-- What is checked between the scales of the operands. -/
  checkScales : Option ℕ → Option ℕ → CompilerM Unit
  /-- An operator on two constants. -/
  fold : TokenKind → Word64 → Word64 → CompilerM Word64
  /-- An operator on two registers, given the scales: the result goes to the first. -/
  emitOp : TokenKind → Option ℕ → Option ℕ → ℕ → ℕ → CompilerM Unit

/-- `current_expr_fixed_scale`. -/
def fixedScale : CompilerM (Option ℕ) := do
  let st ← get
  return st.info.fixedScale

/-- Fold two constants, or load the pending ones and emit the operator. -/
def combine (l : Level) (op : TokenKind) (lhsScale rhsScale : Option ℕ) (dst rhsReg : ℕ) :
    Option Word64 → Option Word64 → CompilerM (Option Word64)
  | some a, some b => do
    let v ← l.fold op a b
    return some v
  | val, rhsVal => do
    emitPending dst val
    emitPending rhsReg rhsVal
    l.emitOp op lhsScale rhsScale dst rhsReg
    return none

/-- The operators of a level and their right operands, after the first operand. -/
def binaryRest (fuel : ℕ) (l : Level) (next : ℕ → CompilerM (Option Word64)) (dst : ℕ)
    (val : Option Word64) : CompilerM (Option Word64) :=
  loop fuel val fun val => do
    let k ← peekKind
    if !l.isOp k then return .done val
    let opTok ← advance
    let lhsScale ← fixedScale
    let rhsReg ← allocTemp
    let rhsVal ← next rhsReg
    let rhsScale ← fixedScale
    l.checkScales lhsScale rhsScale
    let val ← combine l opTok.kind lhsScale rhsScale dst rhsReg val rhsVal
    freeTemp rhsReg
    return .yield val

/-- A binary level over the next one. -/
def binaryLevel (fuel : ℕ) (l : Level) (next : ℕ → CompilerM (Option Word64)) (dst : ℕ) :
    CompilerM (Option Word64) := do
  let val ← next dst
  binaryRest fuel l next dst val

/-- A level without scales whose folding cannot fail. -/
def plainLevel (isOp : TokenKind → Bool) (fold : TokenKind → Word64 → Word64 → Word64)
    (emitOp : TokenKind → ℕ → ℕ → CompilerM Unit) : Level where
  isOp := isOp
  checkScales := fun _ _ => pure ()
  fold := fun op a b => pure (fold op a b)
  emitOp := fun op _ _ dst rhs => emitOp op dst rhs

/-- Combine the truth values of two registers. -/
def emitLogic (op : Opcode) (dst rhsReg : ℕ) : CompilerM Unit := do
  let zeroReg ← allocTemp
  emitConst zeroReg 0#64
  emit .cmpNe dst dst zeroReg
  let rhsBool ← allocTemp
  emit .cmpNe rhsBool rhsReg zeroReg
  emit op dst dst rhsBool
  freeTemp rhsBool
  freeTemp zeroReg

/-- The levels without scales. -/
def logicOrLevel : Level :=
  plainLevel (· == .orOp) (fun _ a b => boolWord (a != 0#64 || b != 0#64))
    fun _ dst rhs => emitLogic .or dst rhs

def logicAndLevel : Level :=
  plainLevel (· == .and) (fun _ a b => boolWord (a != 0#64 && b != 0#64))
    fun _ dst rhs => emitLogic .and dst rhs

def equalityLevel : Level :=
  plainLevel (fun k => k == .eqEq || k == .notEq)
    (fun op a b => boolWord (if op = .eqEq then a == b else a != b))
    fun op dst rhs => if op = .eqEq then emit .cmpEq dst dst rhs else emit .cmpNe dst dst rhs

def comparisonLevel : Level :=
  plainLevel (fun k => k == .lt || k == .ltEq || k == .gt || k == .gtEq)
    (fun op a b => match op with
      | .lt => boolWord (a.slt b)
      | .ltEq => boolWord (a.sle b)
      | .gt => boolWord (b.slt a)
      | .gtEq => boolWord (b.sle a)
      | _ => 0#64)
    fun op dst rhs => match op with
      | .lt => emit .cmpLt dst dst rhs
      | .ltEq => emit .cmpLe dst dst rhs
      | .gt => emit .cmpGt dst dst rhs
      | .gtEq => emit .cmpGe dst dst rhs
      | _ => pure ()

def bitwiseOrLevel : Level :=
  plainLevel (· == .pipeSingle) (fun _ a b => a ||| b) fun _ dst rhs => emit .or dst dst rhs

def bitwiseXorLevel : Level :=
  plainLevel (· == .caret) (fun _ a b => a ^^^ b) fun _ dst rhs => emit .xor dst dst rhs

def bitwiseAndLevel : Level :=
  plainLevel (· == .amp) (fun _ a b => a &&& b) fun _ dst rhs => emit .and dst dst rhs

def shiftLevel : Level :=
  plainLevel (fun k => k == .shl || k == .shr)
    (fun op a b => match op with
      | .shl => a <<< (b &&& 63#64).toNat
      | .shr => a >>> (b &&& 63#64).toNat
      | _ => 0#64)
    fun op dst rhs => match op with
      | .shl => emit .shl dst dst rhs
      | .shr => emit .shr dst dst rhs
      | _ => pure ()

/-- Addition and subtraction: two fixed-point operands have to agree in their scale. -/
def termLevel : Level where
  isOp := fun k => k == .plus || k == .minus
  checkScales := fun s₁ s₂ =>
    match s₁, s₂ with
    | some s₁, some s₂ => do
      require (s₁ = s₂) "ERR_FIXED_SCALE_MISMATCH"
        "Mismatched fixed-point scales in addition or subtraction" "Matching fixed-point scales"
        "Expression -> Fixed-Point Arithmetic"
        "Explicitly align fixed-point scales before performing arithmetic"
      setFixedScale (some s₁)
    | _, _ => pure ()
  fold := fun op a b => pure (if op = .plus then a + b else a - b)
  emitOp := fun op _ _ dst rhs =>
    if op = .plus then emit .add dst dst rhs else emit .sub dst dst rhs

/-- Multiply and shift the product back by a scale. -/
def emitScaledMul (dst rhsReg scale : ℕ) : CompilerM Unit := do
  emit .mul dst dst rhsReg
  let shiftReg ← allocTemp
  let _ ← emitImm16 .movImm shiftReg scale
  emit .shr dst dst shiftReg
  freeTemp shiftReg

/-- A multiplication, by the scales of its operands. -/
def emitMul (dst rhsReg : ℕ) : Option ℕ → Option ℕ → CompilerM Unit
  | some s₁, some s₂ => do
    require (s₁ = s₂) "ERR_FIXED_SCALE_MISMATCH" "Mismatched fixed-point scales in multiplication"
      "Matching fixed-point scales" "Expression -> Fixed-Point Arithmetic"
      "Explicitly align fixed-point scales before arithmetic"
    emitScaledMul dst rhsReg s₁
    setFixedScale (some s₁)
  | some s, none | none, some s => do
    emitScaledMul dst rhsReg s
    setFixedScale none
  | none, none => do
    emit .mul dst dst rhsReg
    setFixedScale none

/-- A division, by the scales of its operands. -/
def emitDiv (dst rhsReg : ℕ) : Option ℕ → Option ℕ → CompilerM Unit
  | some s₁, some s₂ => do
    require (s₁ = s₂) "ERR_FIXED_SCALE_MISMATCH" "Mismatched fixed-point scales in division"
      "Matching fixed-point scales" "Expression -> Fixed-Point Arithmetic"
      "Explicitly align fixed-point scales before arithmetic"
    let shiftReg ← allocTemp
    let _ ← emitImm16 .movImm shiftReg s₁
    emit .shl dst dst shiftReg
    freeTemp shiftReg
    emit .div dst dst rhsReg
    setFixedScale (some s₁)
  | _, _ => do
    emit .div dst dst rhsReg
    setFixedScale none

/-- Multiplication, division and remainder: a constant zero divisor is refused. -/
def factorLevel : Level where
  isOp := fun k => k == .star || k == .slash || k == .percent
  checkScales := fun _ _ => pure ()
  fold := fun op a b =>
    match op with
    | .star => pure (a * b)
    | .slash => do
      require (b != 0#64) "ERR_DIV_BY_ZERO" "Division by zero encountered in constant expression"
        "Non-zero divisor" "Expression -> Constant Division"
        "Ensure denominator constant is not zero"
      return a.sdiv b
    | .percent => do
      require (b != 0#64) "ERR_DIV_BY_ZERO" "Modulo by zero encountered in constant expression"
        "Non-zero divisor" "Expression -> Constant Modulo"
        "Ensure denominator constant is not zero"
      return a.srem b
    | _ => pure 0#64
  emitOp := fun op s₁ s₂ dst rhs =>
    match op with
    | .star => emitMul dst rhs s₁ s₂
    | .slash => emitDiv dst rhs s₁ s₂
    | .percent => do
      emit .mod dst dst rhs
      setFixedScale none
    | _ => pure ()

/-! ## The levels, from the tightest on -/

def factor (r : Rec) (dst : ℕ) : CompilerM (Option Word64) :=
  binaryLevel r.fuel factorLevel (primary r) dst

def term (r : Rec) (dst : ℕ) : CompilerM (Option Word64) :=
  binaryLevel r.fuel termLevel (factor r) dst

def shift (r : Rec) (dst : ℕ) : CompilerM (Option Word64) :=
  binaryLevel r.fuel shiftLevel (term r) dst

def bitwiseAnd (r : Rec) (dst : ℕ) : CompilerM (Option Word64) :=
  binaryLevel r.fuel bitwiseAndLevel (shift r) dst

def bitwiseXor (r : Rec) (dst : ℕ) : CompilerM (Option Word64) :=
  binaryLevel r.fuel bitwiseXorLevel (bitwiseAnd r) dst

def bitwiseOr (r : Rec) (dst : ℕ) : CompilerM (Option Word64) :=
  binaryLevel r.fuel bitwiseOrLevel (bitwiseXor r) dst

def comparison (r : Rec) (dst : ℕ) : CompilerM (Option Word64) :=
  binaryLevel r.fuel comparisonLevel (bitwiseOr r) dst

def equality (r : Rec) (dst : ℕ) : CompilerM (Option Word64) :=
  binaryLevel r.fuel equalityLevel (comparison r) dst

def logicAnd (r : Rec) (dst : ℕ) : CompilerM (Option Word64) :=
  binaryLevel r.fuel logicAndLevel (equality r) dst

def logicOr (r : Rec) (dst : ℕ) : CompilerM (Option Word64) :=
  binaryLevel r.fuel logicOrLevel (logicAnd r) dst

/-- A branch of a conditional: a block of statements or an expression. -/
def branch (r : Rec) (dst : ℕ) : CompilerM Unit := do
  if ← matchToken .lBrace then r.body else r.expression dst

/-- The conditional after its condition, if there is one. -/
def ternaryRest (r : Rec) (dst : ℕ) (val : Option Word64) : CompilerM (Option Word64) := do
  if ← matchToken .question then
    emitPending dst val
    let jzPos ← emitInst .jz dst 0 0
    branch r dst
    if ← matchToken .colon then
      let jmpEndPos ← emitInst .jmp 0 0 0
      let elseStart ← codeLen
      patchImm16 jzPos elseStart
      branch r dst
      let done ← codeLen
      patchImm16 jmpEndPos done
    else
      let done ← codeLen
      patchImm16 jzPos done
    return none
  return val

/-- `ternary`. -/
def ternary (r : Rec) (dst : ℕ) : CompilerM (Option Word64) := do
  let val ← logicOr r dst
  ternaryRest r dst val

/-- The native function a value is piped to, its effect on a handle accounted for. -/
def pipeTarget (name : List UInt8) (dst : ℕ) : CompilerM Native := do
  if name = bytes "@send" ∨ name = bytes "net.send" then
    consumeBy .netSend dst
    return .netSend
  else if name = bytes "@release" ∨ name = bytes "@drop" then
    consumeBy .drop dst
    return .drop
  else if name = bytes "@print" ∨ name = bytes "print" then return .print
  else if name = bytes "@println" ∨ name = bytes "println" then return .println
  else if name = bytes "@rate" ∨ name = bytes "net.set_rate" then return .netSetRate
  else
    fail "ERR_INVALID_PIPE_TARGET" "Invalid pipe target function"
      "One of @send, @print, @println, @rate" "Expression -> Pipe"
      "Pipe value to a valid intrinsic like |> @send"

/-- The pipes after an expression. -/
def pipes (r : Rec) (dst : ℕ) : CompilerM Unit :=
  loop r.fuel () fun _ => do
    if ← matchToken .pipe then
      let k ← peekKind
      if k = .intrinsicIdent ∨ k = .ident then
        let tok ← advance
        let name ← text tok
        let f ← pipeTarget name dst
        checkIntrinsicRuntime f
        emit .callNat dst f.id dst
      return .yield ()
    return .done ()

/-- `expression`. -/
def expression (r : Rec) (dst : ℕ) : CompilerM Unit := do
  let val ← ternary r dst
  emitPending dst val
  pipes r dst

/-- `expression_statement`. -/
def expressionStatement (r : Rec) : CompilerM Unit := do
  r.expression 0
  let semi ← matchToken .semi
  require semi "ERR_MISSING_SEMICOLON" "Missing semicolon ';' at end of expression statement"
    "Semicolon ';'" "Statement -> Expression Statement" "Append ';' to terminate the statement"

end Compiler

end LatencyOS
