import LatencyOS.Compiler.Declarations
import LatencyOS.Vm.Word

/-!
# Compiling primary expressions

Literals, variables, calls, unary operators and parentheses.  Like every level of the
expression compiler, `primary` takes the register its value goes to and answers with a
compile-time constant, not yet in any register, or with nothing once code that leaves the
value there has been emitted.

The mutually recursive functions call each other through `Rec`, whose members are the
functions one recursion level down.
-/

namespace LatencyOS

namespace Compiler

/-- The mutually recursive functions, to call from within one of them. -/
structure Rec where
  /-- The bound of the loops. -/
  fuel : ℕ
  statement : CompilerM Unit
  expression : ℕ → CompilerM Unit
  ternary : ℕ → CompilerM (Option Word64)
  primary : ℕ → CompilerM (Option Word64)

/-- Statements up to a closing brace. -/
def Rec.body (r : Rec) : CompilerM Unit := do
  untilToken r.fuel .rBrace r.statement
  skip .rBrace

/-- Load a pending constant. -/
def emitPending (reg : ℕ) : Option Word64 → CompilerM Unit
  | some v => emitConst reg v
  | none => pure ()

/-! ## Ownership at a use -/

/-- Account for the sending of a handle. -/
def consumeBySend (slot : ℕ) : CompilerM Unit := do
  match ← handleState slot with
  | .unallocated =>
    fail "ERR_LINEAR_USE_BEFORE_ALLOC" "Hardware handle sent before being captured/allocated"
      "Capture handle with '#f := @capture()' before sending" "Linear Ownership Verification"
      "Initialize hardware handle with '@capture()' before '@send()'"
  | .moved .. =>
    fail "ERR_RESOURCE_USE_AFTER_MOVE" "Resource handle used after ownership was moved"
      "Active resource handle" "Linear Ownership Verification"
      "Ensure handle has not been moved before using it"
  | .sent | .dropped =>
    fail "ERR_LINEAR_DOUBLE_SEND"
      "Hardware handle sent multiple times (double-send / double-free violation)"
      "Single @send per allocated handle" "Linear Ownership Verification"
      "Remove duplicate '@send(#f);' calls on the same handle"
  | .captured .. => setHandleState slot .sent

/-- Account for the release of a handle. -/
def consumeByRelease (slot : ℕ) : CompilerM Unit := do
  match ← handleState slot with
  | .unallocated =>
    fail "ERR_LINEAR_USE_BEFORE_ALLOC" "Resource handle released before being allocated"
      "Allocate resource before releasing" "Linear Ownership Verification"
      "Initialize resource handle before releasing"
  | .moved .. =>
    fail "ERR_RESOURCE_USE_AFTER_MOVE" "Resource handle used after ownership was moved"
      "Active resource handle" "Linear Ownership Verification"
      "Ensure handle has not been moved before using it"
  | .sent | .dropped =>
    fail "ERR_RESOURCE_DOUBLE_RELEASE"
      "Resource released or moved multiple times (double-release violation)"
      "Single @release per allocated resource" "Linear Ownership Verification"
      "Remove duplicate '@release(#h);' calls on the same resource"
  | .captured .. => setHandleState slot .dropped

/-- Account for what a native function does to the handle in a register. -/
def consumeBy (f : Native) (reg : ℕ) : CompilerM Unit :=
  if !isHandleReg reg then pure ()
  else if f = .netSend then consumeBySend (reg - 16)
  else if f = .drop then consumeByRelease (reg - 16)
  else pure ()

/-! ## Primary expressions -/

/-- The divisor of a literal with some fractional digits, saturating. -/
def fracDivisor (fracDigits : ℕ) : ℕ := min (10 ^ fracDigits) (2 ^ 63 - 1)

/-- A decimal literal: loaded, and reported as a constant too. -/
def floatLit (scaledVal : Word64) (fracDigits dst : ℕ) : CompilerM (Option Word64) := do
  let st ← get
  let scale := st.info.targetScale.getD 16
  let intRepr := BitVec.ofInt 64
    ((scaledVal.toInt * 2 ^ scale).tdiv (fracDivisor fracDigits))
  let idx ← addConstant intRepr
  let _ ← emitImm16 .ldc dst idx
  setFixedScale (some scale)
  return some intRepr

/-- The value of a hexadecimal digit. -/
def hexDigit (b : UInt8) : Option UInt8 :=
  if 0x30 ≤ b ∧ b ≤ 0x39 then some (b - 0x30)
  else if 0x61 ≤ b ∧ b ≤ 0x66 then some (b - 0x61 + 10)
  else if 0x41 ≤ b ∧ b ≤ 0x46 then some (b - 0x41 + 10)
  else none

/-- The scan behind `unescape`, bounded by the number of bytes. -/
def unescapeScan : ℕ → List UInt8 → List UInt8
  | 0, _ => []
  | _, [] => []
  | _, [b] => [b]
  | n + 1, b :: c :: rest =>
    if b ≠ 0x5C then b :: unescapeScan n (c :: rest)
    else if c = 0x6E then 0x0A :: unescapeScan n rest
    else if c = 0x72 then 0x0D :: unescapeScan n rest
    else if c = 0x74 then 0x09 :: unescapeScan n rest
    else if c = 0x65 then 0x1B :: unescapeScan n rest
    else if c = 0x78 then
      match rest with
      | h₁ :: h₂ :: rest' =>
        match hexDigit h₁, hexDigit h₂ with
        | some v₁, some v₂ => (v₁ <<< 4 ||| v₂) :: unescapeScan n rest'
        | _, _ => 0x5C :: unescapeScan n (c :: rest)
      | _ => c :: unescapeScan n rest
    else c :: unescapeScan n rest

/-- The bytes a string literal denotes.  A malformed `\x` yields the backslash and is read
again from the `x`; a trailing backslash stands for itself. -/
def unescape (s : List UInt8) : List UInt8 := unescapeScan s.length s

/-- Where a list occurs in another. -/
def findSlice (pool s : List UInt8) : Option ℕ :=
  (List.range (pool.length + 1 - s.length)).find? fun i => (pool.drop i).take s.length == s

/-- `find_string_in_pool`. -/
def findStringInPool (pool s : List UInt8) : Option ℕ :=
  if s = [] then some 0 else if pool.length < s.length then none else findSlice pool s

/-- The text between the quotes of a string literal. -/
def stringText (tok : Token) : CompilerM (List UInt8) := do
  if tok.len < 2 then return []
  text { tok with start := tok.start + 1, len := tok.len - 2 }

/-- Load a reference to a string of the pool. -/
def emitStr (dst offset len : ℕ) : CompilerM Unit :=
  if offset < 256 then emit .movStr dst offset len
  else emitConst dst (strTag ||| BitVec.ofNat 64 (offset * 2 ^ 32) ||| BitVec.ofNat 64 len)

/-- A string literal: shared with the pool where its bytes already occur there. -/
def stringLit (tok : Token) (dst : ℕ) : CompilerM (Option Word64) := do
  let raw ← stringText tok
  let st ← get
  let s := unescape raw
  require (st.strPool.length + s.length ≤ maxStringPool) "ERR_STRING_POOL_FULL"
    "String literal pool exhausted (512 bytes limit reached)" "Shorter string constants"
    "String Pool Allocation" "Reduce the size of string constants"
  match findStringInPool st.strPool s with
  | some offset => emitStr dst offset s.length
  | none =>
    Prog.op (.appendStr s)
    emitStr dst st.strPool.length s.length
  return none

/-- A field access, after the variable. -/
def fieldAccess (tok : Token) (dst : ℕ) : CompilerM (Option Word64) := do
  let _ ← advance
  let fieldTok ← advance
  require (fieldTok.kind = .ident) "ERR_EXPECTED_FIELD_NAME"
    "Expected field name identifier after '.'" "Field identifier name"
    "Expression -> Struct Field Access" "Specify field name, e.g. '$pt.x'"
  let varName ← text tok
  let fieldName ← text fieldTok
  let f ← lookupStructField varName fieldName
  emit .structLoad dst f.1 f.2
  return none

/-- Report the enum type and scale of a variable. -/
def reportVar (tok : Token) : CompilerM Unit := do
  let e ← getVarEnumType tok
  setEnumType e
  let s ← getVarFixedScale tok
  setFixedScale s

/-- Copy a register unless it is the destination. -/
def moveTo (dst reg : ℕ) : CompilerM Unit :=
  if reg ≠ dst then emit .movReg dst reg 0 else pure ()

/-- A variable or handle by itself. -/
def varValue (tok : Token) (dst : ℕ) : CompilerM (Option Word64) := do
  match ← isSpilledVar tok with
  | some slot =>
    reportVar tok
    emit .spillLoad dst slot 0
    return none
  | none =>
    reportVar tok
    let varReg ← resolveVar tok
    if isHandleReg varReg then
      match ← handleState (varReg - 16) with
      | .moved .. =>
        fail "ERR_RESOURCE_USE_AFTER_MOVE" "Resource handle used after ownership was moved"
          "Active resource handle" "Linear Ownership Verification"
          "Ensure handle has not been moved before using it"
      | _ => pure ()
    moveTo dst varReg
    return none

/-- A variable, an array element or a struct field. -/
def varPrimary (r : Rec) (tok : Token) (dst : ℕ) : CompilerM (Option Word64) := do
  let k ← peekKind
  if k = .lBracket then
    let arr ← lookupArray tok
    let _ ← advance
    let idxReg ← allocTemp
    r.expression idxReg
    skip .rBracket
    emit .arrLoad dst arr.arrId idxReg
    freeTemp idxReg
    return none
  else if k = .dot then fieldAccess tok dst
  else varValue tok dst

/-- An enum variant: loaded, and reported as a constant too. -/
def enumVariant (name : List UInt8) (dst : ℕ) : CompilerM (Option Word64) := do
  let _ ← advance
  let variantTok ← advance
  require (variantTok.kind = .ident) "ERR_EXPECTED_VARIANT_NAME"
    "Expected variant identifier after '::'" "Enum variant identifier"
    "Expression -> Enum Variant" "Specify variant name, e.g. 'State::Idle'"
  let variantName ← text variantTok
  match ← lookupEnumByName name with
  | none =>
    fail "ERR_UNKNOWN_ENUM_TYPE" "Enum type name is not defined" "Declared enum type name"
      "Expression -> Enum Variant"
      "Declare enum before using variants, e.g. 'enum State \x7b ... \x7d'"
  | some enumIdx =>
    match ← lookupEnumVariant enumIdx variantName with
    | none =>
      fail "ERR_UNKNOWN_ENUM_VARIANT" "Enum variant does not exist on enum type"
        "Valid enum variant name" "Expression -> Enum Variant"
        "[AI_REPAIR_HINT] Valid variants are declared in the enum definition"
    | some variantIdx =>
      setEnumType (some enumIdx)
      let _ ← emitImm16 .movImm dst variantIdx
      return some (BitVec.ofNat 64 variantIdx)

/-- The arguments of a call to a user function, each into a temporary of its own. -/
def callArgs (r : Rec) (paramCount : ℕ) : CompilerM (List ℕ) :=
  loop r.fuel [] fun temps => do
    let k ← peekKind
    if k = .rParen ∨ k = .eof then return .done temps
    require (temps.length < paramCount) "ERR_TOO_MANY_ARGS"
      "Too many arguments passed to static function" "Matching number of function parameters"
      "Expression -> Function Call" "Check function parameter signature"
    let tmp ← allocTemp
    r.expression tmp
    if ← matchToken .comma then return .yield (temps ++ [tmp])
    return .done (temps ++ [tmp])

/-- Move the arguments into the parameter registers. -/
def passArgs : List ℕ → List ℕ → CompilerM Unit
  | reg :: regs, tmp :: temps => do
    emit .movReg reg tmp 0
    freeTemp tmp
    passArgs regs temps
  | _, _ => pure ()

/-- A call of a user function. -/
def userCall (r : Rec) (f : FnMeta) (dst : ℕ) : CompilerM (Option Word64) := do
  let _ ← advance
  let temps ← callArgs r f.params.length
  passArgs paramRegs temps
  require (f.params.length ≤ temps.length) "ERR_TOO_FEW_ARGS"
    "Too few arguments passed to static function" "Matching number of function parameters"
    "Expression -> Function Call" "Provide all required function arguments"
  let closed ← matchToken .rParen
  require closed "ERR_UNCLOSED_PAREN"
    "Missing closing parenthesis ')' in function argument list" "Closing parenthesis ')'"
    "Expression -> Function Call" "Add matching ')' after argument list"
  let _ ← emitImm16 .call 0 f.entryPc
  if dst ≠ 0 then emit .movReg dst 0 0
  return none

/-- A call of `@streq`. -/
def streqCall (r : Rec) (dst : ℕ) : CompilerM (Option Word64) := do
  let _ ← advance
  let s₁ ← allocTemp
  r.expression s₁
  let comma ← matchToken .comma
  require comma "ERR_EXPECTED_COMMA" "Expected ',' between arguments in @streq($s1, $s2)"
    "Comma ','" "Expression -> Intrinsic Function Call"
    "Provide two string arguments, e.g. '@streq($s1, $s2)'"
  let s₂ ← allocTemp
  r.expression s₂
  let closed ← matchToken .rParen
  require closed "ERR_UNCLOSED_PAREN" "Missing closing parenthesis ')' in @streq($s1, $s2)"
    "Closing parenthesis ')'" "Expression -> Intrinsic Function Call"
    "Add matching ')' after argument list"
  emit .streq dst s₁ s₂
  freeTemp s₂
  freeTemp s₁
  return none

/-- Whether a `|> @sum()` follows; it is consumed. -/
def chainedSum : CompilerM Bool := do
  let k ← peekKind
  if k ≠ .pipe then return false
  let nextTok ← peekAhead 1
  let nextName ← text nextTok
  if nextName ≠ bytes "@sum" ∧ nextName ≠ bytes "sum" then return false
  let _ ← advance
  let _ ← advance
  if ← matchToken .lParen then skip .rParen
  return true

/-- A call of `@zip_with`. -/
def zipWithCall (r : Rec) (dst : ℕ) : CompilerM (Option Word64) := do
  let _ ← advance
  let v₁ ← parseViewSource r.expression
  let comma ← matchToken .comma
  require comma "ERR_EXPECTED_COMMA" "Expected ',' between views in @zip_with" "Comma ','"
    "Expression -> Combinator Call"
    "Provide two views and function, e.g. '@zip_with($v1, $v2, mul)'"
  let v₂ ← parseViewSource r.expression
  let comma ← matchToken .comma
  require comma "ERR_EXPECTED_COMMA" "Expected ',' before function name in @zip_with" "Comma ','"
    "Expression -> Combinator Call" "Provide function name, e.g. '@zip_with($v1, $v2, mul)'"
  let fnTok ← advance
  let fnName ← text fnTok
  let closed ← matchToken .rParen
  require closed "ERR_UNCLOSED_PAREN" "Missing closing parenthesis ')' in @zip_with"
    "Closing parenthesis ')'" "Expression -> Combinator Call" "Close with ')'"
  let isSum ← chainedSum
  compileZipWithToReg dst v₁ v₂ fnName isSum
  return none

/-- A call of `@sum`. -/
def sumCall (r : Rec) (dst : ℕ) : CompilerM (Option Word64) := do
  let _ ← advance
  if ← matchToken .rParen then return none
  let v ← parseViewSource r.expression
  let closed ← matchToken .rParen
  require closed "ERR_UNCLOSED_PAREN" "Missing closing parenthesis ')' in @sum"
    "Closing parenthesis ')'" "Expression -> Combinator Call" "Close with ')'"
  compileSumToReg dst v
  return none

/-- A call of `@reduce`; the initial value is overwritten by the loop's own start. -/
def reduceCall (r : Rec) (dst : ℕ) : CompilerM (Option Word64) := do
  let _ ← advance
  let v ← parseViewSource r.expression
  let comma ← matchToken .comma
  require comma "ERR_EXPECTED_COMMA" "Expected ',' after view in @reduce" "Comma ','"
    "Expression -> Combinator Call" "Provide view, initial value, and reducer function"
  let initReg ← allocTemp
  r.expression initReg
  let comma ← matchToken .comma
  require comma "ERR_EXPECTED_COMMA" "Expected ',' before function name in @reduce" "Comma ','"
    "Expression -> Combinator Call" "Provide reducer function name"
  let fnTok ← advance
  let fnName ← text fnTok
  let closed ← matchToken .rParen
  require closed "ERR_UNCLOSED_PAREN" "Missing closing parenthesis ')' in @reduce"
    "Closing parenthesis ')'" "Expression -> Combinator Call" "Close with ')'"
  emit .movReg dst initReg 0
  freeTemp initReg
  compileReduceToReg dst v none fnName
  return none

/-- The intrinsics: their names, the native function and the number of arguments. -/
def intrinsics : List (String × String × Native × ℕ) :=
  [("@print", "print", .print, 1), ("@println", "println", .println, 1),
    ("@tsc", "sys.tsc", .sysTsc, 0), ("@rtt", "net.rtt", .netRtt, 0),
    ("@rate", "net.set_rate", .netSetRate, 1), ("@capture", "gpu.capture", .gpuCapture, 0),
    ("@send", "net.send", .netSend, 1), ("@release", "@drop", .drop, 1),
    ("@argc", "sys.argc", .scriptArgc, 0), ("@arg", "sys.arg", .scriptArg, 1),
    ("@ok", "@ok", .tagOk, 1), ("@err", "@err", .tagErr, 1), ("@is_ok", "@is_ok", .isOk, 1),
    ("@is_err", "@is_err", .isErr, 1), ("@unwrap", "@unwrap", .unwrap, 1),
    ("@core_id", "sys.core_id", .coreId, 0), ("@tsc_freq", "sys.tsc_freq", .tscFreq, 0),
    ("@uptime_ns", "sys.uptime_ns", .uptimeNs, 0),
    ("@busy_wait", "sys.busy_wait", .busyWait, 1),
    ("@ring_depth", "sys.ring_depth", .ringDepth, 1),
    ("@min", "math.min", .mathMin, 2), ("@max", "math.max", .mathMax, 2),
    ("@abs", "math.abs", .mathAbs, 1), ("@clamp", "math.clamp", .mathClamp, 3),
    ("@popcnt", "bit.popcnt", .bitPopcnt, 1), ("@lzcnt", "bit.lzcnt", .bitLzcnt, 1),
    ("@crc32", "hash.crc32", .crc32, 2), ("@vram_read", "vram.read", .vramRead, 2),
    ("@vram_write", "vram.write", .vramWrite, 3), ("@to_fix", "fix.to_fix", .fixToFix, 2),
    ("@to_i64", "fix.to_i64", .fixToI64, 2), ("@fix_mul", "fix.mul", .fixMul, 3),
    ("@fix_div", "fix.div", .fixDiv, 3), ("@term_raw", "term.raw", .termRaw, 1),
    ("@term_read_key", "term.read_key", .termReadKey, 0),
    ("@term_size", "term.size", .termSize, 0), ("@file_read", "file.read", .fileRead, 1),
    ("@file_write", "file.write", .fileWrite, 2),
    ("@file_exists", "file.exists", .fileExists, 1), ("@str_len", "str.len", .strLen, 1),
    ("@char_at", "str.char_at", .charAt, 2)]

/-- The native function and arity of an intrinsic name. -/
def lookupIntrinsic (name : List UInt8) : CompilerM (Native × ℕ) :=
  match intrinsics.find? fun i => bytes i.1 == name || bytes i.2.1 == name with
  | some i => pure i.2.2
  | none =>
    fail "ERR_UNKNOWN_INTRINSIC" "Unknown intrinsic function name"
      ("Supported intrinsics: @print, @println, @tsc, @rtt, @rate, @capture, @send, @argc, " ++
        "@arg, @ok, @err, @is_ok, @is_err, @unwrap, @core_id, @tsc_freq, @uptime_ns, @busy_wait, " ++
        "@ring_depth, @min, @max, @abs, @clamp, @popcnt, @lzcnt, @crc32, @vram_read, @vram_write")
      "Expression -> Intrinsic Call"
      "Verify that the intrinsic name matches supported DSL intrinsics"

/-- The argument of a one-argument intrinsic, which may be missing: register 0 then. -/
def oneArg (r : Rec) (f : Native) : CompilerM ℕ := do
  let argTok ← peek
  if argTok.kind = .rParen then return 0
  let rawReg ← if argTok.kind = .hardwareIdent then tryResolveVar argTok else pure none
  consumeBy f (rawReg.getD 0)
  let arg ← allocTemp
  r.expression arg
  return arg

/-- The arguments of an intrinsic, in consecutive temporaries if those are free. -/
def intrinsicArgs (r : Rec) (f : Native) : ℕ → CompilerM (List ℕ)
  | 0 => pure []
  | 1 => do
    let arg ← oneArg r f
    return [arg]
  | 2 => do
    let arg₀ ← allocTemp
    r.expression arg₀
    let comma ← matchToken .comma
    require comma "ERR_EXPECTED_COMMA" "Expected ',' between 2 intrinsic arguments" "Comma ','"
      "Expression -> Intrinsic Function Call" "Provide 2 arguments separated by a comma"
    let arg₁ ← allocTemp
    r.expression arg₁
    return [arg₀, arg₁]
  | _ => do
    let arg₀ ← allocTemp
    r.expression arg₀
    let comma ← matchToken .comma
    require comma "ERR_EXPECTED_COMMA" "Expected ',' between intrinsic arguments" "Comma ','"
      "Expression -> Intrinsic Function Call" "Provide 3 arguments separated by commas"
    let arg₁ ← allocTemp
    r.expression arg₁
    let comma ← matchToken .comma
    require comma "ERR_EXPECTED_COMMA" "Expected ',' between intrinsic arguments" "Comma ','"
      "Expression -> Intrinsic Function Call" "Provide 3 arguments separated by commas"
    let arg₂ ← allocTemp
    r.expression arg₂
    return [arg₀, arg₁, arg₂]

/-- Free the arguments of an intrinsic, the last first. -/
def freeArgs : List ℕ → CompilerM Unit
  | [] => pure ()
  | arg :: args => do
    freeArgs args
    freeTemp arg

/-- A call of an intrinsic: only the first argument register is encoded. -/
def intrinsicCall (r : Rec) (name : List UInt8) (dst : ℕ) : CompilerM (Option Word64) := do
  let f ← lookupIntrinsic name
  let _ ← advance
  let args ← intrinsicArgs r f.1 f.2
  let closed ← matchToken .rParen
  require closed "ERR_UNCLOSED_PAREN"
    "Missing closing parenthesis ')' in function argument list" "Closing parenthesis ')'"
    "Expression -> Intrinsic Function Call" "Add matching ')' after argument list"
  checkIntrinsicRuntime f.1
  emit .callNat dst f.1.id (args.headD 0)
  freeArgs args
  return none

/-- A call, by the name of what is called. -/
def callPrimary (r : Rec) (name : List UInt8) (dst : ℕ) : CompilerM (Option Word64) := do
  match ← findFn name with
  | some f => userCall r f dst
  | none =>
    if name = bytes "@streq" ∨ name = bytes "str.eq" then streqCall r dst
    else if name = bytes "@zip_with" then zipWithCall r dst
    else if name = bytes "@sum" ∨ name = bytes "sum" then sumCall r dst
    else if name = bytes "@reduce" ∨ name = bytes "reduce" then reduceCall r dst
    else intrinsicCall r name dst

/-- An element of a constant table. -/
def tableElement (r : Rec) (name : List UInt8) (dst : ℕ) : CompilerM (Option Word64) := do
  let tbl ← lookupConstTable name
  let _ ← advance
  let idxReg ← allocTemp
  r.expression idxReg
  skip .rBracket
  emit .tblLoad dst tbl.1 idxReg
  freeTemp idxReg
  return none

/-- A struct literal is refused. -/
def refuseStructLiteral (tok : Token) : CompilerM Unit := do
  let k ← peekKind
  if k = .lBrace then
    let isStruct ← isStructType tok
    require (!isStruct) "ERR_STRUCT_LITERAL_UNSUPPORTED"
      "Struct literal initialization 'Type \x7b field: val \x7d' is not supported in PulseLang"
      "Struct instance declaration with 'let mut $var: Type;'" "Expression -> Struct Literal"
      ("PulseLang uses zero-allocation static slots. Declare with 'let mut $var: Type;', then " ++
        "assign fields: '$var.field = value;'")

/-- What starts with a name: an enum variant, a table element, a call or a variable. -/
def namedPrimary (r : Rec) (tok : Token) (dst : ℕ) : CompilerM (Option Word64) := do
  let name ← text tok
  let k ← peekKind
  if k = .colonColon then enumVariant name dst
  else if k = .lBracket then tableElement r name dst
  else
    refuseStructLiteral tok
    if k = .lParen then callPrimary r name dst
    else
      let varReg ← resolveVar tok
      moveTo dst varReg
      return none

/-- A negation: the zero it subtracts from is loaded even when the operand is folded. -/
def negPrimary (r : Rec) (dst : ℕ) : CompilerM (Option Word64) := do
  let zeroReg ← allocTemp
  emitConst zeroReg 0#64
  let rhsReg ← allocTemp
  match ← r.primary rhsReg with
  | some b =>
    freeTemp rhsReg
    freeTemp zeroReg
    let v ← negLiteral b
    return some v
  | none =>
    emit .sub dst zeroReg rhsReg
    freeTemp rhsReg
    freeTemp zeroReg
    return none

/-- A logical negation. -/
def notPrimary (r : Rec) (dst : ℕ) : CompilerM (Option Word64) := do
  let rhsReg ← allocTemp
  match ← r.primary rhsReg with
  | some b =>
    freeTemp rhsReg
    return some (boolWord (b = 0#64))
  | none =>
    let zeroReg ← allocTemp
    emitConst zeroReg 0#64
    emit .cmpEq dst rhsReg zeroReg
    freeTemp zeroReg
    freeTemp rhsReg
    return none

/-- A parenthesised expression. -/
def parenPrimary (r : Rec) (dst : ℕ) : CompilerM (Option Word64) := do
  let val ← r.ternary dst
  let closed ← matchToken .rParen
  require closed "ERR_UNCLOSED_PAREN" "Expected closing parenthesis ')' after sub-expression"
    "Closing parenthesis ')'" "Expression -> Grouping"
    "Add matching ')' to close the grouped expression"
  return val

/-- `primary`. -/
def primary (r : Rec) (dst : ℕ) : CompilerM (Option Word64) := do
  let tok ← advance
  match tok.kind with
  | .number n => return some n
  | .timeLiteral ns => return some ns
  | .floatLit scaledVal fracDigits => floatLit scaledVal fracDigits dst
  | .stringLit => stringLit tok dst
  | .varIdent | .hardwareIdent => varPrimary r tok dst
  | .intrinsicIdent | .ident => namedPrimary r tok dst
  | .minus => negPrimary r dst
  | .exclamation => notPrimary r dst
  | .lParen => parenPrimary r dst
  | _ =>
    fail "ERR_SYNTAX_UNEXPECTED_TOKEN" "Unexpected token encountered in expression"
      "Literal value, variable ($var), hardware handle (#h), or intrinsic call (@fn)"
      "Expression -> Primary"
      "Replace invalid token with a valid variable name, number, or expression"

end Compiler

end LatencyOS
