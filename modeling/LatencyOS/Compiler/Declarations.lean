import LatencyOS.Compiler.Basic

/-!
# Declarations

Arrays, pool sizes, views, structs, enums and constant tables.  Names are stored cut to
their first 16 bytes (32 for enums and functions) and compared whole, so a longer name is
never found again.
-/

namespace LatencyOS

namespace Compiler

/-! ## Arrays and views -/

/-- `declare_array`. -/
def declareArray (tok : Token) (len : ℕ) : CompilerM ℕ := do
  let st ← get
  let name := (st.text? tok).getD []
  let d := st.decls
  require (d.arrays.length < d.maxArrays && d.arrays.length < 16) "ERR_MAX_ARRAYS_EXCEEDED"
    "Maximum distinct arrays limit reached"
    "Fewer distinct arrays or configure with @pool_size(arrays: N)" "Array Allocation"
    "Reduce distinct array declarations across script or declare @pool_size"
  require (d.totalArrayElements + len ≤ d.maxElements && d.totalArrayElements + len ≤ 1024)
    "ERR_ARRAY_CAPACITY_EXCEEDED" "Total static array capacity exceeded"
    "Smaller array size or configure with @pool_size(elements: N)" "Array Allocation"
    "Reduce total array elements in script or declare @pool_size"
  Prog.op (.pushArray name len)
  return d.arrays.length

/-- What one setting of `@pool_size` changes; the struct, field and table limits are stored
by the compiler but never read. -/
def poolSetting (name : List UInt8) (val : ℕ) (d : Decls) : Decls :=
  if name = bytes "elements" ∨ name = bytes "capacity" then { d with maxElements := min val 1024 }
  else if name = bytes "arrays" then { d with maxArrays := min val 16 }
  else d

/-- `declare_pool_size`. -/
def declarePoolSize (fuel : ℕ) : CompilerM Unit := do
  skip .lParen
  loop fuel () fun _ => do
    let k ← peekKind
    if k = .rParen ∨ k = .eof then return .done ()
    let tok ← advance
    match tok.kind with
    | .number n =>
      if 0 < n.toInt then
        modifyDecls fun d => { d with maxElements := min n.toNat 1024 }
    | .ident =>
      let name ← text tok
      skip .colon
      let valTok ← advance
      match valTok.kind with
      | .number n => modifyDecls (poolSetting name (if 0 < n.toInt then n.toNat else 1))
      | _ => pure ()
    | _ => pure ()
    if ← matchToken .comma then return .yield ()
    return .done ()
  skip .rParen
  skip .semi

/-- The array of a name. -/
def findArray (name : List UInt8) : CompilerM (Option ArrayMeta) := do
  let st ← get
  return st.decls.arrays.find? (·.name == name)

/-- `lookup_array`. -/
def lookupArray (tok : Token) : CompilerM ArrayMeta := do
  let name ← text tok
  match ← findArray name with
  | some a => return a
  | none =>
    fail "ERR_ARRAY_UNDEFINED" "Array variable is not defined"
      "Declare array with 'let $buf: [i64; N];'" "Array Access"
      "Define array buffer before indexing elements"

/-- `is_array`. -/
def isArray (tok : Token) : CompilerM Bool := do
  let name ← text tok
  let a ← findArray name
  return a.isSome

/-- `declare_view`: a view declared again is replaced, but only while the table has room. -/
def declareView (tok : Token) (view : ViewMeta) : CompilerM Unit := do
  let st ← get
  let name ← text tok
  require (st.decls.views.length < 8) "ERR_MAX_VIEWS_EXCEEDED"
    "Maximum distinct array views limit reached (8 views limit)" "Fewer distinct array views"
    "View Declaration" "Reuse view variables across script"
  match st.decls.views.findIdx? (·.name == name) with
  | some i =>
    modifyDecls fun d => { d with views := d.views.set i { view with name := name } }
  | none =>
    modifyDecls fun d => { d with views := d.views ++ [{ view with name := name.take 16 }] }

/-- `lookup_view`. -/
def lookupView (tok : Token) : CompilerM (Option ViewMeta) := do
  let st ← get
  let name ← text tok
  return st.decls.views.find? (·.name == name)

/-- `is_view`. -/
def isView (tok : Token) : CompilerM Bool := do
  let v ← lookupView tok
  return v.isSome

/-! ## Structs -/

/-- `declare_struct_def`. -/
def declareStructDef (fuel : ℕ) : CompilerM Unit := do
  let nameTok ← advance
  require (nameTok.kind = .ident) "ERR_EXPECTED_STRUCT_NAME"
    "Expected struct identifier name after 'struct' keyword" "Struct name identifier"
    "Statement -> Struct Definition" "Specify struct name, e.g. 'struct Point'"
  let sName ← text nameTok
  let st ← get
  require (st.decls.structDefs.length < 8) "ERR_MAX_STRUCTS_EXCEEDED"
    "Maximum distinct struct definitions reached (8 struct types limit)"
    "Fewer struct definitions" "Struct Definition"
    "Reduce distinct struct declarations across script"
  require (st.decls.structDefs.all (·.name != sName)) "ERR_STRUCT_REDEFINED"
    "Struct type is already defined" "Unique struct type name" "Struct Definition"
    "Rename duplicate struct type"
  let opened ← matchToken .lBrace
  require opened "ERR_EXPECTED_LBRACE" "Expected opening brace '\x7b' after struct name"
    "Left brace '\x7b'" "Statement -> Struct Definition" "Add '\x7b' to start struct field list"
  let fields ← loop fuel ([] : List (List UInt8)) fun fields => do
    let k ← peekKind
    if k = .rBrace ∨ k = .eof then return .done fields
    let fTok ← advance
    require (fTok.kind = .ident) "ERR_EXPECTED_FIELD_NAME"
      "Expected field identifier in struct definition" "Field name identifier"
      "Statement -> Struct Fields" "Specify field name, e.g. 'x: i64'"
    let fName ← text fTok
    require (fields.length < 8) "ERR_MAX_FIELDS_EXCEEDED"
      "Maximum struct fields reached (8 fields limit per struct)" "Fewer struct fields"
      "Statement -> Struct Fields" "Reduce field count to 8 or fewer"
    let colon ← matchToken .colon
    require colon "ERR_EXPECTED_COLON" "Expected ':' after struct field name" "Colon ':'"
      "Statement -> Struct Fields" "Specify field type annotation 'field: i64'"
    let _ ← advance
    if ← matchToken .comma then return .yield (fields ++ [fName.take 16])
    return .done (fields ++ [fName.take 16])
  let closed ← matchToken .rBrace
  require closed "ERR_EXPECTED_RBRACE"
    "Expected closing brace '\x7d' after struct definition fields" "Right brace '\x7d'"
    "Statement -> Struct Definition" "Close struct fields with '\x7d'"
  skip .semi
  modifyDecls fun d => { d with structDefs := d.structDefs ++ [⟨sName.take 16, fields⟩] }

/-- `is_struct_type`. -/
def isStructType (tok : Token) : CompilerM Bool := do
  let st ← get
  let name ← text tok
  return st.decls.structDefs.any (·.name == name)

/-- `declare_struct_inst`. -/
def declareStructInst (varTok typeTok : Token) : CompilerM ℕ := do
  let st ← get
  let d := st.decls
  let varName ← text varTok
  let typeName ← text typeTok
  match d.structDefs.findIdx? (·.name == typeName) with
  | none =>
    fail "ERR_UNKNOWN_STRUCT_TYPE" "Struct type name is not defined"
      "Declared struct type name" "Statement -> Struct Instantiation"
      "Declare struct before instantiating, e.g. 'struct Point \x7b ... \x7d'"
  | some defIdx =>
    let fieldCount := ((d.structDefs[defIdx]?).map (·.fields.length)).getD 0
    require (d.structInsts.length < 8) "ERR_MAX_STRUCT_INSTS_EXCEEDED"
      "Maximum struct instances limit reached (8 struct instances limit)"
      "Fewer struct instances" "Struct Instantiation"
      "Reduce distinct struct instances across script"
    require (d.totalStructFields + fieldCount ≤ 256) "ERR_STRUCT_CAPACITY_EXCEEDED"
      "Total static struct field capacity exceeded (max 256 fields)" "Fewer struct fields"
      "Struct Allocation" "Reduce number of fields across struct instances"
    modifyDecls fun d => { d with
      totalStructFields := d.totalStructFields + fieldCount
      structInsts := d.structInsts ++
        [⟨varName.take 16, defIdx, d.structInsts.length, d.totalStructFields, fieldCount⟩] }
    emit .structDef d.structInsts.length fieldCount 0
    return d.structInsts.length

/-- `lookup_struct_field`: the instance and the offset of a field. -/
def lookupStructField (varName fieldName : List UInt8) : CompilerM (ℕ × ℕ) := do
  let st ← get
  match st.decls.structInsts.find? (·.varName == varName) with
  | none =>
    fail "ERR_UNKNOWN_STRUCT_VAR" "Variable is not a declared struct instance" "Struct variable"
      "Expression -> Field Access" "Declare struct instance with 'let $var: StructName;'"
  | some inst =>
    let fields := ((st.decls.structDefs[inst.structDefIdx]?).map (·.fields)).getD []
    match fields.findIdx? (· == fieldName) with
    | some offset => return (inst.instId, offset)
    | none =>
      fail "ERR_UNKNOWN_STRUCT_FIELD" "Field does not exist on struct type"
        "Valid struct field name" "Expression -> Field Access"
        "Check field name in struct definition"

/-- `is_struct_inst`. -/
def isStructInst (varName : List UInt8) : CompilerM Bool := do
  let st ← get
  return st.decls.structInsts.any (·.varName == varName)

/-! ## Enums -/

/-- `declare_enum_def`. -/
def declareEnumDef (fuel : ℕ) : CompilerM Unit := do
  let nameTok ← advance
  require (nameTok.kind = .ident) "ERR_EXPECTED_ENUM_NAME"
    "Expected enum identifier name after 'enum' keyword" "Enum name identifier"
    "Statement -> Enum Definition" "Specify enum name, e.g. 'enum State'"
  let eName ← text nameTok
  let st ← get
  require (st.decls.enums.length < maxEnums) "ERR_MAX_ENUMS_EXCEEDED"
    "Maximum distinct enum definitions reached (16 enum types limit)" "Fewer enum definitions"
    "Enum Definition" "Reduce distinct enum declarations across script"
  require (st.decls.enums.all (·.name != eName)) "ERR_DUPLICATE_ENUM_NAME"
    "Enum type name is already defined" "Unique enum type name" "Enum Definition"
    "Rename duplicate enum type"
  let opened ← matchToken .lBrace
  require opened "ERR_EXPECTED_LBRACE" "Expected opening brace '\x7b' after enum name"
    "Left brace '\x7b'" "Statement -> Enum Definition" "Add '\x7b' to start enum variant list"
  let variants ← loop fuel ([] : List (List UInt8)) fun variants => do
    let k ← peekKind
    if k = .rBrace ∨ k = .eof then return .done variants
    let vTok ← advance
    require (vTok.kind = .ident) "ERR_EXPECTED_VARIANT_NAME"
      "Expected variant identifier in enum definition" "Variant name identifier"
      "Statement -> Enum Variants" "Specify variant name, e.g. 'Idle'"
    let vName ← text vTok
    require (variants.length < maxEnumVariants) "ERR_MAX_VARIANTS_EXCEEDED"
      "Maximum enum variants reached (16 variants limit per enum)" "Fewer enum variants"
      "Statement -> Enum Variants" "Reduce variant count to 16 or fewer"
    require (variants.all (· != vName)) "ERR_DUPLICATE_ENUM_VARIANT"
      "Duplicate enum variant name within enum definition" "Unique variant identifier"
      "Statement -> Enum Variants" "Rename or remove duplicate enum variant"
    if ← matchToken .comma then return .yield (variants ++ [vName.take 32])
    skip .semi
    return .yield (variants ++ [vName.take 32])
  let closed ← matchToken .rBrace
  require closed "ERR_EXPECTED_RBRACE"
    "Expected closing brace '\x7d' after enum definition variants" "Right brace '\x7d'"
    "Statement -> Enum Definition" "Close enum variants with '\x7d'"
  skip .semi
  modifyDecls fun d => { d with enums := d.enums ++ [⟨eName.take 32, variants⟩] }

/-- `lookup_enum_by_name`. -/
def lookupEnumByName (name : List UInt8) : CompilerM (Option ℕ) := do
  let st ← get
  return st.decls.enums.findIdx? (·.name == name)

/-- `lookup_enum_variant`. -/
def lookupEnumVariant (enumIdx : ℕ) (name : List UInt8) : CompilerM (Option ℕ) := do
  let st ← get
  return (st.decls.enums[enumIdx]?).bind fun d => d.variants.findIdx? (· == name)

/-! ## Constant tables -/

/-- The scan behind `count_array_literal_elements`: bracket depth, elements counted, and
whether an element is open. -/
def countElements : List Token → ℕ → ℕ → Bool → ℕ
  | [], _, count, _ => count
  | tok :: rest, depth, count, hasElem =>
    match tok.kind with
    | .lBracket | .lParen | .lBrace => countElements rest (depth + 1) count true
    | .rBracket | .rParen | .rBrace =>
      if depth = 1 then (if hasElem then count + 1 else count)
      else countElements rest (depth - 1) count hasElem
    | .comma =>
      if depth = 1 then countElements rest depth (count + 1) false
      else countElements rest depth count true
    | .eof => count
    | _ => countElements rest depth count true

/-- `count_array_literal_elements`. -/
def countArrayLiteralElements : CompilerM ℕ := do
  let st ← get
  return countElements (st.tokens.drop st.current) 1 0 false

/-- Negation of a literal. -/
def negLiteral (n : Word64) : CompilerM Word64 := Prog.op (.negate n)

/-- `declare_const_table`. -/
def declareConstTable (fuel : ℕ) : CompilerM Unit := do
  let nameTok ← advance
  require (nameTok.kind = .ident) "ERR_EXPECTED_CONST_NAME"
    "Expected table identifier name after 'const' keyword" "Const table identifier name"
    "Statement -> Const Table Declaration"
    "Specify const table name, e.g. 'const LUT: [i64; 4] = [1, 2, 3, 4];'"
  let tName ← text nameTok
  let st ← get
  require (st.decls.constTables.length < 8) "ERR_MAX_TABLES_EXCEEDED"
    "Maximum distinct const table limit reached (8 const tables limit)" "Fewer const tables"
    "Const Table Allocation" "Reduce distinct const tables across script"
  require (st.decls.constTables.all (·.name != tName)) "ERR_TABLE_REDEFINED"
    "Const table name is already defined" "Unique const table name" "Const Table Declaration"
    "Rename duplicate const table"
  let colon ← matchToken .colon
  require colon "ERR_EXPECTED_COLON" "Expected ':' after const table name" "Colon ':'"
    "Statement -> Const Table Declaration" "Specify type annotation, e.g. 'const LUT: [i64; 4]'"
  let bracket ← matchToken .lBracket
  require bracket "ERR_EXPECTED_LBRACKET" "Expected '[' in const table type annotation"
    "Left bracket '['" "Statement -> Const Table Declaration" "Specify table type as '[i64; N]'"
  let _ ← advance
  let semi ← matchToken .semi
  require semi "ERR_TABLE_SYNTAX" "Expected ';' in table type [i64; N]" "Semicolon ';'"
    "Statement -> Const Table Declaration" "Specify table type as '[i64; N]'"
  let lenTok ← advance
  let expectedLen ← match lenTok.kind with
    | .number n => pure (if 0 < n.toInt ∧ n.toInt ≤ 64 then n.toNat else 0)
    | _ => pure 0
  require (0 < expectedLen) "ERR_TABLE_INVALID_LEN"
    "Const table size must be a positive constant integer (1..64)" "Positive integer (1..64)"
    "Statement -> Const Table Declaration" "Specify valid table size, e.g. '[i64; 16]'"
  let closedType ← matchToken .rBracket
  require closedType "ERR_TABLE_SYNTAX" "Expected ']' after table length" "Right bracket ']'"
    "Statement -> Const Table Declaration" "Close table type with ']'"
  let eq ← matchToken .eq
  require eq "ERR_EXPECTED_EQ" "Expected '=' before table initialization array" "Equals sign '='"
    "Statement -> Const Table Declaration" "Assign initial values, e.g. '= [10, 20, 30]'"
  let opened ← matchToken .lBracket
  require opened "ERR_EXPECTED_LBRACKET" "Expected '[' to start table elements list"
    "Left bracket '['" "Statement -> Const Table Declaration" "Start elements list with '['"
  require (st.constPool.length + expectedLen ≤ 256) "ERR_CONST_POOL_EXCEEDED"
    "Constant pool capacity exceeded (max 256 constants)" "Fewer constants"
    "Constant Pool Allocation" "Reduce total constants and table elements across script"
  let actualLen ← loop fuel 0 fun actualLen => do
    let k ← peekKind
    if k = .rBracket ∨ k = .eof then return .done actualLen
    let isNeg ← matchToken .minus
    let elemTok ← advance
    let val ← match elemTok.kind with
      | .number n => if isNeg then negLiteral n else pure n
      | .timeLiteral ns => pure ns
      | _ =>
        fail "ERR_TABLE_NON_CONSTANT_ELEMENT"
          "Const table elements must be compile-time constant integer or time literals"
          "Constant literal value" "Statement -> Const Table Declaration"
          "Use constant literals for all table elements"
    let _ ← Prog.op (.appendTableConstant val)
    if ← matchToken .comma then return .yield (actualLen + 1)
    return .done (actualLen + 1)
  require (actualLen = expectedLen) "ERR_TABLE_LENGTH_MISMATCH"
    "Number of table elements does not match declared type length" "Matching number of elements"
    "Statement -> Const Table Declaration"
    "Ensure array element count matches declared length [i64; N]"
  let closed ← matchToken .rBracket
  require closed "ERR_EXPECTED_RBRACKET" "Expected closing bracket ']' after table elements list"
    "Right bracket ']'" "Statement -> Const Table Declaration" "Close elements list with ']'"
  skip .semi
  modifyDecls fun d => { d with
    constTables := d.constTables ++
      [⟨tName.take 16, d.constTables.length, st.constPool.length, expectedLen⟩] }
  emit .tblDef st.decls.constTables.length st.constPool.length expectedLen

/-- `lookup_const_table`: the identifier of a table and its length. -/
def lookupConstTable (name : List UInt8) : CompilerM (ℕ × ℕ) := do
  let st ← get
  match st.decls.constTables.find? (·.name == name) with
  | some t => return (t.tblId, t.len)
  | none =>
    fail "ERR_UNKNOWN_CONST_TABLE" "Const table identifier is not defined"
      "Declared const table name" "Expression -> Const Table Access"
      "Define const table with 'const TABLE: [i64; N] = [...];'"

/-! ## Functions -/

/-- The function of a name. -/
def findFn (name : List UInt8) : CompilerM (Option FnMeta) := do
  let st ← get
  return st.decls.functions.find? (·.name == name)

/-- `lookup_fn_by_name`. -/
def lookupFnByName (name : List UInt8) : CompilerM FnMeta := do
  match ← findFn name with
  | some f => return f
  | none =>
    fail "ERR_UNKNOWN_FUNCTION" "Function name passed to combinator is not defined"
      "Valid function name" "Combinator -> Function Lookup"
      "Define static function with 'fn name(...) \x7b ... \x7d' before using in combinators"

/-- The intrinsics a combinator accepts, with or without the `@`. -/
def combinatorBuiltin (name : List UInt8) : Option Native :=
  if name = bytes "@min" ∨ name = bytes "min" then some .mathMin
  else if name = bytes "@max" ∨ name = bytes "max" then some .mathMax
  else if name = bytes "@abs" ∨ name = bytes "abs" then some .mathAbs
  else if name = bytes "@clamp" ∨ name = bytes "clamp" then some .mathClamp
  else if name = bytes "@popcnt" ∨ name = bytes "popcnt" then some .bitPopcnt
  else if name = bytes "@lzcnt" ∨ name = bytes "lzcnt" then some .bitLzcnt
  else if name = bytes "@crc32" ∨ name = bytes "crc32" then some .crc32
  else if name = bytes "@to_fix" ∨ name = bytes "to_fix" then some .fixToFix
  else if name = bytes "@to_i64" ∨ name = bytes "to_i64" then some .fixToI64
  else if name = bytes "@fix_mul" ∨ name = bytes "fix_mul" then some .fixMul
  else if name = bytes "@fix_div" ∨ name = bytes "fix_div" then some .fixDiv
  else if name = bytes "@print" ∨ name = bytes "print" then some .print
  else if name = bytes "@println" ∨ name = bytes "println" then some .println
  else none

/-- `lookup_combinator_fn`. -/
def lookupCombinatorFn (name : List UInt8) : CompilerM CombinatorFnTarget := do
  match ← findFn name with
  | some f => return .userDefined f
  | none =>
    match combinatorBuiltin name with
    | some f => return .builtin f
    | none =>
      fail "ERR_UNKNOWN_FUNCTION" "Function name passed to combinator is not defined"
        "Valid function or intrinsic name" "Combinator -> Function Lookup"
        "Define static function with 'fn name(...) \x7b ... \x7d' or pass built-in intrinsic"

/-!
## Array views and combinators

`@sum`, `@reduce` and `@zip_with` compile to a counting loop over one or two views.
-/

/-- A positive literal, or a default. -/
def positiveOr (tok : Token) (default : ℕ) : ℕ :=
  match tok.kind with
  | .number n => if 0 < n.toInt then n.toNat else default
  | _ => default

/-- Load a 16-bit constant. -/
def movImm (reg imm : ℕ) : CompilerM Unit := emit .movImm reg (imm / 256) (imm % 256)

/-- Whether a name is one of the view intrinsics. -/
def isViewIntrinsic (name : List UInt8) : Bool :=
  name = bytes "@row" || name = bytes "@col" || name = bytes "@slice"

/-- The view a `@row`, `@col` or `@slice` denotes, its base computed into a register. -/
def viewIntrinsic (expression : ℕ → CompilerM Unit) (name : List UInt8) (baseReg : ℕ) :
    CompilerM ViewMeta := do
  let _ ← advance
  skip .lParen
  let arrTok ← advance
  let arr ← lookupArray arrTok
  skip .comma
  expression baseReg
  skip .comma
  let sizeTok ← advance
  skip .rParen
  if name = bytes "@row" then
    let cols := positiveOr sizeTok 3
    let colsReg ← allocTemp
    movImm colsReg cols
    emit .mul baseReg baseReg colsReg
    freeTemp colsReg
    return ⟨[], arr.arrId, baseReg, 1, cols % 65536⟩
  else if name = bytes "@col" then
    let cols := positiveOr sizeTok 3
    return ⟨[], arr.arrId, baseReg, cols % 65536, arr.len / cols⟩
  else
    return ⟨[], arr.arrId, baseReg, 1, positiveOr sizeTok 1 % 65536⟩

/-- `parse_view_source_to_reg`. -/
def parseViewSourceToReg (expression : ℕ → CompilerM Unit) (baseReg : ℕ) :
    CompilerM ViewMeta := do
  let tok ← peek
  let name ← if tok.kind = .intrinsicIdent ∨ tok.kind = .ident then text tok else pure []
  if isViewIntrinsic name then
    viewIntrinsic expression name baseReg
  else
    let tok ← advance
    match ← lookupView tok with
    | some view => return view
    | none =>
      let arr ← lookupArray tok
      emit .movImm baseReg 0 0
      return ⟨[], arr.arrId, baseReg, 1, arr.len⟩

/-- `parse_view_source`: a plain array starts at register 0, whatever that holds. -/
def parseViewSource (expression : ℕ → CompilerM Unit) : CompilerM ViewMeta := do
  let tok ← peek
  let named ← if tok.kind = .varIdent ∨ tok.kind = .ident then do
      let name ← text tok
      pure (!isViewIntrinsic name)
    else pure false
  if named then
    let _ ← advance
    match ← lookupView tok with
    | some view => return view
    | none =>
      let arr ← lookupArray tok
      return ⟨[], arr.arrId, 0, 1, arr.len⟩
  else
    let tempBase ← allocTemp
    parseViewSourceToReg expression tempBase

/-- Load the element of a view at the loop counter into a new temporary. -/
def viewElement (v : ViewMeta) (loopI : ℕ) : CompilerM ℕ := do
  let idxReg ← allocTemp
  if v.strideImm = 1 then
    emit .add idxReg v.baseReg loopI
  else
    let strideReg ← allocTemp
    movImm strideReg v.strideImm
    emit .mul idxReg loopI strideReg
    emit .add idxReg idxReg v.baseReg
    freeTemp strideReg
  let elemReg ← allocTemp
  emit .arrLoad elemReg v.arrId idxReg
  freeTemp idxReg
  return elemReg

/-- The head of a counting loop: counter, bound, start of the loop, condition register and the
jump to patch. -/
def loopHead (count : ℕ) : CompilerM (ℕ × ℕ × ℕ × ℕ × ℕ) := do
  let loopI ← allocTemp
  emit .movImm loopI 0 0
  let countReg ← allocTemp
  movImm countReg count
  let loopStartPc ← codeLen
  let condReg ← allocTemp
  emit .cmpLt condReg loopI countReg
  let jzPc ← emitImm16 .jz condReg 0
  return (loopI, countReg, loopStartPc, condReg, jzPc)

/-- The foot of a counting loop: count, jump back, and land the exit. -/
def loopFoot (loopI loopStartPc jzPc : ℕ) : CompilerM Unit := do
  emit .addi loopI loopI 1
  let _ ← emitImm16 .jmp 0 loopStartPc
  let loopEndPc ← codeLen
  patchImm16 jzPc loopEndPc

/-- `compile_zip_with_to_reg`. -/
def compileZipWithToReg (dst : ℕ) (v₁ v₂ : ViewMeta) (fnName : List UInt8) (isSum : Bool) :
    CompilerM Unit := do
  let target ← lookupCombinatorFn fnName
  if isSum then emit .movImm dst 0 0
  let head ← loopHead (min v₁.lenImm v₂.lenImm)
  match head with
  | (loopI, countReg, loopStartPc, condReg, jzPc) =>
    freeTemp condReg
    let elem₁ ← viewElement v₁ loopI
    let elem₂ ← viewElement v₂ loopI
    match target with
    | .userDefined f =>
      emit .movReg 7 elem₁ 0
      emit .movReg 6 elem₂ 0
      freeTemp elem₂
      freeTemp elem₁
      let _ ← emitImm16 .call 0 f.entryPc
      if isSum then emit .add dst dst 0 else emit .movReg dst 0 0
    | .builtin f =>
      emit .callNat elem₁ f.id elem₁
      freeTemp elem₂
      if isSum then emit .add dst dst elem₁ else emit .movReg dst elem₁ 0
      freeTemp elem₁
    loopFoot loopI loopStartPc jzPc
    freeTemp countReg
    freeTemp loopI

/-- `compile_sum_to_reg`. -/
def compileSumToReg (dst : ℕ) (v : ViewMeta) : CompilerM Unit := do
  emit .movImm dst 0 0
  let head ← loopHead v.lenImm
  match head with
  | (loopI, countReg, loopStartPc, condReg, jzPc) =>
    let elem ← viewElement v loopI
    emit .add dst dst elem
    freeTemp elem
    loopFoot loopI loopStartPc jzPc
    freeTemp condReg
    freeTemp countReg
    freeTemp loopI

/-- `compile_reduce_to_reg`; its only caller passes no initial value, which clears the
destination. -/
def compileReduceToReg (dst : ℕ) (v : ViewMeta) (initVal : Option Word64) (fnName : List UInt8) :
    CompilerM Unit := do
  let f ← lookupFnByName fnName
  match initVal with
  | some init => emitConst dst init
  | none => emit .movImm dst 0 0
  let head ← loopHead v.lenImm
  match head with
  | (loopI, countReg, loopStartPc, condReg, jzPc) =>
    let elem ← viewElement v loopI
    emit .movReg 7 dst 0
    emit .movReg 6 elem 0
    freeTemp elem
    let _ ← emitImm16 .call 0 f.entryPc
    emit .movReg dst 0 0
    loopFoot loopI loopStartPc jzPc
    freeTemp condReg
    freeTemp countReg
    freeTemp loopI

end Compiler

end LatencyOS
