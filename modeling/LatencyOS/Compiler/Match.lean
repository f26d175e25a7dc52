import LatencyOS.Compiler.Bindings

/-!
# Compiling `match`

The arms are tried in order; each ends with a jump past the last.  The ownership states are
neither saved nor compared between the arms.
-/

namespace LatencyOS

namespace Compiler

/-- What is known about the arms seen so far. -/
structure Arms where
  enumType : Option ℕ
  /-- The jumps to the end, one for each arm. -/
  jumps : List ℕ
  hasOk : Bool
  hasErr : Bool
  hasWildcard : Bool
  /-- The enum variants already handled. -/
  handled : List ℕ

/-- `=>`. -/
def fatArrow (suggestion : String) : CompilerM Unit := do
  let arrow ← matchToken .fatArrow
  require arrow "ERR_EXPECTED_FAT_ARROW" "Expected '=>' after match pattern" "Fat arrow '=>'"
    "Statement -> Match Arm" suggestion

/-- The body of an arm and the jump to the end. -/
def armBody (r : Rec) : CompilerM ℕ := do
  if ← matchToken .lBrace then r.body else r.statement
  skip .comma
  emitImm16 .jmp 0 0

/-- The body of an arm that is skipped by a jump. -/
def guardedBody (r : Rec) (skipPos : ℕ) : CompilerM ℕ := do
  let jmpEnd ← armBody r
  let next ← codeLen
  patchImm16 skipPos next
  return jmpEnd

/-- Compare the matched value with a pattern, both in registers; the pattern's is freed. -/
def compareArm (matchReg patReg : ℕ) : CompilerM ℕ := do
  let cmpReg ← allocTemp
  emit .cmpEq cmpReg matchReg patReg
  freeTemp patReg
  let jzSkip ← emitImm16 .jz cmpReg 0
  freeTemp cmpReg
  return jzSkip

/-- A wildcard arm. -/
def wildcardArm (r : Rec) (arms : Arms) : CompilerM Arms := do
  let _ ← advance
  fatArrow "Specify arm as 'pattern => \x7b ... \x7d,'"
  let jmpEnd ← armBody r
  return { arms with hasWildcard := true, jumps := arms.jumps ++ [jmpEnd] }

/-- An enum arm. -/
def enumArm (r : Rec) (matchReg : ℕ) (arms : Arms) : CompilerM Arms := do
  let enumTok ← advance
  let _ ← advance
  let varTok ← advance
  require (varTok.kind = .ident) "ERR_EXPECTED_VARIANT_NAME"
    "Expected variant identifier after '::'" "Enum variant identifier"
    "Match Pattern -> Enum Arm" "Specify arm as 'EnumName::Variant => \x7b ... \x7d'"
  let enumName ← text enumTok
  let varName ← text varTok
  match ← lookupEnumByName enumName with
  | none =>
    fail "ERR_UNKNOWN_ENUM_TYPE" "Enum type name is not defined" "Declared enum type name"
      "Match Pattern -> Enum Arm"
      "Declare enum before matching its variants, e.g. 'enum State \x7b ... \x7d'"
  | some enumIdx =>
    require (match arms.enumType with | some e => e = enumIdx | none => true)
      "ERR_ENUM_TYPE_MISMATCH" "Pattern enum type does not match matched expression enum type"
      "Matching enum type" "Match Pattern -> Enum Arm"
      "Use variants from the same enum type being matched"
    match ← lookupEnumVariant enumIdx varName with
    | none =>
      fail "ERR_UNKNOWN_ENUM_VARIANT" "Enum variant does not exist on enum type"
        "Valid enum variant name" "Match Pattern -> Enum Arm"
        "[AI_REPAIR_HINT] Valid variants are declared in the enum definition"
    | some variantIdx =>
      require (!arms.handled.contains variantIdx) "ERR_UNREACHABLE_PATTERN"
        "Duplicate or unreachable match pattern arm" "Unique pattern arm"
        "Statement -> Match Arm" "[AI_REPAIR_HINT] Remove duplicate or unreachable pattern arm"
      fatArrow "Specify arm as 'Enum::Variant => \x7b ... \x7d,'"
      let patReg ← allocTemp
      let _ ← emitImm16 .movImm patReg variantIdx
      let jzSkip ← compareArm matchReg patReg
      let jmpEnd ← guardedBody r jzSkip
      return { arms with
        enumType := some enumIdx
        handled := variantIdx :: arms.handled
        jumps := arms.jumps ++ [jmpEnd] }

/-- The parenthesised variable of an `Ok` or `Err` pattern. -/
def bindPattern (variant stage : String) (hint close arrow : String) : CompilerM Token := do
  let _ ← advance
  let opened ← matchToken .lParen
  require opened "ERR_EXPECTED_LPAREN" ("Expected '(' in " ++ variant ++ "($var) pattern")
    "Left parenthesis '('" stage hint
  let bindTok ← advance
  let closed ← matchToken .rParen
  require closed "ERR_UNCLOSED_PAREN"
    ("Expected ')' after " ++ variant ++ " pattern binding variable")
    "Right parenthesis ')'" stage close
  fatArrow arrow
  return bindTok

/-- Skip an arm when a test of the matched value holds. -/
def skipWhen (test : Native) (matchReg : ℕ) : CompilerM ℕ := do
  let testReg ← allocTemp
  emit .callNat testReg test.id matchReg
  let jnzSkip ← emitImm16 .jnz testReg 0
  freeTemp testReg
  return jnzSkip

/-- An `Ok` arm: it binds the payload in the register of the variable. -/
def okArm (r : Rec) (matchReg : ℕ) (arms : Arms) : CompilerM Arms := do
  let bindTok ← bindPattern "Ok" "Match Pattern -> Ok Variant"
    "Specify as 'Ok($val) => \x7b ... \x7d'" "Close Ok pattern with ')'"
    "Specify arm as 'Ok($var) => \x7b ... \x7d,'"
  let jnzSkip ← skipWhen .isErr matchReg
  let bindReg ← resolveVar bindTok
  let unwrapReg ← allocTemp
  emit .callNat unwrapReg Native.unwrap.id matchReg
  emit .movReg bindReg unwrapReg 0
  freeTemp unwrapReg
  let jmpEnd ← guardedBody r jnzSkip
  return { arms with hasOk := true, jumps := arms.jumps ++ [jmpEnd] }

/-- An `Err` arm: it binds the code in the register of the variable. -/
def errArm (r : Rec) (matchReg : ℕ) (arms : Arms) : CompilerM Arms := do
  let bindTok ← bindPattern "Err" "Match Pattern -> Err Variant"
    "Specify as 'Err($code) => \x7b ... \x7d'" "Close Err pattern with ')'"
    "Specify arm as 'Err($var) => \x7b ... \x7d,'"
  let jnzSkip ← skipWhen .isOk matchReg
  let bindReg ← resolveVar bindTok
  let tagReg ← allocTemp
  emitConst tagReg errTag
  emit .xor bindReg matchReg tagReg
  freeTemp tagReg
  let jmpEnd ← guardedBody r jnzSkip
  return { arms with hasErr := true, jumps := arms.jumps ++ [jmpEnd] }

/-- An arm that compares with the value of an expression. -/
def valueArm (r : Rec) (matchReg : ℕ) (arms : Arms) : CompilerM Arms := do
  let patReg ← allocTemp
  r.expression patReg
  fatArrow "Specify arm as 'value => \x7b ... \x7d,'"
  let jzSkip ← compareArm matchReg patReg
  let jmpEnd ← guardedBody r jzSkip
  return { arms with jumps := arms.jumps ++ [jmpEnd] }

/-- One arm; a wildcard ends the list. -/
def matchArm (r : Rec) (matchReg : ℕ) (arms : Arms) : CompilerM (ForInStep Arms) := do
  let patTok ← peek
  if patTok.kind = .rBrace ∨ patTok.kind = .eof then return .done arms
  require (arms.jumps.length < 16) "ERR_MAX_MATCH_ARMS_EXCEEDED"
    "Maximum match arms exceeded (up to 16 arms supported)" "<= 16 arms"
    "Statement -> Match Arm" "Reduce the number of match arms"
  let name ← text patTok
  let next ← peekAhead 1
  if patTok.kind = .underscore ∨ name = bytes "_" then
    let arms ← wildcardArm r arms
    return .done arms
  else if (patTok.kind = .ident ∨ patTok.kind = .intrinsicIdent) ∧ next.kind = .colonColon then
    let arms ← enumArm r matchReg arms
    return .yield arms
  else if name = bytes "Ok" then
    let arms ← okArm r matchReg arms
    return .yield arms
  else if name = bytes "Err" then
    let arms ← errArm r matchReg arms
    return .yield arms
  else
    let arms ← valueArm r matchReg arms
    return .yield arms

/-- The arms together cover every value. -/
def checkExhaustive (arms : Arms) : CompilerM Unit := do
  let st ← get
  match arms.enumType with
  | some enumIdx =>
    let count := ((st.decls.enums[enumIdx]?).map (·.variants.length)).getD 0
    require (arms.hasWildcard || (List.range count).all arms.handled.contains)
      "ERR_NON_EXHAUSTIVE_MATCH"
      "Non-exhaustive match: missing variant EnumName::MissingVariant"
      "Exhaustive match covering all enum variants" "Pattern Matching -> Exhaustiveness Check"
      "Add a match arm for 'EnumName::MissingVariant => ...' or add a wildcard arm '_ => ...'"
  | none =>
    if (arms.hasOk || arms.hasErr) && (!arms.hasOk || !arms.hasErr) && !arms.hasWildcard then
      fail "ERR_NON_EXHAUSTIVE_MATCH"
        ("Result pattern match is not exhaustive: must handle both 'Ok($val)' and 'Err($code)', " ++
          "or provide wildcard '_' arm")
        "Exhaustive Ok and Err arms or wildcard '_'" "Statement -> Match Block"
        "Add missing 'Ok(...)' / 'Err(...)' or wildcard '_ => \x7b ... \x7d' arm"
    else if !arms.hasOk && !arms.hasErr && !arms.hasWildcard then
      fail "ERR_NON_EXHAUSTIVE_MATCH"
        ("Value pattern match is not exhaustive: must provide a wildcard '_' fallback arm to " ++
          "ensure deterministic safety")
        "Wildcard '_' arm" "Statement -> Match Block"
        "Add wildcard arm '_ => \x7b ... \x7d' at the end of match statement"

/-- Land jumps at the current end of the code. -/
def landAll : List ℕ → CompilerM Unit
  | [] => pure ()
  | pos :: rest => do
    let done ← codeLen
    patchImm16 pos done
    landAll rest

/-- A `match` statement. -/
def matchStatement (r : Rec) : CompilerM Unit := do
  let _ ← advance
  setEnumType none
  let matchReg ← allocTemp
  r.expression matchReg
  let st ← get
  let opened ← matchToken .lBrace
  require opened "ERR_EXPECTED_LBRACE" "Missing opening brace '\x7b' after match expression"
    "Left brace '\x7b'" "Statement -> Match Block" "Add '\x7b' to open match arms"
  let arms ← loop r.fuel ⟨st.info.enumType, [], false, false, false, []⟩ (matchArm r matchReg)
  let closed ← matchToken .rBrace
  require closed "ERR_UNCLOSED_BRACE" "Missing closing brace '\x7d' in match statement"
    "Right brace '\x7d'" "Statement -> Match Block" "Add '\x7d' to close match statement"
  checkExhaustive arms
  landAll arms.jumps
  freeTemp matchReg
  skip .semi

end Compiler

end LatencyOS
