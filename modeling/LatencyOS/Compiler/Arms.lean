import LatencyOS.Compiler.Literals

/-!
# The arms of a `match`

What the arms of a `match` are: the pattern each one starts with, and where the code of its body
stands.  The compilation of an arm is cut at its body: the head compares, binds and may skip the
body; the rest is the body and the jump to the end.

## Main definitions

* `CompilerState.patternAt`: the pattern an arm starts with.
* `matchArms`: the arms of a `match`.

## Main results

* `matchArm_eq`, `matchStatement_eq`: the cut.
-/

namespace LatencyOS

/-- What an arm compares the matched value with. -/
inductive Pattern
  /-- A variant of an enum, by its number. -/
  | variant (idx : ℕ)
  | ok
  | err
  /-- A number or a reference to a string. -/
  | literal (w : Word64)
  | wildcard
  /-- Any other expression. -/
  | other
  deriving DecidableEq

/-- A pattern matches a word: variants are 16-bit immediates, and literals compare as `==`
does. -/
def Pattern.Matches (str : Word64 → Option (List UInt8)) (v : Word64) : Pattern → Prop
  | variant idx => v = BitVec.ofNat 64 (idx % 65536)
  | ok => hasTag v errTag = false
  | err => hasTag v errTag = true
  | literal w => PX64VM.cmpEq str v w = true
  | wildcard => True
  | other => False

instance (str : Word64 → Option (List UInt8)) (v : Word64) :
    (p : Pattern) → Decidable (p.Matches str v)
  | .variant idx => inferInstanceAs (Decidable (v = BitVec.ofNat 64 (idx % 65536)))
  | .ok => inferInstanceAs (Decidable (hasTag v errTag = false))
  | .err => inferInstanceAs (Decidable (hasTag v errTag = true))
  | .literal w => inferInstanceAs (Decidable (PX64VM.cmpEq str v w = true))
  | .wildcard => isTrue trivial
  | .other => isFalse id

namespace CompilerState

/-- The word of a number. -/
def numberAt (st : CompilerState) (tok : Token) : Option Word64 :=
  match tok.kind with
  | .number n => some n
  | .timeLiteral ns => some ns
  | .floatLit scaledVal fracDigits =>
    some (BitVec.ofInt 64
      ((scaledVal.toInt * 2 ^ st.info.targetScale.getD 16).tdiv (Compiler.fracDivisor fracDigits)))
  | _ => none

/-- The word of a literal in front of an arrow: a number, one with a sign, or a string. -/
def literalAt (st : CompilerState) : Option Word64 :=
  if (st.peekAhead 1).kind = .fatArrow then
    if st.peek.kind = .stringLit then
      (st.literal? st.peek).map fun s => Compiler.loadedWord (st.poolOffset s) s.length
    else st.numberAt st.peek
  else if st.peek.kind = .minus ∧ (st.peekAhead 2).kind = .fatArrow then
    (st.numberAt (st.peekAhead 1)).map (- ·)
  else none

/-- The number of a variant. -/
def variantOf (st : CompilerState) (enumName varName : List UInt8) : Option ℕ := do
  let enumIdx ← st.decls.enums.findIdx? (·.name == enumName)
  (st.decls.enums[enumIdx]?).bind fun d => d.variants.findIdx? (· == varName)

/-- The pattern an arm starts with. -/
def patternAt (st : CompilerState) : Pattern :=
  let name := st.text? st.peek
  if st.peek.kind = .underscore ∨ name = some (bytes "_") then .wildcard
  else if (st.peek.kind = .ident ∨ st.peek.kind = .intrinsicIdent) ∧
      (st.peekAhead 1).kind = .colonColon then
    match name.bind fun n => (st.text? (st.peekAhead 2)).bind (st.variantOf n) with
    | some idx => .variant idx
    | none => .other
  else if name = some (bytes "Ok") then .ok
  else if name = some (bytes "Err") then .err
  else
    match st.literalAt with
    | some w => .literal w
    | none => .other

end CompilerState

namespace Compiler

/-! ## Heads -/

/-- An arm up to its body: the jump that skips the body, if there is one, and what is known of the
arms with it, its own jump aside. -/
structure ArmHead where
  skip : Option ℕ
  seen : Arms

/-- The statements of an arm. -/
def armStatements (r : Rec) : CompilerM Unit := do
  if ← matchToken .lBrace then r.body else r.statement
  skip .comma

theorem armBody_eq (r : Rec) : armBody r = armStatements r >>= fun _ => emitImm16 .jmp 0 0 := by
  simp only [armBody, armStatements, bind_assoc]
  refine bind_congr fun b => ?_
  cases b <;> simp only [bind_assoc, if_true, if_false, Bool.false_eq_true]

/-- The body of an arm, behind its head. -/
def ArmHead.rest (r : Rec) (h : ArmHead) : CompilerM Arms := do
  let jmpEnd ← match h.skip with
    | some pos => guardedBody r pos
    | none => armBody r
  return { h.seen with jumps := h.seen.jumps ++ [jmpEnd] }

/-- The head of a wildcard arm. -/
def wildcardHead (arms : Arms) : CompilerM ArmHead := do
  let _ ← advance
  fatArrow "Specify arm as 'pattern => \x7b ... \x7d,'"
  return ⟨none, { arms with hasWildcard := true }⟩

/-- The head of an enum arm. -/
def enumHead (matchReg : ℕ) (arms : Arms) : CompilerM ArmHead := do
  let enumTok ← advance
  let _ ← advance
  let varTok ← advance
  require (varTok.kind = .ident) "ERR_EXPECTED_VARIANT_NAME"
    "Expected variant identifier after '::'" "Enum variant identifier"
    "Match Pattern -> Enum Arm" "Specify arm as 'EnumName::Variant => \x7b ... \x7d'"
  let enumName ← text enumTok
  let varName ← text varTok
  match ← lookupEnumByName enumName with
  | none =>
    fail "ERR_UNKNOWN_ENUM_TYPE" "Enum type name is not defined" "Declared enum type name"
      "Match Pattern -> Enum Arm"
      "Declare enum before matching its variants, e.g. 'enum State \x7b ... \x7d'"
  | some enumIdx =>
    require (match arms.enumType with | some e => e = enumIdx | none => true)
      "ERR_ENUM_TYPE_MISMATCH" "Pattern enum type does not match matched expression enum type"
      "Matching enum type" "Match Pattern -> Enum Arm"
      "Use variants from the same enum type being matched"
    match ← lookupEnumVariant enumIdx varName with
    | none =>
      fail "ERR_UNKNOWN_ENUM_VARIANT" "Enum variant does not exist on enum type"
        "Valid enum variant name" "Match Pattern -> Enum Arm"
        "[AI_REPAIR_HINT] Valid variants are declared in the enum definition"
    | some variantIdx =>
      require (!arms.handled.contains variantIdx) "ERR_UNREACHABLE_PATTERN"
        "Duplicate or unreachable match pattern arm" "Unique pattern arm"
        "Statement -> Match Arm" "[AI_REPAIR_HINT] Remove duplicate or unreachable pattern arm"
      fatArrow "Specify arm as 'Enum::Variant => \x7b ... \x7d,'"
      let patReg ← allocTemp
      let _ ← emitImm16 .movImm patReg variantIdx
      let jzSkip ← compareArm matchReg patReg
      return ⟨some jzSkip, { arms with
        enumType := some enumIdx
        handled := variantIdx :: arms.handled }⟩

/-- The payload of an `Ok` value is bound. -/
def bindOk (matchReg : ℕ) (bindTok : Token) : CompilerM Unit := do
  let bindReg ← resolveVar bindTok
  let unwrapReg ← allocTemp
  emit .callNat unwrapReg Native.unwrap.id matchReg
  emit .movReg bindReg unwrapReg 0
  freeTemp unwrapReg

/-- The code of an `Err` value is bound. -/
def bindErr (matchReg : ℕ) (bindTok : Token) : CompilerM Unit := do
  let bindReg ← resolveVar bindTok
  let tagReg ← allocTemp
  emitConst tagReg errTag
  emit .xor bindReg matchReg tagReg
  freeTemp tagReg

/-- The head of an `Ok` arm. -/
def okHead (matchReg : ℕ) (arms : Arms) : CompilerM ArmHead := do
  let bindTok ← bindPattern "Ok" "Match Pattern -> Ok Variant"
    "Specify as 'Ok($val) => \x7b ... \x7d'" "Close Ok pattern with ')'"
    "Specify arm as 'Ok($var) => \x7b ... \x7d,'"
  let jnzSkip ← skipWhen .isErr matchReg
  bindOk matchReg bindTok
  return ⟨some jnzSkip, { arms with hasOk := true }⟩

/-- The head of an `Err` arm. -/
def errHead (matchReg : ℕ) (arms : Arms) : CompilerM ArmHead := do
  let bindTok ← bindPattern "Err" "Match Pattern -> Err Variant"
    "Specify as 'Err($code) => \x7b ... \x7d'" "Close Err pattern with ')'"
    "Specify arm as 'Err($var) => \x7b ... \x7d,'"
  let jnzSkip ← skipWhen .isOk matchReg
  bindErr matchReg bindTok
  return ⟨some jnzSkip, { arms with hasErr := true }⟩

/-- The head of an arm that compares with the value of an expression. -/
def valueHead (r : Rec) (matchReg : ℕ) (arms : Arms) : CompilerM ArmHead := do
  let patReg ← allocTemp
  r.expression patReg
  fatArrow "Specify arm as 'value => \x7b ... \x7d,'"
  let jzSkip ← compareArm matchReg patReg
  return ⟨some jzSkip, arms⟩

/-- The head of the next arm, if there is one. -/
def armHead (r : Rec) (matchReg : ℕ) (arms : Arms) : CompilerM (Option ArmHead) := do
  let patTok ← peek
  if patTok.kind = .rBrace ∨ patTok.kind = .eof then return none
  require (arms.jumps.length < 16) "ERR_MAX_MATCH_ARMS_EXCEEDED"
    "Maximum match arms exceeded (up to 16 arms supported)" "<= 16 arms"
    "Statement -> Match Arm" "Reduce the number of match arms"
  let name ← text patTok
  let next ← peekAhead 1
  if patTok.kind = .underscore ∨ name = bytes "_" then some <$> wildcardHead arms
  else if (patTok.kind = .ident ∨ patTok.kind = .intrinsicIdent) ∧ next.kind = .colonColon then
    some <$> enumHead matchReg arms
  else if name = bytes "Ok" then some <$> okHead matchReg arms
  else if name = bytes "Err" then some <$> errHead matchReg arms
  else some <$> valueHead r matchReg arms

/-! ## The cut -/

variable (r : Rec) (matchReg : ℕ) (arms : Arms)

/-- What is left of an arm behind its head; a wildcard ends the list. -/
def ArmHead.finish (r : Rec) (h : ArmHead) : CompilerM (ForInStep Arms) := do
  let seen ← h.rest r
  return if h.skip.isNone then .done seen else .yield seen

theorem wildcardArm_eq : (do let seen ← wildcardArm r arms; return .done seen) =
    wildcardHead arms >>= ArmHead.finish r := by
  simp only [wildcardArm, wildcardHead, ArmHead.finish, ArmHead.rest, bind_assoc, pure_bind,
    Option.isNone_none, if_true]

theorem enumArm_eq : (do let seen ← enumArm r matchReg arms; return .yield seen) =
    enumHead matchReg arms >>= ArmHead.finish r := by
  simp only [enumArm, enumHead, bind_assoc]
  iterate 6 refine bind_congr fun _ => ?_
  refine bind_congr fun enumIdx => ?_
  cases enumIdx with
  | none => rfl
  | some enumIdx =>
    simp only [bind_assoc]
    refine bind_congr fun _ => bind_congr fun variantIdx => ?_
    cases variantIdx with
    | none => rfl
    | some variantIdx =>
      simp only [bind_assoc, pure_bind, ArmHead.finish, ArmHead.rest, Option.isNone_some,
        Bool.false_eq_true, if_false]

theorem okArm_eq : (do let seen ← okArm r matchReg arms; return .yield seen) =
    okHead matchReg arms >>= ArmHead.finish r := by
  simp only [okArm, okHead, bindOk, ArmHead.finish, ArmHead.rest, bind_assoc, pure_bind,
    Option.isNone_some, Bool.false_eq_true, if_false]

theorem errArm_eq : (do let seen ← errArm r matchReg arms; return .yield seen) =
    errHead matchReg arms >>= ArmHead.finish r := by
  simp only [errArm, errHead, bindErr, ArmHead.finish, ArmHead.rest, bind_assoc, pure_bind,
    Option.isNone_some, Bool.false_eq_true, if_false]

theorem valueArm_eq : (do let seen ← valueArm r matchReg arms; return .yield seen) =
    valueHead r matchReg arms >>= ArmHead.finish r := by
  simp only [valueArm, valueHead, ArmHead.finish, ArmHead.rest, bind_assoc, pure_bind,
    Option.isNone_some, Bool.false_eq_true, if_false]

/-- The next arm is its head and what is left of it. -/
theorem matchArm_eq : matchArm r matchReg arms = (do
    match ← armHead r matchReg arms with
    | none => return .done arms
    | some h => h.finish r) := by
  have hsome (p : CompilerM ArmHead) : (some <$> p >>= fun h => (match h with
      | none => pure (.done arms)
      | some h => h.finish r : CompilerM (ForInStep Arms))) = p >>= ArmHead.finish r := by
    rw [map_eq_pure_bind, bind_assoc]
    exact bind_congr fun h => pure_bind _ _
  simp only [matchArm, armHead, bind_assoc]
  refine bind_congr fun patTok => ?_
  split
  · rfl
  · simp only [bind_assoc]
    refine bind_congr fun _ => bind_congr fun name => bind_congr fun next => ?_
    repeat' split
    · exact (wildcardArm_eq r arms).trans (hsome _).symm
    · exact (enumArm_eq r matchReg arms).trans (hsome _).symm
    · exact (okArm_eq r matchReg arms).trans (hsome _).symm
    · exact (errArm_eq r matchReg arms).trans (hsome _).symm
    · exact (valueArm_eq r matchReg arms).trans (hsome _).symm

/-- A `match` up to its first arm: the register of the matched value, and what is known of the
arms. -/
def matchHead (r : Rec) : CompilerM (ℕ × Arms) := do
  let _ ← advance
  setEnumType none
  let matchReg ← allocTemp
  r.expression matchReg
  let st ← get
  let opened ← matchToken .lBrace
  require opened "ERR_EXPECTED_LBRACE" "Missing opening brace '\x7b' after match expression"
    "Left brace '\x7b'" "Statement -> Match Block" "Add '\x7b' to open match arms"
  return (matchReg, ⟨st.info.enumType, [], false, false, false, []⟩)

/-- A `match` behind its last arm. -/
def matchTail (matchReg : ℕ) (arms : Arms) : CompilerM Unit := do
  let closed ← matchToken .rBrace
  require closed "ERR_UNCLOSED_BRACE" "Missing closing brace '\x7d' in match statement"
    "Right brace '\x7d'" "Statement -> Match Block" "Add '\x7d' to close match statement"
  checkExhaustive arms
  landAll arms.jumps
  freeTemp matchReg
  skip .semi

theorem matchStatement_eq : matchStatement r = (do
    let h ← matchHead r
    let arms ← loop r.fuel h.2 (matchArm r h.1)
    matchTail h.1 arms) := by
  simp only [matchStatement, matchHead, matchTail, bind_assoc, pure_bind]

/-! ## The arms -/

/-- An arm of a `match`. -/
structure Arm where
  pattern : Pattern
  /-- Whether the register of the matched value is still taken where the arm starts. -/
  reserved : Bool
  /-- Where the code of the body starts. -/
  body : ℕ
  /-- Where it ends, with a jump behind the `match`. -/
  stop : ℕ

/-- The arms from a state on. -/
def armsFrom (r : Rec) (matchReg : ℕ) : ℕ → Arms → CompilerState → List Arm
  | 0, _, _ => []
  | n + 1, arms, st =>
    match (armHead r matchReg arms).run perform st with
    | .ok (some h, s) =>
      match (h.rest r).run perform s with
      | .ok (seen, t) =>
        ⟨st.patternAt, st.tempUsed (15 - matchReg), s.code.length, t.code.length - 4⟩ ::
          if h.skip.isNone then [] else armsFrom r matchReg n seen t
      | .error _ => []
    | _ => []

/-- The arms of a `match`. -/
def matchArms (r : Rec) (st : CompilerState) : List Arm :=
  match (matchHead r).run perform st with
  | .ok (h, s) => armsFrom r h.1 r.fuel h.2 s
  | .error _ => []

end Compiler

end LatencyOS
