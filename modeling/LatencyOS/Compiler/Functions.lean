import LatencyOS.Compiler.Match

/-!
# Compiling functions

A function body is compiled in place, behind a jump over it.  Its variables are numbered
on from the caller's and go out of scope at its end; its parameters stand for the
registers they are passed in.
-/

namespace LatencyOS

namespace Compiler

/-- The scale of a parameter's type annotation, if it has a valid one. -/
def paramScale : CompilerM (Option ℕ) := do
  if ← matchToken .colon then
    let tTok ← advance
    if tTok.kind = .fixed then
      if ← matchToken .lt then
        let nTok ← advance
        let n := positiveOr nTok 0
        skip .gt
        return if 1 ≤ n ∧ n ≤ 31 then some n else none
  return none

/-- The parameter list of a function. -/
def paramList (r : Rec) : CompilerM (List Param) :=
  loop r.fuel [] fun params => do
    let k ← peekKind
    if k = .rParen ∨ k = .eof then return .done params
    let pTok ← advance
    require (pTok.kind = .varIdent) "ERR_EXPECTED_PARAM_VAR"
      "Expected variable identifier '$param' in parameter list" "Variable identifier '$param'"
      "Statement -> Function Parameters" "Use '$param' name in parameter list"
    let pName ← text pTok
    require (params.length < 4) "ERR_MAX_PARAMS_EXCEEDED"
      "Maximum parameter count exceeded (up to 4 parameters supported)" "<= 4 parameters"
      "Statement -> Function Parameters" "Reduce parameter count to 4 or fewer"
    let scale ← paramScale
    let params := params ++ [⟨pName.take 16, scale⟩]
    if ← matchToken .comma then return .yield params
    return .done params

/-- Change what is recorded about a function. -/
def modifyFn (fnIdx : ℕ) (f : FnMeta → FnMeta) : CompilerM Unit :=
  modifyDecls fun d => { d with functions := d.functions.modify fnIdx f }

/-- The `(` after a contract keyword. -/
def contractParen (message stage suggestion : String) : CompilerM Unit := do
  let opened ← matchToken .lParen
  require opened "ERR_CONTRACT_SYNTAX" message "Left parenthesis '('" stage suggestion

/-- A `@wcet` clause, after the keyword. -/
def wcetClause (fnIdx : ℕ) : CompilerM Unit := do
  contractParen "Expected '(' after @wcet" "Function Contract -> WCET"
    "Specify WCET as '@wcet(time)' (e.g. @wcet(50ns))"
  let t ← advance
  let wcetNs ← match t.kind with
    | .timeLiteral ns => pure (some ns.toNat)
    | .number n => pure (if 0 ≤ n.toInt then some n.toNat else none)
    | _ => pure none
  match wcetNs with
  | none =>
    fail "ERR_EXPECTED_TIME_LITERAL" "Expected time literal in @wcet"
      "Time literal (e.g. 50ns, 100us)" "Function Contract -> WCET"
      "Specify valid time literal in @wcet"
  | some ns =>
    let closed ← matchToken .rParen
    require closed "ERR_UNCLOSED_PAREN" "Missing closing parenthesis ')' in @wcet"
      "Closing parenthesis ')'" "Function Contract -> WCET" "Close @wcet with ')'"
    modifyFn fnIdx fun f => { f with declaredWcetNs := some ns }

/-- A `@requires` clause, after the keyword: checked on entry. -/
def requiresClause (r : Rec) : CompilerM Unit := do
  contractParen "Expected '(' after @requires" "Function Contract -> Precondition"
    "Specify precondition as '@requires(condition)'"
  let condReg ← allocTemp
  r.expression condReg
  let closed ← matchToken .rParen
  require closed "ERR_UNCLOSED_PAREN" "Missing closing parenthesis ')' in @requires condition"
    "Closing parenthesis ')'" "Function Contract -> Precondition"
    "Add matching ')' after @requires condition"
  emit .assert condReg 0 0
  freeTemp condReg

/-- The position after the closing parenthesis of an open one. -/
def closingPosition (tokens : List Token) : ℕ → ℕ → Option ℕ
  | 0, pos => some pos
  | depth + 1, pos =>
    match tokens with
    | [] => none
    | tok :: rest =>
      match tok.kind with
      | .lParen => closingPosition rest (depth + 2) (pos + 1)
      | .rParen => closingPosition rest depth (pos + 1)
      | .eof => none
      | _ => closingPosition rest (depth + 1) (pos + 1)

/-- Where an unclosed parenthesis leaves the parser. -/
def unclosedPosition (tokens : List Token) (pos : ℕ) : ℕ :=
  match tokens with
  | [] => pos
  | tok :: rest => if tok.kind = .eof then pos else unclosedPosition rest (pos + 1)

/-- An `@ensures` clause, after the keyword: remembered for every return. -/
def ensuresClause (fnIdx : ℕ) : CompilerM Unit := do
  contractParen "Expected '(' after @ensures" "Function Contract -> Postcondition"
    "Specify postcondition as '@ensures(condition)'"
  let st ← get
  let rest := st.tokens.drop st.current
  match closingPosition rest 1 st.current with
  | none =>
    Prog.op (.setCurrent (unclosedPosition rest st.current))
    fail "ERR_UNCLOSED_PAREN" "Missing closing parenthesis ')' in @ensures condition"
      "Closing parenthesis ')'" "Function Contract -> Postcondition"
      "Add matching ')' after @ensures condition"
  | some pos =>
    Prog.op (.setCurrent pos)
    modifyFn fnIdx fun f =>
      if f.ensures.length < 4 then { f with ensures := f.ensures ++ [(st.current, pos - 1)] }
      else f

/-- The contract clauses of a function. -/
def contracts (r : Rec) (fnIdx : ℕ) : CompilerM Unit :=
  loop r.fuel () fun _ => do
    if ← matchToken .atWcet then
      wcetClause fnIdx
      return .yield ()
    if ← matchToken .atRequires then
      requiresClause r
      return .yield ()
    if ← matchToken .atEnsures then
      ensuresClause fnIdx
      return .yield ()
    return .done ()

/-- The name of a new function. -/
def fnName : CompilerM (List UInt8) := do
  let nameTok ← advance
  require (nameTok.kind = .ident) "ERR_EXPECTED_FN_NAME"
    "Expected function identifier name after 'fn' keyword" "Function name identifier"
    "Statement -> Function Declaration" "Specify function name e.g. 'fn my_func()'"
  let name ← text nameTok
  let st ← get
  require (st.decls.functions.length < 16) "ERR_MAX_FNS_EXCEEDED"
    "Maximum static function limit reached (16 functions limit)" "Fewer functions"
    "Function Declaration" "Reduce distinct function declarations in script"
  require (st.decls.functions.all (·.name != name)) "ERR_FN_REDEFINED"
    "Function is already defined" "Unique function name" "Function Declaration"
    "Rename duplicate function"
  return name

/-- Record the estimated cost of a function and hold it against the declared one. -/
def checkFnWcet (fnIdx bodySize : ℕ) : CompilerM Unit := do
  let estimated := max (bodySize / 4 * 3) 10
  modifyFn fnIdx fun f => { f with estimatedWcetNs := estimated }
  let st ← get
  match st.decls.functions[fnIdx]? with
  | none => panic
  | some f =>
    if st.decls.wcetItems.length < 16 then
      modifyDecls fun d => { d with
        wcetItems := d.wcetItems ++ [⟨f.name, f.declaredWcetNs, estimated⟩] }
    require (match f.declaredWcetNs with | some ns => estimated ≤ ns | none => true)
      "ERR_WCET_CONTRACT_MISMATCH" "Function estimated WCET exceeds declared @wcet contract"
      "Lower instruction count or higher @wcet limit" "Function Contract -> WCET Verification"
      "Optimize function body instructions or increase declared @wcet bound"

/-- A function declaration. -/
def fnStatement (r : Rec) : CompilerM Unit := do
  let _ ← advance
  let name ← fnName
  let jmpSkip ← emitImm16 .jmp 0 0
  let entryPc ← codeLen
  let opened ← matchToken .lParen
  require opened "ERR_EXPECTED_LPAREN" "Expected '(' after function name"
    "Opening parenthesis '('" "Statement -> Function Declaration" "Add '(' after function name"
  let params ← paramList r
  let closed ← matchToken .rParen
  require closed "ERR_EXPECTED_RPAREN" "Expected ')' after parameter list"
    "Closing parenthesis ')'" "Statement -> Function Declaration"
    "Add ')' to close parameter list"
  if ← matchToken .arrow then
    let _ ← advance
    pure ()
  let st ← get
  let fnIdx := st.decls.functions.length
  modifyDecls fun d => { d with
    functions := d.functions ++ [⟨name.take 32, entryPc, params, [], none, 0⟩] }
  Prog.op (.enterFn fnIdx)
  contracts r fnIdx
  let opened ← matchToken .lBrace
  require opened "ERR_EXPECTED_LBRACE" "Expected opening brace '\x7b' before function body"
    "Left brace '\x7b'" "Statement -> Function Body" "Add '\x7b' to start function body"
  let bodyStart ← codeLen
  r.body
  let bodyEnd ← codeLen
  checkFnWcet fnIdx (bodyEnd - bodyStart)
  emitEnsuresChecks r fnIdx
  emit .ret 0 0 0
  Prog.op .leaveFn
  let done ← codeLen
  patchImm16 jmpSkip done

/-- A `return`: the value goes to register 0. -/
def returnStatement (r : Rec) : CompilerM Unit := do
  let _ ← advance
  let k ← peekKind
  if k ≠ .semi then r.expression 0
  skip .semi
  let st ← get
  match st.currentFn with
  | some fnIdx => emitEnsuresChecks r fnIdx
  | none => pure ()
  emit .ret 0 0 0

end Compiler

end LatencyOS
