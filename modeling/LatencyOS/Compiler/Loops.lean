import LatencyOS.Compiler.Expression

/-!
# Compiling loops, branches and assertions

Jumps are emitted before their targets are known and patched once the code they skip has
been emitted.  Around every branch and loop the ownership states of the handles are
compared.
-/

namespace LatencyOS

namespace Compiler

/-- A relation between states holds at every slot. -/
def allSlots (rel : Typestate → Typestate → Bool) (s t : ℕ → Typestate) : Bool :=
  (List.range 4).all fun i => rel (s i) (t i)

/-- All ownership states. -/
def handleStates : CompilerM (ℕ → Typestate) := do
  let st ← get
  return st.handleStates

/-- Loop confinement: a handle captured in a loop is consumed in the same iteration. -/
def checkConfined (before : ℕ → Typestate) (hint : String) : CompilerM Unit := do
  let after ← handleStates
  require (allSlots Typestate.confined before after) "ERR_TYPESTATE_MISMATCH"
    ("Loop body violates handle confinement (handle captured inside loop must be consumed " ++
      "within the same iteration)")
    "Consistent handle state across loop iterations" "Typestate Flow Verification" hint

/-- Skip tokens up to the closing parenthesis of an open one. -/
def skipToClosing (fuel : ℕ) : CompilerM Unit := do
  let _ ← loop fuel 1 fun depth => do
    let k ← peekKind
    if k = .eof then return .done depth
    else if k = .rParen then
      if depth = 1 then return .done depth
      let _ ← advance
      return .yield (depth - 1)
    else
      let _ ← advance
      return .yield (if k = .lParen then depth + 1 else depth)
  return ()

/-- The invariant of a loop, by the position of its first token. -/
def loopInvariant (r : Rec) : CompilerM (Option ℕ) := do
  if ← matchToken .atInvariant then
    let opened ← matchToken .lParen
    require opened "ERR_INVARIANT_SYNTAX" "Expected '(' after @invariant" "Left parenthesis '('"
      "Loop Contract -> Invariant" "Specify loop invariant as '@invariant(condition)'"
    let st ← get
    skipToClosing r.fuel
    skip .rParen
    return some st.current
  return none

/-- Compile a condition again from its first token and assert it. -/
def assertAt (r : Rec) (startTok : ℕ) : CompilerM Unit := do
  Prog.op (.setCurrent startTok)
  let condReg ← allocTemp
  r.expression condReg
  emit .assert condReg 0 0
  freeTemp condReg

/-- `emit_invariant_check`, if there is an invariant. -/
def emitInvariantCheck (r : Rec) : Option ℕ → CompilerM Unit
  | none => pure ()
  | some startTok => do
    let st ← get
    assertAt r startTok
    Prog.op (.setCurrent st.current)

/-- Assert conditions one after the other, each compiled again from its first token. -/
def assertAll (r : Rec) : List (ℕ × ℕ) → CompilerM Unit
  | [] => pure ()
  | clause :: rest => do
    assertAt r clause.1
    assertAll r rest

/-- `emit_ensures_checks`. -/
def emitEnsuresChecks (r : Rec) (fnIdx : ℕ) : CompilerM Unit := do
  let st ← get
  assertAll r (((st.decls.functions[fnIdx]?).map (·.ensures)).getD [])
  Prog.op (.setCurrent st.current)

/-- A `while` loop: the condition goes to register 0. -/
def whileStatement (r : Rec) : CompilerM Unit := do
  let _ ← advance
  let loopStart ← codeLen
  skip .lParen
  let k ← peekKind
  require (match k with | .number n => n = 0#64 | _ => true) "ERR_UNBOUNDED_LOOP"
    ("Constant infinite loop (@while(1)) rejected: loops must have statically bounded monotonic " ++
      "conditions")
    "Bounded condition e.g. @while($i < 100)" "Static Loop Bound Verification"
    "Replace infinite loop with bounded loop counter"
  r.expression 0
  skip .rParen
  let inv ← loopInvariant r
  emitInvariantCheck r inv
  let jzPos ← emitInst .jz 0 0 0
  let before ← handleStates
  let opened ← matchToken .lBrace
  require opened "ERR_EXPECTED_LBRACE" "Missing opening brace '\x7b' after while condition"
    "Left brace '\x7b'" "Statement -> While Loop" "Add opening brace '\x7b' after while condition"
  r.body
  emitInvariantCheck r inv
  checkConfined before
    "Ensure handle captured in while loop is consumed with @send before next iteration"
  let _ ← emitImm16 .jmp 0 loopStart
  let done ← codeLen
  patchImm16 jzPos done

/-- A bound of a `for` loop. -/
def forBound (message expected suggestion : String) : CompilerM Word64 := do
  let tok ← peek
  match tok.kind with
  | .number n =>
    let _ ← advance
    return n
  | .timeLiteral ns =>
    let _ ← advance
    return ns
  | _ =>
    fail "ERR_FOR_NON_CONSTANT_BOUND" message expected "Statement -> For Loop" suggestion

/-- The number of iterations of a `for` loop. -/
def forIterations (startVal endVal : Word64) : CompilerM ℕ := Prog.op (.rangeLen startVal endVal)

/-- A `for` loop: the bound stays in a temporary for the whole body.  A spilled loop
variable is addressed as register 255. -/
def forStatement (r : Rec) : CompilerM Unit := do
  let _ ← advance
  let hasParen ← matchToken .lParen
  let k ← peekKind
  require (k = .varIdent) "ERR_FOR_EXPECTED_VAR"
    "Expected variable identifier (e.g., $i) after 'for'" "Variable identifier '$var'"
    "Statement -> For Loop" "Specify loop variable, e.g., 'for $i in 0..10'"
  let varTok ← advance
  let varReg ← resolveVar varTok
  let isIn ← matchToken .in
  require isIn "ERR_FOR_EXPECTED_IN" "Expected 'in' keyword after loop variable" "'in'"
    "Statement -> For Loop" "Add 'in' keyword after variable, e.g., 'for $i in 0..10'"
  let startVal ← forBound
    "Static range for loop requires compile-time constant start bound (0..N)"
    "Integer literal e.g. '0'"
    "Use constant literal for loop range start, or use 'while' for dynamic bounds"
  let dots ← matchToken .dotDot
  require dots "ERR_FOR_EXPECTED_DOTDOT" "Expected range operator '..' between loop bounds" "'..'"
    "Statement -> For Loop" "Specify range with '..', e.g., '0..100'"
  let endVal ← forBound
    "Static range for loop requires compile-time constant end bound (0..N)"
    "Integer literal e.g. '100'"
    "Use constant literal for loop range end, or use 'while' for dynamic bounds"
  if hasParen then skip .rParen
  let iterations ← forIterations startVal endVal
  emitConst varReg startVal
  let endReg ← allocTemp
  emitConst endReg endVal
  let loopStart ← codeLen
  emit .cmpLt 0 varReg endReg
  let jzPos ← emitInst .jz 0 0 0
  let inv ← loopInvariant r
  emitInvariantCheck r inv
  let opened ← matchToken .lBrace
  require opened "ERR_EXPECTED_LBRACE" "Missing opening brace '\x7b' for for loop body"
    "Left brace '\x7b'" "Statement -> For Loop" "Add opening brace '\x7b' after for loop range"
  let before ← handleStates
  let bodyStart ← codeLen
  r.body
  emitInvariantCheck r inv
  let bodyEnd ← codeLen
  checkConfined before
    "Ensure handle captured in for loop is consumed with @send before next iteration"
  require (min (((bodyEnd - bodyStart) / 4 + 4) * iterations) (2 ^ 64 - 1) ≤ maxVmSteps)
    "ERR_FOR_WCET_EXCEEDED" "Static loop WCET exceeds MAX_VM_STEPS step limit (10,000 steps)"
    "Loop with total steps <= 10,000" "Static Loop WCET Verification"
    "Reduce loop upper bound or simplify loop body to satisfy real-time step budget"
  emit .addi varReg varReg 1
  let _ ← emitImm16 .jmp 0 loopStart
  let done ← codeLen
  patchImm16 jzPos done
  freeTemp endReg

/-- `@assert`. -/
def assertStatement (r : Rec) : CompilerM Unit := do
  let _ ← advance
  skip .lParen
  r.expression 0
  skip .rParen
  skip .semi
  emit .assert 0 0 0

/-- What follows `else`: another `if`, or a block. -/
def elseBranch (r : Rec) : CompilerM Unit := do
  let k ← peekKind
  if k = .if then r.statement
  else
    let opened ← matchToken .lBrace
    require opened "ERR_EXPECTED_LBRACE" "Missing opening brace '\x7b' after else keyword"
      "Left brace '\x7b' or 'if'" "Statement -> Else Branch"
      "Add opening brace '\x7b' or 'if' after else"
    r.body

/-- An `if` statement. -/
def ifStatement (r : Rec) : CompilerM Unit := do
  let _ ← advance
  skip .lParen
  r.expression 0
  skip .rParen
  let jzPos ← emitInst .jz 0 0 0
  let before ← handleStates
  let opened ← matchToken .lBrace
  require opened "ERR_EXPECTED_LBRACE" "Missing opening brace '\x7b' after if condition"
    "Left brace '\x7b'" "Statement -> If Branch" "Add opening brace '\x7b' after if (...) condition"
  r.body
  let statesIf ← handleStates
  let statesElse ← if ← matchToken .else then do
      let jmpPos ← emitInst .jmp 0 0 0
      let elseStart ← codeLen
      patchImm16 jzPos elseStart
      setHandleStates before
      elseBranch r
      let done ← codeLen
      patchImm16 jmpPos done
      handleStates
    else do
      let done ← codeLen
      patchImm16 jzPos done
      pure before
  require (allSlots Typestate.merges statesIf statesElse) "ERR_TYPESTATE_MISMATCH"
    ("Branches diverge in hardware handle typestate (both branches must leave handle in the " ++
      "same state)")
    "Consistent handle state across branches" "Typestate Flow Verification"
    "Ensure handle is consumed/sent in both if and else branches"
  setHandleStates statesIf

end Compiler

end LatencyOS
