import LatencyOS.Compiler.Functions
import LatencyOS.Compiler.Lexer
import LatencyOS.Container

/-!
# The compiler

The statement dispatch, the knot of the mutual recursion, and the driver.
-/

namespace LatencyOS

namespace Compiler

/-! ## Directives -/

/-- The runtime modules an import enables. -/
def runtimeMask (name : List UInt8) : Option ℕ :=
  if name = bytes "tiny" then some runtimeTiny
  else if name = bytes "core" then some (runtimeCore ||| runtimeTiny)
  else if name = bytes "math" then some (runtimeMath ||| runtimeCore ||| runtimeTiny)
  else if name = bytes "fix" then some (runtimeFix ||| runtimeCore)
  else if name = bytes "sys" then some (runtimeSys ||| runtimeCore)
  else if name = bytes "net" then some (runtimeNet ||| runtimeSys ||| runtimeCore)
  else if name = bytes "vram" then some (runtimeVram ||| runtimeCore)
  else if name = bytes "gpu" then
    some (runtimeGpu ||| runtimeVram ||| runtimeSys ||| runtimeCore)
  else if name = bytes "term" ∨ name = bytes "tui" then
    some (runtimeTerm ||| runtimeFile ||| runtimeSys ||| runtimeCore ||| runtimeTiny)
  else if name = bytes "file" then some (runtimeFile ||| runtimeCore ||| runtimeTiny)
  else none

/-- `@import`: the first one turns off the default of all modules. -/
def importStatement : CompilerM Unit := do
  let _ ← advance
  let nameTok ← advance
  let rawName ← match nameTok.kind with
    | .stringLit => stringText nameTok
    | .ident => text nameTok
    | _ =>
      fail "ERR_IMPORT_SYNTAX"
        "Expected runtime module name after @import (e.g. @import \"core\";)"
        "Module name string or identifier" "Module Import -> Syntax"
        "Specify import as '@import \"core\";' or '@import \"math\";'"
  skip .semi
  match runtimeMask rawName with
  | some mask =>
    modifyDecls fun d => { d with
      hasExplicitImports := true
      importedRuntimes := (if d.hasExplicitImports then d.importedRuntimes else 0) ||| mask }
  | none =>
    fail "ERR_UNKNOWN_RUNTIME" "Unknown runtime module in @import"
      ("Supported runtimes: \"tiny\", \"core\", \"math\", \"fix\", \"sys\", \"net\", \"vram\", " ++
        "\"gpu\", \"term\", \"file\"")
      "Module Import -> Validation"
      ("Import one of: \"tiny\", \"core\", \"math\", \"fix\", \"sys\", \"net\", \"vram\", " ++
        "\"gpu\", \"term\", \"file\"")

/-- An optional budget with one parenthesised token. -/
def skipBudget : CompilerM Unit := do
  let k ← peekKind
  if k = .atBudget ∨ k = .budget then
    let _ ← advance
    if ← matchToken .lParen then
      let _ ← advance
      skip .rParen

/-- The number of tokens to the brace that closes an open one, that brace included. -/
def blockLength : List Token → ℕ → ℕ
  | [], _ => 0
  | _, 0 => 0
  | tok :: rest, depth + 1 =>
    match tok.kind with
    | .lBrace => 1 + blockLength rest (depth + 2)
    | .rBrace => 1 + blockLength rest depth
    | .eof => 0
    | _ => 1 + blockLength rest (depth + 1)

/-- `@test`: skipped by the compiler. -/
def testStatement (r : Rec) : CompilerM Unit := do
  let _ ← advance
  skip .stringLit
  skipBudget
  if ← matchToken .lBrace then
    let st ← get
    Prog.op (.setCurrent (st.current + blockLength (st.tokens.drop st.current) 1))
  else if ← matchToken .lParen then
    untilToken r.fuel .rParen do
      let _ ← advance
      return ()
    skip .rParen
    skip .semi
  skip .semi

/-- The parenthesised time of a contract clause, if it has one. -/
def contractTime (set : ℕ → Decls → Decls) : CompilerM Unit := do
  let _ ← advance
  if ← matchToken .lParen then
    let t ← advance
    match t.kind with
    | .timeLiteral ns => modifyDecls (set ns.toNat)
    | .number n => modifyDecls (set n.toNat)
    | _ => pure ()
    skip .rParen

/-- `@contract`. -/
def contractStatement (r : Rec) : CompilerM Unit := do
  let _ ← advance
  skip .colon
  untilToken r.fuel .semi do
    let k ← peekKind
    if k = .atWcet then contractTime fun ns d => { d with declaredScriptWcetNs := some ns }
    else if k = .atBudget ∨ k = .budget then
      contractTime fun ns d => { d with declaredScriptBudgetNs := some ns }
    else
      let _ ← advance
      return ()
  let semi ← matchToken .semi
  require semi "ERR_MISSING_SEMICOLON" "Missing semicolon ';' after @contract directive"
    "Semicolon ';'" "Statement -> @contract Directive" "Add ';' at end of @contract: ...;"

/-- A pipeline block. -/
def pipelineStatement (r : Rec) : CompilerM Unit := do
  let _ ← advance
  skip .colon
  let _ ← advance
  skipBudget
  if ← matchToken .semi then return ()
  if ← matchToken .lBrace then r.body

/-- An event block. -/
def vblankStatement (r : Rec) : CompilerM Unit := do
  let _ ← advance
  skip .colon
  if ← matchToken .lParen then
    let _ ← advance
    skip .rParen
  if ← matchToken .lBrace then
    r.body
    skip .semi

/-- Drop every handle that is owned. -/
def dropCaptured (states : ℕ → Typestate) (slot : ℕ) : Typestate :=
  if slot < 4 ∧ (states slot).isCaptured then .dropped else states slot

/-- A block with a deadline. -/
def withinStatement (r : Rec) : CompilerM Unit := do
  let _ ← advance
  let hasParen ← matchToken .lParen
  let timeTok ← advance
  if hasParen then skip .rParen
  let deadline ← match timeTok.kind with
    | .timeLiteral ns => pure ns
    | .number n => pure n
    | _ =>
      fail "ERR_EXPECTED_TIME_LITERAL"
        "Expected time duration literal after @within (e.g. 500us, 10ms, 100ns)"
        "Time literal with unit suffix (e.g. 500us, 5ms, 100ns)" "Statement -> @within Block"
        "Specify duration like @within(500us) \x7b ... \x7d"
  emitConst 0 deadline
  emit .withinStart 0 0 0
  let opened ← matchToken .lBrace
  require opened "ERR_EXPECTED_LBRACE" "Missing opening brace '\x7b' to begin within block"
    "Left brace '\x7b'" "Statement -> @within Block" "Add opening brace '\x7b' after @within(...)"
  r.body
  emit .withinEnd 0 0 0
  let bang ← matchToken .exclamation
  let orDrop ← if bang then pure true else matchToken .or
  if orDrop then
    if ← matchToken .drop then
      emit .drop 0 0 0
      let states ← handleStates
      setHandleStates (dropCaptured states)
  skip .semi

/-- `statement`. -/
def statement (r : Rec) : CompilerM Unit := do
  let k ← peekKind
  match k with
  | .semi =>
    let _ ← advance
    return ()
  | .atImport => importStatement
  | .atTest => testStatement r
  | .atContract => contractStatement r
  | .atPoolSize =>
    let _ ← advance
    declarePoolSize r.fuel
  | .atPipeline | .pipeline => pipelineStatement r
  | .atOnVblank | .on => vblankStatement r
  | .atWithin | .within => withinStatement r
  | .atWhile | .while => whileStatement r
  | .for | .atFor => forStatement r
  | .let => letStatement r
  | .atAssert => assertStatement r
  | .if => ifStatement r
  | .match => matchStatement r
  | .fn => fnStatement r
  | .return => returnStatement r
  | .struct =>
    let _ ← advance
    declareStructDef r.fuel
  | .enum =>
    let _ ← advance
    declareEnumDef r.fuel
  | .const =>
    let _ ← advance
    declareConstTable r.fuel
  | .varIdent | .hardwareIdent => identStatement r
  | _ => expressionStatement r

/-! ## The knot -/

/-- The functions at the bottom of the recursion bound. -/
def Rec.bottom (fuel : ℕ) : Rec where
  fuel := fuel
  statement := .throw .fuel
  expression := fun _ => .throw .fuel
  ternary := fun _ => .throw .fuel
  primary := fun _ => .throw .fuel

/-- The functions that call each other through `r`. -/
def Rec.next (r : Rec) : Rec where
  fuel := r.fuel
  statement := Compiler.statement r
  expression := Compiler.expression r
  ternary := Compiler.ternary r
  primary := Compiler.primary r

/-- The functions with a recursion bound. -/
def recN (fuel : ℕ) : ℕ → Rec
  | 0 => .bottom fuel
  | n + 1 => (recN fuel n).next

/-- The first handle still owned at the end of the source, and where it was captured. -/
def unconsumed (states : ℕ → Typestate) : Option (ℕ × ℕ) :=
  (List.range 4).findSome? fun i =>
    match states i with
    | .captured line col _ => some (line, col)
    | _ => none

/-- Every handle was consumed. -/
def checkConsumed : CompilerM Unit := do
  let states ← handleStates
  match unconsumed states with
  | none => pure ()
  | some pos =>
    .throw (.error
      { code := "ERR_LINEAR_UNCONSUMED_HANDLE"
        message := "Hardware handle captured but never sent/consumed (linear ownership violation)"
        line := pos.1
        col := pos.2
        byteOffset := 0
        tokenKind := .hardwareIdent
        tokenLen := 2
        expected := "Consume handle with @send(#handle)"
        stage := "Linear Ownership Verification"
        suggestion := "Add '@send(#handle);' along all execution paths to release DMA buffer" })

/-- The statements of a source. -/
def statements (r : Rec) : CompilerM Unit := untilToken r.fuel .eof r.statement

/-- `compile`. -/
def compile (r : Rec) : CompilerM Unit := do
  statements r
  checkConsumed
  emit .halt 0 0 0
  let st ← get
  let wcet := st.code.length / 4 * 3
  modifyDecls fun d => { d with totalSynthesizedWcetNs := wcet }
  require (match st.decls.declaredScriptWcetNs with | some ns => wcet ≤ ns | none => true)
    "ERR_WCET_CONTRACT_MISMATCH"
    "Synthesized script total WCET exceeds top-level @contract @wcet limit"
    "Fewer instructions or higher @contract @wcet bound" "Script Contract -> WCET Synthesis"
    "Optimize script logic or increase @contract @wcet limit"

end Compiler

/-- The program a compiler state holds. -/
def CompilerState.program (st : CompilerState) : Program :=
  ⟨st.code, st.strPool, st.constPool⟩

/-- The state in which the compiler finishes a source, within a recursion bound. -/
def compileState (checks : Bool) (fuel : ℕ) (src : List UInt8) : Except Abort CompilerState :=
  match Lexer.tokenize src checks maxTokens with
  | .error e => .error e
  | .ok tokens =>
    ((Compiler.compile (Compiler.recN fuel fuel)).run perform
      (CompilerState.new src tokens checks)).map (·.2)

/-- The program a source compiles to, within a recursion bound. -/
def compileSource (checks : Bool) (fuel : ℕ) (src : List UInt8) : Except Abort Program :=
  (compileState checks fuel src).map (·.program)

/-- `compile_pulse_to_binary`: the container of a source, in a buffer of `room` bytes. -/
def compilePulseToBinary (checks : Bool) (fuel : ℕ) (src : List UInt8) (room : ℕ) :
    Except Abort (List UInt8) := do
  let p ← compileSource checks fuel src
  let constPoolBytes := p.constPool.length * 8
  let totalSize := px64HeaderSize + p.code.length + p.strPool.length + constPoolBytes
  if room < totalSize then
    .error (.error (.simple "ERR_BINARY_BUFFER_OVERFLOW"
      "Output buffer too small for compiled px64 binary payload"))
  else .ok p.toBinary

end LatencyOS
