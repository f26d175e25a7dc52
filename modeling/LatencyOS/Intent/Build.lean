import LatencyOS.Compiler.Lexer
import LatencyOS.Fs.PathBuffer
import LatencyOS.Lib.Str

/-!
# Building the intent IR

`build_intent_ir` goes over the tokens of a script and picks out pipelines, tasks and functions;
everything else is passed over.  Execution times are estimated from the budgets, and the constraints
are made from the pipelines at the end.

The loops take what is left of the tokens; each turn takes a token, so their number bounds the
turns.
-/

namespace LatencyOS

/-!
## The intent IR

What `build_intent_ir` reads out of a script: pipelines with their stages, tasks, functions, the
constraints checked on them and a summary.
-/

inductive MemoryDomain
  | cpu | gpuVram | pmdDma
  deriving DecidableEq

def MemoryDomain.asStr : MemoryDomain → String
  | cpu => "cpu-resident"
  | gpuVram => "gpu-resident"
  | pmdDma => "pmd-dma-resident"

structure StageIr where
  name : Str
  core : ℕ
  budgetNs : ℕ
  wcetNs : ℕ
  zeroCopy : Bool
  input : Option Str
  output : Option Str
  hardware : Option Str
  memoryDomain : MemoryDomain
  deriving DecidableEq

structure PipelineIr where
  name : Str
  stages : List StageIr
  totalBudgetNs : ℕ
  totalWcetNs : ℕ
  valid : Bool
  deriving DecidableEq

structure TaskIr where
  name : Str
  core : Option ℕ
  budgetNs : Option ℕ
  wcetNs : ℕ
  zeroCopy : Bool
  inputs : List Str
  outputs : List Str
  memoryDomain : MemoryDomain
  deriving DecidableEq

structure FunctionIr where
  name : Str
  params : List Str
  returnType : Str
  declaredWcetNs : Option ℕ
  estimatedWcetNs : ℕ
  hasPrecondition : Bool
  hasPostcondition : Bool
  deriving DecidableEq

structure ConstraintIr where
  target : Str
  kind : Str
  required : Str
  provided : Str
  satisfied : Bool
  reason : Str
  deriving DecidableEq

structure VerificationSummary where
  status : Str
  totalConstraints : ℕ
  satisfiedConstraints : ℕ
  pipelineDeadlineMet : Bool
  zeroCopyVerified : Bool
  deriving DecidableEq

structure IntentIr where
  version : Str
  moduleName : Str
  pipelines : List PipelineIr
  tasks : List TaskIr
  functions : List FunctionIr
  constraints : List ConstraintIr
  verification : VerificationSummary
  deriving DecidableEq

open Format

namespace Intent

/-! ## Arithmetic of 64 bits -/

/-- A result of unsigned arithmetic: a build with overflow checks panics where it does not fit. -/
def wrapU64 (checks : Bool) (n : ℕ) : Except Abort ℕ :=
  if n < 2 ^ 64 then .ok n
  else if checks then .error .panic
  else .ok (n % 2 ^ 64)

/-! ## Names and braces -/

/-- `get_token_str` -/
def getTokenStr (src : Str) (tok : Token) : Str :=
  if tok.start + tok.len ≤ (utf8 src).length then
    (Fs.fromUtf8 (((utf8 src).drop tok.start).take tok.len)).getD []
  else []

def syntaxError (code message : String) : Abort := .error (.simple code message)

/-- A name and an opening brace, and what is behind them. -/
def header (src : Str) (code nameMessage braceMessage : String) :
    List Token → Except Abort (Str × List Token)
  | [] => .error (syntaxError code nameMessage)
  | name :: rest =>
    if name.kind ≠ .ident then .error (syntaxError code nameMessage)
    else
      match rest with
      | [] => .error (syntaxError code braceMessage)
      | brace :: rest =>
        if brace.kind ≠ .lBrace then .error (syntaxError code braceMessage)
        else .ok (getTokenStr src name, rest)

def pipelineHeader (src : Str) : List Token → Except Abort (Str × List Token) :=
  header src "ERR_SYNTAX_PIPELINE" "Expected pipeline name" "Expected '\x7b' after pipeline name"

def stageHeader (src : Str) : List Token → Except Abort (Str × List Token) :=
  header src "ERR_SYNTAX_STAGE" "Expected stage name" "Expected '\x7b' after stage name"

def taskHeader (src : Str) : List Token → Except Abort (Str × List Token) :=
  header src "ERR_SYNTAX_TASK" "Expected task name" "Expected '\x7b' after task name"

/-- A closing brace is passed over. -/
def skipBrace : List Token → List Token
  | [] => []
  | tok :: rest => if tok.kind = .rBrace then rest else tok :: rest

/-! ## Stages -/

/-- What the fields of a stage say. -/
structure StageFields where
  core : ℕ
  budgetNs : ℕ
  zeroCopy : Bool
  input : Option Str
  output : Option Str
  hardware : Option Str
  memoryDomain : MemoryDomain
  deriving DecidableEq

/-- A stage without fields. -/
def StageFields.default : StageFields := ⟨0, 50000, false, none, none, none, .cpu⟩

namespace StageFields
variable (f : StageFields)

/-- `core`: a number, the last core at most. -/
def setCore : TokenKind → StageFields
  | .number n => { f with core := min (n.toNat % 256) 3 }
  | _ => f

def setBudget : TokenKind → StageFields
  | .timeLiteral ns => { f with budgetNs := ns.toNat }
  | _ => f

def setZeroCopy : StageFields := { f with zeroCopy := true, memoryDomain := .pmdDma }

end StageFields

/-- The loop over the fields of a stage, up to a closing brace. -/
def stageFields (src : Str) (f : StageFields) : List Token → StageFields × List Token
  | [] => (f, [])
  | [tok] =>
    if tok.kind = .rBrace then (f, [tok])
    else if tok.kind = .zeroCopy then (f.setZeroCopy, [])
    else (f, [])
  | tok :: next :: rest =>
    if tok.kind = .rBrace then (f, tok :: next :: rest)
    else if tok.kind = .core then stageFields src (f.setCore next.kind) rest
    else if tok.kind = .budget then stageFields src (f.setBudget next.kind) rest
    else if tok.kind = .zeroCopy then stageFields src f.setZeroCopy (next :: rest)
    else if tok.kind = .hardware ∧ next.kind = .ident then
      stageFields src
        { f with hardware := some (getTokenStr src next), memoryDomain := .gpuVram } rest
    else if tok.kind = .input ∧ (next.kind = .ident ∨ next.kind = .hardwareIdent) then
      stageFields src { f with input := some (getTokenStr src next) } rest
    else if tok.kind = .output ∧ (next.kind = .ident ∨ next.kind = .hardwareIdent) then
      stageFields src { f with output := some (getTokenStr src next) } rest
    else stageFields src f (next :: rest)

/-- The stages of a pipeline so far, and the sums over them. -/
structure Stages where
  stages : List StageIr
  totalBudget : ℕ
  totalWcet : ℕ
  deriving DecidableEq

/-- A stage is added: its execution time is estimated as 80% of its budget. -/
def Stages.add (checks : Bool) (acc : Stages) (name : Str) (f : StageFields) :
    Except Abort Stages := do
  let scaled ← wrapU64 checks (f.budgetNs * 8)
  let totalBudget ← wrapU64 checks (acc.totalBudget + f.budgetNs)
  let totalWcet ← wrapU64 checks (acc.totalWcet + scaled / 10)
  return {
    stages := acc.stages ++ [⟨name, f.core, f.budgetNs, scaled / 10, f.zeroCopy, f.input, f.output,
      f.hardware, f.memoryDomain⟩]
    totalBudget := totalBudget
    totalWcet := totalWcet }

/-- The loop over the body of a pipeline, up to a closing brace. -/
def pipelineBody (checks : Bool) (src : Str) :
    ℕ → List Token → Stages → Except Abort (Stages × List Token)
  | 0, rest, acc => .ok (acc, rest)
  | _, [], acc => .ok (acc, [])
  | n + 1, tok :: rest, acc =>
    if tok.kind = .rBrace then .ok (acc, tok :: rest)
    else if tok.kind = .stage then do
      let (name, rest) ← stageHeader src rest
      let (f, rest) := stageFields src .default rest
      let acc ← acc.add checks name f
      pipelineBody checks src n (skipBrace rest) acc
    else pipelineBody checks src n rest acc

/-! ## Tasks -/

/-- What the fields of a task say. -/
structure TaskFields where
  core : Option ℕ
  budgetNs : Option ℕ
  zeroCopy : Bool
  inputs : List Str
  outputs : List Str
  deriving DecidableEq

def TaskFields.default : TaskFields := ⟨none, none, false, [], []⟩

namespace TaskFields
variable (f : TaskFields)

def setCore : TokenKind → TaskFields
  | .number n => { f with core := some (n.toNat % 256) }
  | _ => f

def setBudget : TokenKind → TaskFields
  | .timeLiteral ns => { f with budgetNs := some ns.toNat }
  | _ => f

/-- The budget the estimate is made from. -/
def budget : ℕ := f.budgetNs.getD 100000

end TaskFields

/-- The loop over the fields of a task, up to a closing brace. -/
def taskFields (src : Str) (f : TaskFields) : List Token → TaskFields × List Token
  | [] => (f, [])
  | [tok] =>
    if tok.kind = .rBrace then (f, [tok])
    else if tok.kind = .zeroCopy then ({ f with zeroCopy := true }, [])
    else (f, [])
  | tok :: next :: rest =>
    if tok.kind = .rBrace then (f, tok :: next :: rest)
    else if tok.kind = .core then taskFields src (f.setCore next.kind) rest
    else if tok.kind = .budget then taskFields src (f.setBudget next.kind) rest
    else if tok.kind = .zeroCopy then taskFields src { f with zeroCopy := true } (next :: rest)
    else if tok.kind = .input ∧ next.kind = .ident then
      taskFields src { f with inputs := f.inputs ++ [getTokenStr src next] } rest
    else if tok.kind = .output ∧ next.kind = .ident then
      taskFields src { f with outputs := f.outputs ++ [getTokenStr src next] } rest
    else taskFields src f (next :: rest)

/-- A task, whose execution time is estimated as 70% of its budget. -/
def finishTask (checks : Bool) (name : Str) (f : TaskFields) : Except Abort TaskIr := do
  let scaled ← wrapU64 checks (f.budget * 7)
  return ⟨name, f.core, f.budgetNs, scaled / 10, f.zeroCopy, f.inputs, f.outputs,
    if f.zeroCopy then .pmdDma else .cpu⟩

/-! ## Scripts -/

/-- What has been picked out so far. -/
structure Items where
  pipelines : List PipelineIr
  tasks : List TaskIr
  functions : List FunctionIr
  deriving DecidableEq

def functionIr (name : Str) : FunctionIr := ⟨name, [], text "i64", some 5000, 3200, false, false⟩

/-- A function is its name behind `fn`. -/
def Items.addFunction (items : Items) (src : Str) : List Token → Items
  | tok :: _ =>
    if tok.kind = .ident then
      { items with functions := items.functions ++ [functionIr (getTokenStr src tok)] }
    else items
  | [] => items

/-- The loop over the tokens. -/
def buildLoop (checks : Bool) (src : Str) : ℕ → List Token → Items → Except Abort Items
  | 0, _, items => .ok items
  | _, [], items => .ok items
  | n + 1, tok :: rest, items =>
    if tok.kind = .pipeline then do
      let (name, rest) ← pipelineHeader src rest
      let (acc, rest) ← pipelineBody checks src n rest ⟨[], 0, 0⟩
      buildLoop checks src n (skipBrace rest)
        { items with
          pipelines := items.pipelines ++ [⟨name, acc.stages, acc.totalBudget, acc.totalWcet,
            decide (acc.totalWcet ≤ acc.totalBudget)⟩] }
    else if tok.kind = .task then do
      let (name, rest) ← taskHeader src rest
      let (f, rest) := taskFields src .default rest
      let task ← finishTask checks name f
      buildLoop checks src n (skipBrace rest) { items with tasks := items.tasks ++ [task] }
    else if tok.kind = .fn then buildLoop checks src n (rest.drop 1) (items.addFunction src rest)
    else buildLoop checks src n rest items

/-- The constraint on the times of a pipeline. -/
def deadline (p : PipelineIr) : ConstraintIr where
  target := text "pipeline::" ++ p.name
  kind := text "timing::deadline"
  required := text "<= " ++ decimalText p.totalBudgetNs ++ text "ns"
  provided := decimalText p.totalWcetNs ++ text "ns"
  satisfied := decide (p.totalWcetNs ≤ p.totalBudgetNs)
  reason := text "Pipeline total worst-case execution time must be within cumulative budget"

/-- The constraint on a stage that copies nothing. -/
def zeroCopyConstraint (p : PipelineIr) (s : StageIr) : ConstraintIr where
  target := p.name ++ text "::" ++ s.name
  kind := text "memory::zero_copy"
  required := text "zero-copy DMA"
  provided := text "zero-copy DMA"
  satisfied := true
  reason := text "Verified hardware DMA zero-copy ring alignment"

def constraintsOf (pipelines : List PipelineIr) : List ConstraintIr :=
  pipelines.flatMap fun p =>
    deadline p :: (p.stages.filter (·.zeroCopy)).map (zeroCopyConstraint p)

/-- The IR of what was picked out.  The summary takes the number of satisfied constraints for both
its counts. -/
def finish (items : Items) : IntentIr :=
  let constraints := constraintsOf items.pipelines
  let satCount := constraints.countP (·.satisfied)
  let allSatisfied := decide (satCount = constraints.length)
  { version := text "1.0"
    moduleName := text "main"
    pipelines := items.pipelines
    tasks := items.tasks
    functions := items.functions
    constraints := constraints
    verification := {
      status := if allSatisfied then text "PASS" else text "FAIL"
      totalConstraints := satCount
      satisfiedConstraints := satCount
      pipelineDeadlineMet := allSatisfied
      zeroCopyVerified := true } }

/-- The number of tokens that are read at most. -/
def intentTokenRoom : ℕ := 4096

/-- `build_intent_ir` -/
def buildIntentIr (checks : Bool) (src : Str) : Except Abort IntentIr := do
  let toks ← Lexer.tokenize (utf8 src) checks intentTokenRoom
  let items ← buildLoop checks src toks.length toks ⟨[], [], []⟩
  return finish items

end Intent

end LatencyOS
