import LatencyOS.Compiler.State

/-!
# Reading tokens and emitting code

The small functions of the compiler: token access, diagnostics, constant loads, lookups in
the declaration tables, and the ownership checks around hardware handles.
-/

namespace LatencyOS

namespace Compiler

variable {α : Type}

/-- The whole state. -/
def get : CompilerM CompilerState := .op .get

/-- Stop with a diagnostic at the current token. -/
def fail (code message expected stage suggestion : String) : CompilerM α := do
  let st ← get
  .throw (.error (st.error code message expected stage suggestion))

/-- Stop with a Rust panic. -/
def panic : CompilerM α := .throw .panic

/-- Stop with a diagnostic unless a condition holds. -/
def require (c : Bool) (code message expected stage suggestion : String) : CompilerM Unit :=
  if c then pure () else fail code message expected stage suggestion

/-- `peek_ahead`. -/
def peekAhead (offset : ℕ) : CompilerM Token := do
  let st ← get
  return st.peekAhead offset

/-- `peek`. -/
def peek : CompilerM Token := peekAhead 0

/-- The kind of the current token. -/
def peekKind : CompilerM TokenKind := do
  let tok ← peek
  return tok.kind

/-- `advance`. -/
def advance : CompilerM Token := do
  let st ← get
  if st.current < st.tokens.length then
    Prog.op (.setCurrent (st.current + 1))
  return st.peek

/-- `match_token`. -/
def matchToken (kind : TokenKind) : CompilerM Bool := do
  let k ← peekKind
  if k = kind then
    let _ ← advance
    return true
  return false

/-- Skip one optional token. -/
def skip (kind : TokenKind) : CompilerM Unit := do
  let _ ← matchToken kind
  return ()

/-- The source text of a token; slicing out of range panics. -/
def text (tok : Token) : CompilerM (List UInt8) := do
  let st ← get
  match st.text? tok with
  | some name => return name
  | none => panic

/-- Repeat a step until it is done; the bound is the model's. -/
def loop {σ : Type} : ℕ → σ → (σ → CompilerM (ForInStep σ)) → CompilerM σ
  | 0, _, _ => .throw .fuel
  | n + 1, a, f => do
    match ← f a with
    | .done b => return b
    | .yield b => loop n b f

/-- Repeat a step while the current token is neither of a kind nor the end. -/
def untilToken (fuel : ℕ) (kind : TokenKind) (step : CompilerM Unit) : CompilerM Unit :=
  loop fuel () fun _ => do
    let k ← peekKind
    if k = kind ∨ k = .eof then return .done ()
    step
    return .yield ()

/-! ## Emitting code -/

/-- `emit_inst`. -/
def emitInst (op : Opcode) (rd rs1 rs2 : ℕ) : CompilerM ℕ := Prog.op (.emitInst op rd rs1 rs2)

/-- `emit_inst`, its position ignored. -/
def emit (op : Opcode) (rd rs1 rs2 : ℕ) : CompilerM Unit := do
  let _ ← emitInst op rd rs1 rs2
  return ()

/-- `emit_imm16`. -/
def emitImm16 (op : Opcode) (rd imm : ℕ) : CompilerM ℕ := emitInst op rd (imm / 256) (imm % 256)

/-- `patch_imm16`. -/
def patchImm16 (pos imm : ℕ) : CompilerM Unit := Prog.op (.patchImm16 pos imm)

/-- The length of the code so far, as a 16-bit program counter. -/
def codeLen : CompilerM ℕ := do
  let st ← get
  return st.code.length

/-- `alloc_temp`. -/
def allocTemp : CompilerM ℕ := Prog.op .allocTemp

/-- `free_temp`. -/
def freeTemp (reg : ℕ) : CompilerM Unit := Prog.op (.freeTemp reg)

/-- `add_constant`. -/
def addConstant (val : Word64) : CompilerM ℕ := Prog.op (.addConstant val)

/-- Whether a word fits the 16-bit immediate of `MOV_IMM`. -/
def fitsImm (val : Word64) : Bool := val.toNat ≤ 65535

/-- `emit_const`. -/
def emitConst (dst : ℕ) (val : Word64) : CompilerM Unit := do
  if fitsImm val then
    let _ ← emitImm16 .movImm dst val.toNat
    return ()
  else
    let idx ← addConstant val
    let _ ← emitImm16 .ldc dst idx
    return ()

/-- `declare_var`. -/
def declareVar (tok : Token) (isMut : Bool) : CompilerM ℕ := Prog.op (.declareVar tok isMut)

/-- `resolve_var`. -/
def resolveVar (tok : Token) : CompilerM ℕ := Prog.op (.resolveVar tok)

/-- Change the declarations. -/
def modifyDecls (f : Decls → Decls) : CompilerM Unit := do
  let st ← get
  Prog.op (.setDecls (f st.decls))

/-- Change what the expression reports. -/
def modifyInfo (f : ExprInfo → ExprInfo) : CompilerM Unit := do
  let st ← get
  Prog.op (.setInfo (f st.info))

/-- Set `current_expr_enum_type`. -/
def setEnumType (e : Option ℕ) : CompilerM Unit := modifyInfo fun i => { i with enumType := e }

/-- Set `current_expr_fixed_scale`. -/
def setFixedScale (s : Option ℕ) : CompilerM Unit :=
  modifyInfo fun i => { i with fixedScale := s }

/-- Set `target_fixed_scale`. -/
def setTargetScale (s : Option ℕ) : CompilerM Unit :=
  modifyInfo fun i => { i with targetScale := s }

/-- The ownership state of a handle slot. -/
def handleState (slot : ℕ) : CompilerM Typestate := do
  let st ← get
  return st.handleStates slot

/-- Set the ownership state of a handle slot. -/
def setHandleState (slot : ℕ) (t : Typestate) : CompilerM Unit := do
  let st ← get
  Prog.op (.setHandles (Function.update st.handleStates slot t))

/-- Restore saved ownership states. -/
def setHandleStates (states : ℕ → Typestate) : CompilerM Unit := Prog.op (.setHandles states)

/-- Whether a register holds a hardware handle. -/
def isHandleReg (reg : ℕ) : Bool := 16 ≤ reg && reg ≤ 19

/-! ## Lookups -/

/-- `is_spilled_var`. -/
def isSpilledVar (tok : Token) : CompilerM (Option ℕ) := do
  let st ← get
  let name := (st.text? tok).getD []
  return ((List.range st.varCount).find? fun i =>
    (st.vars i).name == name && (st.vars i).spill).map fun i => (st.vars i).spillSlot

/-- `get_var_index`. -/
def getVarIndex (tok : Token) : CompilerM (Option ℕ) := do
  let st ← get
  return (st.text? tok).bind st.findVar

/-- `get_var_enum_type`. -/
def getVarEnumType (tok : Token) : CompilerM (Option ℕ) := do
  let st ← get
  let idx ← getVarIndex tok
  return idx.bind fun i => (st.vars i).enumType

/-- `get_var_fixed_scale`: a parameter of the current function hides a variable. -/
def getVarFixedScale (tok : Token) : CompilerM (Option ℕ) := do
  let st ← get
  let name ← text tok
  let params := ((st.currentFn.bind fun i => st.decls.functions[i]?).map (·.params)).getD []
  match params.find? (·.name == name) with
  | some p => return p.fixedScale
  | none =>
    let idx ← getVarIndex tok
    return idx.bind fun i => (st.vars i).fixedScale

/-- Set the enum type and scale of a variable. -/
def setVarTypes (idx : ℕ) (enumType fixedScale : Option ℕ) : CompilerM Unit :=
  Prog.op (.setVarTypes idx enumType fixedScale)

/-- Whether a name starts with some bytes. -/
def startsWith (name start : List UInt8) : Bool := start.isPrefixOf name

/-- `check_var_mutation`: register names and everything that starts like one are exempt. -/
def checkVarMutation (tok : Token) : CompilerM Unit := do
  let st ← get
  let name ← text tok
  if startsWith name (bytes "#") || startsWith name (bytes "$r") then
    return ()
  match st.findVar name with
  | some i =>
    require (st.vars i).isMut "ERR_MUTABILITY_VIOLATION"
      "Cannot reassign/mutate immutable variable; variables are immutable by default in PulseLang"
      "Mutable variable declaration ('let mut')" "Statement -> Variable Assignment"
      "Declare variable with 'let mut $var = ...;' to permit mutation"
  | none => return ()

/-- `resolve_var` on a state, its failure ignored: the register and the state after it. -/
def tryResolveVar (tok : Token) : CompilerM (Option ℕ) := do
  let st ← get
  match st.resolveVar tok with
  | .ok _ =>
    let r ← resolveVar tok
    return some r
  | .error .panic => panic
  | .error _ => return none

/-- `check_hw_assign_pre`: what may be assigned to a handle, and the handle it moves. -/
def checkHwAssignPre (varReg : ℕ) : CompilerM (Option (ℕ × ResourceKind)) := do
  if !isHandleReg varReg then return none
  let old ← handleState (varReg - 16)
  require (!old.isCaptured) "ERR_LINEAR_OVERWRITE"
    "Hardware handle overwritten before previous buffer was consumed/sent"
    "Consume prior handle with @send(#h) before reassigning" "Linear Ownership Verification"
    "Ensure '@send(#h)' is invoked before overwriting '#h := @capture()'"
  let rhsTok ← peek
  if rhsTok.kind ≠ .hardwareIdent then return none
  match ← tryResolveVar rhsTok with
  | none => return none
  | some srcReg =>
    if !isHandleReg srcReg then return none
    match ← handleState (srcReg - 16) with
    | .moved .. =>
      fail "ERR_RESOURCE_USE_AFTER_MOVE" "Resource handle used after ownership was moved"
        "Active resource handle" "Linear Ownership Verification"
        "Ensure handle has not been moved before using it"
    | .unallocated =>
      fail "ERR_LINEAR_USE_BEFORE_ALLOC" "Hardware handle used before being captured/allocated"
        "Capture handle with '#f := @capture()' before using" "Linear Ownership Verification"
        "Initialize hardware handle with '@capture()' before assignment"
    | .sent | .dropped =>
      fail "ERR_RESOURCE_USE_AFTER_MOVE" "Resource handle used after being consumed or released"
        "Active resource handle" "Linear Ownership Verification"
        "Ensure handle has not been consumed before using it"
    | .captured _ _ kind => return some (srcReg - 16, kind)

/-- `apply_hw_assign_post`: whatever was assigned, the target now owns it. -/
def applyHwAssignPost (varReg : ℕ) (ident : Token) (movedFrom : Option (ℕ × ResourceKind)) :
    CompilerM Unit := do
  if !isHandleReg varReg then return ()
  match movedFrom with
  | some (srcSlot, kind) =>
    setHandleState srcSlot (.moved ident.line ident.col)
    setHandleState (varReg - 16) (.captured ident.line ident.col kind)
  | none => setHandleState (varReg - 16) (.captured ident.line ident.col .hardwareFrame)

/-! ## Runtime modules -/

/-- `check_intrinsic_runtime`. -/
def checkIntrinsicRuntime (f : Native) : CompilerM Unit := do
  let st ← get
  require (!st.decls.hasExplicitImports || st.decls.importedRuntimes &&& f.runtime != 0)
    "ERR_RUNTIME_NOT_IMPORTED"
    "Intrinsic function requires a runtime module that was not imported via @import"
    "Imported runtime module" "Intrinsic Call -> Runtime Verification"
    "Add '@import \"<runtime>\";' (e.g. core, math, sys, net, vram, gpu) at top of script"

end Compiler

end LatencyOS
