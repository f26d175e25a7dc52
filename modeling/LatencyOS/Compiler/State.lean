import LatencyOS.Token
import LatencyOS.Lib.Prog
import Mathlib.Algebra.Ring.Int.Defs
import Mathlib.Algebra.Ring.Nat
import Mathlib.Logic.Function.Basic

/-!
# The state of the single-pass compiler

The compiler walks the token buffer once and emits px64 instructions as it goes.  Its
mutable state is one record; fixed tables of the source with a count are lists here,
except the variable table, whose entries outlive the scope that declared them.

Everything the compiler does to its state goes through the primitive operations
`CompilerOp`; `perform` gives them their meaning.  Parsing functions are programs over
them, so a property of the primitives is a property of every compilation.
-/

namespace LatencyOS

/-- What a hardware handle holds. -/
inductive ResourceKind
  | hardwareFrame | packetBuffer | ringSlot | fileHandle
  deriving DecidableEq

/-- The static ownership state of a hardware handle. -/
inductive Typestate
  | unallocated
  | captured (line col : ℕ) (kind : ResourceKind)
  | sent
  | dropped
  | moved (line col : ℕ)
  deriving DecidableEq

namespace Typestate

/-- Whether a handle is owned. -/
def isCaptured : Typestate → Bool
  | .captured .. => true
  | _ => false

/-- Which states of a handle two branches may leave behind. -/
def merges : Typestate → Typestate → Bool
  | .unallocated, .unallocated => true
  | .captured .., .captured .. => true
  | .sent, .sent => true
  | .dropped, .dropped => true
  | .moved .., .moved .. => true
  | .sent, .dropped | .dropped, .sent => true
  | _, _ => false

/-- Which states of a handle a loop body may turn into which. -/
def confined : Typestate → Typestate → Bool
  | .unallocated, .unallocated => true
  | .unallocated, .sent => true
  | .unallocated, .dropped => true
  | .unallocated, .moved .. => true
  | .captured .., .captured .. => true
  | .sent, .sent => true
  | .dropped, .dropped => true
  | .moved .., .moved .. => true
  | _, _ => false

end Typestate

/-- An entry of the variable table.  The enum type and fixed-point scale are set apart
from the declaration, so a new variable inherits those of the entry it reuses. -/
structure Var where
  name : List UInt8
  reg : ℕ
  isMut : Bool
  spill : Bool
  spillSlot : ℕ
  enumType : Option ℕ
  fixedScale : Option ℕ

/-- An entry that was never used. -/
def Var.empty : Var := ⟨[], 0, true, false, 0, none, none⟩

/-- A parameter of a function. -/
structure Param where
  name : List UInt8
  fixedScale : Option ℕ

/-- A declared function. -/
structure FnMeta where
  name : List UInt8
  entryPc : ℕ
  params : List Param
  ensures : List (ℕ × ℕ)
  declaredWcetNs : Option ℕ
  estimatedWcetNs : ℕ

/-- One line of the WCET breakdown. -/
structure WcetItem where
  name : List UInt8
  declaredNs : Option ℕ
  estimatedNs : ℕ

/-- A declared array. -/
structure ArrayMeta where
  name : List UInt8
  arrId : ℕ
  base : ℕ
  len : ℕ

/-- A struct type: its name and its field names, in order of their offsets. -/
structure StructDefMeta where
  name : List UInt8
  fields : List (List UInt8)

/-- A struct variable. -/
structure StructInstMeta where
  varName : List UInt8
  structDefIdx : ℕ
  instId : ℕ
  baseSlot : ℕ
  fieldCount : ℕ

/-- An enum type: its name and its variants, in order of their values. -/
structure EnumDefMeta where
  name : List UInt8
  variants : List (List UInt8)

/-- A constant table in the constant pool. -/
structure ConstTableMeta where
  name : List UInt8
  tblId : ℕ
  baseIdx : ℕ
  len : ℕ

/-- A view of an array: the elements `base + i * stride` for `i < len`. -/
structure ViewMeta where
  name : List UInt8
  arrId : ℕ
  baseReg : ℕ
  strideImm : ℕ
  lenImm : ℕ

/-- What a combinator applies to the elements. -/
inductive CombinatorFnTarget
  | userDefined (f : FnMeta)
  | builtin (f : Native)

/-- The runtime modules an `@import` enables, as bits. -/
def runtimeTiny : ℕ := 1
def runtimeCore : ℕ := 2
def runtimeMath : ℕ := 4
def runtimeFix : ℕ := 8
def runtimeSys : ℕ := 16
def runtimeNet : ℕ := 32
def runtimeVram : ℕ := 64
def runtimeGpu : ℕ := 128
def runtimeTerm : ℕ := 256
def runtimeFile : ℕ := 512
def runtimeAll : ℕ := 0x3FF

/-- The runtime module an intrinsic belongs to. -/
def Native.runtime : Native → ℕ
  | .print | .println => runtimeTiny
  | .mathMin | .mathMax | .mathAbs | .mathClamp | .bitPopcnt | .bitLzcnt | .crc32 => runtimeMath
  | .fixToFix | .fixToI64 | .fixMul | .fixDiv => runtimeFix
  | .sysTsc | .coreId | .tscFreq | .uptimeNs | .busyWait | .ringDepth => runtimeSys
  | .netRtt | .netSetRate | .netSend => runtimeNet
  | .vramRead | .vramWrite => runtimeVram
  | .gpuCapture => runtimeGpu
  | .termRaw | .termReadKey | .termSize => runtimeTerm
  | .fileRead | .fileWrite | .fileExists => runtimeFile
  | _ => runtimeCore

/-- Everything declared so far that is not a variable. -/
structure Decls where
  enums : List EnumDefMeta
  arrays : List ArrayMeta
  totalArrayElements : ℕ
  functions : List FnMeta
  structDefs : List StructDefMeta
  structInsts : List StructInstMeta
  totalStructFields : ℕ
  constTables : List ConstTableMeta
  views : List ViewMeta
  declaredScriptWcetNs : Option ℕ
  declaredScriptBudgetNs : Option ℕ
  wcetItems : List WcetItem
  totalSynthesizedWcetNs : ℕ
  maxElements : ℕ
  maxArrays : ℕ
  importedRuntimes : ℕ
  hasExplicitImports : Bool

/-- The declarations of a fresh compiler. -/
def Decls.new : Decls where
  enums := []
  arrays := []
  totalArrayElements := 0
  functions := []
  structDefs := []
  structInsts := []
  totalStructFields := 0
  constTables := []
  views := []
  declaredScriptWcetNs := none
  declaredScriptBudgetNs := none
  wcetItems := []
  totalSynthesizedWcetNs := 0
  maxElements := 256
  maxArrays := 8
  importedRuntimes := runtimeAll
  hasExplicitImports := false

/-- What the compilation of an expression reports besides its code: the enum type and
fixed-point scale of its value, and the scale literals are to be converted to. -/
structure ExprInfo where
  enumType : Option ℕ
  fixedScale : Option ℕ
  targetScale : Option ℕ

/-- The state of the compiler. -/
structure CompilerState where
  src : List UInt8
  tokens : List Token
  /-- Whether the build checks arithmetic for overflow. -/
  overflowChecks : Bool
  current : ℕ
  code : List UInt8
  vars : ℕ → Var
  varCount : ℕ
  spillCount : ℕ
  strPool : List UInt8
  constPool : List Word64
  /-- The bits of the mask of temporaries in use: bit `i` stands for register `15 - i`. -/
  tempUsed : ℕ → Bool
  handleStates : ℕ → Typestate
  currentFn : Option ℕ
  /-- The variable counts and functions saved by the enclosing function bodies. -/
  scopes : List (ℕ × Option ℕ)
  decls : Decls
  info : ExprInfo
  /-- The temporaries handed out so far; not part of the source's state. -/
  allocLog : List ℕ

/-- `Compiler::new`. -/
def CompilerState.new (src : List UInt8) (tokens : List Token) (overflowChecks : Bool) :
    CompilerState where
  src := src
  tokens := tokens
  overflowChecks := overflowChecks
  current := 0
  code := []
  vars := fun _ => .empty
  varCount := 0
  spillCount := 0
  strPool := []
  constPool := []
  tempUsed := fun _ => false
  handleStates := fun _ => .unallocated
  currentFn := none
  scopes := []
  decls := .new
  info := ⟨none, none, none⟩
  allocLog := []

/-- Why a compilation stops: a diagnostic, a Rust panic, or the recursion bound of the
model. -/
inductive Abort
  | error (e : CompileError)
  | panic
  | fuel
  deriving DecidableEq

namespace CompilerState

/-- The token at an offset from the current one. -/
def peekAhead (st : CompilerState) (offset : ℕ) : Token :=
  st.tokens.getD (st.current + offset) Token.empty

/-- The current token. -/
def peek (st : CompilerState) : Token := st.peekAhead 0

/-- A diagnostic at the current token. -/
def error (st : CompilerState) (code message expected stage suggestion : String) :
    CompileError where
  code := code
  message := message
  line := st.peek.line
  col := st.peek.col
  byteOffset := st.peek.start
  tokenKind := st.peek.kind
  tokenLen := st.peek.len
  expected := expected
  stage := stage
  suggestion := suggestion

/-- The source text of a token, if it lies in the source. -/
def text? (st : CompilerState) (tok : Token) : Option (List UInt8) :=
  if tok.start + tok.len ≤ st.src.length then some ((st.src.drop tok.start).take tok.len) else none

/-- The position of a name in the variable table. -/
def findVar (st : CompilerState) (name : List UInt8) : Option ℕ :=
  (List.range st.varCount).find? fun i => (st.vars i).name == name

/-- The first temporary that is not in use. -/
def freeSlot (st : CompilerState) : Option ℕ :=
  (List.range 8).find? fun i => !st.tempUsed i

end CompilerState

/-- The register a name stands for by itself. -/
def registerAlias (name : List UInt8) : Option ℕ :=
  if name ∈ [bytes "$rax", bytes "$r0", bytes "$result", bytes "$ret"] then some 0
  else if name ∈ [bytes "$rcx", bytes "$r1"] then some 1
  else if name ∈ [bytes "$rdx", bytes "$r2"] then some 2
  else if name ∈ [bytes "$rbx", bytes "$r3"] then some 3
  else if name ∈ [bytes "$rsp", bytes "$r4"] then some 4
  else if name ∈ [bytes "$rbp", bytes "$r5"] then some 5
  else if name ∈ [bytes "$rsi", bytes "$r6"] then some 6
  else if name ∈ [bytes "$rdi", bytes "$r7"] then some 7
  else if name = bytes "$r8" then some 8
  else if name = bytes "$r9" then some 9
  else if name = bytes "$r10" then some 10
  else if name = bytes "$r11" then some 11
  else if name = bytes "$r12" then some 12
  else if name = bytes "$r13" then some 13
  else if name = bytes "$r14" then some 14
  else if name = bytes "$r15" then some 15
  else if name ∈ [bytes "#f", bytes "#frame", bytes "#f0", bytes "#slot0"] then some 16
  else if name ∈ [bytes "#f1", bytes "#slot1"] then some 17
  else if name ∈ [bytes "#f2", bytes "#slot2"] then some 18
  else if name ∈ [bytes "#f3", bytes "#slot3"] then some 19
  else none

/-- The registers parameters are passed in: `$rdi`, `$rsi`, `$rdx`, `$rcx`. -/
def paramRegs : List ℕ := [7, 6, 2, 1]

/-- The register of a parameter of the current function. -/
def CompilerState.paramReg (st : CompilerState) (name : List UInt8) : Option ℕ := do
  let f ← st.decls.functions[← st.currentFn]?
  let p ← f.params.findIdx? fun p => p.name == name
  paramRegs[p]?

/-- The primitive operations of the compiler. -/
inductive CompilerOp : Type → Type
  | get : CompilerOp CompilerState
  | setCurrent (n : ℕ) : CompilerOp Unit
  | emitInst (op : Opcode) (rd rs1 rs2 : ℕ) : CompilerOp ℕ
  | patchImm16 (pos imm : ℕ) : CompilerOp Unit
  | allocTemp : CompilerOp ℕ
  | freeTemp (reg : ℕ) : CompilerOp Unit
  | addConstant (val : Word64) : CompilerOp ℕ
  | appendTableConstant (val : Word64) : CompilerOp ℕ
  | declareVar (tok : Token) (isMut : Bool) : CompilerOp ℕ
  | resolveVar (tok : Token) : CompilerOp ℕ
  | setVarTypes (idx : ℕ) (enumType fixedScale : Option ℕ) : CompilerOp Unit
  | setHandles (states : ℕ → Typestate) : CompilerOp Unit
  | setInfo (info : ExprInfo) : CompilerOp Unit
  | appendStr (text : List UInt8) : CompilerOp Unit
  | pushArray (name : List UInt8) (len : ℕ) : CompilerOp Unit
  | negate (n : Word64) : CompilerOp Word64
  | rangeLen (startVal endVal : Word64) : CompilerOp ℕ
  | setDecls (decls : Decls) : CompilerOp Unit
  | enterFn (fnIdx : ℕ) : CompilerOp Unit
  | leaveFn : CompilerOp Unit

namespace CompilerState

/-- `emit_inst`. -/
def emitInst (st : CompilerState) (op : Opcode) (rd rs1 rs2 : ℕ) :
    Except Abort (ℕ × CompilerState) :=
  if maxBytecodeSize < st.code.length + 4 then
    .error (.error (st.error "ERR_BYTECODE_OVERFLOW"
      "px64 bytecode buffer overflow (1024 bytes limit reached)"
      "Smaller script size or simplify expressions" "Code Generation"
      "Reduce script length or complexity"))
  else .ok (st.code.length, { st with code := st.code ++ instBytes op rd rs1 rs2 })

/-- `patch_imm16`. -/
def patchImm16 (st : CompilerState) (pos imm : ℕ) : CompilerState :=
  if pos + 3 < maxBytecodeSize then
    { st with
      code := (st.code.set (pos + 2) (UInt8.ofNat (imm / 256))).set (pos + 3) (UInt8.ofNat imm) }
  else st

/-- `alloc_temp`. -/
def allocTemp (st : CompilerState) : Except Abort (ℕ × CompilerState) :=
  match st.freeSlot with
  | some i => .ok (15 - i,
      { st with
        tempUsed := Function.update st.tempUsed i true
        allocLog := st.allocLog ++ [15 - i] })
  | none => .error (.error (st.error "ERR_EXPR_TOO_COMPLEX"
      "Expression nesting too deep (exceeded register scratch pool)"
      "Simpler expression or intermediate variables" "Expression Evaluation"
      "Split complex expression into intermediate variables"))

/-- `free_temp`. -/
def freeTemp (st : CompilerState) (reg : ℕ) : CompilerState :=
  if 8 ≤ reg ∧ reg ≤ 15 then
    { st with tempUsed := Function.update st.tempUsed (15 - reg) false }
  else st

/-- `append_table_constant`; `add_constant` differs in its hint only. -/
def pushConstant (st : CompilerState) (val : Word64) (hint : String) :
    Except Abort (ℕ × CompilerState) :=
  if maxConstPool ≤ st.constPool.length then
    .error (.error (st.error "ERR_CONST_POOL_FULL"
      "64-bit constant pool exhausted (64 entries limit reached)"
      "Fewer unique 64-bit constants" "Constant Pool Allocation" hint))
  else .ok (st.constPool.length, { st with constPool := st.constPool ++ [val] })

/-- `add_constant`. -/
def addConstant (st : CompilerState) (val : Word64) : Except Abort (ℕ × CompilerState) :=
  match st.constPool.findIdx? (· == val) with
  | some i => .ok (i, st)
  | none => st.pushConstant val "Reduce large constant literals"

/-- Write a string at the end of the pool; a byte past the end of the table panics. -/
def appendStr (st : CompilerState) (text : List UInt8) : Except Abort (Unit × CompilerState) :=
  if maxStringPool < st.strPool.length + text.length then .error .panic
  else .ok ((), { st with strPool := st.strPool ++ text })

/-- Enter an array at the end of the table, which has room for eight whatever the pool size
says; a write past its end panics. -/
def pushArray (st : CompilerState) (name : List UInt8) (len : ℕ) :
    Except Abort (Unit × CompilerState) :=
  let d := st.decls
  if 8 ≤ d.arrays.length then .error .panic
  else .ok ((), { st with decls := { d with
    arrays := d.arrays ++ [⟨name.take 16, d.arrays.length, d.totalArrayElements, len⟩]
    totalArrayElements := d.totalArrayElements + len } })

/-- Negate a literal; the checked build panics on the smallest word. -/
def negate (st : CompilerState) (n : Word64) : Except Abort (Word64 × CompilerState) :=
  if st.overflowChecks ∧ n = BitVec.intMin 64 then .error .panic else .ok (-n, st)

/-- The length of a range; a checked build panics if it does not fit a signed word. -/
def rangeLen (st : CompilerState) (startVal endVal : Word64) : Except Abort (ℕ × CompilerState) :=
  if endVal.sle startVal then .ok (0, st)
  else if st.overflowChecks ∧ endVal.toInt - startVal.toInt ≥ 2 ^ 63 then .error .panic
  else .ok ((endVal - startVal).toNat, st)

/-- Enter a variable at the end of the table, in a register. -/
def pushVar (st : CompilerState) (name : List UInt8) (isMut : Bool) (reg : ℕ) (spill : Bool)
    (spillSlot : ℕ) : CompilerState :=
  { st with
    vars := Function.update st.vars st.varCount
      { st.vars st.varCount with
        name := name.take 16
        reg := reg
        isMut := isMut
        spill := spill
        spillSlot := spillSlot }
    varCount := st.varCount + 1 }

/-- `declare_var`: the first thirteen variables live in registers 1 to 13, later ones in
spill slots with 255 as their register. -/
def declareVar (st : CompilerState) (tok : Token) (isMut : Bool) :
    Except Abort (ℕ × CompilerState) :=
  let name := (st.text? tok).getD []
  match registerAlias name with
  | some r => .ok (r, st)
  | none =>
    match st.findVar name with
    | some i => .ok ((st.vars i).reg,
        { st with vars := Function.update st.vars i { st.vars i with isMut := isMut } })
    | none =>
      if maxVars ≤ st.varCount then
        .error (.error (st.error "ERR_MAX_VARS_EXCEEDED"
          "Maximum distinct variables limit reached (13 GPRs + 32 spill slots limit)"
          "Reuse existing $variables or registers ($rax, $rcx, etc.)" "Register Allocation"
          "Reduce distinct variable count in script"))
      else if st.varCount < 13 then
        .ok (1 + st.varCount, st.pushVar name isMut (1 + st.varCount) false 0)
      else if 32 ≤ st.spillCount then
        .error (.error (st.error "ERR_MAX_VARS_EXCEEDED"
          "Maximum distinct variables limit reached (32 spill slots exhausted)"
          "Reuse existing variables" "Register Allocation"
          "Reduce distinct variable count in script"))
      else
        .ok (255, { st.pushVar name isMut 255 true st.spillCount with
          spillCount := st.spillCount + 1 })

/-- `resolve_var`: an unknown name is declared on the spot, in a register. -/
def resolveVar (st : CompilerState) (tok : Token) : Except Abort (ℕ × CompilerState) :=
  match st.text? tok with
  | none => .error .panic
  | some name =>
    match registerAlias name with
    | some r => .ok (r, st)
    | none =>
      match st.paramReg name with
      | some r => .ok (r, st)
      | none =>
        match st.findVar name with
        | some i => .ok ((st.vars i).reg, st)
        | none =>
          if 13 ≤ st.varCount then
            .error (.error (st.error "ERR_MAX_VARS_EXCEEDED"
              "Maximum distinct variables limit reached (13 general-purpose registers)"
              "Reuse existing $variables or registers ($rax, $rcx, etc.)" "Register Allocation"
              "Reduce distinct variable count in script"))
          else
            .ok (1 + st.varCount, st.pushVar name true (1 + st.varCount)
              (st.vars st.varCount).spill (st.vars st.varCount).spillSlot)

/-- Enter a function body. -/
def enterFn (st : CompilerState) (fnIdx : ℕ) : CompilerState :=
  { st with scopes := (st.varCount, st.currentFn) :: st.scopes, currentFn := some fnIdx }

/-- Leave a function body: the variables it declared go out of scope. -/
def leaveFn (st : CompilerState) : CompilerState :=
  match st.scopes with
  | [] => st
  | (count, fn) :: rest => { st with varCount := count, currentFn := fn, scopes := rest }

end CompilerState

/-- The meaning of the primitive operations. -/
def perform : Handler CompilerOp Abort CompilerState
  | _, .get, st => .ok (st, st)
  | _, .setCurrent n, st => .ok ((), { st with current := n })
  | _, .emitInst op rd rs1 rs2, st => st.emitInst op rd rs1 rs2
  | _, .patchImm16 pos imm, st => .ok ((), st.patchImm16 pos imm)
  | _, .allocTemp, st => st.allocTemp
  | _, .freeTemp reg, st => .ok ((), st.freeTemp reg)
  | _, .addConstant val, st => st.addConstant val
  | _, .appendTableConstant val, st =>
    st.pushConstant val "Reduce large constant literals or table size"
  | _, .declareVar tok isMut, st => st.declareVar tok isMut
  | _, .resolveVar tok, st => st.resolveVar tok
  | _, .setVarTypes idx e f, st =>
    .ok ((), { st with
      vars := Function.update st.vars idx { st.vars idx with enumType := e, fixedScale := f } })
  | _, .setHandles states, st => .ok ((), { st with handleStates := states })
  | _, .setInfo info, st => .ok ((), { st with info := info })
  | _, .appendStr text, st => st.appendStr text
  | _, .pushArray name len, st => st.pushArray name len
  | _, .negate n, st => st.negate n
  | _, .rangeLen startVal endVal, st => st.rangeLen startVal endVal
  | _, .setDecls decls, st => .ok ((), { st with decls := decls })
  | _, .enterFn fnIdx, st => .ok ((), st.enterFn fnIdx)
  | _, .leaveFn, st => .ok ((), st.leaveFn)

/-- Computations of the compiler. -/
abbrev CompilerM := Prog CompilerOp Abort

end LatencyOS
