import LatencyOS.Vm.Word
import LatencyOS.Lib.Machine

/-!
# The host px64 machine

The register machine of `pulselang-core`: twenty 64-bit registers, a call stack of
eight saved register frames, static array, struct, table, spill and vram slots, a
step limit, and the native intrinsics.  Rust arrays are functions from indexes;
every access the interpreter does not guard itself is checked against the array's
length here and stops the machine with `Stop.panic` when it is out of bounds.

What the machine reads from its surroundings (the timestamp counter, the terminal,
the file system) is a `Host`, asked with the number of earlier questions.
-/

namespace LatencyOS

/-- Replacement of the hardware clocks by a function of the step count. -/
structure DeterministicReplayConfig where
  enabled : Bool
  tscSeed : Word64
  tscStep : Word64
  uptimeBaseNs : Word64
  uptimeStepNs : Word64

/-- The answers of the surroundings, by the number of questions asked before. -/
structure Host where
  rdtsc : ℕ → Word64
  readKey : ℕ → Word64
  termSize : ℕ → Word64
  fileExists : ℕ → List UInt8 → Bool
  fileWrite : ℕ → List UInt8 → List UInt8 → Bool

/-- The state of the host machine, with the output written so far. -/
structure PX64VM where
  code : List UInt8
  strPool : List UInt8
  constPool : List Word64
  args : List (List UInt8)
  ip : ℕ
  regs : ℕ → Word64
  callStack : ℕ → ℕ
  frameStack : ℕ → ℕ → Word64
  callSp : ℕ
  deadlineStack : ℕ → Word64
  dlSp : ℕ
  arraySlots : ℕ → Word64
  arrayLens : ℕ → ℕ
  arrayBases : ℕ → ℕ
  structSlots : ℕ → Word64
  structFieldCounts : ℕ → ℕ
  structBases : ℕ → ℕ
  tableLens : ℕ → ℕ
  tableBases : ℕ → ℕ
  vram : ℕ → ℕ → UInt8
  spillSlots : ℕ → Word64
  steps : ℕ
  maxSteps : ℕ
  replayConfig : Option DeterministicReplayConfig
  output : List UInt8
  asked : ℕ

namespace PX64VM

/-- The first bytes of the four vram slots. -/
def initVram : ℕ → ℕ → UInt8
  | 0, _ => 0x5A
  | 1, _ => 0xA5
  | 2, _ => 0x00
  | _, _ => 0xFF

/-- A fresh machine. -/
def new (code strPool : List UInt8) (constPool : List Word64) (args : List (List UInt8)) :
    PX64VM where
  code := code
  strPool := strPool
  constPool := constPool
  args := args
  ip := 0
  regs := fun _ => 0
  callStack := fun _ => 0
  frameStack := fun _ _ => 0
  callSp := 0
  deadlineStack := fun _ => 0
  dlSp := 0
  arraySlots := fun _ => 0
  arrayLens := fun _ => 0
  arrayBases := fun _ => 0
  structSlots := fun _ => 0
  structFieldCounts := fun _ => 0
  structBases := fun _ => 0
  tableLens := fun _ => 0
  tableBases := fun _ => 0
  vram := initVram
  spillSlots := fun _ => 0
  steps := 0
  maxSteps := maxVmSteps
  replayConfig := none
  output := []
  asked := 0

/-- A slice of the string pool, if it lies inside. -/
def poolSlice (vm : PX64VM) (offset len : ℕ) : Option (List UInt8) :=
  if offset + len ≤ vm.strPool.length then some ((vm.strPool.drop offset).take len) else none

/-- The bytes a tagged word refers to. -/
def getStrBytes (vm : PX64VM) (val : Word64) : Option (List UInt8) :=
  if hasTag val strTag then
    let raw := val &&& ~~~strTag
    vm.poolSlice (raw >>> 32).toNat (raw &&& 0xFFFFFFFF#64).toNat
  else if hasTag val argTag then
    vm.args[(val &&& 0xFF#64).toNat]?
  else none

/-- The timestamp counter, and the state after asking for it. -/
def getTsc (host : Host) (vm : PX64VM) : Word64 × PX64VM :=
  match vm.replayConfig with
  | some cfg =>
    if cfg.enabled then (cfg.tscSeed + BitVec.ofNat 64 vm.steps * cfg.tscStep, vm)
    else (host.rdtsc vm.asked, { vm with asked := vm.asked + 1 })
  | none => (host.rdtsc vm.asked, { vm with asked := vm.asked + 1 })

/-- The uptime in nanoseconds, and the state after asking for it. -/
def getUptimeNs (host : Host) (vm : PX64VM) : Word64 × PX64VM :=
  match vm.replayConfig with
  | some cfg =>
    if cfg.enabled then (cfg.uptimeBaseNs + BitVec.ofNat 64 vm.steps * cfg.uptimeStepNs, vm)
    else (host.rdtsc vm.asked / 3#64, { vm with asked := vm.asked + 1 })
  | none => (host.rdtsc vm.asked / 3#64, { vm with asked := vm.asked + 1 })

/-- A register, or a default when the operand byte names none. -/
def regOr (vm : PX64VM) (r : ℕ) (dflt : Word64) : Word64 :=
  if r < px64NumRegisters then vm.regs r else dflt

/-- Write a register; an operand byte that names none is ignored. -/
def setReg (vm : PX64VM) (rd : ℕ) (v : Word64) : PX64VM :=
  if rd < px64NumRegisters then { vm with regs := Function.update vm.regs rd v } else vm

/-- A two-source register operation; it is skipped unless all three operands are
registers. -/
def alu (vm : PX64VM) (rd rs1 rs2 : ℕ) (f : Word64 → Word64 → Word64) : PX64VM :=
  if rd < px64NumRegisters ∧ rs1 < px64NumRegisters ∧ rs2 < px64NumRegisters then
    { vm with regs := Function.update vm.regs rd (f (vm.regs rs1) (vm.regs rs2)) }
  else vm

/-- Append to the output. -/
def write (vm : PX64VM) (text : List UInt8) : PX64VM := { vm with output := vm.output ++ text }

/-- Stop with an error. -/
def fail (vm : PX64VM) (code message : String) {α : Type} : Except (Stop × PX64VM) α :=
  .error (.error (.simple code message), vm)

/-- Stop with a panic. -/
def panicked (vm : PX64VM) {α : Type} : Except (Stop × PX64VM) α := .error (.panic, vm)

/-- The truth value of `STREQ`, over an interpreter's own string lookup: equal words,
or equal bytes. -/
def strEq (str : Word64 → Option (List UInt8)) (v1 v2 : Word64) : Bool :=
  if v1 = v2 then true
  else
    match str v1, str v2 with
    | some b1, some b2 => b1 == b2
    | _, _ => false

/-- The truth value of `CMP_EQ`: as `STREQ`, but only words with a tag are looked up. -/
def cmpEq (str : Word64 → Option (List UInt8)) (v1 v2 : Word64) : Bool :=
  if v1 = v2 then true
  else if (hasTag v1 strTag || hasTag v1 argTag) && (hasTag v2 strTag || hasTag v2 argTag) then
    strEq str v1 v2
  else false

/-- The `k`-th further argument of a native, `k` registers below the first, or a
default when there is no such register number. -/
def argBelow (vm : PX64VM) (argReg k : ℕ) (dflt : Word64) : Except (Stop × PX64VM) Word64 :=
  if k ≤ argReg then
    if argReg - k < px64NumRegisters then .ok (vm.regs (argReg - k)) else vm.panicked
  else .ok dflt

/-- What `@print` writes: an argument, a string, or a number. -/
def printText (vm : PX64VM) (argVal : Word64) : List UInt8 :=
  if hasTag argVal argTag then (vm.args[(argVal &&& 0xFF#64).toNat]?).getD []
  else if hasTag argVal strTag then
    let raw := argVal &&& ~~~strTag
    match vm.poolSlice (raw >>> 32).toNat (raw &&& 0xFFFFFFFF#64).toNat with
    | some s => if validUtf8 s then s else []
    | none => []
  else decimal argVal

/-- What `@println` writes; a zero in register 0 stands for the missing argument. -/
def printlnText (vm : PX64VM) (argReg : ℕ) (argVal : Word64) : List UInt8 :=
  if hasTag argVal argTag || hasTag argVal strTag then vm.printText argVal ++ bytes "\n"
  else if argReg ≠ 0 ∨ argVal ≠ 0#64 then decimal argVal ++ bytes "\n"
  else bytes "\n"

/-- Eight or four bytes of a vram slot of a given size; the offset is a `usize`, so
`offset + 8` can overflow, and then `none` stands for the panic. -/
def vramLoad (size : ℕ) (data : ℕ → UInt8) (offset : ℕ) : Option Word64 :=
  if 2 ^ 64 ≤ offset + 8 then none
  else if offset + 8 ≤ size then
    some (BitVec.ofNat 64 (leNat ((List.range 8).map fun i => data (offset + i))))
  else if offset + 4 ≤ size then
    some ((BitVec.ofNat 32 (leNat ((List.range 4).map fun i => data (offset + i)))).signExtend 64)
  else some 0#64

/-- Read from one of the machine's own vram slots. -/
def vramRead (vm : PX64VM) (slot offset : ℕ) : Except (Stop × PX64VM) Word64 :=
  match vramLoad 4096 (vm.vram slot) offset with
  | some v => .ok v
  | none => vm.panicked

/-- Store eight bytes in a vram slot when they fit. -/
def vramWrite (vm : PX64VM) (slot offset : ℕ) (val : Word64) : Except (Stop × PX64VM) PX64VM :=
  if 2 ^ 64 ≤ offset + 8 then vm.panicked
  else if offset + 8 ≤ 4096 then
    .ok { vm with vram := Function.update vm.vram slot fun j =>
      if offset ≤ j ∧ j < offset + 8 then (toLeBytes val).getD (j - offset) 0
      else vm.vram slot j }
  else .ok vm

/-- The natives whose bodies the host and the kernel interpreter share: arithmetic on
the argument and the registers below it.  Each interpreter has its own body for the
others. -/
def callNativeCommon (vm : PX64VM) (f : Native) (argReg : ℕ) (argVal : Word64) :
    Except (Stop × PX64VM) Word64 :=
  match f with
  | .scriptArgc => .ok (BitVec.ofNat 64 vm.args.length)
  | .tagOk => .ok (argVal &&& ~~~errTag)
  | .tagErr => .ok (errTag ||| (argVal &&& ~~~errTag))
  | .isOk => .ok (boolWord (!hasTag argVal errTag))
  | .isErr => .ok (boolWord (hasTag argVal errTag))
  | .unwrap =>
    if hasTag argVal errTag then
      vm.fail "ERR_PX64_UNWRAP_FAILED"
        "PulseLang unwrap failed: called @unwrap() on an Err result value"
    else .ok argVal
  | .mathMin => do
    let b ← vm.argBelow argReg 1 0#64
    .ok (signedMin argVal b)
  | .mathMax => do
    let b ← vm.argBelow argReg 1 0#64
    .ok (signedMax argVal b)
  | .mathAbs => .ok (saturatingAbs argVal)
  | .mathClamp => do
    let minV ← vm.argBelow argReg 1 0#64
    let maxV ← vm.argBelow argReg 2 0#64
    .ok (signedMin (signedMax argVal minV) maxV)
  | .bitPopcnt => .ok (BitVec.ofNat 64 (countOnes argVal))
  | .bitLzcnt => .ok (BitVec.ofNat 64 (leadingZeros argVal))
  | .crc32 => do
    let val ← vm.argBelow argReg 1 0#64
    .ok ((computeCrc32 (toLeBytes val) ^^^ argVal.truncate 32).setWidth 64)
  | .fixToFix => do
    let q ← vm.argBelow argReg 1 16#64
    .ok (argVal <<< (q &&& 63#64).toNat)
  | .fixToI64 => do
    let q ← vm.argBelow argReg 1 16#64
    .ok (argVal.sshiftRight (q &&& 63#64).toNat)
  | .fixMul => do
    let b ← vm.argBelow argReg 1 0#64
    let q ← vm.argBelow argReg 2 16#64
    .ok ((argVal * b).sshiftRight (q &&& 63#64).toNat)
  | .fixDiv => do
    let b ← vm.argBelow argReg 1 0#64
    let q ← vm.argBelow argReg 2 16#64
    if b = 0#64 then vm.fail "ERR_PX64_DIV_BY_ZERO" "Division by zero in fixed-point division"
    else .ok ((argVal <<< (q &&& 63#64).toNat).sdiv b)
  | _ => .ok 0#64

/-- A native call: the returned word and the state after it. -/
def callNative (host : Host) (vm : PX64VM) (f : Native) (argReg : ℕ) (argVal : Word64) :
    Except (Stop × PX64VM) (Word64 × PX64VM) :=
  match f with
  | .print => .ok (0#64, vm.write (vm.printText argVal))
  | .println => .ok (0#64, vm.write (vm.printlnText argReg argVal))
  | .sysTsc => .ok (vm.getTsc host)
  | .netRtt => .ok (100#64, vm)
  | .netSetRate => .ok (0#64, vm)
  | .gpuCapture => .ok (0#64, vm)
  | .netSend => .ok (1#64, vm)
  | .drop => .ok (0#64, vm)
  | .termRaw => .ok (0#64, vm)
  | .termReadKey => .ok (host.readKey vm.asked, { vm with steps := 0, asked := vm.asked + 1 })
  | .termSize => .ok (host.termSize vm.asked, { vm with asked := vm.asked + 1 })
  | .strLen =>
    .ok (match vm.getStrBytes argVal with
      | some s => BitVec.ofNat 64 s.length
      | none => 0#64, vm)
  | .charAt => do
    let idx ← vm.argBelow argReg 1 0#64
    .ok (match vm.getStrBytes argVal with
      | some s =>
        if 0 ≤ idx.toInt ∧ idx.toNat < s.length then BitVec.ofNat 64 (s.getD idx.toNat 0).toNat
        else -1#64
      | none => -1#64, vm)
  | .fileExists =>
    .ok (match vm.getStrBytes argVal with
      | some p => if validUtf8 p then boolWord (host.fileExists vm.asked p) else 0#64
      | none => 0#64, { vm with asked := vm.asked + 1 })
  | .fileWrite => do
    let contentVal ← vm.argBelow argReg 1 0#64
    .ok (match vm.getStrBytes argVal, vm.getStrBytes contentVal with
      | some p, some data =>
        if validUtf8 p && host.fileWrite vm.asked p data then BitVec.ofNat 64 data.length
        else -1#64
      | _, _ => -1#64, { vm with asked := vm.asked + 1 })
  | .fileRead => .ok (0#64, vm)
  | .scriptArg =>
    .ok (if 0 ≤ argVal.toInt ∧ argVal.toNat < vm.args.length ∧ argVal.toNat < 256 then
      argTag ||| (argVal &&& 0xFF#64) else 0#64, vm)
  | .streq => do
    let s2 ← vm.argBelow argReg 1 0#64
    .ok (boolWord (strEq vm.getStrBytes argVal s2), vm)
  | .coreId => .ok (0#64, vm)
  | .tscFreq => .ok (3000000000#64, vm)
  | .uptimeNs => .ok (vm.getUptimeNs host)
  | .busyWait => .ok (0#64, vm)
  | .ringDepth => .ok (0#64, vm)
  | .vramRead => do
    let offset ← vm.argBelow argReg 1 0#64
    let v ← vm.vramRead (argVal.toNat % 4) offset.toNat
    .ok (v, vm)
  | .vramWrite => do
    let offset ← vm.argBelow argReg 1 0#64
    let val ← vm.argBelow argReg 2 0#64
    let vm' ← vm.vramWrite (argVal.toNat % 4) offset.toNat val
    .ok (0#64, vm')
  | f => do
    let v ← vm.callNativeCommon f argReg argVal
    .ok (v, vm)

/-- The natives whose bodies the interpreters share. -/
def commonNatives : List Native :=
  [.scriptArgc, .tagOk, .tagErr, .isOk, .isErr, .unwrap, .mathMin, .mathMax, .mathAbs, .mathClamp,
    .bitPopcnt, .bitLzcnt, .crc32, .fixToFix, .fixToI64, .fixMul, .fixDiv]

theorem callNative_common (host : Host) (vm : PX64VM) {f : Native} (h : f ∈ commonNatives)
    (argReg : ℕ) (argVal : Word64) :
    vm.callNative host f argReg argVal =
      (do let v ← vm.callNativeCommon f argReg argVal; .ok (v, vm)) := by
  cases f <;> first | rfl | exact absurd h (by decide)

/-- The slots of the arrays defined before `arrId`. -/
def arrayBase (lens : ℕ → ℕ) (arrId : ℕ) : ℕ := ((List.range arrId).map lens).sum

/-- The capacity of an interpreter's array, struct and const tables: how many ids, and
how many slots the arrays and the structs each share. -/
structure TableLimits where
  ids : ℕ
  slots : ℕ

/-- The tables of the host machine. -/
def coreTables : TableLimits := ⟨16, 1024⟩

/-- The instructions whose bodies the host and the kernel interpreter share, up to the
capacity of their tables and their string lookup; `ip` and the step count have already
been advanced.  Each interpreter has its own body for the others. -/
def execCommon (lim : TableLimits) (str : Word64 → Option (List UInt8)) (vm : PX64VM)
    (op : Opcode) (rd rs1 rs2 : ℕ) : Except (Stop × PX64VM) PX64VM :=
  let imm16 := rs1 * 256 + rs2
  match op with
  | .nop => .ok vm
  | .movImm => .ok (vm.setReg rd (BitVec.ofNat 64 imm16))
  | .ldc =>
    match vm.constPool[imm16]? with
    | none => vm.fail "ERR_PX64_CONST_OUT_OF_BOUNDS"
        "Constant pool index out of bounds during LDC execution"
    | some c => .ok (vm.setReg rd c)
  | .addi =>
    .ok (if rs1 < px64NumRegisters then vm.setReg rd (vm.regs rs1 + BitVec.ofNat 64 rs2) else vm)
  | .subi =>
    .ok (if rs1 < px64NumRegisters then vm.setReg rd (vm.regs rs1 - BitVec.ofNat 64 rs2) else vm)
  | .and => .ok (vm.alu rd rs1 rs2 (· &&& ·))
  | .or => .ok (vm.alu rd rs1 rs2 (· ||| ·))
  | .xor => .ok (vm.alu rd rs1 rs2 (· ^^^ ·))
  | .shl => .ok (vm.alu rd rs1 rs2 fun a b => a <<< (b &&& 63#64).toNat)
  | .shr => .ok (vm.alu rd rs1 rs2 fun a b => a >>> (b &&& 63#64).toNat)
  | .arrDef =>
    if rd < lim.ids then
      let lens := Function.update vm.arrayLens rd imm16
      let base := arrayBase lens rd
      .ok { vm with
        arrayLens := lens
        arrayBases := Function.update vm.arrayBases rd (base % 65536)
        arraySlots := fun j =>
          if base + imm16 ≤ lim.slots ∧ base ≤ j ∧ j < base + imm16 then 0#64 else vm.arraySlots j }
    else .ok vm
  | .arrLoad =>
    let idx := vm.regOr rs2 (-1#64)
    if lim.ids ≤ rs1 then vm.fail "ERR_PX64_ARRAY_INVALID_ID" "Array ID is invalid"
    else if idx.toInt < 0 ∨ (vm.arrayLens rs1 : Int) ≤ idx.toInt then
      vm.fail "ERR_PX64_ARRAY_OUT_OF_BOUNDS" "Array element access out of bounds"
    else if rd < px64NumRegisters then
      if vm.arrayBases rs1 + idx.toNat < lim.slots then
        .ok (vm.setReg rd (vm.arraySlots (vm.arrayBases rs1 + idx.toNat)))
      else vm.panicked
    else .ok vm
  | .arrStore =>
    let idx := vm.regOr rs1 (-1#64)
    let val := vm.regOr rs2 0#64
    if lim.ids ≤ rd then vm.fail "ERR_PX64_ARRAY_INVALID_ID" "Array ID is invalid"
    else if idx.toInt < 0 ∨ (vm.arrayLens rd : Int) ≤ idx.toInt then
      vm.fail "ERR_PX64_ARRAY_OUT_OF_BOUNDS" "Array element access out of bounds"
    else if vm.arrayBases rd + idx.toNat < lim.slots then
      .ok { vm with
        arraySlots := Function.update vm.arraySlots (vm.arrayBases rd + idx.toNat) val }
    else vm.panicked
  | .structDef =>
    if rd < lim.ids then
      let counts := Function.update vm.structFieldCounts rd rs1
      .ok { vm with
        structFieldCounts := counts
        structBases := Function.update vm.structBases rd (arrayBase counts rd) }
    else .ok vm
  | .structLoad =>
    if lim.ids ≤ rs1 ∨ vm.structFieldCounts rs1 ≤ rs2 then
      vm.fail "ERR_PX64_STRUCT_OUT_OF_BOUNDS" "Struct field offset out of bounds"
    else if vm.structBases rs1 + rs2 < lim.slots then
      .ok (vm.setReg rd (vm.structSlots (vm.structBases rs1 + rs2)))
    else vm.panicked
  | .structStore =>
    let val := vm.regOr rs2 0#64
    if lim.ids ≤ rd ∨ vm.structFieldCounts rd ≤ rs1 then
      vm.fail "ERR_PX64_STRUCT_OUT_OF_BOUNDS" "Struct field offset out of bounds"
    else if vm.structBases rd + rs1 < lim.slots then
      .ok { vm with structSlots := Function.update vm.structSlots (vm.structBases rd + rs1) val }
    else vm.panicked
  | .tblDef =>
    if rd < lim.ids then
      .ok { vm with
        tableBases := Function.update vm.tableBases rd rs1
        tableLens := Function.update vm.tableLens rd rs2 }
    else .ok vm
  | .assert =>
    if vm.regOr rd 0#64 = 0#64 then
      vm.fail "ERR_PX64_ASSERTION_FAILED"
        "PulseLang assertion failed: condition evaluated to false (0)"
    else .ok vm
  | .call =>
    if maxCallDepth ≤ vm.callSp then
      vm.fail "ERR_PX64_STACK_OVERFLOW"
        ("Call stack overflow: exceeded MAX_CALL_DEPTH limit (8 nested calls maximum, " ++
          "unbounded recursion prohibited)")
    else
      .ok { vm with
        callStack := Function.update vm.callStack vm.callSp (vm.ip % 65536)
        frameStack := Function.update vm.frameStack vm.callSp vm.regs
        callSp := vm.callSp + 1
        ip := imm16 }
  | .movReg => .ok (if rs1 < px64NumRegisters then vm.setReg rd (vm.regs rs1) else vm)
  | .movStr =>
    .ok (vm.setReg rd (strTag ||| (BitVec.ofNat 64 rs1 <<< 32) ||| BitVec.ofNat 64 rs2))
  | .add => .ok (vm.alu rd rs1 rs2 (· + ·))
  | .sub => .ok (vm.alu rd rs1 rs2 (· - ·))
  | .mul => .ok (vm.alu rd rs1 rs2 (· * ·))
  | .div =>
    if rd < px64NumRegisters ∧ rs1 < px64NumRegisters ∧ rs2 < px64NumRegisters ∧
        vm.regs rs2 = 0#64 then
      vm.fail "ERR_PX64_DIV_BY_ZERO" "Division by zero in px64 virtual register machine"
    else .ok (vm.alu rd rs1 rs2 BitVec.sdiv)
  | .mod =>
    if rd < px64NumRegisters ∧ rs1 < px64NumRegisters ∧ rs2 < px64NumRegisters ∧
        vm.regs rs2 = 0#64 then
      vm.fail "ERR_PX64_DIV_BY_ZERO" "Modulo by zero in px64 virtual register machine"
    else .ok (vm.alu rd rs1 rs2 BitVec.srem)
  | .cmpEq => .ok (vm.alu rd rs1 rs2 fun a b => boolWord (cmpEq str a b))
  | .cmpNe => .ok (vm.alu rd rs1 rs2 fun a b => boolWord (!cmpEq str a b))
  | .streq => .ok (vm.alu rd rs1 rs2 fun a b => boolWord (strEq str a b))
  | .cmpLt => .ok (vm.alu rd rs1 rs2 fun a b => boolWord (a.slt b))
  | .cmpLe => .ok (vm.alu rd rs1 rs2 fun a b => boolWord (a.sle b))
  | .cmpGt => .ok (vm.alu rd rs1 rs2 fun a b => boolWord (b.slt a))
  | .cmpGe => .ok (vm.alu rd rs1 rs2 fun a b => boolWord (b.sle a))
  | .spillStore =>
    if rd < 32 then
      .ok { vm with spillSlots := Function.update vm.spillSlots rd (vm.regOr rs1 0#64) }
    else .ok vm
  | .spillLoad => .ok (vm.setReg rd (if rs1 < 32 then vm.spillSlots rs1 else 0#64))
  | .jmp => .ok { vm with ip := imm16 }
  | .jz =>
    .ok (if rd < px64NumRegisters ∧ vm.regs rd = 0#64 then { vm with ip := imm16 } else vm)
  | .jnz =>
    .ok (if rd < px64NumRegisters ∧ vm.regs rd ≠ 0#64 then { vm with ip := imm16 } else vm)
  | .withinEnd => .ok { vm with dlSp := vm.dlSp - 1 }
  | .halt | .ret | .tblLoad | .callNat | .withinStart | .drop => .ok vm

/-- Return to the caller: only the sixteen general registers are restored, and `$rax`
carries the result. -/
def doRet (vm : PX64VM) : PX64VM :=
  { vm with
    callSp := vm.callSp - 1
    regs := fun r =>
      if r = 0 then vm.regs 0
      else if r < 16 then vm.frameStack (vm.callSp - 1) r
      else vm.regs r
    ip := vm.callStack (vm.callSp - 1) }

/-- Execute one decoded instruction. -/
def exec (host : Host) (vm : PX64VM) (op : Opcode) (rd rs1 rs2 : ℕ) :
    Except (Stop × PX64VM) PX64VM :=
  match op with
  | .halt => .error (.ok, vm)
  | .ret => if vm.callSp = 0 then .error (.ok, vm) else .ok vm.doRet
  | .tblLoad =>
    let idx := vm.regOr rs2 (-1#64)
    if 16 ≤ rs1 then vm.fail "ERR_PX64_TABLE_INVALID_ID" "Const table ID is invalid"
    else if idx.toInt < 0 ∨ (vm.tableLens rs1 : Int) ≤ idx.toInt then
      vm.fail "ERR_PX64_TABLE_OUT_OF_BOUNDS" "Const table lookup index out of bounds"
    else
      match vm.constPool[vm.tableBases rs1 + idx.toNat]? with
      | none => vm.fail "ERR_PX64_TABLE_OUT_OF_BOUNDS"
          "Const table lookup index out of bounds in const pool"
      | some c => .ok (vm.setReg rd c)
  | .callNat =>
    match Native.ofId? rs1 with
    | none => .ok (vm.setReg rd 0#64)
    | some f =>
      match vm.callNative host f rs2 (vm.regOr rs2 0#64) with
      | .ok (ret, vm') => .ok (vm'.setReg rd ret)
      | .error r => .error r
  | .withinStart =>
    let budgetNs := vm.regOr rd 500000#64
    let (now, vm) := vm.getUptimeNs host
    if vm.dlSp < 8 then
      .ok { vm with
        deadlineStack := Function.update vm.deadlineStack vm.dlSp (now + budgetNs)
        dlSp := vm.dlSp + 1 }
    else .ok vm
  | .drop =>
    if 0 < vm.dlSp then
      let (now, vm) := vm.getUptimeNs host
      if vm.deadlineStack (vm.dlSp - 1) < now then
        .ok (vm.write (bytes "[DEADLINE_DROP] Frame dropped due to deadline breach\n"))
      else .ok vm
    else .ok vm
  | op => vm.execCommon coreTables vm.getStrBytes op rd rs1 rs2

/-- The instructions an interpreter has its own body for. -/
def ownOps : List Opcode := [.halt, .ret, .tblLoad, .callNat, .withinStart, .drop]

theorem exec_common (host : Host) (vm : PX64VM) {op : Opcode} (h : op ∉ ownOps) (rd rs1 rs2 : ℕ) :
    vm.exec host op rd rs1 rs2 = vm.execCommon coreTables vm.getStrBytes op rd rs1 rs2 := by
  cases op <;> first | rfl | exact absurd (by decide) h

/-- Count the instruction and move past it. -/
def advance (vm : PX64VM) : PX64VM := { vm with steps := vm.steps + 1, ip := vm.ip + 4 }

/-- One iteration of the interpreter loop. -/
def step (host : Host) (vm : PX64VM) : Except (Stop × PX64VM) PX64VM :=
  if vm.ip + 4 ≤ vm.code.length then
    if vm.maxSteps ≤ vm.steps then
      vm.fail "ERR_PX64_WCET_EXCEEDED"
        "Execution exceeded px64 WCET instruction step limit (infinite loop protection)"
    else
      let op := byteAt vm.code vm.ip
      let rd := byteAt vm.code (vm.ip + 1)
      let rs1 := byteAt vm.code (vm.ip + 2)
      let rs2 := byteAt vm.code (vm.ip + 3)
      match Opcode.ofCode? op with
      | some o => vm.advance.exec host o rd rs1 rs2
      | none =>
        vm.advance.fail "ERR_PX64_INVALID_OPCODE" "Invalid px64 instruction opcode encountered"
  else .error (.ok, vm)

/-- The interpreter loop, for at most `n` iterations: how it stopped and the final
state, or `none` when it is still running. -/
def runWithOutput (host : Host) (n : ℕ) (vm : PX64VM) : Option (Stop × PX64VM) :=
  Machine.run (step host) n vm

end PX64VM

end LatencyOS
