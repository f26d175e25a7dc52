import Mathlib.Algebra.Ring.Int.Defs
import Mathlib.Algebra.Ring.Nat

/-!
# The px64 instruction set

Opcodes, native functions, limits and value tags of the px64 register machine.
An instruction is four bytes: an opcode, a destination byte and two source bytes,
the last two also read as one big-endian 16-bit immediate.
-/

namespace LatencyOS

/-- A signed or unsigned 64-bit machine word. -/
abbrev Word64 := BitVec 64

/-- The px64 opcodes. -/
inductive Opcode
  | nop | movImm | movReg | movStr
  | add | sub | mul | div | mod
  | cmpEq | cmpNe | cmpLt | cmpLe | cmpGt | cmpGe
  | jmp | jz | jnz | callNat
  | withinStart | withinEnd | drop | halt
  | ldc | addi | subi | and | or | xor | shl | shr
  | arrDef | arrLoad | arrStore | assert | call | ret
  | structDef | structLoad | structStore | tblDef | tblLoad | streq
  | spillStore | spillLoad
  deriving DecidableEq, Repr

namespace Opcode

/-- The byte that encodes an opcode. -/
def code : Opcode → ℕ
  | nop => 0 | movImm => 1 | movReg => 2 | movStr => 3
  | add => 4 | sub => 5 | mul => 6 | div => 7 | mod => 8
  | cmpEq => 9 | cmpNe => 10 | cmpLt => 11 | cmpLe => 12 | cmpGt => 13 | cmpGe => 14
  | jmp => 15 | jz => 16 | jnz => 17 | callNat => 18
  | withinStart => 19 | withinEnd => 20 | drop => 21 | halt => 22
  | ldc => 23 | addi => 24 | subi => 25 | and => 26 | or => 27 | xor => 28 | shl => 29 | shr => 30
  | arrDef => 31 | arrLoad => 32 | arrStore => 33 | assert => 34 | call => 35 | ret => 36
  | structDef => 37 | structLoad => 38 | structStore => 39 | tblDef => 40 | tblLoad => 41
  | streq => 42 | spillStore => 43 | spillLoad => 44

/-- The opcode a byte encodes, if any. -/
def ofCode? : ℕ → Option Opcode
  | 0 => some nop | 1 => some movImm | 2 => some movReg | 3 => some movStr
  | 4 => some add | 5 => some sub | 6 => some mul | 7 => some div | 8 => some mod
  | 9 => some cmpEq | 10 => some cmpNe | 11 => some cmpLt | 12 => some cmpLe
  | 13 => some cmpGt | 14 => some cmpGe
  | 15 => some jmp | 16 => some jz | 17 => some jnz | 18 => some callNat
  | 19 => some withinStart | 20 => some withinEnd | 21 => some drop | 22 => some halt
  | 23 => some ldc | 24 => some addi | 25 => some subi | 26 => some and | 27 => some or
  | 28 => some xor | 29 => some shl | 30 => some shr
  | 31 => some arrDef | 32 => some arrLoad | 33 => some arrStore | 34 => some assert
  | 35 => some call | 36 => some ret
  | 37 => some structDef | 38 => some structLoad | 39 => some structStore
  | 40 => some tblDef | 41 => some tblLoad | 42 => some streq
  | 43 => some spillStore | 44 => some spillLoad
  | _ => none

@[simp] theorem ofCode?_code (o : Opcode) : ofCode? o.code = some o := by cases o <;> rfl

theorem code_lt (o : Opcode) : o.code < 256 := by cases o <;> decide

end Opcode

/-- The four bytes of an instruction. -/
def instBytes (op : Opcode) (rd rs1 rs2 : ℕ) : List UInt8 :=
  [UInt8.ofNat op.code, UInt8.ofNat rd, UInt8.ofNat rs1, UInt8.ofNat rs2]

/-- The native functions a `CALL_NAT` instruction can name. -/
inductive Native
  | print | println | sysTsc | netRtt | netSetRate | gpuCapture | netSend
  | scriptArgc | scriptArg | tagOk | tagErr | isOk | isErr | unwrap | streq
  | coreId | tscFreq | uptimeNs | busyWait | ringDepth
  | mathMin | mathMax | mathAbs | mathClamp | bitPopcnt | bitLzcnt | crc32
  | vramRead | vramWrite | fixToFix | fixToI64 | fixMul | fixDiv
  | drop | termRaw | termReadKey | termSize
  | fileRead | fileWrite | fileExists | strLen | charAt
  deriving DecidableEq, Repr

namespace Native

/-- The byte that identifies a native function. -/
def id : Native → ℕ
  | print => 1 | println => 2 | sysTsc => 3 | netRtt => 4 | netSetRate => 5
  | gpuCapture => 6 | netSend => 7 | scriptArgc => 8 | scriptArg => 9
  | tagOk => 10 | tagErr => 11 | isOk => 12 | isErr => 13 | unwrap => 14 | streq => 15
  | coreId => 16 | tscFreq => 17 | uptimeNs => 18 | busyWait => 19 | ringDepth => 20
  | mathMin => 21 | mathMax => 22 | mathAbs => 23 | mathClamp => 24
  | bitPopcnt => 25 | bitLzcnt => 26 | crc32 => 27 | vramRead => 28 | vramWrite => 29
  | fixToFix => 30 | fixToI64 => 31 | fixMul => 32 | fixDiv => 33
  | drop => 34 | termRaw => 35 | termReadKey => 36 | termSize => 37
  | fileRead => 38 | fileWrite => 39 | fileExists => 40 | strLen => 41 | charAt => 42

/-- The native function a byte identifies, if any. -/
def ofId? : ℕ → Option Native
  | 1 => some print | 2 => some println | 3 => some sysTsc | 4 => some netRtt
  | 5 => some netSetRate | 6 => some gpuCapture | 7 => some netSend
  | 8 => some scriptArgc | 9 => some scriptArg | 10 => some tagOk | 11 => some tagErr
  | 12 => some isOk | 13 => some isErr | 14 => some unwrap | 15 => some streq
  | 16 => some coreId | 17 => some tscFreq | 18 => some uptimeNs | 19 => some busyWait
  | 20 => some ringDepth | 21 => some mathMin | 22 => some mathMax | 23 => some mathAbs
  | 24 => some mathClamp | 25 => some bitPopcnt | 26 => some bitLzcnt | 27 => some crc32
  | 28 => some vramRead | 29 => some vramWrite | 30 => some fixToFix | 31 => some fixToI64
  | 32 => some fixMul | 33 => some fixDiv | 34 => some drop | 35 => some termRaw
  | 36 => some termReadKey | 37 => some termSize | 38 => some fileRead | 39 => some fileWrite
  | 40 => some fileExists | 41 => some strLen | 42 => some charAt
  | _ => none

@[simp] theorem ofId?_id (f : Native) : ofId? f.id = some f := by cases f <;> rfl

theorem id_lt (f : Native) : f.id < 256 := by cases f <;> decide

end Native

/-! ## Container constants and resource limits -/

/-- The bytes `PX64` that open every binary. -/
def px64BinMagic : List UInt8 := [0x50, 0x58, 0x36, 0x34]
def px64BinVersion : ℕ := 3
def px64HeaderSize : ℕ := 16
def px64NumRegisters : ℕ := 20
def maxConstPool : ℕ := 64
def maxTokens : ℕ := 2048
def maxBytecodeSize : ℕ := 4096
def maxVars : ℕ := 48
def maxEnums : ℕ := 16
def maxEnumVariants : ℕ := 16
def maxStringPool : ℕ := 512
def maxVmSteps : ℕ := 10000
def maxCallDepth : ℕ := 8
/-- The wall-clock watchdog of the kernel machine, in nanoseconds. -/
def maxScriptTimeoutNs : ℕ := 5000000

/-! ## Value tags -/

/-- Marks a word as a string-pool reference. -/
def strTag : Word64 := 0x4000000000000000#64
/-- Marks a word as a command-line argument reference. -/
def argTag : Word64 := 0x2000000000000000#64
/-- Marks a word as an error result. -/
def errTag : Word64 := 0x1000000000000000#64

end LatencyOS
