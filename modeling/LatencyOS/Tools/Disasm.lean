import LatencyOS.Compiler.State
import LatencyOS.Container
import LatencyOS.Lib.Str
import Mathlib.Data.List.Basic

/-!
# The disassembler

What `disassemble_px64_with_filename` writes for a binary: five lines about the header,
then one line for each complete instruction of the code section.  A line starts with the
offset and the bytes of the instruction; some formats have operand bytes hard coded.
-/

namespace LatencyOS.Disasm

open Format

/-- `px64_reg_name` -/
def regName (regId : UInt8) : Str :=
  text ((["$rax", "$rcx", "$rdx", "$rbx", "$rsp", "$rbp", "$rsi", "$rdi", "$r8", "$r9", "$r10",
    "$r11", "$r12", "$r13", "$r14", "$r15", "#f0", "#f1", "#f2", "#f3"][regId.toNat]?).getD "$unk")

/-- `px64_native_name` -/
def nativeName (funcId : UInt8) : Str :=
  match Native.ofId? funcId.toNat with
  | some .print => text "@print"
  | some .println => text "@println"
  | some .sysTsc => text "@tsc"
  | some .netRtt => text "@rtt"
  | some .netSetRate => text "@rate"
  | some .gpuCapture => text "@capture"
  | some .netSend => text "@send"
  | some .scriptArgc => text "@argc"
  | some .scriptArg => text "@arg"
  | some .tagOk => text "@ok"
  | some .tagErr => text "@err"
  | some .isOk => text "@is_ok"
  | some .isErr => text "@is_err"
  | some .unwrap => text "@unwrap"
  | some .streq => text "@streq"
  | some .coreId => text "@core_id"
  | some .tscFreq => text "@tsc_freq"
  | some .uptimeNs => text "@uptime_ns"
  | some .busyWait => text "@busy_wait"
  | some .ringDepth => text "@ring_depth"
  | some .mathMin => text "@min"
  | some .mathMax => text "@max"
  | some .mathAbs => text "@abs"
  | some .mathClamp => text "@clamp"
  | some .bitPopcnt => text "@popcnt"
  | some .bitLzcnt => text "@lzcnt"
  | some .crc32 => text "@crc32"
  | some .vramRead => text "@vram_read"
  | some .vramWrite => text "@vram_write"
  | some .fixToFix => text "@to_fix"
  | some .fixToI64 => text "@to_i64"
  | some .fixMul => text "@fix_mul"
  | some .fixDiv => text "@fix_div"
  | some .drop => text "@release"
  | some .termRaw => text "@term_raw"
  | some .termReadKey => text "@term_read_key"
  | some .termSize => text "@term_size"
  | some .fileRead => text "@file_read"
  | some .fileWrite => text "@file_write"
  | some .fileExists => text "@file_exists"
  | some .strLen => text "@str_len"
  | some .charAt => text "@char_at"
  | none => text "@native"

/-- The four bytes of an instruction. -/
structure Instruction where
  op : UInt8
  rd : UInt8
  rs1 : UInt8
  rs2 : UInt8
  deriving DecidableEq

namespace Instruction

def bytes (i : Instruction) : List UInt8 := [i.op, i.rd, i.rs1, i.rs2]

/-- The last two bytes as one number. -/
def imm16 (i : Instruction) : ℕ := i.rs1.toNat * 256 + i.rs2.toNat

def opcode (i : Instruction) : Option Opcode := Opcode.ofCode? i.op.toNat

end Instruction

/-- A line of the listing: the offset, the byte columns and the instruction. -/
def row (opIp : ℕ) (hex : List UInt8) (inst : Str) : Str :=
  hexWord opIp ++ text ":   " ++ hexColumns hex ++ text "  " ++ inst

/-- Three registers. -/
def registers3 (i : Instruction) : Str :=
  regName i.rd ++ text ", " ++ regName i.rs1 ++ text ", " ++ regName i.rs2

/-- The line of an instruction.  The constants are in an array of 64, which is indexed by
any index below the count the header gives. -/
def instructionLine (constCount : ℕ) (constPool : List Word64) (opIp : ℕ) (i : Instruction) :
    Except Abort Str :=
  match i.opcode with
  | some .nop => .ok (row opIp [0x00, 0, 0, 0] (text "NOP"))
  | some .movImm => .ok (row opIp [0x01, i.rd, i.rs1, i.rs2]
      (text "MOV          " ++ regName i.rd ++ text ", " ++ decimalText i.imm16))
  | some .movReg => .ok (row opIp [0x02, i.rd, i.rs1, 0]
      (text "MOV          " ++ regName i.rd ++ text ", " ++ regName i.rs1))
  | some .movStr => .ok (row opIp [0x03, i.rd, i.rs1, i.rs2]
      (text "MOVS         " ++ regName i.rd ++ text ", str[offset:" ++ decimalText i.rs1.toNat ++
        text ", len:" ++ decimalText i.rs2.toNat ++ text "]"))
  | some .add =>
    .ok (row opIp [0x04, i.rd, i.rs1, i.rs2] (text "ADD          " ++ registers3 i))
  | some .sub =>
    .ok (row opIp [0x05, i.rd, i.rs1, i.rs2] (text "SUB          " ++ registers3 i))
  | some .mul =>
    .ok (row opIp [0x06, i.rd, i.rs1, i.rs2] (text "MUL          " ++ registers3 i))
  | some .div =>
    .ok (row opIp [0x07, i.rd, i.rs1, i.rs2] (text "DIV          " ++ registers3 i))
  | some .mod =>
    .ok (row opIp [0x08, i.rd, i.rs1, i.rs2] (text "MOD          " ++ registers3 i))
  | some .cmpEq =>
    .ok (row opIp [0x09, i.rd, i.rs1, i.rs2] (text "CMPEQ        " ++ registers3 i))
  | some .cmpNe =>
    .ok (row opIp [0x0a, i.rd, i.rs1, i.rs2] (text "CMPNE        " ++ registers3 i))
  | some .cmpLt =>
    .ok (row opIp [0x0b, i.rd, i.rs1, i.rs2] (text "CMPLT        " ++ registers3 i))
  | some .cmpLe =>
    .ok (row opIp [0x0c, i.rd, i.rs1, i.rs2] (text "CMPLE        " ++ registers3 i))
  | some .cmpGt =>
    .ok (row opIp [0x0d, i.rd, i.rs1, i.rs2] (text "CMPGT        " ++ registers3 i))
  | some .cmpGe =>
    .ok (row opIp [0x0e, i.rd, i.rs1, i.rs2] (text "CMPGE        " ++ registers3 i))
  | some .jmp => .ok (row opIp [0x0f, 0, i.rs1, i.rs2] (text "JMP          0x" ++ hexWord i.imm16))
  | some .jz => .ok (row opIp [0x10, i.rd, i.rs1, i.rs2]
      (text "JZ           " ++ regName i.rd ++ text ", 0x" ++ hexWord i.imm16))
  | some .jnz => .ok (row opIp [0x11, i.rd, i.rs1, i.rs2]
      (text "JNZ          " ++ regName i.rd ++ text ", 0x" ++ hexWord i.imm16))
  | some .callNat => .ok (row opIp [0x12, i.rd, i.rs1, i.rs2]
      (text "CALL_NAT     " ++ regName i.rd ++ text " = " ++ nativeName i.rs1 ++ text "(" ++
        regName i.rs2 ++ text ")"))
  | some .withinStart =>
    .ok (row opIp [0x13, i.rd, 0, 0] (text "WITHIN_START budget:" ++ regName i.rd))
  | some .withinEnd => .ok (row opIp [0x14, 0, 0, 0] (text "WITHIN_END"))
  | some .drop => .ok (row opIp [0x15, 0, 0, 0] (text "DROP"))
  | some .halt => .ok (row opIp [0x16, 0, 0, 0] (text "HALT"))
  | some .ldc =>
    if i.imm16 < constCount then
      match constPool[i.imm16]? with
      | some v => .ok (row opIp [0x17, i.rd, i.rs1, i.rs2]
          (text "LDC          " ++ regName i.rd ++ text ", const[" ++ decimalText i.imm16 ++
            text "] (" ++ signedText v.toInt ++ text ")"))
      | none => .error .panic
    else .ok (row opIp [0x17, i.rd, i.rs1, i.rs2]
      (text "LDC          " ++ regName i.rd ++ text ", const[" ++ decimalText i.imm16 ++
        text "] (<out of bounds>)"))
  | some .addi => .ok (row opIp [0x18, i.rd, i.rs1, i.rs2]
      (text "ADDI         " ++ regName i.rd ++ text ", " ++ regName i.rs1 ++ text ", " ++
        decimalText i.rs2.toNat))
  | some .subi => .ok (row opIp [0x19, i.rd, i.rs1, i.rs2]
      (text "SUBI         " ++ regName i.rd ++ text ", " ++ regName i.rs1 ++ text ", " ++
        decimalText i.rs2.toNat))
  | some .and =>
    .ok (row opIp [0x1a, i.rd, i.rs1, i.rs2] (text "AND          " ++ registers3 i))
  | some .or =>
    .ok (row opIp [0x1b, i.rd, i.rs1, i.rs2] (text "OR           " ++ registers3 i))
  | some .xor =>
    .ok (row opIp [0x1c, i.rd, i.rs1, i.rs2] (text "XOR          " ++ registers3 i))
  | some .shl =>
    .ok (row opIp [0x1d, i.rd, i.rs1, i.rs2] (text "SHL          " ++ registers3 i))
  | some .shr =>
    .ok (row opIp [0x1e, i.rd, i.rs1, i.rs2] (text "SHR          " ++ registers3 i))
  | some .arrDef => .ok (row opIp [0x1f, i.rd, i.rs1, i.rs2]
      (text "ARR_DEF      arr[" ++ decimalText i.rd.toNat ++ text "], len: " ++
        decimalText i.imm16))
  | some .arrLoad => .ok (row opIp [0x20, i.rd, i.rs1, i.rs2]
      (text "ARR_LOAD     " ++ regName i.rd ++ text ", arr[" ++ decimalText i.rs1.toNat ++
        text "][" ++ regName i.rs2 ++ text "]"))
  | some .arrStore => .ok (row opIp [0x21, i.rd, i.rs1, i.rs2]
      (text "ARR_STORE    arr[" ++ decimalText i.rd.toNat ++ text "][" ++ regName i.rs1 ++
        text "], " ++ regName i.rs2))
  | some .assert => .ok (row opIp [0x22, i.rd, 0, 0] (text "ASSERT       " ++ regName i.rd))
  | some .call =>
    .ok (row opIp [0x23, 0, i.rs1, i.rs2] (text "CALL         0x" ++ hexWord i.imm16))
  | some .ret => .ok (row opIp [0x24, 0, 0, 0] (text "RET"))
  | some .structDef => .ok (row opIp [0x25, i.rd, i.rs1, 0]
      (text "STRUCT_DEF   inst[" ++ decimalText i.rd.toNat ++ text "], fields: " ++
        decimalText i.rs1.toNat))
  | some .structLoad => .ok (row opIp [0x26, i.rd, i.rs1, i.rs2]
      (text "STRUCT_LOAD  " ++ regName i.rd ++ text ", inst[" ++ decimalText i.rs1.toNat ++
        text "].f[" ++ decimalText i.rs2.toNat ++ text "]"))
  | some .structStore => .ok (row opIp [0x27, i.rd, i.rs1, i.rs2]
      (text "STRUCT_STORE inst[" ++ decimalText i.rd.toNat ++ text "].f[" ++
        decimalText i.rs1.toNat ++ text "], " ++ regName i.rs2))
  | some .tblDef => .ok (row opIp [0x28, i.rd, i.rs1, i.rs2]
      (text "TBL_DEF      table[" ++ decimalText i.rd.toNat ++ text "], base: " ++
        decimalText i.rs1.toNat ++ text ", len: " ++ decimalText i.rs2.toNat))
  | some .tblLoad => .ok (row opIp [0x29, i.rd, i.rs1, i.rs2]
      (text "TBL_LOAD     " ++ regName i.rd ++ text ", table[" ++ decimalText i.rs1.toNat ++
        text "][" ++ regName i.rs2 ++ text "]"))
  | some .streq =>
    .ok (row opIp [0x2a, i.rd, i.rs1, i.rs2] (text "STREQ        " ++ registers3 i))
  | some .spillStore => .ok (row opIp [0x2b, i.rd, i.rs1, i.rs2]
      (text "SPILL_STORE  slot[" ++ decimalText i.rd.toNat ++ text "], " ++ regName i.rs1))
  | some .spillLoad => .ok (row opIp [0x2c, i.rd, i.rs1, i.rs2]
      (text "SPILL_LOAD   " ++ regName i.rd ++ text ", slot[" ++ decimalText i.rs1.toNat ++
        text "]"))
  | none => .ok (row opIp [i.op, i.rd, i.rs1, i.rs2]
      (text "UNKNOWN_OP_0x" ++ hexByte i.op))

/-- The loop over the code section; an incomplete instruction at its end is left out. -/
def disasmLoop (constCount : ℕ) (constPool : List Word64) :
    ℕ → List UInt8 → Except Abort (List Str)
  | ip, op :: rd :: rs1 :: rs2 :: code => do
    let line ← instructionLine constCount constPool ip ⟨op, rd, rs1, rs2⟩
    let lines ← disasmLoop constCount constPool (ip + 4) code
    return line :: lines
  | _, _ => .ok []

/-- The code section: the file can end before the length the header gives. -/
def codeSection (bin : List UInt8) : List UInt8 :=
  (bin.drop px64HeaderSize).take (headerField bin 6)

/-- The 64 constants of the listing: those of the file when it holds as many as the header
says, else zeros. -/
def constPool (bin : List UInt8) : List Word64 :=
  let constStart := px64HeaderSize + headerField bin 6 + headerField bin 8
  let constCount := headerField bin 10
  (List.range 64).map fun i =>
    if constStart + constCount * 8 ≤ bin.length ∧ i < constCount then
      BitVec.ofNat 64 (beNat ((bin.drop (constStart + i * 8)).take 8))
    else 0

/-- The lines about the header. -/
def headerLines (bin : List UInt8) (filename : Str) : List Str :=
  [ text "=== [px64 Virtual Register Machine Disassembly] " ++ filename ++ text " ===",
    text ("NOTE: Registers ($rax..$r15, #f0..#f3) are px64 VM virtual registers, " ++
      "not host CPU GPRs."),
    text "Magic: PX64 | Version: " ++ decimalText (headerField bin 4) ++ text " | Code: " ++
      decimalText (headerField bin 6) ++ text " B | Registers: " ++
      decimalText (headerField bin 12) ++ text " GPRs+HW | StringPool: " ++
      decimalText (headerField bin 8) ++ text " B | ConstPool: " ++
      decimalText (headerField bin 10) ++ text " entries",
    text "OFFSET  HEX          INSTRUCTION  OPERANDS (px64 Virtual Registers)",
    text "---------------------------------------------------------------" ]

/-- A binary the listing is for. -/
def HasPx64Header (bin : List UInt8) : Prop :=
  px64HeaderSize ≤ bin.length ∧ bin.take 4 = px64BinMagic

instance (bin : List UInt8) : Decidable (HasPx64Header bin) := inferInstanceAs (Decidable (_ ∧ _))

/-- `disassemble_px64_with_filename`: the lines it writes.  The branch of the older format
is for the same magic and header size, so nothing reaches it. -/
def disassemblePx64WithFilename (bin : List UInt8) (filename : Str) :
    Except Abort (List Str) :=
  if HasPx64Header bin then do
    let lines ← disasmLoop (headerField bin 10) (constPool bin) 0 (codeSection bin)
    return headerLines bin filename ++ lines
  else
    .error (.error
      (.simple "ERR_BINARY_INVALID_MAGIC" "Invalid executable binary magic (expected PX64)"))

/-! ## What the listing shows -/

/-- The HEX columns of a line. -/
def hexOf (line : Str) : Option (List UInt8) := readColumns ((line.drop 8).take 11)

/-- The complete instructions of a code section. -/
def instructions : List UInt8 → List Instruction
  | op :: rd :: rs1 :: rs2 :: code => ⟨op, rd, rs1, rs2⟩ :: instructions code
  | _ => []

/-- The listing of a binary is written, has one line for each complete instruction, and its
HEX columns are the bytes of these instructions. -/
def Lossless (bin : List UInt8) (filename : Str) : Prop :=
  ∃ lines, disassemblePx64WithFilename bin filename = .ok (headerLines bin filename ++ lines) ∧
    lines.length = (codeSection bin).length / 4 ∧
    lines.map hexOf = (instructions (codeSection bin)).map fun i => some i.bytes

namespace Instruction

/-- The operand bytes the format of an instruction has hard coded. -/
def hidden (i : Instruction) : List UInt8 :=
  match i.opcode with
  | some .nop | some .withinEnd | some .drop | some .halt | some .ret => [i.rd, i.rs1, i.rs2]
  | some .movReg | some .structDef => [i.rs2]
  | some .jmp | some .call => [i.rd]
  | some .withinStart | some .assert => [i.rs1, i.rs2]
  | _ => []

/-- The instruction loads a constant the header counts and the array has no room for. -/
def PastArray (constCount : ℕ) (i : Instruction) : Prop :=
  i.opcode = some .ldc ∧ 64 ≤ i.imm16 ∧ i.imm16 < constCount

instance (constCount : ℕ) (i : Instruction) : Decidable (i.PastArray constCount) :=
  inferInstanceAs (Decidable (_ ∧ _ ∧ _))

end Instruction

theorem opcode_eq_some {i : Instruction} {o : Opcode} (h : i.opcode = some o) :
    i.op = UInt8.ofNat o.code := by
  have hall : ∀ b : Fin 256, ∀ o, Opcode.ofCode? b.val = some o → b.val = o.code := by
    decide +kernel
  have hop : i.op.toNat = o.code := hall ⟨i.op.toNat, i.op.toNat_lt⟩ o h
  rw [← hop, UInt8.ofNat_toNat]

@[simp] theorem length_constPool (bin : List UInt8) : (constPool bin).length = 64 := by
  simp [constPool]

/-- The columns of a line read back. -/
theorem hexOf_row (opIp : ℕ) (op rd rs1 rs2 : UInt8) (inst : Str) :
    hexOf (row opIp [op, rd, rs1, rs2] inst) = some [op, rd, rs1, rs2] :=
  readColumns_hexColumns [op, rd, rs1, rs2]

theorem instructionLine_pastArray {constCount : ℕ} {consts : List Word64} {opIp : ℕ}
    {i : Instruction} (hlen : consts.length = 64) (h : i.PastArray constCount) :
    instructionLine constCount consts opIp i = .error .panic := by
  unfold instructionLine
  rw [h.1]
  dsimp only
  rw [if_pos h.2.2, List.getElem?_eq_none (hlen ▸ h.2.1)]

/-- Every other instruction has a line, whose columns are its bytes when the hard-coded
ones are zero. -/
theorem instructionLine_row {constCount : ℕ} {consts : List Word64} (opIp : ℕ)
    {i : Instruction} (hlen : consts.length = 64) (h : ¬ i.PastArray constCount) :
    ∃ rd rs1 rs2 inst,
      instructionLine constCount consts opIp i = .ok (row opIp [i.op, rd, rs1, rs2] inst) ∧
      ([i.op, rd, rs1, rs2] = i.bytes ↔ ∀ b ∈ i.hidden, b = 0) := by
  have hcomm : ∀ b : UInt8, (0 = b) = (b = 0) := fun b => propext eq_comm
  obtain ⟨op, rd, rs1, rs2⟩ := i
  cases hop : Instruction.opcode ⟨op, rd, rs1, rs2⟩ with
  | none =>
    refine ⟨rd, rs1, rs2, _, by rw [instructionLine, hop], ?_⟩
    simp [Instruction.bytes, Instruction.hidden, hop]
  | some o =>
    have hcode : op = UInt8.ofNat o.code := opcode_eq_some hop
    unfold instructionLine
    rw [hop]
    cases o
    case ldc =>
      subst hcode
      dsimp only
      split
      · next hcount =>
        have hroom : ¬ 64 ≤ Instruction.imm16 ⟨_, rd, rs1, rs2⟩ := fun hge => h ⟨hop, hge, hcount⟩
        rw [List.getElem?_eq_getElem (hlen ▸ Nat.not_le.mp hroom)]
        exact ⟨_, _, _, _, rfl, by simp [Instruction.bytes, Instruction.hidden, hop]⟩
      · exact ⟨_, _, _, _, rfl, by simp [Instruction.bytes, Instruction.hidden, hop]⟩
    all_goals
      subst hcode
      refine ⟨_, _, _, _, rfl, ?_⟩
      simp [Instruction.bytes, Instruction.hidden, hop, hcomm]

theorem length_instructions (code : List UInt8) : (instructions code).length = code.length / 4 := by
  induction code using instructions.induct with
  | case1 op rd rs1 rs2 code ih =>
    rw [instructions, List.length_cons, ih]
    simp only [List.length_cons]
    omega
  | case2 code hshort =>
    have hlt : code.length < 4 := by
      rcases code with _ | ⟨a, _ | ⟨b, _ | ⟨c, _ | ⟨d, code⟩⟩⟩⟩
      case cons.cons.cons.cons => exact absurd rfl (hshort a b c d code)
      all_goals simp
    rw [Nat.div_eq_of_lt hlt, instructions]
    · rfl
    · exact hshort

/-- The loop panics at the first instruction past the array, and else writes one line for
each instruction. -/
theorem disasmLoop_spec (constCount : ℕ) {consts : List Word64} (hlen : consts.length = 64)
    (code : List UInt8) (ip : ℕ) :
    ((∃ i ∈ instructions code, i.PastArray constCount) →
      disasmLoop constCount consts ip code = .error .panic) ∧
    ((∀ i ∈ instructions code, ¬ i.PastArray constCount) →
      ∃ lines, disasmLoop constCount consts ip code = .ok lines ∧
        lines.length = (instructions code).length ∧
        (lines.map hexOf = (instructions code).map (fun i => some i.bytes) ↔
          ∀ i ∈ instructions code, ∀ b ∈ i.hidden, b = 0)) := by
  induction code using instructions.induct generalizing ip with
  | case1 op rd rs1 rs2 code ih =>
    simp only [instructions, List.exists_mem_cons_iff, List.forall_mem_cons]
    obtain ⟨ihpanic, ihlines⟩ := ih (ip + 4)
    constructor
    · intro hpast
      by_cases h : Instruction.PastArray constCount ⟨op, rd, rs1, rs2⟩
      · rw [disasmLoop, instructionLine_pastArray hlen h]
        rfl
      · obtain ⟨_, _, _, inst, hline, -⟩ := instructionLine_row ip hlen h
        rw [disasmLoop, hline, ihpanic (hpast.resolve_left h)]
        rfl
    · rintro ⟨h, hrest⟩
      obtain ⟨_, _, _, inst, hline, hcolumns⟩ := instructionLine_row ip hlen h
      obtain ⟨lines, hlines, hlength, hrestcolumns⟩ := ihlines hrest
      refine ⟨_ :: lines, by rw [disasmLoop, hline, hlines]; rfl, ?_, ?_⟩
      · rw [List.length_cons, List.length_cons, hlength]
      · rw [List.map_cons, List.map_cons, hexOf_row, List.cons_eq_cons, Option.some_inj, hcolumns,
          hrestcolumns]
  | case2 code hshort =>
    have hnone : instructions code = [] := by
      rw [instructions]
      exact hshort
    have hloop : disasmLoop constCount consts ip code = .ok [] := by
      rw [disasmLoop]
      intro a b c d rest h
      exact hshort a b c d rest h
    rw [hnone]
    exact ⟨fun h => by simp at h, fun _ => ⟨[], hloop, rfl, by simp⟩⟩

/-- The listing loses nothing exactly when no complete instruction has a hard-coded byte
that is not zero or loads a constant past the array. -/
theorem lossless_iff (bin : List UInt8) (filename : Str) (hheader : HasPx64Header bin) :
    Lossless bin filename ↔
      ∀ i ∈ instructions (codeSection bin),
        (∀ b ∈ i.hidden, b = 0) ∧ ¬ i.PastArray (headerField bin 10) := by
  have hloop := disasmLoop_spec (headerField bin 10) (length_constPool bin)
    (codeSection bin) 0
  unfold Lossless disassemblePx64WithFilename
  rw [if_pos hheader]
  by_cases hpast : ∃ i ∈ instructions (codeSection bin), i.PastArray (headerField bin 10)
  · rw [hloop.1 hpast]
    constructor
    · rintro ⟨lines, h, -⟩
      cases h
    · intro h
      obtain ⟨i, hi, hbad⟩ := hpast
      exact absurd hbad (h i hi).2
  · have hroom : ∀ i ∈ instructions (codeSection bin), ¬ i.PastArray (headerField bin 10) :=
      fun i hi hbad => hpast ⟨i, hi, hbad⟩
    obtain ⟨lines, hlines, hlength, hcolumns⟩ := hloop.2 hroom
    rw [hlines]
    constructor
    · rintro ⟨lines', h, -, hhex⟩
      cases List.append_cancel_left (Except.ok.inj h)
      exact fun i hi => ⟨hcolumns.mp hhex i hi, hroom i hi⟩
    · intro h
      exact ⟨lines, rfl, by rw [hlength, length_instructions], hcolumns.mpr fun i hi => (h i hi).1⟩

/-- A binary of the given code, without strings, and the count of constants of its header. -/
def binaryOf (constCount : ℕ) (code : List UInt8) : List UInt8 :=
  px64BinMagic ++ headerBytes px64BinVersion ++ headerBytes code.length ++ headerBytes 0 ++
    headerBytes constCount ++ headerBytes px64NumRegisters ++ headerBytes 0 ++ code

/-- `MOV $rcx, 5` and `HALT` -/
def movHalt : List UInt8 := binaryOf 0 [0x01, 1, 0, 5, 0x16, 0, 0, 0]

theorem movHalt_lossless : Lossless movHalt (text "binary") :=
  (lossless_iff movHalt (text "binary") (by decide)).mpr (by decide +kernel)

/-- The header counts 65 constants and the instruction loads the last. -/
def lastConstant : List UInt8 := binaryOf 65 [0x17, 0, 0, 64]

/-- `HALT` with an operand byte. -/
def haltOperand : List UInt8 := binaryOf 0 [0x16, 1, 0, 0]

theorem lastConstant_lossy :
    ¬ Lossless lastConstant (text "binary") ∧ ¬ Lossless haltOperand (text "binary") := by
  constructor
  · rintro ⟨lines, h, -⟩
    have hpast : ∃ i ∈ instructions (codeSection lastConstant),
        i.PastArray (headerField lastConstant 10) := by decide +kernel
    rw [disassemblePx64WithFilename, if_pos (by decide),
      (disasmLoop_spec _ (length_constPool _) _ 0).1 hpast] at h
    cases h
  · rintro ⟨lines, h, -, hhex⟩
    have hcode : codeSection haltOperand = [0x16, 1, 0, 0] := by decide +kernel
    have hline : disasmLoop (headerField haltOperand 10) (constPool haltOperand) 0
        (codeSection haltOperand) = .ok [row 0 [0x16, 0, 0, 0] (text "HALT")] := by
      rw [hcode]
      rfl
    rw [disassemblePx64WithFilename, if_pos (by decide), hline] at h
    cases List.append_cancel_left (Except.ok.inj h)
    rw [hcode, List.map_singleton, hexOf_row] at hhex
    cases hhex

end LatencyOS.Disasm
