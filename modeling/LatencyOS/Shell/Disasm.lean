import LatencyOS.Tools.Disasm

/-!
# The shell's disassembler

The kernel's `disasm` command lists a binary as the core's disassembler does, with fewer names and
without the core's checks: the constants of the file go into an array of 64, and the code section
is sliced by the length the header claims.
-/

namespace LatencyOS

open Format Disasm

namespace Shell

/-! ## The instructions of px64 -/

/-- The native functions the command has names for. -/
def shellNatives : List Native :=
  [.print, .println, .sysTsc, .netRtt, .netSetRate, .gpuCapture, .netSend, .scriptArgc, .scriptArg,
    .tagOk, .tagErr, .isOk, .isErr, .unwrap, .coreId, .tscFreq, .uptimeNs, .busyWait, .ringDepth,
    .mathMin, .mathMax, .mathAbs, .mathClamp, .bitPopcnt, .bitLzcnt, .crc32, .vramRead, .vramWrite]

/-- The name of a native function. -/
def nativeName (funcId : UInt8) : Str :=
  match Native.ofId? funcId.toNat with
  | some n => if n ∈ shellNatives then Disasm.nativeName funcId else text "@native"
  | none => text "@native"

/-- The line of an instruction.  The spill instructions are unknown here. -/
def instructionLine (constCount : ℕ) (constPool : List Word64) (opIp : ℕ) (i : Instruction) :
    Except Abort Str :=
  match i.opcode with
  | some .callNat => .ok (Disasm.row opIp [0x12, i.rd, i.rs1, i.rs2]
      (text "CALL_NAT     " ++ regName i.rd ++ text " = " ++ nativeName i.rs1 ++ text "(" ++
        regName i.rs2 ++ text ")"))
  | some .spillStore | some .spillLoad => .ok (Disasm.row opIp [i.op, i.rd, i.rs1, i.rs2]
      (text "UNKNOWN_OP_0x" ++ hexByte i.op))
  | _ => Disasm.instructionLine constCount constPool opIp i

/-- The walk over the code; an incomplete instruction at its end is left out. -/
def disasmLoop (constCount : ℕ) (constPool : List Word64) :
    ℕ → List UInt8 → Except Abort (List Str)
  | ip, op :: rd :: rs1 :: rs2 :: code => do
    let line ← instructionLine constCount constPool ip ⟨op, rd, rs1, rs2⟩
    let lines ← disasmLoop constCount constPool (ip + 4) code
    return line :: lines
  | _, _ => .ok []

/-! ## The older instructions -/

/-- The bytes of operands behind an opcode. -/
def legacyOperands (op : UInt8) : ℕ :=
  match op.toNat with
  | 1 | 18 => 8
  | 2 | 3 => 1
  | 15 | 16 | 17 => 2
  | 21 => 4
  | _ => 0

/-- The names of the older native functions. -/
def legacyNativeName (func : UInt8) : Str :=
  match func.toNat with
  | 1 => text "@print"
  | 2 => text "@println"
  | 3 => text "@tsc"
  | 4 => text "@rtt"
  | 5 => text "@rate"
  | 6 => text "@capture"
  | 7 => text "@send"
  | 8 => text "@argc"
  | 9 => text "@arg"
  | _ => text "unknown"

/-- A byte of the operands. -/
def operand (operands : List UInt8) (i : ℕ) : UInt8 := operands.getD i 0

/-- What is behind the offset in the line of an older instruction with all its operands. -/
def legacyText (op : UInt8) (operands : List UInt8) : Str :=
  let word := signedText (BitVec.ofNat 64 (beNat operands)).toInt
  let half := fun i => beNat ((operands.drop i).take 2)
  match op.toNat with
  | 0 => text "   OP_NOP"
  | 1 => text "   OP_PUSH_CONST       " ++ word
  | 2 => text "   OP_LOAD_VAR         $" ++ decimalText (operand operands 0).toNat
  | 3 => text "   OP_STORE_VAR        $" ++ decimalText (operand operands 0).toNat
  | 4 => text "   OP_ADD"
  | 5 => text "   OP_SUB"
  | 6 => text "   OP_MUL"
  | 7 => text "   OP_DIV"
  | 8 => text "   OP_MOD"
  | 9 => text "   OP_CMP_EQ"
  | 10 => text "  OP_CMP_NE"
  | 11 => text "  OP_CMP_LT"
  | 12 => text "  OP_CMP_LE"
  | 13 => text "  OP_CMP_GT"
  | 14 => text "  OP_CMP_GE"
  | 15 => text "   OP_JUMP             0x" ++ hexWord (half 0)
  | 16 => text "   OP_JUMP_IF_FALSE    0x" ++ hexWord (half 0)
  | 17 => text "   OP_CALL_NATIVE      " ++ legacyNativeName (operand operands 0) ++
      text " (argc: " ++ decimalText (operand operands 1).toNat ++ text ")"
  | 18 => text "   OP_WITHIN_START     " ++ word ++ text " ns"
  | 19 => text "   OP_WITHIN_END"
  | 20 => text "   OP_DROP"
  | 21 => text "   OP_PUSH_STR         offset: " ++ decimalText (half 0) ++ text ", len: " ++
      decimalText (half 2)
  | 22 => text "   OP_HALT"
  | _ => text "   UNKNOWN (" ++ decimalText op.toNat ++ text ")"

/-- The walk over older code.  An opcode without all its operands has no line, and the walk goes on
behind the opcode. -/
def legacyLoop (ip : ℕ) : List UInt8 → List Str
  | [] => []
  | op :: rest =>
    if legacyOperands op ≤ rest.length then
      (hexWord ip ++ text ":" ++ legacyText op (rest.take (legacyOperands op))) ::
        legacyLoop (ip + 1 + legacyOperands op) (rest.drop (legacyOperands op))
    else legacyLoop (ip + 1) rest
termination_by l => l.length
decreasing_by
  all_goals simp only [List.length_cons, List.length_drop]; omega

/-- `PULSE_BIN_MAGIC`, the same bytes as those of px64. -/
def pulseBinMagic : List UInt8 := px64BinMagic

def pulseHeaderSize : ℕ := 16

def legacyHeaderLines (data : List UInt8) (filePath : Str) : List Str :=
  [ text "=== Legacy PulseLang Bytecode Disassembly: " ++ filePath ++ text " ===",
    text "Magic: PULS | Version: 2 | Code: " ++ decimalText (headerField data 6) ++
      text " B | StringPool: " ++ decimalText (headerField data 8) ++ text " B",
    text "OFFSET  OPCODE              OPERANDS",
    text "---------------------------------------------------" ]

/-! ## The command -/

/-- `data[header..header + code_len]`; none is a slice out of range. -/
def codeSlice (data : List UInt8) (header : ℕ) : Option (List UInt8) :=
  if header + headerField data 6 ≤ data.length then
    some ((data.drop header).take (headerField data 6))
  else none

/-- The file holds as many constants as its header says. -/
def HoldsConstants (data : List UInt8) : Prop :=
  px64HeaderSize + headerField data 6 + headerField data 8 + headerField data 10 * 8 ≤ data.length

instance (data : List UInt8) : Decidable (HoldsConstants data) :=
  inferInstanceAs (Decidable (_ ≤ _))

/-- What `disasm` prints for the content of a file. -/
def disasmData (filePath : Str) (data : List UInt8) : Except Abort (List Str) :=
  if HasPx64Header data then
    -- the constants are copied one by one, the sixty-fifth past the array
    if HoldsConstants data ∧ 64 < headerField data 10 then .error .panic
    else
      match codeSlice data px64HeaderSize with
      | none => .error .panic
      | some code => do
        let lines ← disasmLoop (headerField data 10) (constPool data) 0 code
        return headerLines data filePath ++ lines
  else if pulseHeaderSize ≤ data.length ∧ data.take 4 = pulseBinMagic then
    match codeSlice data pulseHeaderSize with
    | none => .error .panic
    | some code => .ok (legacyHeaderLines data filePath ++ legacyLoop 0 code)
  else
    .ok [text "disasm: '" ++ filePath ++ text "' is not a valid px64 or PulseLang binary file"]

/-- The first word of an argument. -/
def firstWord (arg : Str) : Str := (arg.dropWhile isWhitespace).takeWhile fun c => !isWhitespace c

/-- `disasm`, with what reading a path returns. -/
def disasm (fsRead : Str → Option (List UInt8)) (arg : Str) : Except Abort (List Str) :=
  if firstWord arg = [] then .ok [text "disasm: missing operand"]
  else
    match fsRead (firstWord arg) with
    | some data => disasmData (firstWord arg) data
    | none => .ok [text "disasm: cannot access '" ++ arg ++ text "': No such file or directory"]

/-! ## Files that are survived -/

/-- A file whose claims stay within it and within the array: the code section is there, and either
the header counts at most 64 constants, or not all of them are there and no complete instruction
loads one past the array. -/
def Survivable (data : List UInt8) : Prop :=
  px64HeaderSize + headerField data 6 ≤ data.length ∧
    (headerField data 10 ≤ 64 ∨
      ¬ HoldsConstants data ∧
        ∀ i ∈ instructions (codeSection data), ¬ i.PastArray (headerField data 10))

variable {consts : List Word64}

theorem instructionLine_isOk_iff (constCount : ℕ) (hlen : consts.length = 64) (opIp : ℕ)
    (i : Instruction) :
    (∃ line, instructionLine constCount consts opIp i = .ok line) ↔ ¬ i.PastArray constCount := by
  unfold instructionLine
  split
  · next hop =>
    refine iff_of_true ⟨_, rfl⟩ fun hpast => ?_
    cases hop.symm.trans hpast.1
  · next hop =>
    refine iff_of_true ⟨_, rfl⟩ fun hpast => ?_
    cases hop.symm.trans hpast.1
  · next hop =>
    refine iff_of_true ⟨_, rfl⟩ fun hpast => ?_
    cases hop.symm.trans hpast.1
  · constructor
    · rintro ⟨line, hline⟩ hpast
      rw [instructionLine_pastArray hlen hpast] at hline
      cases hline
    · intro h
      obtain ⟨_, _, _, _, hline, -⟩ := instructionLine_row opIp hlen h
      exact ⟨_, hline⟩

/-- The walk ends unless an instruction loads a constant past the array. -/
theorem disasmLoop_isOk_iff (constCount : ℕ) (hlen : consts.length = 64) (code : List UInt8)
    (ip : ℕ) :
    (∃ lines, disasmLoop constCount consts ip code = .ok lines) ↔
      ∀ i ∈ instructions code, ¬ i.PastArray constCount := by
  induction code using instructions.induct generalizing ip with
  | case1 op rd rs1 rs2 code ih =>
    have hline := instructionLine_isOk_iff constCount hlen ip ⟨op, rd, rs1, rs2⟩
    rw [instructions, List.forall_mem_cons, ← hline, ← ih (ip + 4), disasmLoop]
    constructor
    · rintro ⟨lines, h⟩
      cases hfirst : instructionLine constCount consts ip ⟨op, rd, rs1, rs2⟩ with
      | error e =>
        rw [hfirst] at h
        cases h
      | ok line =>
        cases hrest : disasmLoop constCount consts (ip + 4) code with
        | error e =>
          rw [hfirst, hrest] at h
          cases h
        | ok rest => exact ⟨⟨line, rfl⟩, ⟨rest, rfl⟩⟩
    · rintro ⟨⟨line, hfirst⟩, ⟨rest, hrest⟩⟩
      exact ⟨line :: rest, by rw [hfirst, hrest]; rfl⟩
  | case2 code hshort =>
    have hnone : instructions code = [] := by
      rw [instructions]
      exact hshort
    have hloop : disasmLoop constCount consts ip code = .ok [] := by
      rw [disasmLoop]
      intro a b c d rest h
      exact hshort a b c d rest h
    rw [hnone]
    exact iff_of_true ⟨[], hloop⟩ (by simp)

theorem disasmData_isOk_iff (filePath : Str) (data : List UInt8) :
    (∃ lines, disasmData filePath data = .ok lines) ↔ (HasPx64Header data → Survivable data) := by
  by_cases hheader : HasPx64Header data
  · have hloop := disasmLoop_isOk_iff (headerField data 10) (length_constPool data)
      (codeSection data) 0
    rw [disasmData, if_pos hheader]
    simp only [hheader, true_implies]
    by_cases hpool : HoldsConstants data ∧ 64 < headerField data 10
    · rw [if_pos hpool]
      refine iff_of_false ?_ fun h => ?_
      · rintro ⟨lines, h⟩
        cases h
      · exact h.2.elim (Nat.not_le.mpr hpool.2) fun h => h.1 hpool.1
    · rw [if_neg hpool, codeSlice]
      by_cases hcode : px64HeaderSize + headerField data 6 ≤ data.length
      · rw [if_pos hcode]
        have hrest : (∃ lines, disasmLoop (headerField data 10) (constPool data) 0
            (codeSection data) = .ok lines) ↔ Survivable data := by
          rw [hloop, Survivable]
          constructor
          · intro h
            refine ⟨hcode, ?_⟩
            by_cases hcount : headerField data 10 ≤ 64
            · exact .inl hcount
            · exact .inr ⟨fun hholds => hpool ⟨hholds, Nat.not_le.mp hcount⟩, h⟩
          · rintro ⟨-, hcount | ⟨-, h⟩⟩
            · intro i _ hpast
              have hlt := hpast.2.2
              have hge := hpast.2.1
              omega
            · exact h
        rw [← hrest]
        constructor
        · rintro ⟨lines, h⟩
          cases hwalk : disasmLoop (headerField data 10) (constPool data) 0 (codeSection data) with
          | error e =>
            rw [codeSection] at hwalk
            dsimp only at h
            rw [hwalk] at h
            cases h
          | ok walked => exact ⟨walked, rfl⟩
        · rintro ⟨walked, hwalk⟩
          rw [codeSection] at hwalk
          dsimp only
          rw [hwalk]
          exact ⟨_, rfl⟩
      · rw [if_neg hcode]
        refine iff_of_false ?_ fun h => hcode h.1
        rintro ⟨lines, h⟩
        cases h
  · -- the older format has the same magic and header size
    have hlegacy : ¬ (pulseHeaderSize ≤ data.length ∧ data.take 4 = pulseBinMagic) := hheader
    rw [disasmData, if_neg hheader, if_neg hlegacy]
    exact iff_of_true ⟨_, rfl⟩ fun h => absurd h hheader

/-- A header alone, that claims one byte of code. -/
def truncatedBinary : List UInt8 :=
  px64BinMagic ++ headerBytes px64BinVersion ++ headerBytes 1 ++ headerBytes 0 ++ headerBytes 0 ++
    headerBytes px64NumRegisters ++ headerBytes 0

end Shell

end LatencyOS
