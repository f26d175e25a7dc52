import LatencyOS.Container

/-!
# The kernel px64 machine

The kernel has its own copy of the interpreter: smaller array, struct and const
tables, script arguments in a fixed static table, its own string lookup and printing,
a wall-clock watchdog, and natives that read the hardware.  What it has in common with
the host interpreter is `execCommon` and `callNativeCommon`; everything else is written
out here.

The clock, the frame pool and the network counters are shared with the other cores, so
a `KernelHost` answers each reading of them, by the number of earlier readings.
-/

namespace LatencyOS

/-- What the kernel machine reads from the hardware and the other cores, and whether
the build checks arithmetic for overflow (the development profile does). -/
structure KernelHost where
  tsc : ℕ → Word64
  tscFreqHz : Word64
  lastRtt : ℕ → Word64
  lapicId : Word64
  ringLen : ℕ → ℕ → Word64
  slotData : ℕ → ℕ → ℕ → UInt8
  overflowChecks : Bool

/-- `tsc::ns_to_tsc`. -/
def nsToTsc (ns freqHz : Word64) : Word64 := BitVec.ofNat 64 (ns.toNat * freqHz.toNat / 1000000000)

/-- `tsc::tsc_to_ns`. -/
def tscToNs (cycles freqHz : Word64) : Word64 :=
  if freqHz = 0#64 then 0#64 else BitVec.ofNat 64 (cycles.toNat * 1000000000 / freqHz.toNat)

/-- Strip a byte from both ends. -/
def trimMatches (c : UInt8) (s : List UInt8) : List UInt8 :=
  ((s.dropWhile (· == c)).reverse.dropWhile (· == c)).reverse

/-- `set_script_args`: the first eight arguments, without surrounding quotes, cut to 128
bytes. -/
def setScriptArgs (args : List (List UInt8)) : List (List UInt8) :=
  (args.take 8).map fun arg => (trimMatches 39 (trimMatches 34 arg)).take 128

/-- The kernel machine: the register machine with the static script arguments as its
arguments, the watchdog deadline, and the target of a running `@busy_wait`.  Its vram is
the frame pool, so the `vram` of the register machine is not used. -/
structure KernelVM where
  vm : PX64VM
  timeoutTsc : Word64
  spinUntil : Option Word64

namespace KernelVM

/-- The tables of the kernel machine. -/
def kernelTables : PX64VM.TableLimits := ⟨8, 256⟩

/-- The kernel's string lookup: the offset is cut to 24 bits. -/
def getStrBytes (vm : PX64VM) (val : Word64) : Option (List UInt8) :=
  if hasTag val strTag then
    vm.poolSlice ((val &&& 0x00FFFFFF00000000#64) >>> 32).toNat (val &&& 0xFFFFFFFF#64).toNat
  else if hasTag val argTag then vm.args[(val &&& 0xFF#64).toNat]?
  else none

/-- Stop with an error. -/
def fail (k : KernelVM) (code message : String) {α : Type} : Except (Stop × KernelVM) α :=
  .error (.error (.simple code message), k)

/-- Stop with a panic. -/
def panicked (k : KernelVM) {α : Type} : Except (Stop × KernelVM) α := .error (.panic, k)

/-- Carry an outcome of the register machine over. -/
def lift (k : KernelVM) {α : Type} (x : Except (Stop × PX64VM) α) : Except (Stop × KernelVM) α :=
  match x with
  | .ok a => .ok a
  | .error (stop, vm) => .error (stop, { k with vm := vm })

/-- Change the register machine. -/
def update (k : KernelVM) (vm : PX64VM) : KernelVM := { k with vm := vm }

@[simp] theorem update_vm (k : KernelVM) (vm : PX64VM) : (k.update vm).vm = vm := rfl
@[simp] theorem update_timeoutTsc (k : KernelVM) (vm : PX64VM) :
    (k.update vm).timeoutTsc = k.timeoutTsc := rfl
@[simp] theorem update_spinUntil (k : KernelVM) (vm : PX64VM) :
    (k.update vm).spinUntil = k.spinUntil := rfl

/-- The next reading of the timestamp counter. -/
def readTsc (host : KernelHost) (k : KernelVM) : Word64 := host.tsc k.vm.asked

/-- The state after a reading of the timestamp counter. -/
def tick (k : KernelVM) : KernelVM := k.update { k.vm with asked := k.vm.asked + 1 }

/-- A sum of two clock values; a checked build panics when it overflows. -/
def addTsc (host : KernelHost) (k : KernelVM) (a b : Word64) : Except (Stop × KernelVM) Word64 :=
  if host.overflowChecks ∧ 2 ^ 64 ≤ a.toNat + b.toNat then k.panicked else .ok (a + b)

/-- The text of a string value, `none` when nothing is printed.  The offset is an
arithmetic shift, so a word with the sign bit set gives an offset near `2 ^ 64`. -/
def strText (host : KernelHost) (k : KernelVM) (argVal : Word64) :
    Except (Stop × KernelVM) (Option (List UInt8)) :=
  let raw := argVal &&& ~~~strTag
  let offset := (raw.sshiftRight 32).toNat
  let len := (raw &&& 0xFFFFFFFF#64).toNat
  if host.overflowChecks ∧ 2 ^ 64 ≤ offset + len then k.panicked
  else if (offset + len) % 2 ^ 64 ≤ k.vm.strPool.length then
    if 2 ^ 64 ≤ offset + len then k.panicked
    else
      let s := (k.vm.strPool.drop offset).take len
      .ok (if validUtf8 s then some s else none)
  else .ok none

/-- The text of an argument value, `none` when nothing is printed. -/
def argText (k : KernelVM) (argVal : Word64) : Option (List UInt8) :=
  match k.vm.args[(argVal &&& 0xFF#64).toNat]? with
  | some s => if validUtf8 s then some s else none
  | none => none

/-- `@print`. -/
def print (host : KernelHost) (k : KernelVM) (argVal : Word64) :
    Except (Stop × KernelVM) (List UInt8) :=
  if hasTag argVal argTag then .ok ((k.argText argVal).getD [])
  else if hasTag argVal strTag then do
    let t ← k.strText host argVal
    .ok (t.getD [])
  else .ok (decimal argVal)

/-- `@println`; when the text is not printed, neither is the newline. -/
def println (host : KernelHost) (k : KernelVM) (argReg : ℕ) (argVal : Word64) :
    Except (Stop × KernelVM) (List UInt8) :=
  if hasTag argVal argTag then .ok (((k.argText argVal).map (· ++ bytes "\n")).getD [])
  else if hasTag argVal strTag then do
    let t ← k.strText host argVal
    .ok ((t.map (· ++ bytes "\n")).getD [])
  else if argReg ≠ 0 ∨ argVal ≠ 0#64 then .ok (decimal argVal ++ bytes "\n")
  else .ok (bytes "\n")

/-- `u64::saturating_sub`. -/
def saturatingSub (a b : Word64) : Word64 := if a < b then 0#64 else a - b

/-- `u64::saturating_add`. -/
def saturatingAdd (a b : Word64) : Word64 :=
  if 2 ^ 64 ≤ a.toNat + b.toNat then BitVec.allOnes 64 else a + b

/-- Time spent in printing and capturing is not charged to the watchdog. -/
def creditTimeout (host : KernelHost) (start : Word64) (k : KernelVM) : KernelVM :=
  let now := k.readTsc host
  let k := k.tick
  { k with timeoutTsc := saturatingAdd k.timeoutTsc (saturatingSub now start) }

/-- Append to the serial output. -/
def write (k : KernelVM) (text : List UInt8) : KernelVM := k.update (k.vm.write text)

/-- Read from a slot of the frame pool. -/
def vramRead (host : KernelHost) (k : KernelVM) (slot offset : ℕ) :
    Except (Stop × KernelVM) Word64 :=
  match PX64VM.vramLoad 65536 (host.slotData k.vm.asked slot) offset with
  | some v => .ok v
  | none => k.panicked

/-- A native call: the returned word and the state after it. -/
def callNative (host : KernelHost) (k : KernelVM) (f : Native) (argReg : ℕ) (argVal : Word64) :
    Except (Stop × KernelVM) (Word64 × KernelVM) :=
  let natStart := k.readTsc host
  let k := k.tick
  match f with
  | .print => do
    let t ← k.print host argVal
    .ok (0#64, creditTimeout host natStart (k.write t))
  | .println => do
    let t ← k.println host argReg argVal
    .ok (0#64, creditTimeout host natStart (k.write t))
  | .sysTsc => .ok (k.readTsc host, k.tick)
  | .netRtt => .ok (host.lastRtt k.vm.asked, k)
  | .netSetRate => .ok (0#64, k)
  | .gpuCapture => .ok (0#64, creditTimeout host natStart k)
  | .netSend => do
    let now := k.readTsc host
    let k := k.tick
    let _ ← k.addTsc host now (nsToTsc 50000000#64 host.tscFreqHz)
    .ok (1#64, k)
  | .scriptArg =>
    .ok (if 0 ≤ argVal.toInt ∧ argVal.toNat < 8 then argTag ||| (argVal &&& 0xFF#64) else 0#64, k)
  | .streq => .ok (0#64, k)
  | .coreId => .ok (host.lapicId, k)
  | .tscFreq => .ok (host.tscFreqHz / 1000000#64, k)
  | .uptimeNs =>
    let now := k.readTsc host
    let k := k.tick
    .ok (tscToNs now host.tscFreqHz, k)
  | .busyWait =>
    if 0 < argVal.toInt then do
      let start := k.readTsc host
      let k := k.tick
      let target ← k.addTsc host start (nsToTsc argVal host.tscFreqHz)
      .ok (0#64, { k with spinUntil := some target })
    else .ok (0#64, k)
  | .ringDepth =>
    .ok (if argVal = 0#64 then host.ringLen k.vm.asked 0
      else if argVal = 1#64 then host.ringLen k.vm.asked 1 else 0#64, k)
  | .vramRead => do
    let offset ← k.lift (k.vm.argBelow argReg 1 0#64)
    let v ← k.vramRead host (argVal.toNat % 4) offset.toNat
    .ok (v, k)
  | .vramWrite => do
    let offset ← k.lift (k.vm.argBelow argReg 1 0#64)
    let _ ← k.lift (k.vm.argBelow argReg 2 0#64)
    if 2 ^ 64 ≤ offset.toNat + 8 then k.panicked else .ok (0#64, k)
  | .drop | .termRaw | .termReadKey | .termSize | .fileRead | .fileWrite | .fileExists | .strLen
  | .charAt => .ok (0#64, k)
  | f => do
    let v ← k.lift (k.vm.callNativeCommon f argReg argVal)
    .ok (v, k)

theorem callNative_common (host : KernelHost) (k : KernelVM) {f : Native}
    (h : f ∈ PX64VM.commonNatives) (argReg : ℕ) (argVal : Word64) :
    k.callNative host f argReg argVal =
      (do let v ← k.tick.lift (k.tick.vm.callNativeCommon f argReg argVal); .ok (v, k.tick)) := by
  cases f <;> first | rfl | exact absurd h (by decide)

/-- What happens after the loop: the watchdog and the step limit are checked once more. -/
def finish (host : KernelHost) (k : KernelVM) : Except (Stop × KernelVM) KernelVM :=
  let now := k.readTsc host
  let k := k.tick
  if k.timeoutTsc < now then
    k.fail "ERR_PX64_TIMEOUT_EXCEEDED"
      "Execution exceeded wall-clock execution deadline (watchdog safety violation)"
  else if maxVmSteps ≤ k.vm.steps then
    k.fail "ERR_PX64_WCET_EXCEEDED"
      "Execution exceeded px64 WCET instruction step limit (infinite loop protection)"
  else .error (.ok, k)

/-- Execute one decoded instruction; `ip` and the step count have already been advanced. -/
def exec (host : KernelHost) (k : KernelVM) (op : Opcode) (rd rs1 rs2 : ℕ) :
    Except (Stop × KernelVM) KernelVM :=
  match op with
  | .halt => k.finish host
  | .ret => if k.vm.callSp = 0 then k.finish host else .ok (k.update k.vm.doRet)
  | .tblLoad =>
    let idx := k.vm.regOr rs2 (-1#64)
    if 8 ≤ rs1 then k.fail "ERR_PX64_TABLE_INVALID_ID" "Const table ID is invalid"
    else if idx.toInt < 0 ∨ (k.vm.tableLens rs1 : Int) ≤ idx.toInt then
      k.fail "ERR_PX64_TABLE_OUT_OF_BOUNDS" "Const table lookup index out of bounds"
    else
      -- the constant pool is indexed without a check
      match k.vm.constPool[k.vm.tableBases rs1 + idx.toNat]? with
      | none => k.panicked
      | some c => .ok (k.update (k.vm.setReg rd c))
  | .callNat =>
    match Native.ofId? rs1 with
    | none => .ok (k.tick.update (k.tick.vm.setReg rd 0#64))
    | some f => do
      let (ret, k') ← k.callNative host f rs2 (k.vm.regOr rs2 0#64)
      .ok (k'.update (k'.vm.setReg rd ret))
  | .withinStart => do
    let budgetNs := k.vm.regOr rd 500000#64
    let now := k.readTsc host
    let k := k.tick
    let deadline ← k.addTsc host now (nsToTsc budgetNs host.tscFreqHz)
    if k.vm.dlSp < 8 then
      .ok (k.update { k.vm with
        deadlineStack := Function.update k.vm.deadlineStack k.vm.dlSp deadline
        dlSp := k.vm.dlSp + 1 })
    else .ok k
  | .drop =>
    if 0 < k.vm.dlSp then
      let now := k.readTsc host
    let k := k.tick
      if k.vm.deadlineStack (k.vm.dlSp - 1) < now then
        .ok (k.write (bytes "[DEADLINE_DROP] Frame dropped due to deadline breach\n"))
      else .ok k
    else .ok k
  | op => do
    let vm ← k.lift (k.vm.execCommon kernelTables (getStrBytes k.vm) op rd rs1 rs2)
    .ok (k.update vm)

theorem exec_common (host : KernelHost) (k : KernelVM) {op : Opcode} (h : op ∉ PX64VM.ownOps)
    (rd rs1 rs2 : ℕ) :
    k.exec host op rd rs1 rs2 =
      (do
        let vm ← k.lift (k.vm.execCommon kernelTables (getStrBytes k.vm) op rd rs1 rs2)
        .ok (k.update vm)) := by
  cases op <;> first | rfl | exact absurd (by decide) h

/-- Fetch and execute the next instruction, past the watchdog and the step limit. -/
def fetch (host : KernelHost) (k : KernelVM) : Except (Stop × KernelVM) KernelVM :=
  let now := k.readTsc host
  let k := k.tick
  if k.timeoutTsc < now then
    k.fail "ERR_PX64_TIMEOUT_EXCEEDED"
      "Execution exceeded wall-clock execution deadline (watchdog safety violation)"
  else if maxVmSteps ≤ k.vm.steps then
    k.fail "ERR_PX64_WCET_EXCEEDED"
      "Execution exceeded px64 WCET instruction step limit (infinite loop protection)"
  else
    let op := byteAt k.vm.code k.vm.ip
    let rd := byteAt k.vm.code (k.vm.ip + 1)
    let rs1 := byteAt k.vm.code (k.vm.ip + 2)
    let rs2 := byteAt k.vm.code (k.vm.ip + 3)
    let k := k.update k.vm.advance
    match Opcode.ofCode? op with
    | some o => k.exec host o rd rs1 rs2
    | none => k.fail "ERR_PX64_INVALID_OPCODE" "Invalid px64 instruction opcode encountered"

/-- One iteration of the interpreter loop, or of the loop of a running `@busy_wait`. -/
def step (host : KernelHost) (k : KernelVM) : Except (Stop × KernelVM) KernelVM :=
  match k.spinUntil with
  | some target =>
    let now := k.readTsc host
    let k := k.tick
    if now < target then .ok k else .ok { k with spinUntil := none }
  | none =>
    if k.vm.ip + 4 ≤ k.vm.code.length then k.fetch host else k.finish host

/-- The machine before its first instruction: the clock has been read once. -/
def start (host : KernelHost) (p : Program) (args : List (List UInt8)) : KernelVM where
  vm := { p.start (setScriptArgs args) with asked := 1 }
  timeoutTsc := host.tsc 0 + nsToTsc (BitVec.ofNat 64 maxScriptTimeoutNs) host.tscFreqHz
  spinUntil := none

end KernelVM

/-- The loader of `run_pulse_binary`: the checks are those of the host's loader, but the
constant pool is cut out of a table of 64 with the header's count. -/
def loadPulseBinary (bin : List UInt8) : Except Stop Program :=
  match loadBinary bin with
  | .error e => .error (.error e)
  | .ok p => if maxConstPool < headerField bin 10 then .error .panic else .ok p

/-- `PX64VM::run` of the kernel, for at most `n` iterations. -/
def runPulseProgram (host : KernelHost) (n : ℕ) (p : Program) (args : List (List UInt8)) :
    Option (Stop × List UInt8) :=
  if host.overflowChecks ∧
      2 ^ 64 ≤ (host.tsc 0).toNat +
        (nsToTsc (BitVec.ofNat 64 maxScriptTimeoutNs) host.tscFreqHz).toNat then
    some (.panic, [])
  else
    (Machine.run (KernelVM.step host) n (KernelVM.start host p args)).map fun r =>
      (r.1, r.2.vm.output)

/-- `run_pulse_binary` after `set_script_args`: how the run of a container stops and what
it printed, or `none` while it is still running after `n` iterations. -/
def runPulseBinary (host : KernelHost) (n : ℕ) (bin : List UInt8) (args : List (List UInt8)) :
    Option (Stop × List UInt8) :=
  match loadPulseBinary bin with
  | .error stop => some (stop, [])
  | .ok p => runPulseProgram host n p args

end LatencyOS
