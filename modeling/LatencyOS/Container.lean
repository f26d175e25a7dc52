import LatencyOS.Vm.Core

/-!
# The px64 container

A compiled program on disk: a header of sixteen bytes, then the code, the string
pool and the constant pool, all counts and constants most significant byte first.
-/

namespace LatencyOS

/-- What the compiler produces and the machine runs. -/
structure Program where
  code : List UInt8
  strPool : List UInt8
  constPool : List Word64
  deriving DecidableEq

/-- The header field at byte `i`. -/
def headerField (bin : List UInt8) (i : ℕ) : ℕ := byteAt bin i * 256 + byteAt bin (i + 1)

/-- Two bytes of a header field. -/
def headerBytes (n : ℕ) : List UInt8 := [UInt8.ofNat (n / 256), UInt8.ofNat n]

/-- A word, most significant byte first. -/
def toBeBytes (v : Word64) : List UInt8 := (toLeBytes v).reverse

/-- The container `compile_pulse_to_binary_with_tokens` writes for a compiled program. -/
def Program.toBinary (p : Program) : List UInt8 :=
  px64BinMagic ++ headerBytes px64BinVersion ++ headerBytes p.code.length ++
    headerBytes p.strPool.length ++ headerBytes p.constPool.length ++
    headerBytes px64NumRegisters ++ headerBytes 0 ++
    p.code ++ p.strPool ++ p.constPool.flatMap toBeBytes

/-- The loader of `run_binary_with_output`: at most 64 constants are read, whatever
the header says. -/
def loadBinary (bin : List UInt8) : Except CompileError Program :=
  if px64HeaderSize ≤ bin.length ∧ bin.take 4 = px64BinMagic then
    if headerField bin 4 ≠ px64BinVersion then
      .error (.simple "ERR_BINARY_VERSION_MISMATCH" "Unsupported px64 binary version")
    else
      let codeLen := headerField bin 6
      let strPoolLen := headerField bin 8
      let constCount := headerField bin 10
      if bin.length < px64HeaderSize + codeLen + strPoolLen + constCount * 8 then
        .error (.simple "ERR_BINARY_TRUNCATED" "Truncated px64 binary payload")
      else
        let constStart := px64HeaderSize + codeLen + strPoolLen
        .ok
          { code := (bin.drop px64HeaderSize).take codeLen
            strPool := (bin.drop (px64HeaderSize + codeLen)).take strPoolLen
            constPool := (List.range (min constCount maxConstPool)).map fun i =>
              BitVec.ofNat 64 (beNat ((bin.drop (constStart + i * 8)).take 8)) }
  else
    .error (.simple "ERR_BINARY_INVALID_MAGIC" "Invalid executable binary magic (expected PX64)")

/-- The machine a program starts in. -/
def Program.start (p : Program) (args : List (List UInt8)) : PX64VM :=
  PX64VM.new p.code p.strPool p.constPool args

/-- `run_binary_with_output`: how the run of a container stops and what it wrote, or
`none` while it is still running after `n` iterations. -/
def runBinaryWithOutput (host : Host) (n : ℕ) (bin : List UInt8) (args : List (List UInt8)) :
    Option (Stop × List UInt8) :=
  match loadBinary bin with
  | .error e => some (.error e, [])
  | .ok p => (PX64VM.runWithOutput host n (p.start args)).map fun r => (r.1, r.2.output)

/-- The machine a container starts, when the loader accepts it. -/
def startsAs (bin : List UInt8) (args : List (List UInt8)) (vm : PX64VM) : Prop :=
  ∃ p, loadBinary bin = .ok p ∧ vm = p.start args

end LatencyOS
