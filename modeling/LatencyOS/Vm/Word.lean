import LatencyOS.Token
import Mathlib.Algebra.Ring.Int.Defs
import Mathlib.Algebra.Ring.Nat
import Mathlib.Logic.Function.Basic

/-!
# Word arithmetic shared by the two px64 machines

The integer intrinsics of the standard library the interpreters use, on 64-bit
words: signed minimum and maximum, saturating absolute value, bit counts, byte
order and CRC-32.
-/

namespace LatencyOS

/-- A truth value as a machine word. -/
def boolWord (b : Bool) : Word64 := if b then 1#64 else 0#64

@[simp] theorem boolWord_true : boolWord true = 1#64 := rfl
@[simp] theorem boolWord_false : boolWord false = 0#64 := rfl

/-- Whether any bit of a tag is set in a word. -/
def hasTag (v tag : Word64) : Bool := v &&& tag != 0#64

/-- `core::cmp::min` on signed words. -/
def signedMin (a b : Word64) : Word64 := if b.slt a then b else a

/-- `core::cmp::max` on signed words. -/
def signedMax (a b : Word64) : Word64 := if a.slt b then b else a

/-- `i64::saturating_abs`. -/
def saturatingAbs (v : Word64) : Word64 :=
  if v = BitVec.intMin 64 then BitVec.intMax 64 else if v.slt 0#64 then -v else v

/-- `u64::count_ones`. -/
def countOnes (v : Word64) : ℕ := (List.range 64).countP fun i => v.getLsbD i

/-- `u64::leading_zeros`. -/
def leadingZeros (v : Word64) : ℕ := if v = 0#64 then 64 else 63 - v.toNat.log2

/-- The decimal text of a signed word. -/
def decimal (v : Word64) : List UInt8 := bytes (toString v.toInt)

/-- The eight bytes of a word, least significant first. -/
def toLeBytes (v : Word64) : List UInt8 :=
  (List.range 8).map fun i => UInt8.ofNat ((v >>> (8 * i)).toNat % 256)

/-- The word a list of bytes denotes, least significant byte first. -/
def leNat : List UInt8 → ℕ
  | [] => 0
  | b :: rest => b.toNat + 256 * leNat rest

/-- The word a list of bytes denotes, most significant byte first. -/
def beNat (l : List UInt8) : ℕ := l.foldl (fun acc b => acc * 256 + b.toNat) 0

/-- One entry of the precomputed CRC-32 table. -/
def crcTableEntry (i : ℕ) : BitVec 32 :=
  (List.range 8).foldl (fun crc _ =>
    if crc &&& 1#32 != 0#32 then (crc >>> 1) ^^^ 0xEDB88320#32 else crc >>> 1) (BitVec.ofNat 32 i)

/-- Table-driven IEEE 802.3 CRC-32. -/
def computeCrc32 (data : List UInt8) : BitVec 32 :=
  ~~~(data.foldl (fun crc b =>
    let idx := ((crc ^^^ BitVec.ofNat 32 b.toNat) &&& 0xFF#32).toNat
    (crc >>> 8) ^^^ crcTableEntry idx) 0xFFFFFFFF#32)

/-- `core::str::from_utf8(..).is_ok()`. -/
def validUtf8 (l : List UInt8) : Bool := (ByteArray.mk l.toArray).validateUTF8

/-- How an interpreter stops: a normal end, a reported error, or a Rust panic. -/
inductive Stop
  | ok
  | error (e : CompileError)
  | panic
  deriving DecidableEq

/-- One byte of a code section, as an index. -/
def byteAt (code : List UInt8) (i : ℕ) : ℕ := (code.getD i 0).toNat

end LatencyOS
