import LatencyOS.Lib.Crc
import LatencyOS.Smp.Pipeline
import LatencyOS.Vm.Word

/-!
# The two checksums

The core's virtual machine and the kernel's frame pipeline each build a table of 256 words and look
a word up for each byte.  Both compute the CRC-32 of IEEE 802.3.
-/

namespace LatencyOS

open Crc

/-- The polynomial of IEEE 802.3, reflected. -/
def crc32Poly : BitVec 32 := (0x04C11DB7#32).reverse

/-- CRC-32, bit by bit: the register starts with ones and is complemented at the end. -/
def crc32 (data : List UInt8) : BitVec 32 := ~~~ register crc32Poly 0xFFFFFFFF#32 data

theorem crc32Poly_eq : crc32Poly = 0xEDB88320#32 := by decide +kernel

theorem register_cons {w : ℕ} (poly init : BitVec w) (b : UInt8) (data : List UInt8) :
    register poly init (b :: data) =
      register poly ((byteBits b).foldl (bitStep poly) init) data := by
  rw [register, List.flatMap_cons, List.foldl_append, register]

/-- A loop that shifts and looks up a table computes the register. -/
theorem register_eq_foldl {f : BitVec 32 → UInt8 → BitVec 32}
    (hf : ∀ crc b, f crc b = (crc >>> 8) ^^^
      tableEntry crc32Poly ((crc ^^^ b.toBitVec.setWidth 32) &&& 0xFF#32))
    (init : BitVec 32) (data : List UInt8) :
    register crc32Poly init data = data.foldl f init := by
  induction data generalizing init with
  | nil => rfl
  | cons b data ih =>
    have hbyte : (byteBits b).foldl (bitStep crc32Poly) init = f init b := by
      rw [hf, foldl_byteBits crc32Poly (by decide)]
      rfl
    rw [register_cons, hbyte, ih, List.foldl_cons]

theorem and_one_ne_zero (x : BitVec 32) : x &&& 1#32 ≠ 0#32 ↔ x.getLsbD 0 = true := by
  rw [BitVec.and_one_eq_setWidth_ofBool_getLsbD]
  cases x.getLsbD 0 <;> decide

/-! ## The machine's table -/

theorem crcTableEntry_eq (i : BitVec 32) : crcTableEntry i.toNat = tableEntry crc32Poly i := by
  have hstep : (fun crc : BitVec 32 => if crc &&& 1#32 != 0#32 then (crc >>> 1) ^^^ 0xEDB88320#32
      else crc >>> 1) = step crc32Poly := by
    ext1 crc
    rw [step, crc32Poly_eq]
    simp only [bne_iff_ne, and_one_ne_zero]
  rw [crcTableEntry, BitVec.ofNat_toNat, BitVec.setWidth_eq, tableEntry, ← hstep]
  rfl

theorem computeCrc32_eq (data : List UInt8) : computeCrc32 data = crc32 data := by
  rw [crc32, computeCrc32, register_eq_foldl]
  intro crc b
  have hb : BitVec.ofNat 32 b.toNat = b.toBitVec.setWidth 32 := BitVec.ofNat_toNat 32 b.toBitVec
  dsimp only
  rw [crcTableEntry_eq, hb]

/-! ## The pipeline's table -/

namespace Smp

theorem crc32Entry_eq (i : UInt32) : (crc32Entry i).toBitVec = tableEntry crc32Poly i.toBitVec := by
  have hstep : ∀ crc : UInt32,
      (if crc &&& 1 ≠ 0 then (crc >>> 1) ^^^ 0xEDB88320 else crc >>> 1).toBitVec =
        step crc32Poly crc.toBitVec := by
    intro crc
    have hbit : crc &&& 1 ≠ 0 ↔ crc.toBitVec.getLsbD 0 = true := by
      rw [← and_one_ne_zero, ne_eq, ne_eq, ← UInt32.toBitVec_inj]
      rfl
    rw [step, crc32Poly_eq]
    simp only [hbit]
    split <;> rfl
  have hiter : ∀ (n : ℕ) (crc : UInt32), (Nat.iterate (fun crc : UInt32 =>
      if crc &&& 1 ≠ 0 then (crc >>> 1) ^^^ 0xEDB88320 else crc >>> 1) n crc).toBitVec =
        Nat.iterate (step crc32Poly) n crc.toBitVec := by
    intro n
    induction n with
    | zero =>
      intro crc
      rfl
    | succ n ih =>
      intro crc
      rw [Function.iterate_succ_apply, ih, hstep, Function.iterate_succ_apply]
  exact hiter 8 i

theorem computeCrc32_eq (data : List UInt8) : (computeCrc32 data).toBitVec = crc32 data := by
  have hloop : ∀ (crc : UInt32), (data.foldl (fun (crc : UInt32) (byte : UInt8) => (crc >>> 8) ^^^
      crc32Entry ((crc ^^^ byte.toUInt32) &&& 0xFF)) crc).toBitVec =
        data.foldl (fun (crc : BitVec 32) (b : UInt8) => (crc >>> 8) ^^^
          tableEntry crc32Poly ((crc ^^^ b.toBitVec.setWidth 32) &&& 0xFF#32)) crc.toBitVec := by
    induction data with
    | nil =>
      intro crc
      rfl
    | cons b data ih =>
      intro crc
      rw [List.foldl_cons, ih, List.foldl_cons, UInt32.toBitVec_xor, crc32Entry_eq]
      rfl
  rw [crc32, computeCrc32, register_eq_foldl (fun _ _ => rfl), UInt32.toBitVec_not, hloop]
  rfl

end Smp

/-- **Both tables compute CRC-32.** -/
theorem tables_compute_crc32 (data : List UInt8) :
    computeCrc32 data = crc32 data ∧ (Smp.computeCrc32 data).toBitVec = crc32 data :=
  ⟨computeCrc32_eq data, Smp.computeCrc32_eq data⟩

end LatencyOS
