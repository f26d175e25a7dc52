import Mathlib.Logic.Function.Iterate

/-!
# Reflected cyclic redundancy checks

The register is shifted one bit for each bit of the message, least significant bit of a byte
first, and the polynomial is added when a one falls out.  One step is linear over exclusive or,
so the steps for a byte can be made at once: what is above the lowest byte is shifted down, and
the lowest byte picks an entry of a table.
-/

namespace LatencyOS.Crc

variable {w : ℕ}

/-- The register without a message bit. -/
def step (poly crc : BitVec w) : BitVec w :=
  if crc.getLsbD 0 then (crc >>> 1) ^^^ poly else crc >>> 1

/-- The register behind one bit of the message. -/
def bitStep (poly crc : BitVec w) (b : Bool) : BitVec w :=
  step poly (crc ^^^ (BitVec.ofBool b).setWidth w)

/-- The bits of a byte, least significant first. -/
def byteBits (b : UInt8) : List Bool := (List.range 8).map b.toBitVec.getLsbD

/-- The register behind a message. -/
def register (poly init : BitVec w) (data : List UInt8) : BitVec w :=
  (data.flatMap byteBits).foldl (bitStep poly) init

/-! ## Linearity -/

theorem step_xor (poly x y : BitVec w) : step poly (x ^^^ y) = step poly x ^^^ step poly y := by
  unfold step
  rw [BitVec.getLsbD_xor, BitVec.ushiftRight_xor_distrib]
  cases x.getLsbD 0 <;> cases y.getLsbD 0
  · rfl
  · exact BitVec.xor_assoc _ _ _
  · simp only [Bool.xor_false, if_true, Bool.false_eq_true, if_false]
    rw [BitVec.xor_assoc, BitVec.xor_comm (y >>> 1), ← BitVec.xor_assoc]
  · simp only [Bool.xor_self, Bool.false_eq_true, if_false, if_true]
    have hcancel : (x >>> 1 ^^^ poly) ^^^ (y >>> 1 ^^^ poly) =
        (x >>> 1 ^^^ y >>> 1) ^^^ (poly ^^^ poly) := by
      ac_rfl
    rw [hcancel, BitVec.xor_self, BitVec.xor_zero]

theorem iterate_step_xor (poly x y : BitVec w) (n : ℕ) :
    (step poly)^[n] (x ^^^ y) = (step poly)^[n] x ^^^ (step poly)^[n] y := by
  induction n generalizing x y with
  | zero => rfl
  | succ n ih => rw [Function.iterate_succ_apply, step_xor, ih, Function.iterate_succ_apply,
      Function.iterate_succ_apply]

/-- As long as zeros fall out, the register is only shifted. -/
theorem iterate_step_of_low {poly x : BitVec w} {n : ℕ} (h : ∀ i < n, x.getLsbD i = false) :
    (step poly)^[n] x = x >>> n := by
  induction n generalizing x with
  | zero => simp
  | succ n ih =>
    have hzero : step poly x = x >>> 1 := by
      rw [step, h 0 (Nat.succ_pos n)]
      rfl
    have hrest : ∀ i < n, (x >>> 1).getLsbD i = false := by
      intro i hi
      rw [BitVec.getLsbD_ushiftRight]
      exact h (1 + i) (by omega)
    rw [Function.iterate_succ_apply, hzero, ih hrest, ← BitVec.shiftRight_add, Nat.add_comm]

/-! ## A whole byte -/

/-- The bits of a byte may be added to the register before it is shifted. -/
theorem foldl_bitStep (poly : BitVec w) (bits : List Bool) (hw : bits.length ≤ w)
    (crc word : BitVec w) (hword : ∀ i, word.getLsbD i = (bits[i]?).getD false) :
    bits.foldl (bitStep poly) crc = (step poly)^[bits.length] (crc ^^^ word) := by
  induction bits generalizing crc word with
  | nil =>
    have hzero : word = 0#w := by
      apply BitVec.eq_of_getLsbD_eq
      intro i _
      rw [hword i]
      simp
    rw [hzero, BitVec.xor_zero]
    rfl
  | cons b bits ih =>
    have hlow : word = (BitVec.ofBool b).setWidth w ^^^ (word >>> 1) <<< 1 := by
      apply BitVec.eq_of_getLsbD_eq
      intro i hi
      rw [BitVec.getLsbD_xor, BitVec.getLsbD_setWidth, BitVec.getLsbD_shiftLeft,
        BitVec.getLsbD_ushiftRight]
      cases i with
      | zero =>
        have hbit : word.getLsbD 0 = b := hword 0
        rw [hbit]
        simp [hi]
      | succ i => simp [hi, Nat.add_comm 1 i]
    have hshift : step poly ((word >>> 1) <<< 1) = word >>> 1 := by
      have hout : ((word >>> 1) <<< 1).getLsbD 0 = false := by simp
      rw [step, hout]
      apply BitVec.eq_of_getLsbD_eq
      intro i hi
      rw [if_neg (by simp), BitVec.getLsbD_ushiftRight, BitVec.getLsbD_shiftLeft,
        BitVec.getLsbD_ushiftRight, Nat.add_comm 1 i, Nat.add_sub_cancel]
      by_cases hlast : i + 1 < w
      · simp [hlast]
      · have hend : word.getLsbD (1 + i) = false := BitVec.getLsbD_of_ge _ _ (by omega)
        simp [hlast, hend]
    have hrest : ∀ i, (word >>> 1).getLsbD i = (bits[i]?).getD false := by
      intro i
      rw [BitVec.getLsbD_ushiftRight, hword, Nat.add_comm, List.getElem?_cons_succ]
    have hlen : bits.length ≤ w := Nat.le_of_succ_le hw
    have hstep : step poly (crc ^^^ word) = bitStep poly crc b ^^^ (word >>> 1) := by
      calc step poly (crc ^^^ word)
          = step poly (crc ^^^ ((BitVec.ofBool b).setWidth w ^^^ (word >>> 1) <<< 1)) := by
            rw [← hlow]
        _ = bitStep poly crc b ^^^ step poly ((word >>> 1) <<< 1) := by
            rw [← BitVec.xor_assoc, step_xor, bitStep]
        _ = bitStep poly crc b ^^^ (word >>> 1) := by rw [hshift]
    rw [List.foldl_cons, ih hlen _ _ hrest, List.length_cons, Function.iterate_succ_apply, hstep]

/-- The entry of the table for a byte. -/
def tableEntry (poly i : BitVec w) : BitVec w := (step poly)^[8] i

/-- **A byte at a time**: shift, and add the entry of the table for the lowest byte. -/
theorem foldl_byteBits (poly : BitVec w) (hw : 8 ≤ w) (crc : BitVec w) (b : UInt8) :
    (byteBits b).foldl (bitStep poly) crc =
      (crc >>> 8) ^^^
        tableEntry poly ((crc ^^^ b.toBitVec.setWidth w) &&& (0xFF#8).setWidth w) := by
  have hlen : (byteBits b).length = 8 := by simp [byteBits]
  have hbits : ∀ i, (b.toBitVec.setWidth w).getLsbD i = ((byteBits b)[i]?).getD false := by
    intro i
    rw [BitVec.getLsbD_setWidth]
    by_cases hi : i < 8
    · simp [byteBits, hi, show i < w by omega]
    · have hend : b.toBitVec.getLsbD i = false := BitVec.getLsbD_of_ge _ _ (by omega)
      simp [byteBits, hi, hend]
  have hmask : ∀ i, ((0xFF#8).setWidth w).getLsbD i = decide (i < 8) := by
    intro i
    rw [BitVec.getLsbD_setWidth]
    have hones : (0xFF#8) = BitVec.allOnes 8 := rfl
    rw [hones, BitVec.getLsbD_allOnes]
    by_cases hi : i < 8
    · simp [hi, show i < w by omega]
    · simp [hi]
  rw [foldl_bitStep poly _ (by omega) crc _ hbits, hlen]
  have hsplit : crc ^^^ b.toBitVec.setWidth w =
      (crc >>> 8) <<< 8 ^^^ ((crc ^^^ b.toBitVec.setWidth w) &&& (0xFF#8).setWidth w) := by
    apply BitVec.eq_of_getLsbD_eq
    intro i hi
    rw [BitVec.getLsbD_xor, BitVec.getLsbD_xor, BitVec.getLsbD_and, BitVec.getLsbD_xor, hmask,
      BitVec.getLsbD_shiftLeft, BitVec.getLsbD_ushiftRight]
    by_cases hlow : i < 8
    · simp [hlow]
    · have hend : (b.toBitVec.setWidth w).getLsbD i = false := by
        rw [BitVec.getLsbD_setWidth, BitVec.getLsbD_of_ge _ _ (Nat.not_lt.mp hlow), Bool.and_false]
      have hback : 8 + (i - 8) = i := by omega
      rw [hend, hback]
      simp [hlow, hi]
  have hhigh : (step poly)^[8] ((crc >>> 8) <<< 8) = crc >>> 8 := by
    have hout : ∀ i < 8, ((crc >>> 8) <<< 8).getLsbD i = false := by
      intro i hi
      rw [BitVec.getLsbD_shiftLeft]
      simp [hi]
    rw [iterate_step_of_low hout]
    apply BitVec.eq_of_getLsbD_eq
    intro i hi
    rw [BitVec.getLsbD_ushiftRight, BitVec.getLsbD_shiftLeft, BitVec.getLsbD_ushiftRight,
      BitVec.getLsbD_ushiftRight]
    by_cases hlast : 8 + i < w
    · simp [hlast]
    · have hend : crc.getLsbD (8 + i) = false := BitVec.getLsbD_of_ge _ _ (by omega)
      simp [hlast, hend]
  calc (step poly)^[8] (crc ^^^ b.toBitVec.setWidth w)
      = (step poly)^[8] ((crc >>> 8) <<< 8 ^^^
          ((crc ^^^ b.toBitVec.setWidth w) &&& (0xFF#8).setWidth w)) := by rw [← hsplit]
    _ = (crc >>> 8) ^^^
          tableEntry poly ((crc ^^^ b.toBitVec.setWidth w) &&& (0xFF#8).setWidth w) := by
        rw [iterate_step_xor, hhigh, tableEntry]

end LatencyOS.Crc
