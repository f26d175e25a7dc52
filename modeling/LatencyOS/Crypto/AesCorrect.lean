import LatencyOS.Crypto.Gcm
import LatencyOS.Crypto.Standards
import Mathlib.Tactic.IntervalCases

/-!
# The kernel's AES-128 and the standard

Key schedule, rows and columns of the kernel are those of the standard: `encrypt_block` is the
cipher of FIPS 197 with the kernel's table as substitution.  The table has one wrong entry, at
`0xA7`, so the cipher is AES-128 where that entry is not used.
-/

namespace LatencyOS.Crypto

/-- The kernel's table as a substitution. -/
def tableSub (b : Byte) : Byte := sboxAt b.toNat

/-! ## Words -/

theorem ofBits_xor (a b : BitVec 32) :
    Word.ofBits (a ^^^ b) = Word.xor (Word.ofBits a) (Word.ofBits b) := by
  simp only [Word.ofBits, Word.xor, Quad.zipWith, BitVec.ushiftRight_xor_distrib,
    BitVec.setWidth_xor]

theorem ofBits_rotWord (w : BitVec 32) :
    Word.ofBits (rotWord w) = Fips197.rotWord (Word.ofBits w) := by
  apply Quad.ext
  all_goals
    apply BitVec.eq_of_getLsbD_eq
    intro i hi
    simp only [Word.ofBits, rotWord, Fips197.rotWord, BitVec.getLsbD_setWidth,
      BitVec.getLsbD_ushiftRight, BitVec.getLsbD_rotateLeft]
    interval_cases i <;> rfl

theorem ofBits_keyWord (k : Word) : Word.ofBits (keyWord k) = k := by
  apply Quad.ext
  all_goals
    apply BitVec.eq_of_getLsbD_eq
    intro i hi
    simp only [Word.ofBits, keyWord, BitVec.getLsbD_setWidth, BitVec.getLsbD_ushiftRight,
      BitVec.getLsbD_or, BitVec.getLsbD_shiftLeft]
    interval_cases i <;> simp

theorem toNat_lowByte (w : BitVec 32) : (w &&& 0xFF).toNat = (w.setWidth 8).toNat := by
  rw [BitVec.toNat_and, BitVec.toNat_setWidth]
  exact Nat.and_two_pow_sub_one_eq_mod w.toNat 8

theorem ofBits_subWord (w : BitVec 32) :
    Word.ofBits (subWord w) = (Word.ofBits w).map tableSub := by
  have hpack : subWord w = keyWord ((Word.ofBits w).map tableSub) := by
    simp only [subWord, keyWord, Word.ofBits, Quad.map, tableSub, toNat_lowByte]
  rw [hpack, ofBits_keyWord]

theorem ofBits_rcon {i : ℕ} (hpos : 1 ≤ i) (hle : i ≤ 10) :
    Word.ofBits (rcon.getD (i - 1) 0) = Fips197.rcon i := by
  interval_cases i <;> rfl

/-! ## The key schedule -/

theorem ofBits_getD (w : List (BitVec 32)) (i : ℕ) :
    Word.ofBits (w.getD i 0) = (w.map Word.ofBits).getD i .zero := by
  rw [List.getD_eq_getElem?_getD, List.getD_eq_getElem?_getD, List.getElem?_map]
  cases w[i]? with
  | none => rfl
  | some x => rfl

theorem ofBits_nextWord (w : List (BitVec 32)) {i : ℕ} (hpos : 4 ≤ i) (hle : i < 44) :
    Word.ofBits (nextWord w i) = Fips197.nextWord tableSub (w.map Word.ofBits) i := by
  have hrcon := ofBits_rcon (i := i / 4) (by omega) (by omega)
  rw [nextWord, Fips197.nextWord, ofBits_xor, ofBits_getD]
  congr 1
  split
  · rw [ofBits_xor, ofBits_subWord, ofBits_rotWord, ofBits_getD, hrcon]
  · exact ofBits_getD w (i - 1)

theorem map_expand (key : Block) {n : ℕ} (hn : n ≤ 40) :
    (expand key n).map Word.ofBits = Fips197.keyExpansion tableSub key n := by
  induction n with
  | zero =>
    simp only [expand, Fips197.keyExpansion, Quad.toList, List.map_cons, List.map_nil,
      ofBits_keyWord]
  | succ n ih =>
    rw [expand, Fips197.keyExpansion, List.map_append, ih (Nat.le_of_succ_le hn),
      List.map_singleton, ofBits_nextWord _ (by omega) (by omega), ih (Nat.le_of_succ_le hn)]

/-! ## The rounds -/

theorem addRoundKey_eq (key s : Block) (round : ℕ) :
    addRoundKey (expand key 40) round s = Block.xor s (Fips197.roundKey tableSub key round) := by
  have hword : ∀ i, Word.ofBits ((expand key 40).getD i 0) =
      (Fips197.keyExpansion tableSub key 40).getD i .zero := by
    intro i
    rw [ofBits_getD, map_expand key (Nat.le_refl 40)]
  rw [Fips197.roundKey, ← hword, ← hword, ← hword, ← hword]
  rfl

theorem forall_byte {P : Byte → Prop} (h : ∀ n < 256, P (BitVec.ofNat 8 n)) (b : Byte) : P b := by
  have := h b.toNat b.isLt
  rwa [BitVec.ofNat_toNat, BitVec.setWidth_eq] at this

theorem times_one (b : Byte) : Fips197.times 1 b = b := by
  have hall : ∀ n < 256, Fips197.times 1 (BitVec.ofNat 8 n) = BitVec.ofNat 8 n := by
    decide +kernel
  exact forall_byte (P := fun b => Fips197.times 1 b = b) hall b

theorem times_two (b : Byte) : Fips197.times 2 b = double b := by
  have hall : ∀ n < 256, Fips197.times 2 (BitVec.ofNat 8 n) = double (BitVec.ofNat 8 n) := by
    decide +kernel
  exact forall_byte (P := fun b => Fips197.times 2 b = double b) hall b

theorem times_three (b : Byte) : Fips197.times 3 b = double b ^^^ b := by
  have hall : ∀ n < 256,
      Fips197.times 3 (BitVec.ofNat 8 n) = double (BitVec.ofNat 8 n) ^^^ BitVec.ofNat 8 n := by
    decide +kernel
  exact forall_byte (P := fun b => Fips197.times 3 b = double b ^^^ b) hall b

theorem mixColumn_eq (col : Word) : mixColumn col = Fips197.mixColumn col := by
  simp only [mixColumn, Fips197.mixColumn, Fips197.dot, times_one, times_two, times_three,
    Quad.mk.injEq, and_true]
  refine ⟨?_, ?_, ?_⟩ <;> ac_rfl

theorem mainRounds_eq (key block : Block) (n : ℕ) :
    mainRounds (expand key 40) block n = Fips197.state tableSub key block n := by
  induction n with
  | zero => exact addRoundKey_eq key block 0
  | succ n ih =>
    have hmix : mixColumn = Fips197.mixColumn := funext mixColumn_eq
    rw [mainRounds, Fips197.state, addRoundKey_eq, ih, hmix]
    rfl

/-- The kernel's cipher is that of the standard, with the kernel's table. -/
theorem encrypt_eq_cipher (key block : Block) :
    (Aes128Key.new key).encrypt block = Fips197.cipher tableSub key block := by
  rw [Aes128Key.encrypt, Aes128Key.new, encryptBlock, addRoundKey_eq, mainRounds_eq]
  rfl

/-- The table is the S-box of the standard but for one entry. -/
theorem sBox_eq_tableSub_iff (b : Byte) : Fips197.sBox b = tableSub b ↔ b ≠ 0xA7 := by
  have hall : ∀ n < 256, Fips197.sBox (BitVec.ofNat 8 n) = tableSub (BitVec.ofNat 8 n) ↔
      BitVec.ofNat 8 n ≠ 0xA7 := by
    decide +kernel
  exact forall_byte (P := fun b => Fips197.sBox b = tableSub b ↔ b ≠ 0xA7) hall b

theorem agree_iff (bs : List Byte) :
    (∀ b ∈ bs, Fips197.sBox b = tableSub b) ↔ 0xA7 ∉ bs := by
  simp only [sBox_eq_tableSub_iff]
  exact ⟨fun h hmem => h _ hmem rfl, fun h b hb heq => h (heq ▸ hb)⟩

/-- Where the standard's computation never substitutes `0xA7`, the kernel computes AES-128; where
it does so in the last round only, the kernel computes something else. -/
theorem encrypt_eq_aes128_iff (key block : Block)
    (hkey : 0xA7 ∉ Fips197.keyLookups Fips197.sBox key)
    (hearly : 0xA7 ∉ Fips197.roundLookups Fips197.sBox key block 9) :
    (Aes128Key.new key).encrypt block = Fips197.aes128 key block ↔
      0xA7 ∉ (Fips197.state Fips197.sBox key block 9).toBytes := by
  rw [encrypt_eq_cipher, eq_comm, Fips197.aes128, ← agree_iff]
  exact Fips197.cipher_eq_iff ((agree_iff _).mpr hkey) ((agree_iff _).mpr hearly)

/-- The example of the standard: a key of the bytes from 0 to 15. -/
def exampleKey : Block := ⟨⟨0, 1, 2, 3⟩, ⟨4, 5, 6, 7⟩, ⟨8, 9, 10, 11⟩, ⟨12, 13, 14, 15⟩⟩

def exampleBlock (first : Byte) : Block :=
  ⟨⟨first, 0x11, 0x22, 0x33⟩, ⟨0x44, 0x55, 0x66, 0x77⟩, ⟨0x88, 0x99, 0xAA, 0xBB⟩,
    ⟨0xCC, 0xDD, 0xEE, 0xFF⟩⟩

theorem example_encrypts : (Aes128Key.new exampleKey).encrypt (exampleBlock 0) =
    Fips197.aes128 exampleKey (exampleBlock 0) :=
  (encrypt_eq_aes128_iff exampleKey (exampleBlock 0) (by decide +kernel) (by decide +kernel)).mpr
    (by decide +kernel)

/-- A block whose first byte is `0xA7` under the key. -/
theorem wrongEntry_encrypts : (Aes128Key.new exampleKey).encrypt (exampleBlock 0xA7) ≠
    Fips197.aes128 exampleKey (exampleBlock 0xA7) := by
  decide +kernel

end LatencyOS.Crypto
