import LatencyOS.Crypto.Block
import Mathlib.Data.List.GetD
import Mathlib.Order.Nat
import Mathlib.Tactic.Tauto

/-!
# AES-128 and GCM as the standards define them

The cipher of FIPS 197 over an arbitrary substitution of bytes, and the substitution of the
standard: the affine transform of the inverse in the field with 256 elements.
-/

namespace LatencyOS.Crypto.Fips197

/-! ## The field with 256 elements

A polynomial over the field with two elements is given by the number with its coefficients as
bits; the field has those below 256, modulo `0x11B`. -/

/-- Multiplication by `x`. -/
def xtime (a : ℕ) : ℕ := if 2 * a < 256 then 2 * a else 2 * a ^^^ 0x11B

/-- The product with the lowest `n` coefficients of `b`. -/
def mulBits (a : ℕ) : ℕ → ℕ → ℕ
  | 0, _ => 0
  | n + 1, b => xtime (mulBits a n (b / 2)) ^^^ (b % 2 * a)

def mul (a b : ℕ) : ℕ := mulBits a 8 b

/-- The inverse, and 0 for 0: the power 254. -/
def inv (a : ℕ) : ℕ :=
  let a2 := mul a a
  let a4 := mul a2 a2
  let a8 := mul a4 a4
  let a16 := mul a8 a8
  let a32 := mul a16 a16
  let a64 := mul a32 a32
  mul a2 (mul a4 (mul a8 (mul a16 (mul a32 (mul a64 (mul a64 a64))))))

theorem mul_inv {a : ℕ} (h : a < 256) (hne : a ≠ 0) : mul a (inv a) = 1 := by
  have hall : ∀ a < 256, a ≠ 0 → mul a (inv a) = 1 := by decide +kernel
  exact hall a h hne

/-- The affine transform. -/
def affine (b : Byte) : Byte :=
  b ^^^ b.rotateLeft 1 ^^^ b.rotateLeft 2 ^^^ b.rotateLeft 3 ^^^ b.rotateLeft 4 ^^^ 0x63

/-- The S-box. -/
def sBox (b : Byte) : Byte := affine (BitVec.ofNat 8 (inv b.toNat))

/-! ## The cipher -/

variable (S : Byte → Byte)

def rotWord (w : Word) : Word := ⟨w.x1, w.x2, w.x3, w.x0⟩

/-- The round constant: a power of `x`. -/
def rcon (i : ℕ) : Word := ⟨BitVec.ofNat 8 (Nat.iterate xtime (i - 1) 1), 0, 0, 0⟩

def nextWord (w : List Word) (i : ℕ) : Word :=
  let temp := w.getD (i - 1) .zero
  let temp := if i % 4 = 0 then Word.xor ((rotWord temp).map S) (rcon (i / 4)) else temp
  Word.xor (w.getD (i - 4) .zero) temp

/-- `KeyExpansion`: the first `n + 4` words. -/
def keyExpansion (key : Block) : ℕ → List Word
  | 0 => key.toList
  | n + 1 => keyExpansion key n ++ [nextWord S (keyExpansion key n) (n + 4)]

/-- The words of the key of a round, as a block. -/
def roundKey (key : Block) (round : ℕ) : Block :=
  let w := keyExpansion S key 40
  ⟨w.getD (4 * round) .zero, w.getD (4 * round + 1) .zero, w.getD (4 * round + 2) .zero,
    w.getD (4 * round + 3) .zero⟩

def subBytes (s : Block) : Block := s.map (Quad.map S)

/-- The rows of a block, which is given by columns. -/
def transpose (s : Block) : Block :=
  ⟨s.map Quad.x0, s.map Quad.x1, s.map Quad.x2, s.map Quad.x3⟩

/-- Row `r` is rotated by `r` bytes to the left. -/
def shiftRows (s : Block) : Block :=
  let rows := transpose s
  transpose ⟨rows.x0, rotWord rows.x1, rotWord (rotWord rows.x2),
    rotWord (rotWord (rotWord rows.x3))⟩

/-- The product of a byte of the state and a coefficient. -/
def times (c : ℕ) (b : Byte) : Byte := BitVec.ofNat 8 (mul b.toNat c)

/-- A row of a matrix times a column. -/
def dot (row : Quad ℕ) (col : Word) : Byte :=
  times row.x0 col.x0 ^^^ times row.x1 col.x1 ^^^ times row.x2 col.x2 ^^^ times row.x3 col.x3

def mixColumn (col : Word) : Word :=
  ⟨dot ⟨2, 3, 1, 1⟩ col, dot ⟨1, 2, 3, 1⟩ col, dot ⟨1, 1, 2, 3⟩ col, dot ⟨3, 1, 1, 2⟩ col⟩

def mixColumns (s : Block) : Block := s.map mixColumn

/-- The state after the first `AddRoundKey` and `n` rounds. -/
def state (key block : Block) : ℕ → Block
  | 0 => Block.xor block (roundKey S key 0)
  | n + 1 =>
    Block.xor (mixColumns (shiftRows (subBytes S (state key block n)))) (roundKey S key (n + 1))

/-- `Cipher` with ten rounds. -/
def cipher (key block : Block) : Block :=
  Block.xor (shiftRows (subBytes S (state S key block 9))) (roundKey S key 10)

/-- AES-128. -/
def aes128 : Block → Block → Block := cipher sBox

/-! ## The substituted bytes -/

/-- The bytes that are substituted in the key expansion: those of the last word of each key. -/
def keyLookups (key : Block) : List Byte :=
  (List.range 10).flatMap fun r => ((keyExpansion S key 40).getD (4 * r + 3) .zero).toList

/-- The bytes that are substituted in the first `n` rounds. -/
def roundLookups (key block : Block) (n : ℕ) : List Byte :=
  (List.range n).flatMap fun r => (state S key block r).toBytes

variable {S} {T : Byte → Byte} {key block : Block}

theorem length_keyExpansion (key : Block) (n : ℕ) : (keyExpansion S key n).length = n + 4 := by
  induction n with
  | zero => rfl
  | succ n ih =>
    rw [keyExpansion, List.length_append, ih, List.length_singleton, Nat.add_right_comm]

/-- Later words do not change earlier ones. -/
theorem getD_keyExpansion {n m j : ℕ} (hle : n ≤ m) (hj : j < n + 4) :
    (keyExpansion S key m).getD j .zero = (keyExpansion S key n).getD j .zero := by
  induction m, hle using Nat.le_induction with
  | base => rfl
  | succ m hle ih =>
    rw [keyExpansion, List.getD_append _ _ _ _ (by rw [length_keyExpansion]; omega), ih]

theorem map_rotWord_congr {w : Word} (h : ∀ b ∈ w.toList, S b = T b) :
    (rotWord w).map S = (rotWord w).map T := by
  refine Quad.map_eq_map_iff.mpr fun b hb => h b ?_
  simp only [Quad.toList, rotWord, List.mem_cons, List.not_mem_nil, or_false] at hb ⊢
  tauto

theorem keyExpansion_congr (h : ∀ b ∈ keyLookups S key, S b = T b) {n : ℕ} (hn : n ≤ 40) :
    keyExpansion S key n = keyExpansion T key n := by
  induction n with
  | zero => rfl
  | succ n ih =>
    have hnext : nextWord S (keyExpansion S key n) (n + 4) =
        nextWord T (keyExpansion S key n) (n + 4) := by
      simp only [nextWord]
      split
      case isTrue hround =>
        rw [map_rotWord_congr fun b hb => h b ?_]
        refine List.mem_flatMap.mpr ⟨n / 4, List.mem_range.mpr (by omega), ?_⟩
        rw [getD_keyExpansion (n := n) (by omega) (by omega)]
        rwa [show 4 * (n / 4) + 3 = n + 4 - 1 by omega]
      case isFalse => rfl
    rw [keyExpansion, keyExpansion, hnext, ih (Nat.le_of_succ_le hn)]

theorem roundKey_congr (h : ∀ b ∈ keyLookups S key, S b = T b) (round : ℕ) :
    roundKey S key round = roundKey T key round := by
  rw [roundKey, roundKey, keyExpansion_congr h (Nat.le_refl 40)]

theorem subBytes_eq_iff {s : Block} : subBytes S s = subBytes T s ↔ ∀ b ∈ s.toBytes, S b = T b := by
  simp only [subBytes, Quad.map_eq_map_iff, Block.toBytes, List.mem_flatMap, forall_exists_index,
    and_imp]
  exact ⟨fun h b w hw hb => h w hw b hb, fun h w hw b hb => h b w hw hb⟩

/-- The state depends on the substitution of the bytes substituted before. -/
theorem state_congr (hkey : ∀ b ∈ keyLookups S key, S b = T b) {n : ℕ}
    (hblock : ∀ b ∈ roundLookups S key block n, S b = T b) :
    state S key block n = state T key block n := by
  induction n with
  | zero => rw [state, state, roundKey_congr hkey]
  | succ n ih =>
    rw [roundLookups, List.range_succ, List.flatMap_append, List.forall_mem_append] at hblock
    have hlast : ∀ b ∈ (state S key block n).toBytes, S b = T b := fun b hb =>
      hblock.2 b (List.mem_flatMap.mpr ⟨n, List.mem_singleton_self n, hb⟩)
    rw [state, state, roundKey_congr hkey, subBytes_eq_iff.mpr hlast, ih hblock.1]

theorem shiftRows_inj {s t : Block} (h : shiftRows s = shiftRows t) : s = t := by
  simp only [shiftRows, transpose, rotWord, Quad.map, Quad.mk.injEq] at h
  obtain ⟨⟨_, _, _, _⟩, ⟨_, _, _, _⟩, ⟨_, _, _, _⟩, ⟨_, _, _, _⟩⟩ := h
  ext1 <;> ext1 <;> assumption

/-- Two substitutions that agree before the last round give the same cipher text exactly when
they agree in the last round. -/
theorem cipher_eq_iff (hkey : ∀ b ∈ keyLookups S key, S b = T b)
    (hblock : ∀ b ∈ roundLookups S key block 9, S b = T b) :
    cipher S key block = cipher T key block ↔
      ∀ b ∈ (state S key block 9).toBytes, S b = T b := by
  rw [cipher, cipher, roundKey_congr hkey, ← state_congr hkey hblock, Block.xor_right_inj,
    ← subBytes_eq_iff]
  exact ⟨shiftRows_inj, congrArg shiftRows⟩

end LatencyOS.Crypto.Fips197

namespace LatencyOS.Crypto.Sp80038d

/-!
## GCM as the standard defines it

The functions of NIST SP 800-38D on strings of bytes, over a block cipher.
-/

/-- The bits of a block. -/
def bits (b : Block) : BitVec 128 := (b.x0.bits ++ b.x1.bits) ++ (b.x2.bits ++ b.x3.bits)

/-- The block with these bits. -/
def ofBits (z : BitVec 128) : Block := .ofHalves (z.extractLsb' 64 64) (z.extractLsb' 0 64)

/-- The constant `R`: the bits `11100001` and 120 zeros. -/
def r : BitVec 128 := (0xE1 : BitVec 8) ++ (0 : BitVec 120)

/-- One step of Algorithm 1, for a bit of `X`: the next `Z` and `V`. -/
def mulStep (zv : BitVec 128 × BitVec 128) (x : Bool) : BitVec 128 × BitVec 128 :=
  (if x then zv.1 ^^^ zv.2 else zv.1, if zv.2.getLsbD 0 then (zv.2 >>> 1) ^^^ r else zv.2 >>> 1)

/-- Algorithm 1, the product of two blocks: the bits of `X` from the left. -/
def mul (x y : Block) : Block :=
  ofBits (((List.range 128).map (bits x).getMsbD).foldl mulStep (0, bits y)).1

/-- Algorithm 2. -/
def ghash (h : Block) (xs : List Block) : Block :=
  xs.foldl (fun y x => mul (Block.xor y x) h) .zero

/-- The last four bytes, as a number, are increased. -/
def inc32 (b : Block) : Block := ⟨b.x0, b.x1, b.x2, .ofBits (b.x3.bits + 1)⟩

/-- Algorithm 3: byte `j` is encrypted with the cipher of the counter block `j / 16` after the
initial one. -/
def gctr (ciph : Block → Block) (icb : Block) (x : List Byte) : List Byte :=
  x.mapIdx fun j b => b ^^^ (ciph (Nat.iterate inc32 (j / 16) icb)).toBytes.getD (j % 16) 0

/-- The string with zeros up to the next multiple of the block size. -/
def pad (x : List Byte) : List Byte := x ++ List.replicate ((16 - x.length % 16) % 16) 0

/-- The blocks of a string. -/
def blocks (x : List Byte) : List Block :=
  (List.range (x.length / 16)).map fun i => .ofBytes (x.drop (16 * i))

/-- The numbers of bits of two strings, in 64 bits each. -/
def lengths (a c : List Byte) : Block :=
  .ofHalves (BitVec.ofNat 64 (8 * a.length)) (BitVec.ofNat 64 (8 * c.length))

/-- Algorithm 4 for a vector of 96 bits: the ciphertext and the tag of 128 bits. -/
def gcmAe (ciph : Block → Block) (iv a p : List Byte) : List Byte × List Byte :=
  let h := ciph .zero
  let j0 := Block.ofBytes (iv ++ [0, 0, 0, 1])
  let c := gctr ciph (inc32 j0) p
  let s := ghash h (blocks (pad a ++ pad c ++ (lengths a c).toBytes))
  (c, gctr ciph j0 s.toBytes)

end LatencyOS.Crypto.Sp80038d
