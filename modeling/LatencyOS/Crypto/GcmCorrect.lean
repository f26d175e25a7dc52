import LatencyOS.Crypto.AesCorrect
import LatencyOS.Crypto.Gcm
import LatencyOS.Crypto.Standards
import LatencyOS.Lib.Carryless

/-!
# The kernel's GCM and the standard

The two 64-bit halves of `ghash_multiply` are the 128 bits of the standard's multiplication, the
loops over the slices are its blocks, and the counter is its `inc32`.
-/

namespace LatencyOS.Crypto

open Sp80038d

/-! ## The product -/

/-- The bits of a number from the left. -/
def msbs {w : ℕ} (x : BitVec w) : List Bool := (List.range w).map x.getMsbD

theorem msbs_append {w v : ℕ} (x : BitVec w) (y : BitVec v) : msbs (x ++ y) = msbs x ++ msbs y := by
  rw [msbs, List.range_add, List.map_append, List.map_map]
  congr 1
  · refine List.map_congr_left fun i hi => ?_
    rw [BitVec.getMsbD_append, if_neg (Nat.not_le_of_lt (List.mem_range.mp hi))]
  · refine List.map_congr_left fun i _ => ?_
    simp only [Function.comp_apply, BitVec.getMsbD_append, Nat.le_add_right, if_true,
      Nat.add_sub_cancel_left]

theorem msbs_byte (b : Byte) : msbs b = bitsOf b := by
  have hall : ∀ n < 256, msbs (BitVec.ofNat 8 n) = bitsOf (BitVec.ofNat 8 n) := by decide +kernel
  exact forall_byte (P := fun b => msbs b = bitsOf b) hall b

theorem msbs_word (w : Word) : msbs w.bits = w.toList.flatMap bitsOf := by
  simp only [Word.bits, msbs_append, msbs_byte, Quad.toList, List.flatMap_cons, List.flatMap_nil,
    List.append_nil, List.append_assoc]

theorem msbs_block (b : Block) : msbs (bits b) = b.toBytes.flatMap bitsOf := by
  simp only [bits, msbs_append, msbs_word, Block.toBytes, Quad.toList, List.flatMap_cons,
    List.flatMap_nil, List.append_nil, List.append_assoc, List.flatMap_append]

/-- The two halves of `Z` and `V`. -/
def GhashState.whole (s : GhashState) : BitVec 128 × BitVec 128 := (s.z0 ++ s.z1, s.v0 ++ s.v1)

theorem getLsbD_and_one (v : BitVec 64) (i : ℕ) :
    (v &&& 1#64).getLsbD i = (v.getLsbD 0 && decide (i = 0)) := by
  rw [BitVec.getLsbD_and, BitVec.getLsbD_one]
  by_cases h : i = 0
  · subst h
    simp
  · simp [h]

theorem and_one_ne_zero_iff (v : BitVec 64) : v &&& 1#64 ≠ 0 ↔ v.getLsbD 0 = true := by
  constructor
  · intro hne
    by_contra hbit
    refine hne (BitVec.eq_of_getLsbD_eq fun i _ => ?_)
    rw [getLsbD_and_one, Bool.eq_false_of_not_eq_true hbit]
    simp
  · intro hbit hzero
    have hlow := getLsbD_and_one v 0
    rw [hzero, hbit] at hlow
    contradiction

/-- The lowest bit of the one half goes to the top of the other. -/
theorem shiftRight_append (v0 v1 : BitVec 64) :
    (v0 ++ v1) >>> 1 = (v0 >>> 1) ++ ((v1 >>> 1) ||| ((v0 &&& 1#64) <<< 63)) := by
  apply BitVec.eq_of_getLsbD_eq
  intro i hi
  simp only [BitVec.getLsbD_ushiftRight, BitVec.getLsbD_append, BitVec.getLsbD_or,
    BitVec.getLsbD_shiftLeft, getLsbD_and_one]
  rcases Nat.lt_trichotomy i 63 with hlt | rfl | hgt
  · rw [if_pos (by omega), if_pos (by omega)]
    simp [hlt]
  · simp
  · rw [if_neg (by omega), if_neg (by omega)]
    congr 1
    omega

theorem whole_step (s : GhashState) (bit : Bool) : (s.step bit).whole = mulStep s.whole bit := by
  have hlow : (s.v0 ++ s.v1).getLsbD 0 = s.v1.getLsbD 0 := by
    rw [BitVec.getLsbD_append, if_pos (by omega)]
  have hr : r = 0xE100000000000000#64 ++ 0#64 := rfl
  apply Prod.ext
  · cases bit with
    | true => exact BitVec.xor_append.symm
    | false => rfl
  · change (if s.v1 &&& 1#64 ≠ 0 then (s.v0 >>> 1) ^^^ 0xE100000000000000#64 else s.v0 >>> 1) ++
        ((s.v1 >>> 1) ||| ((s.v0 &&& 1#64) <<< 63)) =
      if (s.v0 ++ s.v1).getLsbD 0 then ((s.v0 ++ s.v1) >>> 1) ^^^ r else (s.v0 ++ s.v1) >>> 1
    simp only [hlow, and_one_ne_zero_iff, shiftRight_append]
    cases s.v1.getLsbD 0 with
    | false => rfl
    | true => rw [if_pos rfl, if_pos rfl, hr, BitVec.xor_append, BitVec.xor_zero]

theorem whole_foldl (bs : List Bool) (s : GhashState) :
    (bs.foldl GhashState.step s).whole = bs.foldl mulStep s.whole := by
  induction bs generalizing s with
  | nil => rfl
  | cons b bs ih => rw [List.foldl_cons, List.foldl_cons, ih, whole_step]

/-- The bits of the bytes one after the other are the bits of the block. -/
theorem ghashMultiply_eq (x y : Block) : ghashMultiply x y = mul x y := by
  have hstart : GhashState.whole ⟨0, 0, y.x0.bits ++ y.x1.bits, y.x2.bits ++ y.x3.bits⟩ =
      (0, bits y) := Prod.ext BitVec.zero_append_zero rfl
  have hwhole := whole_foldl (msbs (bits x))
    ⟨0, 0, y.x0.bits ++ y.x1.bits, y.x2.bits ++ y.x3.bits⟩
  rw [hstart, msbs_block, List.foldl_flatMap] at hwhole
  rw [ghashMultiply, mul, ← msbs, msbs_block]
  generalize x.toBytes.foldl (fun s b => (bitsOf b).foldl GhashState.step s)
    ⟨0, 0, y.x0.bits ++ y.x1.bits, y.x2.bits ++ y.x3.bits⟩ = s at *
  have hz : s.z0 ++ s.z1 = ((x.toBytes.flatMap bitsOf).foldl mulStep (0, bits y)).1 :=
    congrArg Prod.fst hwhole
  rw [← hz, Sp80038d.ofBits, BitVec.extractLsb'_append_eq_left,
    BitVec.extractLsb'_append_eq_right]

/-! ## The blocks of the hash -/

theorem ofBytes_congr {l m : List Byte} (h : ∀ n < 16, l.getD n 0 = m.getD n 0) :
    Block.ofBytes l = Block.ofBytes m := by
  simp only [Block.ofBytes, Quad.mk.injEq]
  refine ⟨⟨?_, ?_, ?_, ?_⟩, ⟨?_, ?_, ?_, ?_⟩, ⟨?_, ?_, ?_, ?_⟩, ?_, ?_, ?_, ?_⟩
  all_goals exact h _ (by decide)

theorem ofBytes_take (l : List Byte) : Block.ofBytes (l.take 16) = Block.ofBytes l := by
  refine ofBytes_congr fun n hn => ?_
  rw [List.getD_eq_getElem?_getD, List.getElem?_take_of_lt hn, ← List.getD_eq_getElem?_getD]

theorem ofBytes_append {l : List Byte} (h : 16 ≤ l.length) (m : List Byte) :
    Block.ofBytes (l ++ m) = Block.ofBytes l := by
  rw [← ofBytes_take, List.take_append_of_le_length h, ofBytes_take]

theorem ofBytes_pad (l : List Byte) : Block.ofBytes (pad l) = Block.ofBytes l := by
  refine ofBytes_congr fun n _ => ?_
  rw [pad]
  rcases Nat.lt_or_ge n l.length with hlt | hge
  · rw [List.getD_append _ _ _ _ hlt]
  · rw [List.getD_append_right _ _ _ _ hge, List.getD_eq_default _ _ hge,
      List.getD_eq_getElem?_getD, List.getElem?_replicate]
    split <;> rfl

theorem blocks_cons {l : List Byte} (h : 16 ≤ l.length) :
    blocks l = .ofBytes l :: blocks (l.drop 16) := by
  obtain ⟨n, hn⟩ : ∃ n, l.length / 16 = n + 1 := ⟨l.length / 16 - 1, by omega⟩
  have hrest : (l.drop 16).length / 16 = n := by
    rw [List.length_drop]
    omega
  rw [blocks, blocks, hn, hrest, List.range_succ_eq_map, List.map_cons, List.map_map]
  congr 1
  refine List.map_congr_left fun i _ => ?_
  rw [Function.comp_apply, List.drop_drop, Nat.succ_eq_add_one, Nat.mul_add, Nat.add_comm]

theorem length_pad (x : List Byte) : 16 ∣ (pad x).length := by
  rw [pad, List.length_append, List.length_replicate]
  omega

theorem pad_drop {x : List Byte} (hne : x ≠ []) :
    16 ≤ (pad x).length ∧ (pad x).drop 16 = pad (x.drop 16) := by
  have hpos := List.length_pos_iff.mpr hne
  constructor
  · rw [pad, List.length_append, List.length_replicate]
    omega
  · rcases Nat.lt_or_ge x.length 16 with hlt | hge
    · rw [List.drop_eq_nil_of_le (Nat.le_of_lt hlt), List.drop_eq_nil_of_le]
      · rfl
      · rw [pad, List.length_append, List.length_replicate]
        omega
    · rw [pad, pad, List.drop_append_of_le_length hge, List.length_drop]
      congr 2
      omega

/-- One block goes into the hash. -/
def hashBlock (h y x : Block) : Block := mul (Block.xor y x) h

theorem absorb_eq (h st : Block) (x : List Byte) :
    absorb h st x = (blocks (pad x)).foldl (hashBlock h) st := by
  induction st, x using absorb.induct (h := h) with
  | case1 st =>
    rw [absorb, if_pos rfl]
    rfl
  | case2 st x hne ih =>
    obtain ⟨hlen, hdrop⟩ := pad_drop hne
    rw [absorb, if_neg hne, ih, blocks_cons hlen, List.foldl_cons, hdrop, ofBytes_pad, hashBlock,
      ofBytes_take, ghashMultiply_eq]

theorem blocks_append {l : List Byte} (h : 16 ∣ l.length) (m : List Byte) :
    blocks (l ++ m) = blocks l ++ blocks m := by
  obtain ⟨n, hn⟩ := h
  induction n generalizing l with
  | zero =>
    rw [List.eq_nil_of_length_eq_zero hn]
    rfl
  | succ n ih =>
    have hlen : 16 ≤ l.length := by omega
    rw [blocks_cons hlen, blocks_cons (by rw [List.length_append]; omega), ofBytes_append hlen,
      List.drop_append_of_le_length hlen, ih (by rw [List.length_drop]; omega), List.cons_append]

theorem blocks_toBytes (b : Block) : blocks b.toBytes = [b] := by
  have hlen : 16 ≤ b.toBytes.length := Nat.le_refl 16
  have hblock : Block.ofBytes b.toBytes = b := rfl
  have hrest : b.toBytes.drop 16 = [] := rfl
  rw [blocks_cons hlen, hblock, hrest]
  rfl

/-! ## The counter -/

theorem bits_ofBits (w : BitVec 32) : (Word.ofBits w).bits = w := by
  apply BitVec.eq_of_getLsbD_eq
  intro i hi
  simp only [Word.bits, Word.ofBits, BitVec.getLsbD_append, BitVec.getLsbD_setWidth,
    BitVec.getLsbD_ushiftRight]
  interval_cases i <;> rfl

theorem inc32_counter (iv : Iv) (ctrVal : BitVec 32) :
    inc32 (iv.counter ctrVal) = iv.counter (ctrVal + 1) := by
  simp only [inc32, Iv.counter, bits_ofBits]

variable (ciph : Block → Block)

/-- At most one block is encrypted with the initial counter block. -/
theorem gctr_short (icb : Block) {x : List Byte} (h : x.length ≤ 16) :
    gctr ciph icb x = List.zipWith (· ^^^ ·) x (ciph icb).toBytes := by
  have hlen : (ciph icb).toBytes.length = 16 := rfl
  refine List.ext_getElem ?_ fun i hi hi' => ?_
  · rw [gctr, List.length_mapIdx, List.length_zipWith, hlen, Nat.min_eq_left h]
  · rw [gctr, List.length_mapIdx] at hi
    simp only [gctr, List.getElem_mapIdx, List.getElem_zipWith]
    rw [Nat.div_eq_of_lt (by omega), Nat.mod_eq_of_lt (by omega), List.getD_eq_getElem]
    rfl

/-- After one block the counter is increased. -/
theorem gctr_append (icb : Block) {x : List Byte} (h : x.length = 16) (y : List Byte) :
    gctr ciph icb (x ++ y) = gctr ciph icb x ++ gctr ciph (inc32 icb) y := by
  rw [gctr, List.mapIdx_append, h]
  congr 1
  refine congrArg (List.mapIdx · y) (funext fun j => funext fun b => ?_)
  rw [Nat.add_div_right _ (by decide), Nat.add_mod_right]
  rfl

/-- Encrypting twice gives the text. -/
theorem gctr_gctr (icb : Block) (x : List Byte) : gctr ciph icb (gctr ciph icb x) = x := by
  rw [gctr, gctr, List.mapIdx_mapIdx]
  refine List.ext_getElem (by rw [List.length_mapIdx]) fun i _ _ => ?_
  rw [List.getElem_mapIdx, Function.comp_apply, BitVec.xor_assoc, BitVec.xor_self, BitVec.xor_zero]

theorem ctrLoop_eq (key : Aes128Key) (iv : Iv) (ctrVal : BitVec 32) (x : List Byte) :
    ctrLoop key iv ctrVal x = gctr key.encrypt (iv.counter (ctrVal + 1)) x := by
  induction ctrVal, x using ctrLoop.induct key iv with
  | case1 ctrVal =>
    rw [ctrLoop, if_pos rfl]
    rfl
  | case2 ctrVal x hne ih =>
    rw [ctrLoop, if_neg hne]
    dsimp only
    rw [ih, ← inc32_counter iv (ctrVal + 1), ← gctr_short _ _ (List.length_take_le 16 x)]
    rcases Nat.lt_or_ge x.length 16 with hlt | hge
    · rw [List.take_of_length_le (Nat.le_of_lt hlt), List.drop_eq_nil_of_le (Nat.le_of_lt hlt)]
      exact List.append_nil _
    · rw [← gctr_append _ _ (List.length_take_of_le hge), List.take_append_drop]

/-! ## The mode -/

theorem toBytes_xor (s t : Block) :
    (Block.xor s t).toBytes = List.zipWith (· ^^^ ·) s.toBytes t.toBytes := rfl

theorem ofBytes_iv (iv : Iv) : Block.ofBytes (iv.toBytes ++ [0, 0, 0, 1]) = iv.counter 1 := rfl

theorem gctr_toBytes (icb s : Block) :
    gctr ciph icb s.toBytes = (Block.xor s (ciph icb)).toBytes := by
  have hlen : s.toBytes.length ≤ 16 := Nat.le_refl 16
  rw [gctr_short _ _ hlen, toBytes_xor]

theorem ofNat_bits (n : ℕ) : BitVec.ofNat 64 n * 8 = BitVec.ofNat 64 (8 * n) := by
  rw [Nat.mul_comm, BitVec.ofNat_mul]
  rfl

/-- The hash of the two texts and their lengths. -/
theorem ghash_eq (h : Block) (a c : List Byte) :
    ghashMultiply (Block.xor (absorb h (absorb h .zero a) c)
      (.ofHalves (BitVec.ofNat 64 a.length * 8) (BitVec.ofNat 64 c.length * 8))) h =
      ghash h (blocks (pad a ++ pad c ++ (lengths a c).toBytes)) := by
  have hdvd : 16 ∣ (pad a ++ pad c).length := by
    rw [List.length_append]
    exact Nat.dvd_add (length_pad a) (length_pad c)
  rw [blocks_append hdvd, blocks_append (length_pad a), blocks_toBytes, ofNat_bits, ofNat_bits,
    ← lengths, absorb_eq, absorb_eq, ghashMultiply_eq]
  change _ = List.foldl (hashBlock h) .zero _
  rw [List.foldl_append, List.foldl_append]
  rfl

/-- The kernel computes GCM over its own block cipher; encrypting the result again with the same
key and vector restores the payload. -/
theorem aes128GcmEncrypt_eq (k : Block) (iv : Iv) (aad payload : List Byte) :
    let key := Aes128Key.new k
    let out := aes128GcmEncrypt key iv aad payload
    (out.1, out.2.toBytes) = gcmAe key.encrypt iv.toBytes aad payload ∧
      ∀ aad', (aes128GcmEncrypt key iv aad' out.1).1 = payload := by
  intro key out
  have hct : out.1 = gctr key.encrypt (inc32 (iv.counter 1)) payload := by
    rw [inc32_counter]
    exact ctrLoop_eq key iv 1 payload
  refine ⟨?_, fun aad' => ?_⟩
  · simp only [gcmAe, ofBytes_iv, ← hct, gctr_toBytes, ← ghash_eq]
    rfl
  · change ctrLoop key iv 1 out.1 = payload
    rw [ctrLoop_eq, ← inc32_counter, hct, gctr_gctr]

end LatencyOS.Crypto

namespace LatencyOS.Crypto

/-!
## The field of GHASH

A block is a polynomial of degree below 128 over two elements, the highest bit of its first byte the
constant term.  `ghash_multiply` is the product modulo `X ^ 128 + X ^ 7 + X ^ 2 + X + 1`; that
polynomial is irreducible, so the blocks are the field of `2 ^ 128` elements.
-/

open Polynomial Sp80038d

/-! ## The bits of a block -/

theorem ofBits_wordBits (w : Word) : Word.ofBits w.bits = w := by
  apply Quad.ext <;> apply BitVec.eq_of_getLsbD_eq <;> intro i hi <;>
    simp only [Word.bits, Word.ofBits, BitVec.getLsbD_append, BitVec.getLsbD_setWidth,
      BitVec.getLsbD_ushiftRight] <;>
    interval_cases i <;> rfl

theorem bits_ofHalves (hi lo : BitVec 64) : bits (.ofHalves hi lo) = hi ++ lo := by
  have hhi : hi.extractLsb' 32 32 ++ hi.extractLsb' 0 32 = hi :=
    BitVec.extractLsb'_append_extractLsb'
  have hlo : lo.extractLsb' 32 32 ++ lo.extractLsb' 0 32 = lo :=
    BitVec.extractLsb'_append_extractLsb'
  simp only [bits, Block.ofHalves, bits_ofBits, hhi, hlo]

theorem bits_blockOfBits (z : BitVec 128) : bits (Sp80038d.ofBits z) = z := by
  rw [Sp80038d.ofBits, bits_ofHalves]
  exact BitVec.extractLsb'_append_extractLsb'

theorem blockOfBits_bits (b : Block) : Sp80038d.ofBits (bits b) = b := by
  have hhi : (bits b).extractLsb' 64 64 = b.x0.bits ++ b.x1.bits :=
    BitVec.extractLsb'_append_eq_left
  have hlo : (bits b).extractLsb' 0 64 = b.x2.bits ++ b.x3.bits :=
    BitVec.extractLsb'_append_eq_right
  rw [Sp80038d.ofBits, hhi, hlo]
  simp only [Block.ofHalves, BitVec.extractLsb'_append_eq_left, BitVec.extractLsb'_append_eq_right,
    ofBits_wordBits]

theorem bits_injective : Function.Injective bits :=
  Function.LeftInverse.injective blockOfBits_bits

theorem bits_wordXor (v w : Word) : (Word.xor v w).bits = v.bits ^^^ w.bits := by
  apply BitVec.eq_of_getLsbD_eq
  intro i hi
  simp only [Word.bits, Word.xor, Quad.zipWith, BitVec.getLsbD_xor, BitVec.getLsbD_append]
  split_ifs <;> rfl

theorem bits_blockXor (x y : Block) : bits (Block.xor x y) = bits x ^^^ bits y := by
  apply BitVec.eq_of_getLsbD_eq
  intro i hi
  simp only [bits, Block.xor, Quad.zipWith, bits_wordXor, BitVec.getLsbD_xor,
    BitVec.getLsbD_append]
  split_ifs <;> rfl

/-! ## The modulus -/

/-- The modulus of GCM. -/
noncomputable def gcmModulus : (ZMod 2)[X] := X ^ 128 + X ^ 7 + X ^ 2 + X + 1

theorem toPoly_r : Carryless.toPoly r = X ^ 7 + X ^ 2 + X + 1 := by
  have hbits : (List.range 128).map r.getMsbD =
      [true, true, true, false, false, false, false, true] ++ List.replicate 120 false := by
    decide +kernel
  have hzeros : ∀ n, Carryless.listPoly (List.replicate n false) = 0 := by
    intro n
    induction n with
    | zero => rfl
    | succ n ih => simp [List.replicate_succ, Carryless.listPoly, Carryless.coef, ih]
  rw [Carryless.toPoly_eq_listPoly, hbits]
  simp only [List.cons_append, List.nil_append, Carryless.listPoly, Carryless.coef, hzeros, if_true,
    Bool.false_eq_true, if_false, map_one, map_zero]
  ring

theorem modulus_r : Carryless.modulus r = gcmModulus := by
  unfold Carryless.modulus gcmModulus
  rw [toPoly_r, ← add_assoc, ← add_assoc, ← add_assoc]

/-- What 64 squarings make of `X`. -/
def halfwayX : BitVec 128 := 0x6f9945a9e519a7229d4c1ad657f8a686

/-- The inverse of its difference from `X`. -/
def halfwayInverse : BitVec 128 := 0x180da934bf53158251c13dbb149f5279

theorem irreducible_gcmModulus : Irreducible gcmModulus := by
  have hhalf : (Carryless.square r)^[2 ^ 6] (Carryless.monomial 128 1) = halfwayX := by
    decide +kernel
  have hfull : (Carryless.square r)^[2 ^ 6] halfwayX = Carryless.monomial 128 1 := by
    decide +kernel
  have hinv : Carryless.mul r halfwayInverse (halfwayX ^^^ Carryless.monomial 128 1) =
      Carryless.monomial 128 0 := by decide +kernel
  exact modulus_r ▸ Carryless.irreducible_modulus (k := 6) rfl hhalf hfull hinv

/-! ## The product -/

theorem mulStep_eq : Sp80038d.mulStep = Carryless.mulStep r := rfl

theorem bits_ghashMultiply (x y : Block) :
    bits (ghashMultiply x y) = Carryless.mul r (bits x) (bits y) := by
  rw [ghashMultiply_eq, Sp80038d.mul, bits_blockOfBits, mulStep_eq, Carryless.mul]

/-- The polynomial of a block: bit `i` from the left is the coefficient of `X ^ i`. -/
noncomputable def Block.toPoly (b : Block) : (ZMod 2)[X] :=
  ∑ i ∈ Finset.range 128, if (bits b).getMsbD i then X ^ i else 0

theorem toPoly_eq (b : Block) : b.toPoly = Carryless.toPoly (bits b) := by
  refine Finset.sum_congr rfl fun i _ => ?_
  cases (bits b).getMsbD i <;> simp [Carryless.coef]

/-- The element of the field for a block. -/
noncomputable def Block.toField (b : Block) : AdjoinRoot gcmModulus :=
  AdjoinRoot.mk gcmModulus b.toPoly

theorem toPoly_ghashMultiply (x y : Block) :
    (ghashMultiply x y).toPoly = (x.toPoly * y.toPoly) %ₘ gcmModulus := by
  rw [toPoly_eq, toPoly_eq, toPoly_eq, bits_ghashMultiply, Carryless.toPoly_mul r (by decide),
    modulus_r]

theorem toField_ghashMultiply (x y : Block) :
    (ghashMultiply x y).toField = x.toField * y.toField := by
  rw [Block.toField, toPoly_ghashMultiply, Block.toField, Block.toField, ← map_mul,
    AdjoinRoot.mk_eq_mk, modByMonic_eq_sub_mul_div]
  exact ⟨-((x.toPoly * y.toPoly) /ₘ gcmModulus), by ring⟩

theorem toField_xor (x y : Block) : (Block.xor x y).toField = x.toField + y.toField := by
  rw [Block.toField, Block.toField, Block.toField, ← map_add, toPoly_eq, toPoly_eq, toPoly_eq,
    bits_blockXor, Carryless.toPoly_xor]

theorem bijective_toField : Function.Bijective Block.toField := by
  have hbits : Function.Bijective bits :=
    ⟨bits_injective, fun z => ⟨Sp80038d.ofBits z, bits_blockOfBits z⟩⟩
  have hfield : Function.Bijective (AdjoinRoot.mk gcmModulus ∘ Carryless.toPoly (w := 128)) :=
    modulus_r ▸ ⟨Carryless.residue_injective r, Carryless.residue_surjective r⟩
  have heq : Block.toField = (AdjoinRoot.mk gcmModulus ∘ Carryless.toPoly) ∘ bits := by
    funext b
    exact congrArg (AdjoinRoot.mk gcmModulus) (toPoly_eq b)
  exact heq ▸ hfield.comp hbits

/-- **The field of GHASH**: the modulus is irreducible, the blocks are the elements of its field,
one for one, and `ghash_multiply` and the exclusive or are its product and its sum; so the product
is commutative, associative and distributes over the exclusive or. -/
theorem ghashMultiply_isFieldProduct :
    Irreducible gcmModulus ∧ Function.Bijective Block.toField ∧
      (∀ x y, (ghashMultiply x y).toPoly = (x.toPoly * y.toPoly) %ₘ gcmModulus) ∧
      (∀ x y, (ghashMultiply x y).toField = x.toField * y.toField) ∧
      (∀ x y, (Block.xor x y).toField = x.toField + y.toField) ∧
      (∀ x y, ghashMultiply x y = ghashMultiply y x) ∧
      (∀ x y z, ghashMultiply (ghashMultiply x y) z = ghashMultiply x (ghashMultiply y z)) ∧
      (∀ x y z, ghashMultiply x (Block.xor y z) =
        Block.xor (ghashMultiply x y) (ghashMultiply x z)) := by
  refine ⟨irreducible_gcmModulus, bijective_toField, toPoly_ghashMultiply, toField_ghashMultiply,
    toField_xor, fun x y => ?_, fun x y z => ?_, fun x y z => ?_⟩
  · apply bits_injective
    rw [bits_ghashMultiply, bits_ghashMultiply, Carryless.mul_comm r (by decide)]
  · apply bits_injective
    simp only [bits_ghashMultiply, Carryless.mul_assoc r (show 0 < 128 by decide)]
  · apply bits_injective
    simp only [bits_ghashMultiply, bits_blockXor, Carryless.mul_xor r (show 0 < 128 by decide)]

end LatencyOS.Crypto
