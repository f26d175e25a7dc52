import LatencyOS.Lib.Crc
import Mathlib.Algebra.Field.ZMod
import Mathlib.FieldTheory.Finite.Extension
import Mathlib.RingTheory.AdjoinRoot

/-!
# Words as polynomials over two elements

A word stands for a polynomial over `ZMod 2`; its leftmost bit is the constant term.  The exclusive
or is the sum, and a step of a reflected shift register is the product with `X` modulo `X ^ w` plus
the polynomial of the register.  Shifting and adding gives the product of two words, and repeated
squaring shows that a modulus is irreducible.
-/

namespace LatencyOS.Carryless

open Polynomial

variable {w : ℕ}

/-! ## The polynomial of a word -/

/-- The coefficient of a bit. -/
def coef (b : Bool) : ZMod 2 := if b then 1 else 0

theorem coef_xor (a b : Bool) : coef (a ^^ b) = coef a + coef b := by
  cases a <;> cases b <;> decide

theorem coef_injective : Function.Injective coef := by
  intro a b h
  cases a <;> cases b <;> first | rfl | exact absurd h (by decide)

theorem coef_ne_zero (c : ZMod 2) : coef (!decide (c = 0)) = c := by
  revert c
  decide

/-- The polynomial whose coefficients are the bits of a list. -/
noncomputable def listPoly : List Bool → (ZMod 2)[X]
  | [] => 0
  | b :: bs => C (coef b) + X * listPoly bs

theorem coeff_listPoly (bs : List Bool) (n : ℕ) :
    (listPoly bs).coeff n = coef (bs.getD n false) := by
  induction bs generalizing n with
  | nil => simp [listPoly, coef]
  | cons b bs ih =>
    cases n with
    | zero => simp [listPoly]
    | succ n => simp [listPoly, ih]

/-- The polynomial of a word. -/
noncomputable def toPoly (b : BitVec w) : (ZMod 2)[X] :=
  ∑ i ∈ Finset.range w, C (coef (b.getMsbD i)) * X ^ i

@[simp] theorem coeff_toPoly (b : BitVec w) (n : ℕ) :
    (toPoly b).coeff n = coef (b.getMsbD n) := by
  simp only [toPoly, finsetSum_coeff, coeff_C_mul, coeff_X_pow, mul_ite, mul_one, mul_zero]
  rw [Finset.sum_ite_eq]
  split
  · rfl
  · next hn =>
    rw [Finset.mem_range, Nat.not_lt] at hn
    rw [BitVec.getMsbD_of_ge _ _ hn]
    rfl

theorem toPoly_eq_listPoly (b : BitVec w) :
    toPoly b = listPoly ((List.range w).map b.getMsbD) := by
  ext n
  rw [coeff_toPoly, coeff_listPoly]
  congr 1
  by_cases hn : n < w
  · simp [hn]
  · simp [hn, BitVec.getMsbD_of_ge _ _ (Nat.not_lt.mp hn)]

theorem toPoly_injective : Function.Injective (toPoly (w := w)) := by
  intro a b h
  refine BitVec.eq_of_getMsbD_eq fun i _ => coef_injective ?_
  rw [← coeff_toPoly, ← coeff_toPoly, h]

theorem toPoly_xor (a b : BitVec w) : toPoly (a ^^^ b) = toPoly a + toPoly b := by
  ext n
  simp [coef_xor]

@[simp] theorem toPoly_zero : toPoly (0 : BitVec w) = 0 := by
  ext n
  simp [coef]

theorem degree_toPoly_lt (b : BitVec w) : (toPoly b).degree < w := by
  rw [degree_lt_iff_coeff_zero]
  intro n hn
  rw [coeff_toPoly, BitVec.getMsbD_of_ge _ _ hn]
  rfl

/-- Every polynomial of a lower degree is that of a word. -/
theorem exists_toPoly {f : (ZMod 2)[X]} (hf : f.degree < w) : ∃ b : BitVec w, toPoly b = f := by
  have hlen : (List.ofFn fun i : Fin w => !decide (f.coeff i = 0)).length = w := List.length_ofFn
  refine ⟨(BitVec.ofBoolListBE (List.ofFn fun i : Fin w => !decide (f.coeff i = 0))).cast hlen, ?_⟩
  ext n
  rw [coeff_toPoly, BitVec.getMsbD_cast, BitVec.getMsbD_ofBoolListBE]
  by_cases hn : n < w
  · simp [hn, coef_ne_zero]
  · rw [(degree_lt_iff_coeff_zero f w).mp hf n (Nat.not_lt.mp hn)]
    simp [hn, coef]

/-! ## The product with `X` -/

/-- What falls out at the right end is the highest coefficient. -/
theorem X_mul_toPoly (hw : 0 < w) (b : BitVec w) :
    X * toPoly b = toPoly (b >>> 1) + C (coef (b.getLsbD 0)) * X ^ w := by
  ext n
  rw [coeff_add, coeff_toPoly, coeff_C_mul_X_pow]
  cases n with
  | zero =>
    have hne : ¬0 = w := by omega
    simp [hne, coef, BitVec.getMsbD_ushiftRight]
  | succ n =>
    rw [coeff_X_mul, coeff_toPoly, BitVec.getMsbD_ushiftRight]
    by_cases hn : n + 1 < w
    · have hne : ¬n + 1 = w := by omega
      simp [hn, hne]
    · by_cases heq : n + 1 = w
      · subst heq
        simp [BitVec.getMsbD, coef]
      · simp [hn, heq, BitVec.getMsbD_of_ge b n (by omega), coef]

/-- The modulus with a tail. -/
noncomputable def modulus (r : BitVec w) : (ZMod 2)[X] := X ^ w + toPoly r

variable (r : BitVec w)

theorem monic_modulus : (modulus r).Monic := monic_X_pow_add (degree_toPoly_lt r)

theorem degree_modulus : (modulus r).degree = w := by
  rw [modulus, degree_add_eq_left_of_degree_lt] <;> rw [degree_X_pow]
  exact degree_toPoly_lt r

/-- The residue of a word. -/
noncomputable def residue (b : BitVec w) : AdjoinRoot (modulus r) :=
  AdjoinRoot.mk (modulus r) (toPoly b)

theorem residue_xor (a b : BitVec w) : residue r (a ^^^ b) = residue r a + residue r b := by
  rw [residue, toPoly_xor, map_add, residue, residue]

@[simp] theorem residue_zero : residue r 0 = 0 := by
  rw [residue, toPoly_zero, map_zero]

theorem modByMonic_eq_of_mk_eq {f g : (ZMod 2)[X]}
    (h : AdjoinRoot.mk (modulus r) f = AdjoinRoot.mk (modulus r) g) :
    f %ₘ modulus r = g %ₘ modulus r :=
  modByMonic_eq_of_dvd_sub (monic_modulus r) (AdjoinRoot.mk_eq_mk.mp h)

/-- A word is its own remainder. -/
theorem toPoly_modByMonic (b : BitVec w) : toPoly b %ₘ modulus r = toPoly b := by
  rw [modByMonic_eq_self_iff (monic_modulus r), degree_modulus]
  exact degree_toPoly_lt b

theorem residue_injective : Function.Injective (residue r) := by
  intro a b h
  have hmod := modByMonic_eq_of_mk_eq r h
  rw [toPoly_modByMonic, toPoly_modByMonic] at hmod
  exact toPoly_injective hmod

theorem residue_surjective : Function.Surjective (residue r) := by
  intro x
  obtain ⟨f, rfl⟩ := AdjoinRoot.mk_surjective x
  have hlt : (f %ₘ modulus r).degree < w :=
    degree_modulus r ▸ degree_modByMonic_lt f (monic_modulus r)
  obtain ⟨b, hb⟩ := exists_toPoly hlt
  refine ⟨b, ?_⟩
  rw [residue, hb, AdjoinRoot.mk_eq_mk, modByMonic_eq_sub_mul_div f (modulus r)]
  exact ⟨-(f /ₘ modulus r), by ring⟩

/-- A step of the register is the product with `X`. -/
theorem residue_step (hw : 0 < w) (b : BitVec w) :
    residue r (Crc.step r b) = AdjoinRoot.root (modulus r) * residue r b := by
  have hX : AdjoinRoot.root (modulus r) * residue r b =
      AdjoinRoot.mk (modulus r) (X * toPoly b) := by
    rw [map_mul, AdjoinRoot.mk_X, residue]
  rw [hX, residue, AdjoinRoot.mk_eq_mk, X_mul_toPoly hw, Crc.step]
  cases b.getLsbD 0 with
  | true =>
    -- twice the shifted word is nothing, and the tail makes up the modulus
    have htwice : toPoly (b >>> 1) + toPoly (b >>> 1) = 0 := CharTwo.add_self_eq_zero _
    have hone : C (coef true) = (1 : (ZMod 2)[X]) := map_one C
    refine ⟨1, ?_⟩
    rw [if_pos rfl, toPoly_xor, modulus, hone, CharTwo.sub_eq_add]
    linear_combination htwice
  | false => simp [coef]

/-! ## The product -/

/-- One step of the product, for a bit of the first factor: the sum so far and the second factor
times a power of `X`. -/
def mulStep (zv : BitVec w × BitVec w) (x : Bool) : BitVec w × BitVec w :=
  (if x then zv.1 ^^^ zv.2 else zv.1, Crc.step r zv.2)

/-- The product of two words. -/
def mul (x y : BitVec w) : BitVec w :=
  (((List.range w).map x.getMsbD).foldl (mulStep r) (0, y)).1

theorem residue_foldl (hw : 0 < w) (bs : List Bool) (z v : BitVec w) :
    residue r (bs.foldl (mulStep r) (z, v)).1 =
      residue r z + AdjoinRoot.mk (modulus r) (listPoly bs) * residue r v := by
  induction bs generalizing z v with
  | nil => simp [listPoly]
  | cons b bs ih =>
    have hz : residue r (if b then z ^^^ v else z) =
        residue r z + AdjoinRoot.mk (modulus r) (C (coef b)) * residue r v := by
      cases b with
      | true => simp [coef, residue_xor]
      | false => simp [coef]
    rw [List.foldl_cons, mulStep, ih, hz, residue_step r hw, listPoly, map_add, map_mul,
      AdjoinRoot.mk_X]
    ring

theorem residue_mul (hw : 0 < w) (x y : BitVec w) :
    residue r (mul r x y) = residue r x * residue r y := by
  rw [mul, residue_foldl r hw, residue_zero, zero_add, ← toPoly_eq_listPoly, ← residue]

/-- The product of two words is the remainder of the product of their polynomials. -/
theorem toPoly_mul (hw : 0 < w) (x y : BitVec w) :
    toPoly (mul r x y) = (toPoly x * toPoly y) %ₘ modulus r := by
  rw [← toPoly_modByMonic r (mul r x y)]
  refine modByMonic_eq_of_mk_eq r ?_
  rw [map_mul]
  exact residue_mul r hw x y

theorem mul_comm (hw : 0 < w) (x y : BitVec w) : mul r x y = mul r y x := by
  apply residue_injective r
  rw [residue_mul r hw, residue_mul r hw]
  ring

theorem mul_assoc (hw : 0 < w) (x y z : BitVec w) :
    mul r (mul r x y) z = mul r x (mul r y z) := by
  apply residue_injective r
  simp only [residue_mul r hw]
  ring

theorem mul_xor (hw : 0 < w) (x y z : BitVec w) :
    mul r x (y ^^^ z) = mul r x y ^^^ mul r x z := by
  apply residue_injective r
  simp only [residue_mul r hw, residue_xor]
  ring

/-! ## Irreducible moduli -/

/-- A polynomial whose degree is a power of two is irreducible when it divides the field equation
of that degree and is coprime to that of half the degree. -/
theorem irreducible_of_dvd {K : Type} [Field K] [Finite K] {f : K[X]} {k : ℕ}
    (hdeg : f.natDegree = 2 ^ (k + 1)) (hdvd : f ∣ X ^ Nat.card K ^ 2 ^ (k + 1) - X)
    (hcop : IsCoprime f (X ^ Nat.card K ^ 2 ^ k - X)) : Irreducible f := by
  have hne : f ≠ 0 := by
    intro hzero
    rw [hzero, natDegree_zero] at hdeg
    exact absurd hdeg.symm (Nat.two_pow_pos _).ne'
  have hunit : ¬IsUnit f := by
    intro hunit
    rw [natDegree_eq_zero_of_isUnit hunit] at hdeg
    exact absurd hdeg.symm (Nat.two_pow_pos _).ne'
  obtain ⟨g, hirr, hg⟩ := WfDvdMonoid.exists_irreducible_factor hunit hne
  have hgdeg : g.natDegree ∣ 2 ^ (k + 1) :=
    hirr.natDegree_dvd_of_dvd_X_pow_card_pow_sub_X (hg.trans hdvd)
  obtain ⟨j, hj, hpow⟩ := (Nat.dvd_prime_pow Nat.prime_two).mp hgdeg
  by_cases hjk : j ≤ k
  · have hhalf : g.natDegree ∣ 2 ^ k := hpow ▸ pow_dvd_pow 2 hjk
    have hroot : g ∣ X ^ Nat.card K ^ 2 ^ k - X :=
      hirr.natDegree_dvd_iff_dvd_X_pow_card_pow_sub_X.mp hhalf
    exact absurd (hcop.isUnit_of_dvd' hg hroot) hirr.not_isUnit
  · have hfull : g.natDegree = f.natDegree := by
      rw [hpow, hdeg, show j = k + 1 by omega]
    have hassoc : Associated g f := by
      refine associated_of_dvd_of_natDegree_le hg hne hfull.ge
    exact hassoc.irreducible hirr

variable {r}

/-- The word of a power of `X`. -/
def monomial (w n : ℕ) : BitVec w := .twoPow w (w - 1 - n)

theorem toPoly_monomial {n : ℕ} (hn : n < w) : toPoly (monomial w n) = X ^ n := by
  ext m
  rw [coeff_toPoly, coeff_X_pow, monomial]
  by_cases hm : m < w
  · by_cases heq : m = n
    · simp [BitVec.getMsbD, hn, heq, coef, show w - 1 - n < w by omega]
    · have hne : w - 1 - n ≠ w - 1 - m := by omega
      simp [BitVec.getMsbD, BitVec.getLsbD_twoPow, heq, coef, hne]
  · have hne : ¬m = n := by omega
    rw [BitVec.getMsbD_of_ge _ _ (Nat.not_lt.mp hm), if_neg hne]
    rfl

/-- The square of a word. -/
def square (r : BitVec w) (x : BitVec w) : BitVec w := mul r x x

theorem residue_iterate_square (hw : 0 < w) (n : ℕ) (b : BitVec w) :
    residue r ((square r)^[n] b) = residue r b ^ 2 ^ n := by
  induction n with
  | zero => simp
  | succ n ih =>
    rw [Function.iterate_succ_apply', square, residue_mul r hw, ih]
    ring

theorem residue_X (hw : 1 < w) : residue r (monomial w 1) = AdjoinRoot.root (modulus r) := by
  rw [residue, toPoly_monomial hw, pow_one, AdjoinRoot.mk_X]

/-- Squaring shows that a modulus is irreducible: as many squarings as its degree bring `X` back,
and what half of them make of `X` differs from `X` by a unit. -/
theorem irreducible_modulus {k : ℕ} (hw : w = 2 ^ (k + 1)) {half inv : BitVec w}
    (hhalf : (square r)^[2 ^ k] (monomial w 1) = half)
    (hfull : (square r)^[2 ^ k] half = monomial w 1)
    (hinv : mul r inv (half ^^^ monomial w 1) = monomial w 0) : Irreducible (modulus r) := by
  have hpos : 0 < w := hw ▸ Nat.two_pow_pos _
  have hone : 1 < w := hw ▸ Nat.one_lt_two_pow (Nat.succ_ne_zero k)
  have hcard : Nat.card (ZMod 2) = 2 := Nat.card_zmod 2
  have hroot : residue r half = AdjoinRoot.root (modulus r) ^ 2 ^ 2 ^ k := by
    rw [← hhalf, residue_iterate_square hpos, residue_X hone]
  have hdeg : (modulus r).natDegree = 2 ^ (k + 1) := by
    rw [natDegree_eq_of_degree_eq_some (degree_modulus r), hw]
  refine irreducible_of_dvd hdeg ?_ ?_
  · have hback : residue r half ^ 2 ^ 2 ^ k = AdjoinRoot.root (modulus r) := by
      rw [← residue_iterate_square hpos, hfull, residue_X hone]
    have hexp : 2 ^ 2 ^ (k + 1) = 2 ^ 2 ^ k * 2 ^ 2 ^ k := by
      rw [← pow_add, ← two_mul, ← pow_succ']
    rw [hcard, ← AdjoinRoot.mk_eq_mk, map_pow, AdjoinRoot.mk_X, hexp, pow_mul, ← hroot, hback]
  · rw [hcard]
    have hunit : AdjoinRoot.mk (modulus r) (toPoly inv * (X ^ 2 ^ 2 ^ k - X)) =
        AdjoinRoot.mk (modulus r) 1 := by
      have hval := congrArg (residue r) hinv
      rw [residue_mul r hpos, residue_xor, hroot, residue_X hone, residue,
        residue, toPoly_monomial hpos, pow_zero, map_one] at hval
      rw [CharTwo.sub_eq_add, map_mul, map_add, map_pow, AdjoinRoot.mk_X, hval, map_one]
    obtain ⟨c, hc⟩ := AdjoinRoot.mk_eq_mk.mp hunit
    exact ⟨-c, toPoly inv, by linear_combination hc⟩

end LatencyOS.Carryless
