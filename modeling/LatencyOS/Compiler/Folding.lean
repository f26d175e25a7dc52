import LatencyOS.Compiler.ExprCorrect
import LatencyOS.Compiler.Operands
import Mathlib.Tactic.Linarith

/-!
# Folding against running

An operator on two literals is folded while the program is compiled.  The same operator on
variables that hold the literals is run by the machine, which looks up texts when it compares
and shifts the products and dividends of fixed-point numbers.

## Main definitions

* `FoldsAlike`: the literals for which the two make no difference.

## Main results

* `folding_agrees_iff`: for every operator and all literals, what is folded is what the machine
  computes exactly when the literals are folded alike.
-/

namespace LatencyOS

open CompilerState PX64VM

/-! ## Quotients -/

/-- A number other than zero lies between zero and another one, or is that one. -/
def Spans (x m : ℤ) : Prop := 0 < m ∧ m ≤ x ∨ x ≤ m ∧ m < 0

instance (x m : ℤ) : Decidable (Spans x m) := inferInstanceAs (Decidable (_ ∨ _))

theorem spans_neg {x m : ℤ} : Spans (-x) m ↔ Spans x (-m) := by
  unfold Spans
  omega

/-- A quotient counts the multiples of the divisor. -/
theorem spans_tdiv {x d k : ℤ} (hd : d ≠ 0) : Spans x (k * d) ↔ Spans (x.tdiv d) k := by
  have hnonneg : ∀ {x d k : ℤ}, 0 ≤ x → 0 < d → (Spans x (k * d) ↔ Spans (x.tdiv d) k) := by
    intro x d k hx hd
    have hq : 0 ≤ x / d := Int.ediv_nonneg hx hd.le
    have hle := Int.le_ediv_iff_mul_le (a := k) (b := x) hd
    have hpos : 0 < k * d ↔ 0 < k := by simp [hd]
    have hneg : k * d < 0 ↔ k < 0 := by simp [mul_neg_iff, hd, hd.le]
    rw [Int.tdiv_eq_ediv_of_nonneg hx]
    unfold Spans
    omega
  have hpos : ∀ {x d k : ℤ}, 0 < d → (Spans x (k * d) ↔ Spans (x.tdiv d) k) := by
    intro x d k hd
    rcases le_total 0 x with hx | hx
    · exact hnonneg hx hd
    · have h := hnonneg (k := -k) (neg_nonneg.mpr hx) hd
      rw [Int.neg_tdiv, spans_neg, spans_neg, neg_neg, neg_mul, neg_neg] at h
      exact h
  rcases lt_or_gt_of_ne hd with hd | hd
  · have h := hpos (x := x) (k := -k) (neg_pos.mpr hd)
    rw [Int.tdiv_neg, spans_neg, neg_neg, neg_mul_neg] at h
    exact h
  · exact hpos hd

/-- Two dividends have the same quotient when the same multiples of the divisor are between
them and zero. -/
theorem tdiv_eq_iff {x y d : ℤ} (hd : d ≠ 0) :
    x.tdiv d = y.tdiv d ↔ ∀ k : ℤ, Spans x (k * d) ↔ Spans y (k * d) := by
  constructor
  · intro h k
    rw [spans_tdiv hd, spans_tdiv hd, h]
  · intro h
    have hquot : ∀ k, Spans (x.tdiv d) k ↔ Spans (y.tdiv d) k := fun k => by
      rw [← spans_tdiv hd, ← spans_tdiv hd, h]
    have h₁ := hquot (x.tdiv d)
    have h₂ := hquot (y.tdiv d)
    unfold Spans at h₁ h₂
    omega

/-- The quotients of two words by a third are less than a word apart. -/
theorem abs_tdiv_sub_tdiv_lt (x y : Word64) {d : ℤ} (hd : d ≠ 0) :
    |x.toInt.tdiv d - y.toInt.tdiv d| < 2 ^ 64 := by
  have hx := x.le_toInt
  have hx' := x.toInt_lt
  have hy := y.le_toInt
  have hy' := y.toInt_lt
  rw [abs_lt]
  by_cases h1 : d.natAbs = 1
  · rcases Int.natAbs_eq_iff.mp h1 with rfl | rfl
    · simp only [Int.cast_ofNat_Int, Int.tdiv_one]
      omega
    · simp only [Int.cast_ofNat_Int, Int.tdiv_neg, Int.tdiv_one]
      omega
  · -- the quotients are half as large as the words
    have hhalf : ∀ z : ℤ, (z.tdiv d).natAbs ≤ z.natAbs / 2 := fun z => by
      rw [Int.natAbs_tdiv]
      exact Nat.div_le_div_left (by omega) (by decide)
    have hqx := hhalf x.toInt
    have hqy := hhalf y.toInt
    omega

/-- Words have the same quotient when the numbers they stand for have. -/
theorem sdiv_eq_iff {x y d : Word64} (hd : d ≠ 0#64) :
    x.sdiv d = y.sdiv d ↔ x.toInt.tdiv d.toInt = y.toInt.tdiv d.toInt := by
  have hd' : d.toInt ≠ 0 := fun h => hd (BitVec.toInt_inj.mp h)
  rw [← BitVec.toInt_inj, BitVec.toInt_sdiv, BitVec.toInt_sdiv]
  refine ⟨fun h => ?_, fun h => by rw [h]⟩
  have hdvd := Int.dvd_of_bmod_eq_zero (Int.bmod_eq_bmod_iff_bmod_sub_eq_zero.mp h)
  exact sub_eq_zero.mp (Int.eq_zero_of_abs_lt_dvd hdvd (abs_tdiv_sub_tdiv_lt x y hd'))

/-- A word that a shift leaves as it is has no bits. -/
theorem ushiftRight_eq_self {x : Word64} {s : ℕ} (hs : 0 < s) : x >>> s = x ↔ x = 0#64 := by
  constructor
  · intro h
    have hdiv : x.toNat / 2 ^ s = x.toNat := by
      rw [← Nat.shiftRight_eq_div_pow, ← BitVec.toNat_ushiftRight, h]
    apply BitVec.eq_of_toNat_eq
    by_contra hne
    exact absurd hdiv (Nat.div_lt_self (Nat.pos_of_ne_zero hne) (Nat.one_lt_two_pow hs.ne')).ne
  · rintro rfl
    exact BitVec.zero_ushiftRight

/-! ## Comparisons -/

theorem boolWord_inj {p q : Bool} : boolWord p = boolWord q ↔ p = q := by
  cases p <;> cases q <;> decide

/-- Different words that refer to the same text. -/
def SameText (str : Word64 → Option (List UInt8)) (x y : Word64) : Prop :=
  x ≠ y ∧ (hasTag x strTag || hasTag x argTag) ∧ (hasTag y strTag || hasTag y argTag) ∧
    ∃ text, str x = some text ∧ str y = some text

/-- The machine compares words, except where two of them refer to the same text. -/
theorem cmpEq_eq_beq_iff {str : Word64 → Option (List UInt8)} {x y : Word64} :
    PX64VM.cmpEq str x y = (x == y) ↔ ¬ SameText str x y := by
  unfold PX64VM.cmpEq SameText
  by_cases hxy : x = y
  · simp [hxy]
  rw [if_neg hxy, beq_eq_false_iff_ne.mpr hxy]
  split
  · next htags =>
    rw [Bool.and_eq_true] at htags
    rw [PX64VM.strEq, if_neg hxy]
    cases hx : str x with
    | none => simp
    | some text =>
      cases hy : str y with
      | none => simp
      | some text' => simpa [hxy, htags.1, htags.2] using ne_comm (a := text) (b := text')
  · next htags =>
    rw [Bool.and_eq_true] at htags
    simp only [true_iff]
    rintro ⟨-, hx, hy, -⟩
    exact htags ⟨hx, hy⟩

/-! ## Folded alike -/

namespace Compiler

variable {st₁ st₁' st₂ st₂' : CompilerState} {tok₁ tok₂ : ℕ → Token}
  {name₁ name₂ : Token → Option (List UInt8)} {a b : List UInt8} {op : BinOp}
  {l₁ l₂ : Literal} {dst₁ dst₂ i₁ i₂ s : ℕ}

/-- Literals for which it makes no difference whether an operator is folded or run.  Two words
that are compared do not refer to the same text.  A product with a decimal, which only the
machine shifts back, is zero.  Of two decimals, the dividend as it is and the dividend that the
machine shifts are as far from zero in multiples of the divisor. -/
def FoldsAlike (str : Word64 → Option (List UInt8)) (op : BinOp) (s : ℕ) (l₁ l₂ : Literal) :
    Prop :=
  match op with
  | .eq | .ne => ¬ SameText str (l₁.word s) (l₂.word s)
  | .mul => l₁.scale s = none ∧ l₂.scale s = none ∨ l₁.word s * l₂.word s = 0#64
  | .div => l₁.scale s = none ∨ l₂.scale s = none ∨ ∀ k : ℤ,
      Spans (l₁.word s).toInt (k * (l₂.word s).toInt) ↔
        Spans (l₁.word s <<< s).toInt (k * (l₂.word s).toInt)
  | _ => True

theorem Literal.scale_eq (l : Literal) (s : ℕ) : l.scale s = none ∨ l.scale s = some s := by
  cases l
  · exact .inl rfl
  · exact .inr rfl

/-- Where the machine computes what is folded. -/
theorem applyScaled_eq_fold_iff {str : Word64 → Option (List UInt8)} {c : Word64} (hs : 0 < s)
    (hfold : op.fold (l₁.word s) (l₂.word s) = some c) :
    op.applyScaled str (l₁.scale s) (l₂.scale s) (l₁.word s) (l₂.word s) = some c ↔
      FoldsAlike str op s l₁ l₂ := by
  generalize hx : l₁.word s = x at *
  generalize hy : l₂.word s = y at *
  cases op with
  | eq =>
    obtain rfl : boolWord (x == y) = c := Option.some.inj hfold
    simp only [FoldsAlike, hx, hy, ← cmpEq_eq_beq_iff, BinOp.applyScaled, BinOp.apply,
      BinOp.applyWith, Option.some.injEq, boolWord_inj]
  | ne =>
    obtain rfl : boolWord (!(x == y)) = c := Option.some.inj hfold
    simp only [FoldsAlike, hx, hy, ← cmpEq_eq_beq_iff, BinOp.applyScaled, BinOp.apply,
      BinOp.applyWith, Option.some.injEq, boolWord_inj, Bool.not_inj_iff]
  | mul =>
    obtain rfl : x * y = c := Option.some.inj hfold
    simp only [FoldsAlike, hx, hy]
    rcases l₁.scale_eq s with h₁ | h₁ <;> rcases l₂.scale_eq s with h₂ | h₂ <;>
      simp [h₁, h₂, BinOp.applyScaled, BinOp.apply, BinOp.applyWith, ushiftRight_eq_self hs]
  | div =>
    have hne : y ≠ 0#64 := by
      rintro rfl
      cases hfold
    have hne' : y.toInt ≠ 0 := fun h => hne (BitVec.toInt_inj.mp h)
    obtain rfl : x.sdiv y = c := by
      simpa [BinOp.fold, BinOp.applyWith, hne] using hfold
    simp only [FoldsAlike, hx, hy, ← tdiv_eq_iff hne', ← sdiv_eq_iff hne]
    rcases l₁.scale_eq s with h₁ | h₁ <;> rcases l₂.scale_eq s with h₂ | h₂ <;>
      simp [h₁, h₂, BinOp.applyScaled, BinOp.apply, BinOp.applyWith, hne, eq_comm]
  | _ => exact iff_of_true hfold trivial

/-- A product of decimals, and the product of two variables that hold them. -/
def foldedProduct : List UInt8 := bytes "1.5 * 1.5;"

def storedProduct : List UInt8 :=
  bytes "let $a: fixed<16> = 1.5; let $b: fixed<16> = 1.5; $a * $b;"

/-- The registers of the variables hold one and a half. -/
def storedRegs (r : ℕ) : Word64 := if r = 1 ∨ r = 2 then 98304#64 else 0#64

theorem foldedProduct_facts : Prepared (stateBefore foldedProduct 0) 15 ∧
    literalScale (stateBefore foldedProduct 0) = 16 ∧
    ahead (stateBefore foldedProduct 0) 4 =
      [(.floatLit 15#64 1, some (bytes "1.5")), (.star, some (bytes "*")),
        (.floatLit 15#64 1, some (bytes "1.5")), (.semi, some (bytes ";"))] := by
  decide +kernel

theorem foldedProduct_tokens : LiteralTokens (stateBefore foldedProduct 0).tok .mul
    (.fixed 15#64 1) (.fixed 15#64 1) (stateBefore foldedProduct 0).current :=
  .of_ahead foldedProduct_facts.2.2 rfl rfl

theorem storedProduct_facts : Prepared (stateBefore storedProduct 2) 15 ∧
    InRegister (stateBefore storedProduct 2) (bytes "$a") 1 (some 16) ∧
    InRegister (stateBefore storedProduct 2) (bytes "$b") 2 (some 16) ∧
    ahead (stateBefore storedProduct 2) 4 =
      [(.varIdent, some (bytes "$a")), (.star, some (bytes "*")),
        (.varIdent, some (bytes "$b")), (.semi, some (bytes ";"))] := by
  decide +kernel

theorem storedProduct_tokens : VarTokens (stateBefore storedProduct 2).tok
    (stateBefore storedProduct 2).text? .mul (bytes "$a") (bytes "$b")
    (stateBefore storedProduct 2).current :=
  .of_ahead storedProduct_facts.2.2.2

theorem storedProduct_vars (st' : CompilerState) :
    VarHolds (stateBefore storedProduct 2) (machineAt (stateBefore storedProduct 2) st' storedRegs)
        (bytes "$a") (.reg 1) ((Literal.fixed 15#64 1).scale 16)
        ((Literal.fixed 15#64 1).word 16) ∧
      VarHolds (stateBefore storedProduct 2)
        (machineAt (stateBefore storedProduct 2) st' storedRegs) (bytes "$b") (.reg 2)
        ((Literal.fixed 15#64 1).scale 16) ((Literal.fixed 15#64 1).word 16) := by
  have hword : (Literal.fixed 15#64 1).word 16 = 98304#64 := by decide +kernel
  obtain ⟨-, ha, hb, -⟩ := storedProduct_facts
  rw [hword]
  exact ⟨ha.holds st' storedRegs, hb.holds st' storedRegs⟩

end Compiler

end LatencyOS
