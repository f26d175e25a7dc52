import Mathlib.Algebra.BigOperators.Group.List.Basic
import Mathlib.Algebra.Ring.Int.Defs
import Mathlib.Algebra.Ring.Nat
import Mathlib.Logic.Function.Basic

/-!
# Blocks laid out by prefix sums

Blocks share one row of slots.  A block is placed at the sum of the lengths of the blocks
with a lower number, as these lengths are at that moment.  The blocks stay apart as long as a
length only changes while every block with a higher number is still empty.
-/

namespace LatencyOS

/-- The length and the first slot of every block. -/
structure Layout where
  lens : ℕ → ℕ
  bases : ℕ → ℕ

namespace Layout

/-- The sum of the lengths below `i`. -/
def offset (lens : ℕ → ℕ) (i : ℕ) : ℕ := ((List.range i).map lens).sum

theorem offset_succ (lens : ℕ → ℕ) (i : ℕ) : offset lens (i + 1) = offset lens i + lens i := by
  simp only [offset, List.range_succ, List.map_append, List.sum_append, List.map_cons, List.map_nil,
    List.sum_cons, List.sum_nil, Nat.add_zero]

/-- A block ends before the offset of a later one. -/
theorem offset_add_le (lens : ℕ → ℕ) {i j : ℕ} (h : i < j) :
    offset lens i + lens i ≤ offset lens j := by
  induction j with
  | zero => exact absurd h (Nat.not_lt_zero i)
  | succ j ih =>
    rw [offset_succ]
    rcases Nat.lt_succ_iff_lt_or_eq.mp h with hlt | rfl
    · exact Nat.le_trans (ih hlt) (Nat.le_add_right _ _)
    · exact Nat.le_refl _

/-- An offset depends on the lengths below it only. -/
theorem offset_congr {lens lens' : ℕ → ℕ} {i : ℕ} (h : ∀ k < i, lens k = lens' k) :
    offset lens i = offset lens' i := by
  unfold offset
  congr 1
  refine List.map_congr_left fun k hk => ?_
  exact h k (List.mem_range.mp hk)

/-- A slot of block `i`. -/
def Holds (l : Layout) (i s : ℕ) : Prop := l.bases i ≤ s ∧ s < l.bases i + l.lens i

/-- No slot belongs to two blocks. -/
def Apart (l : Layout) : Prop := ∀ i j s, i ≠ j → l.Holds i s → ¬ l.Holds j s

/-- Every block that is not empty starts at its offset. -/
def Packed (l : Layout) : Prop := ∀ i, 0 < l.lens i → l.bases i = offset l.lens i

/-- Place block `i` with length `n`. -/
def place (l : Layout) (i n : ℕ) : Layout where
  lens := Function.update l.lens i n
  bases := Function.update l.bases i (offset (Function.update l.lens i n) i)

variable {l : Layout} {i j n : ℕ}

theorem Packed.apart (h : l.Packed) : l.Apart := by
  have hlt : ∀ i j s, i < j → l.Holds i s → ¬ l.Holds j s := by
    rintro i j s hij ⟨hi, hi'⟩ ⟨hj, hj'⟩
    have hle := offset_add_le l.lens hij
    rw [h i (by omega)] at hi'
    rw [h j (by omega)] at hj
    omega
  intro i j s hne hi hj
  rcases Nat.lt_or_gt_of_ne hne with hij | hij
  · exact hlt i j s hij hi hj
  · exact hlt j i s hij hj hi

theorem place_lens_of_ne (h : j ≠ i) : (l.place i n).lens j = l.lens j :=
  Function.update_of_ne h _ _

theorem place_bases_of_ne (h : j ≠ i) : (l.place i n).bases j = l.bases j :=
  Function.update_of_ne h _ _

/-- Placing a block keeps the layout packed when its length does not change or every block
above it is empty. -/
theorem Packed.place (h : l.Packed) (hord : n = l.lens i ∨ ∀ j, i < j → l.lens j = 0) :
    (l.place i n).Packed := by
  intro j hj
  by_cases hji : j = i
  · rw [hji]
    exact Function.update_self i _ l.bases
  · rw [place_lens_of_ne hji] at hj
    rw [place_bases_of_ne hji, h j hj]
    refine offset_congr fun k hk => ?_
    by_cases hki : k = i
    · rw [hki] at hk ⊢
      rcases hord with hn | habove
      · exact hn.symm.trans (Function.update_self i n l.lens).symm
      · exact absurd (habove j hk) (by omega)
    · exact (place_lens_of_ne hki).symm

end Layout

end LatencyOS
