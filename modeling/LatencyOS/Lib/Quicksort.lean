import Mathlib.Data.List.Perm.Basic
import Mathlib.Order.Lattice

/-!
# Quicksort in place

Quicksort with the last cell as the pivot: one pass brings what is at most the pivot to the front,
the pivot goes behind it, and both sides are sorted on their own.  An access outside the slice has
no outcome.  In the pass the slice is what is small, what is large and the cells not yet seen; the
small cells end at the counter.
-/

namespace LatencyOS.Quicksort

variable {α : Type}

/-- Exchange two cells. -/
def swap (arr : List α) (i j : ℕ) : Option (List α) := do
  let a ← arr[i]?
  let b ← arr[j]?
  return (arr.set i b).set j a

section Definitions

variable [LinearOrder α]

/-- One turn of the pass, at a cell: a small one goes behind the small ones before it. -/
def partitionStep (pivot : α) (s : List α × ℕ) (j : ℕ) : Option (List α × ℕ) := do
  let x ← s.1[j]?
  if x ≤ pivot then
    let arr ← swap s.1 s.2 j
    return (arr, s.2 + 1)
  else return s

/-- The slice around its pivot, and where that stands. -/
def partition (arr : List α) : Option (List α × ℕ) := do
  let pivot ← arr[arr.length - 1]?
  let s ← (List.range (arr.length - 1)).foldlM (partitionStep pivot) (arr, 0)
  let arr ← swap s.1 s.2 (arr.length - 1)
  return (arr, s.2)

/-- The slice, sorted by at most so many nested calls. -/
def quicksort : ℕ → List α → Option (List α)
  | 0, _ => none
  | fuel + 1, arr =>
    if arr.length ≤ 1 then some arr
    else do
      let s ← partition arr
      if s.2 < s.1.length then
        let left ← quicksort fuel (s.1.take s.2)
        let arr := left ++ s.1.drop s.2
        let right ← quicksort fuel (arr.drop (s.2 + 1))
        return arr.take (s.2 + 1) ++ right
      else none

end Definitions

/-! ## Exchanging cells -/

theorem swap_self (front back : List α) (x : α) :
    swap (front ++ x :: back) front.length front.length = some (front ++ x :: back) := by
  simp [swap]

/-- Two cells with some between them. -/
theorem swap_append (front between back : List α) (x y : α) :
    swap (front ++ x :: (between ++ y :: back)) front.length
        (front.length + (between.length + 1)) =
      some (front ++ y :: (between ++ x :: back)) := by
  simp [swap]

/-! ## The pass -/

variable [LinearOrder α] {pivot x : α} {small large : List α}

/-- A small cell changes places with the first large one. -/
theorem partitionStep_small (hx : x ≤ pivot) (small large rest : List α) :
    ∃ large', partitionStep pivot (small ++ large ++ x :: rest, small.length)
        (small.length + large.length) =
          some (small ++ [x] ++ large' ++ rest, (small ++ [x]).length) ∧
      large'.Perm large := by
  cases large with
  | nil =>
    refine ⟨[], ?_, .refl _⟩
    have hswap := swap_self small rest x
    rw [List.append_nil, List.length_nil, Nat.add_zero]
    simp [partitionStep, hx, hswap]
  | cons y large =>
    refine ⟨large ++ [y], ?_, List.perm_append_singleton y large⟩
    have hswap := swap_append small large rest y x
    have hslice : small ++ y :: large ++ x :: rest = small ++ y :: (large ++ x :: rest) := by simp
    rw [hslice, List.length_cons]
    simp [partitionStep, hx, hswap]

theorem partitionStep_large (hx : pivot < x) (small large rest : List α) :
    partitionStep pivot (small ++ large ++ x :: rest, small.length)
        (small.length + large.length) =
      some (small ++ (large ++ [x]) ++ rest, small.length) := by
  simp [partitionStep, not_le_of_gt hx]

/-- The pass over the cells not yet seen: what follows them stays. -/
theorem foldlM_partitionStep (small large rest back : List α) (hsmall : ∀ y ∈ small, y ≤ pivot)
    (hlarge : ∀ y ∈ large, pivot < y) :
    ∃ small' large', (List.range' (small.length + large.length) rest.length).foldlM
        (partitionStep pivot) (small ++ large ++ (rest ++ back), small.length) =
          some (small' ++ large' ++ back, small'.length) ∧
      (∀ y ∈ small', y ≤ pivot) ∧ (∀ y ∈ large', pivot < y) ∧
      (small' ++ large').Perm (small ++ large ++ rest) := by
  induction rest generalizing small large with
  | nil => exact ⟨small, large, rfl, hsmall, hlarge, by rw [List.append_nil]⟩
  | cons x rest ih =>
    rw [List.length_cons, List.range'_succ, List.foldlM_cons, List.cons_append]
    by_cases hx : x ≤ pivot
    · obtain ⟨moved, hstep, hperm⟩ := partitionStep_small hx small large (rest ++ back)
      have hsmall' : ∀ y ∈ small ++ [x], y ≤ pivot := by
        intro y hy
        rcases List.mem_append.mp hy with hy | hy
        · exact hsmall y hy
        · rw [List.mem_singleton.mp hy]
          exact hx
      have hmoved : ∀ y ∈ moved, pivot < y := fun y hy => hlarge y (hperm.mem_iff.mp hy)
      have hlen : small.length + large.length + 1 = (small ++ [x]).length + moved.length := by
        rw [List.length_append, List.length_singleton, hperm.length_eq]
        omega
      obtain ⟨small', large', hrun, hs, hl, hall⟩ := ih _ _ hsmall' hmoved
      refine ⟨small', large', ?_, hs, hl, hall.trans ?_⟩
      · rw [hstep, hlen]
        exact hrun
      · have hunseen : (x :: (moved ++ rest)).Perm (large ++ x :: rest) :=
          ((hperm.append_right rest).cons x).trans List.perm_middle.symm
        calc (small ++ [x] ++ moved ++ rest).Perm (small ++ x :: (moved ++ rest)) := by
              simp
          _ |>.Perm (small ++ (large ++ x :: rest)) := hunseen.append_left small
          _ |>.Perm (small ++ large ++ x :: rest) := by simp
    · have hlt := lt_of_not_ge hx
      have hlarge' : ∀ y ∈ large ++ [x], pivot < y := by
        intro y hy
        rcases List.mem_append.mp hy with hy | hy
        · exact hlarge y hy
        · rw [List.mem_singleton.mp hy]
          exact hlt
      have hlen : small.length + large.length + 1 = small.length + (large ++ [x]).length := by
        rw [List.length_append, List.length_singleton]
        omega
      obtain ⟨small', large', hrun, hs, hl, hall⟩ := ih _ _ hsmall hlarge'
      refine ⟨small', large', ?_, hs, hl, ?_⟩
      · rw [partitionStep_large hlt, hlen]
        exact hrun
      · simpa using hall

/-- The pivot ends between what is at most as large and what is larger. -/
theorem partition_spec {arr : List α} (hne : arr ≠ []) :
    ∃ left pivot right, partition arr = some (left ++ pivot :: right, left.length) ∧
      (∀ y ∈ left, y ≤ pivot) ∧ (∀ y ∈ right, pivot < y) ∧
      (left ++ pivot :: right).Perm arr := by
  obtain ⟨init, pivot, hinit⟩ := (List.eq_nil_or_concat arr).resolve_left hne
  rw [List.concat_eq_append] at hinit
  subst hinit
  have hlast : (init ++ [pivot])[init.length]? = some pivot := by simp
  have hlen : (init ++ [pivot]).length - 1 = init.length := by simp
  obtain ⟨small, large, hrun, hsmall, hlarge, hperm⟩ :=
    foldlM_partitionStep [] [] init [pivot] nofun nofun
  have hcount := hperm.length_eq
  simp only [List.nil_append, List.length_nil, Nat.zero_add, List.length_append]
    at hrun hperm hcount
  rw [← List.range_eq_range'] at hrun
  cases large with
  | nil =>
    have hswap := swap_self small [] pivot
    rw [List.append_nil] at hrun hperm
    refine ⟨small, pivot, [], ?_, hsmall, nofun, hperm.append_right [pivot]⟩
    rw [List.length_nil, Nat.add_zero] at hcount
    rw [← hcount] at hlen hlast hrun
    rw [partition, hlen, hlast]
    simp only [Option.bind_eq_bind, Option.bind_some, hrun, hswap, Option.pure_def]
  | cons y large =>
    have hswap := swap_append small large [] y pivot
    refine ⟨small, pivot, large ++ [y], ?_, hsmall, ?_, ?_⟩
    · rw [List.length_cons] at hcount
      simp only [List.append_assoc, List.cons_append] at hrun
      rw [← hcount] at hlen hlast hrun
      rw [partition, hlen, hlast]
      simp only [Option.bind_eq_bind, Option.bind_some, hrun, hswap, Option.pure_def]
    · intro z hz
      exact hlarge z ((List.perm_append_singleton y large).mem_iff.mp hz)
    · have hback : (pivot :: (large ++ [y])).Perm (y :: large ++ [pivot]) :=
        ((List.perm_append_singleton y large).cons pivot).trans
          (List.perm_append_singleton pivot (y :: large)).symm
      calc (small ++ pivot :: (large ++ [y])).Perm (small ++ (y :: large ++ [pivot])) :=
            hback.append_left small
        _ |>.Perm (init ++ [pivot]) := by
            rw [← List.append_assoc]
            exact hperm.append_right [pivot]

/-! ## Sorting -/

/-- The two sides sorted, around the pivot between them. -/
theorem pairwise_around {left right : List α} (hleft : left.Pairwise (· ≤ ·))
    (hright : right.Pairwise (· ≤ ·)) (hle : ∀ y ∈ left, y ≤ pivot)
    (hlt : ∀ y ∈ right, pivot < y) : (left ++ pivot :: right).Pairwise (· ≤ ·) := by
  refine List.pairwise_append.mpr ⟨hleft, List.pairwise_cons.mpr ⟨?_, hright⟩, ?_⟩
  · intro y hy
    exact le_of_lt (hlt y hy)
  · intro y hy z hz
    rcases List.mem_cons.mp hz with rfl | hz
    · exact hle y hy
    · exact le_trans (hle y hy) (le_of_lt (hlt z hz))

/-- **Quicksort sorts** every slice, within as many nested calls as it has cells. -/
theorem quicksort_spec {fuel : ℕ} {arr : List α} (h : arr.length < fuel) :
    ∃ sorted, quicksort fuel arr = some sorted ∧ sorted.Perm arr ∧ sorted.Pairwise (· ≤ ·) := by
  induction fuel generalizing arr with
  | zero => exact absurd h (Nat.not_lt_zero _)
  | succ fuel ih =>
    by_cases hshort : arr.length ≤ 1
    · refine ⟨arr, by rw [quicksort, if_pos hshort], .refl _, ?_⟩
      rcases Nat.le_one_iff_eq_zero_or_eq_one.mp hshort with hlen | hlen
      · rw [List.length_eq_zero_iff.mp hlen]
        exact .nil
      · obtain ⟨x, rfl⟩ := List.length_eq_one_iff.mp hlen
        exact List.pairwise_singleton _ x
    · have hne : arr ≠ [] := by
        rintro rfl
        exact hshort (Nat.zero_le 1)
      obtain ⟨left, pivot, right, hpart, hle, hlt, hperm⟩ := partition_spec hne
      have hlen := hperm.length_eq
      rw [List.length_append, List.length_cons] at hlen
      have hleft : left.length < fuel := by omega
      have hright : right.length < fuel := by omega
      obtain ⟨front, hfront, hfperm, hfsorted⟩ := ih hleft
      obtain ⟨back, hback, hbperm, hbsorted⟩ := ih hright
      refine ⟨front ++ pivot :: back, ?_, ?_, ?_⟩
      · have hflen := hfperm.length_eq
        have htake : (front ++ pivot :: right).take (front.length + 1) = front ++ [pivot] := by
          rw [List.take_length_add_append, List.take_succ_cons, List.take_zero]
        rw [quicksort, if_neg hshort, hpart]
        simp [hfront, ← hflen, hback, htake]
      · exact (hfperm.append (hbperm.cons pivot)).trans hperm
      · exact pairwise_around hfsorted hbsorted (fun y hy => hle y (hfperm.mem_iff.mp hy))
          fun y hy => hlt y (hbperm.mem_iff.mp hy)

end LatencyOS.Quicksort
