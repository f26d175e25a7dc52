import Mathlib.Data.List.Nodup
import Mathlib.Data.List.Range
import Mathlib.Data.Nat.Nth
import Mathlib.Data.Set.Finite.Basic

/-!
# A pool of slots

A pool hands out the lowest slot that is free.  A log of what it hands out says which of those in
use were handed out last.
-/

namespace LatencyOS.Pool

/-! ## The order of what is in use -/

section Log

variable {α : Type} [DecidableEq α] {inUse inUse' : α → Bool} {log held : List α} {x : α}

/-- What a log names, each once, by when it was named last. -/
def order (log : List α) : List α := log.foldl (fun seen x => seen.filter (· ≠ x) ++ [x]) []

/-- What is in use, the last named at the end. -/
def live (inUse : α → Bool) (log : List α) : List α := (order log).filter inUse

theorem order_append_singleton (log : List α) (x : α) :
    order (log ++ [x]) = (order log).filter (· ≠ x) ++ [x] := by
  rw [order, List.foldl_append]
  rfl

/-- What is named now comes last. -/
theorem live_push (h : live inUse log = held) (hnew : x ∉ held) (hx : inUse' x = true)
    (hsame : ∀ y, y ≠ x → inUse' y = inUse y) : live inUse' (log ++ [x]) = held ++ [x] := by
  have hold : ((order log).filter (· ≠ x)).filter inUse' = held := by
    rw [List.filter_filter, ← h, live]
    refine List.filter_congr fun y hy => ?_
    by_cases hyx : y = x
    · have hout : inUse x = false := by
        by_contra hin
        refine hnew ?_
        rw [← h]
        exact List.mem_filter.mpr ⟨hyx ▸ hy, by simpa using hin⟩
      rw [hyx, hout]
      simp
    · rw [hsame y hyx]
      simp [hyx]
  rw [live, order_append_singleton, List.filter_append, hold]
  simp [hx]

/-- What is no longer in use is left out. -/
theorem live_drop (h : live inUse log = held) (hx : inUse' x = false)
    (hsame : ∀ y, y ≠ x → inUse' y = inUse y) : live inUse' log = held.filter (· ≠ x) := by
  rw [← h, live, live, List.filter_filter]
  refine List.filter_congr fun y _ => ?_
  by_cases hyx : y = x
  · rw [hyx, hx]
    simp
  · rw [hsame y hyx]
    simp [hyx]

end Log

/-! ## The lowest free slot -/

variable {held held' : List ℕ} {i n : ℕ}

/-- The lowest slot that is not held. -/
structure IsNext (held : List ℕ) (i : ℕ) : Prop where
  free : i ∉ held
  below : ∀ k < i, k ∈ held

/-- A pool that is used like a stack hands out the slots one after the other. -/
theorem isNext_range (n : ℕ) : IsNext (List.range n) n :=
  ⟨List.not_mem_range_self, fun _ hk => List.mem_range.mpr hk⟩

theorem find?_eq_some (h : IsNext held i) (hi : i < n) {used : ℕ → Bool}
    (hused : ∀ k, used k = decide (k ∈ held)) :
    (List.range n).find? (fun k => !used k) = some i := by
  rw [List.find?_range_eq_some]
  refine ⟨by simp [hused, h.free], List.mem_range.mpr hi, fun k hk => ?_⟩
  simp [hused, h.below k hk]

theorem find?_eq_none (h : IsNext held i) (hi : n ≤ i) {used : ℕ → Bool}
    (hused : ∀ k, used k = decide (k ∈ held)) :
    (List.range n).find? (fun k => !used k) = none := by
  rw [List.find?_range_eq_none]
  intro k hk
  simp [hused, h.below k (Nat.lt_of_lt_of_le hk hi)]

theorem IsNext.congr (h : IsNext held i) (hmem : ∀ k, k ∈ held' ↔ k ∈ held) : IsNext held' i :=
  ⟨fun hi => h.free ((hmem i).mp hi), fun k hk => (hmem k).mpr (h.below k hk)⟩

/-- A slot that is not the next one does not change which one is. -/
theorem IsNext.push (h : IsNext held i) {j : ℕ} (hne : i ≠ j) : IsNext (held ++ [j]) i := by
  refine ⟨?_, fun k hk => List.mem_append_left _ (h.below k hk)⟩
  rw [List.mem_append, List.mem_singleton, not_or]
  exact ⟨h.free, hne⟩

/-! ## Use like a stack -/

/-- The slots that are handed out on top of some that are held. -/
structure Stack where
  base : List ℕ
  slot : ℕ → ℕ
  isNext_slot : ∀ d, IsNext (base ++ (List.range d).map slot) (slot d)

namespace Stack

/-- What is held when so many have been handed out. -/
def taken (S : Stack) (d : ℕ) : List ℕ := S.base ++ (List.range d).map S.slot

/-- No slot is left out. -/
def Gapless (S : Stack) : Prop := ∀ d, S.slot (d + 1) = S.slot d + 1

/-- The pool of which nothing is held. -/
def empty : Stack where
  base := []
  slot := id
  isNext_slot := fun d => by
    rw [List.map_id]
    exact isNext_range d

theorem gapless_empty : empty.Gapless := fun _ => rfl

/-- Above anything there is a stack. -/
theorem exists_base (base : List ℕ) : ∃ S : Stack, S.base = base := by
  have hinf : (Set.ofPred (· ∉ base)).Infinite := by
    refine Set.Infinite.mono ?_ base.toFinset.finite_toSet.infinite_compl
    exact fun i hi hmem => hi (List.mem_toFinset.mpr hmem)
  refine ⟨⟨base, Nat.nth (· ∉ base), fun d => ⟨?_, fun k hk => ?_⟩⟩, rfl⟩
  · rw [List.mem_append, List.mem_map, not_or]
    refine ⟨Nat.nth_mem_of_infinite hinf d, ?_⟩
    rintro ⟨n, hn, heq⟩
    exact Nat.ne_of_lt (List.mem_range.mp hn) (Nat.nth_injective hinf heq)
  · by_cases hbase : k ∈ base
    · exact List.mem_append_left _ hbase
    · obtain ⟨n, -, rfl⟩ := Nat.exists_lt_card_nth_eq (p := (· ∉ base)) hbase
      refine List.mem_append_right _ (List.mem_map.mpr ⟨n, List.mem_range.mpr ?_, rfl⟩)
      exact (Nat.nth_lt_nth hinf).mp hk

variable {S : Stack} {d : ℕ}

theorem taken_zero : S.taken 0 = S.base := by
  rw [taken, List.range_zero, List.map_nil, List.append_nil]

theorem taken_succ (S : Stack) (d : ℕ) : S.taken (d + 1) = S.taken d ++ [S.slot d] := by
  rw [taken, List.range_succ, List.map_append, ← List.append_assoc]
  rfl

theorem taken_add (S : Stack) (d n : ℕ) :
    S.taken (d + n) = S.taken d ++ (List.range n).map fun k => S.slot (d + k) := by
  rw [taken, List.range_add, List.map_append, ← List.append_assoc, List.map_map]
  rfl

theorem isNext (S : Stack) (d : ℕ) : IsNext (S.taken d) (S.slot d) := S.isNext_slot d

theorem slot_ne (S : Stack) (d : ℕ) : S.slot d ≠ S.slot (d + 1) := by
  intro heq
  refine (S.isNext (d + 1)).free ?_
  rw [taken_succ, ← heq]
  exact List.mem_append_right _ (List.mem_singleton_self _)

theorem Gapless.slot_add (h : S.Gapless) (d n : ℕ) : S.slot (d + n) = S.slot d + n := by
  induction n with
  | zero => rfl
  | succ n ih => rw [← Nat.add_assoc, h, ih, Nat.add_assoc]

end Stack

end LatencyOS.Pool
