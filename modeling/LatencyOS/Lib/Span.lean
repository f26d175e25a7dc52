import Mathlib.Data.List.TakeWhile

/-!
# Where a scanner stops

A scanner takes the longest stretch of elements with a property.  What it takes and what
it leaves are characterised together.
-/

namespace LatencyOS

variable {α : Type}

/-- A list is split where a property of its elements ends. -/
theorem span_eq_iff {p : α → Bool} {l m r : List α} :
    (l.takeWhile p = m ∧ l.dropWhile p = r) ↔
      l = m ++ r ∧ (∀ b ∈ m, p b = true) ∧ ∀ b ∈ r.head?, p b = false := by
  constructor
  · rintro ⟨rfl, rfl⟩
    refine ⟨List.takeWhile_append_dropWhile.symm, fun b hb => List.mem_takeWhile_imp hb, ?_⟩
    intro b hb
    have hhead := List.head?_dropWhile_not p l
    rw [Option.mem_def.mp hb] at hhead
    simpa using hhead
  · rintro ⟨rfl, hm, hr⟩
    rw [List.takeWhile_append_of_pos hm, List.dropWhile_append_of_pos hm]
    cases r with
    | nil => exact ⟨List.append_nil m, rfl⟩
    | cons b r =>
      have hb : ¬ p b = true := by simp [hr b rfl]
      rw [List.takeWhile_cons_of_neg hb, List.dropWhile_cons_of_neg hb, List.append_nil]
      exact ⟨rfl, rfl⟩

theorem drop_length_takeWhile (p : α → Bool) (l : List α) :
    l.drop (l.takeWhile p).length = l.dropWhile p := by
  have hsplit := @List.drop_left _ (l.takeWhile p) (l.dropWhile p)
  rwa [List.takeWhile_append_dropWhile] at hsplit

theorem length_takeWhile_add (p : α → Bool) (l : List α) :
    (l.takeWhile p).length + (l.dropWhile p).length = l.length := by
  rw [← List.length_append, List.takeWhile_append_dropWhile]

/-- What is left behind the longest stretch with a property. -/
theorem dropWhile_eq_iff {p : α → Bool} {l r : List α} :
    l.dropWhile p = r ↔ ∃ m, l = m ++ r ∧ (∀ b ∈ m, p b = true) ∧ ∀ b ∈ r.head?, p b = false := by
  constructor
  · intro h
    exact ⟨_, span_eq_iff.mp ⟨rfl, h⟩⟩
  · rintro ⟨m, h⟩
    exact (span_eq_iff.mpr h).2

end LatencyOS
