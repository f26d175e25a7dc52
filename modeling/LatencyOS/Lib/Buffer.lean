import Mathlib.Algebra.Ring.Int.Defs
import Mathlib.Algebra.Ring.Nat

/-!
# Buffers of a fixed size

A buffer is a list; what is copied to or from a part that does not lie inside it has no outcome.
A layout is a list of fields that stand one behind the other: writing its fields into a buffer
leaves them at its front, whatever the buffer held before.
-/

namespace LatencyOS

namespace Buffer

variable {α : Type}

/-- Write over the part from `off` on. -/
def store (buf : List α) (off : ℕ) (data : List α) : Option (List α) :=
  if off + data.length ≤ buf.length then
    some (buf.take off ++ data ++ buf.drop (off + data.length))
  else none

/-- The `len` cells from `off` on. -/
def load (buf : List α) (off len : ℕ) : Option (List α) :=
  if off + len ≤ buf.length then some ((buf.drop off).take len) else none

/-- Write some fields, each at its place. -/
def storeAll (buf : List α) (fields : List (ℕ × List α)) : Option (List α) :=
  fields.foldlM (fun b f => store b f.1 f.2) buf

/-- Every field starts where the one before it ends. -/
def Consecutive : ℕ → List (ℕ × List α) → Prop
  | _, [] => True
  | off, f :: fields => f.1 = off ∧ Consecutive (off + f.2.length) fields

/-- The contents of some fields. -/
def contents (fields : List (ℕ × List α)) : List α := fields.flatMap Prod.snd

variable {front middle back data : List α} {fields : List (ℕ × List α)} {off : ℕ}

@[simp] theorem contents_nil : contents ([] : List (ℕ × List α)) = [] := rfl

@[simp] theorem contents_cons (f : ℕ × List α) :
    contents (f :: fields) = f.2 ++ contents fields := rfl

theorem length_store {buf buf' : List α} (h : store buf off data = some buf') :
    buf'.length = buf.length := by
  rw [store] at h
  split at h
  · cases h
    simp only [List.length_append, List.length_take, List.length_drop]
    omega
  · cases h

/-- A write behind a front. -/
theorem store_append (hoff : off = front.length) (hlen : data.length ≤ back.length) :
    store (front ++ back) off data = some (front ++ data ++ back.drop data.length) := by
  subst hoff
  rw [store, if_pos (by rw [List.length_append]; omega), List.take_left, List.drop_append,
    List.drop_of_length_le (Nat.le_add_right _ _), List.nil_append, Nat.add_sub_cancel_left]

/-- A write of the length of what it replaces. -/
theorem store_replace (hoff : off = front.length) (hlen : data.length = middle.length)
    (back : List α) :
    store (front ++ middle ++ back) off data = some (front ++ data ++ back) := by
  rw [List.append_assoc, store_append hoff (by rw [List.length_append]; omega), hlen,
    List.drop_left]

theorem load_append {len : ℕ} (hoff : off = front.length) (hlen : len = middle.length)
    (back : List α) :
    load (front ++ middle ++ back) off len = some middle := by
  subst hoff hlen
  rw [load, if_pos (by simp only [List.length_append]; omega), List.append_assoc, List.drop_left,
    List.take_left]

/-- What is read stands behind the cells before it. -/
theorem eq_append_of_load {buf : List α} {len : ℕ} (h : load buf off len = some data) :
    ∃ front back, buf = front ++ data ++ back ∧ front.length = off := by
  rw [load] at h
  split at h
  · next hle =>
    cases h
    refine ⟨buf.take off, (buf.drop off).drop len, ?_, List.length_take_of_le (by omega)⟩
    rw [List.append_assoc, List.take_append_drop, List.take_append_drop]
  · cases h

/-- Consecutive fields stand one behind the other. -/
theorem storeAll_append (hoff : Consecutive front.length fields)
    (hlen : (contents fields).length ≤ back.length) :
    storeAll (front ++ back) fields =
      some (front ++ contents fields ++ back.drop (contents fields).length) := by
  induction fields generalizing front back with
  | nil => simp [storeAll]
  | cons f fields ih =>
    rw [contents_cons, List.length_append] at hlen
    have hrest : (contents fields).length ≤ (back.drop f.2.length).length := by
      rw [List.length_drop]
      omega
    have hnext : Consecutive (front ++ f.2).length fields := by
      rw [List.length_append]
      exact hoff.2
    rw [storeAll, List.foldlM_cons, store_append hoff.1 (by omega)]
    change storeAll (front ++ f.2 ++ back.drop f.2.length) fields = _
    rw [ih hnext hrest, contents_cons, List.drop_drop, List.length_append, List.append_assoc front]

end Buffer

end LatencyOS
