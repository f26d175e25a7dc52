import Mathlib.Data.List.Nodup

/-!
# Lists of named things

A list is searched by the key of its items.  Two lists are compared by which keys they have and by
a relation between the items they have under one key.
-/

namespace LatencyOS.Keyed

variable {α κ : Type} (key : α → κ)

/-- The keys of a list are different. -/
def Unique (l : List α) : Prop := (l.map key).Nodup

/-- Every key of the second list is a key of the first. -/
def Within (l m : List α) : Prop := ∀ y ∈ m, ∃ x ∈ l, key x = key y

/-- Items of the two lists with the same key are related. -/
def Agree (R : α → α → Prop) (l m : List α) : Prop :=
  ∀ x ∈ l, ∀ y ∈ m, key x = key y → R x y

/-- The lists have the same keys, and related items under each. -/
def Same (R : α → α → Prop) (l m : List α) : Prop :=
  Within key l m ∧ Within key m l ∧ Agree key R l m

variable {key}

theorem Agree.symm {R S : α → α → Prop} {l m : List α} (hRS : ∀ x y, R x y → S y x)
    (h : Agree key R l m) : Agree key S m l :=
  fun y hy x hx hkey => hRS x y (h x hx y hy hkey.symm)

theorem agree_and {R S : α → α → Prop} {l m : List α} :
    Agree key (fun x y => R x y ∧ S x y) l m ↔ Agree key R l m ∧ Agree key S l m := by
  constructor
  · intro h
    exact ⟨fun x hx y hy hkey => (h x hx y hy hkey).1, fun x hx y hy hkey => (h x hx y hy hkey).2⟩
  · rintro ⟨hR, hS⟩ x hx y hy hkey
    exact ⟨hR x hx y hy hkey, hS x hx y hy hkey⟩

/-! ## Searching -/

variable [DecidableEq κ]

variable (key) in
/-- The first item with a key. -/
def lookup (l : List α) (k : κ) : Option α := l.find? fun x => decide (key x = k)

theorem key_of_lookup {l : List α} {k : κ} {x : α} (h : lookup key l k = some x) :
    x ∈ l ∧ key x = k := by
  refine ⟨List.mem_of_find?_eq_some h, ?_⟩
  simpa using List.find?_some h

theorem lookup_eq_none_iff {l : List α} {k : κ} :
    lookup key l k = none ↔ ∀ x ∈ l, key x ≠ k := by
  simp [lookup]

/-- An item of a list with different keys is found under its key. -/
theorem lookup_of_mem {l : List α} (hl : Unique key l) {x : α} (hx : x ∈ l) :
    lookup key l (key x) = some x := by
  cases h : lookup key l (key x) with
  | none => exact absurd rfl (lookup_eq_none_iff.mp h x hx)
  | some y =>
    obtain ⟨hy, hkey⟩ := key_of_lookup h
    rw [List.inj_on_of_nodup_map hl hy hx hkey]

/-- Every item of the second list finds a related one. -/
theorem forall_lookup_iff {l : List α} (hl : Unique key l) (R : α → α → Prop) (m : List α) :
    (∀ y ∈ m, ∃ x, lookup key l (key y) = some x ∧ R x y) ↔ Within key l m ∧ Agree key R l m := by
  constructor
  · intro h
    refine ⟨fun y hy => ?_, fun x hx y hy hkey => ?_⟩
    · obtain ⟨x, hx, -⟩ := h y hy
      exact ⟨x, key_of_lookup hx⟩
    · obtain ⟨x', hx', hrel⟩ := h y hy
      rw [← hkey, lookup_of_mem hl hx] at hx'
      cases hx'
      exact hrel
  · rintro ⟨hwithin, hagree⟩ y hy
    obtain ⟨x, hx, hkey⟩ := hwithin y hy
    exact ⟨x, by rw [← hkey, lookup_of_mem hl hx], hagree x hx y hy hkey⟩

/-- What an item of the second list finds is related to it. -/
theorem forall_found_iff {l : List α} (hl : Unique key l) (R : α → α → Prop) (m : List α) :
    (∀ y ∈ m, ∀ x, lookup key l (key y) = some x → R x y) ↔ Agree key R l m := by
  constructor
  · intro h x hx y hy hkey
    exact h y hy x (by rw [← hkey, lookup_of_mem hl hx])
  · intro h y hy x hx
    obtain ⟨hmem, hkey⟩ := key_of_lookup hx
    exact h x hmem y hy hkey

end LatencyOS.Keyed
