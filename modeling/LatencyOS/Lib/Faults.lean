import Mathlib.Data.Nat.Basic
import Mathlib.Algebra.Ring.Nat

/-!
# Operations that may fail

A computation makes operations one after the other, and some of them fail, by their number since
the start.  It stops at the first that does.  A computation that would make `n` operations has its
outcome when none of these fails, and fails otherwise.
-/

namespace LatencyOS

/-- A computation that counts the operations it makes. -/
abbrev FaultM (ε : Type) := ExceptT ε (StateM ℕ)

namespace FaultM

variable {ε α β : Type}

/-- The outcome of a computation before which `k` operations were made, and their number after. -/
def outcome (m : FaultM ε α) (k : ℕ) : Except ε α × ℕ := m.run.run k

theorem outcome_pure (a : α) (k : ℕ) : (pure a : FaultM ε α).outcome k = (.ok a, k) := rfl

theorem outcome_bind (m : FaultM ε α) (f : α → FaultM ε β) (k : ℕ) :
    (m >>= f).outcome k = match m.outcome k with
      | (.ok a, k') => (f a).outcome k'
      | (.error e, k') => (.error e, k') := by
  rw [outcome, ExceptT.run_bind, StateT.run_bind]
  cases h : m.run.run k with
  | mk r k' => cases r <;> simp [outcome, h] <;> rfl

variable (fails : ℕ → Option ε)

/-- One operation. -/
def attempt (a : α) : FaultM ε α := do
  let k ← getModify (· + 1)
  match fails k with
  | some e => throw e
  | none => pure a

theorem outcome_attempt (a : α) (k : ℕ) : (attempt fails a).outcome k =
    (match fails k with
      | some e => .error e
      | none => .ok a, k + 1) := by
  have hcount : (attempt fails a).outcome k = (match fails k with
      | some e => (throw e : FaultM ε α)
      | none => pure a).outcome (k + 1) := rfl
  rw [hcount]
  cases fails k <;> rfl

/-- None of the `n` operations after the first `k` fails. -/
def Sound (k n : ℕ) : Prop := ∀ j < n, fails (k + j) = none

instance (k n : ℕ) : Decidable (Sound fails k n) :=
  inferInstanceAs (Decidable (∀ j < n, fails (k + j) = none))

/-- A computation makes `n` operations, unless one fails, and has this outcome. -/
structure Makes (m : FaultM ε α) (n : ℕ) (a : α) : Prop where
  done : ∀ k, Sound fails k n → m.outcome k = (.ok a, k + n)
  failed : ∀ k, ¬ Sound fails k n → ∃ e k', m.outcome k = (.error e, k')

variable {fails} {m : FaultM ε α} {f : α → FaultM ε β} {n n' k : ℕ} {a : α} {b : β}

theorem sound_zero : Sound fails k 0 := fun j hj => absurd hj (Nat.not_lt_zero j)

theorem sound_one : Sound fails k 1 ↔ fails k = none := by
  constructor
  · exact fun h => h 0 Nat.one_pos
  · intro h j hj
    obtain rfl : j = 0 := Nat.lt_one_iff.mp hj
    exact h

theorem sound_add : Sound fails k (n + n') ↔ Sound fails k n ∧ Sound fails (k + n) n' := by
  constructor
  · intro h
    refine ⟨fun j hj => h j (by omega), fun j hj => ?_⟩
    rw [Nat.add_assoc]
    exact h (n + j) (by omega)
  · rintro ⟨h, h'⟩ j hj
    by_cases hlt : j < n
    · exact h j hlt
    · have hrest := h' (j - n) (by omega)
      rwa [show k + n + (j - n) = k + j by omega] at hrest

theorem makes_pure (a : α) : Makes fails (pure a : FaultM ε α) 0 a where
  done k _ := outcome_pure a k
  failed _ h := absurd sound_zero h

theorem makes_attempt (a : α) : Makes fails (attempt fails a) 1 a where
  done k h := by
    rw [outcome_attempt, sound_one.mp h]
  failed k h := by
    rw [outcome_attempt]
    cases hk : fails k with
    | some e => exact ⟨e, k + 1, rfl⟩
    | none => exact absurd (sound_one.mpr hk) h

theorem Makes.of_eq {a' : α} (h : Makes fails m n a) (hn : n = n') (ha : a = a') :
    Makes fails m n' a' := by
  rwa [← hn, ← ha]

/-- Operations of two computations, one after the other. -/
theorem Makes.bind (h : Makes fails m n a) (h' : Makes fails (f a) n' b) :
    Makes fails (m >>= f) (n + n') b where
  done k hk := by
    obtain ⟨hn, hn'⟩ := sound_add.mp hk
    rw [outcome_bind, h.done k hn]
    dsimp only
    rw [h'.done (k + n) hn', Nat.add_assoc]
  failed k hk := by
    rw [outcome_bind]
    by_cases hn : Sound fails k n
    · rw [h.done k hn]
      exact h'.failed (k + n) fun hn' => hk (sound_add.mpr ⟨hn, hn'⟩)
    · obtain ⟨e, k', herror⟩ := h.failed k hn
      rw [herror]
      exact ⟨e, k', rfl⟩

/-- What a computation leaves where a failure counts as an outcome too. -/
theorem Makes.toOption (h : Makes fails m n a) (k : ℕ) :
    (m.outcome k).1.toOption = if Sound fails k n then some a else none := by
  split
  · next hk =>
    rw [h.done k hk]
    rfl
  · next hk =>
    obtain ⟨e, k', herror⟩ := h.failed k hk
    rw [herror]
    rfl

end FaultM

end LatencyOS
