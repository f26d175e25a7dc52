import Mathlib.Algebra.Ring.Int.Defs
import Mathlib.Algebra.Ring.Nat
import Mathlib.Tactic.Basic

/-!
# Outcomes of fallible computations

`Raises P x` says that `x` fails with an error satisfying `P`, and `Returns Q x`
that a value `x` returns satisfies `Q`.  Both are computed by `simp` over the
conditionals and binds a step function is made of.
-/

namespace LatencyOS

variable {ε α β : Type}

/-- The computation fails with an error satisfying `P`. -/
def Raises (P : ε → Prop) (x : Except ε α) : Prop := ∃ e, x = .error e ∧ P e

/-- Every value the computation returns satisfies `Q`. -/
def Returns (Q : α → Prop) (x : Except ε α) : Prop := ∀ a, x = .ok a → Q a

section Raises

variable {P : ε → Prop}

@[simp] theorem raises_ok (a : α) : ¬ Raises P (.ok a) := by simp [Raises]

@[simp] theorem raises_error (e : ε) : Raises P (.error e : Except ε α) ↔ P e := by simp [Raises]

@[simp] theorem raises_ite (c : Prop) [Decidable c] (x y : Except ε α) :
    Raises P (if c then x else y) ↔ (c ∧ Raises P x) ∨ (¬ c ∧ Raises P y) := by
  by_cases h : c <;> simp [h]

@[simp] theorem raises_bind (x : Except ε α) (f : α → Except ε β) :
    Raises P (x >>= f) ↔ Raises P x ∨ ∃ a, x = .ok a ∧ Raises P (f a) := by
  cases x <;> simp [Raises, bind, Except.bind]

end Raises

section Returns

variable {Q : α → Prop}

@[simp] theorem returns_ok (a : α) : Returns Q (.ok a : Except ε α) ↔ Q a := by simp [Returns]

@[simp] theorem returns_error (e : ε) : Returns Q (.error e : Except ε α) := by simp [Returns]

theorem Returns.ite {c : Prop} [Decidable c] {x y : Except ε α} (hx : Returns Q x)
    (hy : Returns Q y) : Returns Q (if c then x else y) := by
  split
  · exact hx
  · exact hy

@[simp] theorem returns_bind (x : Except ε β) (f : β → Except ε α) :
    Returns Q (x >>= f) ↔ Returns (fun b => Returns Q (f b)) x := by
  cases x <;> simp [Returns, bind, Except.bind]

theorem Returns.mono {Q' : α → Prop} {x : Except ε α} (h : Returns Q x)
    (hQ : ∀ a, Q a → Q' a) : Returns Q' x :=
  fun a ha => hQ a (h a ha)

end Returns

end LatencyOS
