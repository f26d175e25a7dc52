import Mathlib.Algebra.Ring.Int.Defs
import Mathlib.Algebra.Ring.Nat
import Mathlib.Data.Option.Basic

/-!
# Runs of commands

A system takes commands one after the other; a command may have no outcome.  What every command
keeps, under a condition on it and on the state before it, holds after every run whose commands
all meet the condition.
-/

namespace LatencyOS

variable {σ ι : Type} (step : σ → ι → Option σ)

/-- The state after some commands. -/
def runAll : σ → List ι → Option σ
  | s, [] => some s
  | s, i :: is => (step s i).bind fun s' => runAll s' is

/-- A condition on every command of a run and the state before it. -/
def AlongRun (P : σ → ι → Prop) : σ → List ι → Prop
  | _, [] => True
  | s, i :: is => P s i ∧ ∀ s' ∈ step s i, AlongRun P s' is

variable {step} {P Q : σ → ι → Prop} {I : σ → Prop} {s : σ} {is : List ι}

instance decidableAlongRun [∀ s i, Decidable (P s i)] :
    (s : σ) → (is : List ι) → Decidable (AlongRun step P s is)
  | _, [] => isTrue trivial
  | s, i :: is =>
    have := fun s' => decidableAlongRun s' is
    inferInstanceAs (Decidable (P s i ∧ ∀ s' ∈ step s i, AlongRun step P s' is))

theorem runAll_append (s : σ) (is is' : List ι) :
    runAll step s (is ++ is') = (runAll step s is).bind fun s' => runAll step s' is' := by
  induction is generalizing s with
  | nil => rfl
  | cons i is ih =>
    rw [List.cons_append, runAll, runAll, Option.bind_assoc]
    exact congrArg _ (funext ih)

/-- A run whose commands meet the condition has an outcome and keeps what they keep. -/
theorem runAll_invariant (hstep : ∀ s i, I s → P s i → ∃ s', step s i = some s' ∧ I s')
    (h : I s) (hrun : AlongRun step P s is) : ∃ s', runAll step s is = some s' ∧ I s' := by
  induction is generalizing s with
  | nil => exact ⟨s, rfl, h⟩
  | cons i is ih =>
    obtain ⟨s', hs', hI⟩ := hstep s i h hrun.1
    obtain ⟨t, ht, hIt⟩ := ih hI (hrun.2 s' hs')
    exact ⟨t, by rw [runAll, hs', Option.bind_some, ht], hIt⟩

/-- A run whose commands meet the condition keeps what they keep, when it has an outcome. -/
theorem runAll_keeps (hstep : ∀ s i s', I s → P s i → step s i = some s' → I s') (h : I s)
    (hrun : AlongRun step P s is) {s' : σ} (hs : runAll step s is = some s') : I s' := by
  induction is generalizing s with
  | nil =>
    cases hs
    exact h
  | cons i is ih =>
    rw [runAll, Option.bind_eq_some_iff] at hs
    obtain ⟨t, ht, hs⟩ := hs
    exact ih (hstep s i t h hrun.1 ht) (hrun.2 t ht) hs

theorem alongRun_of_forall (h : ∀ s i, P s i) : AlongRun step P s is := by
  induction is generalizing s with
  | nil => trivial
  | cons i is ih => exact ⟨h s i, fun s' _ => ih⟩

/-- A condition on the commands alone holds along a run when it holds of each of them. -/
theorem alongRun_of_mem {R : ι → Prop} (h : ∀ i ∈ is, R i) :
    AlongRun step (fun _ i => R i) s is := by
  induction is generalizing s with
  | nil => trivial
  | cons i is ih =>
    exact ⟨h i List.mem_cons_self, fun s' _ => ih fun j hj => h j (List.mem_cons_of_mem i hj)⟩

/-- A run shows the steps of another system, at every moment, exactly when its commands all meet
the condition under which one step does. -/
theorem shows_iff_alongRun {τ : Type} {view : σ → τ} {abs : τ → ι → τ}
    (hstep : ∀ s i, I s →
      ∃ s', step s i = some s' ∧ I s' ∧ (view s' = abs (view s) i ↔ P s i)) (h : I s) :
    (∀ is', is' <+: is → (runAll step s is').map view = some (is'.foldl abs (view s))) ↔
      AlongRun step P s is := by
  induction is generalizing s with
  | nil =>
    refine iff_of_true (fun is' hprefix => ?_) trivial
    rw [List.prefix_nil.mp hprefix]
    rfl
  | cons i is ih =>
    obtain ⟨s', hs', hI, hshows⟩ := hstep s i h
    rw [AlongRun, ← hshows, hs']
    constructor
    · intro hall
      have hone : view s' = abs (view s) i := by
        have hfirst := hall [i] (List.prefix_append [i] is)
        rw [runAll, hs'] at hfirst
        exact Option.some.inj hfirst
      refine ⟨hone, fun t ht => ?_⟩
      obtain rfl : s' = t := Option.some.inj ht
      rw [← ih hI, hone]
      intro is' hprefix
      have hmore := hall (i :: is') (List.cons_prefix_cons.mpr ⟨rfl, hprefix⟩)
      rwa [runAll, hs', Option.bind_some] at hmore
    · rintro ⟨hone, hrest⟩ is' hprefix
      rcases is' with _ | ⟨j, is'⟩
      · rfl
      · obtain ⟨rfl, htail⟩ := List.cons_prefix_cons.mp hprefix
        rw [runAll, hs', Option.bind_some, List.foldl_cons, ← hone]
        exact (ih hI).mpr (hrest s' rfl) is' htail

/-! ## Commands that always have an outcome -/

/-- A condition on every command of a run and the state before it. -/
def AlongFold (next : σ → ι → σ) (P : σ → ι → Prop) : σ → List ι → Prop
  | _, [] => True
  | s, i :: is => P s i ∧ AlongFold next P (next s i) is

variable {next : σ → ι → σ}

instance decidableAlongFold [∀ s i, Decidable (P s i)] :
    (s : σ) → (is : List ι) → Decidable (AlongFold next P s is)
  | _, [] => isTrue trivial
  | s, i :: is =>
    have := decidableAlongFold (next s i) is
    inferInstanceAs (Decidable (P s i ∧ AlongFold next P (next s i) is))

/-- A run whose commands meet the condition keeps what they keep. -/
theorem foldl_invariant (hstep : ∀ s i, I s → P s i → I (next s i)) (h : I s)
    (hrun : AlongFold next P s is) : I (is.foldl next s) := by
  induction is generalizing s with
  | nil => exact h
  | cons i is ih => exact ih (hstep s i h hrun.1) hrun.2

/-- A condition on the commands alone holds along a run when it holds of each of them. -/
theorem alongFold_forall {R : ι → Prop} :
    AlongFold next (fun _ i => R i) s is ↔ ∀ i ∈ is, R i := by
  induction is generalizing s with
  | nil => simp [AlongFold]
  | cons i is ih => rw [AlongFold, ih, List.forall_mem_cons]

/-- Two conditions hold along the same runs when they agree under what the second one keeps. -/
theorem alongFold_congr (hiff : ∀ s i, I s → (P s i ↔ Q s i))
    (hstep : ∀ s i, I s → Q s i → I (next s i)) (h : I s) :
    AlongFold next P s is ↔ AlongFold next Q s is := by
  induction is generalizing s with
  | nil => rfl
  | cons i is ih =>
    rw [AlongFold, AlongFold, hiff s i h]
    exact and_congr_right fun hQ => ih (hstep s i h hQ)

end LatencyOS
