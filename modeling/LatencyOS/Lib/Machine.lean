import Mathlib.Algebra.Ring.Int.Defs
import Mathlib.Algebra.Ring.Nat

/-!
# Deterministic machines

A machine is a step function `σ → Except ρ σ`: either the next state, or the
result the machine stops with.  `iter` runs a fixed number of steps, `Reaches`
says that one state is on the run from another, and `run` looks for the result
within a number of steps.
-/

namespace LatencyOS

namespace Machine

variable {σ ρ : Type} (step : σ → Except ρ σ)

/-- The state after exactly `n` steps, or the result met on the way. -/
def iter : ℕ → σ → Except ρ σ
  | 0, s => .ok s
  | n + 1, s =>
    match step s with
    | .ok s' => iter n s'
    | .error r => .error r

@[simp] theorem iter_zero (s : σ) : iter step 0 s = .ok s := rfl

theorem iter_succ_of_ok {s s' : σ} (h : step s = .ok s') (n : ℕ) :
    iter step (n + 1) s = iter step n s' := by simp only [iter, h]

theorem iter_succ_of_error {s : σ} {r : ρ} (h : step s = .error r) (n : ℕ) :
    iter step (n + 1) s = .error r := by simp only [iter, h]

/-- A run that stopped takes no further steps. -/
theorem iter_add_of_error {m : ℕ} {s : σ} {r : ρ} (h : iter step m s = .error r) (n : ℕ) :
    iter step (m + n) s = .error r := by
  induction m generalizing s with
  | zero => cases h
  | succ m ih =>
    rw [Nat.succ_add]
    cases hs : step s with
    | error r' =>
      rw [iter_succ_of_error step hs] at h ⊢
      exact h
    | ok t =>
      rw [iter_succ_of_ok step hs] at h ⊢
      exact ih h

/-- Steps compose. -/
theorem iter_add {m : ℕ} {s t : σ} (h : iter step m s = .ok t) (n : ℕ) :
    iter step (m + n) s = iter step n t := by
  induction m generalizing s with
  | zero =>
    cases h
    rw [Nat.zero_add]
  | succ m ih =>
    rw [Nat.succ_add]
    simp only [iter] at h ⊢
    split at h
    · exact ih h
    · cases h

/-- A state on the run from `s`. -/
def Reaches (s t : σ) : Prop := ∃ n, iter step n s = .ok t

variable {step}

theorem Reaches.refl (s : σ) : Reaches step s s := ⟨0, rfl⟩

theorem Reaches.trans {s t u : σ} (h₁ : Reaches step s t) (h₂ : Reaches step t u) :
    Reaches step s u := by
  obtain ⟨m, hm⟩ := h₁
  obtain ⟨n, hn⟩ := h₂
  exact ⟨m + n, by rw [iter_add step hm, hn]⟩

theorem Reaches.single {s t : σ} (h : step s = .ok t) : Reaches step s t :=
  ⟨1, by rw [iter_succ_of_ok step h, iter_zero]⟩

/-- What every step preserves holds of every state on the run. -/
theorem Reaches.invariant {I : σ → Prop} (hI : ∀ {s t}, step s = .ok t → I s → I t)
    {s t : σ} (h : Reaches step s t) (hs : I s) : I t := by
  obtain ⟨n, hn⟩ := h
  induction n generalizing s with
  | zero =>
    cases hn
    exact hs
  | succ n ih =>
    simp only [iter] at hn
    split at hn
    · next heq => exact ih (hI heq hs) hn
    · cases hn

/-- What every step from a reached state preserves holds of every state on the run. -/
theorem Reaches.invariant_reached {I : σ → Prop} {s u : σ} (h : Reaches step s u)
    (hI : ∀ {t t'}, Reaches step s t → step t = .ok t' → I t → I t') (hs : I s) : I u := by
  have hboth : Reaches step s u ∧ I u :=
    h.invariant (I := fun t => Reaches step s t ∧ I t)
      (fun ht hst => ⟨hst.1.trans (.single ht), hI hst.1 ht hst.2⟩) ⟨.refl s, hs⟩
  exact hboth.2

variable (step)

/-- The result of the run, if it stops within `n` steps. -/
def run (n : ℕ) (s : σ) : Option ρ :=
  match iter step n s with
  | .ok _ => none
  | .error r => some r

/-- A run that stops does so at a state it reaches. -/
theorem run_eq_some {n : ℕ} {s : σ} {r : ρ} (h : run step n s = some r) :
    ∃ t, Reaches step s t ∧ step t = .error r := by
  induction n generalizing s with
  | zero => simp [run] at h
  | succ n ih =>
    cases hs : step s with
    | error r' =>
      rw [run, iter_succ_of_error step hs] at h
      simp only [Option.some.injEq] at h
      exact ⟨s, Reaches.refl s, by rw [hs, h]⟩
    | ok s' =>
      rw [run, iter_succ_of_ok step hs] at h
      obtain ⟨t, ht, hr⟩ := ih h
      exact ⟨t, (Reaches.single hs).trans ht, hr⟩

/-- A run that reaches a stopping state stops there. -/
theorem run_of_iter {n k : ℕ} {s t : σ} {r : ρ} (h : iter step n s = .ok t)
    (hr : step t = .error r) (hk : n < k) : run step k s = some r := by
  obtain ⟨m, rfl⟩ : ∃ m, k = n + (m + 1) := ⟨k - n - 1, by omega⟩
  rw [run, iter_add step h, iter_succ_of_error step hr]

/-- Every result of a run is the result of a stopping state it reaches, and back. -/
theorem run_forall_iff {P : ρ → Prop} {s : σ} :
    (∀ n r, run step n s = some r → P r) ↔
      ∀ t, Reaches step s t → ∀ r, step t = .error r → P r := by
  constructor
  · rintro h t ⟨n, hn⟩ r hr
    exact h (n + 1) r (run_of_iter step hn hr (Nat.lt_succ_self n))
  · intro h n r hr
    obtain ⟨t, ht, hstop⟩ := run_eq_some step hr
    exact h t ht r hstop

/-! ## Until -/

/-- A property holds along the run, until a state with another one if there ever is one. -/
def HoldsUntil (P Q : σ → Prop) (s : σ) : Prop :=
  ∀ n t, iter step n s = .ok t → P t ∨ ∃ m ≤ n, ∃ u, iter step m s = .ok u ∧ Q u

variable {step}

/-- What every step keeps or ends with holds until the end. -/
theorem holdsUntil_of_step {P Q : σ → Prop}
    (hstep : ∀ s t, P s → step s = .ok t → P t ∨ Q t) {s : σ} (h : P s ∨ Q s) :
    HoldsUntil step P Q s := by
  intro n
  induction n generalizing s with
  | zero =>
    intro t ht
    cases ht
    exact h.imp_right fun hQ => ⟨0, Nat.le_refl _, s, rfl, hQ⟩
  | succ n ih =>
    intro t ht
    rcases h with hP | hQ
    · cases hs : step s with
      | error r =>
        rw [iter_succ_of_error step hs] at ht
        cases ht
      | ok s' =>
        rw [iter_succ_of_ok step hs] at ht
        rcases ih (hstep s s' hP hs) t ht with hP' | ⟨m, hm, u, hu, hQ⟩
        · exact .inl hP'
        · refine .inr ⟨m + 1, by omega, u, ?_, hQ⟩
          rw [iter_succ_of_ok step hs, hu]
    · exact .inr ⟨0, Nat.zero_le _, s, rfl, hQ⟩

theorem HoldsUntil.mono {P P' Q Q' : σ → Prop} {s : σ} (h : HoldsUntil step P Q s)
    (hP : ∀ t, P t → P' t) (hQ : ∀ t, Q t → Q' t) : HoldsUntil step P' Q' s := by
  intro n t ht
  rcases h n t ht with hPt | ⟨m, hm, u, hu, hQu⟩
  · exact .inl (hP t hPt)
  · exact .inr ⟨m, hm, u, hu, hQ u hQu⟩

/-! ## Through -/

section Through

variable (step)

/-- One state is reached from another through states with a property. -/
def Through (P : σ → Prop) (s t : σ) : Prop :=
  ∃ n, iter step n s = .ok t ∧ ∀ k < n, ∃ u, iter step k s = .ok u ∧ P u

variable {step} {P Q : σ → Prop} {s t u : σ}

theorem Through.refl (s : σ) : Through step P s s :=
  ⟨0, rfl, fun k hk => absurd hk (Nat.not_lt_zero k)⟩

theorem Through.trans (h₁ : Through step P s t) (h₂ : Through step P t u) : Through step P s u := by
  obtain ⟨m, hm, hway₁⟩ := h₁
  obtain ⟨n, hn, hway₂⟩ := h₂
  refine ⟨m + n, by rw [iter_add step hm, hn], fun k hk => ?_⟩
  by_cases hkm : k < m
  · exact hway₁ k hkm
  · obtain ⟨d, rfl⟩ : ∃ d, k = m + d := ⟨k - m, by omega⟩
    obtain ⟨v, hv, hP⟩ := hway₂ d (by omega)
    exact ⟨v, by rw [iter_add step hm, hv], hP⟩

theorem Through.mono (h : Through step P s t) (hPQ : ∀ u, P u → Q u) : Through step Q s t := by
  obtain ⟨n, hn, hway⟩ := h
  refine ⟨n, hn, fun k hk => ?_⟩
  obtain ⟨u, hu, hP⟩ := hway k hk
  exact ⟨u, hu, hPQ u hP⟩

theorem Through.single (h : step s = .ok t) (hP : P s) : Through step P s t := by
  refine ⟨1, iter_succ_of_ok step h 0, fun k hk => ?_⟩
  obtain rfl : k = 0 := by omega
  exact ⟨s, rfl, hP⟩

/-- The first state without the property is the only one. -/
theorem Through.unique (h₁ : Through step P s t) (h₂ : Through step P s u) (ht : ¬ P t)
    (hu : ¬ P u) : t = u := by
  obtain ⟨m, hm, hway₁⟩ := h₁
  obtain ⟨n, hn, hway₂⟩ := h₂
  rcases Nat.lt_trichotomy m n with hlt | rfl | hlt
  · obtain ⟨v, hv, hP⟩ := hway₂ m hlt
    exact absurd ((Except.ok.inj (hm.symm.trans hv)) ▸ hP) ht
  · exact Except.ok.inj (hm.symm.trans hn)
  · obtain ⟨v, hv, hP⟩ := hway₁ n hlt
    exact absurd ((Except.ok.inj (hn.symm.trans hv)) ▸ hP) hu

end Through

variable (step)

/-! ## Checking a run that stops -/

/-- A property holds of every state of a run that stops within `n` steps. -/
def allAlong (P : σ → Bool) : ℕ → σ → Bool
  | 0, _ => false
  | n + 1, s => P s &&
    match step s with
    | .ok s' => allAlong P n s'
    | .error _ => true

theorem forall_of_allAlong {P : σ → Bool} {n : ℕ} {s : σ} (h : allAlong step P n s = true) :
    ∀ t, Reaches step s t → P t = true := by
  induction n generalizing s with
  | zero => cases h
  | succ n ih =>
    rw [allAlong, Bool.and_eq_true] at h
    obtain ⟨hs, hrest⟩ := h
    rintro t ⟨k, hk⟩
    cases k with
    | zero =>
      cases hk
      exact hs
    | succ k =>
      cases hstep : step s with
      | error r =>
        rw [iter_succ_of_error step hstep] at hk
        cases hk
      | ok s' =>
        rw [iter_succ_of_ok step hstep] at hk
        rw [hstep] at hrest
        exact ih hrest t ⟨k, hk⟩

/-! ## Lock-step simulation -/

section LockStep

variable {τ ρ' : Type} (R : σ → τ → Prop) (E : ρ → ρ' → Prop) (T : ρ' → Prop)

/-- Two step outcomes agree: both go on in related states, both stop with related
results, or the second machine gives up with a result in `T`. -/
inductive Agree : Except ρ σ → Except ρ' τ → Prop
  | ok {s t} : R s t → Agree (.ok s) (.ok t)
  | error {r r'} : E r r' → Agree (.error r) (.error r')
  | gaveUp {x r'} : T r' → Agree x (.error r')

variable {R E T} {step₁ : σ → Except ρ σ} {step₂ : τ → Except ρ' τ}

/-- Machines whose steps agree on every state the first one reaches agree on whole runs. -/
theorem run_lockStep {s : σ} {t : τ}
    (hstep : ∀ s' t', Reaches step₁ s s' → R s' t' → Agree R E T (step₁ s') (step₂ t'))
    (h : R s t) (n : ℕ) :
    (∃ r', run step₂ n t = some r' ∧ T r') ∨
      (run step₁ n s = none ∧ run step₂ n t = none) ∨
      ∃ r r', run step₁ n s = some r ∧ run step₂ n t = some r' ∧ E r r' := by
  induction n generalizing s t with
  | zero => exact .inr (.inl ⟨rfl, rfl⟩)
  | succ n ih =>
    have hs := hstep s t (.refl s) h
    cases h₁ : step₁ s with
    | ok s' =>
      cases h₂ : step₂ t with
      | ok t' =>
        rw [h₁, h₂] at hs
        cases hs with
        | ok hR =>
          simp only [run, iter_succ_of_ok _ h₁, iter_succ_of_ok _ h₂]
          exact ih (fun u v hu => hstep u v ((Reaches.single h₁).trans hu)) hR
      | error r' =>
        rw [h₁, h₂] at hs
        cases hs with
        | gaveUp hT => exact .inl ⟨r', by rw [run, iter_succ_of_error _ h₂], hT⟩
    | error r =>
      cases h₂ : step₂ t with
      | ok t' =>
        rw [h₁, h₂] at hs
        cases hs
      | error r' =>
        rw [h₁, h₂] at hs
        cases hs with
        | error hE =>
          exact .inr (.inr ⟨r, r', by rw [run, iter_succ_of_error _ h₁],
            by rw [run, iter_succ_of_error _ h₂], hE⟩)
        | gaveUp hT => exact .inl ⟨r', by rw [run, iter_succ_of_error _ h₂], hT⟩

end LockStep

end Machine

end LatencyOS
