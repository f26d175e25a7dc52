import Mathlib.Algebra.Ring.Int.Defs
import Mathlib.Algebra.Ring.Nat
import Mathlib.Control.Basic

/-!
# Programs over primitive operations

A `Prog O ε α` is a computation built from the primitive operations `O`, with
failures in `ε`.  It is a tree: a result, a failure, or one primitive operation
and a continuation.  A handler gives every primitive its meaning on a state, and
`run` threads the state through the tree.

Because the primitives are the only way to touch the state, what every primitive
preserves is preserved by every program: `run_invariant` and `run_rel` are one
induction over the tree, whatever the program computes.
-/

namespace LatencyOS

/-- A computation over the primitive operations `O` with failures in `ε`. -/
inductive Prog (O : Type → Type) (ε : Type) (α : Type) : Type 1 where
  /-- A result. -/
  | pure (a : α)
  /-- A failure. -/
  | throw (e : ε)
  /-- One primitive operation, and what to do with its answer. -/
  | call {β : Type} (o : O β) (k : β → Prog O ε α)

/-- The meaning of the primitives on a state `σ`. -/
abbrev Handler (O : Type → Type) (ε σ : Type) := (β : Type) → O β → σ → Except ε (β × σ)

namespace Prog

variable {O : Type → Type} {ε σ α β : Type}

/-- Sequencing grafts the continuation onto every result. -/
def bind (p : Prog O ε α) (f : α → Prog O ε β) : Prog O ε β :=
  match p with
  | .pure a => f a
  | .throw e => .throw e
  | .call o k => .call o fun b => (k b).bind f

instance : Monad (Prog O ε) where
  pure := Prog.pure
  bind := Prog.bind

theorem bind_pure (p : Prog O ε α) : p.bind Prog.pure = p := by
  induction p with
  | pure a => rfl
  | throw e => rfl
  | call o k ih =>
    simp only [bind]
    rw [funext ih]

theorem bind_bind {γ : Type} (p : Prog O ε α) (f : α → Prog O ε β) (g : β → Prog O ε γ) :
    (p.bind f).bind g = p.bind fun a => (f a).bind g := by
  induction p with
  | pure a => rfl
  | throw e => rfl
  | call o k ih =>
    simp only [bind]
    rw [funext ih]

instance : LawfulMonad (Prog O ε) :=
  LawfulMonad.mk' _ (fun p => bind_pure p) (fun _ _ => rfl) bind_bind

/-- A single primitive operation. -/
def op (o : O β) : Prog O ε β := .call o .pure

/-- Run a program from a state. -/
def run (h : Handler O ε σ) (p : Prog O ε α) (s : σ) : Except ε (α × σ) :=
  match p with
  | .pure a => .ok (a, s)
  | .throw e => .error e
  | .call o k =>
    match h _ o s with
    | .ok (b, s') => (k b).run h s'
    | .error e => .error e

variable (h : Handler O ε σ)

@[simp] theorem run_pure (a : α) (s : σ) :
    (Pure.pure a : Prog O ε α).run h s = .ok (a, s) := rfl

@[simp] theorem run_throw (e : ε) (s : σ) :
    (Prog.throw e : Prog O ε α).run h s = .error e := rfl

@[simp] theorem run_op (o : O β) (s : σ) : (op o : Prog O ε β).run h s = h _ o s := by
  simp only [op, run]
  cases h _ o s <;> rfl

/-- Sequencing runs the first program and then the second from the state it left. -/
theorem run_bind (p : Prog O ε α) (f : α → Prog O ε β) (s : σ) :
    (p >>= f).run h s =
      match p.run h s with
      | .ok (a, s') => (f a).run h s'
      | .error e => .error e := by
  change (p.bind f).run h s = _
  induction p generalizing s with
  | pure a => rfl
  | throw e => rfl
  | call o k ih =>
    simp only [bind, run]
    cases h _ o s with
    | error e => rfl
    | ok r => exact ih r.1 r.2

/-- A successful sequence splits at the state in between. -/
theorem run_bind_eq_ok {p : Prog O ε α} {f : α → Prog O ε β} {s s' : σ} {b : β} :
    (p >>= f).run h s = .ok (b, s') ↔
      ∃ a t, p.run h s = .ok (a, t) ∧ (f a).run h t = .ok (b, s') := by
  rw [run_bind]
  cases p.run h s with
  | error e => simp
  | ok r =>
    obtain ⟨a, t⟩ := r
    constructor
    · exact fun hf => ⟨a, t, rfl, hf⟩
    · rintro ⟨_, _, hr, hf⟩
      cases hr
      exact hf

/-- What every primitive preserves, every program preserves. -/
theorem run_invariant {I : σ → Prop}
    (hI : ∀ {β : Type} (o : O β) {b : β} {s s' : σ}, h β o s = .ok (b, s') → I s → I s')
    (p : Prog O ε α) {a : α} {s s' : σ} (hp : p.run h s = .ok (a, s')) (hs : I s) : I s' := by
  induction p generalizing s with
  | pure a =>
    cases hp
    exact hs
  | throw e => cases hp
  | call o k ih =>
    simp only [run] at hp
    split at hp
    · next heq => exact ih _ hp (hI o heq hs)
    · cases hp

/-- A preorder that every primitive moves along, every program moves along. -/
theorem run_rel {R : σ → σ → Prop} (hrefl : ∀ s, R s s)
    (htrans : ∀ {s t u}, R s t → R t u → R s u)
    (hR : ∀ {β : Type} (o : O β) {b : β} {s s' : σ}, h β o s = .ok (b, s') → R s s')
    (p : Prog O ε α) {a : α} {s s' : σ} (hp : p.run h s = .ok (a, s')) : R s s' :=
  run_invariant h (I := R s) (fun o _ _ _ ho hs => htrans hs (hR o ho)) p hp (hrefl s)

/-! ## What holds at every primitive of a run -/

/-- What holds of an answer and the state after it, if there is one. -/
def After (r : Except ε (β × σ)) (Q : β → σ → Prop) : Prop :=
  match r with
  | .ok (b, s) => Q b s
  | .error _ => True

instance decidableAfter (r : Except ε (β × σ)) (Q : β → σ → Prop) [∀ b s, Decidable (Q b s)] :
    Decidable (After r Q) :=
  match r with
  | .ok (b, s) => inferInstanceAs (Decidable (Q b s))
  | .error _ => isTrue trivial

/-- A property holds of every primitive a run performs and the state it is performed in, also
when the run fails later. -/
def Forall (P : (β : Type) → O β → σ → Prop) : Prog O ε α → σ → Prop
  | .pure _, _ => True
  | .throw _, _ => True
  | .call o k, s => P _ o s ∧ After (h _ o s) fun b s' => (k b).Forall P s'

instance decidableForall (P : (β : Type) → O β → σ → Prop) [∀ β o s, Decidable (P β o s)] :
    (p : Prog O ε α) → (s : σ) → Decidable (p.Forall h P s)
  | .pure _, _ => isTrue trivial
  | .throw _, _ => isTrue trivial
  | .call o k, s =>
    have := fun b s' => decidableForall P (k b) s'
    inferInstanceAs (Decidable (P _ o s ∧ After (h _ o s) fun b s' => (k b).Forall h P s'))

/-- Under an invariant of the primitives, equivalent properties hold along the same runs. -/
theorem forall_congr {I : σ → Prop}
    (hI : ∀ {β : Type} (o : O β) {b : β} {s s' : σ}, h β o s = .ok (b, s') → I s → I s')
    {P Q : (β : Type) → O β → σ → Prop} (hPQ : ∀ β o s, I s → (P β o s ↔ Q β o s))
    (p : Prog O ε α) {s : σ} (hs : I s) : p.Forall h P s ↔ p.Forall h Q s := by
  induction p generalizing s with
  | pure a => exact Iff.rfl
  | throw e => exact Iff.rfl
  | call o k ih =>
    simp only [Forall]
    rw [hPQ _ o s hs]
    cases hr : h _ o s with
    | error e => exact Iff.rfl
    | ok r => exact and_congr_right fun _ => ih r.1 (hI o hr hs)

/-! ## What a run comes to -/

/-- A run of a program from a state comes to a rest of the program and a state. -/
inductive Visits : Prog O ε α → σ → Prog O ε α → σ → Prop
  | here (p : Prog O ε α) (s : σ) : Visits p s p s
  | step {β : Type} {o : O β} {k : β → Prog O ε α} {b : β} {q : Prog O ε α} {s s' t : σ}
    (hstep : h β o s = .ok (b, s')) (hrest : Visits (k b) s' q t) : Visits (.call o k) s q t

variable {h}

/-- A weaker property holds along the same run. -/
theorem Forall.mono {P Q : (β : Type) → O β → σ → Prop} (hPQ : ∀ β o s, P β o s → Q β o s)
    {p : Prog O ε α} {s : σ} (hp : p.Forall h P s) : p.Forall h Q s := by
  induction p generalizing s with
  | pure a => trivial
  | throw e => trivial
  | call o k ih =>
    refine ⟨hPQ _ o s hp.1, ?_⟩
    have hrest := hp.2
    cases hr : h _ o s with
    | error e => trivial
    | ok r =>
      rw [hr] at hrest
      exact ih r.1 hrest

/-- What holds along a sequence holds along its first part. -/
theorem Forall.left {P : (β : Type) → O β → σ → Prop} {p : Prog O ε α} {f : α → Prog O ε β}
    {s : σ} (hp : (p >>= f).Forall h P s) : p.Forall h P s := by
  change (p.bind f).Forall h P s at hp
  induction p generalizing s with
  | pure a => trivial
  | throw e => trivial
  | call o k ih =>
    refine ⟨hp.1, ?_⟩
    have hrest := hp.2
    cases hr : h _ o s with
    | error e => trivial
    | ok r =>
      rw [hr] at hrest
      exact ih r.1 hrest

/-- What holds along a run holds along its rest. -/
theorem Visits.forall {P : (β : Type) → O β → σ → Prop} {p q : Prog O ε α} {s t : σ}
    (hv : Visits h p s q t) (hp : p.Forall h P s) : q.Forall h P t := by
  induction hv with
  | here p s => exact hp
  | step hstep _ ih =>
    refine ih ?_
    have hrest := hp.2
    rw [hstep] at hrest
    exact hrest

/-- What the primitives of a run preserve holds wherever the run comes to. -/
theorem Visits.invariant {P : (β : Type) → O β → σ → Prop} {I : σ → Prop}
    (hI : ∀ {β : Type} (o : O β) {b : β} {s s' : σ}, P β o s → h β o s = .ok (b, s') → I s → I s')
    {p q : Prog O ε α} {s t : σ} (hv : Visits h p s q t) (hp : p.Forall h P s) (hs : I s) :
    I t := by
  induction hv with
  | here p s => exact hs
  | step hstep _ ih =>
    have hrest := hp.2
    rw [hstep] at hrest
    exact ih hrest (hI _ hp.1 hstep hs)

end Prog

end LatencyOS
