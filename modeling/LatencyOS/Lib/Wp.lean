import LatencyOS.Lib.Prog

/-!
# Weakest preconditions

`Wp` runs a program over primitive operations backwards from a postcondition.  At every
primitive the program may rely on one property and has to guarantee another, and it may
fail in allowed ways only.  The rules follow the constructors; `Wp.sound` ties them to
`run` and to what holds along it.
-/

namespace LatencyOS

namespace Prog

variable {O : Type → Type} {ε σ α β : Type}

/-- What holds of an answer and the state after it, or of the failure. -/
def Ends (fails : ε → Prop) (r : Except ε (β × σ)) (Q : β → σ → Prop) : Prop :=
  match r with
  | .ok (b, s) => Q b s
  | .error e => fails e

/-- The terms a program runs under. -/
structure Terms (O : Type → Type) (ε σ : Type) where
  /-- What is assumed of every primitive where it is performed. -/
  rely : (β : Type) → O β → σ → Prop
  /-- What has to hold of every primitive where it is performed. -/
  guarantee : (β : Type) → O β → σ → Prop
  /-- The failures the program may end with. -/
  fails : ε → Prop

variable (h : Handler O ε σ) (c : Terms O ε σ)

/-- From a state, a program keeps its terms and ends in the postcondition. -/
def Wp : Prog O ε α → (α → σ → Prop) → σ → Prop
  | .pure a, Q, s => Q a s
  | .throw e, _, _ => c.fails e
  | .call o k, Q, s =>
    c.rely _ o s → c.guarantee _ o s ∧ Ends c.fails (h _ o s) fun b s' => (k b).Wp Q s'

@[simp] theorem wp_pure {a : α} {Q : α → σ → Prop} {s : σ} :
    Wp h c (Pure.pure a : Prog O ε α) Q s ↔ Q a s := Iff.rfl

@[simp] theorem wp_throw {e : ε} {Q : α → σ → Prop} {s : σ} :
    Wp h c (.throw e : Prog O ε α) Q s ↔ c.fails e := Iff.rfl

theorem Ends.mono {fails : ε → Prop} {r : Except ε (β × σ)} {Q R : β → σ → Prop}
    (hr : Ends fails r Q) (hQR : ∀ b s, Q b s → R b s) : Ends fails r R := by
  cases r with
  | error e => exact hr
  | ok r => exact hQR r.1 r.2 hr

variable {h c}

/-- A weaker postcondition. -/
theorem Wp.mono {p : Prog O ε α} {Q R : α → σ → Prop} {s : σ} (hp : Wp h c p Q s)
    (hQR : ∀ a s', Q a s' → R a s') : Wp h c p R s := by
  induction p generalizing s with
  | pure a => exact hQR a s hp
  | throw e => exact hp
  | call o k ih =>
    intro hrely
    exact ⟨(hp hrely).1, (hp hrely).2.mono fun b s' hk => ih b hk⟩

/-- Two postconditions. -/
theorem Wp.and {p : Prog O ε α} {Q R : α → σ → Prop} {s : σ} (hQ : Wp h c p Q s)
    (hR : Wp h c p R s) : Wp h c p (fun a s' => Q a s' ∧ R a s') s := by
  induction p generalizing s with
  | pure a => exact ⟨hQ, hR⟩
  | throw e => exact hQ
  | call o k ih =>
    intro hrely
    have hQ' := (hQ hrely).2
    have hR' := (hR hrely).2
    refine ⟨(hQ hrely).1, ?_⟩
    cases hr : h _ o s with
    | error e =>
      rw [hr] at hQ'
      exact hQ'
    | ok r =>
      rw [hr] at hQ' hR'
      exact ih r.1 hQ' hR'

/-- Sequencing runs backwards through the second program and then the first. -/
theorem Wp.bind {p : Prog O ε α} {f : α → Prog O ε β} {Q : β → σ → Prop} {s : σ}
    (hp : Wp h c p (fun a s' => Wp h c (f a) Q s') s) : Wp h c (p >>= f) Q s := by
  change Wp h c (p.bind f) Q s
  induction p generalizing s with
  | pure a => exact hp
  | throw e => exact hp
  | call o k ih =>
    intro hrely
    exact ⟨(hp hrely).1, (hp hrely).2.mono fun b s' hk => ih b hk⟩

/-- A program that may rely on its primitives keeps its terms along the run and ends as its
precondition says. -/
theorem Wp.sound {p : Prog O ε α} {Q : α → σ → Prop} {s : σ} (hp : Wp h c p Q s)
    (hrely : p.Forall h c.rely s) :
    p.Forall h c.guarantee s ∧ Ends c.fails (p.run h s) Q := by
  induction p generalizing s with
  | pure a => exact ⟨trivial, hp⟩
  | throw e => exact ⟨trivial, hp⟩
  | call o k ih =>
    obtain ⟨hg, hend⟩ := hp hrely.1
    have hrest := hrely.2
    simp only [Forall, run]
    cases hr : h _ o s with
    | error e =>
      rw [hr] at hend
      exact ⟨⟨hg, trivial⟩, hend⟩
    | ok r =>
      rw [hr] at hend hrest
      obtain ⟨hg', hend'⟩ := ih r.1 hend hrest
      exact ⟨⟨hg, hg'⟩, hend'⟩

/-! ## Primitives that fail when they are not relied on -/

variable {S : (β : Type) → O β → σ → Prop} {e : ε}

/-- A run is stopped by the first primitive that must not be relied on. -/
theorem run_of_not_forall (hS : ∀ β (o : O β) s, ¬ S β o s → h β o s = .error e)
    {p : Prog O ε α} {s : σ} (hp : ¬ p.Forall h S s) : p.run h s = .error e := by
  induction p generalizing s with
  | pure a => exact absurd trivial hp
  | throw e => exact absurd trivial hp
  | call o k ih =>
    simp only [run]
    by_cases ho : S _ o s
    · cases hr : h _ o s with
      | error e' => exact absurd ⟨ho, by rw [hr]; trivial⟩ hp
      | ok r =>
        refine ih r.1 fun hk => hp ⟨ho, ?_⟩
        rw [hr]
        exact hk
    · rw [hS _ o s ho]

/-- A run that succeeds could rely on all its primitives. -/
theorem forall_of_run_ok (hS : ∀ β (o : O β) s, ¬ S β o s → h β o s = .error e)
    {p : Prog O ε α} {s : σ} {r : α × σ} (hp : p.run h s = .ok r) : p.Forall h S s := by
  by_contra hnot
  rw [run_of_not_forall hS hnot] at hp
  cases hp

end Prog

namespace Prog

/-!
## Programs inside programs

`Reaches h q t p s` says that the run of `p` from `s` comes to the program `q` in state `t`:
after some primitives, what is left of `p` is `q` and a rest.  A successful run splits there,
into what came before `q`, the run of `q`, and what comes after.

### Main definitions

* `Prog.Reaches` — a run comes to a program.

### Main results

* `Prog.Reaches.split` — a successful run splits at the program it comes to.
* `Prog.Reaches.invariant` — what the primitives preserve holds there.
* `Prog.run_rel_of_forall` — a run moves along a preorder its primitives move along.
-/

variable {O : Type → Type} {ε σ α β γ : Type} {h : Handler O ε σ}

/-- The run of a program comes to the program `q` in state `t`. -/
inductive Reaches (h : Handler O ε σ) (q : Prog O ε β) (t : σ) : Prog O ε α → σ → Prop
  | here (f : β → Prog O ε α) : Reaches h q t (q >>= f) t
  | call {γ : Type} {o : O γ} {k : γ → Prog O ε α} {s s' : σ} {c : γ} :
      h γ o s = .ok (c, s') → Reaches h q t (k c) s' → Reaches h q t (.call o k) s

/-- What holds of every primitive of a sequence holds of those of its second program. -/
theorem forall_of_bind {P : (γ : Type) → O γ → σ → Prop} {p : Prog O ε α} {f : α → Prog O ε β}
    {s s' : σ} {a : α} (hall : (p >>= f).Forall h P s) (hrun : p.run h s = .ok (a, s')) :
    (f a).Forall h P s' := by
  induction p generalizing s with
  | pure b =>
    cases hrun
    exact hall
  | throw e => cases hrun
  | call o k ih =>
    simp only [run] at hrun
    split at hrun
    · next ho =>
      have hrest := hall.2
      rw [ho] at hrest
      exact ih _ hrest hrun
    · cases hrun

namespace Reaches

variable {q : Prog O ε β} {t s s' : σ}

theorem self (q : Prog O ε β) (t : σ) : Reaches h q t q t := by
  have hself := here (h := h) (q := q) (t := t) pure
  rwa [show q >>= pure = q from Prog.bind_pure q] at hself

/-- The first of two programs comes to it. -/
theorem bind {p : Prog O ε α} (hp : Reaches h q t p s) (f : α → Prog O ε γ) :
    Reaches h q t (p >>= f) s := by
  induction hp with
  | here g =>
    rw [bind_assoc]
    exact here _
  | call ho _ ih => exact call ho ih

/-- The second of two programs comes to it. -/
theorem after {p : Prog O ε α} {f : α → Prog O ε γ} {a : α} (hrun : p.run h s = .ok (a, s'))
    (hf : Reaches h q t (f a) s') : Reaches h q t (p >>= f) s := by
  induction p generalizing s with
  | pure b =>
    cases hrun
    exact hf
  | throw e => cases hrun
  | call o k ih =>
    simp only [run] at hrun
    split at hrun
    · next ho => exact call ho (ih _ hrun)
    · cases hrun

/-- A successful run splits at the program it comes to. -/
theorem split {p : Prog O ε α} (hp : Reaches h q t p s) {a : α} {e : σ}
    (hrun : p.run h s = .ok (a, e)) (P : (γ : Type) → O γ → σ → Prop) (hall : p.Forall h P s) :
    ∃ b t', q.run h t = .ok (b, t') ∧
      ∃ rest : Prog O ε α, rest.run h t' = .ok (a, e) ∧ rest.Forall h P t' := by
  induction hp with
  | here f =>
    obtain ⟨b, t', hq, hf⟩ := (run_bind_eq_ok h).mp hrun
    refine ⟨b, t', hq, f b, hf, ?_⟩
    exact forall_of_bind hall hq
  | call ho _ ih =>
    simp only [run, ho] at hrun
    have hrest := hall.2
    rw [ho] at hrest
    exact ih hrun hrest

/-- What every primitive preserves holds where the program starts. -/
theorem invariant {I : σ → Prop}
    (hI : ∀ {γ : Type} (o : O γ) {c : γ} {s s' : σ}, h γ o s = .ok (c, s') → I s → I s')
    {p : Prog O ε α} (hp : Reaches h q t p s) (hs : I s) : I t := by
  induction hp with
  | here f => exact hs
  | call ho _ ih => exact ih (hI _ ho hs)

end Reaches

/-- A preorder that the primitives with a property move along, a run of such primitives moves
along. -/
theorem run_rel_of_forall {R : σ → σ → Prop} {P : (γ : Type) → O γ → σ → Prop}
    (hrefl : ∀ s, R s s) (htrans : ∀ {s t u}, R s t → R t u → R s u)
    (hR : ∀ {γ : Type} (o : O γ) {c : γ} {s s' : σ}, h γ o s = .ok (c, s') → P γ o s → R s s')
    (p : Prog O ε α) {a : α} {s s' : σ} (hrun : p.run h s = .ok (a, s')) (hall : p.Forall h P s) :
    R s s' := by
  induction p generalizing s with
  | pure a =>
    cases hrun
    exact hrefl _
  | throw e => cases hrun
  | call o k ih =>
    simp only [run] at hrun
    split at hrun
    · next ho =>
      have hrest := hall.2
      rw [ho] at hrest
      exact htrans (hR o ho hall.1) (ih _ hrun hrest)
    · cases hrun

end Prog

end LatencyOS
