import LatencyOS.Compiler.Discipline.Declarations
import LatencyOS.Compiler.Temps.Held

/-!
# Rules for temporaries

`Looks` says that a computation leaves the state alone, `Quiet` that it leaves the temporaries
alone, and `Uses d d'` that it starts with `d` temporaries on top of those in use before and ends
with `d'`.  The rules are instances, so that a function is dealt with by its parts.
-/

namespace LatencyOS

namespace Compiler

namespace Temps

variable {S : Pool.Stack} {held : List ℕ} {d d' : ℕ} {st st' : CompilerState} {α β σ : Type}

/-- Neither of the two constructs is compiled, and steps are well in return. -/
def terms (S : Pool.Stack) : Prog.Terms CompilerOp Abort CompilerState :=
  ⟨TempStep, TempWell S.Gapless, fun _ => True⟩

/-- From a state, a computation keeps the arguments in place and ends in the postcondition. -/
abbrev Runs (S : Pool.Stack) (p : CompilerM α) (Q : α → CompilerState → Prop)
    (st : CompilerState) : Prop :=
  Prog.Wp perform (terms S) p Q st

/-- A computation that leaves the state alone. -/
class Looks (S : Pool.Stack) (p : CompilerM α) : Prop where
  runs : ∀ {st : CompilerState} {Q : α → CompilerState → Prop}, (∀ a, Q a st) → Runs S p Q st

/-- A computation that leaves the temporaries alone. -/
class Quiet (S : Pool.Stack) (p : CompilerM α) : Prop where
  runs : ∀ {held : List ℕ} {st : CompilerState}, TempsHeld held st →
    Runs S p (fun _ st' => TempsHeld held st') st

/-- A computation that starts with `d` temporaries on top and ends with `d'`. -/
class Uses (S : Pool.Stack) (d d' : ℕ) (p : CompilerM α) : Prop where
  runs : ∀ {st : CompilerState}, TempsHeld (S.taken d) st →
    Runs S p (fun _ st' => TempsHeld (S.taken d') st') st

/-! ## Structure -/

instance looks_pure (a : α) : Looks S (Pure.pure a) := ⟨fun h => h a⟩

instance looks_throw (e : Abort) : Looks S (Prog.throw e : CompilerM α) := ⟨fun _ => trivial⟩

theorem Looks.bind {p : CompilerM α} {f : α → CompilerM β} (hp : Looks S p)
    (hf : ∀ a, Looks S (f a)) : Looks S (p >>= f) :=
  ⟨fun h => Prog.Wp.bind (hp.runs fun a => (hf a).runs h)⟩

instance looks_bind {p : CompilerM α} {f : α → CompilerM β} [hp : Looks S p]
    [hf : ∀ a, Looks S (f a)] : Looks S (p >>= f) := hp.bind hf

instance looks_ite {c : Prop} [Decidable c] {p q : CompilerM α} [hp : Looks S p] [hq : Looks S q] :
    Looks S (if c then p else q) := by
  split
  · exact hp
  · exact hq

theorem Looks.quiet {p : CompilerM α} (hp : Looks S p) : Quiet S p := ⟨fun h => hp.runs fun _ => h⟩

instance (priority := low) quiet_of_looks {p : CompilerM α} [hp : Looks S p] : Quiet S p :=
  hp.quiet

theorem Quiet.bind {p : CompilerM α} {f : α → CompilerM β} (hp : Quiet S p)
    (hf : ∀ a, Quiet S (f a)) : Quiet S (p >>= f) :=
  ⟨fun h => Prog.Wp.bind ((hp.runs h).mono fun a _ ht => (hf a).runs ht)⟩

instance quiet_bind {p : CompilerM α} {f : α → CompilerM β} [hp : Quiet S p]
    [hf : ∀ a, Quiet S (f a)] : Quiet S (p >>= f) := hp.bind hf

theorem Quiet.ite {c : Prop} [Decidable c] {p q : CompilerM α} (hp : Quiet S p) (hq : Quiet S q) :
    Quiet S (if c then p else q) := by
  split
  · exact hp
  · exact hq

instance quiet_ite {c : Prop} [Decidable c] {p q : CompilerM α} [hp : Quiet S p] [hq : Quiet S q] :
    Quiet S (if c then p else q) := hp.ite hq

theorem Quiet.uses {p : CompilerM α} (hp : Quiet S p) : Uses S d d p := ⟨hp.runs⟩

instance (priority := low) uses_of_quiet {p : CompilerM α} [hp : Quiet S p] : Uses S d d p :=
  hp.uses

instance uses_throw (e : Abort) : Uses S d d' (Prog.throw e : CompilerM α) := ⟨fun _ => trivial⟩

theorem Uses.bind {p : CompilerM α} {f : α → CompilerM β} (hp : Uses S d d p)
    (hf : ∀ a, Uses S d d' (f a)) : Uses S d d' (p >>= f) :=
  ⟨fun h => Prog.Wp.bind ((hp.runs h).mono fun a _ ht => (hf a).runs ht)⟩

instance (priority := 900) uses_bind {p : CompilerM α} {f : α → CompilerM β} [hp : Uses S d d p]
    [hf : ∀ a, Uses S d d' (f a)] : Uses S d d' (p >>= f) := hp.bind hf

instance uses_ite {c : Prop} [Decidable c] {p q : CompilerM α} [hp : Uses S d d' p]
    [hq : Uses S d d' q] : Uses S d d' (if c then p else q) := by
  split
  · exact hp
  · exact hq

/-! ### Loops -/

/-- What a step of a loop preserves holds behind it. -/
theorem runs_loop {f : σ → CompilerM (ForInStep σ)} {I : σ → CompilerState → Prop}
    (hf : ∀ a st, I a st → Runs S (f a) (fun r st' => I (stepValue r) st') st) (n : ℕ) (a : σ)
    (hI : I a st) : Runs S (loop n a f) I st := by
  induction n generalizing a st with
  | zero => trivial
  | succ n ih =>
    refine Prog.Wp.bind ((hf a st hI).mono fun r t ht => ?_)
    cases r with
    | done b => exact ht
    | yield b => exact ih b ht

theorem Quiet.loop_of {f : σ → CompilerM (ForInStep σ)} (hf : ∀ a, Quiet S (f a)) {n : ℕ} {a : σ} :
    Quiet S (loop n a f) :=
  ⟨fun {held _} h => runs_loop (I := fun _ st => TempsHeld held st) (fun a _ ht => (hf a).runs ht)
    n a h⟩

instance quiet_loop {f : σ → CompilerM (ForInStep σ)} [hf : ∀ a, Quiet S (f a)] (n : ℕ) (a : σ) :
    Quiet S (loop n a f) := .loop_of hf

instance uses_loop {f : σ → CompilerM (ForInStep σ)} [hf : ∀ a, Uses S d d (f a)] (n : ℕ) (a : σ) :
    Uses S d d (loop n a f) :=
  ⟨fun h => runs_loop (I := fun _ st => TempsHeld (S.taken d) st) (fun a _ ht => (hf a).runs ht)
    n a h⟩

/-! ## Temporaries -/

variable {front back : List ℕ} {i : ℕ}

/-- The lowest free temporary is handed out. -/
theorem runs_allocTemp (h : TempsHeld held st) (hi : Pool.IsNext held i)
    {Q : ℕ → CompilerState → Prop}
    (hQ : ∀ st', TempsHeld (held ++ [i]) st' → SameTokens st st' → Q (15 - i) st') :
    Runs S allocTemp Q st := by
  refine fun _ => ⟨trivial, (h.allocTemp hi).mono fun reg st' hst => ?_⟩
  rw [hst.1]
  exact hQ st' hst.2.1 hst.2.2

/-- A temporary is taken back. -/
theorem runs_freeTemp (h : TempsHeld (front ++ i :: back) st) {Q : Unit → CompilerState → Prop}
    (hQ : ∀ st', TempsHeld (front ++ back) st' → SameTokens st st' → Q () st') :
    Runs S (freeTemp (15 - i)) Q st :=
  fun _ => ⟨trivial, hQ _ h.freeTemp.1 h.freeTemp.2⟩

/-- The next temporary is handed out. -/
theorem runs_push (h : TempsHeld (S.taken d) st) {Q : ℕ → CompilerState → Prop}
    (hQ : ∀ st', TempsHeld (S.taken (d + 1)) st' → SameTokens st st' → Q (15 - S.slot d) st') :
    Runs S allocTemp Q st := by
  refine runs_allocTemp h (S.isNext d) fun st' hst => ?_
  rw [← Pool.Stack.taken_succ] at hst
  exact hQ st' hst

/-- The last one is taken back. -/
theorem runs_pop (h : TempsHeld (S.taken (d + 1)) st) {Q : Unit → CompilerState → Prop}
    (hQ : ∀ st', TempsHeld (S.taken d) st' → SameTokens st st' → Q () st') :
    Runs S (freeTemp (15 - S.slot d)) Q st := by
  rw [Pool.Stack.taken_succ] at h
  refine runs_freeTemp h fun st' hst => ?_
  rw [List.append_nil] at hst
  exact hQ st' hst

theorem Uses.push {f : ℕ → CompilerM α} (hf : Uses S (d + 1) d' (f (15 - S.slot d))) :
    Uses S d d' (allocTemp >>= f) :=
  ⟨fun h => Prog.Wp.bind (runs_push h fun _ ht _ => hf.runs ht)⟩

instance uses_push {f : ℕ → CompilerM α} [hf : Uses S (d + 1) d' (f (15 - S.slot d))] :
    Uses S d d' (allocTemp >>= f) := .push hf

instance uses_pop {f : Unit → CompilerM α} [hf : Uses S d d' (f ())] :
    Uses S (d + 1) d' (freeTemp (15 - S.slot d) >>= f) :=
  ⟨fun h => Prog.Wp.bind (runs_pop h fun _ ht _ => hf.runs ht)⟩

instance uses_pop_last : Uses S (d + 1) d (freeTemp (15 - S.slot d)) :=
  ⟨fun h => runs_pop h fun _ ht _ => ht⟩

/-! ## Recursive calls -/

/-- The functions one level down use temporaries like a stack. -/
class Calls (S : Pool.Stack) (r : Rec) : Prop where
  expression : ∀ d dst, Uses S d d (r.expression dst)
  ternary : ∀ d dst, Uses S d d (r.ternary dst)
  primary : ∀ d dst, Uses S d d (r.primary dst)
  statement : ∀ d, Uses S d d r.statement

section Calls

variable {r : Rec} [h : Calls S r]

instance uses_expression_rec (dst : ℕ) : Uses S d d (r.expression dst) := h.expression d dst

instance uses_ternary_rec (dst : ℕ) : Uses S d d (r.ternary dst) := h.ternary d dst

instance uses_primary_rec (dst : ℕ) : Uses S d d (r.primary dst) := h.primary d dst

instance uses_statement_rec : Uses S d d r.statement := h.statement d

end Calls

end Temps

end Compiler

end LatencyOS
