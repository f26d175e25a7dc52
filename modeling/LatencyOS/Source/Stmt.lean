import LatencyOS.Source.Expr
import Mathlib.Logic.Function.Basic

/-!
# Integer statements and their meaning

The abstract syntax of the statements of PulseLang that work on integer variables, and what
they do to the values of the variables.  Declarations are assignments: a variable holds zero
before its first one.

A statement ends with new values, or it stops at a division by zero or a failed assertion.
`exec` looks for the end within a number of turns of the loops; more turns never change it.
-/

namespace LatencyOS

/-- Statements over integer variables. -/
inductive Stmt
  | skip
  | seq (a b : Stmt)
  | declare (x : List UInt8)
  | assign (x : List UInt8) (e : Expr)
  /-- `+=`, or `-=`. -/
  | update (x : List UInt8) (add : Bool) (e : Expr)
  | assert (c : Expr)
  | ifThen (c : Expr) (a : Stmt)
  | ifElse (c : Expr) (a b : Stmt)
  | loop (c : Expr) (a : Stmt)
  /-- A variable counts from one number up to another. -/
  | count (x : List UInt8) (lo hi : Word64) (a : Stmt)

namespace Stmt

/-- The values of the variables. -/
abbrev Env := List UInt8 → Word64

/-- Why a statement stops before its end. -/
inductive Fault
  | divByZero
  | assertFailed
  deriving DecidableEq

/-- How a statement ends. -/
inductive Outcome
  | done (ρ : Env)
  | stopped (f : Fault)

/-- What comes after the end of a statement. -/
def andThen (o : Option Outcome) (k : Env → Option Outcome) : Option Outcome :=
  match o with
  | some (.done ρ) => k ρ
  | o => o

/-- What is done with the value of an expression. -/
def withValue (v : Option Word64) (k : Word64 → Option Outcome) : Option Outcome :=
  match v with
  | some v => k v
  | none => some (.stopped .divByZero)

/-- The turns of a loop, as long as its condition is not zero. -/
def turns (test : Env → Option Word64) (body : ℕ → Env → Option Outcome) :
    ℕ → Env → Option Outcome
  | 0, _ => none
  | n + 1, ρ => withValue (test ρ) fun v =>
    if v = 0#64 then some (.done ρ) else andThen (body n ρ) (turns test body n)

/-- Add a word to a variable, or subtract it. -/
def bump (x : List UInt8) (add : Bool) (v : Word64) (ρ : Env) : Env :=
  Function.update ρ x (if add then ρ x + v else ρ x - v)

/-- The end of a statement within a number of turns, given the texts words refer to. -/
def exec (str : Word64 → Option (List UInt8)) : Stmt → ℕ → Env → Option Outcome
  | skip, _, ρ => some (.done ρ)
  | seq a b, n, ρ => andThen (a.exec str n ρ) (b.exec str n)
  | declare _, _, ρ => some (.done ρ)
  | assign x e, _, ρ => withValue (e.eval str ρ) fun v => some (.done (Function.update ρ x v))
  | update x add e, _, ρ => withValue (e.eval str ρ) fun v => some (.done (bump x add v ρ))
  | assert c, _, ρ => withValue (c.eval str ρ) fun v =>
    if v = 0#64 then some (.stopped .assertFailed) else some (.done ρ)
  | ifThen c a, n, ρ => withValue (c.eval str ρ) fun v =>
    if v = 0#64 then some (.done ρ) else a.exec str n ρ
  | ifElse c a b, n, ρ => withValue (c.eval str ρ) fun v =>
    if v = 0#64 then b.exec str n ρ else a.exec str n ρ
  | loop c a, n, ρ => turns (c.eval str) (a.exec str) n ρ
  | count x lo hi a, n, ρ =>
    turns (fun ρ => some (boolWord ((ρ x).slt hi)))
      (fun n ρ => andThen (a.exec str n ρ) fun ρ => some (.done (bump x true 1#64 ρ)))
      n (Function.update ρ x lo)

/-- A statement ends. -/
def Ends (str : Word64 → Option (List UInt8)) (s : Stmt) (ρ : Env) (o : Outcome) : Prop :=
  ∃ n, s.exec str n ρ = some o

/-- The variables of a statement. -/
def vars : Stmt → List (List UInt8)
  | skip => []
  | seq a b => a.vars ++ b.vars
  | declare x => [x]
  | assign x e => x :: e.vars
  | update x _ e => x :: e.vars
  | assert c => c.vars
  | ifThen c a => c.vars ++ a.vars
  | ifElse c a b => c.vars ++ (a.vars ++ b.vars)
  | loop c a => c.vars ++ a.vars
  | count x _ _ a => x :: a.vars

/-- How many temporaries the compiler takes for a statement, at most, at the same time; the
bound of a counting loop keeps one for the whole loop. -/
def temps : Stmt → ℕ
  | skip => 0
  | seq a b => max a.temps b.temps
  | declare _ => 0
  | assign _ e => e.temps
  | update _ _ e => e.temps + 1
  | assert c => c.temps
  | ifThen c a => max c.temps a.temps
  | ifElse c a b => max c.temps (max a.temps b.temps)
  | loop c a => max c.temps a.temps
  | count _ _ _ a => a.temps + 1

/-- Every right-hand side can be evaluated straight into the register of its variable. -/
def InPlace : Stmt → Prop
  | seq a b => a.InPlace ∧ b.InPlace
  | assign x e => e.InPlace (· = x)
  | ifThen _ a => a.InPlace
  | ifElse _ a b => a.InPlace ∧ b.InPlace
  | loop _ a => a.InPlace
  | count _ _ _ a => a.InPlace
  | _ => True

/-- Nothing comes after the end. -/
theorem andThen_done (o : Option Outcome) : andThen o (fun ρ => some (.done ρ)) = o := by
  match o with
  | none => rfl
  | some (.done ρ) => rfl
  | some (.stopped f) => rfl

/-! ## More turns -/

section Turns

variable {str : Word64 → Option (List UInt8)} {n m : ℕ} {ρ : Env} {o : Outcome}

theorem andThen_eq_some {p : Option Outcome} {k : Env → Option Outcome} (h : andThen p k = some o) :
    (∃ ρ, p = some (.done ρ) ∧ k ρ = some o) ∨ ∃ f, p = some (.stopped f) ∧ o = .stopped f := by
  cases p with
  | none => cases h
  | some q =>
    cases q with
    | done ρ => exact .inl ⟨ρ, rfl, h⟩
    | stopped f => exact .inr ⟨f, rfl, (Option.some.inj h).symm⟩

/-- A longer search that agrees with a shorter one where that one found an end. -/
theorem andThen_mono {p p' : Option Outcome} {k k' : Env → Option Outcome}
    (hp : ∀ o, p = some o → p' = some o) (hk : ∀ ρ o, k ρ = some o → k' ρ = some o)
    (h : andThen p k = some o) : andThen p' k' = some o := by
  obtain ⟨ρ, hρ, hk'⟩ | ⟨f, hf, rfl⟩ := andThen_eq_some h
  · rw [hp _ hρ]
    exact hk ρ o hk'
  · rw [hp _ hf]
    rfl

theorem withValue_mono {v : Option Word64} {k k' : Word64 → Option Outcome}
    (hk : ∀ w o, k w = some o → k' w = some o) (h : withValue v k = some o) :
    withValue v k' = some o := by
  cases v with
  | none => exact h
  | some w => exact hk w o h

theorem turns_mono {test : Env → Option Word64} {body : ℕ → Env → Option Outcome}
    (hbody : ∀ {n m : ℕ} {ρ : Env} {o : Outcome}, n ≤ m → body n ρ = some o → body m ρ = some o)
    (hnm : n ≤ m) (h : turns test body n ρ = some o) : turns test body m ρ = some o := by
  induction n generalizing m ρ o with
  | zero => cases h
  | succ n ih =>
    obtain ⟨m, rfl⟩ : ∃ k, m = k + 1 := ⟨m - 1, by omega⟩
    have hle : n ≤ m := by omega
    refine withValue_mono (fun v o' hv => ?_) h
    by_cases hz : v = 0#64
    · rwa [if_pos hz] at hv ⊢
    · rw [if_neg hz] at hv ⊢
      exact andThen_mono (fun _ => hbody hle) (fun _ _ => ih hle) hv

/-- More turns do not change the end of a statement. -/
theorem exec_mono {s : Stmt} (hnm : n ≤ m) (h : s.exec str n ρ = some o) :
    s.exec str m ρ = some o := by
  induction s generalizing n m ρ o with
  | seq a b iha ihb => exact andThen_mono (fun _ => iha hnm) (fun _ _ => ihb hnm) h
  | ifThen c a ih =>
    refine withValue_mono (fun v o' hv => ?_) h
    by_cases hz : v = 0#64
    · rwa [if_pos hz] at hv ⊢
    · rw [if_neg hz] at hv ⊢
      exact ih hnm hv
  | ifElse c a b iha ihb =>
    refine withValue_mono (fun v o' hv => ?_) h
    by_cases hz : v = 0#64
    · rw [if_pos hz] at hv ⊢
      exact ihb hnm hv
    · rw [if_neg hz] at hv ⊢
      exact iha hnm hv
  | loop c a ih => exact turns_mono ih hnm h
  | count x lo hi a ih =>
    exact turns_mono (fun hle hb => andThen_mono (fun _ => ih hle) (fun _ _ => id) hb) hnm h
  | _ => exact h

/-- A statement ends in one way only. -/
theorem Ends.unique {s : Stmt} {o' : Outcome} (h : s.Ends str ρ o) (h' : s.Ends str ρ o') :
    o = o' := by
  obtain ⟨n, hn⟩ := h
  obtain ⟨m, hm⟩ := h'
  have hn' := exec_mono (Nat.le_max_left n m) hn
  have hm' := exec_mono (Nat.le_max_right n m) hm
  exact Option.some.inj (hn'.symm.trans hm')

end Turns

end Stmt

end LatencyOS
