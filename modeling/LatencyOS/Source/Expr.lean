import LatencyOS.Vm.Core

/-!
# Integer expressions and their meaning

The abstract syntax of the integer expressions of PulseLang and their value.  Arithmetic
wraps at 64 bits, both operands of a binary operator are always evaluated, and an
evaluation fails exactly when it divides by zero.

Equality has two meanings: between two compile-time constants it is equality of words, and
otherwise it is the machine's, which also compares the texts two words may refer to.
-/

namespace LatencyOS

/-- The binary operators. -/
inductive BinOp
  | or | and | eq | ne | lt | le | gt | ge | bor | bxor | band | shl | shr
  | add | sub | mul | div | mod
  deriving DecidableEq

/-- Integer expressions; parentheses are kept, as the compiler sees them. -/
inductive Expr
  | num (n : Word64)
  | var (name : List UInt8)
  | paren (e : Expr)
  | neg (e : Expr)
  | not (e : Expr)
  | cond (c a b : Expr)
  | bin (op : BinOp) (a b : Expr)

namespace BinOp

/-- The value of an operator, given the meaning of equality. -/
def applyWith (eq : Word64 → Word64 → Bool) (a b : Word64) : BinOp → Option Word64
  | .or => some (boolWord (a != 0#64 || b != 0#64))
  | .and => some (boolWord (a != 0#64 && b != 0#64))
  | .eq => some (boolWord (eq a b))
  | .ne => some (boolWord (!eq a b))
  | .lt => some (boolWord (a.slt b))
  | .le => some (boolWord (a.sle b))
  | .gt => some (boolWord (b.slt a))
  | .ge => some (boolWord (b.sle a))
  | .bor => some (a ||| b)
  | .bxor => some (a ^^^ b)
  | .band => some (a &&& b)
  | .shl => some (a <<< (b &&& 63#64).toNat)
  | .shr => some (a >>> (b &&& 63#64).toNat)
  | .add => some (a + b)
  | .sub => some (a - b)
  | .mul => some (a * b)
  | .div => if b = 0#64 then none else some (a.sdiv b)
  | .mod => if b = 0#64 then none else some (a.srem b)

/-- The value of an operator on two constants. -/
def fold (op : BinOp) (a b : Word64) : Option Word64 := op.applyWith (· == ·) a b

/-- The value of an operator on the machine. -/
def apply (str : Word64 → Option (List UInt8)) (op : BinOp) (a b : Word64) : Option Word64 :=
  op.applyWith (PX64VM.cmpEq str) a b

/-- How many temporaries the code of an operator takes besides its operands. -/
def temps : BinOp → ℕ
  | .or | .and => 2
  | _ => 0

/-- The multiplicative operators. -/
def isFactor (op : BinOp) : Bool := op == .mul || op == .div || op == .mod

end BinOp

namespace Expr

/-- The compile-time value of an expression, if it has one. -/
def constVal : Expr → Option Word64
  | num n => some n
  | var _ => none
  | paren e => e.constVal
  | neg e => e.constVal.map (- ·)
  | not e => e.constVal.map fun v => boolWord (v = 0#64)
  | cond _ _ _ => none
  | bin op a b =>
    match a.constVal, b.constVal with
    | some x, some y => op.fold x y
    | _, _ => none

/-- Both operands are compile-time constants. -/
def bothConst (a b : Expr) : Bool := a.constVal.isSome && b.constVal.isSome

/-- The value of an expression, given the texts words refer to and the variables. -/
def eval (str : Word64 → Option (List UInt8)) (ρ : List UInt8 → Word64) : Expr → Option Word64
  | num n => some n
  | var x => some (ρ x)
  | paren e => e.eval str ρ
  | neg e => (e.eval str ρ).map (- ·)
  | not e => (e.eval str ρ).map fun v => boolWord (v = 0#64)
  | cond c a b =>
    match c.eval str ρ with
    | none => none
    | some v => if v = 0#64 then b.eval str ρ else a.eval str ρ
  | bin op a b =>
    match a.eval str ρ, b.eval str ρ with
    | some x, some y => if bothConst a b then op.fold x y else op.apply str x y
    | _, _ => none

/-- The variables of an expression. -/
def vars : Expr → List (List UInt8)
  | num _ => []
  | var x => [x]
  | paren e => e.vars
  | neg e => e.vars
  | not e => e.vars
  | cond c a b => c.vars ++ a.vars ++ b.vars
  | bin _ a b => a.vars ++ b.vars

section Meaning

variable {str : Word64 → Option (List UInt8)} {ρ ρ' : List UInt8 → Word64}

/-- A compile-time value is the value. -/
theorem eval_of_constVal {e : Expr} {v : Word64} (h : e.constVal = some v) :
    e.eval str ρ = some v := by
  induction e generalizing v with
  | num n => exact h
  | var x => cases h
  | paren e ih => exact ih h
  | neg e ih =>
    obtain ⟨x, hx, rfl⟩ := Option.map_eq_some_iff.mp h
    rw [eval, ih hx, Option.map_some]
  | not e ih =>
    obtain ⟨x, hx, rfl⟩ := Option.map_eq_some_iff.mp h
    rw [eval, ih hx, Option.map_some]
  | cond c a b => cases h
  | bin op a b iha ihb =>
    rw [constVal] at h
    split at h
    · next x y hx hy =>
      simp only [eval, iha hx, ihb hy, bothConst, hx, hy, Option.isSome_some, Bool.and_self,
        if_true]
      exact h
    · cases h

/-- The value depends on the variables that occur. -/
theorem eval_congr {e : Expr} (h : ∀ x ∈ e.vars, ρ x = ρ' x) : e.eval str ρ = e.eval str ρ' := by
  induction e with
  | num n => rfl
  | var x => exact congrArg some (h x (List.mem_singleton_self x))
  | paren e ih => exact ih h
  | neg e ih => rw [eval, eval, ih h]
  | not e ih => rw [eval, eval, ih h]
  | cond c a b ihc iha ihb =>
    simp only [vars, List.mem_append] at h
    rw [eval, eval, ihc fun x hx => h x (.inl (.inl hx)), iha fun x hx => h x (.inl (.inr hx)),
      ihb fun x hx => h x (.inr hx)]
  | bin op a b iha ihb =>
    simp only [vars, List.mem_append] at h
    rw [eval, eval, iha fun x hx => h x (.inl hx), ihb fun x hx => h x (.inr hx)]

end Meaning

/-! ## Evaluation into the register of a variable -/

section InPlace

variable (own : List UInt8 → Prop)

/-- The expression is a variable of the register itself. -/
def IsOwn : Expr → Prop
  | var x => own x
  | paren e => e.IsOwn
  | _ => False

/-- No variable of the register occurs. -/
def Avoids (e : Expr) : Prop := ∀ x ∈ e.vars, ¬ own x

/-- An expression can be evaluated straight into a register that holds some of its own
variables: no occurrence of one is evaluated after the register was first written.  The
operand of a unary operator is evaluated elsewhere, a constant left operand is loaded last, and
a variable of the register is not written at all. -/
def InPlace : Expr → Prop
  | paren e => e.InPlace
  | cond c a b => c.InPlace ∧ (c.IsOwn own ∨ a.Avoids own ∧ b.Avoids own) ∧
      a.InPlace ∧ b.InPlace
  | bin _ a b => a.InPlace ∧ (a.IsOwn own ∨ a.constVal.isSome ∨ b.Avoids own)
  | _ => True

/-- An expression without the register's variables can be evaluated in place. -/
theorem inPlace_of_avoids {own : List UInt8 → Prop} {e : Expr} (h : e.Avoids own) :
    e.InPlace own := by
  induction e with
  | paren e ih => exact ih h
  | cond c a b ihc iha ihb =>
    simp only [Avoids, vars, List.mem_append] at h
    have ha : a.Avoids own := fun x hx => h x (.inl (.inr hx))
    have hb : b.Avoids own := fun x hx => h x (.inr hx)
    exact ⟨ihc fun x hx => h x (.inl (.inl hx)), .inr ⟨ha, hb⟩, iha ha, ihb hb⟩
  | bin op a b iha ihb =>
    simp only [Avoids, vars, List.mem_append] at h
    exact ⟨iha fun x hx => h x (.inl hx), .inr (.inr fun x hx => h x (.inr hx))⟩
  | _ => trivial

end InPlace

/-! ## Temporaries -/

/-- How many temporaries the compiler takes for an expression, at most, at the same time. -/
def temps : Expr → ℕ
  | num _ => 0
  | var _ => 0
  | paren e => e.temps
  | neg e => e.temps + 2
  | not e => max e.temps 1 + 1
  | cond c a b => max c.temps (max a.temps b.temps)
  | bin op a b => max a.temps (max b.temps op.temps + 1)

/-! ## Stale fixed-point scales

Literals do not reset the scale the compiler last saw, so the scale of an earlier statement
can reach the operators of an integer expression. -/

/-- The scale the compiler holds after an integer expression. -/
def scaleAfter (s : Option ℕ) : Expr → Option ℕ
  | num _ => s
  | var _ => none
  | paren e => e.scaleAfter s
  | neg e => e.scaleAfter s
  | not e => e.scaleAfter s
  | cond c a b => b.scaleAfter (a.scaleAfter (c.scaleAfter s))
  | bin op a b =>
    if op.isFactor && !bothConst a b then none else b.scaleAfter (a.scaleAfter s)

/-- No multiplication or division of the expression is taken for a fixed-point one. -/
def Unscaled (s : Option ℕ) : Expr → Prop
  | num _ => True
  | var _ => True
  | paren e => e.Unscaled s
  | neg e => e.Unscaled s
  | not e => e.Unscaled s
  | cond c a b => c.Unscaled s ∧ a.Unscaled (c.scaleAfter s) ∧
      b.Unscaled (a.scaleAfter (c.scaleAfter s))
  | bin op a b => a.Unscaled s ∧ b.Unscaled (a.scaleAfter s) ∧
      (bothConst a b = false →
        (op = .mul → a.scaleAfter s = none ∧ b.scaleAfter (a.scaleAfter s) = none) ∧
        (op = .div → a.scaleAfter s = none ∨ b.scaleAfter (a.scaleAfter s) = none))

@[simp] theorem scaleAfter_none (e : Expr) : e.scaleAfter none = none := by
  induction e with
  | num n => rfl
  | var x => rfl
  | paren e ih => exact ih
  | neg e ih => exact ih
  | not e ih => exact ih
  | cond c a b ihc iha ihb => rw [scaleAfter, ihc, iha, ihb]
  | bin op a b iha ihb => rw [scaleAfter, iha, ihb, ite_self]

/-- Without a stale scale there is nothing to mistake. -/
theorem unscaled_none (e : Expr) : e.Unscaled none := by
  induction e with
  | num n => trivial
  | var x => trivial
  | paren e ih => exact ih
  | neg e ih => exact ih
  | not e ih => exact ih
  | cond c a b ihc iha ihb => simp only [Unscaled, scaleAfter_none, ihc, iha, ihb, and_self]
  | bin op a b iha ihb => simp [Unscaled, iha, ihb]

end Expr

end LatencyOS
