import LatencyOS.Compiler.Expression
import LatencyOS.Source.Expr
import Mathlib.Tactic.IntervalCases

/-!
# The grammar of integer expressions

Which tokens are an integer expression, by precedence.  Heights count the levels of the
expression compiler from `primary` up: 0 for primary expressions, `op.height + 1` for chains
of an operator, and 11 for the conditional.
-/

namespace LatencyOS

namespace BinOp

/-- The token of an operator. -/
def kind : BinOp → TokenKind
  | .or => .orOp
  | .and => .and
  | .eq => .eqEq
  | .ne => .notEq
  | .lt => .lt
  | .le => .ltEq
  | .gt => .gt
  | .ge => .gtEq
  | .bor => .pipeSingle
  | .bxor => .caret
  | .band => .amp
  | .shl => .shl
  | .shr => .shr
  | .add => .plus
  | .sub => .minus
  | .mul => .star
  | .div => .slash
  | .mod => .percent

/-- The precedence of an operator: multiplication binds tightest. -/
def height : BinOp → ℕ
  | .mul | .div | .mod => 0
  | .add | .sub => 1
  | .shl | .shr => 2
  | .band => 3
  | .bxor => 4
  | .bor => 5
  | .lt | .le | .gt | .ge => 6
  | .eq | .ne => 7
  | .and => 8
  | .or => 9

theorem height_le (op : BinOp) : op.height ≤ 9 := by cases op <;> decide

end BinOp

/-- The tokens from a position on, up to another, are an expression of a height. -/
inductive Syn (tok : ℕ → Token) (name : Token → Option (List UInt8)) : ℕ → ℕ → Expr → ℕ → Prop
  | num {i : ℕ} {n : Word64} (h : (tok i).kind = .number n) : Syn tok name 0 i (.num n) (i + 1)
  | var {i : ℕ} {x : List UInt8} (h : (tok i).kind = .varIdent) (hx : name (tok i) = some x)
    (hb : (tok (i + 1)).kind ≠ .lBracket) (hd : (tok (i + 1)).kind ≠ .dot) :
    Syn tok name 0 i (.var x) (i + 1)
  | paren {i j : ℕ} {e : Expr} (h : (tok i).kind = .lParen) (he : Syn tok name 11 (i + 1) e j)
    (hj : (tok j).kind = .rParen) : Syn tok name 0 i (.paren e) (j + 1)
  | neg {i j : ℕ} {e : Expr} (h : (tok i).kind = .minus) (he : Syn tok name 0 (i + 1) e j) :
    Syn tok name 0 i (.neg e) j
  | not {i j : ℕ} {e : Expr} (h : (tok i).kind = .exclamation)
    (he : Syn tok name 0 (i + 1) e j) : Syn tok name 0 i (.not e) j
  | up {h i j : ℕ} {e : Expr} (hh : h < 11) (he : Syn tok name h i e j) :
    Syn tok name (h + 1) i e j
  | bin {i j k : ℕ} {op : BinOp} {a b : Expr} (ha : Syn tok name (op.height + 1) i a j)
    (hop : (tok j).kind = op.kind) (hb : Syn tok name op.height (j + 1) b k) :
    Syn tok name (op.height + 1) i (.bin op a b) k
  | cond {i j k m : ℕ} {c a b : Expr} (hc : Syn tok name 10 i c j)
    (hq : (tok j).kind = .question) (ha : Syn tok name 11 (j + 1) a k)
    (hcol : (tok k).kind = .colon) (hb : Syn tok name 11 (k + 1) b m) :
    Syn tok name 11 i (.cond c a b) m

/-- A token does not continue an expression below a height. -/
def Ends (h : ℕ) (k : TokenKind) : Prop := ∀ op : BinOp, op.height < h → k ≠ op.kind

/-- A token does not continue an expression at all. -/
structure Follows (k : TokenKind) : Prop where
  ends : Ends 10 k
  question : k ≠ .question
  pipe : k ≠ .pipe

theorem Ends.mono {h h' : ℕ} {k : TokenKind} (hk : Ends h k) (hh : h' ≤ h) : Ends h' k :=
  fun op hop => hk op (Nat.lt_of_lt_of_le hop hh)

theorem BinOp.ends_kind (op : BinOp) : Ends op.height op.kind := by
  intro op' hlt
  cases op <;> cases op' <;> first | decide | exact absurd hlt (by decide)

namespace CompilerState

/-- The token at a position. -/
def tok (st : CompilerState) (i : ℕ) : Token := st.tokens.getD i Token.empty

/-- The tokens from a position on are an expression of a height. -/
abbrev Syn (st : CompilerState) : ℕ → ℕ → Expr → ℕ → Prop := LatencyOS.Syn st.tok st.text?

end CompilerState

namespace Compiler

/-! ## The levels by height -/

/-- The binary levels, from the tightest on. -/
def level : ℕ → Level
  | 0 => factorLevel
  | 1 => termLevel
  | 2 => shiftLevel
  | 3 => bitwiseAndLevel
  | 4 => bitwiseXorLevel
  | 5 => bitwiseOrLevel
  | 6 => comparisonLevel
  | 7 => equalityLevel
  | 8 => logicAndLevel
  | _ => logicOrLevel

/-- The function of the expression compiler at a height. -/
def levelAt (r : Rec) : ℕ → ℕ → CompilerM (Option Word64)
  | 0 => primary r
  | h + 1 => if h < 10 then binaryLevel r.fuel (level h) (levelAt r h) else ternary r

/-- What a function of the expression compiler goes on with after its first operand. -/
def restAt (r : Rec) (fuel h dst : ℕ) (val : Option Word64) : CompilerM (Option Word64) :=
  match h with
  | 0 => pure val
  | h + 1 =>
    if h < 10 then binaryRest fuel (level h) (levelAt r h) dst val else ternaryRest r dst val

theorem levelAt_succ (r : Rec) {h : ℕ} (hh : h < 11) (dst : ℕ) :
    levelAt r (h + 1) dst = levelAt r h dst >>= restAt r r.fuel (h + 1) dst := by
  by_cases h10 : h < 10
  · have hrest : restAt r r.fuel (h + 1) dst =
        binaryRest r.fuel (level h) (levelAt r h) dst := by
      funext val
      simp only [restAt, if_pos h10]
    rw [hrest]
    simp only [levelAt, if_pos h10]
    rfl
  · obtain rfl : h = 10 := by omega
    rfl

theorem isOp_kind (op : BinOp) : (level op.height).isOp op.kind = true := by cases op <;> rfl

/-- Every operator token of a level is one of the grammar. -/
theorem exists_op_of_isOp {h : ℕ} {k : TokenKind} (hh : h < 10) (hk : (level h).isOp k = true) :
    ∃ op : BinOp, op.height = h ∧ k = op.kind := by
  interval_cases h <;>
    simp only [level, factorLevel, termLevel, shiftLevel, bitwiseAndLevel, bitwiseXorLevel,
      bitwiseOrLevel, comparisonLevel, equalityLevel, logicAndLevel, logicOrLevel, plainLevel,
      Bool.or_eq_true, beq_iff_eq] at hk
  · obtain (hk | hk) | hk := hk
    exacts [⟨.mul, rfl, hk⟩, ⟨.div, rfl, hk⟩, ⟨.mod, rfl, hk⟩]
  · obtain hk | hk := hk
    exacts [⟨.add, rfl, hk⟩, ⟨.sub, rfl, hk⟩]
  · obtain hk | hk := hk
    exacts [⟨.shl, rfl, hk⟩, ⟨.shr, rfl, hk⟩]
  · exact ⟨.band, rfl, hk⟩
  · exact ⟨.bxor, rfl, hk⟩
  · exact ⟨.bor, rfl, hk⟩
  · obtain ((hk | hk) | hk) | hk := hk
    exacts [⟨.lt, rfl, hk⟩, ⟨.le, rfl, hk⟩, ⟨.gt, rfl, hk⟩, ⟨.ge, rfl, hk⟩]
  · obtain hk | hk := hk
    exacts [⟨.eq, rfl, hk⟩, ⟨.ne, rfl, hk⟩]
  · exact ⟨.and, rfl, hk⟩
  · exact ⟨.or, rfl, hk⟩

theorem not_isOp_of_ends {h : ℕ} {k : TokenKind} (hh : h < 10) (hk : Ends (h + 1) k) :
    (level h).isOp k = false := by
  by_contra hne
  obtain ⟨op, hop, rfl⟩ := exists_op_of_isOp hh (Bool.not_eq_false _ ▸ hne)
  exact hk op (by omega) rfl

end Compiler

end LatencyOS
