import LatencyOS.Compiler.Compile
import LatencyOS.Compiler.Discipline.Jumps
import LatencyOS.Lib.Wp

/-!
# The discipline of the compiler

What every function of the compiler keeps, whatever it compiles: jumps land, the cursor and
the code only move forward, the recursion stays within its bound, and panics come from a few
primitives only.

The bound is a rank.  A call that consumes a token goes down in the distance to the end of
the token buffer; a re-parsed contract clause moves the cursor back, but only statements
re-parse, and a statement inside an expression stands behind a jump that was emitted for it,
so the room left in the code buffer goes down first.
-/

namespace LatencyOS

/-- The cost a function was declared with covers its estimate. -/
def FnMeta.WcetKept (f : FnMeta) : Prop := ∀ ns, f.declaredWcetNs = some ns → f.estimatedWcetNs ≤ ns

/-- Imports are only added. -/
def Decls.ImportsGrow (d d' : Decls) : Prop :=
  d.hasExplicitImports = true → d'.hasExplicitImports = true ∧
    ∀ mask, d.importedRuntimes &&& mask ≠ 0 → d'.importedRuntimes &&& mask ≠ 0

theorem Decls.importsGrow_of_eq {d d' : Decls} (h : d'.hasExplicitImports = d.hasExplicitImports)
    (hmask : d'.importedRuntimes = d.importedRuntimes) : d.ImportsGrow d' := by
  intro hex
  rw [h, hmask]
  exact ⟨hex, fun _ hm => hm⟩

/-- The native functions that are called without a look at the imports: by the patterns of
`match`, by `@streq`, and as built-ins of `@zip_with`. -/
def Native.ungated : List Native :=
  [.isErr, .isOk, .unwrap, .streq, .mathMin, .mathMax, .mathAbs, .mathClamp, .bitPopcnt,
    .bitLzcnt, .crc32, .fixToFix, .fixToI64, .fixMul, .fixDiv, .print, .println]

/-- A native function may be called: no module has been imported yet, or one it belongs to, or
nothing looks. -/
def Decls.Admits (d : Decls) (f : Native) : Prop :=
  d.hasExplicitImports = true → f ∈ Native.ungated ∨ d.importedRuntimes &&& f.runtime ≠ 0

namespace Compiler

/-- The primitives that panic by themselves do not. -/
def SafeOp : (β : Type) → CompilerOp β → CompilerState → Prop
  | _, .negate n, st => ¬ (st.overflowChecks = true ∧ n = BitVec.intMin 64)
  | _, .rangeLen startVal endVal, st =>
    endVal.sle startVal = true ∨
      ¬ (st.overflowChecks = true ∧ 2 ^ 63 ≤ endVal.toInt - startVal.toInt)
  | _, .pushArray _ _, st => st.decls.arrays.length < 8
  | _, _, _ => True

/-- Targets are written into jumps only, native functions are called where they may be, and
imports are only added. -/
def WellOp : (β : Type) → CompilerOp β → CompilerState → Prop
  | _, .emitInst op _ rs1 _, st => op = .callNat → ∃ f : Native, f.id = rs1 ∧ st.decls.Admits f
  | _, .patchImm16 pos _, st => 4 ∣ pos ∧ JumpAt st.code pos
  | _, .setDecls d, st => st.decls.ImportsGrow d
  | _, _, _ => True

/-- An unsafe primitive panics. -/
theorem perform_of_not_safeOp (β : Type) (o : CompilerOp β) (st : CompilerState)
    (h : ¬ SafeOp β o st) : perform β o st = .error .panic := by
  cases o with
  | negate n =>
    simp only [SafeOp, Decidable.not_not] at h
    simp only [perform, CompilerState.negate]
    rw [if_pos h]
  | rangeLen startVal endVal =>
    simp only [SafeOp, not_or, Decidable.not_not] at h
    simp only [perform, CompilerState.rangeLen]
    rw [if_neg h.1, if_pos h.2]
  | pushArray name len =>
    simp only [SafeOp, Nat.not_lt] at h
    simp only [perform, CompilerState.pushArray]
    rw [if_pos h]
  | _ => exact absurd trivial h

/-- What stays the same during a compilation, and the bounds it runs under. -/
structure Session where
  src : List UInt8
  tokens : List Token
  /-- The bound of the loops. -/
  fuel : ℕ
  /-- The recursion levels left. -/
  depth : ℕ
  /-- Whether a statement is being compiled, or an expression. -/
  inStatement : Bool
  /-- The code the compilation leaves alone. -/
  before : List UInt8
  /-- The number of deadline blocks around. -/
  level : ℤ
  /-- Whether the bounds are enough; if they are not, a run may reach them. -/
  bounded : Bool
  enough : bounded = true → tokens.length + 2 ≤ fuel

namespace Session

variable (s : Session)

/-- The tokens lie in the source. -/
def Valid : Prop := ∀ tok ∈ s.tokens, tok.start + tok.len ≤ s.src.length

/-- The terms of a compilation: it may panic only on tokens that do not lie in the source, and
it never reaches its bounds if they are enough. -/
def terms : Prog.Terms CompilerOp Abort CompilerState where
  rely := SafeOp
  guarantee := WellOp
  fails := fun e => (s.bounded = true → e ≠ .fuel) ∧ (s.Valid → e ≠ .panic)

/-- A computation of the compiler keeps the terms and ends in a postcondition. -/
abbrev Runs {α : Type} (p : CompilerM α) (Q : α → CompilerState → Prop) (st : CompilerState) :
    Prop :=
  Prog.Wp perform s.terms p Q st

/-- The recursion levels a call can need. -/
def rank (st : CompilerState) : ℕ :=
  (maxBytecodeSize - st.code.length) * (s.tokens.length + 2) + (s.tokens.length - st.current) +
    if s.inStatement then s.tokens.length + 2 else 1

/-- The session of a statement. -/
def toStatement : Session := { s with inStatement := true }

/-- The session of an expression. -/
def toExpression : Session := { s with inStatement := false }

/-- The session one recursion level up. -/
def up : Session := { s with depth := s.depth + 1 }

/-- The session of a stretch of code of its own, with some deadline blocks around. -/
def stretch (before : List UInt8) (level : ℤ) : Session :=
  { s with before := before, level := level }

/-- Two sessions that differ in their bounds only. -/
structure SameAs (s s' : Session) : Prop where
  src : s.src = s'.src
  tokens : s.tokens = s'.tokens
  before : s.before = s'.before
  level : s.level = s'.level

theorem SameAs.symm {s s' : Session} (h : SameAs s s') : SameAs s' s :=
  ⟨h.src.symm, h.tokens.symm, h.before.symm, h.level.symm⟩

theorem sameAs_toExpression : s.toExpression.SameAs s := ⟨rfl, rfl, rfl, rfl⟩

theorem sameAs_up : s.up.SameAs s := ⟨rfl, rfl, rfl, rfl⟩

end Session

/-- Where a computation can have gone from a state. -/
structure Later (st st' : CompilerState) : Prop where
  current_le : st.current ≤ st'.current
  code_le : st.code.length ≤ st'.code.length
  fns_le : st.decls.functions.length ≤ st'.decls.functions.length
  fns_eq : ∀ i < st.decls.functions.length,
    st'.decls.functions[i]? = st.decls.functions[i]?
  levels : ∀ n ≤ st.code.length, levelAt st'.code n = levelAt st.code n

/-- The states of a compilation, with some jumps pending. -/
structure Sound (s : Session) (pend : List ℕ) (st : CompilerState) : Prop where
  src : st.src = s.src
  tokens : st.tokens = s.tokens
  rank_le : s.bounded = true → s.rank st ≤ s.depth
  start : s.before <+: st.code
  jumps : JumpsLand s.before.length s.level pend st.code
  entries : ∀ f ∈ st.decls.functions, Lands st.code f.entryPc
  wcet : ∀ f ∈ st.decls.functions, f.WcetKept

variable {s : Session} {pend : List ℕ} {st st' st'' : CompilerState} {α β σ : Type}

namespace Later

theorem refl (st : CompilerState) : Later st st :=
  ⟨Nat.le_refl _, Nat.le_refl _, Nat.le_refl _, fun _ _ => rfl, fun _ _ => rfl⟩

theorem trans (h₁ : Later st st') (h₂ : Later st' st'') : Later st st'' where
  current_le := Nat.le_trans h₁.current_le h₂.current_le
  code_le := Nat.le_trans h₁.code_le h₂.code_le
  fns_le := Nat.le_trans h₁.fns_le h₂.fns_le
  fns_eq := fun i hi =>
    (h₂.fns_eq i (Nat.lt_of_lt_of_le hi h₁.fns_le)).trans (h₁.fns_eq i hi)
  levels := fun n hn => (h₂.levels n (Nat.le_trans hn h₁.code_le)).trans (h₁.levels n hn)

/-- Positions reached stay reached. -/
theorem lands (h : Later st st') {target : ℕ} (ht : Lands st.code target) :
    Lands st'.code target :=
  ⟨ht.1, Nat.le_trans ht.2 h.code_le⟩

theorem rank_le (h : Later st st') (s' : Session) : s'.rank st' ≤ s'.rank st := by
  have hroom := Nat.mul_le_mul_right (s'.tokens.length + 2)
    (Nat.sub_le_sub_left h.code_le maxBytecodeSize)
  have hahead := Nat.sub_le_sub_left h.current_le s'.tokens.length
  simp only [Session.rank]
  omega

/-- Consuming a token lowers the rank. -/
theorem rank_lt (h : Later st st') (hlt : st.current < st'.current)
    (hin : st.current < s.tokens.length) : s.rank st' < s.rank st := by
  have hroom := Nat.mul_le_mul_right (s.tokens.length + 2)
    (Nat.sub_le_sub_left h.code_le maxBytecodeSize)
  simp only [Session.rank]
  omega

end Later

/-- Two states that agree on everything the discipline looks at. -/
structure Same (st st' : CompilerState) : Prop where
  src : st'.src = st.src
  tokens : st'.tokens = st.tokens
  current : st'.current = st.current
  code : st'.code = st.code
  functions : st'.decls.functions = st.decls.functions

namespace Same

theorem refl (st : CompilerState) : Same st st := ⟨rfl, rfl, rfl, rfl, rfl⟩

theorem later (h : Same st st') : Later st st' where
  current_le := Nat.le_of_eq h.current.symm
  code_le := by rw [h.code]
  fns_le := by rw [h.functions]
  fns_eq := fun _ _ => by rw [h.functions]
  levels := fun _ _ => by rw [h.code]

theorem sound (h : Same st st') (hs : Sound s pend st) : Sound s pend st' where
  src := h.src.trans hs.src
  tokens := h.tokens.trans hs.tokens
  rank_le := fun hb => Nat.le_trans (h.later.rank_le s) (hs.rank_le hb)
  start := by
    rw [h.code]
    exact hs.start
  jumps := by
    rw [h.code]
    exact hs.jumps
  entries := by
    rw [h.code, h.functions]
    exact hs.entries
  wcet := by
    rw [h.functions]
    exact hs.wcet

end Same

namespace Sound

theorem mono_rank {s' : Session} (h : Sound s pend st) (hsame : s.SameAs s')
    (hrank : s'.bounded = true → s'.rank st ≤ s'.depth) : Sound s' pend st where
  src := h.src.trans hsame.src
  tokens := h.tokens.trans hsame.tokens
  rank_le := hrank
  start := by
    rw [← hsame.before]
    exact h.start
  jumps := by
    rw [← hsame.before, ← hsame.level]
    exact h.jumps
  entries := h.entries
  wcet := h.wcet

/-- A statement may compile expressions. -/
theorem toExpression (h : Sound s pend st) : Sound s.toExpression pend st := by
  refine h.mono_rank ⟨rfl, rfl, rfl, rfl⟩ fun hb => ?_
  have hrank := h.rank_le hb
  simp only [Session.rank, Session.toExpression] at hrank ⊢
  split at hrank <;> simp only [Bool.false_eq_true, if_false] <;> omega

theorem of_toStatement (h : Sound s.toStatement pend st) : Sound s pend st := by
  refine h.mono_rank ⟨rfl, rfl, rfl, rfl⟩ fun hb => ?_
  have hrank := h.rank_le hb
  simp only [Session.rank, Session.toStatement, if_true] at hrank ⊢
  split <;> omega

/-- An emitted instruction pays for a statement inside an expression. -/
theorem enterStatement {pend' : List ℕ} (h : Sound s pend' st') (hs : Sound s pend st)
    (hl : Later st st') (hlen : st'.code.length = st.code.length + 4) :
    Sound s.toStatement pend' st' := by
  refine h.mono_rank ⟨rfl, rfl, rfl, rfl⟩ fun hb => ?_
  have hfits := h.jumps.fits
  have hrank := hs.rank_le hb
  have hcur := hl.current_le
  have hroom : maxBytecodeSize - st.code.length = (maxBytecodeSize - st'.code.length) + 4 := by
    omega
  simp only [Session.rank, Session.toStatement, if_true] at hrank ⊢
  rw [hroom, Nat.add_mul] at hrank
  omega

/-- An expression of a statement may move the cursor anywhere. -/
theorem toExpression_at (h : Sound s.toStatement pend st) (n : ℕ) :
    Sound s.toExpression pend { st with current := n } where
  src := h.src
  tokens := h.tokens
  rank_le := by
    intro hb
    have hrank := h.rank_le hb
    simp only [Session.rank, Session.toExpression, Session.toStatement] at hrank ⊢
    simp only [Bool.false_eq_true, if_false, if_true] at hrank ⊢
    omega
  start := h.start
  jumps := h.jumps
  entries := h.entries
  wcet := h.wcet

/-- Back from a part compiled under another level of the session. -/
theorem of_later {s' : Session} (h : Sound s' pend st') (hs : Sound s pend st)
    (hl : Later st st') (hsame : s'.SameAs s) : Sound s pend st' := by
  refine h.mono_rank hsame fun hb => ?_
  exact Nat.le_trans (hl.rank_le s) (hs.rank_le hb)

theorem up (h : Sound s pend st) : Sound s.up pend st :=
  h.mono_rank s.sameAs_up.symm fun hb => Nat.le_succ_of_le (h.rank_le hb)

/-- A consumed token pays for one recursion level. -/
theorem of_up (h : Sound s.up pend st') (hs : Sound s.up pend st) (hl : Later st st')
    (hlt : st.current < st'.current) (hin : st.current < s.tokens.length) : Sound s pend st' := by
  refine h.mono_rank ⟨rfl, rfl, rfl, rfl⟩ fun hb => ?_
  have hrank : s.rank st ≤ s.depth + 1 := hs.rank_le hb
  have := hl.rank_lt hlt hin
  omega

end Sound

end Compiler

end LatencyOS
