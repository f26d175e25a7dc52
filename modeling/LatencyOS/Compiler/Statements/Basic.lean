import LatencyOS.Compiler.Bindings
import LatencyOS.Compiler.Grammar
import LatencyOS.Compiler.Places
import LatencyOS.Compiler.Registers
import LatencyOS.Source.Stmt

/-!
# What the compilation of a statement keeps

A statement adds code and constants, hands back the temporaries it took and leaves every known
variable where it is.  Around its code it keeps books: types and mutability of variables,
ownership of handles, what the last expression was.
-/

namespace LatencyOS

/-!
## The grammar of integer statements

Which tokens are a statement over integer variables, or a list of statements.  Parentheses
around a condition, a type of machine words and the `@` of a loop are optional, as they are for
the compiler.
-/

variable (tok : ℕ → Token) (name : Token → Option (List UInt8))

/-- A condition, in parentheses or not, up to the token behind it. -/
inductive Guarded : ℕ → Expr → ℕ → Prop
  | paren {i j : ℕ} {c : Expr} (h : (tok i).kind = .lParen) (hc : Syn tok name 11 (i + 1) c j)
    (hj : (tok j).kind = .rParen) : Guarded i c (j + 1)
  | bare {i j : ℕ} {c : Expr} (h : (tok i).kind ≠ .lParen) (hc : Syn tok name 11 i c j)
    (hf : Follows (tok j).kind) (hj : (tok j).kind ≠ .rParen) : Guarded i c j

/-- The position behind an optional token. -/
def past (k : TokenKind) (i : ℕ) : ℕ := if (tok i).kind = k then i + 1 else i

/-- The name of a declared variable and its type, if it has one, up to the token behind. -/
structure Declared (i : ℕ) (x : List UInt8) (j : ℕ) : Prop where
  ident : (tok (past tok .mut i)).kind = .varIdent
  name_eq : name (tok (past tok .mut i)) = some x
  stop : (tok (past tok .mut i + 1)).kind ≠ .colon ∧ j = past tok .mut i + 1 ∨
    (tok (past tok .mut i + 1)).kind = .colon ∧
      Compiler.isIntType (tok (past tok .mut i + 2)).kind = true ∧ j = past tok .mut i + 3

/-- The sign of an assignment. -/
def IsAssign (k : TokenKind) : Prop := k = .colonEq ∨ k = .eq

/-- The value of a number or a time. -/
def TokenKind.literal : TokenKind → Option Word64
  | .number n => some n
  | .timeLiteral ns => some ns
  | _ => none

/-- The variable of a counting loop and its range, up to the token behind. -/
structure Ranged (i : ℕ) (x : List UInt8) (lo hi : Word64) (j : ℕ) : Prop where
  ident : (tok (past tok .lParen i)).kind = .varIdent
  name_eq : name (tok (past tok .lParen i)) = some x
  isIn : (tok (past tok .lParen i + 1)).kind = .in
  lo_eq : (tok (past tok .lParen i + 2)).kind.literal = some lo
  dots : (tok (past tok .lParen i + 3)).kind = .dotDot
  hi_eq : (tok (past tok .lParen i + 4)).kind.literal = some hi
  stop : (tok i).kind ≠ .lParen ∧ j = past tok .lParen i + 5 ∨
    (tok i).kind = .lParen ∧ (tok (past tok .lParen i + 5)).kind = .rParen ∧
      j = past tok .lParen i + 6

/-- One statement, or statements up to a brace or the end. -/
inductive Part
  | one
  | many

/-- The tokens from a position on, up to another, are a statement. -/
inductive StmtSyn : Part → ℕ → Stmt → ℕ → Prop
  | nil {i : ℕ} (h : (tok i).kind = .rBrace ∨ (tok i).kind = .eof) : StmtSyn .many i .skip i
  | cons {i j k : ℕ} {a b : Stmt} (hi : (tok i).kind ≠ .rBrace) (hi' : (tok i).kind ≠ .eof)
    (ha : StmtSyn .one i a j) (hb : StmtSyn .many j b k) : StmtSyn .many i (.seq a b) k
  | empty {i : ℕ} (h : (tok i).kind = .semi) : StmtSyn .one i .skip (i + 1)
  | declare {i j : ℕ} {x : List UInt8} (h : (tok i).kind = .let)
    (hd : Declared tok name (i + 1) x j) (hj : (tok j).kind = .semi) :
    StmtSyn .one i (.declare x) (j + 1)
  | init {i j k : ℕ} {x : List UInt8} {e : Expr} (h : (tok i).kind = .let)
    (hd : Declared tok name (i + 1) x j) (hs : IsAssign (tok j).kind)
    (he : Syn tok name 11 (j + 1) e k) (hk : (tok k).kind = .semi) :
    StmtSyn .one i (.assign x e) (k + 1)
  | assign {i j : ℕ} {x : List UInt8} {e : Expr} (h : (tok i).kind = .varIdent)
    (hx : name (tok i) = some x) (hs : IsAssign (tok (i + 1)).kind)
    (he : Syn tok name 11 (i + 2) e j) (hj : (tok j).kind = .semi) :
    StmtSyn .one i (.assign x e) (j + 1)
  | update {i j : ℕ} {x : List UInt8} {add : Bool} {e : Expr} (h : (tok i).kind = .varIdent)
    (hx : name (tok i) = some x)
    (hs : (tok (i + 1)).kind = if add then TokenKind.plusEq else TokenKind.minusEq)
    (he : Syn tok name 11 (i + 2) e j) (hj : (tok j).kind = .semi) :
    StmtSyn .one i (.update x add e) (j + 1)
  | assert {i j : ℕ} {c : Expr} (h : (tok i).kind = .atAssert) (hc : Guarded tok name (i + 1) c j)
    (hj : (tok j).kind = .semi) : StmtSyn .one i (.assert c) (j + 1)
  | ifThen {i j k : ℕ} {c : Expr} {a : Stmt} (h : (tok i).kind = .if)
    (hc : Guarded tok name (i + 1) c j) (hj : (tok j).kind = .lBrace)
    (ha : StmtSyn .many (j + 1) a k) (hk : (tok k).kind = .rBrace)
    (he : (tok (k + 1)).kind ≠ .else) : StmtSyn .one i (.ifThen c a) (k + 1)
  | ifElse {i j k m : ℕ} {c : Expr} {a b : Stmt} (h : (tok i).kind = .if)
    (hc : Guarded tok name (i + 1) c j) (hj : (tok j).kind = .lBrace)
    (ha : StmtSyn .many (j + 1) a k) (hk : (tok k).kind = .rBrace)
    (he : (tok (k + 1)).kind = .else) (hl : (tok (k + 2)).kind = .lBrace)
    (hb : StmtSyn .many (k + 3) b m) (hm : (tok m).kind = .rBrace) :
    StmtSyn .one i (.ifElse c a b) (m + 1)
  | elseIf {i j k m : ℕ} {c : Expr} {a b : Stmt} (h : (tok i).kind = .if)
    (hc : Guarded tok name (i + 1) c j) (hj : (tok j).kind = .lBrace)
    (ha : StmtSyn .many (j + 1) a k) (hk : (tok k).kind = .rBrace)
    (he : (tok (k + 1)).kind = .else) (hl : (tok (k + 2)).kind = .if)
    (hb : StmtSyn .one (k + 2) b m) : StmtSyn .one i (.ifElse c a b) m
  | loop {i j k : ℕ} {c : Expr} {a : Stmt} (h : (tok i).kind = .atWhile ∨ (tok i).kind = .while)
    (hc : Guarded tok name (i + 1) c j) (hj : (tok j).kind = .lBrace)
    (ha : StmtSyn .many (j + 1) a k) (hk : (tok k).kind = .rBrace) :
    StmtSyn .one i (.loop c a) (k + 1)
  | count {i j k : ℕ} {x : List UInt8} {lo hi : Word64} {a : Stmt}
    (h : (tok i).kind = .for ∨ (tok i).kind = .atFor) (hr : Ranged tok name (i + 1) x lo hi j)
    (hj : (tok j).kind = .lBrace) (ha : StmtSyn .many (j + 1) a k)
    (hk : (tok k).kind = .rBrace) : StmtSyn .one i (.count x lo hi a) (k + 1)

/-- The tokens an expression can start with. -/
def TokenKind.opens : TokenKind → Bool
  | .number _ | .varIdent | .lParen | .minus | .exclamation => true
  | _ => false

variable {tok name}

theorem opens_of_syn {h i j : ℕ} {e : Expr} (hsyn : Syn tok name h i e j) :
    (tok i).kind.opens = true := by
  induction hsyn with
  | num hk => rw [hk]; rfl
  | var hk => rw [hk]; rfl
  | paren hk => rw [hk]; rfl
  | neg hk => rw [hk]; rfl
  | not hk => rw [hk]; rfl
  | up _ _ ih => exact ih
  | bin _ _ _ ih => exact ih
  | cond _ _ _ _ _ ih => exact ih

/-- An expression of a height is one of every greater height. -/
theorem Syn.lift {h h' i j : ℕ} {e : Expr} (hsyn : Syn tok name h i e j) (hle : h ≤ h')
    (hh : h' ≤ 11) : Syn tok name h' i e j := by
  induction h', hle using Nat.le_induction with
  | base => exact hsyn
  | succ m _ ih => exact .up hh (ih (Nat.le_of_succ_le hh))

/-- A number before a semicolon is the whole expression. -/
theorem num_of_syn {h i j : ℕ} {e : Expr} {n : Word64} (hsyn : Syn tok name h i e j)
    (hn : (tok i).kind = .number n) (hsemi : (tok (i + 1)).kind = .semi) :
    e = .num n ∧ j = i + 1 := by
  induction hsyn with
  | num hk =>
    rw [hk] at hn
    exact ⟨by rw [TokenKind.number.inj hn], rfl⟩
  | var hk => rw [hk] at hn; cases hn
  | paren hk => rw [hk] at hn; cases hn
  | neg hk => rw [hk] at hn; cases hn
  | not hk => rw [hk] at hn; cases hn
  | up _ _ ih => exact ih hn hsemi
  | @bin _ _ _ op _ _ _ hop _ iha =>
    obtain ⟨-, rfl⟩ := iha hn hsemi
    rw [hsemi] at hop
    cases op <;> cases hop
  | cond _ hq _ _ _ ihc =>
    obtain ⟨-, rfl⟩ := ihc hn hsemi
    rw [hsemi] at hq
    cases hq

end LatencyOS

namespace LatencyOS

namespace CompilerState

variable {a b c st st' : CompilerState}

/-- How the state grows while a statement is compiled. -/
structure Extends (st st' : CompilerState) : Prop where
  code_le : st.code.length ≤ st'.code.length
  code : ∀ i < st.code.length, st'.code[i]? = st.code[i]?
  consts : st.constPool <+: st'.constPool
  log : st.allocLog <+: st'.allocLog
  temps : st'.tempUsed = st.tempUsed
  tok_eq : st'.tok = st.tok
  text_eq : st'.text? = st.text?
  count_le : st.varCount ≤ st'.varCount
  place : ∀ {x : List UInt8} {p : Place}, st.place x = some p → st'.place x = some p

/-- A temporary was handed back. -/
theorem place_freeTemp (st : CompilerState) (r : ℕ) (x : List UInt8) :
    (st.freeTemp r).place x = st.place x := by
  rw [CompilerState.freeTemp]
  split <;> rfl

theorem place_emitted (st : CompilerState) (op : Opcode) (rd rs1 rs2 : ℕ) (x : List UInt8) :
    (st.emitted op rd rs1 rs2).place x = st.place x := rfl

/-- An instruction is emitted behind the code. -/
theorem getElem?_emitted {st : CompilerState} {op : Opcode} {rd rs1 rs2 q : ℕ}
    (hq : q < st.code.length) : (st.emitted op rd rs1 rs2).code[q]? = st.code[q]? := by
  rw [emitted, List.getElem?_append_left hq]

namespace Extends

theorem refl (st : CompilerState) : Extends st st :=
  ⟨Nat.le_refl _, fun _ _ => rfl, List.prefix_rfl, List.prefix_rfl, rfl, rfl, rfl, Nat.le_refl _,
    id⟩

theorem trans (h₁ : Extends a b) (h₂ : Extends b c) : Extends a c where
  code_le := Nat.le_trans h₁.code_le h₂.code_le
  code := fun i hi => (h₂.code i (Nat.lt_of_lt_of_le hi h₁.code_le)).trans (h₁.code i hi)
  consts := h₁.consts.trans h₂.consts
  log := h₁.log.trans h₂.log
  temps := h₂.temps.trans h₁.temps
  tok_eq := h₂.tok_eq.trans h₁.tok_eq
  text_eq := h₂.text_eq.trans h₁.text_eq
  count_le := Nat.le_trans h₁.count_le h₂.count_le
  place := fun hx => h₂.place (h₁.place hx)

theorem of_segment (h : Segment a b) : Extends a b where
  code_le := h.grows.code_le
  code := h.grows.code
  consts := h.grows.consts
  log := h.grows.log
  temps := h.temps
  tok_eq := h.grows.tok
  text_eq := h.grows.text?
  count_le := h.grows.count_le
  place := h.grows.place_of_some

theorem isSome (h : Extends a b) {x : List UInt8} (hx : (a.place x).isSome) :
    (b.place x).isSome := by
  obtain ⟨p, hp⟩ := Option.isSome_iff_exists.mp hx
  rw [h.place hp]
  rfl

/-- A place known before stays the place. -/
theorem place_eq (h : Extends a b) {x : List UInt8} {p : Place} (hx : (a.place x).isSome)
    (hp : b.place x = some p) : a.place x = some p := by
  obtain ⟨q, hq⟩ := Option.isSome_iff_exists.mp hx
  rw [hq, ← h.place hq, hp]

/-- A jump behind the old code may be patched. -/
theorem patchImm16 (h : Extends a b) {pos : ℕ} (hpos : a.code.length ≤ pos) (imm : ℕ) :
    Extends a (b.patchImm16 pos imm) where
  code_le := by
    rw [length_patchImm16]
    exact h.code_le
  code := fun i hi => by
    rw [getElem?_patchImm16_of_ne (.inl (by omega))]
    exact h.code i hi
  consts := by
    rw [patchImm16_constPool]
    exact h.consts
  log := by
    rw [patchImm16_allocLog]
    exact h.log
  temps := by
    rw [CompilerState.patchImm16]
    split <;> exact h.temps
  tok_eq := by
    rw [CompilerState.patchImm16]
    split <;> exact h.tok_eq
  text_eq := by
    rw [CompilerState.patchImm16]
    split <;> exact h.text_eq
  count_le := by
    rw [CompilerState.patchImm16]
    split <;> exact h.count_le
  place := fun hx => by
    rw [patchImm16_place]
    exact h.place hx

/-- A temporary is taken for a while and handed back. -/
theorem bracket {i : ℕ} (hi : st.freeSlot = some i) (h : Extends (st.take i) c) :
    Extends st (c.freeTemp (15 - i)) := by
  obtain ⟨hi8, hused⟩ := freeSlot_eq_some hi
  refine ⟨?_, ?_, ?_, ?_, ?_, ?_, ?_, ?_, fun hx => ?_⟩
  · rw [freeTemp_code]
    exact h.code_le
  · rw [freeTemp_code]
    exact h.code
  · rw [freeTemp_constPool]
    exact h.consts
  · rw [freeTemp_allocLog]
    exact (Grows.take st i).log.trans h.log
  · rw [CompilerState.freeTemp, if_pos (by omega), show 15 - (15 - i) = i by omega]
    change Function.update c.tempUsed i false = st.tempUsed
    rw [h.temps, take, Function.update_idem, ← hused, Function.update_eq_self]
  · rw [CompilerState.freeTemp]
    split <;> exact h.tok_eq
  · rw [CompilerState.freeTemp]
    split <;> exact h.text_eq
  · rw [CompilerState.freeTemp]
    split <;> exact h.count_le
  · rw [place_freeTemp]
    exact h.place hx

/-- What two stretches reach. -/
theorem reaches_trans {n : ℕ} (h₁ : Extends a b) (hlog : b.allocLog <+: c.allocLog)
    (ha : ∀ r ∈ scratch a b, a.Reaches n r) (hb : ∀ r ∈ scratch b c, b.Reaches n r) :
    ∀ r ∈ scratch a c, a.Reaches n r := by
  intro r hr
  rw [scratch_trans h₁.log hlog, List.mem_append] at hr
  rcases hr with hr | hr
  · exact ha r hr
  · exact (hb r hr).congr h₁.temps

end Extends

/-- A machine that holds the code of a whole holds the first part. -/
theorem Holds.first {vm : PX64VM} (h : Holds vm a c) (hbc : Extends b c) : Holds vm a b where
  code := fun i h₁ h₂ =>
    (h.code i h₁ (Nat.lt_of_lt_of_le h₂ hbc.code_le)).trans (hbc.code i h₂)
  consts := hbc.consts.trans h.consts

/-! ## Bookkeeping -/

/-- The parts of the state that bookkeeping leaves alone. -/
def lasting (st : CompilerState) : CompilerState :=
  { st with
    current := 0
    vars := fun i => { st.vars i with isMut := true, enumType := none, fixedScale := none }
    handleStates := fun _ => .unallocated
    info := ⟨none, none, none⟩ }

/-- Only books were kept. -/
def Books (st st' : CompilerState) : Prop := st'.lasting = st.lasting

namespace Books

theorem refl (st : CompilerState) : Books st st := rfl

theorem trans (h₁ : Books a b) (h₂ : Books b c) : Books a c := Eq.trans h₂ h₁

theorem apply {α : Type} (f : CompilerState → α) (hf : ∀ st : CompilerState, f st.lasting = f st)
    (h : Books st st') : f st' = f st := by rw [← hf st', h, hf st]

theorem code (h : Books st st') : st'.code = st.code := h.apply CompilerState.code fun _ => rfl

theorem consts (h : Books st st') : st'.constPool = st.constPool :=
  h.apply CompilerState.constPool fun _ => rfl

theorem log (h : Books st st') : st'.allocLog = st.allocLog :=
  h.apply CompilerState.allocLog fun _ => rfl

theorem freeSlot (h : Books st st') : st'.freeSlot = st.freeSlot :=
  h.apply CompilerState.freeSlot fun _ => rfl

theorem place (h : Books st st') (x : List UInt8) : st'.place x = st.place x :=
  h.apply (fun st => st.place x) fun _ => rfl

theorem scratch (h : Books st st') : CompilerState.scratch st st' = [] := scratch_eq_nil h.log

theorem grown (h : Books st st') : Extends st st' where
  code_le := Nat.le_of_eq (congrArg List.length h.code.symm)
  code := fun i _ => by rw [h.code]
  consts := by
    rewrite [h.consts]
    exact List.prefix_rfl
  log := by
    rewrite [h.log]
    exact List.prefix_rfl
  temps := h.apply CompilerState.tempUsed fun _ => rfl
  tok_eq := h.apply CompilerState.tok fun _ => rfl
  text_eq := h.apply CompilerState.text? fun _ => rfl
  count_le := Nat.le_of_eq (h.apply CompilerState.varCount fun _ => rfl).symm
  place := fun hx => (h.place _).trans hx

/-- One entry changes its types or its mutability. -/
theorem update {q : ℕ} {v : Var} (hv : SameHome v (st.vars q)) :
    Books st { st with vars := Function.update st.vars q v } := by
  have hvars : (fun i => ({ Function.update st.vars q v i with
      isMut := true, enumType := none, fixedScale := none } : Var)) =
      fun i => { st.vars i with isMut := true, enumType := none, fixedScale := none } := by
    funext i
    by_cases hi : i = q
    · subst hi
      simp only [Function.update_self, hv.1, hv.2.1, hv.2.2.1, hv.2.2.2]
    · simp only [Function.update_of_ne hi]
  rw [Books, lasting, lasting]
  simp only [hvars]

/-- Books kept behind the code do not show in the scratch registers. -/
theorem scratch_eq (h : Books b c) : CompilerState.scratch a c = CompilerState.scratch a b :=
  scratch_congr h.log

end Books

/-! ## States without scales, spills and functions -/

/-- No fixed-point scale is around, no variable is spilled, no function is open and no struct
type is declared. -/
structure Simple (st : CompilerState) : Prop where
  scale : st.info.fixedScale = none
  currentFn : st.currentFn = none
  structs : st.decls.structDefs = []
  vars : ∀ i, (st.vars i).fixedScale = none ∧ (st.vars i).spill = false

namespace Simple

theorem new (src : List UInt8) (tokens : List Token) (checks : Bool) :
    Simple (CompilerState.new src tokens checks) := ⟨rfl, rfl, rfl, fun _ => ⟨rfl, rfl⟩⟩

theorem spillOf (h : Simple st) (x : List UInt8) : st.spillOf x = none := by
  simp [CompilerState.spillOf, (h.vars _).2]

theorem scaleOf (h : Simple st) (x : List UInt8) : st.scaleOf x = none := by
  have hparam : st.paramOf x = none := by simp [CompilerState.paramOf, h.currentFn]
  simp [CompilerState.scaleOf, hparam, (h.vars _).1]

theorem clean (h : Simple st) : st.Clean := fun i _ => ⟨(h.vars i).1, fun _ => (h.vars i).2⟩

theorem ready (h : Simple st) {e : Expr} (hvars : ∀ x ∈ e.vars, x.length ≤ 16) :
    Compiler.Ready e st where
  vars := fun x hx => ⟨h.scaleOf x, .inr ⟨hvars x hx, h.clean⟩⟩
  unscaled := by
    rw [h.scale]
    exact e.unscaled_none

theorem grows (h : Simple st) (hg : Grows st st') (hscale : st'.info.fixedScale = none) :
    Simple st' where
  scale := hscale
  currentFn := hg.currentFn.trans h.currentFn
  structs := by
    rw [hg.decls]
    exact h.structs
  vars := fun i => by
    by_cases hi : i < st.varCount ∨ st'.varCount ≤ i
    · rw [hg.vars i hi]
      exact h.vars i
    · rw [not_or, Nat.not_lt, Nat.not_le] at hi
      exact (hg.fresh i hi.1 hi.2).symm

theorem compiled (h : Simple st) {e : Expr} {dst : ℕ} {v : Option Word64}
    (hc : Compiler.Compiled e dst v st st') : Simple st' :=
  h.grows hc.segment.grows (by rw [hc.scale, h.scale, Expr.scaleAfter_none])

/-- Books that set no scale. -/
theorem books (h : Simple st) (hb : Books st st') (hscale : st'.info.fixedScale = none)
    (hvars : ∀ i, (st'.vars i).fixedScale = none) : Simple st' where
  scale := hscale
  currentFn := (hb.apply CompilerState.currentFn fun _ => rfl).trans h.currentFn
  structs := (hb.apply (fun st => st.decls.structDefs) fun _ => rfl).trans h.structs
  vars := fun i => ⟨hvars i, by
    have hspill : (st'.vars i).spill = (st.vars i).spill :=
      hb.apply (fun st => (st.vars i).spill) fun _ => rfl
    rw [hspill]
    exact (h.vars i).2⟩

end Simple

end CompilerState

end LatencyOS
