import LatencyOS.Compiler.Discipline.Session

/-!
# Rules of the discipline

`Keeps` says that a computation keeps the discipline of a session; `Moves`, `Steps` and
`Advances` add that it consumes tokens.  The rules are instances: for sequencing, branches and
loops here, and one for each function of the compiler, so that a function is dealt with by its
parts.
-/

namespace LatencyOS

namespace Compiler

variable {s : Session} {pend : List ℕ} {st st' : CompilerState} {α β σ : Type}

/-- A computation keeps the discipline. -/
class Keeps (s : Session) (p : CompilerM α) : Prop where
  runs : ∀ {pend : List ℕ} {st : CompilerState}, Sound s pend st →
    s.Runs p (fun _ st' => Sound s pend st' ∧ Later st st') st

/-- A computation keeps the discipline and consumes a token. -/
class Moves (s : Session) (p : CompilerM α) : Prop where
  runs : ∀ {pend : List ℕ} {st : CompilerState}, Sound s pend st →
    s.Runs p (fun _ st' => Sound s pend st' ∧ Later st st' ∧ st.current < st'.current) st

/-- A computation keeps the discipline and consumes a token if there is one. -/
class Steps (s : Session) (p : CompilerM α) : Prop where
  keeps : Keeps s p
  runs : ∀ {pend : List ℕ} {st : CompilerState}, Sound s pend st → st.current < s.tokens.length →
    s.Runs p (fun _ st' => Sound s pend st' ∧ Later st st' ∧ st.current < st'.current) st

/-- A token that lies in the source when the tokens of the session do. -/
class IsTok (s : Session) (tok : Token) : Prop where
  le : s.Valid → tok.start + tok.len ≤ s.src.length

/-- A token of the session, bundled: instance search forgets a hypothesis that the goal does not
mention, but not a value. -/
abbrev Session.Tok (s : Session) : Type := { tok : Token // IsTok s tok }

instance isTok_val (tok : s.Tok) : IsTok s tok.val := tok.2

/-- A computation keeps the discipline and answers with a token of the session. -/
class Reads (s : Session) (p : CompilerM Token) : Prop where
  runs : ∀ {pend : List ℕ} {st : CompilerState}, Sound s pend st →
    s.Runs p (fun tok st' => IsTok s tok ∧ Sound s pend st' ∧ Later st st') st

/-- The step of a loop keeps the discipline, and consumes a token when the loop goes on. -/
class Advances (s : Session) (p : CompilerM (ForInStep σ)) : Prop where
  runs : ∀ {pend : List ℕ} {st : CompilerState}, Sound s pend st →
    s.Runs p (fun r st' => Sound s pend st' ∧ Later st st' ∧
      ∀ b, r = .yield b → st.current < s.tokens.length ∧ st.current < st'.current) st

/-- A condition that is decided by looking at it. -/
class Obvious (p : Prop) : Prop where
  holds : p

instance obvious_true : Obvious True := ⟨trivial⟩

/-- The opcodes of instructions that are no jumps, call no native function by its number and
neither open nor close a deadline block. -/
@[reducible] def PlainOp : Opcode → Prop
  | .jmp | .jz | .jnz | .call | .callNat | .withinStart | .withinEnd => False
  | _ => True

theorem PlainOp.notMem {op : Opcode} (h : PlainOp op) : op ∉ jumpOps := by
  cases op <;> first | exact h.elim | decide

theorem PlainOp.nesting {op : Opcode} (h : PlainOp op) : op.nesting = 0 := by
  cases op <;> first | exact h.elim | rfl

theorem PlainOp.ne_callNat {op : Opcode} (h : PlainOp op) : op ≠ .callNat := by
  rintro rfl
  exact h

/-- The kinds of token that stand before the end of the buffer. -/
@[reducible] def NotEof : TokenKind → Prop
  | .eof => False
  | _ => True

theorem NotEof.ne {k : TokenKind} (h : NotEof k) : k ≠ .eof := by
  rintro rfl
  exact h

/-! ## Consequence -/

theorem Moves.keeps {p : CompilerM α} (h : Moves s p) : Keeps s p :=
  ⟨fun hs => (h.runs hs).mono fun _ _ h => ⟨h.1, h.2.1⟩⟩

theorem Moves.steps {p : CompilerM α} (h : Moves s p) : Steps s p :=
  ⟨h.keeps, fun hs _ => h.runs hs⟩

theorem Reads.keeps {p : CompilerM Token} (h : Reads s p) : Keeps s p :=
  ⟨fun hs => (h.runs hs).mono fun _ _ h => h.2⟩

/-! ## Structure -/

instance keeps_pure (a : α) : Keeps s (Pure.pure a) := ⟨fun hs => ⟨hs, .refl _⟩⟩

instance keeps_throw (e : CompileError) : Keeps s (Prog.throw (.error e) : CompilerM α) :=
  ⟨fun _ => ⟨fun _ => nofun, fun _ => nofun⟩⟩

theorem Keeps.bind {p : CompilerM α} {f : α → CompilerM β} (hp : Keeps s p)
    (hf : ∀ a, Keeps s (f a)) : Keeps s (p >>= f) := by
  refine ⟨fun hs => Prog.Wp.bind ((hp.runs hs).mono fun a t ht => ?_)⟩
  exact ((hf a).runs ht.1).mono fun _ _ h => ⟨h.1, ht.2.trans h.2⟩

instance keeps_bind {p : CompilerM α} {f : α → CompilerM β} [hp : Keeps s p]
    [hf : ∀ a, Keeps s (f a)] : Keeps s (p >>= f) := hp.bind hf

theorem Reads.bind {p : CompilerM Token} {f : Token → CompilerM β} (hp : Reads s p)
    (hf : ∀ tok, IsTok s tok → Keeps s (f tok)) : Keeps s (p >>= f) := by
  refine ⟨fun hs => Prog.Wp.bind ((hp.runs hs).mono fun a t ht => ?_)⟩
  exact ((hf a ht.1).runs ht.2.1).mono fun _ _ h => ⟨h.1, ht.2.2.trans h.2⟩

instance (priority := 2000) keeps_bind_reads {p : CompilerM Token} {f : Token → CompilerM β}
    [hp : Reads s p] [hf : ∀ tok : s.Tok, Keeps s (f tok.val)] : Keeps s (p >>= f) :=
  hp.bind fun tok htok => hf ⟨tok, htok⟩

instance keeps_ite {c : Prop} [Decidable c] {p q : CompilerM α} [hp : Keeps s p]
    [hq : Keeps s q] : Keeps s (if c then p else q) := by
  split
  · exact hp
  · exact hq

instance reads_bind {p : CompilerM α} {f : α → CompilerM Token} [hp : Keeps s p]
    [hf : ∀ a, Reads s (f a)] : Reads s (p >>= f) := by
  refine ⟨fun hs => Prog.Wp.bind ((hp.runs hs).mono fun a t ht => ?_)⟩
  exact ((hf a).runs ht.1).mono fun _ _ h => ⟨h.1, h.2.1, ht.2.trans h.2.2⟩

instance (priority := 2000) reads_bind_reads {p : CompilerM Token} {f : Token → CompilerM Token}
    [hp : Reads s p] [hf : ∀ tok : s.Tok, Reads s (f tok.val)] : Reads s (p >>= f) := by
  refine ⟨fun hs => Prog.Wp.bind ((hp.runs hs).mono fun a t ht => ?_)⟩
  exact ((hf ⟨a, ht.1⟩).runs ht.2.1).mono fun _ _ h => ⟨h.1, h.2.1, ht.2.2.trans h.2.2⟩

instance reads_pure (tok : Token) [h : IsTok s tok] : Reads s (Pure.pure tok) :=
  ⟨fun hs => ⟨h, hs, .refl _⟩⟩

/-! ### Consuming tokens -/

instance steps_bind_left {p : CompilerM α} {f : α → CompilerM β} [hp : Steps s p]
    [hf : ∀ a, Keeps s (f a)] : Steps s (p >>= f) := by
  refine ⟨hp.keeps.bind hf, fun hs hin => ?_⟩
  refine Prog.Wp.bind ((hp.runs hs hin).mono fun a t ht => ?_)
  refine ((hf a).runs ht.1).mono fun _ _ h => ⟨h.1, ht.2.1.trans h.2, ?_⟩
  exact Nat.lt_of_lt_of_le ht.2.2 h.2.current_le

/-- Either the first part has moved the cursor, or the second part still finds a token. -/
theorem Steps.after {p : CompilerM β} (hp : Steps s p) {st₀ : CompilerState}
    (hs : Sound s pend st) (hl : Later st₀ st) (hin : st₀.current < s.tokens.length) :
    s.Runs p (fun _ st' => Sound s pend st' ∧ Later st₀ st' ∧ st₀.current < st'.current) st := by
  by_cases hlt : st₀.current < st.current
  · refine (hp.keeps.runs hs).mono fun _ _ h => ⟨h.1, hl.trans h.2, ?_⟩
    exact Nat.lt_of_lt_of_le hlt h.2.current_le
  · have heq : st.current = st₀.current := Nat.le_antisymm (Nat.not_lt.mp hlt) hl.current_le
    refine (hp.runs hs (heq ▸ hin)).mono fun _ _ h => ⟨h.1, hl.trans h.2.1, ?_⟩
    exact heq ▸ h.2.2

instance (priority := low) steps_bind_right {p : CompilerM α} {f : α → CompilerM β}
    [hp : Keeps s p] [hf : ∀ a, Steps s (f a)] : Steps s (p >>= f) := by
  refine ⟨hp.bind fun a => (hf a).keeps, fun hs hin => ?_⟩
  exact Prog.Wp.bind ((hp.runs hs).mono fun a _ ht => (hf a).after ht.1 ht.2 hin)

theorem Reads.bind_steps {p : CompilerM Token} {f : Token → CompilerM β} (hr : Reads s p)
    (hp : Steps s p) (hf : ∀ tok, IsTok s tok → Keeps s (f tok)) : Steps s (p >>= f) := by
  refine ⟨hr.bind hf, fun hs hin => Prog.Wp.bind ?_⟩
  refine ((hp.runs hs hin).and (hr.runs hs)).mono fun a t ht => ?_
  refine ((hf a ht.2.1).runs ht.1.1).mono fun _ _ h => ⟨h.1, ht.1.2.1.trans h.2, ?_⟩
  exact Nat.lt_of_lt_of_le ht.1.2.2 h.2.current_le

instance (priority := 2000) steps_bind_reads {p : CompilerM Token} {f : Token → CompilerM β}
    [hr : Reads s p] [hp : Steps s p] [hf : ∀ tok : s.Tok, Keeps s (f tok.val)] :
    Steps s (p >>= f) :=
  hr.bind_steps hp fun tok htok => hf ⟨tok, htok⟩

instance steps_ite {c : Prop} [Decidable c] {p q : CompilerM α} [hp : Steps s p]
    [hq : Steps s q] : Steps s (if c then p else q) := by
  split
  · exact hp
  · exact hq

/-! ### Loops -/

instance advances_done {p : CompilerM σ} [hp : Keeps s p] :
    Advances s (p >>= fun a => Pure.pure (ForInStep.done a)) := by
  refine ⟨fun hs => Prog.Wp.bind ((hp.runs hs).mono fun a t ht => ?_)⟩
  exact ⟨ht.1, ht.2, fun _ h => nomatch h⟩

instance advances_pure (a : σ) : Advances s (Pure.pure (ForInStep.done a)) :=
  ⟨fun hs => ⟨hs, .refl _, fun _ h => nomatch h⟩⟩

theorem Advances.keeps {p : CompilerM (ForInStep σ)} (h : Advances s p) : Keeps s p :=
  ⟨fun hs => (h.runs hs).mono fun _ _ h => ⟨h.1, h.2.1⟩⟩

/-- The value a loop step leaves. -/
def stepValue : ForInStep σ → σ
  | .done a => a
  | .yield a => a

/-- A loop whose steps consume tokens ends before its bound. -/
theorem runs_loop {f : σ → CompilerM (ForInStep σ)} {I : σ → CompilerState → Prop}
    (hf : ∀ a st, I a st → s.Runs (f a) (fun r st' => I (stepValue r) st' ∧
      ∀ b, r = .yield b → st.current < s.tokens.length ∧ st.current < st'.current) st)
    (n : ℕ) (a : σ) (hI : I a st) 
    (hn : s.bounded = true → s.tokens.length - st.current < n) :
    s.Runs (loop n a f) I st := by
  induction n generalizing a st with
  | zero => exact ⟨fun hb => absurd (hn hb) (Nat.not_lt_zero _), fun _ => nofun⟩
  | succ n ih =>
    refine Prog.Wp.bind ((hf a st hI).mono fun r t ht => ?_)
    cases r with
    | done b => exact ht.1
    | yield b =>
      obtain ⟨hin, hlt⟩ := ht.2 b rfl
      exact ih b ht.1 fun hb => by have := hn hb; omega

/-- The jumps pending may depend on the value of a loop. -/
theorem runs_loop_pending {f : σ → CompilerM (ForInStep σ)} (pendOf : σ → List ℕ)
    (hf : ∀ a st, Sound s (pendOf a) st →
      s.Runs (f a) (fun r st' => Sound s (pendOf (stepValue r)) st' ∧ Later st st' ∧
        ∀ b, r = .yield b → st.current < s.tokens.length ∧ st.current < st'.current) st)
    (n : ℕ) (a : σ) (hs : Sound s (pendOf a) st) 
    (hn : s.bounded = true → s.tokens.length - st.current < n) :
    s.Runs (loop n a f) (fun b st' => Sound s (pendOf b) st' ∧ Later st st') st := by
  refine runs_loop (I := fun b st' => Sound s (pendOf b) st' ∧ Later st st') ?_ n a
    ⟨hs, .refl _⟩ hn
  intro b t ht
  exact (hf b t ht.1).mono fun _ _ h => ⟨⟨h.1, ht.2.trans h.2.1⟩, h.2.2⟩

/-- A loop bound of the session. -/
class LoopBound (s : Session) (n : ℕ) : Prop where
  eq : n = s.fuel

instance loopBound_fuel : LoopBound s s.fuel := ⟨rfl⟩

theorem LoopBound.lt {n : ℕ} (h : LoopBound s n) (current : ℕ) :
    s.bounded = true → s.tokens.length - current < n := by
  intro hb
  have henough := s.enough hb
  rw [h.eq]
  omega

theorem Keeps.loop {f : σ → CompilerM (ForInStep σ)} (hf : ∀ a, Advances s (f a)) {n : ℕ}
    [hn : LoopBound s n] (a : σ) : Keeps s (loop n a f) :=
  ⟨fun hs => runs_loop_pending _ (fun a _ hs => (hf a).runs hs) n a hs (hn.lt _)⟩

instance keeps_loop {f : σ → CompilerM (ForInStep σ)} [hf : ∀ a, Advances s (f a)] {n : ℕ}
    [LoopBound s n] (a : σ) : Keeps s (loop n a f) := .loop hf a

/-! ### Recursive calls -/

/-- The functions one level down keep the discipline, in every stretch of code; a statement may
only be called while one is compiled. -/
class Calls (s : Session) (r : Rec) : Prop where
  fuel : r.fuel = s.fuel
  expression : ∀ before level dst, Moves (s.stretch before level).toExpression (r.expression dst)
  ternary : ∀ before level dst, Moves (s.stretch before level).toExpression (r.ternary dst)
  primary : ∀ before level dst, Moves (s.stretch before level).toExpression (r.primary dst)
  statement : ∀ before level, Moves (s.stretch before level).toStatement r.statement

/-- A statement is being compiled. -/
class InStatement (s : Session) : Prop where
  eq : s.toStatement = s

/-- What may be called in an expression may be called in a statement. -/
theorem Moves.of_expression {p : CompilerM α} (hp : Moves s.toExpression p) : Moves s p := by
  refine ⟨fun hs => (hp.runs hs.toExpression).mono fun _ _ h => ?_⟩
  exact ⟨h.1.of_later hs h.2.1 s.sameAs_toExpression, h.2⟩

section Calls

variable {r : Rec} [h : Calls s r]

instance loopBound_rec : LoopBound s r.fuel := ⟨h.fuel⟩

theorem Calls.moves_inExpression (dst : ℕ) : Moves s.toExpression (r.expression dst) :=
  h.expression s.before s.level dst

theorem Calls.moves_expression (dst : ℕ) : Moves s (r.expression dst) :=
  (h.moves_inExpression dst).of_expression

instance keeps_expression_rec (dst : ℕ) : Keeps s (r.expression dst) :=
  (h.moves_expression dst).keeps

instance steps_expression_rec (dst : ℕ) : Steps s (r.expression dst) :=
  (h.moves_expression dst).steps

theorem Calls.moves_ternary (dst : ℕ) : Moves s.toExpression (r.ternary dst) :=
  h.ternary s.before s.level dst

instance keeps_ternary_rec (dst : ℕ) : Keeps s (r.ternary dst) :=
  (h.moves_ternary dst).of_expression.keeps

theorem Calls.moves_primary (dst : ℕ) : Moves s.toExpression (r.primary dst) :=
  h.primary s.before s.level dst

instance keeps_primary_rec (dst : ℕ) : Keeps s (r.primary dst) :=
  (h.moves_primary dst).of_expression.keeps

theorem Calls.moves_inStatement : Moves s.toStatement r.statement :=
  h.statement s.before s.level

theorem Calls.moves_statement [hi : InStatement s] : Moves s r.statement := by
  have hmoves := h.moves_inStatement
  rw [hi.eq] at hmoves
  exact hmoves

instance keeps_statement_rec [InStatement s] : Keeps s r.statement := h.moves_statement.keeps

instance steps_statement_rec [InStatement s] : Steps s r.statement := h.moves_statement.steps

instance calls_toStatement : Calls s.toStatement r :=
  ⟨h.fuel, h.expression, h.ternary, h.primary, h.statement⟩

instance calls_toExpression : Calls s.toExpression r :=
  ⟨h.fuel, h.expression, h.ternary, h.primary, h.statement⟩

instance calls_stretch (before : List UInt8) (level : ℤ) : Calls (s.stretch before level) r :=
  ⟨h.fuel, h.expression, h.ternary, h.primary, h.statement⟩

instance inStatement_toStatement : InStatement s.toStatement := ⟨rfl⟩

instance inStatement_stretch [hi : InStatement s] (before : List UInt8) (level : ℤ) :
    InStatement (s.stretch before level) := by
  refine ⟨?_⟩
  rw [show (s.stretch before level).toStatement = s.toStatement.stretch before level from rfl,
    hi.eq]

end Calls

end Compiler

end LatencyOS
