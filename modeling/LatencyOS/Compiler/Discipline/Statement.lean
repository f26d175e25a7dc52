import LatencyOS.Compiler.Discipline.Expression

/-!
# The discipline of statements

Loops, branches, declarations, assignments and `match`.  A contract clause is compiled again
from its first token; the cursor is put back behind it, so the statement still moves forward.
-/

namespace LatencyOS

namespace Compiler

-- the size of an instance doubles with every statement of a block
set_option synthInstance.maxSize 1000000000000
-- token kinds have many constructors, and `split` looks at all of them
set_option maxRecDepth 10000

variable {s : Session} {pend : List ℕ} {st st' : CompilerState} {α β σ : Type}

/-- A statement pays for a recursion level with its first token, which is there. -/
class Begins (s : Session) (p : CompilerM α) : Prop where
  runs : ∀ {pend : List ℕ} {st : CompilerState}, Sound s.up pend st →
    st.current < s.tokens.length →
    s.Runs p (fun _ st' => Sound s.up pend st' ∧ Later st st' ∧ st.current < st'.current) st

theorem Begins.advance {f : Token → CompilerM α} (hf : ∀ tok, IsTok s tok → Keeps s (f tok)) :
    Begins s (advance >>= f) := by
  refine ⟨fun {pend st} hs hin => Prog.Wp.bind ((runs_advance hs).mono fun tok t ht => ?_)⟩
  obtain ⟨htok, hsound, hlater, hmoved⟩ := ht
  have hisTok : IsTok s tok := ⟨fun hv => htok ▸ (hs.isTok 0).le hv⟩
  refine ((hf tok hisTok).runs (hsound.of_up hs hlater (hmoved hin) hin)).mono fun _ _ h => ?_
  exact ⟨h.1.up, hlater.trans h.2, Nat.lt_of_lt_of_le (hmoved hin) h.2.current_le⟩

instance begins_advance {f : Token → CompilerM α} [hf : ∀ tok : s.Tok, Keeps s (f tok.val)] :
    Begins s (advance >>= f) := .advance fun tok htok => hf ⟨tok, htok⟩

instance begins_ite {c : Prop} [Decidable c] {p q : CompilerM α} [hp : Begins s p]
    [hq : Begins s q] : Begins s (if c then p else q) := by
  split
  · exact hp
  · exact hq

/-- The rest of a statement behind its first token, which it may take back. -/
class Rewinds (s : Session) (p : CompilerM α) : Prop where
  runs : ∀ {pend : List ℕ} {st t : CompilerState}, Sound s.up pend st → Sound s pend t →
    Later st t → st.current < t.current →
    s.Runs p (fun _ st' => Sound s.up pend st' ∧ Later st st' ∧ st.current < st'.current) t

instance rewinds_of_keeps {p : CompilerM α} [hp : Keeps s p] : Rewinds s p := by
  refine ⟨fun _ ht hl hlt => (hp.runs ht).mono fun _ _ h => ⟨h.1.up, hl.trans h.2, ?_⟩⟩
  exact Nat.lt_of_lt_of_le hlt h.2.current_le

theorem Rewinds.bind {p : CompilerM α} {f : α → CompilerM β} (hp : Keeps s p)
    (hf : ∀ a, Rewinds s (f a)) : Rewinds s (p >>= f) := by
  refine ⟨fun hs ht hl hlt => Prog.Wp.bind ((hp.runs ht).mono fun a _ h => ?_)⟩
  exact (hf a).runs hs h.1 (hl.trans h.2) (Nat.lt_of_lt_of_le hlt h.2.current_le)

theorem Begins.rewind {f : Token → CompilerM α} (hf : ∀ tok, IsTok s tok → Rewinds s (f tok)) :
    Begins s (Compiler.advance >>= f) := by
  refine ⟨fun {pend st} hs hin => Prog.Wp.bind ((runs_advance hs).mono fun tok t ht => ?_)⟩
  obtain ⟨htok, hsound, hlater, hmoved⟩ := ht
  have hisTok : IsTok s tok := ⟨fun hv => htok ▸ (hs.isTok 0).le hv⟩
  exact (hf tok hisTok).runs hs (hsound.of_up hs hlater (hmoved hin) hin) hlater (hmoved hin)

/-! ## Small parts -/

instance keeps_handleStates : Keeps s handleStates := by
  dsimp only [handleStates]
  infer_instance

instance keeps_checkConfined (before : ℕ → Typestate) (hint : String) :
    Keeps s (checkConfined before hint) := by
  dsimp only [checkConfined]
  infer_instance

/-- A computation that only reads a token. -/
theorem Advances.of_steps {p : CompilerM (ForInStep σ)} (hp : Steps s p) (hs : Sound s pend st)
    (hin : st.current < s.tokens.length) :
    s.Runs p (fun r st' => Sound s pend st' ∧ Later st st' ∧
      ∀ b, r = .yield b → st.current < s.tokens.length ∧ st.current < st'.current) st :=
  (hp.runs hs hin).mono fun _ _ h => ⟨h.1, h.2.1, fun _ _ => ⟨hin, h.2.2⟩⟩

instance keeps_skipToClosing {fuel : ℕ} [LoopBound s fuel] : Keeps s (skipToClosing fuel) := by
  dsimp only [skipToClosing]
  refine Keeps.bind (Keeps.loop (fun depth => ⟨fun {pend st} hs => runs_peekKind ?_⟩) _) fun _ =>
    inferInstance
  split
  · exact ⟨hs, .refl _, fun _ h => nomatch h⟩
  · next heof =>
    have hin := hs.in_buffer heof
    split
    · split
      · exact ⟨hs, .refl _, fun _ h => nomatch h⟩
      · exact Advances.of_steps inferInstance hs hin
    · exact Advances.of_steps inferInstance hs hin

instance keeps_matchAssign : Keeps s matchAssign := by
  dsimp only [matchAssign]
  infer_instance

instance keeps_peekAssign : Keeps s peekAssign := by
  dsimp only [peekAssign]
  infer_instance

instance keeps_fixedType : Keeps s fixedType := by
  dsimp only [fixedType]
  infer_instance

instance keeps_followsLiteral : Keeps s followsLiteral := by
  dsimp only [followsLiteral]
  infer_instance

instance keeps_followsView : Keeps s followsView := by
  dsimp only [followsView]
  infer_instance

instance keeps_setTypesOf (ident : Token) (f : Var → Option ℕ × Option ℕ) :
    Keeps s (setTypesOf ident f) := by
  dsimp only [setTypesOf]
  refine Keeps.bind inferInstance fun st => Keeps.bind inferInstance fun idx => ?_
  cases idx <;> infer_instance

instance keeps_endAssign : Keeps s endAssign := by
  dsimp only [endAssign]
  infer_instance

instance keeps_endCompound (stage : String) : Keeps s (endCompound stage) := by
  dsimp only [endCompound]
  infer_instance

instance keeps_forBound (message expected suggestion : String) :
    Keeps s (forBound message expected suggestion) := by
  dsimp only [forBound]
  refine reads_peek.bind fun tok _ => ?_
  split <;> infer_instance

/-! ## Contract clauses -/

section Statements

variable {r : Rec} [Calls s r]

instance keeps_loopInvariant : Keeps s (loopInvariant r) := by
  dsimp only [loopInvariant]
  infer_instance

/-- Sound once the cursor is put back. -/
theorem Sound.at_cursor {s' : Session} {c : ℕ} (hs : Sound s pend { st with current := c })
    (h : Sound s' pend st') (hl : st.code.length ≤ st'.code.length) (hsame : s'.SameAs s) :
    Sound s pend { st' with current := c } where
  src := h.src.trans hsame.src
  tokens := h.tokens.trans hsame.tokens
  rank_le := by
    intro hb
    have hroom := Nat.mul_le_mul_right (s.tokens.length + 2)
      (Nat.sub_le_sub_left hl maxBytecodeSize)
    have hrank := hs.rank_le hb
    simp only [Session.rank] at hrank ⊢
    omega
  start := by
    rw [← hsame.before]
    exact h.start
  jumps := by
    rw [← hsame.before, ← hsame.level]
    exact h.jumps
  entries := h.entries
  wcet := h.wcet

/-- A clause compiled again leaves the state sound once the cursor is put back. -/
theorem runs_assertAt [hi : InStatement s] {c : ℕ} (startTok : ℕ)
    (hs : Sound s pend { st with current := c }) :
    s.Runs (assertAt r startTok) (fun _ st' => Sound s pend { st' with current := c } ∧
      Later { st with current := c } { st' with current := c }) st := by
  dsimp only [assertAt]
  have hstmt : Sound s.toStatement pend { st with current := c } := by
    rw [hi.eq]
    exact hs
  have hstart := hstmt.toExpression_at startTok
  have hrest : Keeps s.toExpression (allocTemp >>= fun condReg => r.expression condReg >>= fun _ =>
      emit .assert condReg 0 0 >>= fun _ => freeTemp condReg) := inferInstance
  refine Prog.Wp.bind fun _ => ⟨trivial, (hrest.runs hstart).mono fun _ t ht => ?_⟩
  refine ⟨hs.at_cursor ht.1 ht.2.code_le s.sameAs_toExpression, ?_⟩
  exact ⟨Nat.le_refl _, ht.2.code_le, ht.2.fns_le, ht.2.fns_eq, ht.2.levels⟩

/-- The cursor is put back. -/
theorem runs_restore {c : ℕ} {st₀ : CompilerState} (hs : Sound s pend { st with current := c })
    (hl : Later st₀ { st with current := c }) :
    s.Runs (Prog.op (.setCurrent c)) (fun _ st' => Sound s pend st' ∧ Later st₀ st') st :=
  fun _ => ⟨trivial, hs, hl⟩

instance keeps_emitInvariantCheck [InStatement s] (inv : Option ℕ) :
    Keeps s (emitInvariantCheck r inv) := by
  cases inv with
  | none => dsimp only [emitInvariantCheck]; infer_instance
  | some startTok =>
    refine ⟨fun {pend st} hs => runs_get (Prog.Wp.bind ?_)⟩
    have hs' : Sound s pend { st with current := st.current } := hs
    exact (runs_assertAt startTok hs').mono fun _ t ht => runs_restore ht.1 ht.2

theorem runs_assertAll [InStatement s] {c : ℕ} (clauses : List (ℕ × ℕ))
    (hs : Sound s pend { st with current := c }) :
    s.Runs (assertAll r clauses) (fun _ st' => Sound s pend { st' with current := c } ∧
      Later { st with current := c } { st' with current := c }) st := by
  induction clauses generalizing st with
  | nil => exact ⟨hs, .refl _⟩
  | cons clause rest ih =>
    refine Prog.Wp.bind ((runs_assertAt clause.1 hs).mono fun _ t ht => ?_)
    exact (ih ht.1).mono fun _ _ h => ⟨h.1, ht.2.trans h.2⟩

instance keeps_emitEnsuresChecks [InStatement s] (fnIdx : ℕ) :
    Keeps s (emitEnsuresChecks r fnIdx) := by
  refine ⟨fun {pend st} hs => runs_get (Prog.Wp.bind ?_)⟩
  have hs' : Sound s pend { st with current := st.current } := hs
  exact (runs_assertAll _ hs').mono fun _ t ht => runs_restore ht.1 ht.2

/-! ## Loops and branches -/

variable [InStatement s]

instance begins_whileStatement : Begins s (whileStatement r) := by
  dsimp only [whileStatement]
  refine Begins.advance fun _ _ => Closes.keeps fun pend => ?_
  infer_instance

instance begins_forStatement : Begins s (forStatement r) := by
  dsimp only [forStatement]
  refine Begins.advance fun _ _ => Closes.keeps fun pend => ?_
  infer_instance

instance begins_assertStatement : Begins s (assertStatement r) := by
  dsimp only [assertStatement]
  infer_instance

instance keeps_elseBranch : Keeps s (elseBranch r) := by
  dsimp only [elseBranch]
  infer_instance

instance begins_ifStatement : Begins s (ifStatement r) := by
  dsimp only [ifStatement]
  refine Begins.advance fun _ _ => Closes.keeps fun pend => ?_
  infer_instance

/-! ## Declarations and assignments -/

instance keeps_storeElement (arrId elemIdx : ℕ) : Keeps s (storeElement r arrId elemIdx) := by
  dsimp only [storeElement]
  infer_instance

instance steps_storeElement (arrId elemIdx : ℕ) : Steps s (storeElement r arrId elemIdx) := by
  dsimp only [storeElement]
  infer_instance

instance keeps_arrayElements (arrId : ℕ) (capacity : Option ℕ) :
    Keeps s (arrayElements r arrId capacity) := by
  dsimp only [arrayElements]
  infer_instance

instance keeps_letArray (ident : Token) : Keeps s (letArray r ident) := by
  dsimp only [letArray]
  infer_instance

instance keeps_letArrayLiteral (ident : Token) : Keeps s (letArrayLiteral r ident) := by
  dsimp only [letArrayLiteral]
  infer_instance

instance keeps_letView (ident : Token) (isMut : Bool) [IsTok s ident] :
    Keeps s (letView r ident isMut) := by
  dsimp only [letView]
  infer_instance

instance keeps_annotation (ident : Token) [IsTok s ident] : Keeps s ( annotation r ident) := by
  dsimp only [ annotation]
  infer_instance

instance keeps_assignValue (ident : Token) (varReg : ℕ) : Keeps s (assignValue r ident varReg) := by
  dsimp only [assignValue]
  refine Keeps.bind inferInstance fun slot => ?_
  cases slot <;> infer_instance

instance keeps_letVar (ident : Token) (isMut : Bool) (enumType scale : Option ℕ) :
    Keeps s (letVar r ident isMut enumType scale) := by
  dsimp only [letVar]
  infer_instance

instance begins_letStatement : Begins s (letStatement r) := by
  dsimp only [letStatement]
  refine Begins.advance fun _ _ => Keeps.bind inferInstance fun isMut =>
    reads_advance.bind fun ident _ => Keeps.bind inferInstance fun ann => ?_
  cases ann <;> infer_instance

instance begins_fieldAssign : Begins s (fieldAssign r) := by
  dsimp only [fieldAssign]
  infer_instance

instance begins_elementAssign : Begins s (elementAssign r) := by
  dsimp only [elementAssign]
  infer_instance

instance keeps_spilledAssign (ident : Token) (slot : ℕ) [IsTok s ident] :
    Keeps s (spilledAssign r ident slot) := by
  dsimp only [spilledAssign]
  infer_instance

instance keeps_spilledCompound (ident : Token) (slot : ℕ) (op : Opcode) (stage : String)
    [IsTok s ident] [Obvious (PlainOp op)] :
    Keeps s (spilledCompound r ident slot op stage) := by
  dsimp only [spilledCompound]
  infer_instance

instance keeps_regAssign (ident : Token) (varReg : ℕ) [IsTok s ident] :
    Keeps s (regAssign r ident varReg) := by
  dsimp only [regAssign]
  infer_instance

instance keeps_regCompound (ident : Token) (varReg : ℕ) (op immOp : Opcode) (stage : String)
    [IsTok s ident] [Obvious (PlainOp op)] [Obvious (PlainOp immOp)] :
    Keeps s (regCompound r ident varReg op immOp stage) := by
  dsimp only [regCompound]
  refine Keeps.bind inferInstance fun _ => Keeps.bind inferInstance fun k => ?_
  split <;> infer_instance

instance keeps_expressionStatement : Keeps s (expressionStatement r) := by
  dsimp only [expressionStatement]
  infer_instance

/-- An expression statement at the first token of a statement. -/
theorem runs_expressionStatement (hs : Sound s.up pend st) :
    s.Runs (expressionStatement r) (fun _ st' => Sound s.up pend st' ∧ Later st st' ∧
      st.current < st'.current) st := by
  have hexpr : Sound s.toExpression pend st := by
    have hstmt : Sound s.up.toStatement pend st := by
      rw [show s.up.toStatement = s.toStatement.up from rfl, InStatement.eq]
      exact hs
    refine (hstmt.toExpression_at st.current).mono_rank ⟨rfl, rfl, rfl, rfl⟩ fun hb => ?_
    have hrank := hstmt.rank_le hb
    simp only [Session.rank, Session.toExpression, Session.toStatement, Session.up, if_true,
      Bool.false_eq_true, if_false] at hrank ⊢
    omega
  refine Prog.Wp.bind
    (((Calls.moves_inExpression (s := s) (r := r) 0).runs hexpr).mono fun _ t ht => ?_)
  have hup : Sound s.up pend t := ht.1.of_later hs ht.2.1 ⟨rfl, rfl, rfl, rfl⟩
  have hrest : Keeps s.up (matchToken .semi >>= fun semi =>
      require semi "ERR_MISSING_SEMICOLON" "Missing semicolon ';' at end of expression statement"
        "Semicolon ';'" "Statement -> Expression Statement"
        "Append ';' to terminate the statement") := inferInstance
  refine (hrest.runs hup).mono fun _ u hu => ?_
  exact ⟨hu.1, ht.2.1.trans hu.2, Nat.lt_of_lt_of_le ht.2.2 hu.2.current_le⟩

/-- Going back by one token does not go back before the statement. -/
instance rewinds_expression : Rewinds s (get >>= fun st =>
    Prog.op (.setCurrent (st.current - 1)) >>= fun _ => expressionStatement r) := by
  refine ⟨fun {pend st t} hs ht hl hlt => runs_get (Prog.Wp.bind fun _ => ⟨trivial, ?_⟩)⟩
  have hle : st.current ≤ t.current - 1 := Nat.le_sub_one_of_lt hlt
  have hback := (hs.setCurrent hle).1.at_cursor ht hl.code_le s.sameAs_up.symm
  refine (runs_expressionStatement hback).mono fun _ u hu => ⟨hu.1, ?_, ?_⟩
  · have hl' : Later st { t with current := t.current - 1 } :=
      ⟨hle, hl.code_le, hl.fns_le, hl.fns_eq, hl.levels⟩
    exact hl'.trans hu.2.1
  · exact Nat.lt_of_le_of_lt hle hu.2.2

instance begins_varStatement : Begins s (varStatement r) := by
  dsimp only [varStatement]
  refine Begins.rewind fun ident _ => Rewinds.bind inferInstance fun k =>
    Rewinds.bind inferInstance fun slot => ?_
  cases slot <;> cases k <;> first
    | exact Rewinds.bind inferInstance fun _ => rewinds_expression
    | infer_instance

instance begins_identStatement : Begins s (identStatement r) := by
  refine ⟨fun {pend st} hs hin => Prog.Wp.bind (runs_get ?_)⟩
  have hcases : Begins s (if (st.peekAhead 1).kind = .dot then fieldAssign r
      else if (st.peekAhead 1).kind = .lBracket then elementAssign r else varStatement r) :=
    inferInstance
  exact hcases.runs hs hin

end Statements

end Compiler

end LatencyOS
