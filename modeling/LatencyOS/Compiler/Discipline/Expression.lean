import LatencyOS.Compiler.Discipline.Declarations
import LatencyOS.Compiler.Discipline.Pending

/-!
# The discipline of expressions

An expression consumes its first token before it calls itself, so every level of the
recursion pays for the next.  Only a conditional can contain statements: they are compiled
behind its jump.
-/

namespace LatencyOS

namespace Compiler

-- the size of an instance doubles with every statement of a block
set_option synthInstance.maxSize 1000000000000
-- token kinds have many constructors, and `split` looks at all of them
set_option maxRecDepth 10000

variable {s : Session} {pend : List ℕ} {st st' : CompilerState} {α β σ : Type}

/-! ## Combinators -/

instance keeps_compileSumToReg (dst : ℕ) (v : ViewMeta) : Keeps s (compileSumToReg dst v) := by
  refine Closes.keeps fun pend => ?_
  simp only [compileSumToReg, loopHead, loopFoot, bind_assoc, pure_bind]
  infer_instance

instance keeps_compileReduceToReg (dst : ℕ) (v : ViewMeta) (initVal : Option Word64)
    (fnName : List UInt8) : Keeps s (compileReduceToReg dst v initVal fnName) := by
  refine Closes.keeps fun pend => ?_
  simp only [compileReduceToReg, lookupFnByName, loopHead, loopFoot, bind_assoc, pure_bind]
  refine Closes.findFn (fun f => ?_) ?_
  · cases initVal <;> simp only [pure_bind] <;> infer_instance
  · simp only [fail_bind]
    infer_instance

theorem mem_ite {c : Prop} [Decidable c] {l : List Native} {f : Native} {rest : Option Native}
    (hf : f ∈ l) (hrest : ∀ g ∈ rest, g ∈ l) : ∀ g ∈ if c then some f else rest, g ∈ l := by
  split
  · intro g hg
    cases hg
    exact hf
  · exact hrest

theorem combinatorBuiltin_mem {name : List UInt8} :
    ∀ f ∈ combinatorBuiltin name, f ∈ Native.ungated := by
  unfold combinatorBuiltin
  repeat refine mem_ite (by decide) ?_
  exact nofun

instance keeps_compileZipWithToReg (dst : ℕ) (v₁ v₂ : ViewMeta) (fnName : List UInt8)
    (isSum : Bool) : Keeps s (compileZipWithToReg dst v₁ v₂ fnName isSum) := by
  refine Closes.keeps fun pend => ?_
  simp only [compileZipWithToReg, lookupCombinatorFn, loopHead, loopFoot, bind_assoc, pure_bind]
  refine Closes.findFn (fun f => ?_) ?_
  · simp only [pure_bind]
    infer_instance
  · cases hf : combinatorBuiltin fnName with
    | none =>
      simp only [fail_bind]
      infer_instance
    | some f =>
      have : Ungated f := ⟨combinatorBuiltin_mem f hf⟩
      simp only [pure_bind]
      infer_instance

/-! ## Small parts -/

instance keeps_emitPending (reg : ℕ) (val : Option Word64) : Keeps s (emitPending reg val) := by
  cases val <;> dsimp only [emitPending] <;> infer_instance

instance keeps_consumeBySend (slot : ℕ) : Keeps s (consumeBySend slot) := by
  dsimp only [consumeBySend]
  refine Keeps.bind inferInstance fun t => ?_
  cases t <;> infer_instance

instance keeps_consumeByRelease (slot : ℕ) : Keeps s (consumeByRelease slot) := by
  dsimp only [consumeByRelease]
  refine Keeps.bind inferInstance fun t => ?_
  cases t <;> infer_instance

instance keeps_consumeBy (f : Native) (reg : ℕ) : Keeps s (consumeBy f reg) := by
  dsimp only [consumeBy]
  infer_instance

instance keeps_floatLit (scaledVal : Word64) (fracDigits dst : ℕ) :
    Keeps s (floatLit scaledVal fracDigits dst) := by
  dsimp only [floatLit]
  infer_instance

instance keeps_emitStr (dst offset len : ℕ) : Keeps s (emitStr dst offset len) := by
  dsimp only [emitStr]
  infer_instance

/-- What stands between the quotes of a string literal lies in the source. -/
instance keeps_stringText (tok : Token) [htok : IsTok s tok] : Keeps s (stringText tok) := by
  dsimp only [stringText]
  split
  · infer_instance
  · next hlen =>
    have : IsTok s { tok with start := tok.start + 1, len := tok.len - 2 } := by
      refine ⟨fun hv => ?_⟩
      have hle := htok.le hv
      dsimp only
      omega
    infer_instance

/-- A string that was checked against the capacity of the pool. -/
theorem runs_appendStr (hs : Sound s pend st) {text : List UInt8}
    (hroom : st.strPool.length + text.length ≤ maxStringPool) :
    s.Runs (Prog.op (.appendStr text)) (fun _ st' => Sound s pend st' ∧ Later st st') st := by
  refine fun _ => ⟨trivial, ?_⟩
  simp only [perform, CompilerState.appendStr]
  rw [if_neg (Nat.not_lt.mpr hroom)]
  have hsame : Same st { st with strPool := st.strPool ++ text } := ⟨rfl, rfl, rfl, rfl, rfl⟩
  exact ⟨hsame.sound hs, hsame.later⟩

instance keeps_stringLit (tok : Token) (dst : ℕ) [IsTok s tok] : Keeps s (stringLit tok dst) := by
  dsimp only [stringLit]
  refine Keeps.bind inferInstance fun raw => ⟨fun {pend st} hs => runs_get ?_⟩
  by_cases hroom : st.strPool.length + (unescape raw).length ≤ maxStringPool
  · rw [require, if_pos (decide_eq_true hroom)]
    simp only [pure_bind]
    split
    · exact keeps_bind.runs hs
    · refine Prog.Wp.bind ((runs_appendStr hs hroom).mono fun _ t ht => ?_)
      exact (keeps_bind.runs ht.1).mono fun _ _ h => ⟨h.1, ht.2.trans h.2⟩
  · rw [require, if_neg (by simpa using hroom), fail_bind]
    exact (keeps_fail ..).runs hs

instance keeps_fieldAccess (tok : Token) (dst : ℕ) [IsTok s tok] :
    Keeps s (fieldAccess tok dst) := by
  dsimp only [fieldAccess]
  infer_instance

instance keeps_reportVar (tok : Token) [IsTok s tok] : Keeps s (reportVar tok) := by
  dsimp only [reportVar]
  infer_instance

instance keeps_moveTo (dst reg : ℕ) : Keeps s (moveTo dst reg) := by
  dsimp only [moveTo]
  infer_instance

instance keeps_varValue (tok : Token) (dst : ℕ) [IsTok s tok] : Keeps s (varValue tok dst) := by
  dsimp only [varValue]
  refine Keeps.bind inferInstance fun slot => ?_
  cases slot with
  | some slot => infer_instance
  | none =>
    refine Keeps.bind inferInstance fun _ => Keeps.bind inferInstance fun reg => ?_
    split
    · refine Keeps.bind inferInstance fun t => ?_
      cases t <;> infer_instance
    · infer_instance

instance keeps_enumVariant (name : List UInt8) (dst : ℕ) : Keeps s (enumVariant name dst) := by
  dsimp only [enumVariant]
  refine Keeps.bind inferInstance fun _ => reads_advance.bind fun tok _ =>
    Keeps.bind inferInstance fun _ => Keeps.bind inferInstance fun _ =>
    Keeps.bind inferInstance fun e => ?_
  cases e with
  | none => infer_instance
  | some e =>
    refine Keeps.bind inferInstance fun v => ?_
    cases v <;> infer_instance

instance keeps_passArgs (regs temps : List ℕ) : Keeps s (passArgs regs temps) := by
  induction regs generalizing temps with
  | nil => simp only [passArgs]; infer_instance
  | cons reg regs ih =>
    cases temps <;> simp only [passArgs] <;> infer_instance

instance keeps_freeArgs (args : List ℕ) : Keeps s (freeArgs args) := by
  induction args with
  | nil => simp only [freeArgs]; infer_instance
  | cons arg args ih => simp only [freeArgs]; infer_instance

instance keeps_chainedSum : Keeps s chainedSum := by
  dsimp only [chainedSum]
  infer_instance

instance keeps_lookupIntrinsic (name : List UInt8) : Keeps s (lookupIntrinsic name) := by
  dsimp only [lookupIntrinsic]
  split <;> infer_instance

instance keeps_refuseStructLiteral (tok : Token) [IsTok s tok] :
    Keeps s (refuseStructLiteral tok) := by
  dsimp only [refuseStructLiteral]
  infer_instance

/-! ## Calls -/

section Calls

variable {r : Rec} [Calls s r]

instance keeps_body [InStatement s] : Keeps s r.body := by
  dsimp only [Rec.body]
  infer_instance

instance keeps_varPrimary (tok : Token) (dst : ℕ) [IsTok s tok] :
    Keeps s (varPrimary r tok dst) := by
  dsimp only [varPrimary]
  infer_instance

instance keeps_callArgs (paramCount : ℕ) : Keeps s (callArgs r paramCount) := by
  dsimp only [callArgs]
  infer_instance

/-- A call of a function whose entry has been reached. -/
instance closes_userCall {marks : List Mark} (f : FnMeta) (dst : ℕ)
    [Marked (.entry f.entryPc) marks] :
    Closes s (fun _ => pend) pend marks (userCall r f dst) := by
  dsimp only [userCall]
  infer_instance

instance keeps_streqCall (dst : ℕ) : Keeps s (streqCall r dst) := by
  dsimp only [streqCall]
  infer_instance

instance keeps_zipWithCall (dst : ℕ) : Keeps s (zipWithCall r dst) := by
  dsimp only [zipWithCall]
  infer_instance

instance keeps_sumCall (dst : ℕ) : Keeps s (sumCall r dst) := by
  dsimp only [sumCall]
  infer_instance

instance keeps_reduceCall (dst : ℕ) : Keeps s (reduceCall r dst) := by
  dsimp only [reduceCall]
  infer_instance

instance keeps_oneArg (f : Native) : Keeps s (oneArg r f) := by
  dsimp only [oneArg]
  infer_instance

instance keeps_intrinsicArgs (f : Native) (n : ℕ) : Keeps s (intrinsicArgs r f n) := by
  dsimp only [intrinsicArgs]
  split <;> infer_instance

instance keeps_intrinsicCall (name : List UInt8) (dst : ℕ) :
    Keeps s (intrinsicCall r name dst) := by
  dsimp only [intrinsicCall]
  infer_instance

instance keeps_callPrimary (name : List UInt8) (dst : ℕ) : Keeps s (callPrimary r name dst) := by
  refine Closes.keeps fun pend => ?_
  dsimp only [callPrimary]
  refine Closes.findFn (fun f => ?_) ?_ <;> infer_instance

instance keeps_tableElement (name : List UInt8) (dst : ℕ) :
    Keeps s (tableElement r name dst) := by
  dsimp only [tableElement]
  infer_instance

instance keeps_namedPrimary (tok : Token) (dst : ℕ) [IsTok s tok] :
    Keeps s (namedPrimary r tok dst) := by
  dsimp only [namedPrimary]
  infer_instance

instance keeps_negPrimary (dst : ℕ) : Keeps s (negPrimary r dst) := by
  dsimp only [negPrimary]
  refine Keeps.bind inferInstance fun _ => Keeps.bind inferInstance fun _ =>
    Keeps.bind inferInstance fun _ => Keeps.bind inferInstance fun v => ?_
  cases v <;> infer_instance

instance keeps_notPrimary (dst : ℕ) : Keeps s (notPrimary r dst) := by
  dsimp only [notPrimary]
  refine Keeps.bind inferInstance fun _ => Keeps.bind inferInstance fun v => ?_
  cases v <;> infer_instance

instance keeps_parenPrimary (dst : ℕ) : Keeps s (parenPrimary r dst) := by
  dsimp only [parenPrimary]
  infer_instance

end Calls

/-! ## The levels -/

/-- A computation that pays for a recursion level with its first token. -/
class Enters (s : Session) (p : CompilerM α) : Prop where
  runs : ∀ {pend : List ℕ} {st : CompilerState}, Sound s.up pend st →
    s.Runs p (fun _ st' => Sound s pend st' ∧ Later st st' ∧ st.current < st'.current) st

theorem Enters.keeps {p : CompilerM α} (h : Enters s p) : Keeps s p :=
  ⟨fun hs => (h.runs hs.up).mono fun _ _ h => ⟨h.1, h.2.1⟩⟩

theorem Enters.bind {p : CompilerM α} {f : α → CompilerM β} (hp : Enters s p)
    (hf : ∀ a, Keeps s (f a)) : Enters s (p >>= f) := by
  refine ⟨fun hs => Prog.Wp.bind ((hp.runs hs).mono fun a t ht => ?_)⟩
  refine ((hf a).runs ht.1).mono fun _ _ h => ⟨h.1, ht.2.1.trans h.2, ?_⟩
  exact Nat.lt_of_lt_of_le ht.2.2 h.2.current_le

/-- A computation that starts with a token, and fails at the end of the buffer. -/
theorem Enters.advance {f : Token → CompilerM α} (hf : ∀ tok, IsTok s tok → Keeps s (f tok))
    (heof : ∀ (Q : α → CompilerState → Prop) st, s.Runs (f Token.empty) Q st) :
    Enters s (advance >>= f) := by
  refine ⟨fun {pend st} hs => Prog.Wp.bind ((runs_advance hs).mono fun tok t ht => ?_)⟩
  obtain ⟨htok, hsound, hlater, hmoved⟩ := ht
  by_cases hin : st.current < s.tokens.length
  · have hs' : Sound s pend t := hsound.of_up hs hlater (hmoved hin) hin
    have hisTok : IsTok s tok := ⟨fun hv => htok ▸ (hs.isTok 0).le hv⟩
    refine ((hf tok hisTok).runs hs').mono fun _ _ h => ⟨h.1, hlater.trans h.2, ?_⟩
    exact Nat.lt_of_lt_of_le (hmoved hin) h.2.current_le
  · have hempty : tok = Token.empty := by
      rw [htok, CompilerState.peek, CompilerState.peekAhead, hs.tokens]
      exact List.getD_eq_default _ _ (Nat.not_lt.mp hin)
    rw [hempty]
    exact heof _ _

instance enters_primary {r : Rec} [Calls s r] (dst : ℕ) : Enters s (primary r dst) := by
  dsimp only [primary]
  refine Enters.advance (fun tok _ => ?_) fun Q st => runs_get (fails_error _)
  generalize tok.kind = k
  cases k <;> infer_instance

/-- The parts of a binary level keep the discipline. -/
class KeepsLevel (s : Session) (l : Level) : Prop where
  isOp_eof : l.isOp .eof = false
  checkScales : ∀ s₁ s₂, Keeps s (l.checkScales s₁ s₂)
  fold : ∀ op a b, Keeps s (l.fold op a b)
  emitOp : ∀ op s₁ s₂ dst rhs, Keeps s (l.emitOp op s₁ s₂ dst rhs)

section Level

variable {l : Level} [hl : KeepsLevel s l]

instance keeps_checkScales (s₁ s₂ : Option ℕ) : Keeps s (l.checkScales s₁ s₂) :=
  hl.checkScales s₁ s₂

instance keeps_fold (op : TokenKind) (a b : Word64) : Keeps s (l.fold op a b) := hl.fold op a b

instance keeps_emitOp (op : TokenKind) (s₁ s₂ : Option ℕ) (dst rhs : ℕ) :
    Keeps s (l.emitOp op s₁ s₂ dst rhs) := hl.emitOp op s₁ s₂ dst rhs

instance keeps_combine (op : TokenKind) (s₁ s₂ : Option ℕ) (dst rhsReg : ℕ)
    (a b : Option Word64) : Keeps s (combine l op s₁ s₂ dst rhsReg a b) := by
  cases a <;> cases b <;> dsimp only [combine] <;> infer_instance

instance keeps_fixedScale : Keeps s fixedScale := by
  dsimp only [fixedScale]
  infer_instance

/-- The operators of a level consume a token each. -/
theorem keeps_binaryRest {next : ℕ → CompilerM (Option Word64)} [∀ d, Keeps s (next d)]
    {fuel : ℕ} [LoopBound s fuel] (dst : ℕ) (val : Option Word64) :
    Keeps s (binaryRest fuel l next dst val) := by
  dsimp only [binaryRest]
  refine Keeps.loop (fun val => ⟨fun {pend st} hs => runs_peekKind ?_⟩) _
  split
  · exact ⟨hs, .refl _, fun _ h => nomatch h⟩
  · next hop =>
    have hin : st.current < s.tokens.length := by
      refine hs.in_buffer fun heof => hop ?_
      rw [heof, hl.isOp_eof]
      rfl
    refine (steps_bind_left.runs hs hin).mono fun _ _ h => ⟨h.1, h.2.1, fun _ _ => ⟨hin, h.2.2⟩⟩

theorem enters_binaryLevel {next : ℕ → CompilerM (Option Word64)} (hnext : ∀ d, Enters s (next d))
    {fuel : ℕ} [LoopBound s fuel] (dst : ℕ) : Enters s (binaryLevel fuel l next dst) := by
  have := fun d => (hnext d).keeps
  exact (hnext dst).bind fun val => keeps_binaryRest dst val

end Level

instance keeps_emitLogic (op : Opcode) (dst rhsReg : ℕ) [Obvious (PlainOp op)] :
    Keeps s (emitLogic op dst rhsReg) := by
  dsimp only [emitLogic]
  infer_instance

instance keeps_emitScaledMul (dst rhsReg scale : ℕ) : Keeps s (emitScaledMul dst rhsReg scale) := by
  dsimp only [emitScaledMul]
  infer_instance

instance keeps_emitMul (dst rhsReg : ℕ) (s₁ s₂ : Option ℕ) :
    Keeps s (emitMul dst rhsReg s₁ s₂) := by
  cases s₁ <;> cases s₂ <;> dsimp only [emitMul] <;> infer_instance

instance keeps_emitDiv (dst rhsReg : ℕ) (s₁ s₂ : Option ℕ) :
    Keeps s (emitDiv dst rhsReg s₁ s₂) := by
  cases s₁ <;> cases s₂ <;> dsimp only [emitDiv] <;> infer_instance

/-- A level without scales. -/
theorem KeepsLevel.plain {isOp : TokenKind → Bool} {fold : TokenKind → Word64 → Word64 → Word64}
    {emitOp : TokenKind → ℕ → ℕ → CompilerM Unit} (heof : isOp .eof = false)
    (hemit : ∀ op dst rhs, Keeps s (emitOp op dst rhs)) :
    KeepsLevel s (plainLevel isOp fold emitOp) :=
  ⟨heof, fun _ _ => keeps_pure _, fun _ _ _ => keeps_pure _, fun op _ _ => hemit op⟩

instance keepsLevel_logicOr : KeepsLevel s logicOrLevel := .plain rfl inferInstance

instance keepsLevel_logicAnd : KeepsLevel s logicAndLevel := .plain rfl inferInstance

instance keepsLevel_equality : KeepsLevel s equalityLevel := .plain rfl inferInstance

instance keepsLevel_comparison : KeepsLevel s comparisonLevel := by
  refine .plain rfl fun op dst rhs => ?_
  cases op <;> infer_instance

instance keepsLevel_bitwiseOr : KeepsLevel s bitwiseOrLevel := .plain rfl inferInstance

instance keepsLevel_bitwiseXor : KeepsLevel s bitwiseXorLevel := .plain rfl inferInstance

instance keepsLevel_bitwiseAnd : KeepsLevel s bitwiseAndLevel := .plain rfl inferInstance

instance keepsLevel_shift : KeepsLevel s shiftLevel := by
  refine .plain rfl fun op dst rhs => ?_
  cases op <;> infer_instance

instance keepsLevel_term : KeepsLevel s termLevel where
  isOp_eof := rfl
  checkScales := fun s₁ s₂ => by
    cases s₁ <;> cases s₂ <;> dsimp only [termLevel] <;> infer_instance
  fold := fun _ _ _ => keeps_pure _
  emitOp := fun _ _ _ _ _ => keeps_ite

instance keepsLevel_factor : KeepsLevel s factorLevel where
  isOp_eof := rfl
  checkScales := fun _ _ => keeps_pure _
  fold := fun op a b => by
    dsimp only [factorLevel]
    cases op <;> infer_instance
  emitOp := fun op s₁ s₂ dst rhs => by
    dsimp only [factorLevel]
    cases op <;> infer_instance

section Levels

variable {r : Rec} [Calls s r] (dst : ℕ)

theorem enters_logicOr : Enters s (logicOr r dst) := by
  repeat refine enters_binaryLevel (fun d => ?_) _
  exact enters_primary d

instance keeps_branch [InStatement s] : Keeps s (branch r dst) := by
  dsimp only [branch]
  infer_instance

/-- The arms of a conditional stand behind its jump, so they may be blocks of statements. -/
instance keeps_ternaryRest (val : Option Word64) : Keeps s (ternaryRest r dst val) := by
  dsimp only [ternaryRest]
  refine Keeps.bind inferInstance fun question => ?_
  split
  · refine Keeps.bind inferInstance fun _ => ⟨fun {pend st} hs => Prog.Wp.bind ?_⟩
    refine (runs_jump hs (by decide) dst 0 0).mono fun pos t ht => ?_
    obtain ⟨hsound, hlater, hlen⟩ := ht
    have hstmt := hsound.enterStatement hs hlater hlen
    exact Closes.inExpression hstmt hlater
  · infer_instance

theorem enters_ternary : Enters s (ternary r dst) :=
  (enters_logicOr dst).bind fun _ => inferInstance

instance keeps_pipeTarget (name : List UInt8) : Keeps s (pipeTarget name dst) := by
  dsimp only [pipeTarget]
  infer_instance

instance keeps_pipes : Keeps s (pipes r dst) := by
  dsimp only [pipes]
  infer_instance

theorem enters_expression : Enters s (expression r dst) :=
  (enters_ternary dst).bind fun _ => inferInstance

end Levels

end Compiler

end LatencyOS
