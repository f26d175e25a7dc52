import LatencyOS.Compiler.Discipline.Functions

/-!
# The discipline of the whole compiler

Directives, the statement dispatch, and the knot of the recursion: with as many levels as the
rank of the first state, no call of a compilation reaches the bottom.
-/

namespace LatencyOS

namespace Compiler

-- the size of an instance doubles with every statement of a block
set_option synthInstance.maxSize 1000000000000
-- token kinds have many constructors
set_option maxRecDepth 10000

variable {s : Session} {pend : List ℕ} {st st' : CompilerState} {α : Type}

/-! ## Directives -/

/-- An import adds modules to those of earlier imports. -/
theorem importsGrow_or (d : Decls) (mask : ℕ) :
    d.ImportsGrow { d with
      hasExplicitImports := true
      importedRuntimes := (if d.hasExplicitImports then d.importedRuntimes else 0) ||| mask } := by
  intro hex
  refine ⟨rfl, fun m hm => ?_⟩
  simp only [hex, if_true, Nat.and_or_distrib_right]
  intro hzero
  exact hm (Nat.or_eq_zero_iff.mp hzero).1

instance keeps_import (mask : ℕ) : Keeps s (modifyDecls fun d => { d with
    hasExplicitImports := true
    importedRuntimes := (if d.hasExplicitImports then d.importedRuntimes else 0) ||| mask }) := by
  refine ⟨fun {pend st} hs => runs_get fun _ => ⟨importsGrow_or st.decls mask, ?_⟩⟩
  have hsame : Same st { st with decls := { st.decls with
      hasExplicitImports := true
      importedRuntimes :=
        (if st.decls.hasExplicitImports then st.decls.importedRuntimes else 0) ||| mask } } :=
    ⟨rfl, rfl, rfl, rfl, rfl⟩
  exact ⟨hsame.sound hs, hsame.later⟩

instance begins_importStatement : Begins s importStatement := by
  dsimp only [importStatement]
  refine Begins.advance fun _ _ => reads_advance.bind fun tok _ => ?_
  generalize tok.kind = k
  cases k <;>
    refine Keeps.bind inferInstance fun rawName => Keeps.bind inferInstance fun _ => ?_ <;>
    cases runtimeMask rawName <;> infer_instance

instance keeps_skipBudget : Keeps s skipBudget := by
  dsimp only [skipBudget]
  infer_instance

/-- The cursor moves forward. -/
instance keeps_forward {n : CompilerState → ℕ} {f : CompilerState → Unit → CompilerM α}
    [hf : ∀ st u, Keeps s (f st u)] :
    Keeps s (get >>= fun st => Prog.op (.setCurrent (st.current + n st)) >>= f st) := by
  refine ⟨fun {pend st} hs => runs_get (Prog.Wp.bind fun _ => ⟨trivial, ?_⟩)⟩
  obtain ⟨hsound, hlater⟩ := hs.setCurrent (Nat.le_add_right st.current (n st))
  exact ((hf st ()).runs hsound).mono fun _ _ h => ⟨h.1, hlater.trans h.2⟩

instance begins_testStatement {r : Rec} [Calls s r] : Begins s (testStatement r) := by
  dsimp only [testStatement]
  infer_instance

instance steps_contractTime (set : ℕ → Decls → Decls) [∀ n, Outside (set n)] :
    Steps s (contractTime set) := by
  dsimp only [contractTime]
  have hset : ∀ t : Token, Keeps s (match t.kind with
      | .timeLiteral ns => modifyDecls (set ns.toNat) >>= fun _ => skip .rParen
      | .number n => modifyDecls (set n.toNat) >>= fun _ => skip .rParen
      | _ => skip .rParen) := fun t => by
    generalize t.kind = k
    cases k <;> infer_instance
  infer_instance

section Statements

variable {r : Rec} [Calls s r]

instance begins_contractStatement : Begins s (contractStatement r) := by
  dsimp only [contractStatement]
  infer_instance

variable [InStatement s]

instance begins_pipelineStatement : Begins s (pipelineStatement r) := by
  dsimp only [pipelineStatement]
  infer_instance

instance begins_vblankStatement : Begins s (vblankStatement r) := by
  dsimp only [vblankStatement]
  infer_instance

omit [InStatement s] in
/-- A deadline block opens: what is inside is a stretch of code of its own. -/
theorem runs_withinStart (hs : Sound s pend st) (rd : ℕ) :
    s.Runs (emit .withinStart rd 0 0) (fun _ st' =>
      st'.code = st.code ++ instBytes .withinStart rd 0 0 ∧
      Sound (s.stretch st'.code (s.level + 1)) [] st' ∧ Later st st') st := by
  refine Prog.Wp.bind fun _ => ⟨nofun, ?_⟩
  simp only [perform, CompilerState.emitInst]
  split
  · exact fails_error _
  · next hfit =>
    have hjumps := hs.jumps.opened rd 0 0 (Nat.not_lt.mp hfit)
    have hl : Later st { st with code := st.code ++ instBytes .withinStart rd 0 0 } := by
      refine ⟨Nat.le_refl _, ?_, Nat.le_refl _, fun _ _ => rfl, fun _ hn => levelAt_append _ hn⟩
      rw [List.length_append]
      exact Nat.le_add_right _ _
    exact ⟨rfl, ⟨hs.src, hs.tokens, fun hb => Nat.le_trans (hl.rank_le s) (hs.rank_le hb),
      List.prefix_rfl, hjumps, fun f hf => (hs.entries f hf).append _, hs.wcet⟩, hl⟩

omit [InStatement s] in
/-- It closes: the stretch of code is one of the surrounding code again. -/
theorem runs_withinEnd {t : CompilerState} {rd : ℕ} (hs : Sound s pend st)
    (hz : Sound (s.stretch (st.code ++ instBytes .withinStart rd 0 0) (s.level + 1)) [] t)
    (hl : Later st t) :
    s.Runs (emit .withinEnd 0 0 0) (fun _ st' => Sound s pend st' ∧ Later st st') t := by
  refine Prog.Wp.bind fun _ => ⟨nofun, ?_⟩
  simp only [perform, CompilerState.emitInst]
  split
  · exact fails_error _
  · next hfit =>
    have hle : t.code.length ≤ (t.code ++ instBytes .withinEnd 0 0 0).length := by
      rw [List.length_append]
      exact Nat.le_add_right _ _
    have hl' : Later t { t with code := t.code ++ instBytes .withinEnd 0 0 0 } :=
      ⟨Nat.le_refl _, hle, Nat.le_refl _, fun _ _ => rfl, fun _ hn => levelAt_append _ hn⟩
    obtain ⟨rest, hrest⟩ := hz.start
    have hjumps := hz.jumps
    have hroom := Nat.not_lt.mp hfit
    change st.code ++ instBytes .withinStart rd 0 0 ++ rest = t.code at hrest
    rw [← hrest] at hjumps hroom
    have hclosed := hs.jumps.closed 0 0 0 hjumps hroom
    rw [hrest] at hclosed
    refine ⟨⟨hz.src, hz.tokens, fun hb => ?_, ?_, hclosed, fun f hf => ?_, hz.wcet⟩, hl.trans hl'⟩
    · exact Nat.le_trans ((hl.trans hl').rank_le s) (hs.rank_le hb)
    · refine hs.start.trans ?_
      rw [← hrest, List.append_assoc, List.append_assoc]
      exact List.prefix_append _ _
    · exact (hz.entries f hf).append _

/-- A deadline block. -/
instance keeps_within {code message expected stage suggestion : String}
    {g : Unit → CompilerM α} [hg : ∀ u, Keeps s (g u)] :
    Keeps s (emit .withinStart 0 0 0 >>= fun _ => matchToken .lBrace >>= fun opened =>
      require opened code message expected stage suggestion >>= fun _ => r.body >>= fun _ =>
        emit .withinEnd 0 0 0 >>= g) := by
  refine ⟨fun {pend st} hs => Prog.Wp.bind ((runs_withinStart hs 0).mono fun _ t ht => ?_)⟩
  obtain ⟨hcode, hz, hl⟩ := ht
  have hbody : Keeps (s.stretch t.code (s.level + 1)) r.body := inferInstance
  refine Prog.Wp.bind (((keeps_matchToken _).runs hz).mono fun opened u hu => ?_)
  refine Prog.Wp.bind (((keeps_require _ _ _ _ _ _).runs hu.1).mono fun _ v hv => ?_)
  refine Prog.Wp.bind ((hbody.runs hv.1).mono fun _ w hw => ?_)
  have hlater := ((hl.trans hu.2).trans hv.2).trans hw.2
  have hinner := hw.1
  rw [hcode] at hinner
  refine Prog.Wp.bind ((runs_withinEnd hs hinner hlater).mono fun _ x hx => ?_)
  exact ((hg _).runs hx.1).mono fun _ _ h => ⟨h.1, hx.2.trans h.2⟩

instance begins_withinStatement : Begins s (withinStatement r) := by
  dsimp only [withinStatement]
  refine Begins.advance fun _ _ => Keeps.bind inferInstance fun hasParen =>
    reads_advance.bind fun timeTok _ => ?_
  generalize timeTok.kind = k
  cases k <;> infer_instance

/-- A statement consumes a token: it starts with one it consumes, or with an expression. -/
theorem moves_statement : Moves s.up (statement r) := by
  refine ⟨fun {pend st} hs => runs_peekKind ?_⟩
  have hbegin : ∀ {p : CompilerM Unit}, Begins s p → st.peek.kind ≠ .eof →
      s.Runs p (fun _ st' => Sound s.up pend st' ∧ Later st st' ∧ st.current < st'.current) st :=
    fun hp hk => hp.runs hs (hs.in_buffer hk)
  revert hbegin
  generalize st.peek.kind = k
  intro hbegin
  cases k <;> first
    | exact runs_expressionStatement hs
    | exact hbegin inferInstance nofun

end Statements

/-! ## The knot -/

theorem Enters.moves {p : CompilerM α} (h : Enters s p) : Moves s.up p :=
  ⟨fun hs => (h.runs hs).mono fun _ _ h => ⟨h.1.up, h.2⟩⟩

/-- One level up. -/
theorem Calls.next {r : Rec} (h : Calls s r) : Calls s.up r.next where
  fuel := h.fuel
  expression := fun b l dst => (enters_expression (s := (s.stretch b l).toExpression) dst).moves
  ternary := fun b l dst => (enters_ternary (s := (s.stretch b l).toExpression) dst).moves
  primary := fun b l dst => (enters_primary (s := (s.stretch b l).toExpression) dst).moves
  statement := fun b l => Compiler.moves_statement (s := (s.stretch b l).toStatement)

/-- No call is made at the bottom. -/
theorem moves_bottom (hdepth : s.depth = 0) : Moves s (Prog.throw .fuel : CompilerM α) := by
  refine ⟨fun {pend st} hs => ⟨fun hb => ?_, fun _ => nofun⟩⟩
  have hrank := hs.rank_le hb
  rw [hdepth, Nat.le_zero, Session.rank] at hrank
  split at hrank <;> omega

theorem calls_recN (n : ℕ) (hdepth : s.depth = n) : Calls s (recN s.fuel n) := by
  induction n generalizing s with
  | zero =>
    exact ⟨rfl, fun _ _ _ => moves_bottom hdepth, fun _ _ _ => moves_bottom hdepth,
      fun _ _ _ => moves_bottom hdepth, fun _ _ => moves_bottom hdepth⟩
  | succ n ih =>
    have hup : s = Session.up { s with depth := n } := by
      rw [Session.up, ← hdepth]
    rw [hup]
    exact (ih (s := { s with depth := n }) rfl).next

/-! ## Accepted sources -/

instance keeps_checkConsumed : Keeps s checkConsumed := by
  dsimp only [checkConsumed]
  refine Keeps.bind inferInstance fun states => ?_
  cases unconsumed states <;> infer_instance

instance keeps_statements {r : Rec} [Calls s r] [InStatement s] : Keeps s (statements r) := by
  dsimp only [statements]
  infer_instance

/-- What holds of the state in which an accepted source leaves the compiler: its code ends with a
`HALT`, and everything before it lands before it. -/
structure Finished (st : CompilerState) : Prop where
  code : ∃ body, st.code = body ++ instBytes .halt 0 0 0 ∧ JumpsLand 0 0 [] body ∧
    ∀ f ∈ st.decls.functions, Lands body f.entryPc
  wcet : ∀ f ∈ st.decls.functions, f.WcetKept
  script : ∀ ns, st.decls.declaredScriptWcetNs = some ns → st.code.length / 4 * 3 ≤ ns

theorem runs_compile {r : Rec} [Calls s r] [InStatement s] (hs : Sound s [] st)
    (hbefore : s.before = []) (hlevel : s.level = 0) :
    s.Runs (compile r) (fun _ st' => Finished st') st := by
  have hbody : Keeps s (statements r) := inferInstance
  refine Prog.Wp.bind ((hbody.runs hs).mono fun _ t ht => ?_)
  refine Prog.Wp.bind ((keeps_checkConsumed.runs ht.1).mono fun _ u hu => ?_)
  refine Prog.Wp.bind (Prog.Wp.bind fun _ => ⟨nofun, ?_⟩)
  simp only [perform, CompilerState.emitInst]
  split
  · exact fails_error _
  · refine runs_get (Prog.Wp.bind (runs_get fun _ => ⟨Decls.importsGrow_of_eq rfl rfl, ?_⟩))
    have hjumps := hu.1.jumps
    rw [hbefore, hlevel] at hjumps
    refine runs_require fun hwcet => ⟨⟨u.code, rfl, hjumps, hu.1.entries⟩, hu.1.wcet, ?_⟩
    intro ns hns
    rw [show u.decls.declaredScriptWcetNs = some ns from hns] at hwcet
    exact of_decide_eq_true hwcet

/-- The session of a whole compilation. -/
def Session.start (src : List UInt8) (tokens : List Token) (fuel : ℕ) (bounded : Bool)
    (enough : bounded = true → tokens.length + 2 ≤ fuel) : Session :=
  ⟨src, tokens, fuel, fuel, true, [], 0, bounded, enough⟩

instance inStatement_start {src : List UInt8} {tokens : List Token} {fuel : ℕ} {bounded : Bool}
    {enough : bounded = true → tokens.length + 2 ≤ fuel} :
    InStatement (Session.start src tokens fuel bounded enough) := ⟨rfl⟩

/-- A recursion bound that is enough for a number of tokens. -/
def compileBound (n : ℕ) : ℕ := maxBytecodeSize * (n + 2) + n + (n + 2)

theorem sound_new (src : List UInt8) (tokens : List Token) (checks : Bool) {fuel : ℕ}
    {bounded : Bool} {enough : bounded = true → tokens.length + 2 ≤ fuel}
    (hfuel : bounded = true → compileBound tokens.length ≤ fuel) :
    Sound (Session.start src tokens fuel bounded enough) []
      (CompilerState.new src tokens checks) where
  src := rfl
  tokens := rfl
  rank_le := fun hb => hfuel hb
  start := List.prefix_rfl
  jumps := jumpsLand_nil
  entries := fun _ hf => absurd hf List.not_mem_nil
  wcet := fun _ hf => absurd hf List.not_mem_nil

/-- A compilation that does not panic by itself keeps its terms. -/
theorem compile_keeps (src : List UInt8) (tokens : List Token) (checks : Bool) {fuel : ℕ}
    {bounded : Bool} {enough : bounded = true → tokens.length + 2 ≤ fuel}
    (hfuel : bounded = true → compileBound tokens.length ≤ fuel) {r : Rec}
    (hr : Calls (Session.start src tokens fuel bounded enough) r)
    (hsafe : (compile r).Forall perform SafeOp (CompilerState.new src tokens checks)) :
    (compile r).Forall perform WellOp (CompilerState.new src tokens checks) ∧
      Prog.Ends (Session.start src tokens fuel bounded enough).terms.fails
        ((compile r).run perform (CompilerState.new src tokens checks)) fun _ st => Finished st :=
  (runs_compile (sound_new src tokens checks hfuel) rfl rfl).sound hsafe

/-- The same of the compiler itself, whatever the recursion bound. -/
theorem compile_keeps_recN (src : List UInt8) (tokens : List Token) (checks : Bool) (fuel : ℕ)
    (hsafe : (compile (recN fuel fuel)).Forall perform SafeOp
      (CompilerState.new src tokens checks)) :
    (compile (recN fuel fuel)).Forall perform WellOp (CompilerState.new src tokens checks) ∧
      Prog.Ends (Session.start src tokens fuel false nofun).terms.fails
        ((compile (recN fuel fuel)).run perform (CompilerState.new src tokens checks))
        fun _ st => Finished st := by
  have hcalls : Calls (Session.start src tokens fuel false nofun) (recN fuel fuel) :=
    calls_recN fuel rfl
  exact compile_keeps src tokens checks (fun h => absurd h Bool.false_ne_true) hcalls hsafe

theorem compileState_eq_ok {checks : Bool} {fuel : ℕ} {src : List UInt8} {st : CompilerState}
    (h : compileState checks fuel src = .ok st) :
    ∃ tokens, Lexer.tokenize src checks maxTokens = .ok tokens ∧
      (compile (recN fuel fuel)).run perform (CompilerState.new src tokens checks) =
        .ok ((), st) := by
  unfold compileState at h
  split at h
  · cases h
  · next tokens htok =>
    cases hrun : (compile (recN fuel fuel)).run perform (CompilerState.new src tokens checks) with
    | error e =>
      rw [hrun] at h
      cases h
    | ok r =>
      rw [hrun] at h
      cases h
      exact ⟨tokens, htok, hrun⟩

theorem compileSource_eq_ok {checks : Bool} {fuel : ℕ} {src : List UInt8} {p : Program}
    (h : compileSource checks fuel src = .ok p) :
    ∃ st, compileState checks fuel src = .ok st ∧ st.program = p := by
  unfold compileSource at h
  cases hst : compileState checks fuel src with
  | error e =>
    rw [hst] at h
    cases h
  | ok st =>
    rw [hst] at h
    cases h
    exact ⟨st, rfl, rfl⟩

/-- The state of an accepted source, whatever the recursion bound. -/
theorem finished_of_compileState {checks : Bool} {fuel : ℕ} {src : List UInt8}
    {st : CompilerState} (h : compileState checks fuel src = .ok st) : Finished st := by
  obtain ⟨tokens, -, hrun⟩ := compileState_eq_ok h
  have hsafe := Prog.forall_of_run_ok perform_of_not_safeOp hrun
  have hend := (compile_keeps_recN src tokens checks fuel hsafe).2
  rw [hrun] at hend
  exact hend

end Compiler

end LatencyOS
