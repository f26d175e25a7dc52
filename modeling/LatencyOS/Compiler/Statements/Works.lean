import LatencyOS.Compiler.Statements.Assigned

/-!
# Statements are compiled as they should be

The cases of the statement compiler with jumps: a statement is compiled as it should be when its
parts are.  From them it follows for every statement, by induction on its grammar.
-/

namespace LatencyOS

open CompilerState PX64VM

namespace Compiler

variable {st st' t : CompilerState} {tok : ℕ → Token} {name : Token → Option (List UInt8)}
  {s a b : Stmt} {c e : Expr} {x : List UInt8} {i j k fuel n dst : ℕ} {u : Unit}

/-- Compiling the tokens of one statement, or of statements up to a brace or the end, does what
it should. -/
def StmtWorks (tok : ℕ → Token) (name : Token → Option (List UInt8)) (s : Stmt) (i j : ℕ) :
    Part → Prop
  | .one => ∀ {fuel n : ℕ} {st st' : CompilerState} {u : Unit}, At tok name i st → Simple st →
    (∀ x ∈ s.vars, Named x) → st'.spillCount = 0 → Yields (statement (recN fuel n)) st u st' →
    Compiles tok name s j st st'
  | .many => ∀ {fuel fuel' n : ℕ} {kind : TokenKind} {st st' : CompilerState} {u : Unit},
    At tok name i st → Simple st → (∀ x ∈ s.vars, Named x) → st'.spillCount = 0 →
    kind = .rBrace ∨ kind = .eof → (tok j).kind = kind ∨ (tok j).kind = .eof →
    Yields (untilToken fuel' kind (recN fuel n).statement) st u st' → Compiles tok name s j st st'

/-! ## Sequences -/

theorem works_nil : StmtWorks tok name .skip i i .many := by
  intro fuel fuel' n kind st st' u hat hs _ _ _ hstop hy
  obtain ⟨m, t, r, -, hstep, hrest⟩ := yields_loop hy
  simp only [yields_bind, yields_peekKind] at hstep
  obtain ⟨_, _, ⟨rfl, rfl⟩, hstep⟩ := hstep
  rw [hat.peek_kind, if_pos hstop] at hstep
  obtain ⟨rfl, rfl⟩ := yields_pure.mp hstep
  obtain ⟨-, rfl⟩ := hrest
  exact ⟨.leads (.of_books (.refl _)) (fun y hy => absurd hy (List.not_mem_nil)) fun _ _ _ => rfl,
    hat, hs⟩

theorem works_cons (hi : (tok i).kind ≠ .rBrace) (hi' : (tok i).kind ≠ .eof)
    (ha : StmtWorks tok name a i j .one) (hb : StmtWorks tok name b j k .many) :
    StmtWorks tok name (.seq a b) i k .many := by
  intro fuel fuel' n kind st st' u hat hs hvars hz hkind hstop hy
  obtain ⟨m, t, r, -, hstep, hrest⟩ := yields_loop hy
  simp only [yields_bind, yields_peekKind] at hstep
  obtain ⟨_, _, ⟨rfl, rfl⟩, hstep⟩ := hstep
  have hgo : ¬ ((tok i).kind = kind ∨ (tok i).kind = .eof) := by
    rintro (h | h)
    · rcases hkind with rfl | rfl
      · exact hi h
      · exact hi' h
    · exact hi' h
  rw [hat.peek_kind, if_neg hgo] at hstep
  simp only [yields_bind, yields_pure] at hstep
  obtain ⟨_, _, hstat, rfl, rfl⟩ := hstep
  obtain ⟨q, rfl, hstat⟩ := statement_of_yields hstat
  have hone := ha hat hs (fun y hy => hvars y (List.mem_append_left _ hy))
    (spillCount_zero hrest hz) hstat
  have hmany := hb hone.next hone.simple (fun y hy => hvars y (List.mem_append_right _ hy)) hz hkind
    hstop hrest
  exact ⟨.seq hone.code hmany.code, hmany.next, hmany.simple⟩

/-- A block, behind its opening brace. -/
theorem StmtWorks.body (ha : StmtWorks tok name a i k .many) (hk : (tok k).kind = .rBrace)
    (hat : At tok name i st) (hs : Simple st) (hvars : ∀ x ∈ a.vars, Named x)
    (hz : st'.spillCount = 0) (hy : Yields (recN fuel n).body st u st') :
    Compiles tok name a (k + 1) st st' := by
  simp only [Rec.body, yields_bind] at hy
  obtain ⟨_, t, hmany, hskip⟩ := hy
  have hcomp := ha hat hs hvars (spillCount_zero hskip hz) (.inl rfl) (.inl hk) hmany
  obtain rfl := (yields_skip_of_eq (hcomp.next.peek_kind.trans hk) (by decide)).mp hskip
  exact ⟨hcomp.code.books rfl, hcomp.next.next, simple_next hcomp.simple⟩

/-! ## Statements without jumps -/

theorem works_empty (h : (tok i).kind = .semi) : StmtWorks tok name .skip i (i + 1) .one := by
  intro fuel n st st' u hat hs _ _ hy
  simp only [statement, yields_bind, yields_peekKind] at hy
  obtain ⟨_, _, ⟨rfl, rfl⟩, hy⟩ := hy
  rw [hat.peek_kind, h] at hy
  simp only [yields_bind, yields_pure] at hy
  obtain ⟨_, _, hadv, _, rfl⟩ := hy
  obtain ⟨-, rfl⟩ := (yields_advance (by rw [hat.peek_kind, h]; decide)).mp hadv
  exact ⟨.leads (.of_quiet (.next _)) (fun y hy => absurd hy (List.not_mem_nil)) fun _ _ _ => rfl,
    hat.next, simple_next hs⟩

theorem works_declare (h : (tok i).kind = .let) (hd : Declared tok name (i + 1) x j)
    (hj : (tok j).kind = .semi) : StmtWorks tok name (.declare x) i (j + 1) .one := by
  intro fuel n st st' u hat hs hvars hz hy
  have hopens : IsAssign (tok j).kind → (tok (j + 1)).kind.opens = true := by
    rintro (hk | hk) <;> rw [hj] at hk <;> cases hk
  obtain ⟨tk, isMut, t, hname, hl, hs', hat', hy⟩ := letStatement_yields hat hs h hd hopens hy
  have hcomp := letVar_declare hat' hs' hname (hvars x List.mem_cons_self) hj hz hy
  exact ⟨.after hl hcomp.code, hcomp.next, hcomp.simple⟩

theorem works_init (h : (tok i).kind = .let) (hd : Declared tok name (i + 1) x j)
    (hsign : IsAssign (tok j).kind) (he : LatencyOS.Syn tok name 11 (j + 1) e k)
    (hk : (tok k).kind = .semi) : StmtWorks tok name (.assign x e) i (k + 1) .one := by
  intro fuel n st st' u hat hs hvars hz hy
  obtain ⟨tk, isMut, t, hname, hl, hs', hat', hy⟩ :=
    letStatement_yields hat hs h hd (fun _ => opens_of_syn he) hy
  have hcomp := letVar_assign hat' hs' hname (hvars x List.mem_cons_self) hsign
    (fun y hy => hvars y (List.mem_cons_of_mem x hy)) he hk hz hy
  exact ⟨.after hl hcomp.code, hcomp.next, hcomp.simple⟩

theorem works_assign (h : (tok i).kind = .varIdent) (hx : name (tok i) = some x)
    (hsign : IsAssign (tok (i + 1)).kind) (he : LatencyOS.Syn tok name 11 (i + 2) e j)
    (hj : (tok j).kind = .semi) : StmtWorks tok name (.assign x e) i (j + 1) .one := by
  intro fuel n st st' u hat hs hvars _ hy
  obtain ⟨q, t, hf, hy⟩ :=
    varStatement_yields hat hs h hx (hvars x List.mem_cons_self) (.inl hsign) hy
  have hreg : assigning (recN fuel n) (tok i) q (tok (i + 1)).kind =
      regAssign (recN fuel n) (tok i) q := by
    rcases hsign with hk | hk <;> rw [hk] <;> rfl
  rw [hreg] at hy
  have hcomp := regAssign_compiles hf.next hf.simple hf.place
    (fun y hy => hvars y (List.mem_cons_of_mem x hy)) he hj hy
  exact ⟨.after hf.leads hcomp.code, hcomp.next, hcomp.simple⟩

theorem works_update {add : Bool} (h : (tok i).kind = .varIdent) (hx : name (tok i) = some x)
    (hsign : (tok (i + 1)).kind = if add then TokenKind.plusEq else TokenKind.minusEq)
    (he : LatencyOS.Syn tok name 11 (i + 2) e j) (hj : (tok j).kind = .semi) :
    StmtWorks tok name (.update x add e) i (j + 1) .one := by
  intro fuel n st st' u hat hs hvars _ hy
  obtain ⟨q, t, hf, hy⟩ :=
    varStatement_yields hat hs h hx (hvars x List.mem_cons_self) (.inr ⟨add, hsign⟩) hy
  have hreg : assigning (recN fuel n) (tok i) q (tok (i + 1)).kind =
      regCompound (recN fuel n) (tok i) q (StmtCode.updateOp add) (StmtCode.updateImm add)
        (if add then addStage else subStage) := by
    rw [hsign]
    cases add <;> rfl
  rw [hreg] at hy
  have hcomp := regCompound_compiles hf.next hf.simple hf.place
    (fun y hy => hvars y (List.mem_cons_of_mem x hy)) he hj hy
  exact ⟨.after hf.leads hcomp.code, hcomp.next, hcomp.simple⟩

theorem works_assert (h : (tok i).kind = .atAssert) (hc : Guarded tok name (i + 1) c j)
    (hj : (tok j).kind = .semi) : StmtWorks tok name (.assert c) i (j + 1) .one := by
  intro fuel n st st' u hat hs hvars _ hy
  simp only [statement, yields_bind, yields_peekKind] at hy
  obtain ⟨_, st, ⟨rfl, rfl⟩, hy⟩ := hy
  rw [hat.peek_kind, h] at hy
  simp only [assertStatement, yields_bind, yields_emit] at hy
  obtain ⟨_, _, hadv, _, _, h₀, _, _, h₁, _, t, h₂, _, _, hsemi, hroom, rfl⟩ := hy
  obtain ⟨-, rfl⟩ := (yields_advance (by rw [hat.peek_kind, h]; decide)).mp hadv
  obtain ⟨hcomp, hat₁, hs₁⟩ := guarded_compiles hat.next (simple_next hs) hvars hc h₀ h₁ h₂
  obtain rfl := (yields_skip_of_eq (hat₁.peek_kind.trans hj) (by decide)).mp hsemi
  refine ⟨.after (.of_quiet (.next st)) (.assert (hcomp.quiet (.next t) rfl) rfl),
    hat₁.next.emitted hroom .., simple_emitted (simple_next hs₁) ..⟩

/-! ## Branches -/

theorem At.patchImm16 (hat : At tok name i st) (pos imm : ℕ) :
    At tok name i (st.patchImm16 pos imm) := by
  rw [CompilerState.patchImm16]
  split
  · exact ⟨hat.tok_eq, hat.name_eq, hat.current, ⟨by simpa using hat.fits.code, hat.fits.pool⟩⟩
  · exact hat

theorem simple_patchImm16 (hs : Simple st) (pos imm : ℕ) : Simple (st.patchImm16 pos imm) := by
  rw [CompilerState.patchImm16]
  split
  · exact ⟨hs.scale, hs.currentFn, hs.structs, hs.vars⟩
  · exact hs

/-- A block with its braces. -/
theorem StmtWorks.block {m : ℕ} {o : Bool} {s₁ : CompilerState}
    (ha : StmtWorks tok name a (j + 1) k .many)
    (hj : (tok j).kind = .lBrace) (hk : (tok k).kind = .rBrace) (hat : At tok name j st)
    (hs : Simple st) (hvars : ∀ x ∈ a.vars, Named x) (hz : st'.spillCount = 0)
    (hopen : Yields (matchToken .lBrace) st o s₁) (hy : Yields (recN fuel m).body s₁ u st') :
    Compiles tok name a (k + 1) st st' := by
  obtain ⟨-, rfl⟩ := (yields_matchToken_of_eq (hat.peek_kind.trans hj) (by decide)).mp hopen
  have hcomp := ha.body hk hat.next (simple_next hs) hvars hz hy
  exact ⟨.after (.of_quiet (.next st)) hcomp.code, hcomp.next, hcomp.simple⟩

theorem books_handles (states : ℕ → Typestate) (hat : At tok name i st) (hs : Simple st) :
    Books st { st with handleStates := states } ∧ Simple { st with handleStates := states } ∧
      At tok name i { st with handleStates := states } := by
  have hb : Books st { st with handleStates := states } := rfl
  exact ⟨hb, hs.books hb hs.scale fun q => (hs.vars q).1, hat.books hb rfl⟩

theorem yields_handleStates {states : ℕ → Typestate} :
    Yields handleStates st states st' ↔ states = st.handleStates ∧ st' = st := by
  simp only [Compiler.handleStates, yields_bind, yields_get, yields_pure]
  constructor
  · rintro ⟨_, _, ⟨rfl, rfl⟩, rfl, rfl⟩
    exact ⟨rfl, rfl⟩
  · rintro ⟨rfl, rfl⟩
    exact ⟨_, _, ⟨rfl, rfl⟩, rfl, rfl⟩

/-- An `if` statement up to the end of its first block. -/
theorem ifHead_yields {κ : ℕ → (ℕ → Typestate) → (ℕ → Typestate) → CompilerM Unit}
    {code message expected stage suggestion : String} (hat : At tok name i st) (hs : Simple st)
    (h : (tok i).kind = .if) (hc : Guarded tok name (i + 1) c j) (hj : (tok j).kind = .lBrace)
    (ha : StmtWorks tok name a (j + 1) k .many) (hk : (tok k).kind = .rBrace)
    (hvars : ∀ x ∈ c.vars ++ a.vars, Named x) (hz : st'.spillCount = 0)
    (hy : Yields (do
      let _ ← advance
      skip .lParen
      (recN fuel n).expression 0
      skip .rParen
      let jzPos ← emitInst .jz 0 0 0
      let before ← handleStates
      let opened ← matchToken .lBrace
      require opened code message expected stage suggestion
      (recN fuel n).body
      let statesIf ← handleStates
      κ jzPos before statesIf) st u st') :
    ∃ t₁ t₂ states, Compiled c 0 none st t₁ ∧ t₁.code.length + 4 ≤ maxBytecodeSize ∧
      Compiles tok name a (k + 1) (t₁.emitted .jz 0 0 0) t₂ ∧
      Yields (κ t₁.code.length states t₂.handleStates) t₂ u st' := by
  simp only [yields_bind, yields_emitInst, yields_handleStates, yields_require] at hy
  obtain ⟨_, _, hadv, _, _, h₀, _, _, h₁, _, t₁, h₂, _, _, ⟨hroom, rfl, rfl⟩, _, _, ⟨rfl, rfl⟩, o,
    _, hopen, _, _, ⟨-, rfl⟩, _, t₂, hbody, _, _, ⟨rfl, rfl⟩, hy⟩ := hy
  obtain ⟨-, rfl⟩ := (yields_advance (by rw [hat.peek_kind, h]; decide)).mp hadv
  obtain ⟨hcomp, hat₁, hs₁⟩ := guarded_compiles hat.next (simple_next hs)
    (fun y hy => hvars y (List.mem_append_left _ hy)) hc h₀ h₁ h₂
  refine ⟨t₁, _, _, .of_quiet (.next st) hcomp rfl, hroom, ?_, hy⟩
  exact ha.block hj hk (hat₁.emitted hroom ..) (simple_emitted hs₁ ..)
    (fun y hy => hvars y (List.mem_append_right _ hy)) (spillCount_zero hy hz) hopen hbody

theorem works_ifThen (h : (tok i).kind = .if) (hc : Guarded tok name (i + 1) c j)
    (hj : (tok j).kind = .lBrace) (ha : StmtWorks tok name a (j + 1) k .many)
    (hk : (tok k).kind = .rBrace) (he : (tok (k + 1)).kind ≠ .else) :
    StmtWorks tok name (.ifThen c a) i (k + 1) .one := by
  intro fuel n st st' u hat hs hvars hz hy
  simp only [statement, yields_bind, yields_peekKind] at hy
  obtain ⟨_, st, ⟨rfl, rfl⟩, hy⟩ := hy
  rw [hat.peek_kind, h] at hy
  obtain ⟨t₁, t₂, states, hcomp, hroom, hbody, hy⟩ :=
    ifHead_yields hat hs h hc hj ha hk hvars hz hy
  simp only [yields_bind] at hy
  obtain ⟨_, t₂, helse, hy⟩ := hy
  obtain ⟨rfl, rfl⟩ := (yields_matchToken_of_ne (by rw [hbody.next.peek_kind]; exact he)).mp helse
  simp only [Bool.false_eq_true, if_false, yields_bind, yields_codeLen, yields_patchImm16,
    yields_pure, yields_require] at hy
  obtain ⟨_, t₂, ⟨rfl, rfl⟩, _, _, rfl, _, _, ⟨rfl, rfl⟩, _, _, ⟨-, rfl⟩, hset⟩ := hy
  cases hset
  obtain ⟨hb, hs₃, hat₃⟩ := books_handles t₂.handleStates
    (hbody.next.patchImm16 t₁.code.length t₂.code.length) (simple_patchImm16 hbody.simple ..)
  refine ⟨?_, hat₃, hs₃⟩
  exact (StmtCode.ifThen hcomp hroom hbody.code hbody.next.fits.code rfl).books hb

/-- A branch behind `else`. -/
theorem works_ifElse {m : ℕ} (h : (tok i).kind = .if) (hc : Guarded tok name (i + 1) c j)
    (hj : (tok j).kind = .lBrace) (ha : StmtWorks tok name a (j + 1) k .many)
    (hk : (tok k).kind = .rBrace) (he : (tok (k + 1)).kind = .else)
    (hb : ∀ {fuel n : ℕ} {st st' : CompilerState} {u : Unit}, At tok name (k + 2) st →
      Simple st → (∀ x ∈ b.vars, Named x) → st'.spillCount = 0 →
      Yields (elseBranch (recN fuel n)) st u st' → Compiles tok name b m st st') :
    StmtWorks tok name (.ifElse c a b) i m .one := by
  intro fuel n st st' u hat hs hvars hz hy
  have hvars' : ∀ {l : List (List UInt8)}, l ⊆ (Stmt.ifElse c a b).vars → ∀ x ∈ l, Named x :=
    fun hl x hx => hvars x (hl hx)
  simp only [statement, yields_bind, yields_peekKind] at hy
  obtain ⟨_, st, ⟨rfl, rfl⟩, hy⟩ := hy
  rw [hat.peek_kind, h] at hy
  obtain ⟨t₁, t₂, states, hcomp, hroom, hbody, hy⟩ :=
    ifHead_yields hat hs h hc hj ha hk (hvars' (by simp [Stmt.vars])) hz hy
  simp only [yields_bind] at hy
  obtain ⟨_, _, helse, hy⟩ := hy
  obtain ⟨rfl, rfl⟩ :=
    (yields_matchToken_of_eq (hbody.next.peek_kind.trans he) (by decide)).mp helse
  simp only [if_true, yields_bind, yields_emitInst, yields_codeLen, yields_patchImm16,
    yields_handleStates, yields_require] at hy
  obtain ⟨_, _, ⟨hroom₂, rfl, rfl⟩, _, _, ⟨rfl, rfl⟩, _, _, rfl, _, m', hset, _, _, hbranch, _, t₄,
    ⟨rfl, rfl⟩, _, _, rfl, _, _, ⟨rfl, rfl⟩, _, _, ⟨-, rfl⟩, hset'⟩ := hy
  cases hset
  cases hset'
  have hat₂ := hbody.next.next.emitted hroom₂ .jmp 0 0 0
  obtain ⟨hb₂, hs₂, hat₂⟩ := books_handles states
    (hat₂.patchImm16 t₁.code.length (t₂.next.emitted .jmp 0 0 0).code.length)
    (simple_patchImm16 (simple_emitted (simple_next hbody.simple) ..) ..)
  have hz₂ : t₄.spillCount = 0 := (patchImm16_spillCount t₄ _ _).symm.trans hz
  have hcomp₂ := hb hat₂ hs₂ (hvars' (by simp [Stmt.vars])) hz₂ hbranch
  obtain ⟨hb₃, hs₃, hat₃⟩ := books_handles t₂.handleStates
    (hcomp₂.next.patchImm16 t₂.next.code.length t₄.code.length)
    (simple_patchImm16 hcomp₂.simple ..)
  refine ⟨?_, hat₃, hs₃⟩
  have hnext : StmtCode a _ t₂.next := hbody.code.books rfl
  refine (StmtCode.ifElse hcomp hroom hnext hroom₂ ?_
    (StmtCode.after (.of_books hb₂) hcomp₂.code) hcomp₂.next.fits.code rfl).books hb₃
  rw [length_emitted]

/-- A block behind `else`. -/
theorem elseBlock_compiles {m : ℕ} (hl : (tok k).kind = .lBrace)
    (hb : StmtWorks tok name b (k + 1) m .many) (hm : (tok m).kind = .rBrace)
    (hat : At tok name k st) (hs : Simple st) (hvars : ∀ x ∈ b.vars, Named x)
    (hz : st'.spillCount = 0) (hy : Yields (elseBranch (recN fuel n)) st u st') :
    Compiles tok name b (m + 1) st st' := by
  simp only [elseBranch, yields_bind, yields_peekKind] at hy
  obtain ⟨_, _, ⟨rfl, rfl⟩, hy⟩ := hy
  have hne : (tok k).kind ≠ .if := by rw [hl]; decide
  rw [hat.peek_kind, if_neg hne] at hy
  simp only [yields_bind, yields_require] at hy
  obtain ⟨o, _, hopen, _, _, ⟨-, rfl⟩, hbody⟩ := hy
  exact hb.block hl hm hat hs hvars hz hopen hbody

/-- Another `if` behind `else`. -/
theorem elseIf_compiles {m : ℕ} (hl : (tok k).kind = .if) (hb : StmtWorks tok name b k m .one)
    (hat : At tok name k st) (hs : Simple st) (hvars : ∀ x ∈ b.vars, Named x)
    (hz : st'.spillCount = 0) (hy : Yields (elseBranch (recN fuel n)) st u st') :
    Compiles tok name b m st st' := by
  simp only [elseBranch, yields_bind, yields_peekKind] at hy
  obtain ⟨_, _, ⟨rfl, rfl⟩, hy⟩ := hy
  rw [hat.peek_kind, if_pos hl] at hy
  obtain ⟨q, rfl, hstat⟩ := statement_of_yields hy
  exact hb hat hs hvars hz hstat

/-! ## Loops -/

/-- No invariant stands before a block. -/
theorem loopInvariant_yields {r : Rec} {inv : Option ℕ} (hat : At tok name i st)
    (hi : (tok i).kind = .lBrace) (h : Yields (loopInvariant r) st inv st') :
    inv = none ∧ st' = st := by
  simp only [loopInvariant, yields_bind] at h
  obtain ⟨_, _, hm, h⟩ := h
  obtain ⟨rfl, rfl⟩ := (yields_matchToken_of_ne (by rw [hat.peek_kind, hi]; decide)).mp hm
  exact yields_pure.mp h

theorem checkConfined_yields {before : ℕ → Typestate} {hint : String}
    (h : Yields (checkConfined before hint) st u st') : st' = st := by
  simp only [checkConfined, yields_bind, yields_handleStates, yields_require] at h
  obtain ⟨_, _, ⟨-, rfl⟩, -, rfl⟩ := h
  rfl

theorem works_loop (h : (tok i).kind = .atWhile ∨ (tok i).kind = .while)
    (hc : Guarded tok name (i + 1) c j) (hj : (tok j).kind = .lBrace)
    (ha : StmtWorks tok name a (j + 1) k .many) (hk : (tok k).kind = .rBrace) :
    StmtWorks tok name (.loop c a) i (k + 1) .one := by
  intro fuel n st st' u hat hs hvars hz hy
  have hne : st.peek.kind ≠ .eof := by
    rw [hat.peek_kind]
    rcases h with h | h <;> rw [h] <;> decide
  have hwhile : Yields (whileStatement (recN fuel n)) st u st' := by
    simp only [statement, yields_bind, yields_peekKind] at hy
    obtain ⟨_, _, ⟨rfl, rfl⟩, hy⟩ := hy
    rw [hat.peek_kind] at hy
    rcases h with h | h <;> rw [h] at hy <;> exact hy
  rw [whileStatement, yields_bind] at hwhile
  obtain ⟨_, _, hadv, hwhile⟩ := hwhile
  obtain ⟨-, rfl⟩ := (yields_advance hne).mp hadv
  simp only [yields_bind, yields_codeLen, yields_peekKind, yields_require, yields_emitInst,
    yields_handleStates, emitImm16, yields_patchImm16, exists_and_left, and_assoc, exists_eq_left,
    exists_const] at hwhile
  obtain ⟨_, _, h₀, -, _, _, h₁, _, t₁, h₂, inv, t', hinv, _, t₁, hcheck, hroom, o, _, hopen, -, _,
    t₂, hbody, _, _, hcheck', _, t₂, hconf, hroom₂, hst'⟩ := hwhile
  obtain ⟨hcomp, hat₁, hs₁⟩ := guarded_compiles hat.next (simple_next hs)
    (fun y hy => hvars y (List.mem_append_left _ hy)) hc h₀ h₁ h₂
  obtain ⟨rfl, rfl⟩ := loopInvariant_yields hat₁ hj hinv
  obtain ⟨-, rfl⟩ := yields_pure.mp hcheck
  obtain ⟨-, rfl⟩ := yields_pure.mp hcheck'
  obtain rfl := checkConfined_yields hconf
  have hz₂ : t₂.spillCount = 0 := by
    rw [hst', patchImm16_spillCount] at hz
    exact hz
  have hcomp₂ := ha.block hj hk (hat₁.emitted hroom ..) (simple_emitted hs₁ ..)
    (fun y hy => hvars y (List.mem_append_right _ hy)) hz₂ hopen hbody
  subst hst'
  refine ⟨?_, (hcomp₂.next.emitted hroom₂ ..).patchImm16 ..,
    simple_patchImm16 (simple_emitted hcomp₂.simple ..) ..⟩
  exact .after (.of_quiet (.next st))
    (.loop hcomp hroom hcomp₂.code hroom₂ (by rw [length_emitted]))

/-- A bound is a literal. -/
theorem forBound_yields {v w : Word64} {message expected suggestion : String}
    (hat : At tok name i st) (hv : (tok i).kind.literal = some v)
    (h : Yields (forBound message expected suggestion) st w st') : w = v ∧ st' = st.next := by
  simp only [forBound, peek, Compiler.peekAhead, yields_bind, yields_get, yields_pure] at h
  obtain ⟨_, _, ⟨_, _, ⟨rfl, rfl⟩, rfl, rfl⟩, h⟩ := h
  rw [hat.peekAhead, Nat.add_zero] at h
  have hne : (tok i).kind ≠ .eof := by
    intro hk
    rw [hk] at hv
    cases hv
  cases hk : (tok i).kind <;> rw [hk] at hv h <;> cases hv
  · simp only [yields_bind, yields_pure, yields_advance (hat.peek_kind ▸ hne)] at h
    obtain ⟨_, _, ⟨-, rfl⟩, rfl, rfl⟩ := h
    exact ⟨rfl, rfl⟩
  · simp only [yields_bind, yields_pure, yields_advance (hat.peek_kind ▸ hne)] at h
    obtain ⟨_, _, ⟨-, rfl⟩, rfl, rfl⟩ := h
    exact ⟨rfl, rfl⟩

theorem forIterations_yields {lo hi : Word64} {q : ℕ} (h : Yields (forIterations lo hi) st q st') :
    st' = st := by
  rw [Yields, forIterations, Prog.run_op, perform, rangeLen] at h
  repeat' split at h
  all_goals cases h
  all_goals rfl

/-- What a `for` loop does behind its range. -/
def rangeLoop (r : Rec) (varReg : ℕ) (startVal endVal : Word64) : CompilerM Unit := do
  let iterations ← forIterations startVal endVal
  emitConst varReg startVal
  let endReg ← allocTemp
  emitConst endReg endVal
  let loopStart ← codeLen
  emit .cmpLt 0 varReg endReg
  let jzPos ← emitInst .jz 0 0 0
  let inv ← loopInvariant r
  emitInvariantCheck r inv
  let opened ← matchToken .lBrace
  require opened "ERR_EXPECTED_LBRACE" "Missing opening brace '\x7b' for for loop body"
    "Left brace '\x7b'" "Statement -> For Loop" "Add opening brace '\x7b' after for loop range"
  let before ← handleStates
  let bodyStart ← codeLen
  r.body
  emitInvariantCheck r inv
  let bodyEnd ← codeLen
  checkConfined before
    "Ensure handle captured in for loop is consumed with @send before next iteration"
  require (min (((bodyEnd - bodyStart) / 4 + 4) * iterations) (2 ^ 64 - 1) ≤ maxVmSteps)
    "ERR_FOR_WCET_EXCEEDED" "Static loop WCET exceeds MAX_VM_STEPS step limit (10,000 steps)"
    "Loop with total steps <= 10,000" "Static Loop WCET Verification"
    "Reduce loop upper bound or simplify loop body to satisfy real-time step budget"
  emit .addi varReg varReg 1
  let _ ← emitImm16 .jmp 0 loopStart
  let done ← codeLen
  patchImm16 jzPos done
  freeTemp endReg

/-- The variable and the range of a `for` loop. -/
theorem forStatement_yields {r : Rec} {lo hi : Word64} (hat : At tok name i st) (hs : Simple st)
    (hne : (tok i).kind ≠ .eof) (hr : Ranged tok name (i + 1) x lo hi j) (hx : Named x)
    (hy : Yields (forStatement r) st u st') :
    ∃ q t, Found tok name x j st q t ∧ Yields (rangeLoop r q lo hi) t u st' := by
  rw [forStatement, yields_bind] at hy
  obtain ⟨_, _, hadv, hy⟩ := hy
  obtain ⟨-, rfl⟩ := (yields_advance (by rw [hat.peek_kind]; exact hne)).mp hadv
  simp only [yields_bind, yields_peekKind, yields_require, exists_and_left, and_assoc,
    exists_eq_left, exists_const] at hy
  obtain ⟨paren, t₁, hparen, -, tk, _, hadv', q, t₂, hres, isIn, _, hin, -, v, _, hlo, dots, _,
    hdots, -, w, t₃, hhi, hy⟩ := hy
  obtain ⟨rfl, hq₁, hi₁, hat₁⟩ := At.past hat.next (by decide) hparen
  have hs₁ := simple_quiet (simple_next hs) hq₁ hi₁
  obtain ⟨rfl, rfl⟩ := (yields_advance (by rw [hat₁.peek_kind, hr.ident]; decide)).mp hadv'
  have hname : name t₁.peek = some x := by
    rw [peek_eq_tok, hat₁.tok_eq, hat₁.current]
    exact hr.name_eq
  obtain ⟨hl, hplace, hs₂, hat₂⟩ := resolveVar_compiles hat₁.next (simple_next hs₁) hname hx hres
  obtain ⟨-, rfl⟩ := (yields_matchToken_of_eq (hat₂.peek_kind.trans hr.isIn) (by decide)).mp hin
  obtain ⟨rfl, rfl⟩ := forBound_yields hat₂.next hr.lo_eq hlo
  obtain ⟨-, rfl⟩ :=
    (yields_matchToken_of_eq (hat₂.next.next.peek_kind.trans hr.dots) (by decide)).mp hdots
  obtain ⟨rfl, rfl⟩ := forBound_yields hat₂.next.next.next hr.hi_eq hhi
  have hleads : Leads st t₂.next.next.next.next :=
    ((((Leads.of_quiet (.next st)).trans (.of_quiet hq₁)).trans (.of_quiet (.next t₁))).trans
      hl).trans (.of_quiet (.move t₂ _ _))
  have hat₃ := hat₂.next.next.next.next
  have hs₃ : Simple t₂.next.next.next.next := simple_quiet hs₂ (.move t₂ _ _) rfl
  rcases hr.stop with ⟨hk, rfl⟩ | ⟨hk, hclose, rfl⟩
  · rw [decide_eq_false hk] at hy
    exact ⟨q, _, ⟨hleads, hplace, hs₃, hat₃⟩, hy⟩
  · rw [decide_eq_true hk] at hy
    rw [if_pos rfl, yields_bind] at hy
    obtain ⟨_, _, hskip, hy⟩ := hy
    obtain rfl := (yields_skip_of_eq (hat₃.peek_kind.trans hclose) (by decide)).mp hskip
    exact ⟨q, _, ⟨hleads.trans (.of_quiet (.next _)), hplace, simple_next hs₃, hat₃.next⟩, hy⟩

theorem works_count {lo hi : Word64} (h : (tok i).kind = .for ∨ (tok i).kind = .atFor)
    (hr : Ranged tok name (i + 1) x lo hi j) (hj : (tok j).kind = .lBrace)
    (ha : StmtWorks tok name a (j + 1) k .many) (hk : (tok k).kind = .rBrace) :
    StmtWorks tok name (.count x lo hi a) i (k + 1) .one := by
  intro fuel n st st' u hat hs hvars hz hy
  have hne : (tok i).kind ≠ .eof := by
    rcases h with h | h <;> rw [h] <;> decide
  have hfor : Yields (forStatement (recN fuel n)) st u st' := by
    simp only [statement, yields_bind, yields_peekKind] at hy
    obtain ⟨_, _, ⟨rfl, rfl⟩, hy⟩ := hy
    rw [hat.peek_kind] at hy
    rcases h with h | h <;> rw [h] at hy <;> exact hy
  obtain ⟨q, t, hf, hy⟩ := forStatement_yields hat hs hne hr (hvars x List.mem_cons_self) hfor
  rw [rangeLoop] at hy
  simp only [yields_bind, yields_codeLen, yields_require, yields_emitInst, yields_handleStates,
    emitImm16, yields_patchImm16, yields_emit, yields_allocTemp, yields_freeTemp,
    exists_and_left, exists_and_right, and_assoc, exists_eq_left, exists_const] at hy
  obtain ⟨m, t, hiter, _, t₁, hlo, _, _, ⟨p, hp, rfl, rfl⟩, _, t₂, hup, hroom₁, hroom₂, inv, _,
    hinv, _, _, hcheck, o, _, hopen, -, _, t₃, hbody, _, _, hcheck', _, t₃, hconf, -, hroom₃,
    hroom₄, -, hst'⟩ := hy
  obtain rfl := forIterations_yields hiter
  -- both bounds
  have hload := loads_of_yields hf.next.fits.pool hlo
  have hat₁ := (hf.next.of_yields hlo hload.segment.grows hload.current).take p
  have hs₀ := hf.simple.grows hload.segment.grows (by rw [hload.info]; exact hf.simple.scale)
  have hs₁ := hs₀.grows (.take t₁ p) hs₀.scale
  have hload' := loads_of_yields hat₁.fits.pool hup
  have hat₂ := hat₁.of_yields hup hload'.segment.grows hload'.current
  have hs₂ := hs₁.grows hload'.segment.grows (by rw [hload'.info]; exact hs₁.scale)
  -- the test and the body
  have hat₃ : At tok name j (StmtCode.counting t₂ q p) :=
    (hat₂.emitted hroom₁ ..).emitted hroom₂ ..
  obtain ⟨rfl, rfl⟩ := loopInvariant_yields hat₃ hj hinv
  obtain ⟨-, rfl⟩ := yields_pure.mp hcheck
  obtain ⟨-, rfl⟩ := yields_pure.mp hcheck'
  obtain rfl := checkConfined_yields hconf
  have hz₃ : t₃.spillCount = 0 := by
    rw [hst', freeTemp_spillCount, patchImm16_spillCount] at hz
    exact hz
  have hcomp := ha.block hj hk hat₃ (simple_emitted (simple_emitted hs₂ ..) ..)
    (fun y hy => hvars y (List.mem_cons_of_mem x hy)) hz₃ hopen hbody
  have hstop : ((t₃.emitted .addi q q 1).emitted .jmp 0 (t₂.code.length / 256)
      (t₂.code.length % 256)).code.length = t₃.code.length + 8 := by
    rw [length_emitted, length_emitted]
  rw [hstop, length_emitted] at hst'
  subst hst'
  rw [length_emitted] at hroom₂ hroom₄
  refine ⟨.after hf.leads (.count hf.place hload hp hload' hroom₂ hcomp.code hroom₄ rfl),
    (((hcomp.next.emitted hroom₃ ..).emitted ?_ ..).patchImm16 ..).freeTemp _,
    simple_freeTemp (simple_patchImm16 (simple_emitted (simple_emitted hcomp.simple ..) ..) ..) _⟩
  rw [length_emitted]
  exact hroom₄

/-! ## All statements -/

/-- Every statement of the grammar is compiled as it should be. -/
theorem works_of_stmtSyn {part : Part} (h : StmtSyn tok name part i s j) :
    StmtWorks tok name s i j part := by
  induction h with
  | nil => exact works_nil
  | cons hi hi' _ _ iha ihb => exact works_cons hi hi' iha ihb
  | empty h => exact works_empty h
  | declare h hd hj => exact works_declare h hd hj
  | init h hd hs he hk => exact works_init h hd hs he hk
  | assign h hx hs he hj => exact works_assign h hx hs he hj
  | update h hx hs he hj => exact works_update h hx hs he hj
  | assert h hc hj => exact works_assert h hc hj
  | ifThen h hc hj _ hk he iha => exact works_ifThen h hc hj iha hk he
  | ifElse h hc hj _ hk he hl _ hm iha ihb =>
    exact works_ifElse h hc hj iha hk he (elseBlock_compiles hl ihb hm)
  | elseIf h hc hj _ hk he hl _ iha ihb =>
    exact works_ifElse h hc hj iha hk he (elseIf_compiles hl ihb)
  | loop h hc hj _ hk iha => exact works_loop h hc hj iha hk
  | count h hr hj _ hk iha => exact works_count h hr hj iha hk

end Compiler

end LatencyOS
