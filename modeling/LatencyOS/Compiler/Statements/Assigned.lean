import LatencyOS.Compiler.Assign
import LatencyOS.Compiler.Statements.Code

/-!
# Assignments and declarations of integer variables

What the functions of the statement compiler do on the tokens of an assignment or a declaration:
the state between the parts is followed through each of them, and the rules of the code are
applied to what was emitted.
-/

namespace LatencyOS

open CompilerState PX64VM

namespace Compiler

variable {st st' t : CompilerState} {tok : ℕ → Token} {name : Token → Option (List UInt8)}
  {s a b : Stmt} {c e : Expr} {x : List UInt8} {i j k fuel n dst : ℕ} {u : Unit}

/-- A name that the compiler keeps whole, and that is no register of its own. -/
def Named (x : List UInt8) : Prop := x.length ≤ 16 ∧ registerAlias x = none

/-- What the compilation of a statement leaves behind. -/
structure Compiles (tok : ℕ → Token) (name : Token → Option (List UInt8)) (s : Stmt) (j : ℕ)
    (st st' : CompilerState) : Prop where
  code : StmtCode s st st'
  next : At tok name j st'
  simple : Simple st'

/-! ## Spill slots -/

theorem patchImm16_spillCount (st : CompilerState) (pos imm : ℕ) :
    (st.patchImm16 pos imm).spillCount = st.spillCount := by
  rw [CompilerState.patchImm16]
  split <;> rfl

theorem freeTemp_spillCount (st : CompilerState) (r : ℕ) :
    (st.freeTemp r).spillCount = st.spillCount := by
  rw [CompilerState.freeTemp]
  split <;> rfl

/-- A spill slot is never given back. -/
theorem spillCount_le {α : Type} {p : CompilerM α} {r : α} (h : Yields p st r st') :
    st.spillCount ≤ st'.spillCount := by
  refine Prog.run_rel perform (R := fun s t => s.spillCount ≤ t.spillCount)
    (fun _ => Nat.le_refl _) Nat.le_trans (@fun _ o _ s t ho => ?_) p h
  cases o with
  | emitInst op rd rs1 rs2 =>
    simp only [perform, CompilerState.emitInst] at ho
    split at ho <;> cases ho
    exact Nat.le_refl _
  | patchImm16 pos imm =>
    cases ho
    exact Nat.le_of_eq (patchImm16_spillCount ..).symm
  | allocTemp =>
    simp only [perform, CompilerState.allocTemp] at ho
    split at ho <;> cases ho
    exact Nat.le_refl _
  | freeTemp reg =>
    cases ho
    exact Nat.le_of_eq (freeTemp_spillCount ..).symm
  | addConstant val =>
    simp only [perform, CompilerState.addConstant, CompilerState.pushConstant] at ho
    repeat' split at ho
    all_goals cases ho
    all_goals exact Nat.le_refl _
  | appendTableConstant val =>
    simp only [perform, CompilerState.pushConstant] at ho
    split at ho <;> cases ho
    exact Nat.le_refl _
  | declareVar tok isMut =>
    simp only [perform, CompilerState.declareVar] at ho
    repeat' split at ho
    all_goals cases ho
    · exact Nat.le_refl _
    · exact Nat.le_refl _
    · exact Nat.le_refl _
    · exact Nat.le_succ _
  | resolveVar tok =>
    simp only [perform, CompilerState.resolveVar] at ho
    repeat' split at ho
    all_goals cases ho
    all_goals exact Nat.le_refl _
  | leaveFn =>
    cases ho
    rw [CompilerState.leaveFn]
    split <;> exact Nat.le_refl _
  | appendStr text =>
    simp only [perform, CompilerState.appendStr] at ho
    split at ho <;> cases ho
    exact Nat.le_refl _
  | pushArray name len =>
    simp only [perform, CompilerState.pushArray] at ho
    split at ho <;> cases ho
    exact Nat.le_refl _
  | negate n =>
    simp only [perform, CompilerState.negate] at ho
    split at ho <;> cases ho
    exact Nat.le_refl _
  | rangeLen startVal endVal =>
    simp only [perform, CompilerState.rangeLen] at ho
    repeat' split at ho
    all_goals cases ho
    all_goals exact Nat.le_refl _
  | _ =>
    cases ho
    exact Nat.le_refl _

theorem spillCount_zero {α : Type} {p : CompilerM α} {r : α} (h : Yields p st r st')
    (hz : st'.spillCount = 0) : st.spillCount = 0 := Nat.le_zero.mp (hz ▸ spillCount_le h)

/-! ## Tokens -/

theorem At.grown (hat : At tok name i st) (h : Extends st st') (hfits : Fits st')
    (hcur : st'.current = j) : At tok name j st' :=
  ⟨h.tok_eq.trans hat.tok_eq, h.text_eq.trans hat.name_eq, hcur, hfits⟩

/-- Books kept at a token. -/
theorem At.books (hat : At tok name i st) (h : Books st st') (hcur : st'.current = st.current) :
    At tok name i st' :=
  hat.grown h.grown ⟨by rw [h.code]; exact hat.fits.code, by rw [h.consts]; exact hat.fits.pool⟩
    (hcur.trans hat.current)

theorem yields_skip_of_eq {kind : TokenKind} (h : st.peek.kind = kind) (hne : kind ≠ .eof) :
    Yields (skip kind) st u st' ↔ st' = st.next := by
  simp only [skip, yields_bind, yields_matchToken_of_eq h hne, yields_pure]
  constructor
  · rintro ⟨_, _, ⟨rfl, rfl⟩, _, rfl⟩
    rfl
  · rintro rfl
    exact ⟨_, _, ⟨rfl, rfl⟩, trivial, rfl⟩

theorem yields_skip_of_ne {kind : TokenKind} (h : st.peek.kind ≠ kind) :
    Yields (skip kind) st u st' ↔ st' = st := by
  simp only [skip, yields_bind, yields_matchToken_of_ne h, yields_pure]
  constructor
  · rintro ⟨_, _, ⟨rfl, rfl⟩, _, rfl⟩
    rfl
  · rintro rfl
    exact ⟨_, _, ⟨rfl, rfl⟩, trivial, rfl⟩

/-- An optional token, that is there or not. -/
theorem At.past {kind : TokenKind} {b : Bool} (hat : At tok name i st) (hne : kind ≠ .eof)
    (h : Yields (matchToken kind) st b st') :
    b = decide ((tok i).kind = kind) ∧ Quiet st st' ∧ st'.info = st.info ∧
      At tok name (past tok kind i) st' := by
  by_cases hk : (tok i).kind = kind
  · obtain ⟨rfl, rfl⟩ := (yields_matchToken_of_eq (hat.peek_kind.trans hk) hne).mp h
    rw [past, if_pos hk]
    exact ⟨(decide_eq_true hk).symm, .next st, rfl, hat.next⟩
  · obtain ⟨rfl, rfl⟩ := (yields_matchToken_of_ne (hat.peek_kind ▸ hk)).mp h
    rw [past, if_neg hk]
    exact ⟨(decide_eq_false hk).symm, .move st' _ _, rfl, hat⟩

theorem simple_quiet (h : Simple st) (hq : Quiet st st') (hinfo : st'.info = st.info) :
    Simple st' := h.grows hq.segment.grows (by rw [hinfo]; exact h.scale)

theorem simple_next (h : Simple st) : Simple st.next := simple_quiet h (.next st) rfl

theorem statement_of_yields (hy : Yields (recN fuel n).statement st u st') :
    ∃ m, n = m + 1 ∧ Yields (statement (recN fuel m)) st u st' := by
  cases n with
  | zero => cases hy
  | succ m => exact ⟨m, rfl, hy⟩

/-! ## Expressions and conditions -/

theorem expression_compiles (hat : At tok name i st) (hs : Simple st)
    (hvars : ∀ x ∈ e.vars, Named x) (hsyn : LatencyOS.Syn tok name 11 i e j)
    (hf : Follows (tok j).kind) (hy : Yields ((recN fuel n).expression dst) st u st') :
    Compiled e dst none st st' ∧ At tok name j st' ∧ Simple st' := by
  obtain ⟨m, rfl, hy⟩ := expression_of_yields hy
  obtain ⟨hc, hat'⟩ := Works.expression (works_of_syn hsyn) hat
    (hs.ready fun x hx => (hvars x hx).1) hf hy
  exact ⟨hc, hat', hs.compiled hc⟩

/-- A condition, with its parentheses. -/
theorem guarded_compiles {t₀ t₁ : CompilerState} {u₀ u₁ u₂ : Unit} (hat : At tok name i st)
    (hs : Simple st) (hvars : ∀ x ∈ c.vars, Named x) (hg : Guarded tok name i c j)
    (h₀ : Yields (skip .lParen) st u₀ t₀) (h₁ : Yields ((recN fuel n).expression 0) t₀ u₁ t₁)
    (h₂ : Yields (skip .rParen) t₁ u₂ st') :
    Compiled c 0 none st st' ∧ At tok name j st' ∧ Simple st' := by
  cases hg with
  | paren hl hc hr =>
    obtain rfl := (yields_skip_of_eq (hat.peek_kind.trans hl) (by decide)).mp h₀
    obtain ⟨hcomp, hat₁, hs₁⟩ := expression_compiles hat.next (simple_next hs) hvars hc
      (hr ▸ follows_rParen) h₁
    obtain rfl := (yields_skip_of_eq (hat₁.peek_kind.trans hr) (by decide)).mp h₂
    exact ⟨(Compiled.of_quiet (.next st) hcomp rfl).quiet (.next t₁) rfl, hat₁.next,
      simple_next hs₁⟩
  | bare hl hc hf hr =>
    obtain rfl := (yields_skip_of_ne (hat.peek_kind ▸ hl)).mp h₀
    obtain ⟨hcomp, hat₁, hs₁⟩ := expression_compiles hat hs hvars hc hf h₁
    obtain rfl := (yields_skip_of_ne (hat₁.peek_kind ▸ hr)).mp h₂
    exact ⟨hcomp, hat₁, hs₁⟩

/-! ## Books -/

theorem books_setTypesOf {tk : Token} {f : Var → Option ℕ × Option ℕ}
    (hf : ∀ i, (f (st.vars i)).2 = none) (hs : Simple st) (hat : At tok name i st)
    (h : Yields (setTypesOf tk f) st u st') :
    Books st st' ∧ Simple st' ∧ At tok name i st' := by
  simp only [setTypesOf, getVarIndex, yields_bind, yields_get, yields_pure, and_assoc,
    exists_and_left, exists_eq_left] at h
  split at h
  · next q _ =>
    cases h
    have hbooks : Books st { st with
        vars := Function.update st.vars q { st.vars q with
          enumType := (f (st.vars q)).1, fixedScale := (f (st.vars q)).2 } } :=
      .update ⟨rfl, rfl, rfl, rfl⟩
    refine ⟨hbooks, hs.books hbooks hs.scale fun p => ?_, hat.books hbooks rfl⟩
    by_cases hp : p = q
    · subst hp
      simp [hf]
    · simp [Function.update_of_ne hp, (hs.vars p).1]
  · obtain ⟨-, rfl⟩ := yields_pure.mp h
    exact ⟨.refl st', hs, hat⟩

theorem books_applyHwAssignPost {r : ℕ} {tk : Token} {from' : Option (ℕ × ResourceKind)}
    (hs : Simple st) (hat : At tok name i st)
    (h : Yields (applyHwAssignPost r tk from') st u st') :
    Books st st' ∧ Simple st' ∧ At tok name i st' ∧ st'.info = st.info := by
  have hset : ∀ {st st' : CompilerState} {slot : ℕ} {ts : Typestate} {u : Unit},
      Yields (setHandleState slot ts) st u st' →
      ∃ states, st' = { st with handleStates := states } := by
    intro st st' slot ts u h
    simp only [setHandleState, yields_bind, yields_get] at h
    obtain ⟨_, _, ⟨rfl, rfl⟩, h⟩ := h
    cases h
    exact ⟨_, rfl⟩
  have hall : ∃ states, st' = { st with handleStates := states } := by
    simp only [applyHwAssignPost] at h
    split at h
    · obtain ⟨-, rfl⟩ := yields_pure.mp h
      exact ⟨st'.handleStates, rfl⟩
    split at h
    · obtain ⟨_, t, h₁, h₂⟩ := yields_bind.mp h
      obtain ⟨_, rfl⟩ := hset h₁
      obtain ⟨_, rfl⟩ := hset h₂
      exact ⟨_, rfl⟩
    · exact hset h
  obtain ⟨states, rfl⟩ := hall
  have hbooks : Books st { st with handleStates := states } := rfl
  exact ⟨hbooks, hs.books hbooks hs.scale fun i => (hs.vars i).1, hat.books hbooks rfl, rfl⟩

/-- A change of what the last expression was. -/
theorem books_info (hs : Simple st) (hat : At tok name i st) (info : ExprInfo)
    (hscale : info.fixedScale = none) :
    Books st { st with info := info } ∧ Simple { st with info := info } ∧
      At tok name i { st with info := info } :=
  ⟨rfl, hs.books rfl hscale fun i => (hs.vars i).1, hat.books rfl rfl⟩

/-! ## Variables -/

/-- A new variable is the last of the table. -/
theorem grows_pushVar {r slot : ℕ} {isMut : Bool} (hs : Simple st) :
    Grows st (st.pushVar x isMut r false slot) where
  frozen := rfl
  code_le := Nat.le_refl _
  code := fun _ _ => rfl
  consts := List.prefix_rfl
  log := List.prefix_rfl
  count_le := Nat.le_succ _
  vars := fun i hi => Function.update_of_ne (by
    have : (st.pushVar x isMut r false slot).varCount = st.varCount + 1 := rfl
    omega) ..
  fresh := fun i h₁ h₂ => by
    obtain rfl : i = st.varCount := by
      have : i < st.varCount + 1 := h₂
      omega
    simp only [pushVar, Function.update_self]
    exact ⟨trivial, (hs.vars _).1⟩

theorem place_pushVar {r slot : ℕ} {isMut : Bool} (hs : Simple st) (hx : Named x)
    (hfind : st.findVar x = none) :
    (st.pushVar x isMut r false slot).place x = some (.reg r) := by
  have hparam : (st.pushVar x isMut r false slot).paramReg x = none := by
    simp [CompilerState.paramReg, pushVar, hs.currentFn]
  have hfound : (st.pushVar x isMut r false slot).findVar x = some st.varCount := by
    simp only [findVar, List.find?_range_eq_some, List.mem_range, pushVar, Function.update_self,
      beq_iff_eq]
    refine ⟨List.take_of_length_le hx.1, Nat.lt_succ_self _, fun q hq => ?_⟩
    rw [Function.update_of_ne (by omega)]
    exact List.find?_range_eq_none.mp hfind q hq
  rw [CompilerState.place, (grows_pushVar hs).spillOf, hs.spillOf, regOf, hx.2, hparam, hfound]
  simp only [Option.map_some, pushVar, Function.update_self]

/-- A declared variable has a register, when no spill slot was used. -/
theorem declareVar_compiles {tk : Token} {isMut : Bool} {r : ℕ} (hat : At tok name i st)
    (hs : Simple st) (hname : name tk = some x) (hx : Named x) (hz : st'.spillCount = 0)
    (hy : Yields (declareVar tk isMut) st r st') :
    Leads st st' ∧ st'.place x = some (.reg r) ∧ Simple st' ∧ At tok name i st' ∧
      st'.info = st.info := by
  have htext : (st.text? tk).getD [] = x := by
    rw [hat.name_eq, hname]
    rfl
  rw [Yields, declareVar, Prog.run_op, perform, CompilerState.declareVar] at hy
  simp only [htext, hx.2] at hy
  split at hy
  · next q hq =>
    cases hy
    have hbooks : Books st { st with
        vars := Function.update st.vars q { st.vars q with isMut := isMut } } :=
      .update ⟨rfl, rfl, rfl, rfl⟩
    refine ⟨.of_books hbooks, ?_, hs.books hbooks hs.scale fun p => ?_, hat.books hbooks rfl, rfl⟩
    · have hparam : st.paramReg x = none := by simp [CompilerState.paramReg, hs.currentFn]
      rw [hbooks.place, CompilerState.place, hs.spillOf, regOf, hx.2, hparam, hq]
      rfl
    · by_cases hp : p = q
      · subst hp
        simpa using (hs.vars p).1
      · simpa [Function.update_of_ne hp] using (hs.vars p).1
  · next hfind =>
    split at hy
    · cases hy
    split at hy
    · cases hy
      have hgrows : Grows st (st.pushVar x isMut (1 + st.varCount) false 0) := grows_pushVar hs
      have hseg : Segment st (st.pushVar x isMut (1 + st.varCount) false 0) :=
        ⟨hgrows, rfl, free_of_log_eq rfl, id⟩
      exact ⟨⟨.of_segment hseg, rfl, rfl⟩, place_pushVar hs hx hfind,
        hs.grows hgrows hs.scale,
        hat.grows hgrows ⟨hat.fits.code, hat.fits.pool⟩ hat.current, rfl⟩
    split at hy
    · cases hy
    · cases hy
      exact absurd hz (Nat.succ_ne_zero _)

/-- So has one that is looked up. -/
theorem resolveVar_compiles {tk : Token} {r : ℕ} (hat : At tok name i st) (hs : Simple st)
    (hname : name tk = some x) (hx : Named x) (hy : Yields (resolveVar tk) st r st') :
    Leads st st' ∧ st'.place x = some (.reg r) ∧ Simple st' ∧ At tok name i st' := by
  have htext : st.text? tk = some x := by rw [hat.name_eq, hname]
  have hres := resolved_of_yields htext (.inr ⟨hx.1, hs.clean⟩) (hs.spillOf x) hy
  refine ⟨⟨.of_segment hres.segment, hres.code, hres.log⟩, hres.place,
    hs.grows hres.segment.grows (by rw [hres.info]; exact hs.scale), ?_⟩
  exact hat.of_yields hy hres.segment.grows hres.current

/-! ## Assignments -/

/-- The end of a statement: its semicolon. -/
theorem endAssign_compiles (hat : At tok name j st) (hs : Simple st)
    (hj : (tok j).kind = .semi) (hy : Yields endAssign st u st') :
    Books st st' ∧ Simple st' ∧ At tok name (j + 1) st' := by
  simp only [endAssign, yields_bind, yields_require] at hy
  obtain ⟨_, _, hm, -, rfl⟩ := hy
  obtain ⟨-, rfl⟩ := (yields_matchToken_of_eq (hat.peek_kind.trans hj) (by decide)).mp hm
  exact ⟨rfl, simple_next hs, hat.next⟩

/-- An assignment, behind its sign. -/
theorem regAssign_compiles {tk : Token} {r : ℕ} (hat : At tok name i st) (hs : Simple st)
    (hx : st.place x = some (.reg r)) (hvars : ∀ y ∈ e.vars, Named y)
    (hsyn : LatencyOS.Syn tok name 11 i e j) (hj : (tok j).kind = .semi)
    (hy : Yields (regAssign (recN fuel n) tk r) st u st') :
    Compiles tok name (.assign x e) (j + 1) st st' := by
  simp only [regAssign, setEnumType, yields_bind, yields_modifyInfo, yields_get] at hy
  obtain ⟨_, t, hmut, _, t', hpre, _, _, rfl, _, s₁, hexpr, _, s₂, hpost, _, _, ⟨rfl, rfl⟩, _, s₃,
    htypes, hsemi⟩ := hy
  obtain rfl := yields_checkVarMutation hmut
  have hhead : (t.peekAhead 0).kind ≠ .hardwareIdent := by
    rw [show t.peekAhead 0 = t.peek from rfl, hat.peek_kind]
    exact head_ne_hardwareIdent hsyn
  obtain rfl := yields_checkHwAssignPre hhead hpre
  obtain ⟨hbooks, hs', hat'⟩ := books_info hs hat { t'.info with enumType := none } hs.scale
  obtain ⟨hcomp, hat₁, hs₁⟩ := expression_compiles hat' hs' hvars hsyn (hj ▸ follows_semi) hexpr
  obtain ⟨hb₂, hs₂, hat₂, -⟩ := books_applyHwAssignPost hs₁ hat₁ hpost
  obtain ⟨hb₃, hs₃, hat₃⟩ := books_setTypesOf (fun q => (hs₂.vars q).1) hs₂ hat₂ htypes
  obtain ⟨hb₄, hs₄, hat₄⟩ := endAssign_compiles hat₃ hs₃ hj hsemi
  refine ⟨?_, hat₄, hs₄⟩
  have hcode := StmtCode.assign (x := x) (by rw [hbooks.place]; exact hx) hcomp
  exact (StmtCode.after (.of_books hbooks) hcode).books (hb₂.trans (hb₃.trans hb₄))

/-- The end of a compound assignment. -/
theorem endCompound_compiles {stage : String} (hat : At tok name j st) (hj : (tok j).kind = .semi)
    (hy : Yields (endCompound stage) st u st') : st' = st.next := by
  simp only [endCompound, yields_bind, yields_require] at hy
  obtain ⟨_, _, hm, -, rfl⟩ := hy
  exact ((yields_matchToken_of_eq (hat.peek_kind.trans hj) (by decide)).mp hm).2

theorem exists_of_smallLiteral {kind : TokenKind} {w : ℕ} (h : smallLiteral kind = some w) :
    w ≤ 255 ∧ kind = .number (BitVec.ofNat 64 w) := by
  simp only [smallLiteral] at h
  split at h
  · next v =>
    split at h <;> cases h
    exact ⟨by assumption, by rw [BitVec.ofNat_toNat, BitVec.setWidth_eq]⟩
  · cases h

theorem simple_freeTemp (hs : Simple st) (r : ℕ) : Simple (st.freeTemp r) :=
  hs.grows (.freeTemp st r) (by rw [freeTemp_info]; exact hs.scale)

theorem simple_emitted (hs : Simple st) (op : Opcode) (rd rs1 rs2 : ℕ) :
    Simple (st.emitted op rd rs1 rs2) := hs.grows (Segment.emitted ..).grows hs.scale

theorem At.emitted (hat : At tok name i st) (hroom : st.code.length + 4 ≤ maxBytecodeSize)
    (op : Opcode) (rd rs1 rs2 : ℕ) : At tok name i (st.emitted op rd rs1 rs2) :=
  hat.grown (.of_segment (.emitted ..)) ⟨by rw [length_emitted]; exact hroom, hat.fits.pool⟩
    hat.current

/-- A compound assignment, behind its sign. -/
theorem regCompound_compiles {tk : Token} {r : ℕ} {add : Bool} {stage : String}
    (hat : At tok name i st) (hs : Simple st) (hx : st.place x = some (.reg r))
    (hvars : ∀ y ∈ e.vars, Named y) (hsyn : LatencyOS.Syn tok name 11 i e j)
    (hj : (tok j).kind = .semi)
    (hy : Yields (regCompound (recN fuel n) tk r (StmtCode.updateOp add) (StmtCode.updateImm add)
      stage) st u st') : Compiles tok name (.update x add e) (j + 1) st st' := by
  simp only [regCompound, yields_bind, yields_peekKind] at hy
  obtain ⟨_, _, hmut, _, t, ⟨rfl, rfl⟩, hy⟩ := hy
  obtain rfl := yields_checkVarMutation hmut
  split at hy
  · next w hw =>
    -- a small literal is the whole right-hand side
    obtain ⟨hle, hk⟩ := exists_of_smallLiteral hw
    rw [hat.peek_kind] at hk
    simp only [yields_bind, yields_emit] at hy
    obtain ⟨_, t', hadv, _, _, ⟨hroom, rfl⟩, hend⟩ := hy
    have hne : t.peek.kind ≠ .eof := by
      rw [hat.peek_kind, hk]
      exact TokenKind.noConfusion
    obtain ⟨-, rfl⟩ := (yields_advance hne).mp hadv
    have hat₁ := hat.next.emitted hroom (StmtCode.updateImm add) r r w
    have hsemi : (tok (i + 1)).kind = .semi := by
      simp only [endCompound, yields_bind, yields_require] at hend
      obtain ⟨_, _, hm, rfl, rfl⟩ := hend
      by_contra hne
      have := ((yields_matchToken_of_ne (by rw [hat₁.peek_kind]; exact hne)).mp hm).1
      cases this
    obtain ⟨rfl, rfl⟩ := num_of_syn hsyn hk hsemi
    obtain rfl := endCompound_compiles hat₁ hsemi hend
    refine ⟨?_, hat₁.next, simple_next (simple_emitted (simple_next hs) ..)⟩
    have hcode : StmtCode (.update x add _) t.next _ := StmtCode.update_imm hx hle rfl
    exact (StmtCode.after (.of_quiet (.next t)) hcode).books rfl
  · simp only [yields_bind, yields_allocTemp, yields_emit, yields_freeTemp] at hy
    obtain ⟨_, _, ⟨q, hq, rfl, rfl⟩, _, t₁, hexpr, _, _, ⟨hroom, rfl⟩, _, _, rfl, hend⟩ := hy
    obtain ⟨hcomp, hat₁, hs₁⟩ := expression_compiles (hat.take q) (hs.grows (.take t q) hs.scale)
      hvars hsyn (hj ▸ follows_semi) hexpr
    have hat₂ := hat₁.emitted hroom (StmtCode.updateOp add) r r (15 - q)
    have hat₃ := hat₂.freeTemp (15 - q)
    obtain rfl := endCompound_compiles hat₃ hj hend
    refine ⟨?_, hat₃.next, simple_next (simple_freeTemp (simple_emitted hs₁ ..) _)⟩
    exact (StmtCode.update hx hq hcomp rfl).books rfl

/-- The register of a variable was found, and the sign behind the variable consumed. -/
structure Found (tok : ℕ → Token) (name : Token → Option (List UInt8)) (x : List UInt8) (i : ℕ)
    (st : CompilerState) (r : ℕ) (t : CompilerState) : Prop where
  leads : Leads st t
  place : t.place x = some (.reg r)
  simple : Simple t
  next : At tok name i t

/-- The sign of an assignment, or of a compound one. -/
def IsSign (k : TokenKind) : Prop :=
  IsAssign k ∨ ∃ add : Bool, k = if add then TokenKind.plusEq else TokenKind.minusEq

theorem IsSign.cases {k : TokenKind} (h : IsSign k) :
    k = .colonEq ∨ k = .eq ∨ k = .plusEq ∨ k = .minusEq := by
  rcases h with (rfl | rfl) | ⟨_ | _, rfl⟩
  · exact .inl rfl
  · exact .inr (.inl rfl)
  · exact .inr (.inr (.inr rfl))
  · exact .inr (.inr (.inl rfl))

/-- What an assignment does behind its sign. -/
def assigning (r : Rec) (tk : Token) (q : ℕ) : TokenKind → CompilerM Unit
  | .plusEq => regCompound r tk q .add .addi addStage
  | .minusEq => regCompound r tk q .sub .subi subStage
  | _ => regAssign r tk q

theorem At.text {tk : Token} (hat : At tok name i st) (hname : name tk = some x) :
    st.text? tk = some x := by rw [hat.name_eq, hname]

/-- A statement that starts with a plain variable and a sign. -/
theorem varStatement_yields {r : Rec} (hat : At tok name i st) (hs : Simple st)
    (hk : (tok i).kind = .varIdent) (hname : name (tok i) = some x) (hx : Named x)
    (hsign : IsSign (tok (i + 1)).kind) (hy : Yields (statement r) st u st') :
    ∃ q t, Found tok name x (i + 2) st q t ∧
      Yields (assigning r (tok i) q (tok (i + 1)).kind) t u st' := by
  have hne : st.peek.kind ≠ .eof := by
    rw [hat.peek_kind, hk]
    exact TokenKind.noConfusion
  have hahead : st.peekAhead 1 = tok (i + 1) := by
    rw [← hat.tok_eq, ← hat.current]
    rfl
  have hpeek : st.peek = tok i := by rw [peek_eq_tok, hat.tok_eq, hat.current]
  have hdot : (tok (i + 1)).kind ≠ .dot ∧ (tok (i + 1)).kind ≠ .lBracket := by
    rcases hsign.cases with h | h | h | h <;> rw [h] <;>
      exact ⟨TokenKind.noConfusion, TokenKind.noConfusion⟩
  have hne' : (tok (i + 1)).kind ≠ .eof := by
    rcases hsign.cases with h | h | h | h <;> rw [h] <;> exact TokenKind.noConfusion
  have hstat : Yields (varStatement r) st u st' := by
    simp only [statement, yields_bind, yields_peekKind] at hy
    obtain ⟨_, _, ⟨rfl, rfl⟩, hy⟩ := hy
    rw [hat.peek_kind, hk] at hy
    simp only [identStatement, peekAhead, yields_bind, yields_get, yields_pure] at hy
    obtain ⟨_, _, ⟨_, _, ⟨rfl, rfl⟩, rfl, rfl⟩, hy⟩ := hy
    rwa [hahead, if_neg hdot.1, if_neg hdot.2] at hy
  have hs' := simple_next hs
  -- the register, and then the sign
  have hfound : ∀ {f : ℕ → CompilerM Unit},
      Yields (resolveVar (tok i) >>= fun q => advance >>= fun _ => f q) st.next u st' →
      ∃ q t, Found tok name x (i + 2) st q t ∧ Yields (f q) t u st' := by
    intro f hf
    simp only [yields_bind] at hf
    obtain ⟨q, t, hres, _, _, hadv, hf⟩ := hf
    obtain ⟨hl, hp, hst, hat'⟩ := resolveVar_compiles hat.next hs' hname hx hres
    obtain ⟨-, rfl⟩ := (yields_advance (by rw [hat'.peek_kind]; exact hne')).mp hadv
    exact ⟨q, t.next, ⟨((Leads.of_quiet (.next st)).trans hl).trans (.of_quiet (.next t)), hp,
      simple_next hst, hat'.next⟩, hf⟩
  simp only [varStatement, yields_bind, yields_advance hne, yields_peekKind] at hstat
  obtain ⟨_, _, ⟨rfl, rfl⟩, _, _, ⟨rfl, rfl⟩, sp, _, hsp, hstat⟩ := hstat
  rw [hpeek] at hsp hstat
  obtain ⟨rfl, rfl⟩ := (yields_isSpilledVar (hat.next.text hname)).mp hsp
  rw [hs'.spillOf, hat.next.peek_kind] at hstat
  rcases hsign.cases with h | h | h | h <;> rw [h] at hstat ⊢ <;> exact hfound hstat

/-! ## Declarations -/

/-- No struct type is declared, so no name is one. -/
theorem yields_isStructType {tk : Token} {b : Bool} (hs : Simple st)
    (h : Yields (isStructType tk) st b st') : b = false ∧ st' = st := by
  simp only [isStructType, text, yields_bind, yields_get] at h
  obtain ⟨_, _, ⟨rfl, rfl⟩, _, _, ⟨_, _, ⟨rfl, rfl⟩, htext⟩, h⟩ := h
  split at htext
  · obtain ⟨rfl, rfl⟩ := yields_pure.mp htext
    obtain ⟨rfl, rfl⟩ := yields_pure.mp h
    exact ⟨by rw [hs.structs]; rfl, rfl⟩
  · exact absurd htext not_yields_panic

/-- The type of a declaration is one of machine words, if there is one. -/
theorem annotation_yields {r : Rec} {tk : Token} {ann : Annotation} (hat : At tok name i st)
    (hs : Simple st)
    (hstop : (tok i).kind ≠ .colon ∧ j = i ∨
      (tok i).kind = .colon ∧ isIntType (tok (i + 1)).kind = true ∧ j = i + 2)
    (hy : Yields ( annotation r tk) st ann st') :
    ann = .value none none ∧ Quiet st st' ∧ st'.info = st.info ∧ At tok name j st' := by
  simp only [ annotation, yields_bind] at hy
  obtain ⟨_, _, hcolon, hy⟩ := hy
  rcases hstop with ⟨hk, rfl⟩ | ⟨hk, hint, rfl⟩
  · obtain ⟨rfl, rfl⟩ := (yields_matchToken_of_ne (hat.peek_kind ▸ hk)).mp hcolon
    obtain ⟨rfl, rfl⟩ := yields_pure.mp hy
    exact ⟨rfl, .move st' _ _, rfl, hat⟩
  · obtain ⟨rfl, rfl⟩ := (yields_matchToken_of_eq (hat.peek_kind.trans hk) (by decide)).mp hcolon
    have hat' := hat.next
    have hne : ∀ {k : TokenKind}, isIntType k = false → (tok (i + 1)).kind ≠ k := by
      rintro k hk' rfl
      rw [hk'] at hint
      cases hint
    simp only [if_true, yields_bind] at hy
    obtain ⟨_, _, hbracket, hy⟩ := hy
    obtain ⟨rfl, rfl⟩ :=
      (yields_matchToken_of_ne (by rw [hat'.peek_kind]; exact hne rfl)).mp hbracket
    simp only [Bool.false_eq_true, if_false, yields_bind] at hy
    obtain ⟨_, _, hadv, hy⟩ := hy
    obtain ⟨rfl, rfl⟩ := (yields_advance (by rw [hat'.peek_kind]; exact hne rfl)).mp hadv
    rw [hat'.peek_kind, if_neg (hne rfl), yields_bind] at hy
    obtain ⟨_, _, hstruct, hy⟩ := hy
    obtain ⟨rfl, rfl⟩ := yields_isStructType (simple_next (simple_next hs)) hstruct
    simp only [Bool.false_eq_true, if_false, hint, if_true] at hy
    obtain ⟨rfl, rfl⟩ := yields_pure.mp hy
    exact ⟨rfl, .move st _ _, rfl, hat'.next⟩

theorem At.peekAhead (hat : At tok name i st) (q : ℕ) : st.peekAhead q = tok (i + q) := by
  rw [← hat.tok_eq, ← hat.current]
  rfl

/-- Neither an array literal nor a view is declared. -/
theorem yields_follows {b : Bool} {p : CompilerM Bool} (hp : p = followsLiteral ∨ p = followsView)
    (hat : At tok name i st)
    (hopens : IsAssign (tok i).kind → (tok (i + 1)).kind.opens = true) (h : Yields p st b st') :
    b = false ∧ st' = st := by
  rcases hp with rfl | rfl
  · simp only [followsLiteral, peekAssign, Compiler.peekAhead, yields_bind, yields_peekKind,
      yields_get, yields_pure] at h
    obtain ⟨_, _, ⟨_, _, ⟨rfl, rfl⟩, rfl, rfl⟩, _, _, ⟨_, _, ⟨rfl, rfl⟩, rfl, rfl⟩, rfl, rfl⟩ := h
    refine ⟨Bool.eq_false_iff.mpr fun h => ?_, rfl⟩
    simp only [hat.peek_kind, hat.peekAhead, Bool.and_eq_true, Bool.or_eq_true, beq_iff_eq] at h
    have hop := hopens h.1
    rw [h.2] at hop
    cases hop
  · simp only [followsView, peekAssign, yields_bind, yields_peekKind, yields_get,
      yields_pure] at h
    obtain ⟨_, _, ⟨rfl, rfl⟩, _, _, ⟨_, _, ⟨rfl, rfl⟩, rfl, rfl⟩, rfl, rfl⟩ := h
    refine ⟨Bool.eq_false_iff.mpr fun h => ?_, rfl⟩
    simp only [hat.peek_kind, hat.peekAhead, Bool.and_eq_true, Bool.or_eq_true, beq_iff_eq] at h
    have hop := hopens h.1.1
    rcases h.1.2 with hk | hk
    · rw [hk] at hop
      cases hop
    · rw [hk] at hop
      cases hop

/-- The sign of an assignment is consumed, if it is there. -/
theorem matchAssign_yields {b : Bool} (hat : At tok name i st) (hs : Simple st)
    (h : Yields matchAssign st b st') :
    (IsAssign (tok i).kind → b = true ∧ Quiet st st' ∧ Simple st' ∧ At tok name (i + 1) st') ∧
      ((tok i).kind = .semi → b = false ∧ st' = st) := by
  simp only [matchAssign, yields_bind] at h
  obtain ⟨_, _, h₁, h₂⟩ := h
  refine ⟨fun hk => ?_, fun hk => ?_⟩
  · by_cases hc : (tok i).kind = .colonEq
    · obtain ⟨rfl, rfl⟩ := (yields_matchToken_of_eq (hat.peek_kind.trans hc) (by decide)).mp h₁
      obtain ⟨rfl, rfl⟩ := yields_pure.mp h₂
      exact ⟨rfl, .next st, simple_next hs, hat.next⟩
    · obtain ⟨rfl, rfl⟩ := (yields_matchToken_of_ne (hat.peek_kind ▸ hc)).mp h₁
      have he : (tok i).kind = .eq := hk.resolve_left hc
      obtain ⟨rfl, rfl⟩ := (yields_matchToken_of_eq (hat.peek_kind.trans he) (by decide)).mp h₂
      exact ⟨rfl, .next _, simple_next hs, hat.next⟩
  · have hne : ∀ {k : TokenKind}, k ≠ .semi → st.peek.kind ≠ k := by
      rintro k hk' rfl
      exact hk' (hat.peek_kind ▸ hk)
    obtain ⟨rfl, rfl⟩ := (yields_matchToken_of_ne (hne TokenKind.noConfusion)).mp h₁
    obtain ⟨rfl, rfl⟩ := (yields_matchToken_of_ne (hne TokenKind.noConfusion)).mp h₂
    exact ⟨rfl, rfl⟩

/-- A declaration without a value. -/
theorem letVar_declare {r : Rec} {tk : Token} {isMut : Bool} (hat : At tok name j st)
    (hs : Simple st) (hname : name tk = some x) (hx : Named x) (hj : (tok j).kind = .semi)
    (hz : st'.spillCount = 0) (hy : Yields (letVar r tk isMut none none) st u st') :
    Compiles tok name (.declare x) (j + 1) st st' := by
  simp only [letVar, yields_bind] at hy
  obtain ⟨q, t, hdecl, b, t', hm, hy⟩ := hy
  have hz' : t.spillCount = 0 := spillCount_zero hm (spillCount_zero hy hz)
  obtain ⟨hleads, hplace, hs', hat', -⟩ := declareVar_compiles hat hs hname hx hz' hdecl
  obtain ⟨rfl, rfl⟩ := (matchAssign_yields hat' hs' hm).2 hj
  simp only [Bool.false_eq_true, if_false, Option.isSome_none, Bool.or_self] at hy
  obtain rfl := (yields_skip_of_eq (hat'.peek_kind.trans hj) (by decide)).mp hy
  refine ⟨.leads (hleads.trans (.of_quiet (.next t'))) (fun y hy => ?_) fun _ _ _ => rfl,
    hat'.next, simple_next hs'⟩
  obtain rfl := List.mem_singleton.mp hy
  change (t'.place y).isSome
  rw [hplace]
  rfl

/-- A declaration with a value. -/
theorem letVar_assign {tk : Token} {isMut : Bool} (hat : At tok name i st)
    (hs : Simple st) (hname : name tk = some x) (hx : Named x) (hsign : IsAssign (tok i).kind)
    (hvars : ∀ y ∈ e.vars, Named y) (hsyn : LatencyOS.Syn tok name 11 (i + 1) e j)
    (hj : (tok j).kind = .semi) (hz : st'.spillCount = 0)
    (hy : Yields (letVar (recN fuel n) tk isMut none none) st u st') :
    Compiles tok name (.assign x e) (j + 1) st st' := by
  simp only [letVar, yields_bind] at hy
  obtain ⟨q, t, hdecl, b, t', hm, hy⟩ := hy
  have hz' : t.spillCount = 0 := spillCount_zero hm (spillCount_zero hy hz)
  obtain ⟨hleads, hplace, hs', hat', -⟩ := declareVar_compiles hat hs hname hx hz' hdecl
  obtain ⟨rfl, hquiet, hs'', hat''⟩ := (matchAssign_yields hat' hs' hm).1 hsign
  simp only [if_true, setEnumType, setFixedScale, setTargetScale, assignValue, yields_bind,
    yields_modifyInfo, yields_get] at hy
  obtain ⟨hw, t₁, hpre, _, _, rfl, _, _, rfl, _, t₂, rfl, _, t₃, ⟨sp, t₄, hsp, hexpr⟩, _, t₅, hpost,
    _, _, ⟨rfl, rfl⟩, _, t₆, htypes, _, t₇, rfl, hskip⟩ := hy
  have hhead : (t'.peekAhead 0).kind ≠ .hardwareIdent := by
    rw [hat''.peekAhead]
    exact head_ne_hardwareIdent hsyn
  obtain rfl := yields_checkHwAssignPre hhead hpre
  obtain ⟨hb₁, hs₁, hat₁⟩ := books_info hs'' hat'' ⟨none, none, none⟩ rfl
  obtain ⟨rfl, rfl⟩ := (yields_isSpilledVar (hat₁.text hname)).mp hsp
  rw [hs₁.spillOf] at hexpr
  obtain ⟨hcomp, hat₂, hs₂⟩ := expression_compiles hat₁ hs₁ hvars hsyn (hj ▸ follows_semi) hexpr
  obtain ⟨hb₃, hs₃, hat₃, -⟩ := books_applyHwAssignPost hs₂ hat₂ hpost
  obtain ⟨hb₄, hs₄, hat₄⟩ := books_setTypesOf (fun _ => by rw [hs₃.scale]; rfl) hs₃ hat₃ htypes
  obtain ⟨hb₅, hs₅, hat₅⟩ := books_info hs₄ hat₄ { t₆.info with targetScale := none } hs₄.scale
  obtain rfl := (yields_skip_of_eq (hat₅.peek_kind.trans hj) (by decide)).mp hskip
  refine ⟨?_, hat₅.next, simple_next hs₅⟩
  have hcode := StmtCode.assign (x := x)
    (by rw [hb₁.place]; exact hquiet.segment.grows.place_of_some hplace) hcomp
  exact (StmtCode.after ((hleads.trans (.of_quiet hquiet)).trans (.of_books hb₁)) hcode).books
    (hb₃.trans (hb₄.trans hb₅))

/-- A `let` statement goes on behind the name and its type. -/
theorem letStatement_yields {r : Rec} (hat : At tok name i st) (hs : Simple st)
    (hk : (tok i).kind = .let) (hd : Declared tok name (i + 1) x j)
    (hopens : IsAssign (tok j).kind → (tok (j + 1)).kind.opens = true)
    (hy : Yields (statement r) st u st') :
    ∃ tk isMut t, name tk = some x ∧ Leads st t ∧ Simple t ∧ At tok name j t ∧
      Yields (letVar r tk isMut none none) t u st' := by
  simp only [statement, yields_bind, yields_peekKind] at hy
  obtain ⟨_, st, ⟨rfl, rfl⟩, hy⟩ := hy
  rw [hat.peek_kind, hk] at hy
  have hne : ∀ {st : CompilerState} {i : ℕ}, At tok name i st → (tok i).kind ≠ .eof →
      st.peek.kind ≠ .eof := fun h hk => h.peek_kind ▸ hk
  simp only [letStatement, yields_bind] at hy
  obtain ⟨_, _, hadv, isMut, t₁, hmut, tk, t₂, hident, ann, t₃, hann, hy⟩ := hy
  obtain ⟨-, rfl⟩ := (yields_advance (hne hat (hk ▸ TokenKind.noConfusion))).mp hadv
  obtain ⟨-, hq₁, hi₁, hat₁⟩ := At.past hat.next (by decide) hmut
  have hs₁ := simple_quiet (simple_next hs) hq₁ hi₁
  obtain ⟨rfl, rfl⟩ := (yields_advance (hne hat₁ (hd.ident ▸ TokenKind.noConfusion))).mp hident
  have hname : name t₁.peek = some x := by
    rw [peek_eq_tok, hat₁.tok_eq, hat₁.current]
    exact hd.name_eq
  obtain ⟨rfl, hq₂, hi₂, hat₂⟩ := annotation_yields hat₁.next (simple_next hs₁) hd.stop hann
  have hs₂ := simple_quiet (simple_next hs₁) hq₂ hi₂
  simp only [yields_bind] at hy
  obtain ⟨_, _, hlit, hy⟩ := hy
  obtain ⟨rfl, rfl⟩ := yields_follows (.inl rfl) hat₂ hopens hlit
  simp only [Bool.false_eq_true, if_false, yields_bind] at hy
  obtain ⟨_, _, hview, hy⟩ := hy
  obtain ⟨rfl, rfl⟩ := yields_follows (.inr rfl) hat₂ hopens hview
  simp only [Bool.false_eq_true, if_false] at hy
  have hleads : Leads st t₁.next :=
    ((Leads.of_quiet (.next st)).trans (.of_quiet hq₁)).trans (.of_quiet (.next t₁))
  exact ⟨_, isMut, _, hname, hleads.trans (.of_quiet hq₂), hs₂, hat₂, hy⟩

end Compiler

end LatencyOS
