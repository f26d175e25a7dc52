import LatencyOS.Compiler.Discipline.Match

/-!
# The discipline of functions

While the contract of a function is read and its body is compiled, its record may still change:
the estimate of its cost is not there yet.  The records of all other functions stay.
-/

namespace LatencyOS

namespace Compiler

-- the size of an instance doubles with every statement of a block
set_option synthInstance.maxSize 1000000000000

variable {s : Session} {pend : List ℕ} {st st₀ st' : CompilerState} {α : Type}

/-! ## Parameters -/

instance keeps_paramScale : Keeps s paramScale := by
  dsimp only [paramScale]
  infer_instance

instance keeps_paramList {r : Rec} [Calls s r] : Keeps s (paramList r) := by
  dsimp only [paramList]
  infer_instance

instance keeps_contractParen (message stage suggestion : String) :
    Keeps s (contractParen message stage suggestion) := by
  dsimp only [contractParen]
  infer_instance

instance keeps_fnName : Keeps s fnName := by
  dsimp only [fnName]
  infer_instance

/-! ## The open function -/

/-- A function has been added to those of `st₀`, and its cost is not estimated yet. -/
structure Opened (s : Session) (pend : List ℕ) (st₀ st : CompilerState) : Prop where
  sound : Sound s pend st
  later : Later st₀ st
  fresh : ∃ f, st.decls.functions[st₀.decls.functions.length]? = some f ∧ f.estimatedWcetNs = 0

/-- A part of a contract. -/
structure KeepsOpened (s : Session) (p : ℕ → CompilerM α) : Prop where
  runs : ∀ {pend : List ℕ} {st₀ st : CompilerState}, Opened s pend st₀ st →
    s.Runs (p st₀.decls.functions.length)
      (fun _ st' => Opened s pend st₀ st' ∧ st.current ≤ st'.current) st

theorem Opened.of_later (h : Opened s pend st₀ st) {pend' : List ℕ} (hs : Sound s pend' st')
    (hl : Later st st') : Opened s pend' st₀ st' := by
  refine ⟨hs, h.later.trans hl, ?_⟩
  obtain ⟨f, hget, hzero⟩ := h.fresh
  obtain ⟨hlt, -⟩ := List.getElem?_eq_some_iff.mp hget
  exact ⟨f, (hl.fns_eq _ hlt).trans hget, hzero⟩

theorem Keeps.opened {p : CompilerM α} (hp : Keeps s p) : KeepsOpened s fun _ => p :=
  ⟨fun h => (hp.runs h.sound).mono fun _ _ ht => ⟨h.of_later ht.1 ht.2, ht.2.current_le⟩⟩

/-- A record of a list with one record changed. -/
theorem mem_modify {l : List α} {i : ℕ} {g : α → α} {a : α} (h : a ∈ l.modify i g) :
    a ∈ l ∨ ∃ b, l[i]? = some b ∧ a = g b := by
  obtain ⟨j, hj⟩ := List.mem_iff_getElem?.mp h
  rw [List.getElem?_modify] at hj
  obtain ⟨b, hb, hab⟩ := Option.map_eq_some_iff.mp hj
  by_cases hij : i = j
  · refine .inr ⟨b, hij ▸ hb, ?_⟩
    rw [← hab, if_pos hij]
  · refine .inl (List.mem_iff_getElem?.mpr ⟨j, ?_⟩)
    rw [← hab, if_neg hij]
    exact hb

/-- The state with the record of a function changed. -/
def withFn (st : CompilerState) (fnIdx : ℕ) (g : FnMeta → FnMeta) : CompilerState :=
  { st with decls := { st.decls with functions := st.decls.functions.modify fnIdx g } }

theorem runs_modifyFn {fnIdx : ℕ} {g : FnMeta → FnMeta} {Q : Unit → CompilerState → Prop}
    (h : Q () (withFn st fnIdx g)) : s.Runs (modifyFn fnIdx g) Q st :=
  runs_get fun _ => ⟨Decls.importsGrow_of_eq rfl rfl, h⟩

/-- The record of the open function may change, up to its entry. -/
theorem Opened.later_withFn (h : Opened s pend st₀ st) (g : FnMeta → FnMeta) :
    Later st₀ (withFn st st₀.decls.functions.length g) where
  current_le := h.later.current_le
  code_le := h.later.code_le
  fns_le := by
    simp only [withFn, List.length_modify]
    exact h.later.fns_le
  fns_eq := by
    intro i hi
    simp only [withFn, List.getElem?_modify]
    rw [h.later.fns_eq i hi]
    cases st₀.decls.functions[i]? with
    | none => rfl
    | some f => simp only [Option.map_eq_map, Option.map_some, if_neg (Nat.ne_of_gt hi)]
  levels := h.later.levels

theorem Opened.sound_withFn (h : Opened s pend st₀ st) {g : FnMeta → FnMeta}
    (hentry : ∀ f, (g f).entryPc = f.entryPc)
    (hkept : ∀ f, st.decls.functions[st₀.decls.functions.length]? = some f → (g f).WcetKept) :
    Sound s pend (withFn st st₀.decls.functions.length g) where
  src := h.sound.src
  tokens := h.sound.tokens
  rank_le := h.sound.rank_le
  start := h.sound.start
  jumps := h.sound.jumps
  entries := by
    intro f' hf'
    rcases mem_modify hf' with hmem | ⟨f, hget, rfl⟩
    · exact h.sound.entries f' hmem
    · rw [hentry]
      exact h.sound.entries f (List.mem_of_getElem? hget)
  wcet := by
    intro f' hf'
    rcases mem_modify hf' with hmem | ⟨f, hget, rfl⟩
    · exact h.sound.wcet f' hmem
    · exact hkept f hget

/-- A contract clause is recorded. -/
theorem Opened.record (h : Opened s pend st₀ st) {g : FnMeta → FnMeta}
    (hentry : ∀ f, (g f).entryPc = f.entryPc)
    (hest : ∀ f, (g f).estimatedWcetNs = f.estimatedWcetNs) :
    Opened s pend st₀ (withFn st st₀.decls.functions.length g) := by
  obtain ⟨f, hget, hzero⟩ := h.fresh
  refine ⟨h.sound_withFn hentry fun f' hget' ns _ => ?_, h.later_withFn g, g f, ?_, ?_⟩
  · rw [hget] at hget'
    cases hget'
    rw [hest, hzero]
    exact Nat.zero_le ns
  · simp only [withFn, List.getElem?_modify, hget, Option.map_eq_map, Option.map_some, if_true]
  · rw [hest, hzero]

/-! ## Contract clauses -/

theorem KeepsOpened.bind {β : Type} {p : CompilerM α} {f : α → ℕ → CompilerM β} (hp : Keeps s p)
    (hf : ∀ a, KeepsOpened s (f a)) : KeepsOpened s fun i => p >>= fun a => f a i := by
  refine ⟨fun h => Prog.Wp.bind ((hp.runs h.sound).mono fun a t ht => ?_)⟩
  refine ((hf a).runs (h.of_later ht.1 ht.2)).mono fun _ _ hu => ⟨hu.1, ?_⟩
  exact Nat.le_trans ht.2.current_le hu.2

theorem KeepsOpened.record {g : FnMeta → FnMeta} (hentry : ∀ f, (g f).entryPc = f.entryPc)
    (hest : ∀ f, (g f).estimatedWcetNs = f.estimatedWcetNs) :
    KeepsOpened s fun i => modifyFn i g :=
  ⟨fun h => runs_modifyFn ⟨h.record hentry hest, Nat.le_refl _⟩⟩

theorem keepsOpened_wcetClause : KeepsOpened s wcetClause := by
  refine .bind inferInstance fun _ => .bind inferInstance fun t => ?_
  generalize t.kind = k
  cases k <;> refine .bind inferInstance fun wcetNs => ?_ <;> cases wcetNs <;> dsimp only
  all_goals first
    | exact Keeps.opened inferInstance
    | exact .bind inferInstance fun _ => .bind inferInstance fun _ =>
        .record (fun _ => rfl) fun _ => rfl

theorem keeps_requiresClause {r : Rec} [Calls s r] : Keeps s (requiresClause r) := by
  dsimp only [requiresClause]
  infer_instance

/-- The closing parenthesis stands behind the open one. -/
theorem closingPosition_le {tokens : List Token} {depth pos q : ℕ}
    (h : closingPosition tokens depth pos = some q) : pos ≤ q := by
  fun_induction closingPosition tokens depth pos with
  | case1 => cases h; exact Nat.le_refl _
  | case2 => cases h
  | case5 => cases h
  | _ => rename_i ih; exact Nat.le_of_succ_le (ih h)

theorem keepsOpened_ensuresClause : KeepsOpened s ensuresClause := by
  refine .bind inferInstance fun _ => ⟨fun {pend st₀ st} h => runs_get ?_⟩
  dsimp only
  split
  · exact Prog.Wp.bind fun _ => ⟨trivial, runs_get (fails_error _)⟩
  · next pos hclose =>
    refine Prog.Wp.bind fun _ => ⟨trivial, runs_modifyFn ?_⟩
    have hle := closingPosition_le hclose
    obtain ⟨hs, hl⟩ := h.sound.setCurrent hle
    refine ⟨(h.of_later hs hl).record ?_ ?_, hle⟩
    · intro f
      split <;> rfl
    · intro f
      split <;> rfl

section Statements

variable {r : Rec} [Calls s r]

/-- A clause behind its keyword. -/
theorem runs_clause (p : ℕ → CompilerM Unit) (hp : KeepsOpened s p) {t : CompilerState}
    (h : Opened s pend st₀ t) (hin : st.current < s.tokens.length) (hlt : st.current < t.current) :
    s.Runs (p st₀.decls.functions.length >>= fun _ => Pure.pure (ForInStep.yield ()))
      (fun step st' => Opened s pend st₀ st' ∧
        ∀ b, step = .yield b → st.current < s.tokens.length ∧ st.current < st'.current) t := by
  refine Prog.Wp.bind ((hp.runs h).mono fun _ u hu => ⟨hu.1, fun _ _ => ⟨hin, ?_⟩⟩)
  exact Nat.lt_of_lt_of_le hlt hu.2

/-- One clause, if its keyword is there; the step goes on to `q` if it is not. -/
theorem runs_clauseOr {kind : TokenKind} (hkind : kind ≠ .eof) {p : ℕ → CompilerM Unit}
    (hp : KeepsOpened s p) {q : CompilerM (ForInStep Unit)} {t : CompilerState}
    (h : Opened s pend st₀ t) (hle : st.current ≤ t.current)
    (hq : ∀ {u}, Opened s pend st₀ u → st.current ≤ u.current →
      s.Runs q (fun step st' => Opened s pend st₀ st' ∧
        ∀ b, step = .yield b → st.current < s.tokens.length ∧ st.current < st'.current) u) :
    s.Runs (matchToken kind >>= fun b => if b = true then
        p st₀.decls.functions.length >>= fun _ => Pure.pure (ForInStep.yield ()) else q)
      (fun step st' => Opened s pend st₀ st' ∧
        ∀ b, step = .yield b → st.current < s.tokens.length ∧ st.current < st'.current) t := by
  refine Prog.Wp.bind ((runs_matchToken h.sound hkind).mono fun b u hu => ?_)
  obtain ⟨hsound, hlater, hmoved⟩ := hu
  have hopen := h.of_later hsound hlater
  cases b with
  | true =>
    refine runs_clause p hp hopen (Nat.lt_of_le_of_lt hle (hmoved rfl).1) ?_
    exact Nat.lt_of_le_of_lt hle (hmoved rfl).2
  | false => exact hq hopen (Nat.le_trans hle hlater.current_le)

theorem runs_contracts (h : Opened s pend st₀ st) :
    s.Runs (contracts r st₀.decls.functions.length) (fun _ st' => Opened s pend st₀ st') st := by
  refine runs_loop (I := fun _ st' => Opened s pend st₀ st') (fun _ t ht => ?_) r.fuel () h
    (LoopBound.lt inferInstance _)
  refine runs_clauseOr (by decide) keepsOpened_wcetClause ht (Nat.le_refl _) fun hu hle => ?_
  refine runs_clauseOr (by decide) keeps_requiresClause.opened hu hle fun hv hle => ?_
  refine runs_clauseOr (by decide) keepsOpened_ensuresClause hv hle fun hw _ => ?_
  exact ⟨hw, fun _ h => nomatch h⟩

/-- The declared cost is held against the estimate; the function is closed. -/
theorem runs_checkFnWcet (h : Opened s pend st₀ st) (bodySize : ℕ) :
    s.Runs (checkFnWcet st₀.decls.functions.length bodySize)
      (fun _ st' => Sound s pend st' ∧ Later st₀ st') st := by
  refine Prog.Wp.bind (runs_modifyFn (runs_get ?_))
  obtain ⟨f, hget, -⟩ := h.fresh
  generalize hn : max (bodySize / 4 * 3) 10 = n
  generalize ht : withFn st st₀.decls.functions.length
    (fun f => { f with estimatedWcetNs := n }) = t
  have hget' : t.decls.functions[st₀.decls.functions.length]? =
      some { f with estimatedWcetNs := n } := by
    simp only [← ht, withFn, List.getElem?_modify, hget, Option.map_eq_map, Option.map_some,
      if_true]
  have hclosed : (∀ ns, f.declaredWcetNs = some ns → n ≤ ns) → Sound s pend t ∧ Later st₀ t := by
    intro hkept
    rw [← ht]
    refine ⟨h.sound_withFn (fun _ => rfl) fun f' hf' ns hns => ?_, h.later_withFn _⟩
    rw [hget] at hf'
    cases hf'
    exact hkept ns hns
  rw [hget']
  dsimp only
  split
  · refine Prog.Wp.bind (runs_get fun _ => ⟨Decls.importsGrow_of_eq rfl rfl, ?_⟩)
    refine runs_require fun hc => ?_
    have hkept : ∀ ns, f.declaredWcetNs = some ns → n ≤ ns := by
      intro ns hns
      rw [show f.declaredWcetNs = some ns from hns] at hc
      exact of_decide_eq_true hc
    have hsame : Same t { t with decls := { t.decls with
        wcetItems := t.decls.wcetItems ++ [⟨f.name, f.declaredWcetNs, n⟩] } } :=
      ⟨rfl, rfl, rfl, rfl, rfl⟩
    exact ⟨hsame.sound (hclosed hkept).1, (hclosed hkept).2.trans hsame.later⟩
  · refine runs_require fun hc => hclosed fun ns hns => ?_
    rw [show f.declaredWcetNs = some ns from hns] at hc
    exact of_decide_eq_true hc

/-- A function is added to the table. -/
theorem Opened.push (hs : Sound s pend st) {f : FnMeta} (hentry : Lands st.code f.entryPc)
    (hest : f.estimatedWcetNs = 0) :
    Opened s pend st { st with
      decls := { st.decls with functions := st.decls.functions ++ [f] } } := by
  have hl : Later st { st with
      decls := { st.decls with functions := st.decls.functions ++ [f] } } := by
    refine ⟨Nat.le_refl _, Nat.le_refl _, ?_, fun i hi => List.getElem?_append_left hi,
      fun _ _ => rfl⟩
    rw [List.length_append]
    exact Nat.le_add_right _ _
  refine ⟨⟨hs.src, hs.tokens, hs.rank_le, hs.start, hs.jumps, fun f' hf' => ?_, fun f' hf' => ?_⟩,
    hl, f, List.getElem?_concat_length, hest⟩
  · rcases List.mem_append.mp hf' with hold | hnew
    · exact hs.entries f' hold
    · rw [List.mem_singleton.mp hnew]
      exact hentry
  · rcases List.mem_append.mp hf' with hold | hnew
    · exact hs.wcet f' hold
    · intro ns _
      rw [List.mem_singleton.mp hnew, hest]
      exact Nat.zero_le ns

variable [InStatement s]

omit [InStatement s] in
/-- A part that may be left out. -/
theorem Closes.optional {β : Type} {pend₀ : β → List ℕ} {marks : List Mark} {c : Prop} [Decidable c]
    {p : CompilerM α} {q : CompilerM β} (hp : Keeps s p) (hq : Closes s pend₀ pend marks q) :
    Closes s pend₀ pend marks (if c then p >>= fun _ => q else q) := by
  split
  · exact Closes.bind hp fun _ => hq
  · exact hq

instance begins_fnStatement : Begins s (fnStatement r) := by
  dsimp only [fnStatement]
  refine Begins.advance fun _ _ => Closes.keeps fun pend => Closes.bind inferInstance fun name => ?_
  refine .bind_opens inferInstance fun jmpSkip => .codeLen fun entryPc => ?_
  refine Closes.bind inferInstance fun _ => Closes.bind inferInstance fun _ =>
    Closes.bind inferInstance fun params => Closes.bind inferInstance fun _ =>
    Closes.bind inferInstance fun _ => Closes.bind inferInstance fun _ => ?_
  refine Closes.optional inferInstance ⟨fun {st₀ st} hs hl hm => runs_get ?_⟩
  refine Prog.Wp.bind (runs_get fun _ => ⟨Decls.importsGrow_of_eq rfl rfl, ?_⟩)
  have hentry := (hm (.here entryPc) List.mem_cons_self).1
  have hopen : Opened s (jmpSkip :: pend) st _ :=
    Opened.push hs (f := ⟨name.take 32, entryPc, params, [], none, 0⟩) hentry rfl
  refine Prog.Wp.bind (((keeps_enterFn _).opened.runs hopen).mono fun _ t ht => ?_)
  refine Prog.Wp.bind ((runs_contracts ht.1).mono fun _ u hu => ?_)
  refine Prog.Wp.bind (((keeps_matchToken _).opened.runs hu).mono fun _ v hv => ?_)
  refine Prog.Wp.bind (runs_require fun _ => Prog.Wp.bind (runs_get (Prog.Wp.bind ?_)))
  have hbody : Keeps s r.body := inferInstance
  refine (hbody.opened.runs hv.1).mono fun _ w hw => Prog.Wp.bind (runs_get (Prog.Wp.bind ?_))
  refine (runs_checkFnWcet hw.1 _).mono fun _ x hx => ?_
  exact Closes.runs_last hx.1 (hl.trans hx.2)

instance begins_returnStatement : Begins s (returnStatement r) := by
  dsimp only [returnStatement]
  have hret : ∀ o : Option ℕ, Keeps s (match o with
      | some fnIdx => emitEnsuresChecks r fnIdx >>= fun _ => emit .ret 0 0 0
      | none => emit .ret 0 0 0) := fun o => by
    cases o <;> infer_instance
  infer_instance

end Statements

end Compiler

end LatencyOS
