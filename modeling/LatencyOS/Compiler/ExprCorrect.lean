import LatencyOS.Compiler.Levels

/-!
# Expression code computes the value

Every function of the expression compiler, run on the tokens of an integer expression, keeps
the invariant `Compiled`.  The proof follows the grammar: one lemma per construct, then an
induction over the derivation.
-/

namespace LatencyOS

open CompilerState PX64VM

namespace Compiler

variable {st st' t : CompilerState} {tok : ℕ → Token} {name : Token → Option (List UInt8)}
  {e a b c : Expr} {dst h i j k : ℕ} {v : Option Word64}

/-- Compiling the tokens between two positions at a height keeps the invariant. -/
def Works (tok : ℕ → Token) (name : Token → Option (List UInt8)) (h i : ℕ) (e : Expr) (j : ℕ) :
    Prop :=
  ∀ {fuel n dst : ℕ} {st st' : CompilerState} {v' : Option Word64}, At tok name i st →
    Ready e st → Stops h (tok j).kind → Yields (levelAt (recN fuel n) h dst) st v' st' →
    ∃ v t f, Compiled e dst v st t ∧ v = e.constVal ∧ At tok name j t ∧
      Yields (restAt (recN fuel n) f h dst v) t v' st'

theorem Ready.mono (hr : Ready e st) (hg : Grows st st')
    (hscale : st'.info.fixedScale = st.info.fixedScale) : Ready e st' where
  vars := fun x hx => hg.intVar (hr.vars x hx)
  unscaled := by
    rw [hscale]
    exact hr.unscaled

theorem Works.parses (hw : Works tok name h i e j) : Parses tok name h i j (Ready e)
    (fun dst v st t => Compiled e dst v st t ∧ v = e.constVal) := by
  intro fuel n dst st st' v' hat hready hstops hy
  obtain ⟨v, t, f, hcomp, hv, hat', hrest⟩ := hw hat hready hstops hy
  exact ⟨v, t, f, ⟨hcomp, hv⟩, hat', hrest⟩

theorem works_of_parses (hp : Parses tok name h i j (Ready e)
    (fun dst v st t => Compiled e dst v st t ∧ v = e.constVal)) : Works tok name h i e j := by
  intro fuel n dst st st' v' hat hready hstops hy
  obtain ⟨v, t, f, ⟨hcomp, hv⟩, hat', hrest⟩ := hp hat hready hstops hy
  exact ⟨v, t, f, hcomp, hv, hat', hrest⟩

/-! ## One construct at a time -/

theorem works_num {n : Word64} (hk : (tok i).kind = .number n) :
    Works tok name 0 i (.num n) (i + 1) := by
  intro fuel m dst st st' v' hat _ _ hy
  have hy := primary_at hat (by rw [hk]; exact TokenKind.noConfusion) hy
  rw [hk] at hy
  obtain ⟨rfl, rfl⟩ := yields_pure.mp hy
  exact ⟨some n, st.next, 0, compiled_num n dst st, rfl, hat.next, yields_pure.mpr ⟨rfl, rfl⟩⟩

theorem works_var {x : List UInt8} (hk : (tok i).kind = .varIdent) (hx : name (tok i) = some x)
    (hb : (tok (i + 1)).kind ≠ .lBracket) (hd : (tok (i + 1)).kind ≠ .dot) :
    Works tok name 0 i (.var x) (i + 1) := by
  intro fuel m dst st st' v' hat hready _ hy
  have hfits := fits_of_yields hy hat.fits
  have hy := primary_at hat (by rw [hk]; exact TokenKind.noConfusion) hy
  rw [hk] at hy
  simp only [varPrimary, yields_bind, yields_peekKind] at hy
  obtain ⟨_, _, ⟨rfl, rfl⟩, hy⟩ := hy
  rw [hat.next.peek_kind, if_neg hb, if_neg hd] at hy
  have hname : st.next.text? st.peek = some x := by
    rw [peek_eq_tok, hat.tok_eq, hat.current, ← hx, ← hat.name_eq]
    rfl
  obtain ⟨rfl, hcomp, hcur⟩ := compiled_varValue hname
    ((Segment.next st).grows.intVar (hready.vars x (List.mem_singleton_self x))) hy
  exact ⟨none, st', 0, .of_quiet (.next st) hcomp rfl, rfl,
    hat.next.grows hcomp.segment.grows hfits (hcur.trans hat.next.current),
    yields_pure.mpr ⟨rfl, rfl⟩⟩

/-- Compiling an expression up to a token that ends it. -/
theorem Works.compiled {fuel n : ℕ} {v' : Option Word64} (hw : Works tok name 11 i e j)
    (hat : At tok name i st) (hready : Ready e st) (hf : Follows (tok j).kind)
    (hy : Yields (levelAt (recN fuel n) 11 dst) st v' st') :
    Compiled e dst v' st st' ∧ v' = e.constVal ∧ At tok name j st' := by
  obtain ⟨⟨hcomp, hv⟩, hat'⟩ := Parses.ternary hw.parses hat hready hf hy
  exact ⟨hcomp, hv, hat'⟩

theorem works_paren (hk : (tok i).kind = .lParen) (he : Works tok name 11 (i + 1) e j)
    (hj : (tok j).kind = .rParen) : Works tok name 0 i (.paren e) (j + 1) := by
  intro fuel n dst st st' v' hat hready _ hy
  have hy := primary_at hat (by rw [hk]; exact TokenKind.noConfusion) hy
  rw [hk] at hy
  simp only [parenPrimary, yields_bind, yields_require, yields_pure] at hy
  obtain ⟨w, s, htern, _, _, hmatch, _, _, ⟨-, rfl⟩, rfl, rfl⟩ := hy
  obtain ⟨n, rfl, htern⟩ := ternary_of_yields htern
  have hready' : Ready e st.next := ⟨fun x hx => (Segment.next st).grows.intVar (hready.vars x hx),
    hready.unscaled⟩
  obtain ⟨hcomp, hv, hat'⟩ := he.compiled hat.next hready' (by rw [hj]; exact follows_rParen) htern
  obtain ⟨-, rfl⟩ := (yields_matchToken_of_eq (hat'.peek_kind.trans hj) (by decide)).mp hmatch
  have hfinal : Compiled (.paren e) dst v' st s.next := by
    have h := (Compiled.of_quiet (.next st) hcomp rfl).quiet (.next s) rfl
    exact ⟨h.segment, h.temps, h.scale, h.places, fun host vm π hπ hvm hip hapart =>
      h.runs host vm π hπ hvm hip ⟨hapart.dst_lt, hapart.dst_notMem, hapart.valid, hapart.vars,
        hapart.inPlace⟩⟩
  exact ⟨v', s.next, 0, hfinal, hv, hat'.next, yields_pure.mpr ⟨rfl, rfl⟩⟩

theorem negLiteral_of_yields {x y : Word64} (hy : Yields (negLiteral x) st y st') :
    y = -x ∧ st' = st := by
  rw [Yields, negLiteral, Prog.run_op, perform, CompilerState.negate] at hy
  split at hy <;> cases hy
  exact ⟨rfl, rfl⟩

theorem works_neg (hk : (tok i).kind = .minus) (he : Works tok name 0 (i + 1) e j) :
    Works tok name 0 i (.neg e) j := by
  intro fuel n dst st st' v' hat hready _ hy
  have hfits := fits_of_yields hy hat.fits
  have hy := primary_at hat (by rw [hk]; exact TokenKind.noConfusion) hy
  rw [hk] at hy
  simp only [negPrimary, yields_bind, yields_allocTemp] at hy
  obtain ⟨_, _, ⟨z, hz, rfl, rfl⟩, _, s, hconst, _, _, ⟨r, hr, rfl, rfl⟩, w, s', hprim, hy⟩ := hy
  have hat₁ := hat.next.take z
  have hload := loads_of_yields hat₁.fits.pool hconst
  have hat₂ := (hat₁.of_yields hconst hload.segment.grows hload.current).take r
  obtain ⟨n, rfl, hprim⟩ := primary_of_yields hprim
  have hgrows : Grows st (s.take r) := (Segment.next st).grows.trans
    ((Grows.take _ z).trans (hload.segment.grows.trans (.take s r)))
  have hready' : Ready e (s.take r) := ⟨fun x hx => hgrows.intVar (hready.vars x hx), by
    have : (s.take r).info = st.info := hload.info
    rw [this]
    exact hready.unscaled⟩
  obtain ⟨v, t, f, hcomp, hv, hat₃, hrest⟩ := he hat₂ hready'
    ⟨fun op hop => absurd hop (Nat.not_lt_zero _), fun h => by cases h⟩ hprim
  obtain ⟨rfl, rfl⟩ := yields_pure.mp hrest
  cases w with
  | some c =>
    simp only [yields_bind, yields_freeTemp, yields_pure] at hy
    obtain ⟨_, _, rfl, _, _, rfl, d, t, hneg, rfl, rfl⟩ := hy
    obtain ⟨rfl, rfl⟩ := negLiteral_of_yields hneg
    exact ⟨_, _, 0, .of_quiet (.next st) (compiled_neg_some hz hload hr hcomp (-c)) rfl,
      congrArg (Option.map (- ·)) hv, (hat₃.freeTemp _).freeTemp _, yields_pure.mpr ⟨rfl, rfl⟩⟩
  | none =>
    simp only [yields_bind, yields_emit, yields_freeTemp, yields_pure] at hy
    obtain ⟨_, _, ⟨-, rfl⟩, _, _, rfl, _, _, rfl, rfl, rfl⟩ := hy
    have hcomp' := Compiled.of_quiet (.next st) (compiled_neg_none dst hz hload hr hcomp) rfl
    exact ⟨none, _, 0, hcomp', congrArg (Option.map (- ·)) hv,
      hat.grows hcomp'.segment.grows hfits (by
        rw [freeTemp_current, freeTemp_current]
        exact hat₃.current),
      yields_pure.mpr ⟨rfl, rfl⟩⟩

theorem works_not (hk : (tok i).kind = .exclamation) (he : Works tok name 0 (i + 1) e j) :
    Works tok name 0 i (.not e) j := by
  intro fuel n dst st st' v' hat hready _ hy
  have hfits := fits_of_yields hy hat.fits
  have hy := primary_at hat (by rw [hk]; exact TokenKind.noConfusion) hy
  rw [hk] at hy
  simp only [notPrimary, yields_bind, yields_allocTemp] at hy
  obtain ⟨_, _, ⟨r, hr, rfl, rfl⟩, w, s, hprim, hy⟩ := hy
  obtain ⟨n, rfl, hprim⟩ := primary_of_yields hprim
  have hgrows : Grows st (st.next.take r) := (Segment.next st).grows.trans (.take _ r)
  have hready' : Ready e (st.next.take r) :=
    ⟨fun x hx => hgrows.intVar (hready.vars x hx), hready.unscaled⟩
  obtain ⟨v, t, f, hcomp, hv, hat₃, hrest⟩ := he (hat.next.take r) hready'
    ⟨fun op hop => absurd hop (Nat.not_lt_zero _), fun h => by cases h⟩ hprim
  obtain ⟨rfl, rfl⟩ := yields_pure.mp hrest
  cases w with
  | some c =>
    simp only [yields_bind, yields_freeTemp, yields_pure] at hy
    obtain ⟨_, _, rfl, rfl, rfl⟩ := hy
    exact ⟨_, _, 0, .of_quiet (.next st) (compiled_not_some hr hcomp _) rfl,
      congrArg (Option.map fun v => boolWord (v = 0#64)) hv, hat₃.freeTemp _,
      yields_pure.mpr ⟨rfl, rfl⟩⟩
  | none =>
    simp only [yields_bind, yields_allocTemp, yields_emit, yields_freeTemp, yields_pure] at hy
    obtain ⟨_, _, ⟨z, hz, rfl, rfl⟩, _, u, hconst, _, _, ⟨-, rfl⟩, _, _, rfl, _, _, rfl, rfl,
      rfl⟩ := hy
    have hload := loads_of_yields (hat₃.take z).fits.pool hconst
    have hcomp' := Compiled.of_quiet (.next st)
      (compiled_not_none dst hr hcomp hz hload) rfl
    exact ⟨none, _, 0, hcomp', congrArg (Option.map fun v => boolWord (v = 0#64)) hv,
      hat.grows hcomp'.segment.grows hfits (by
        rw [freeTemp_current, freeTemp_current]
        exact hload.current.trans hat₃.current),
      yields_pure.mpr ⟨rfl, rfl⟩⟩

theorem works_up (hh : h < 11) (he : Works tok name h i e j) : Works tok name (h + 1) i e j :=
  works_of_parses (parses_up hh he.parses)

/-- What an operator does behind its operands: it is folded, or its code is emitted. -/
theorem compiled_combine {op : BinOp} {m : ℕ} {va vb w : Option Word64} {s s₁ s₂ : CompilerState}
    {u : Unit} (hready : Ready (.bin op a b) st) (hfits : Fits s) (hcomp_a : Compiled a dst va st t)
    (hva : va = a.constVal) (hm : t.freeSlot = some m)
    (hcomp_b : Compiled b (15 - m) vb (t.next.take m) s) (hvb : vb = b.constVal)
    (hcheck : Yields ((level op.height).checkScales t.info.fixedScale s.info.fixedScale) s u s₁)
    (hcombine : Yields (combine (level op.height) op.kind t.info.fixedScale s.info.fixedScale dst
      (15 - m) va vb) s₁ w s₂) :
    (Compiled (.bin op a b) dst w st (s₂.freeTemp (15 - m)) ∧ w = (Expr.bin op a b).constVal) ∧
      Grows s s₂ ∧ s₂.current = s.current := by
  have hops : Operands a b dst m va vb st s :=
    ⟨⟨t.next, hcomp_a.quiet (.next t) rfl, hm, hcomp_b⟩, hva, hvb⟩
  have hfits₁ := fits_of_yields hcheck hfits
  obtain ⟨info, hinfo, rfl⟩ := checkScales_of_yields op hcheck
  have hquiet := Quiet.move s s.current info
  by_cases hboth : Expr.bothConst a b = true
  · rw [Expr.bothConst, ← hva, ← hvb, Bool.and_eq_true] at hboth
    obtain ⟨x, rfl⟩ := Option.isSome_iff_exists.mp hboth.1
    obtain ⟨y, rfl⟩ := Option.isSome_iff_exists.mp hboth.2
    simp only [combine, yields_bind, yields_pure] at hcombine
    obtain ⟨v, _, hfold, rfl, rfl⟩ := hcombine
    obtain ⟨hval, rfl⟩ := fold_of_yields hfold
    have hconst : some v = (Expr.bin op a b).constVal := by
      rw [Expr.constVal, ← hva, ← hvb]
      exact hval.symm
    exact ⟨⟨hops.compiled_fold rfl rfl hquiet hinfo v, hconst⟩, hquiet.segment.grows, rfl⟩
  · have hnot : Expr.bothConst a b = false := Bool.not_eq_true _ ▸ hboth
    have hemit : Yields (do
        emitPending dst va
        emitPending (15 - m) vb
        (level op.height).emitOp op.kind t.info.fixedScale s.info.fixedScale dst (15 - m)
        pure none) { s with info := info } w s₂ := by
      cases va with
      | none => exact hcombine
      | some x =>
        cases vb with
        | none => exact hcombine
        | some y => exact absurd (by rw [Expr.bothConst, ← hva, ← hvb]; rfl) hboth
    simp only [yields_bind, yields_pure] at hemit
    obtain ⟨_, u₁, hpa, _, u₂, hpb, _, u₃, hcode, rfl, rfl⟩ := hemit
    have hpend_a := pending_of_yields hfits₁.pool hpa
    have hfits_a := fits_of_yields hpa hfits₁
    have hpend_b := pending_of_yields hfits_a.pool hpb
    have hscale_a : t.info.fixedScale = a.scaleAfter st.info.fixedScale := hcomp_a.scale
    have hscale_b : s.info.fixedScale = b.scaleAfter t.info.fixedScale := hcomp_b.scale
    have hunscaled := hready.unscaled.2.2 hnot
    rw [← hscale_a, ← hscale_b] at hunscaled
    have hopcode := opCode_of_yields (fits_of_yields hpb hfits_a).pool hunscaled.1 hunscaled.2 hcode
    have hcompiled := hops.compiled_emit hnot hquiet hinfo hpend_a hpend_b hopcode
    refine ⟨⟨hcompiled, ?_⟩, ?_, ?_⟩
    · rw [Expr.constVal, ← hva, ← hvb]
      cases va with
      | none => rfl
      | some x =>
        cases vb with
        | none => rfl
        | some y => exact absurd (by rw [Expr.bothConst, ← hva, ← hvb]; rfl) hboth
    · exact hquiet.segment.grows.trans (hpend_a.segment.grows.trans
        (hpend_b.segment.grows.trans hopcode.segment.grows))
    · rw [hopcode.current, hpend_b.current, hpend_a.current]

theorem works_bin {op : BinOp} (ha : Works tok name (op.height + 1) i a j)
    (hop : (tok j).kind = op.kind) (hb : Works tok name op.height (j + 1) b k) :
    Works tok name (op.height + 1) i (.bin op a b) k := by
  refine works_of_parses (parses_bin (R := Ready (.bin op a b))
    (P := fun dst v st t => Compiled (.bin op a b) dst v st t ∧ v = (Expr.bin op a b).constVal)
    ha.parses hop hb.parses (fun hready => ?_) (fun {_ m _ _ t} hready hcomp => ?_)
    fun hready hfits hcomp_a hm hcomp_b hcheck hcombine =>
      compiled_combine hready hfits hcomp_a.1 hcomp_a.2 hm hcomp_b.1 hcomp_b.2 hcheck hcombine)
  · exact ⟨fun x hx => hready.vars x (List.mem_append_left _ hx), hready.unscaled.1⟩
  · have hgrows := (hcomp.1.segment.trans (.next t)).grows.trans (.take t.next m)
    refine ⟨fun x hx => hgrows.intVar (hready.vars x (List.mem_append_right _ hx)), ?_⟩
    have hscale := hready.unscaled.2.1
    rw [← hcomp.1.scale] at hscale
    exact hscale

/-- An expression does not start with a block. -/
theorem head_ne_lBrace (hsyn : LatencyOS.Syn tok name h i e j) : (tok i).kind ≠ .lBrace := by
  induction hsyn with
  | num hk => rw [hk]; exact TokenKind.noConfusion
  | var hk => rw [hk]; exact TokenKind.noConfusion
  | paren hk => rw [hk]; exact TokenKind.noConfusion
  | neg hk => rw [hk]; exact TokenKind.noConfusion
  | not hk => rw [hk]; exact TokenKind.noConfusion
  | up _ _ ih => exact ih
  | bin _ _ _ ih => exact ih
  | cond _ _ _ _ _ ih => exact ih

/-- `expression` leaves the value in the register. -/
theorem Works.expression {fuel n : ℕ} {u : Unit} (hw : Works tok name 11 i e j)
    (hat : At tok name i st) (hready : Ready e st) (hf : Follows (tok j).kind)
    (hy : Yields (Compiler.expression (recN fuel n) dst) st u st') :
    Compiled e dst none st st' ∧ At tok name j st' := by
  obtain ⟨v, t, ⟨hcomp, hv⟩, -, hpend, hat'⟩ := Parses.expression hw.parses hat hready hf hy
  exact ⟨hcomp.load hv hpend, hat'⟩

/-- A branch of a conditional that is an expression. -/
theorem Works.branch {fuel n : ℕ} {u : Unit} (hw : Works tok name 11 i e j)
    (hhead : (tok i).kind ≠ .lBrace) (hat : At tok name i st) (hready : Ready e st)
    (hf : Follows (tok j).kind) (hy : Yields (Compiler.branch (recN fuel n) dst) st u st') :
    Compiled e dst none st st' ∧ At tok name j st' := by
  simp only [Compiler.branch, yields_bind] at hy
  obtain ⟨_, _, hm, hy⟩ := hy
  obtain ⟨rfl, rfl⟩ := (yields_matchToken_of_ne (by rwa [hat.peek_kind])).mp hm
  obtain ⟨m, rfl, hy⟩ := expression_of_yields hy
  exact hw.expression hat hready hf hy

theorem works_cond {m : ℕ} (hc : Works tok name 10 i c j) (hq : (tok j).kind = .question)
    (ha : Works tok name 11 (j + 1) a k) (hhead_a : (tok (j + 1)).kind ≠ .lBrace)
    (hcol : (tok k).kind = .colon) (hb : Works tok name 11 (k + 1) b m)
    (hhead_b : (tok (k + 1)).kind ≠ .lBrace) : Works tok name 11 i (.cond c a b) m := by
  intro fuel n dst st st' v' hat hready hstops hy
  have hvars_c : ∀ x ∈ c.vars, x ∈ (Expr.cond c a b).vars :=
    fun x hx => List.mem_append_left _ (List.mem_append_left _ hx)
  have hvars_a : ∀ x ∈ a.vars, x ∈ (Expr.cond c a b).vars :=
    fun x hx => List.mem_append_left _ (List.mem_append_right _ hx)
  have hvars_b : ∀ x ∈ b.vars, x ∈ (Expr.cond c a b).vars :=
    fun x hx => List.mem_append_right _ hx
  rw [levelAt_succ _ (by decide)] at hy
  obtain ⟨w, s, hlow, hy⟩ := yields_bind.mp hy
  have hends : Ends 10 (tok j).kind := by
    rw [hq]
    intro op _
    cases op <;> exact TokenKind.noConfusion
  obtain ⟨vc, t, f, hcomp_c, hvc, hat_t, hrest⟩ := hc hat
    ⟨fun x hx => hready.vars x (hvars_c x hx), hready.unscaled.1⟩
    ⟨hends.mono (by decide), fun h => by cases h⟩ hlow
  rw [← hat_t.peek_kind] at hends
  obtain ⟨rfl, rfl⟩ := restAt_stops (by decide) hends (fun h => by cases h) hrest
  simp only [restAt, if_neg (Nat.lt_irrefl 10), ternaryRest, yields_bind] at hy
  obtain ⟨_, _, hm, hy⟩ := hy
  obtain ⟨rfl, rfl⟩ := (yields_matchToken_of_eq (hat_t.peek_kind.trans hq) (by decide)).mp hm
  simp only [if_true, yields_bind, yields_emitInst] at hy
  obtain ⟨_, s₁, hload, _, _, ⟨hroom₁, rfl, rfl⟩, _, s₂, hyes, _, _, hm₂, hy⟩ := hy
  have hat_n := hat_t.next
  have hpend := pending_of_yields hat_n.fits.pool hload
  have hat₁ := hat_n.of_yields hload hpend.segment.grows hpend.current
  have hcond : Compiled c dst none st s₁ := (hcomp_c.quiet (.next s) rfl).load hvc hpend
  have hfits₁ : Fits (s₁.emitted .jz dst 0 0) :=
    ⟨by rw [length_emitted]; exact hroom₁, hat₁.fits.pool⟩
  have hseg₁ := Segment.emitted s₁ .jz dst 0 0
  have hscale₁ : (s₁.emitted .jz dst 0 0).info.fixedScale = c.scaleAfter st.info.fixedScale :=
    hcond.scale
  have hunscaled := hready.unscaled.2
  rw [← hscale₁] at hunscaled
  obtain ⟨hcomp_a, hat₂⟩ := ha.branch hhead_a (hat₁.grows hseg₁.grows hfits₁ hat₁.current)
    ⟨fun x hx => (hcond.segment.trans hseg₁).grows.intVar (hready.vars x (hvars_a x hx)),
      hunscaled.1⟩ (by rw [hcol]; exact follows_colon) hyes
  obtain ⟨rfl, rfl⟩ := (yields_matchToken_of_eq (hat₂.peek_kind.trans hcol) (by decide)).mp hm₂
  simp only [if_true, yields_bind, yields_emitInst, yields_codeLen, yields_patchImm16,
    yields_pure] at hy
  obtain ⟨_, _, ⟨hroom₂, rfl, rfl⟩, _, t₂, ⟨rfl, ht₂⟩, _, n₂, hn₂, _, s₃, hno, _, t₃, ⟨rfl, ht₃⟩, _,
    st', hst', rfl, rfl⟩ := hy
  rw [ht₂, length_emitted] at hn₂
  rw [ht₃] at hst'
  have hjmp : Segment s₂ (s₂.next.emitted .jmp 0 0 0) := (Segment.next s₂).trans (.emitted ..)
  have hseg : Segment s₁ n₂ := by
    rw [hn₂]
    exact (hseg₁.trans (hcomp_a.segment.trans hjmp)).patchImm16 (Nat.le_refl _) _
  have hfits₂ : Fits n₂ := by
    rw [hn₂]
    exact ⟨by rw [length_patchImm16, length_emitted]; exact hroom₂,
      by rw [patchImm16_constPool]; exact hat₂.fits.pool⟩
  have hat_no : At tok name (k + 1) n₂ := hat₁.grows hseg.grows hfits₂ (by
    rw [hn₂, patchImm16_current]
    exact hat₂.next.current)
  have hscale₂ : n₂.info.fixedScale =
      a.scaleAfter (s₁.emitted .jz dst 0 0).info.fixedScale := by
    rw [hn₂, patchImm16_info]
    exact hcomp_a.scale
  obtain ⟨hcomp_b, hat₃⟩ := hb.branch hhead_b hat_no
    ⟨fun x hx => (hcond.segment.trans hseg).grows.intVar (hready.vars x (hvars_b x hx)), by
      rw [hscale₂]
      exact hunscaled.2⟩ ⟨hstops.1, (hstops.2 rfl).1, (hstops.2 rfl).2⟩ hno
  have hseg_b : Segment s₁ st' := by
    rw [hst']
    refine (hseg.trans hcomp_b.segment).patchImm16 ?_ _
    exact (hseg₁.trans hcomp_a.segment).grows.code_le
  have hcompiled := compiled_cond hcond hroom₁ hcomp_a hroom₂ hn₂ hcomp_b hat₃.fits.code hst'
  have hat' : At tok name m st' := by
    have hgrows : Grows s₁ st' := hseg_b.grows
    refine hat₁.grows hgrows ?_ (by rw [hst', patchImm16_current]; exact hat₃.current)
    rw [hst']
    exact ⟨by rw [length_patchImm16]; exact hat₃.fits.code,
      by rw [patchImm16_constPool]; exact hat₃.fits.pool⟩
  refine ⟨none, st', 0, hcompiled, rfl, hat', ?_⟩
  simp only [restAt, if_neg (Nat.lt_irrefl 10), ternaryRest, yields_bind]
  have hne : st'.peek.kind ≠ .question := by
    rw [hat'.peek_kind]
    exact (hstops.2 rfl).1
  exact ⟨false, st', (yields_matchToken_of_ne hne).mpr ⟨rfl, rfl⟩, yields_pure.mpr ⟨rfl, rfl⟩⟩

/-- Every integer expression is compiled as it should be. -/
theorem works_of_syn (hsyn : LatencyOS.Syn tok name h i e j) : Works tok name h i e j := by
  induction hsyn with
  | num hk => exact works_num hk
  | var hk hx hb hd => exact works_var hk hx hb hd
  | paren hk _ hj ih => exact works_paren hk ih hj
  | neg hk _ ih => exact works_neg hk ih
  | not hk _ ih => exact works_not hk ih
  | up hh _ ih => exact works_up hh ih
  | bin _ hop _ iha ihb => exact works_bin iha hop ihb
  | cond _ hq ha hcol hb ihc iha ihb =>
    exact works_cond ihc hq iha (head_ne_lBrace ha) hcol ihb (head_ne_lBrace hb)

/-! ## Evaluation on the machine -/

/-- A stretch of code is run up to a position and leaves a value in a register, or it stops at a
division by zero when there is no value; the step limit may cut it off only if fewer steps are
left than the stretch has instructions. -/
def Evaluates (host : Host) (T : ℕ → Prop) (dst : ℕ) (vm : PX64VM) (stop : ℕ)
    (res : Option Word64) : Prop :=
  ∃ n t, Machine.iter (step host) n vm = .ok t ∧ (∀ r, ¬ T r → t.regs r = vm.regs r) ∧
    (t.ip = stop ∧ res = some (t.regs dst) ∨
      res = none ∧ (∃ e s, t.step host = .error (e, s) ∧
        stopCode e = some "ERR_PX64_DIV_BY_ZERO") ∨
      (∃ s, t.step host = .error (wcetExceeded, s)) ∧
        vm.maxSteps < vm.steps + (stop - vm.ip) / 4)

theorem evaluates_of_computes {host : Host} {T : ℕ → Prop} {vm : PX64VM} {stop : ℕ}
    {res : Option Word64} (hc : Computes host T dst vm stop res) :
    Evaluates host T dst vm stop res := by
  cases res with
  | some x =>
    obtain ⟨vm', hp, hip, hx⟩ := hc
    obtain ⟨n, t, hrun, hframe, rfl | ⟨hcut, hlt⟩⟩ := hp.iter_step
    · exact ⟨n, t, hrun, hframe, .inl ⟨hip, by rw [hx]⟩⟩
    · rw [hip] at hlt
      exact ⟨n, t, hrun, hframe, .inr (.inr ⟨hcut, hlt⟩)⟩
  | none =>
    obtain ⟨vm', r, hp, hip, hfetch, hcode⟩ := hc.stops
    obtain ⟨n, t, hrun, hframe, rfl | ⟨hcut, hlt⟩⟩ := hp.iter_step
    · by_cases hbudget : t.maxSteps ≤ t.steps
      · obtain ⟨hsteps, hmax⟩ := hp.steps_le
        exact ⟨n, t, hrun, hframe, .inr (.inr
          ⟨⟨t, step_of_out (inside_of_fetch hfetch hcode) hbudget⟩, by omega⟩)⟩
      · refine ⟨n, t, hrun, hframe, .inr (.inl ⟨rfl, r.1, r.2, ?_, hcode⟩)⟩
        rw [step_eq_fetch host (Nat.not_le.mp hbudget), hfetch]
    · exact ⟨n, t, hrun, hframe, .inr (.inr ⟨hcut, by omega⟩)⟩

/-- The code of an integer expression over variables in registers, in a fresh temporary, computes
its value. -/
theorem computes_of_syn {fuel n : ℕ} {st₀ : CompilerState} {u : Unit}
    (reg : List UInt8 → ℕ) (hfresh : Yields allocTemp st₀ dst st) (hfits : Fits st₀)
    (hscale : st.info.fixedScale = none) (hsyn : st.Syn 11 st.current e j)
    (hend : Follows (st.tok j).kind)
    (hvars : ∀ x ∈ e.vars, st₀.place x = some (.reg (reg x)) ∧ reg x < 20 ∧
      ¬ st₀.Free (reg x) ∧ st₀.scaleOf x = none)
    (hcomp : Yields (Compiler.expression (recN fuel n) dst) st u st') (host : Host) (vm : PX64VM)
    (hvm : Holds vm st st') (hip : vm.ip = st.code.length) :
    Computes host (fun r => r = dst ∨ st.Free r) dst vm st'.code.length
      (e.eval vm.getStrBytes fun x => vm.regs (reg x)) := by
  obtain ⟨m, hm, rfl, rfl⟩ := yields_allocTemp.mp hfresh
  obtain ⟨hm8, hused⟩ := freeSlot_eq_some hm
  have htake := Grows.take st₀ m
  have hready : Ready e (st₀.take m) := by
    refine ⟨fun x hx => htake.intVar ⟨(hvars x hx).2.2.2, .inl ?_⟩, ?_⟩
    · rw [(hvars x hx).1]
      rfl
    · rw [hscale]
      exact e.unscaled_none
  have hat : At (st₀.take m).tok (st₀.take m).text? (st₀.take m).current (st₀.take m) :=
    ⟨rfl, rfl, rfl, hfits.code, hfits.pool⟩
  obtain ⟨hcompiled, -⟩ := Works.expression (works_of_syn hsyn) hat hready hend hcomp
  have hnotFree : ∀ x ∈ e.vars, ∀ r, (st₀.take m).Free r → reg x ≠ r := by
    rintro x hx r hr rfl
    exact (hvars x hx).2.2.1 (hr.of_take hm8).1
  have hplaces : ∀ x ∈ e.vars, st'.place x = some (.reg (reg x)) := fun x hx =>
    (htake.trans hcompiled.segment.grows).place_of_some (hvars x hx).1
  have hapart : Apart (fun x => .reg (reg x)) (scratch (st₀.take m) st') (15 - m) e := by
    refine ⟨by omega, temp_notMem hm8 hcompiled.segment, fun x hx => (hvars x hx).2.1,
      fun x hx r hr heq => ?_, Expr.inPlace_of_avoids fun x hx heq => ?_⟩
    · exact hnotFree x hx r (hcompiled.segment.free r hr) (Place.reg.inj heq)
    · have hdst : st₀.Free (15 - m) := free_of_freeSlot hm
      rw [← Place.reg.inj heq] at hdst
      exact (hvars x hx).2.2.1 hdst
  have hrun := hcompiled.runs host vm (fun x => .reg (reg x)) hplaces hvm hip hapart
  refine (does_none.mp hrun).mono fun r hr => ?_
  exact hr.imp_right (hcompiled.segment.free r)

/-- Expression code is correct: compiled into a fresh temporary, with no fixed-point scale
around, the code of an integer expression over variables in registers leaves its value there or
stops at a division by zero exactly when the evaluation divides by zero, and changes nothing but
the temporary and the free ones. -/
theorem expression_evaluates {fuel n : ℕ} {st₀ : CompilerState} {u : Unit}
    (reg : List UInt8 → ℕ) (hfresh : Yields allocTemp st₀ dst st) (hfits : Fits st₀)
    (hscale : st.info.fixedScale = none) (hsyn : st.Syn 11 st.current e j)
    (hend : Follows (st.tok j).kind)
    (hvars : ∀ x ∈ e.vars, st₀.place x = some (.reg (reg x)) ∧ reg x < 20 ∧
      ¬ st₀.Free (reg x) ∧ st₀.scaleOf x = none)
    (hcomp : Yields (Compiler.expression (recN fuel n) dst) st u st') (host : Host) (vm : PX64VM)
    (hvm : Holds vm st st') (hip : vm.ip = st.code.length) :
    Evaluates host (fun r => r = dst ∨ st.Free r) dst vm st'.code.length
      (e.eval vm.getStrBytes fun x => vm.regs (reg x)) :=
  evaluates_of_computes
    (computes_of_syn reg hfresh hfits hscale hsyn hend hvars hcomp host vm hvm hip)

/-- A variable, and an expression over it. -/
def doubled : List UInt8 := bytes "let $x = 5; $x * 2;"

/-- The state before the expression. -/
def doubledState : CompilerState :=
  match prefixState false 40 doubled 1 with
  | .ok st => st
  | .error _ => CompilerState.new [] [] false

/-- A host without input. -/
def silentHost : Host where
  rdtsc := fun _ => 0#64
  readKey := fun _ => 0#64
  termSize := fun _ => 0#64
  fileExists := fun _ _ => false
  fileWrite := fun _ _ _ => false

/-- A machine at the code of the expression, with 5 in register 1. -/
def doubledMachine (st : CompilerState) : PX64VM :=
  { PX64VM.new st.code st.strPool st.constPool [] with
    ip := doubledState.code.length
    regs := fun r => if r = 1 then 5#64 else 0#64 }

theorem doubled_syn : (doubledState.take 0).Syn 11 (doubledState.take 0).current
    (.bin .mul (.var (bytes "$x")) (.num 2#64)) 8 := by
  have hcur : (doubledState.take 0).current = 5 := by decide +kernel
  rw [hcur]
  have hx : (doubledState.take 0).Syn 1 5 (.var (bytes "$x")) 6 :=
    .up (by decide) (.var (by decide +kernel) (by decide +kernel) (by decide +kernel)
      (by decide +kernel))
  have hop : ((doubledState.take 0).tok 6).kind = BinOp.mul.kind := by decide +kernel
  have htwo : (doubledState.take 0).Syn 0 7 (.num 2#64) 8 := .num (by decide +kernel)
  have hmul : (doubledState.take 0).Syn 1 5 (.bin .mul (.var (bytes "$x")) (.num 2#64)) 8 :=
    .bin hx hop htwo
  exact .up (by decide) (.up (by decide) (.up (by decide) (.up (by decide) (.up (by decide)
    (.up (by decide) (.up (by decide) (.up (by decide) (.up (by decide) (.up (by decide)
      hmul)))))))))

/-- Five doubled is ten. -/
theorem doubled_evaluates :
    ∃ st', Yields (Compiler.expression (recN 10 10) 15) (doubledState.take 0) () st' ∧
      Evaluates silentHost (fun r => r = 15 ∨ (doubledState.take 0).Free r) 15
        (doubledMachine st') st'.code.length (some 10#64) := by
  have hok : ((Compiler.expression (recN 10 10) 15).run perform (doubledState.take 0)).isOk =
      true := by decide +kernel
  cases hrun : (Compiler.expression (recN 10 10) 15).run perform (doubledState.take 0) with
  | error e => rw [hrun] at hok; cases hok
  | ok r =>
    refine ⟨r.2, hrun, ?_⟩
    have hsemi : ((doubledState.take 0).tok 8).kind = .semi := by decide +kernel
    have hslot : doubledState.freeSlot = some 0 := by decide +kernel
    have hvars : ∀ x ∈ (Expr.bin .mul (.var (bytes "$x")) (.num 2#64)).vars,
        doubledState.place x = some (.reg 1) ∧ 1 < 20 ∧ ¬ doubledState.Free 1 ∧
          doubledState.scaleOf x = none := by
      intro x hx
      obtain rfl := List.mem_singleton.mp hx
      exact ⟨by decide +kernel, by decide, fun h => absurd h.1 (by decide), by decide +kernel⟩
    exact expression_evaluates (fun _ => 1) (yields_allocTemp.mpr ⟨0, hslot, rfl, rfl⟩)
      ⟨by decide +kernel, by decide +kernel⟩ (by decide +kernel) doubled_syn
      (hsemi ▸ follows_semi) hvars hrun silentHost
      (doubledMachine r.2) ⟨fun _ _ _ => rfl, List.prefix_rfl⟩ rfl

end Compiler

end LatencyOS
