import LatencyOS.Compiler.Conditional
import LatencyOS.Compiler.Registers

/-!
# Parsing by levels

How the levels of the expression compiler find the operands of an operator, whatever the
operands are and whatever their compilation does to the state.

`Parses h i j R P` says that the tokens between two positions are consumed by the function of a
height, from a state with the property `R`, and that what this does is `P`.  Levels above the
one of an operator have nothing to add, and a binary operator is put together from its operands.
-/

namespace LatencyOS

open CompilerState

namespace Compiler

variable {st st' t : CompilerState} {tok : ℕ → Token} {name : Token → Option (List UInt8)}
  {dst h i j k : ℕ} {v : Option Word64}

/-- What may follow an expression of a height. -/
def Stops (h : ℕ) (k : TokenKind) : Prop :=
  Ends (h - 1) k ∧ (h = 11 → k ≠ .question ∧ k ≠ .pipe)

/-- The compiler is at a token, over some text. -/
structure At (tok : ℕ → Token) (name : Token → Option (List UInt8)) (i : ℕ)
    (st : CompilerState) : Prop where
  tok_eq : st.tok = tok
  name_eq : st.text? = name
  current : st.current = i
  fits : Fits st

/-! ## Positions -/

theorem At.peek_kind (hat : At tok name i st) : st.peek.kind = (tok i).kind := by
  rw [peek_eq_tok, hat.tok_eq, hat.current]

theorem At.grows (hat : At tok name i st) (hg : Grows st st') (hfits : Fits st')
    (hcur : st'.current = j) : At tok name j st' :=
  ⟨hg.tok.trans hat.tok_eq, hg.text?.trans hat.name_eq, hcur, hfits⟩

theorem At.next (hat : At tok name i st) : At tok name (i + 1) st.next :=
  hat.grows (Segment.next st).grows ⟨hat.fits.code, hat.fits.pool⟩ (congrArg (· + 1) hat.current)

theorem At.take (hat : At tok name i st) (k : ℕ) : At tok name i (st.take k) :=
  hat.grows (Grows.take st k) ⟨hat.fits.code, hat.fits.pool⟩ hat.current

theorem At.freeTemp (hat : At tok name i st) (r : ℕ) : At tok name i (st.freeTemp r) := by
  rw [CompilerState.freeTemp]
  split
  · exact ⟨hat.tok_eq, hat.name_eq, hat.current, ⟨hat.fits.code, hat.fits.pool⟩⟩
  · exact hat

theorem At.of_yields {α : Type} {p : CompilerM α} {x : α} (hat : At tok name i st)
    (hy : Yields p st x st') (hg : Grows st st') (hcur : st'.current = st.current) :
    At tok name i st' := hat.grows hg (fits_of_yields hy hat.fits) (hcur.trans hat.current)

/-- Below the bottom nothing is compiled. -/
theorem primary_of_yields {fuel n : ℕ} {v' : Option Word64}
    (hy : Yields ((recN fuel n).primary dst) st v' st') :
    ∃ m, n = m + 1 ∧ Yields (levelAt (recN fuel m) 0 dst) st v' st' := by
  cases n with
  | zero => cases hy
  | succ m => exact ⟨m, rfl, hy⟩

theorem ternary_of_yields {fuel n : ℕ} {v' : Option Word64}
    (hy : Yields ((recN fuel n).ternary dst) st v' st') :
    ∃ m, n = m + 1 ∧ Yields (levelAt (recN fuel m) 11 dst) st v' st' := by
  cases n with
  | zero => cases hy
  | succ m => exact ⟨m, rfl, hy⟩

theorem expression_of_yields {fuel n : ℕ} {u : Unit}
    (hy : Yields ((recN fuel n).expression dst) st u st') :
    ∃ m, n = m + 1 ∧ Yields (Compiler.expression (recN fuel m) dst) st u st' := by
  cases n with
  | zero => cases hy
  | succ m => exact ⟨m, rfl, hy⟩

/-- At a token that ends the expression, a level is done. -/
theorem restAt_stops {r : Rec} {f : ℕ} {v' : Option Word64} (hh : h ≤ 11)
    (hends : Ends h st.peek.kind) (hq : h = 11 → st.peek.kind ≠ .question)
    (hy : Yields (restAt r f h dst v) st v' st') : v' = v ∧ st' = st := by
  cases h with
  | zero => exact yields_pure.mp hy
  | succ h =>
    by_cases h10 : h < 10
    · simp only [restAt, if_pos h10] at hy
      obtain ⟨_, _, r', _, hstep, hr'⟩ := yields_loop hy
      simp only [yields_bind, yields_peekKind] at hstep
      obtain ⟨_, _, ⟨rfl, rfl⟩, hstep⟩ := hstep
      rw [not_isOp_of_ends h10 hends, Bool.not_false, if_pos rfl] at hstep
      obtain ⟨rfl, rfl⟩ := yields_pure.mp hstep
      exact hr'
    · simp only [restAt, if_neg h10, ternaryRest, yields_bind] at hy
      obtain ⟨_, _, hm, hy⟩ := hy
      obtain ⟨rfl, rfl⟩ := (yields_matchToken_of_ne (hq (by omega))).mp hm
      exact yields_pure.mp hy

/-- What a primary expression goes on with, by its first token. -/
theorem primary_at {r : Rec} (hat : At tok name i st) (hk : (tok i).kind ≠ .eof)
    (hy : Yields (levelAt r 0 dst) st v st') :
    Yields (match (tok i).kind with
      | .number n => pure (some n)
      | .timeLiteral ns => pure (some ns)
      | .floatLit scaledVal fracDigits => floatLit scaledVal fracDigits dst
      | .stringLit => stringLit st.peek dst
      | .varIdent | .hardwareIdent => varPrimary r st.peek dst
      | .intrinsicIdent | .ident => namedPrimary r st.peek dst
      | .minus => negPrimary r dst
      | .exclamation => notPrimary r dst
      | .lParen => parenPrimary r dst
      | _ => fail "ERR_SYNTAX_UNEXPECTED_TOKEN" "Unexpected token encountered in expression"
          "Literal value, variable ($var), hardware handle (#h), or intrinsic call (@fn)"
          "Expression -> Primary"
          "Replace invalid token with a valid variable name, number, or expression")
      st.next v st' := by
  rw [levelAt, primary, yields_bind] at hy
  obtain ⟨_, _, hadv, hy⟩ := hy
  obtain ⟨rfl, rfl⟩ := (yields_advance (by rwa [hat.peek_kind])).mp hadv
  rw [hat.peek_kind] at hy
  exact hy

/-- A token that is no operator stops every expression. -/
theorem stops_of_follows {k : TokenKind} (hf : Follows k) (hh : h ≤ 11) : Stops h k :=
  ⟨hf.ends.mono (by omega), fun _ => ⟨hf.question, hf.pipe⟩⟩

theorem follows_rParen : Follows .rParen :=
  ⟨by intro op _; cases op <;> decide, by decide, by decide⟩

theorem follows_semi : Follows .semi :=
  ⟨by intro op _; cases op <;> decide, by decide, by decide⟩

theorem follows_colon : Follows .colon :=
  ⟨by intro op _; cases op <;> decide, by decide, by decide⟩

/-! ## Operands and operators -/

/-- From a state with a property, compiling the tokens between two positions at a height does
something to the state. -/
def Parses (tok : ℕ → Token) (name : Token → Option (List UInt8)) (h i j : ℕ)
    (R : CompilerState → Prop)
    (P : ℕ → Option Word64 → CompilerState → CompilerState → Prop) : Prop :=
  ∀ {fuel n dst : ℕ} {st st' : CompilerState} {v' : Option Word64}, At tok name i st → R st →
    Stops h (tok j).kind → Yields (levelAt (recN fuel n) h dst) st v' st' →
    ∃ v t f, P dst v st t ∧ At tok name j t ∧ Yields (restAt (recN fuel n) f h dst v) t v' st'

variable {R Ra Rb : CompilerState → Prop}
  {P Pa Pb : ℕ → Option Word64 → CompilerState → CompilerState → Prop}

/-- A level above the expression's own has nothing to add. -/
theorem parses_up (hh : h < 11) (hp : Parses tok name h i j R P) :
    Parses tok name (h + 1) i j R P := by
  intro fuel n dst st st' v' hat hR hstops hy
  rw [levelAt_succ _ hh] at hy
  obtain ⟨w, s, hlow, hy⟩ := yields_bind.mp hy
  have hends : Ends h (tok j).kind := hstops.1
  obtain ⟨v, t, f, hP, hat', hrest⟩ := hp hat hR ⟨hends.mono (by omega), fun h' => by omega⟩ hlow
  rw [← hat'.peek_kind] at hends
  obtain ⟨rfl, rfl⟩ := restAt_stops (by omega) hends (fun h' => by omega) hrest
  exact ⟨w, s, _, hP, hat', hy⟩

/-- So has any number of levels above it. -/
theorem parses_of_le {h' : ℕ} (hle : h ≤ h') (hh : h' ≤ 11) (hp : Parses tok name h i j R P) :
    Parses tok name h' i j R P := by
  induction h', hle using Nat.le_induction with
  | base => exact hp
  | succ h' _ ih => exact parses_up (by omega) (ih (by omega))

/-- An operator and its right operand, behind the left one. -/
theorem parses_bin {op : BinOp} (ha : Parses tok name (op.height + 1) i j Ra Pa)
    (hop : (tok j).kind = op.kind) (hb : Parses tok name op.height (j + 1) k Rb Pb)
    (hRa : ∀ {st : CompilerState}, R st → Ra st)
    (hRb : ∀ {dst m : ℕ} {va : Option Word64} {st t : CompilerState}, R st → Pa dst va st t →
      Rb (t.next.take m))
    (hcombine : ∀ {dst m : ℕ} {va vb w : Option Word64} {st t s s₁ s₂ : CompilerState} {u : Unit},
      R st → Fits s → Pa dst va st t → t.freeSlot = some m → Pb (15 - m) vb (t.next.take m) s →
      Yields ((level op.height).checkScales t.info.fixedScale s.info.fixedScale) s u s₁ →
      Yields (combine (level op.height) op.kind t.info.fixedScale s.info.fixedScale dst (15 - m)
        va vb) s₁ w s₂ →
      P dst w st (s₂.freeTemp (15 - m)) ∧ Grows s s₂ ∧ s₂.current = s.current) :
    Parses tok name (op.height + 1) i k R P := by
  intro fuel n dst st st' v' hat hR hstops hy
  have hh := op.height_le
  obtain ⟨va, t, f, hPa, hat_t, hrest⟩ := ha hat (hRa hR)
    ⟨by rw [hop]; exact op.ends_kind, fun h => by omega⟩ hy
  have hpeek : t.peek.kind = op.kind := hat_t.peek_kind.trans hop
  -- one turn of the loop
  simp only [restAt, if_pos (show op.height < 10 by omega), binaryRest] at hrest
  obtain ⟨f', s, r, rfl, hstep, hrest⟩ := yields_loop hrest
  simp only [yields_bind, yields_peekKind] at hstep
  obtain ⟨_, t, ⟨rfl, rfl⟩, hstep⟩ := hstep
  rw [hpeek, isOp_kind, Bool.not_true, if_neg Bool.false_ne_true] at hstep
  simp only [yields_bind, yields_fixedScale, yields_allocTemp, yields_freeTemp,
    yields_pure] at hstep
  obtain ⟨opTok, _, hadv, _, t', ⟨rfl, rfl⟩, _, _, ⟨m, hm, rfl, rfl⟩, vb, _, hright, _, s₁,
    ⟨rfl, rfl⟩, _, s₂, hcheck, w, s₃, hcomb, _, _, rfl, rfl, rfl⟩ := hstep
  have hne : t.peek.kind ≠ .eof := by
    rw [hpeek]
    cases op <;> exact TokenKind.noConfusion
  obtain ⟨rfl, rfl⟩ := (yields_advance hne).mp hadv
  rw [hpeek] at hcomb
  obtain ⟨vb', u, f₂, hPb, hat_u, hrest_b⟩ := hb (hat_t.next.take m) (hRb hR hPa)
    ⟨hstops.1.mono (by omega), fun h => by omega⟩ hright
  have hends : Ends op.height u.peek.kind := by
    rw [hat_u.peek_kind]
    exact hstops.1
  obtain ⟨rfl, rfl⟩ := restAt_stops (by omega) hends (fun h => by omega) hrest_b
  obtain ⟨hP, hgrows, hcur⟩ := hcombine hR hat_u.fits hPa hm hPb hcheck hcomb
  have hfits := fits_of_yields hcomb (fits_of_yields hcheck hat_u.fits)
  refine ⟨w, _, f', hP, (hat_u.grows hgrows hfits (hcur.trans hat_u.current)).freeTemp _, ?_⟩
  simp only [restAt, if_pos (show op.height < 10 by omega), binaryRest]
  exact hrest

/-- Compiling an expression up to a token that ends it. -/
theorem Parses.ternary {fuel n : ℕ} {v' : Option Word64} (hp : Parses tok name 11 i j R P)
    (hat : At tok name i st) (hR : R st) (hf : Follows (tok j).kind)
    (hy : Yields (levelAt (recN fuel n) 11 dst) st v' st') :
    P dst v' st st' ∧ At tok name j st' := by
  obtain ⟨v, t, f, hP, hat', hrest⟩ := hp hat hR (stops_of_follows hf (Nat.le_refl _)) hy
  rw [← hat'.peek_kind] at hf
  have hends : Ends 11 t.peek.kind := fun op hop => hf.ends op (by have := op.height_le; omega)
  obtain ⟨rfl, rfl⟩ := restAt_stops (Nat.le_refl _) hends (fun _ => hf.question) hrest
  exact ⟨hP, hat'⟩

/-- `expression` goes on with what is still pending. -/
theorem Parses.pending {fuel n : ℕ} {u : Unit} (hp : Parses tok name 11 i j R P)
    (hat : At tok name i st) (hR : R st) (hf : Follows (tok j).kind)
    (hy : Yields (Compiler.expression (recN fuel n) dst) st u st') :
    ∃ v t, P dst v st t ∧ At tok name j t ∧ Yields (emitPending dst v) t () st' ∧
      At tok name j st' := by
  simp only [Compiler.expression, yields_bind] at hy
  obtain ⟨v, t, htern, _, s, hload, hpipes⟩ := hy
  obtain ⟨hP, hat'⟩ := hp.ternary hat hR hf htern
  have hpend := pending_of_yields hat'.fits.pool hload
  have hat'' := hat'.of_yields hload hpend.segment.grows hpend.current
  have hpipe : s.peek.kind ≠ .pipe := by
    rw [hat''.peek_kind]
    exact hf.pipe
  obtain ⟨_, _, r, _, hstep, hr⟩ := yields_loop hpipes
  simp only [yields_bind] at hstep
  obtain ⟨_, _, hm, hstep⟩ := hstep
  obtain ⟨rfl, rfl⟩ := (yields_matchToken_of_ne hpipe).mp hm
  obtain ⟨rfl, rfl⟩ := yields_pure.mp hstep
  obtain ⟨_, rfl⟩ := hr
  exact ⟨v, t, hP, hat', hload, hat''⟩

/-- `expression` loads what is still pending. -/
theorem Parses.expression {fuel n : ℕ} {u : Unit} (hp : Parses tok name 11 i j R P)
    (hat : At tok name i st) (hR : R st) (hf : Follows (tok j).kind)
    (hy : Yields (Compiler.expression (recN fuel n) dst) st u st') :
    ∃ v t, P dst v st t ∧ At tok name j t ∧ Pending t dst v st' ∧ At tok name j st' := by
  obtain ⟨v, t, hP, hat', hload, hat''⟩ := hp.pending hat hR hf hy
  exact ⟨v, t, hP, hat', pending_of_yields hat'.fits.pool hload, hat''⟩

end Compiler

end LatencyOS
