import LatencyOS.Compiler.Emit

/-!
# Rules for compiler computations

`Yields p st a st'` says that a computation of the compiler succeeds.  One rule per small
function says what it yields and in which state; a success of a larger function is taken
apart with them.
-/

namespace LatencyOS

namespace CompilerState

/-- The state past the current token. -/
def next (st : CompilerState) : CompilerState := { st with current := st.current + 1 }

/-- What `alloc_temp` leaves when it takes slot `i`. -/
def take (st : CompilerState) (i : ℕ) : CompilerState :=
  { st with tempUsed := Function.update st.tempUsed i true, allocLog := st.allocLog ++ [15 - i] }

/-- What an emitted instruction leaves. -/
def emitted (st : CompilerState) (op : Opcode) (rd rs1 rs2 : ℕ) : CompilerState :=
  { st with code := st.code ++ instBytes op rd rs1 rs2 }

theorem peek_eq_tok (st : CompilerState) : st.peek = st.tok st.current := rfl

theorem lt_of_kind_ne_eof {st : CompilerState} {i : ℕ} (h : (st.tok i).kind ≠ .eof) :
    i < st.tokens.length := by
  by_contra hlt
  rw [tok, List.getD_eq_getElem?_getD, List.getElem?_eq_none (Nat.not_lt.mp hlt)] at h
  exact h rfl

end CompilerState

namespace Compiler

variable {α β : Type} {st st' : CompilerState}

/-- A computation succeeds. -/
abbrev Yields (p : CompilerM α) (st : CompilerState) (a : α) (st' : CompilerState) : Prop :=
  p.run perform st = .ok (a, st')

theorem yields_bind {p : CompilerM α} {f : α → CompilerM β} {b : β} :
    Yields (p >>= f) st b st' ↔ ∃ a t, Yields p st a t ∧ Yields (f a) t b st' :=
  Prog.run_bind_eq_ok perform

theorem yields_seq {p : CompilerM α} {f : α → CompilerM β} {a : α} {b : β} {t : CompilerState}
    (hp : Yields p st a t) (hf : Yields (f a) t b st') : Yields (p >>= f) st b st' :=
  yields_bind.mpr ⟨a, t, hp, hf⟩

theorem yields_pure {a b : α} : Yields (pure a) st b st' ↔ b = a ∧ st' = st := by
  rw [Yields, Prog.run_pure, Except.ok.injEq, Prod.mk.injEq, eq_comm, eq_comm (a := st)]

theorem yields_get {s : CompilerState} : Yields get st s st' ↔ s = st ∧ st' = st := by
  rw [Yields, get, Prog.run_op, perform, Except.ok.injEq, Prod.mk.injEq, eq_comm,
    eq_comm (a := st) (b := st')]

theorem not_yields_fail {code message expected stage suggestion : String} {a : α} :
    ¬ Yields (fail code message expected stage suggestion) st a st' := by
  intro h
  simp only [fail, yields_bind] at h
  obtain ⟨_, _, _, h⟩ := h
  cases h

theorem not_yields_panic {a : α} : ¬ Yields panic st a st' := by
  intro h
  cases h

theorem yields_require {c : Bool} {code message expected stage suggestion : String} {u : Unit} :
    Yields (require c code message expected stage suggestion) st u st' ↔ c = true ∧ st' = st := by
  rw [require]
  cases c
  · simp [not_yields_fail]
  · simp [yields_pure]

theorem yields_peekKind {k : TokenKind} :
    Yields peekKind st k st' ↔ k = st.peek.kind ∧ st' = st := by
  simp only [peekKind, peek, peekAhead, yields_bind, yields_get, yields_pure]
  constructor
  · rintro ⟨_, _, ⟨_, _, ⟨rfl, rfl⟩, rfl, rfl⟩, rfl, rfl⟩
    exact ⟨rfl, rfl⟩
  · rintro ⟨rfl, rfl⟩
    exact ⟨_, _, ⟨_, _, ⟨rfl, rfl⟩, rfl, rfl⟩, rfl, rfl⟩

theorem yields_advance (h : st.peek.kind ≠ .eof) {tok : Token} :
    Yields advance st tok st' ↔ tok = st.peek ∧ st' = st.next := by
  have hlt : st.current < st.tokens.length := st.lt_of_kind_ne_eof h
  simp only [advance, yields_bind, yields_get]
  constructor
  · rintro ⟨_, _, ⟨rfl, rfl⟩, hrun⟩
    rw [if_pos hlt] at hrun
    cases hrun
    exact ⟨rfl, rfl⟩
  · rintro ⟨rfl, rfl⟩
    refine ⟨_, _, ⟨rfl, rfl⟩, ?_⟩
    rw [if_pos hlt]
    rfl

/-- A token that is there is consumed. -/
theorem yields_matchToken_of_eq {kind : TokenKind} (h : st.peek.kind = kind) (hne : kind ≠ .eof)
    {b : Bool} : Yields (matchToken kind) st b st' ↔ b = true ∧ st' = st.next := by
  simp only [matchToken, yields_bind, yields_peekKind]
  constructor
  · rintro ⟨_, _, ⟨rfl, rfl⟩, hb⟩
    rw [if_pos h, yields_bind] at hb
    obtain ⟨_, _, hadv, hb⟩ := hb
    obtain ⟨rfl, rfl⟩ := (yields_advance (h ▸ hne)).mp hadv
    exact yields_pure.mp hb
  · rintro ⟨rfl, rfl⟩
    refine ⟨_, _, ⟨rfl, rfl⟩, ?_⟩
    rw [if_pos h, yields_bind]
    exact ⟨_, _, (yields_advance (h ▸ hne)).mpr ⟨rfl, rfl⟩, yields_pure.mpr ⟨rfl, rfl⟩⟩

/-- A token that is not there is left alone. -/
theorem yields_matchToken_of_ne {kind : TokenKind} (h : st.peek.kind ≠ kind) {b : Bool} :
    Yields (matchToken kind) st b st' ↔ b = false ∧ st' = st := by
  simp only [matchToken, yields_bind, yields_peekKind]
  constructor
  · rintro ⟨_, _, ⟨rfl, rfl⟩, hb⟩
    rw [if_neg h] at hb
    exact yields_pure.mp hb
  · rintro ⟨rfl, rfl⟩
    exact ⟨_, _, ⟨rfl, rfl⟩, by rw [if_neg h]; exact yields_pure.mpr ⟨rfl, rfl⟩⟩

theorem yields_emitInst {op : Opcode} {rd rs1 rs2 pos : ℕ} :
    Yields (emitInst op rd rs1 rs2) st pos st' ↔
      st.code.length + 4 ≤ maxBytecodeSize ∧ pos = st.code.length ∧
        st' = st.emitted op rd rs1 rs2 := by
  rw [Yields, emitInst, Prog.run_op, perform, CompilerState.emitInst]
  split
  · next hlt => simp [Nat.not_le.mpr hlt]
  · next hlt =>
    rw [Except.ok.injEq, Prod.mk.injEq]
    constructor
    · rintro ⟨rfl, rfl⟩
      exact ⟨Nat.not_lt.mp hlt, rfl, rfl⟩
    · rintro ⟨_, rfl, rfl⟩
      exact ⟨rfl, rfl⟩

theorem yields_emit {op : Opcode} {rd rs1 rs2 : ℕ} {u : Unit} :
    Yields (emit op rd rs1 rs2) st u st' ↔
      st.code.length + 4 ≤ maxBytecodeSize ∧ st' = st.emitted op rd rs1 rs2 := by
  simp only [emit, yields_bind, yields_emitInst, yields_pure]
  constructor
  · rintro ⟨_, _, ⟨hle, rfl, rfl⟩, _, rfl⟩
    exact ⟨hle, rfl⟩
  · rintro ⟨hle, rfl⟩
    exact ⟨_, _, ⟨hle, rfl, rfl⟩, trivial, rfl⟩

theorem yields_allocTemp {r : ℕ} :
    Yields allocTemp st r st' ↔ ∃ i, st.freeSlot = some i ∧ r = 15 - i ∧ st' = st.take i := by
  rw [Yields, allocTemp, Prog.run_op, perform, CompilerState.allocTemp]
  cases st.freeSlot with
  | none => simp
  | some i =>
    simp only [Except.ok.injEq, Prod.mk.injEq, Option.some.injEq, exists_eq_left']
    exact and_congr eq_comm eq_comm

theorem yields_freeTemp {r : ℕ} {u : Unit} :
    Yields (freeTemp r) st u st' ↔ st' = st.freeTemp r := by
  rw [Yields, freeTemp, Prog.run_op, perform, Except.ok.injEq, Prod.mk.injEq]
  exact ⟨fun h => h.2.symm, fun h => ⟨rfl, h.symm⟩⟩

theorem yields_codeLen {n : ℕ} : Yields codeLen st n st' ↔ n = st.code.length ∧ st' = st := by
  simp only [codeLen, yields_bind, yields_get, yields_pure]
  constructor
  · rintro ⟨_, _, ⟨rfl, rfl⟩, rfl, rfl⟩
    exact ⟨rfl, rfl⟩
  · rintro ⟨rfl, rfl⟩
    exact ⟨_, _, ⟨rfl, rfl⟩, rfl, rfl⟩

theorem yields_patchImm16 {pos imm : ℕ} {u : Unit} :
    Yields (patchImm16 pos imm) st u st' ↔ st' = st.patchImm16 pos imm := by
  rw [Yields, patchImm16, Prog.run_op, perform, Except.ok.injEq, Prod.mk.injEq]
  exact ⟨fun h => h.2.symm, fun h => ⟨rfl, h.symm⟩⟩

theorem yields_modifyInfo {f : ExprInfo → ExprInfo} {u : Unit} :
    Yields (modifyInfo f) st u st' ↔ st' = { st with info := f st.info } := by
  simp only [modifyInfo, yields_bind, yields_get]
  constructor
  · rintro ⟨_, _, ⟨rfl, rfl⟩, h⟩
    cases h
    rfl
  · rintro rfl
    exact ⟨_, _, ⟨rfl, rfl⟩, rfl⟩

theorem yields_fixedScale {s : Option ℕ} :
    Yields fixedScale st s st' ↔ s = st.info.fixedScale ∧ st' = st := by
  simp only [fixedScale, yields_bind, yields_get, yields_pure]
  constructor
  · rintro ⟨_, _, ⟨rfl, rfl⟩, rfl, rfl⟩
    exact ⟨rfl, rfl⟩
  · rintro ⟨rfl, rfl⟩
    exact ⟨_, _, ⟨rfl, rfl⟩, rfl, rfl⟩

/-! ## Consuming tokens -/

variable {s t : CompilerState}

/-- Only tokens are consumed. -/
def Moved (st t : CompilerState) : Prop := ∃ c, t = { st with current := c }

theorem Moved.refl (st : CompilerState) : Moved st st := ⟨st.current, rfl⟩

theorem Moved.trans (h₁ : Moved st s) (h₂ : Moved s t) : Moved st t := by
  obtain ⟨c, rfl⟩ := h₁
  obtain ⟨d, rfl⟩ := h₂
  exact ⟨d, rfl⟩

theorem moved_advance {tok : Token} (h : Yields advance st tok t) :
    tok = st.peek ∧ Moved st t := by
  simp only [advance, yields_bind, yields_get] at h
  obtain ⟨_, _, ⟨rfl, rfl⟩, h⟩ := h
  split at h
  · cases h
    exact ⟨rfl, _, rfl⟩
  · cases h
    exact ⟨rfl, .refl _⟩

theorem moved_matchToken {kind : TokenKind} {b : Bool} (h : Yields (matchToken kind) st b t) :
    Moved st t := by
  simp only [matchToken, yields_bind, yields_peekKind] at h
  obtain ⟨_, _, ⟨rfl, rfl⟩, h⟩ := h
  split at h
  · obtain ⟨_, _, hadv, h⟩ := yields_bind.mp h
    obtain ⟨-, rfl⟩ := yields_pure.mp h
    exact (moved_advance hadv).2
  · obtain ⟨-, rfl⟩ := yields_pure.mp h
    exact .refl _

/-! ## Loops -/

/-- A successful loop does its first step, and goes on or is done. -/
theorem yields_loop {σ : Type} {fuel : ℕ} {a b : σ} {f : σ → CompilerM (ForInStep σ)}
    (h : Yields (loop fuel a f) st b st') :
    ∃ n t r, fuel = n + 1 ∧ Yields (f a) st r t ∧
      match r with
      | .done c => b = c ∧ st' = t
      | .yield c => Yields (loop n c f) t b st' := by
  cases fuel with
  | zero => cases h
  | succ n =>
    simp only [loop, yields_bind] at h
    obtain ⟨r, t, hr, h⟩ := h
    refine ⟨n, t, r, rfl, hr, ?_⟩
    cases r with
    | done c => exact yields_pure.mp h
    | yield c => exact h

/-! ## Capacities -/

/-- The code and the constants fit. -/
structure Fits (st : CompilerState) : Prop where
  code : st.code.length ≤ maxBytecodeSize
  pool : st.constPool.length ≤ maxConstPool

theorem fits_of_pushConstant {val : Word64} {hint : String} {i : ℕ} (h : Fits st)
    (ho : st.pushConstant val hint = .ok (i, st')) : Fits st' := by
  rw [CompilerState.pushConstant] at ho
  split at ho
  · cases ho
  · next hlt =>
    cases ho
    refine ⟨h.code, ?_⟩
    rw [List.length_append]
    exact Nat.not_le.mp hlt

/-- Every primitive checks the capacities. -/
theorem fits_perform {β : Type} (o : CompilerOp β) {b : β}
    (ho : perform β o st = .ok (b, st')) (h : Fits st) : Fits st' := by
  cases o with
  | emitInst op rd rs1 rs2 =>
    simp only [perform, CompilerState.emitInst] at ho
    split at ho
    · cases ho
    · next hlt =>
      cases ho
      refine ⟨?_, h.pool⟩
      rw [List.length_append]
      exact Nat.not_lt.mp hlt
  | patchImm16 pos imm =>
    cases ho
    rw [CompilerState.patchImm16]
    split
    · exact ⟨by simpa using h.code, h.pool⟩
    · exact h
  | allocTemp =>
    simp only [perform, CompilerState.allocTemp] at ho
    split at ho <;> cases ho
    exact ⟨h.code, h.pool⟩
  | freeTemp reg =>
    cases ho
    rw [CompilerState.freeTemp]
    split
    · exact ⟨h.code, h.pool⟩
    · exact h
  | addConstant val =>
    simp only [perform, CompilerState.addConstant] at ho
    split at ho
    · cases ho
      exact h
    · exact fits_of_pushConstant h ho
  | appendTableConstant val => exact fits_of_pushConstant h ho
  | declareVar tok isMut =>
    simp only [perform, CompilerState.declareVar] at ho
    repeat' split at ho
    all_goals cases ho
    all_goals exact ⟨h.code, h.pool⟩
  | resolveVar tok =>
    simp only [perform, CompilerState.resolveVar] at ho
    repeat' split at ho
    all_goals cases ho
    all_goals exact ⟨h.code, h.pool⟩
  | leaveFn =>
    cases ho
    rw [CompilerState.leaveFn]
    split
    · exact h
    · exact ⟨h.code, h.pool⟩
  | appendStr text =>
    simp only [perform, CompilerState.appendStr] at ho
    split at ho <;> cases ho
    exact ⟨h.code, h.pool⟩
  | pushArray name len =>
    simp only [perform, CompilerState.pushArray] at ho
    split at ho <;> cases ho
    exact ⟨h.code, h.pool⟩
  | negate n =>
    simp only [perform, CompilerState.negate] at ho
    split at ho <;> cases ho
    exact h
  | rangeLen startVal endVal =>
    simp only [perform, CompilerState.rangeLen] at ho
    repeat' split at ho
    all_goals cases ho
    all_goals exact h
  | _ =>
    cases ho
    exact ⟨h.code, h.pool⟩

theorem fits_of_yields {p : CompilerM α} {a : α} (h : Yields p st a st') (hfits : Fits st) :
    Fits st' := Prog.run_invariant perform (fun o _ _ _ => fits_perform o) p h hfits

end Compiler

end LatencyOS
