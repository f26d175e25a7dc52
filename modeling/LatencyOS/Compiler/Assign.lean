import LatencyOS.Compiler.Places

/-!
# Assignments

The right-hand side of an assignment is compiled straight into the register of the variable, so
an occurrence of the variable that is evaluated after the register was first written reads the
new content.  A spilled variable is assigned through a temporary and reads the old one.
-/

namespace LatencyOS

open CompilerState PX64VM

namespace Compiler

variable {st st' s t : CompilerState} {x : List UInt8} {e : Expr} {tok : Token}

/-! ## What the checks around an assignment do -/

theorem yields_checkVarMutation {u : Unit} (h : Yields (checkVarMutation tok) st u st') :
    st' = st := by
  simp only [checkVarMutation, text, yields_bind, yields_get] at h
  obtain ⟨_, _, ⟨rfl, rfl⟩, name, _, ⟨_, _, ⟨rfl, rfl⟩, hname⟩, h⟩ := h
  split at hname
  · obtain ⟨-, rfl⟩ := yields_pure.mp hname
    split at h
    · exact (yields_pure.mp h).2
    split at h
    · exact (yields_require.mp h).2
    · exact (yields_pure.mp h).2
  · exact absurd hname not_yields_panic

/-- The right-hand side is no handle, so none is moved. -/
theorem yields_checkHwAssignPre {r : ℕ} {v : Option (ℕ × ResourceKind)}
    (hk : (st.peekAhead 0).kind ≠ .hardwareIdent) (h : Yields (checkHwAssignPre r) st v st') :
    st' = st := by
  simp only [checkHwAssignPre] at h
  split at h
  · exact (yields_pure.mp h).2
  simp only [handleState, peek, peekAhead, yields_bind, yields_get, yields_pure,
    yields_require] at h
  obtain ⟨_, _, ⟨_, _, ⟨rfl, rfl⟩, rfl, rfl⟩, _, _, ⟨-, rfl⟩, _, _, ⟨_, _, ⟨rfl, rfl⟩, rfl, rfl⟩,
    h⟩ := h
  rw [if_pos hk] at h
  exact (yields_pure.mp h).2

/-- Behind the code of the right-hand side nothing is emitted. -/
structure SameCode (st st' : CompilerState) : Prop where
  code : st'.code = st.code
  consts : st'.constPool = st.constPool

theorem SameCode.trans {a b c : CompilerState} (h₁ : SameCode a b) (h₂ : SameCode b c) :
    SameCode a c := ⟨h₂.code.trans h₁.code, h₂.consts.trans h₁.consts⟩

theorem yields_setHandleState {slot : ℕ} {ts : Typestate} {u : Unit}
    (h : Yields (setHandleState slot ts) st u st') : SameCode st st' := by
  simp only [setHandleState, yields_bind, yields_get] at h
  obtain ⟨_, _, ⟨rfl, rfl⟩, h⟩ := h
  cases h
  exact ⟨rfl, rfl⟩

theorem yields_applyHwAssignPost {r : ℕ} {from' : Option (ℕ × ResourceKind)} {u : Unit}
    (h : Yields (applyHwAssignPost r tok from') st u st') : SameCode st st' := by
  simp only [applyHwAssignPost] at h
  split at h
  · obtain ⟨-, rfl⟩ := yields_pure.mp h
    exact ⟨rfl, rfl⟩
  split at h
  · obtain ⟨_, t, h₁, h₂⟩ := yields_bind.mp h
    exact (yields_setHandleState h₁).trans (yields_setHandleState h₂)
  · exact yields_setHandleState h

theorem yields_setTypesOf {f : Var → Option ℕ × Option ℕ} {u : Unit}
    (h : Yields (setTypesOf tok f) st u st') : SameCode st st' := by
  simp only [setTypesOf, getVarIndex, yields_bind, yields_get, yields_pure] at h
  obtain ⟨_, _, ⟨rfl, rfl⟩, _, _, ⟨_, _, ⟨rfl, rfl⟩, rfl, rfl⟩, h⟩ := h
  split at h
  · cases h
    exact ⟨rfl, rfl⟩
  · obtain ⟨-, rfl⟩ := yields_pure.mp h
    exact ⟨rfl, rfl⟩

theorem yields_endAssign {u : Unit} (h : Yields endAssign st u st') : SameCode st st' := by
  simp only [endAssign, yields_bind, yields_require] at h
  obtain ⟨_, _, hm, rfl, rfl⟩ := h
  by_cases hk : st.peek.kind = .semi
  · obtain ⟨-, rfl⟩ := (yields_matchToken_of_eq hk (by decide)).mp hm
    exact ⟨rfl, rfl⟩
  · obtain ⟨-, rfl⟩ := (yields_matchToken_of_ne hk).mp hm
    exact ⟨rfl, rfl⟩

theorem SameCode.holds {vm : PX64VM} {a b c : CompilerState} (h : SameCode b c)
    (hvm : Holds vm a c) : Holds vm a b := by
  refine ⟨fun i h₁ h₂ => ?_, ?_⟩
  · rw [← h.code] at h₂ ⊢
    exact hvm.code i h₁ h₂
  · rw [← h.consts]
    exact hvm.consts

/-! ## The code of an assignment -/

/-- An expression does not start with a handle. -/
theorem head_ne_hardwareIdent {tok : ℕ → Token} {name : Token → Option (List UInt8)} {h i j : ℕ}
    (hsyn : LatencyOS.Syn tok name h i e j) : (tok i).kind ≠ .hardwareIdent := by
  induction hsyn with
  | num hk => rw [hk]; exact TokenKind.noConfusion
  | var hk => rw [hk]; exact TokenKind.noConfusion
  | paren hk => rw [hk]; exact TokenKind.noConfusion
  | neg hk => rw [hk]; exact TokenKind.noConfusion
  | not hk => rw [hk]; exact TokenKind.noConfusion
  | up _ _ ih => exact ih
  | bin _ _ _ ih => exact ih
  | cond _ _ _ _ _ ih => exact ih

section Code

variable {fuel n i j r slot : ℕ} {u : Unit}

/-- The right-hand side goes to the register of the variable. -/
theorem regAssign_compiled (hat : At st.tok st.text? i st) (hsyn : st.Syn 11 i e j)
    (hend : (st.tok j).kind = .semi) (hready : Ready e st)
    (hy : Yields (regAssign (recN fuel n) tok r) st u st') :
    ∃ s, Compiled e r none st s ∧ SameCode s st' := by
  simp only [regAssign, setEnumType, yields_bind, yields_modifyInfo, yields_get] at hy
  obtain ⟨_, t, hmut, _, t', hpre, _, _, rfl, _, s, hexpr, _, _, hpost, _, _, ⟨rfl, rfl⟩, _, _,
    htypes, hsemi⟩ := hy
  obtain rfl := yields_checkVarMutation hmut
  have hhead : (t.peekAhead 0).kind ≠ .hardwareIdent := by
    rw [show t.peekAhead 0 = t.peek from rfl, hat.peek_kind]
    exact head_ne_hardwareIdent hsyn
  obtain rfl := yields_checkHwAssignPre hhead hpre
  obtain ⟨m, rfl, hexpr⟩ := expression_of_yields hexpr
  have hquiet := Quiet.move t' t'.current { t'.info with enumType := none }
  obtain ⟨hcomp, -⟩ := Works.expression (works_of_syn hsyn)
    (hat.grows hquiet.segment.grows ⟨hat.fits.code, hat.fits.pool⟩ hat.current)
    (hready.mono hquiet.segment.grows rfl) (hend ▸ follows_semi) hexpr
  exact ⟨s, .of_quiet hquiet hcomp rfl, (yields_applyHwAssignPost hpost).trans
    ((yields_setTypesOf htypes).trans (yields_endAssign hsemi))⟩

/-- The right-hand side goes to a temporary and from there to the slot of the variable. -/
theorem spilledAssign_compiled (hat : At st.tok st.text? i st) (hsyn : st.Syn 11 i e j)
    (hend : (st.tok j).kind = .semi) (hready : Ready e st)
    (hy : Yields (spilledAssign (recN fuel n) tok slot) st u st') :
    ∃ k s, st.freeSlot = some k ∧ Compiled e (15 - k) none (st.take k) s ∧
      SameCode (s.emitted .spillStore slot (15 - k) 0) st' := by
  simp only [spilledAssign, setEnumType, yields_bind, yields_modifyInfo, yields_get,
    yields_allocTemp, yields_emit, yields_freeTemp] at hy
  obtain ⟨_, t, hmut, _, _, rfl, _, _, ⟨k, hk, rfl, rfl⟩, _, s, hexpr, _, _, ⟨-, rfl⟩, _, _, rfl, _,
    _, ⟨rfl, rfl⟩, _, _, htypes, hsemi⟩ := hy
  obtain rfl := yields_checkVarMutation hmut
  obtain ⟨m, rfl, hexpr⟩ := expression_of_yields hexpr
  have hquiet := Quiet.move (t.take k) t.current { t.info with enumType := none }
  have hat' : At t.tok t.text? i (t.take k) := hat.take k
  obtain ⟨hcomp, -⟩ := Works.expression (works_of_syn hsyn)
    (hat'.grows hquiet.segment.grows ⟨hat'.fits.code, hat'.fits.pool⟩ hat.current)
    ((hready.mono (Grows.take t k) rfl).mono hquiet.segment.grows rfl) (hend ▸ follows_semi) hexpr
  refine ⟨k, s, hk, .of_quiet hquiet hcomp rfl, ?_⟩
  exact SameCode.trans ⟨freeTemp_code .., freeTemp_constPool ..⟩
    ((yields_setTypesOf htypes).trans (yields_endAssign hsemi))

/-- The tokens from the current one on are an assignment of an integer expression. -/
structure Assignment (st : CompilerState) (x : List UInt8) (e : Expr) (j : ℕ) : Prop where
  target : (st.tok st.current).kind = .varIdent
  name : st.text? (st.tok st.current) = some x
  sign : (st.tok (st.current + 1)).kind = .eq ∨ (st.tok (st.current + 1)).kind = .colonEq
  value : st.Syn 11 (st.current + 2) e j
  semi : (st.tok j).kind = .semi

theorem yields_resolveVar_of_known (hx : st.text? tok = some x) {r r' : ℕ}
    (hr : st.regOf x = some r) (h : Yields (resolveVar tok) st r' st') : r' = r ∧ st' = st := by
  rw [Yields, resolveVar, Prog.run_op, perform, CompilerState.resolveVar] at h
  simp only [hx] at h
  rw [regOf] at hr
  split at h
  · next halias =>
    cases h
    rw [halias] at hr
    exact ⟨Option.some.inj hr, rfl⟩
  next halias =>
  rw [halias] at hr
  split at h
  · next hparam =>
    cases h
    rw [hparam] at hr
    exact ⟨Option.some.inj hr, rfl⟩
  next hparam =>
  rw [hparam] at hr
  obtain ⟨i, hi, rfl⟩ := Option.map_eq_some_iff.mp hr
  rw [hi] at h
  cases h
  exact ⟨rfl, rfl⟩

/-- The statement is an assignment to the slot or to the register of the variable. -/
theorem statement_assign (ha : Assignment st x e j)
    (hy : Yields (statement (recN fuel n)) st u st') :
    (∃ slot, st.spillOf x = some slot ∧
      Yields (spilledAssign (recN fuel n) (st.tok st.current) slot) st.next.next u st') ∨
    st.spillOf x = none ∧ ∀ r, st.regOf x = some r →
      Yields (regAssign (recN fuel n) (st.tok st.current) r) st.next.next u st' := by
  have hne : st.peek.kind ≠ .eof := by
    rw [peek_eq_tok, ha.target]
    exact TokenKind.noConfusion
  have hsign : (st.peekAhead 1).kind ≠ .dot ∧ (st.peekAhead 1).kind ≠ .lBracket := by
    rw [show st.peekAhead 1 = st.tok (st.current + 1) from rfl]
    rcases ha.sign with h | h <;> rw [h] <;>
      exact ⟨TokenKind.noConfusion, TokenKind.noConfusion⟩
  have hstat : Yields (varStatement (recN fuel n)) st u st' := by
    simp only [statement, yields_bind, yields_peekKind] at hy
    obtain ⟨_, _, ⟨rfl, rfl⟩, hy⟩ := hy
    rw [peek_eq_tok, ha.target] at hy
    simp only [identStatement, peekAhead, yields_bind, yields_get, yields_pure] at hy
    obtain ⟨_, _, ⟨_, _, ⟨rfl, rfl⟩, rfl, rfl⟩, hy⟩ := hy
    rwa [if_neg hsign.1, if_neg hsign.2] at hy
  simp only [varStatement, yields_bind, yields_advance hne, yields_peekKind] at hstat
  obtain ⟨_, _, ⟨rfl, rfl⟩, _, _, ⟨rfl, rfl⟩, sp, _, hsp, hstat⟩ := hstat
  have hname : st.next.text? st.peek = some x := ha.name
  obtain ⟨rfl, rfl⟩ := (yields_isSpilledVar hname).mp hsp
  have hspill : st.next.spillOf x = st.spillOf x := rfl
  have hkind : st.next.peek.kind = .eq ∨ st.next.peek.kind = .colonEq := ha.sign
  have hne' : st.next.peek.kind ≠ .eof := by
    rcases hkind with h | h <;> rw [h] <;> exact TokenKind.noConfusion
  rw [hspill] at hstat
  cases hs : st.spillOf x with
  | some slot =>
    rw [hs] at hstat
    refine .inl ⟨slot, rfl, ?_⟩
    rcases hkind with h | h <;> rw [h] at hstat <;>
      simp only [yields_bind, yields_advance hne'] at hstat <;>
      obtain ⟨_, _, ⟨-, rfl⟩, hstat⟩ := hstat <;> exact hstat
  | none =>
    rw [hs] at hstat
    refine .inr ⟨rfl, fun r hr => ?_⟩
    rcases hkind with h | h <;> rw [h] at hstat <;>
      simp only [yields_bind] at hstat <;> obtain ⟨_, _, hres, hstat⟩ := hstat <;>
      obtain ⟨rfl, rfl⟩ := yields_resolveVar_of_known hname (by exact hr) hres <;>
      simp only [yields_advance hne'] at hstat <;>
      obtain ⟨_, _, ⟨-, rfl⟩, hstat⟩ := hstat <;> exact hstat

end Code

/-! ## Assignments on the machine -/

/-- A stretch of code assigns a value to a variable and leaves the other variables in scope
alone, or it stops at a division by zero when there is no value; the step limit may cut it off
only if fewer steps are left than the stretch has instructions. -/
def Assigns (host : Host) (st : CompilerState) (x : List UInt8) (vm : PX64VM) (stop : ℕ)
    (res : Option Word64) : Prop :=
  ∃ n t, Machine.iter (step host) n vm = .ok t ∧
    (t.ip = stop ∧ st.read t x = res ∧
        (∀ y ∈ st.scopeNames, y ≠ x → st.read t y = st.read vm y) ∨
      res = none ∧ (∃ e s, t.step host = .error (e, s) ∧
        stopCode e = some "ERR_PX64_DIV_BY_ZERO") ∨
      (∃ s, t.step host = .error (wcetExceeded, s)) ∧
        vm.maxSteps < vm.steps + (stop - vm.ip) / 4)

/-- The conditions under which an assignment reads the state before it.  The register of the
variable is read before it is first written, the temporaries taken are no variables, and no
variable shares the place. -/
structure ReadsOld (st : CompilerState) (x : List UInt8) (e : Expr) : Prop where
  inPlace : ∀ r, st.place x = some (.reg r) → e.InPlace (fun y => st.place y = some (.reg r))
  temps : ∀ y ∈ x :: (e.vars ++ st.scopeNames), ∀ r, st.place y = some (.reg r) →
    ¬ st.Reaches (if (st.spillOf x).isSome then e.temps + 1 else e.temps) r
  apart : ∀ y ∈ st.scopeNames, y ≠ x → st.place y ≠ st.place x
  unscaled : e.Unscaled st.info.fixedScale

section Machine

variable {host : Host} {T : ℕ → Prop} {vm : PX64VM} {stop r : ℕ} {res : Option Word64}

/-- A variable whose place is not written is read as before. -/
theorem read_of_passes {vm' : PX64VM} (hp : Passes host T vm vm') {y : List UInt8}
    (hy : ∀ k, st.place y = some (.reg k) → ¬ T k) : st.read vm' y = st.read vm y := by
  unfold CompilerState.read
  cases hq : st.place y with
  | none => rfl
  | some q =>
    cases q with
    | reg k => exact congrArg some (hp.frame k (hy k hq))
    | slot s => exact congrArg some (congrFun hp.spill s)

/-- The value was computed in the register of the variable. -/
theorem assigns_of_computes (hc : Computes host T r vm stop res)
    (hx : st.place x = some (.reg r))
    (hothers : ∀ y ∈ st.scopeNames, y ≠ x → ∀ k, st.place y = some (.reg k) → ¬ T k) :
    Assigns host st x vm stop res := by
  cases res with
  | none =>
    obtain ⟨n, t, hrun, -, ⟨-, h⟩ | h | h⟩ := evaluates_of_computes hc
    · cases h
    · exact ⟨n, t, hrun, .inr (.inl h)⟩
    · exact ⟨n, t, hrun, .inr (.inr h)⟩
  | some v =>
    obtain ⟨vm', hp, hip, hv⟩ := hc
    obtain ⟨n, t, hrun, -, rfl | ⟨hcut, hlt⟩⟩ := hp.iter_step
    · refine ⟨n, t, hrun, .inl ⟨hip, ?_, fun y hy hne => read_of_passes hp (hothers y hy hne)⟩⟩
      rw [CompilerState.read, hx, ← hv]
      rfl
    · rw [hip] at hlt
      exact ⟨n, t, hrun, .inr (.inr ⟨hcut, hlt⟩)⟩

/-- The value was computed in a temporary and is stored to the slot of the variable. -/
theorem assigns_of_store {slot : ℕ} (hc : Computes host T r vm stop res)
    (hx : st.place x = some (.slot slot)) (hslot : slot < 32) (hr : r < 20)
    (hothers : ∀ y ∈ st.scopeNames, y ≠ x → st.place y ≠ st.place x ∧
      ∀ k, st.place y = some (.reg k) → ¬ T k)
    (hstore : ∀ vm' : PX64VM, vm'.core = vm.core → vm'.ip = stop →
      vm'.InstAt stop .spillStore slot r 0) : Assigns host st x vm (stop + 4) res := by
  have hcut_le : vm.maxSteps < vm.steps + (stop - vm.ip) / 4 →
      vm.maxSteps < vm.steps + (stop + 4 - vm.ip) / 4 := by omega
  cases res with
  | none =>
    obtain ⟨n, t, hrun, -, ⟨-, h⟩ | h | ⟨hcut, hlt⟩⟩ := evaluates_of_computes hc
    · cases h
    · exact ⟨n, t, hrun, .inr (.inl h)⟩
    · exact ⟨n, t, hrun, .inr (.inr ⟨hcut, hcut_le hlt⟩)⟩
  | some v =>
    obtain ⟨vm', hp, hip, hv⟩ := hc
    obtain ⟨n, t, hrun, -, rfl | ⟨hcut, hlt⟩⟩ := hp.iter_step
    · have hinst := hstore t hp.core hip
      rw [← hip] at hinst
      have hfetch := hinst.spillStore host hslot hr
      by_cases hbudget : t.steps < t.maxSteps
      · have hstep := (step_eq_fetch host hbudget).trans hfetch
        refine ⟨n + 1, { t.advance with
          spillSlots := Function.update t.spillSlots slot (t.regs r) }, ?_,
          .inl ⟨congrArg (· + 4) hip, ?_, fun y hy hne => ?_⟩⟩
        · rw [Machine.iter_add _ hrun]
          exact Machine.iter_succ_of_ok _ hstep 0
        · rw [CompilerState.read, hx, ← hv]
          exact congrArg some (Function.update_self ..)
        · obtain ⟨hplace, hT⟩ := hothers y hy hne
          rw [← read_of_passes hp hT]
          unfold CompilerState.read
          cases hq : st.place y with
          | none => rfl
          | some q =>
            cases q with
            | reg k => rfl
            | slot s =>
              refine congrArg some (Function.update_of_ne (fun hs => hplace ?_) ..)
              rw [hq, hx, hs]
      · obtain ⟨hsteps, hmax⟩ := hp.steps_le
        have hin : t.ip + 4 ≤ t.code.length := by
          by_contra hout
          rw [fetch, if_neg hout] at hfetch
          cases hfetch
        exact ⟨n, t, hrun, .inr (.inr ⟨⟨t, step_of_out hin (Nat.not_lt.mp hbudget)⟩, by omega⟩)⟩
    · rw [hip] at hlt
      exact ⟨n, t, hrun, .inr (.inr ⟨hcut, hcut_le hlt⟩)⟩

end Machine

section Statement

variable {checks : Bool} {src : List UInt8} {fuel n i j r slot : ℕ} {u : Unit}

/-- No register the code may write holds a variable. -/
theorem ReadsOld.notMem (hold : ReadsOld st x e) {T : ℕ → Prop}
    (hT : ∀ r, T r → st.Reaches (if (st.spillOf x).isSome then e.temps + 1 else e.temps) r)
    {y : List UInt8} (hy : y = x ∨ y ∈ e.vars ∨ y ∈ st.scopeNames)
    (hr : st.place y = some (.reg r)) : ¬ T r := by
  have hmem : y ∈ x :: (e.vars ++ st.scopeNames) := by
    rwa [List.mem_cons, List.mem_append]
  exact fun h => hold.temps y hmem r hr (hT r h)

/-- An assignment to a variable in a register. -/
theorem assigns_reg (hst : Reached checks src st) (hold : ReadsOld st x e)
    (hvars : ∀ y ∈ e.vars, (st.place y).isSome) (hs : st.spillOf x = none)
    (hx : st.place x = some (.reg r)) (hc : Compiled e r none st s) (host : Host) (vm : PX64VM)
    (hvm : Holds vm st s) (hip : vm.ip = st.code.length) :
    Assigns host st x vm s.code.length (valueAt st.placeOf vm e) := by
  have htemps : ∀ k, k ∈ scratch st s →
      st.Reaches (if (st.spillOf x).isSome then e.temps + 1 else e.temps) k := by
    rw [hs]
    exact hc.temps
  have hapart : Apart st.placeOf (scratch st s) r e := by
    refine ⟨hst.valid hx, hold.notMem htemps (.inl rfl) hx, fun y hy => ?_,
      fun y hy k hk heq => ?_, ?_⟩
    · exact hst.valid (place_eq_placeOf (hvars y hy))
    · exact hold.notMem htemps (.inr (.inl hy)) (placeOf_eq_reg.mp heq) hk
    · simp only [placeOf_eq_reg]
      exact hold.inPlace r hx
  have hrun := hc.runs host vm st.placeOf
    (fun y hy => hc.segment.grows.place_of_some (place_eq_placeOf (hvars y hy))) hvm hip hapart
  refine assigns_of_computes (does_none.mp hrun) hx fun y hy hne k hk hT => ?_
  rcases hT with rfl | hS
  · exact hold.apart y hy hne (hk.trans hx.symm)
  · exact hold.notMem htemps (.inr (.inr hy)) hk hS

/-- An assignment to a spilled variable: every register its code writes is a temporary. -/
theorem assigns_slot (hst : Reached checks src st) (hold : ReadsOld st x e)
    (hvars : ∀ y ∈ e.vars, (st.place y).isSome) (hs : st.spillOf x = some slot)
    (hi : st.freeSlot = some i) (hc : Compiled e (15 - i) none (st.take i) s) (host : Host)
    (vm : PX64VM) (hvm : Holds vm st (s.emitted .spillStore slot (15 - i) 0))
    (hip : vm.ip = st.code.length) :
    Assigns host st x vm (s.code.length + 4) (valueAt st.placeOf vm e) := by
  have hi8 := (freeSlot_eq_some hi).1
  have hx : st.place x = some (.slot slot) := by rw [CompilerState.place, hs]
  have htemps : ∀ r, (r = 15 - i ∨ r ∈ scratch (st.take i) s) →
      st.Reaches (if (st.spillOf x).isSome then e.temps + 1 else e.temps) r := by
    rw [hs]
    rintro r (rfl | hr)
    · exact (reaches_of_freeSlot hi).mono (Nat.le_add_left 1 _)
    · exact (hc.temps r hr).of_take hi8
  have hapart : Apart st.placeOf (scratch (st.take i) s) (15 - i) e := by
    refine ⟨by omega, temp_notMem hi8 hc.segment, fun y hy => ?_, fun y hy r hr heq => ?_,
      Expr.inPlace_of_avoids fun y hy heq => ?_⟩
    · exact hst.valid (place_eq_placeOf (hvars y hy))
    · exact hold.notMem htemps (.inr (.inl hy)) (placeOf_eq_reg.mp heq) (.inr hr)
    · exact hold.notMem htemps (.inr (.inl hy)) (placeOf_eq_reg.mp heq) (.inl rfl)
  have hgrows : Grows st s := (Grows.take st i).trans hc.segment.grows
  have hemit := (Segment.emitted s .spillStore slot (15 - i) 0).grows
  have hrun := hc.runs host vm st.placeOf
    (fun y hy => hgrows.place_of_some (place_eq_placeOf (hvars y hy)))
    ((hvm.left hemit).right (Nat.le_refl _)) hip hapart
  refine assigns_of_store (does_none.mp hrun) hx (hst.valid hx) (by omega)
    (fun y hy hne => ⟨hold.apart y hy hne, fun r hr => ?_⟩) fun vm' hcore hip' => ?_
  · exact hold.notMem htemps (.inr (.inr hy)) hr
  · exact ((hvm.right hgrows.code_le).of_core hcore).instAt rfl

end Statement

/-- Two assignments of one sum, with the operands in either order. -/
def sums : List UInt8 := bytes "let mut $x = 5; let mut $y = 1; $x = $x + $y; $x = $y + $x;"

/-- The state after some statements. -/
def sumsState (k : ℕ) : CompilerState :=
  match prefixState false 40 sums k with
  | .ok st => st
  | .error _ => CompilerState.new [] [] false

/-- The state after one more statement. -/
def afterStatement (st : CompilerState) : CompilerState :=
  match (statement (recN 40 40)).run perform st with
  | .ok r => r.2
  | .error _ => st

/-- A machine at the code of a statement, with 5 in the first variable and 1 in the second. -/
def sumsMachine (st : CompilerState) : PX64VM :=
  { PX64VM.new (afterStatement st).code [] (afterStatement st).constPool [] with
    ip := st.code.length
    regs := fun r => if r = 1 then 5#64 else if r = 2 then 1#64 else 0#64 }

theorem sums_reached {k : ℕ} (h : (prefixState false 40 sums k).isOk = true) :
    Reached false sums (sumsState k) := by
  cases hst : prefixState false 40 sums k with
  | error e =>
    rw [hst] at h
    cases h
  | ok st =>
    have hstate : sumsState k = st := by rw [sumsState, hst]
    rw [hstate]
    exact .of_accepted (accepted_prefixState hst)

theorem sums_yields {st : CompilerState}
    (h : ((statement (recN 40 40)).run perform st).isOk = true) :
    Yields (statement (recN 40 40)) st () (afterStatement st) := by
  rw [Yields, afterStatement]
  cases hrun : (statement (recN 40 40)).run perform st with
  | error e =>
    rw [hrun] at h
    cases h
  | ok r => rfl

theorem syn_sum {tok : ℕ → Token} {name : Token → Option (List UInt8)} {i : ℕ}
    {a b : List UInt8} (h₁ : (tok i).kind = .varIdent) (ha : name (tok i) = some a)
    (hop : (tok (i + 1)).kind = .plus) (h₂ : (tok (i + 2)).kind = .varIdent)
    (hb : name (tok (i + 2)) = some b) (hend : (tok (i + 3)).kind = .semi) :
    Syn tok name 11 i (.bin .add (.var a) (.var b)) (i + 3) := by
  have hleft : Syn tok name 0 i (.var a) (i + 1) :=
    .var h₁ ha (by rw [hop]; exact TokenKind.noConfusion) (by rw [hop]; exact TokenKind.noConfusion)
  have hright : Syn tok name 0 (i + 2) (.var b) (i + 3) :=
    .var h₂ hb (by rw [hend]; exact TokenKind.noConfusion)
      (by rw [hend]; exact TokenKind.noConfusion)
  have hplus : (tok (i + 1)).kind = BinOp.add.kind := hop
  have hsum : Syn tok name 2 i (.bin .add (.var a) (.var b)) (i + 3) :=
    .bin (.up (by decide) (.up (by decide) hleft)) hplus (.up (by decide) hright)
  exact .up (by decide) (.up (by decide) (.up (by decide) (.up (by decide) (.up (by decide)
    (.up (by decide) (.up (by decide) (.up (by decide) (.up (by decide) hsum))))))))

/-- The tokens from the current one on are a sum of two variables that is assigned to `$x`. -/
def IsSum (st : CompilerState) (a b : List UInt8) : Prop :=
  (st.tok st.current).kind = .varIdent ∧ st.text? (st.tok st.current) = some (bytes "$x") ∧
    (st.tok (st.current + 1)).kind = .eq ∧ (st.tok (st.current + 2)).kind = .varIdent ∧
    st.text? (st.tok (st.current + 2)) = some a ∧ (st.tok (st.current + 3)).kind = .plus ∧
    (st.tok (st.current + 4)).kind = .varIdent ∧ st.text? (st.tok (st.current + 4)) = some b ∧
    (st.tok (st.current + 5)).kind = .semi

instance (st : CompilerState) (a b : List UInt8) : Decidable (IsSum st a b) :=
  inferInstanceAs (Decidable (_ ∧ _))

theorem sums_assignment {st : CompilerState} {a b : List UInt8} (h : IsSum st a b) :
    Assignment st (bytes "$x") (.bin .add (.var a) (.var b)) (st.current + 5) := by
  obtain ⟨hx, hname, hsign, h₁, ha, hop, h₂, hb, hend⟩ := h
  exact ⟨hx, hname, .inl hsign, syn_sum h₁ ha hop h₂ hb hend, hend⟩

/-- In a state both variables are known and unscaled, and a sum of them follows. -/
def SumsReady (st : CompilerState) (a b : List UInt8) : Prop :=
  (st.place (bytes "$x") = some (.reg 1) ∧ st.place (bytes "$y") = some (.reg 2)) ∧
    (st.scaleOf (bytes "$x") = none ∧ st.scaleOf (bytes "$y") = none) ∧
    st.scopeNames = [bytes "$x", bytes "$y"] ∧ st.info.fixedScale = none ∧ IsSum st a b

instance (st : CompilerState) (a b : List UInt8) : Decidable (SumsReady st a b) :=
  inferInstanceAs (Decidable ((_ ∧ _) ∧ (_ ∧ _) ∧ _))

theorem sumsReady_two : SumsReady (sumsState 2) (bytes "$x") (bytes "$y") := by decide +kernel

theorem sumsReady_three : SumsReady (sumsState 3) (bytes "$y") (bytes "$x") := by decide +kernel

/-- Where a run of the second sum is, and what its variable holds. -/
def sumsSeen (n : ℕ) : Option (ℕ × Word64) :=
  (Machine.iter (step silentHost) n (sumsMachine (sumsState 3))).toOption.map
    fun t => (t.ip, t.regs 1)

/-- After three steps the code of the second sum is at its end, and the run is over. -/
theorem sums_seen {n : ℕ} {t : PX64VM}
    (h : Machine.iter (step silentHost) n (sumsMachine (sumsState 3)) = .ok t)
    (hip : t.ip = (afterStatement (sumsState 3)).code.length) : t.regs 1 = 2#64 := by
  have hend : (Machine.iter (step silentHost) 4 (sumsMachine (sumsState 3))).toOption.isNone =
      true := by decide +kernel
  have hseen : sumsSeen n = some (t.ip, t.regs 1) := by
    rw [sumsSeen, h]
    rfl
  have hlen : (afterStatement (sumsState 3)).code.length = 28 := by decide +kernel
  rw [hip, hlen] at hseen
  have hn : n < 4 := by
    by_contra hge
    obtain ⟨d, rfl⟩ : ∃ d, n = 4 + d := ⟨n - 4, by omega⟩
    cases h4 : Machine.iter (step silentHost) 4 (sumsMachine (sumsState 3)) with
    | ok t' =>
      rw [h4] at hend
      cases hend
    | error r =>
      rw [Machine.iter_add_of_error _ h4] at h
      cases h
  have hthree : sumsSeen 0 = some (16, 5#64) ∧ sumsSeen 1 = some (20, 1#64) ∧
      sumsSeen 2 = some (24, 1#64) ∧ sumsSeen 3 = some (28, 2#64) := by decide +kernel
  obtain ⟨h₀, h₁, h₂, h₃⟩ := hthree
  interval_cases n
  · simp [h₀] at hseen
  · simp [h₁] at hseen
  · simp [h₂] at hseen
  · rw [h₃] at hseen
    simpa using hseen.symm

end Compiler

end LatencyOS
