import LatencyOS.Compiler.Temps.Calls

/-!
# Temporaries and combinators

A combinator keeps its counter and its bound in temporaries.  The register an element is loaded by
is freed while the element is held, so the temporaries are not a stack there; the two elements of a
pair are consecutive all the same.

A call of a combinator is recognised by the positions of its tokens.  Where neither of the two
constructs is compiled, each view is a name, so a view takes one token and no temporary.
-/

namespace LatencyOS

open CompilerState

namespace Compiler

namespace Temps

-- the size of an instance doubles with every statement of a block
set_option synthInstance.maxSize 1000000000000

variable {S : Pool.Stack} {held : List ℕ} {d d' i j : ℕ} {st st' : CompilerState} {α β : Type}

/-! ## Views -/

section Views

variable {expression : ℕ → CompilerM Unit} [hexp : ∀ d dst, Uses S d d (expression dst)]

instance uses_viewIntrinsic (name : List UInt8) (baseReg : ℕ) :
    Uses S d d (viewIntrinsic expression name baseReg) := by
  dsimp only [viewIntrinsic]
  infer_instance

instance uses_parseViewSourceToReg (baseReg : ℕ) :
    Uses S d d (parseViewSourceToReg expression baseReg) := by
  dsimp only [parseViewSourceToReg]
  have hview : ∀ name, Uses S d d (if isViewIntrinsic name = true then
      viewIntrinsic expression name baseReg
    else advance >>= fun tok => lookupView tok >>= fun v =>
      match v with
      | some view => pure view
      | none => lookupArray tok >>= fun arr => emit .movImm baseReg 0 0 >>= fun _ =>
        pure ⟨[], arr.arrId, baseReg, 1, arr.len⟩) := by
    intro name
    split
    · infer_instance
    · refine .bind inferInstance fun tok => .bind inferInstance fun v => ?_
      cases v <;> infer_instance
  infer_instance

end Views

/-! ## The loop of a combinator -/

/-- A computation that emits code and nothing else. -/
class Codes (S : Pool.Stack) (p : CompilerM α) : Prop where
  runs : ∀ {held : List ℕ} {st : CompilerState}, TempsHeld held st →
    Runs S p (fun _ st' => TempsHeld held st' ∧ SameTokens st st') st

instance (priority := low) codes_of_looks {p : CompilerM α} [hp : Looks S p] : Codes S p :=
  ⟨fun {_ st} h => hp.runs fun _ => ⟨h, .refl st⟩⟩

instance codes_bind {p : CompilerM α} {f : α → CompilerM β} [hp : Codes S p]
    [hf : ∀ a, Codes S (f a)] : Codes S (p >>= f) :=
  ⟨fun h => Prog.Wp.bind ((hp.runs h).mono fun a _ ht =>
    ((hf a).runs ht.1).mono fun _ _ hu => ⟨hu.1, ht.2.trans hu.2⟩)⟩

instance codes_emitInst (op : Opcode) (rd rs1 rs2 : ℕ) [hop : Obvious (NoCall op)] :
    Codes S (emitInst op rd rs1 rs2) :=
  ⟨fun h _ => ⟨hop.holds.tempWell _ rd rs1 rs2, (ends_emitInst _ op rd rs1 rs2).mono
    fun _ _ hs => ⟨hs.1.tempsHeld h, hs.2⟩⟩⟩

instance codes_emit (op : Opcode) (rd rs1 rs2 : ℕ) [Obvious (NoCall op)] :
    Codes S (emit op rd rs1 rs2) := by
  dsimp only [emit]
  infer_instance

instance codes_emitImm16 (op : Opcode) (rd imm : ℕ) [Obvious (NoCall op)] :
    Codes S (emitImm16 op rd imm) := by
  dsimp only [emitImm16]
  infer_instance

instance codes_movImm (reg imm : ℕ) : Codes S (movImm reg imm) := by
  dsimp only [movImm]
  infer_instance

section Steps

variable {st₀ : CompilerState} {Q : β → CompilerState → Prop}

theorem runs_code {p : CompilerM α} [hp : Codes S p] {f : α → CompilerM β} (h : TempsHeld held st)
    (hs : SameTokens st₀ st)
    (hQ : ∀ a st', TempsHeld held st' → SameTokens st₀ st' → Runs S (f a) Q st') :
    Runs S (p >>= f) Q st :=
  Prog.Wp.bind ((hp.runs h).mono fun a st' hst => hQ a st' hst.1 (hs.trans hst.2))

theorem runs_take {f : ℕ → CompilerM β} (h : TempsHeld held st) (hs : SameTokens st₀ st)
    (hi : Pool.IsNext held i)
    (hQ : ∀ st', TempsHeld (held ++ [i]) st' → SameTokens st₀ st' → Runs S (f (15 - i)) Q st') :
    Runs S (allocTemp >>= f) Q st :=
  Prog.Wp.bind (runs_allocTemp h hi fun st' hst htoks => hQ st' hst (hs.trans htoks))

theorem runs_give {f : Unit → CompilerM β} {front back : List ℕ}
    (h : TempsHeld (front ++ i :: back) st) (hs : SameTokens st₀ st)
    (hQ : ∀ st', TempsHeld (front ++ back) st' → SameTokens st₀ st' → Runs S (f ()) Q st') :
    Runs S (freeTemp (15 - i) >>= f) Q st :=
  Prog.Wp.bind (runs_freeTemp h fun st' hst htoks => hQ st' hst (hs.trans htoks))

end Steps

/-- The element of a view stays in the second of the lowest free temporaries. -/
theorem runs_viewElement (h : TempsHeld held st) (hi : Pool.IsNext held i)
    (hj : Pool.IsNext (held ++ [i]) j) (v : ViewMeta) (loopI : ℕ) :
    Runs S (viewElement v loopI)
      (fun elem st' => elem = 15 - j ∧ TempsHeld (held ++ [j]) st' ∧ SameTokens st st') st := by
  have hrest : ∀ {t : CompilerState}, TempsHeld (held ++ [i]) t → SameTokens st t →
      Runs S (allocTemp >>= fun elemReg => emit .arrLoad elemReg v.arrId (15 - i) >>= fun _ =>
        freeTemp (15 - i) >>= fun _ => pure elemReg)
        (fun elem st' => elem = 15 - j ∧ TempsHeld (held ++ [j]) st' ∧ SameTokens st st') t := by
    intro t ht htoks
    refine runs_take ht htoks hj fun u hu hutoks => runs_code hu hutoks fun _ w hw hwtoks => ?_
    rw [List.append_assoc] at hw
    exact runs_give hw hwtoks fun x hx hxtoks => ⟨rfl, hx, hxtoks⟩
  refine runs_take h (.refl st) hi fun t ht htoks => ?_
  split
  · exact runs_code ht htoks fun _ u hu hutoks => hrest hu hutoks
  · refine runs_take ht htoks hj fun u hu hutoks => ?_
    refine runs_code hu hutoks fun _ w hw hwtoks => runs_code hw hwtoks fun _ x hx hxtoks => ?_
    refine runs_code hx hxtoks fun _ y hy hytoks => runs_give hy hytoks fun z hz hztoks => ?_
    rw [List.append_nil] at hz
    exact hrest hz hztoks

/-- The head of the loop takes a counter, a bound and a condition. -/
theorem runs_loopHead (h : TempsHeld (S.taken d) st) {st₀ : CompilerState}
    (hs : SameTokens st₀ st) (count : ℕ) {f : ℕ × ℕ × ℕ × ℕ × ℕ → CompilerM α}
    {Q : α → CompilerState → Prop}
    (hQ : ∀ start jz st', TempsHeld (S.taken (d + 3)) st' → SameTokens st₀ st' →
      Runs S (f (15 - S.slot d, 15 - S.slot (d + 1), start, 15 - S.slot (d + 2), jz)) Q st') :
    Runs S (loopHead count >>= f) Q st := by
  simp only [loopHead, bind_assoc, pure_bind]
  refine runs_take h hs (S.isNext d) fun t ht htoks => ?_
  rw [← Pool.Stack.taken_succ] at ht
  refine runs_code ht htoks fun _ u hu hutoks => ?_
  refine runs_take hu hutoks (S.isNext _) fun v hv hvtoks => ?_
  rw [← Pool.Stack.taken_succ] at hv
  refine runs_code hv hvtoks fun _ w hw hwtoks => runs_code hw hwtoks fun start x hx hxtoks => ?_
  refine runs_take hx hxtoks (S.isNext _) fun y hy hytoks => ?_
  rw [← Pool.Stack.taken_succ] at hy
  refine runs_code hy hytoks fun _ z hz hztoks => runs_code hz hztoks fun jz t' ht' htoks' => ?_
  exact hQ start jz t' ht' htoks'

instance quiet_loopFoot (loopI loopStartPc jzPc : ℕ) :
    Quiet S (loopFoot loopI loopStartPc jzPc) := by
  dsimp only [loopFoot]
  infer_instance

/-- The element of a view, while the counter, the bound and the condition are held. -/
theorem runs_element (h : TempsHeld (S.taken d) st) (v : ViewMeta) (loopI : ℕ)
    {f : ℕ → CompilerM α} {Q : α → CompilerState → Prop}
    (hQ : ∀ st', TempsHeld (S.taken d ++ [S.slot (d + 1)]) st' →
      Runs S (f (15 - S.slot (d + 1))) Q st') :
    Runs S (viewElement v loopI >>= f) Q st := by
  have hnext : Pool.IsNext (S.taken d ++ [S.slot d]) (S.slot (d + 1)) := by
    rw [← Pool.Stack.taken_succ]
    exact S.isNext _
  refine Prog.Wp.bind ((runs_viewElement h (S.isNext d) hnext v loopI).mono ?_)
  rintro elem t ⟨rfl, ht, -⟩
  exact hQ t ht

instance uses_compileSumToReg (dst : ℕ) (v : ViewMeta) : Uses S d d (compileSumToReg dst v) := by
  refine ⟨fun {st} h => ?_⟩
  refine Prog.Wp.bind (((quiet_emit .movImm dst 0 0).runs h).mono fun _ t ht => ?_)
  refine runs_loopHead ht (.refl t) v.lenImm fun start jz u hu _ => ?_
  refine runs_element hu v _ fun w hw => ?_
  refine Prog.Wp.bind (((quiet_emit .add dst dst _).runs hw).mono fun _ x hx => ?_)
  refine Prog.Wp.bind (runs_freeTemp hx fun y hy _ => ?_)
  rw [List.append_nil] at hy
  have hrest : Uses S (d + 3) d (do
      loopFoot (15 - S.slot d) start jz
      freeTemp (15 - S.slot (d + 2))
      freeTemp (15 - S.slot (d + 1))
      freeTemp (15 - S.slot d)) := inferInstance
  exact hrest.runs hy

instance uses_compileReduceToReg (dst : ℕ) (v : ViewMeta) (initVal : Option Word64)
    (fnName : List UInt8) : Uses S d d (compileReduceToReg dst v initVal fnName) := by
  refine ⟨fun {st} h => ?_⟩
  refine Prog.Wp.bind ((looks_lookupFnByName fnName).runs fun f => ?_)
  have hinit : ∀ {t : CompilerState}, TempsHeld (S.taken d) t →
      Runs S (do
        let head ← loopHead v.lenImm
        match head with
        | (loopI, countReg, loopStartPc, condReg, jzPc) =>
          let elem ← viewElement v loopI
          emit .movReg 7 dst 0
          emit .movReg 6 elem 0
          freeTemp elem
          let _ ← emitImm16 .call 0 f.entryPc
          emit .movReg dst 0 0
          loopFoot loopI loopStartPc jzPc
          freeTemp condReg
          freeTemp countReg
          freeTemp loopI) (fun _ st' => TempsHeld (S.taken d) st') t := by
    intro t ht
    refine runs_loopHead ht (.refl t) v.lenImm fun start jz u hu _ => ?_
    refine runs_element hu v _ fun w hw => ?_
    refine Prog.Wp.bind (((quiet_emit .movReg 7 dst 0).runs hw).mono fun _ x hx => ?_)
    refine Prog.Wp.bind (((quiet_emit .movReg 6 _ 0).runs hx).mono fun _ y hy => ?_)
    refine Prog.Wp.bind (runs_freeTemp hy fun z hz _ => ?_)
    rw [List.append_nil] at hz
    have hrest : Uses S (d + 3) d (do
        let _ ← emitImm16 .call 0 f.entryPc
        emit .movReg dst 0 0
        loopFoot (15 - S.slot d) start jz
        freeTemp (15 - S.slot (d + 2))
        freeTemp (15 - S.slot (d + 1))
        freeTemp (15 - S.slot d)) := inferInstance
    exact hrest.runs hz
  cases initVal with
  | none =>
    exact Prog.Wp.bind (((quiet_emit .movImm dst 0 0).runs h).mono fun _ t ht => hinit ht)
  | some init =>
    exact Prog.Wp.bind (((quiet_emitConst dst init).runs h).mono fun _ t ht => hinit ht)

/-! ## Pairs -/

section SameTokens

variable {names : List (List UInt8)} {pos id : ℕ} {name : List UInt8}

theorem SameTokens.tokenAt (hs : SameTokens st st') (pos : ℕ) :
    st'.tokenAt pos = st.tokenAt pos := by
  rw [CompilerState.tokenAt, CompilerState.tokenAt, hs.tokens]

theorem SameTokens.text? (hs : SameTokens st st') (tok : Token) : st'.text? tok = st.text? tok := by
  rw [CompilerState.text?, CompilerState.text?, hs.src]

theorem SameTokens.noFn (hs : SameTokens st st') (h : st.NoFn name) : st'.NoFn name := by
  rw [NoFn, hs.decls]
  exact h

theorem SameTokens.callsAt (hs : SameTokens st st') (h : st.CallsAt names pos) :
    st'.CallsAt names pos := by
  obtain ⟨⟨name, hmem, htext, hfree⟩, hparen⟩ := h
  refine ⟨⟨name, hmem, ?_, SameTokens.noFn hs hfree⟩, ?_⟩
  · rw [SameTokens.tokenAt hs, SameTokens.text? hs]
    exact htext
  · rw [SameTokens.tokenAt hs]
    exact hparen

theorem SameTokens.zipsThree (hs : SameTokens st st') (h : st.ZipsThree id) : st'.ZipsThree id := by
  obtain ⟨pos, name, f, hcall, htext, hfree, hbuiltin, hid, harity, hlow, hhigh⟩ := h
  refine ⟨pos, name, f, SameTokens.callsAt hs hcall, ?_, SameTokens.noFn hs hfree, hbuiltin, hid,
    harity, ?_, ?_⟩
  · rw [SameTokens.tokenAt hs, SameTokens.text? hs]
    exact htext
  · rw [hs.current]
    exact hlow
  · rw [hs.current]
    exact hhigh

end SameTokens

theorem runs_findFn (name : List UInt8) {Q : Option FnMeta → CompilerState → Prop}
    (hsome : ∀ f ∈ st.decls.functions, Q (some f) st) (hnone : st.NoFn name → Q none st) :
    Runs S (findFn name) Q st := by
  refine Prog.Wp.bind fun _ => ⟨trivial, ?_⟩
  change Q (st.decls.functions.find? (·.name == name)) st
  cases hfind : st.decls.functions.find? (·.name == name) with
  | none =>
    refine hnone fun f hf => ?_
    simpa using List.find?_eq_none.mp hfind f hf
  | some f => exact hsome f (List.mem_of_find?_eq_some hfind)

theorem runs_lookupCombinatorFn (name : List UInt8)
    {Q : CombinatorFnTarget → CompilerState → Prop} (huser : ∀ f, Q (.userDefined f) st)
    (hbuiltin : ∀ f, combinatorBuiltin name = some f → st.NoFn name → Q (.builtin f) st) :
    Runs S (lookupCombinatorFn name) Q st := by
  refine Prog.Wp.bind (runs_findFn name (fun f _ => huser f) fun hfree => ?_)
  dsimp only
  cases hname : combinatorBuiltin name with
  | none => exact fun _ => ⟨trivial, trivial⟩
  | some f => exact hbuiltin f hname hfree

theorem arity_le (f : Native) : f.arity ≤ 3 := by
  cases f <;> decide

/-- The two elements of a pair are consecutive, though the register between them and the bound is
free. -/
theorem runs_pair (h : TempsHeld (S.taken d) st) {st₀ : CompilerState}
    (hs : SameTokens st₀ st) (v₁ v₂ : ViewMeta) (loopI : ℕ) {f : ℕ → ℕ → CompilerM α}
    {Q : α → CompilerState → Prop}
    (hQ : ∀ st', TempsHeld (S.taken d ++ [S.slot (d + 1)] ++ [S.slot (d + 2)]) st' →
      SameTokens st₀ st' →
      Runs S (f (15 - S.slot (d + 1)) (15 - S.slot (d + 2))) Q st') :
    Runs S (viewElement v₁ loopI >>= fun elem₁ => viewElement v₂ loopI >>= fun elem₂ =>
      f elem₁ elem₂) Q st := by
  have hnext : Pool.IsNext (S.taken d ++ [S.slot d]) (S.slot (d + 1)) := by
    rw [← Pool.Stack.taken_succ]
    exact S.isNext _
  have hgap : Pool.IsNext (S.taken d ++ [S.slot (d + 1)]) (S.slot d) :=
    (S.isNext d).push (S.slot_ne d)
  have hafter : Pool.IsNext (S.taken d ++ [S.slot (d + 1)] ++ [S.slot d]) (S.slot (d + 2)) := by
    refine (S.isNext (d + 2)).congr fun k => ?_
    simp only [Pool.Stack.taken_succ, List.mem_append, List.mem_singleton]
    rw [or_right_comm]
  refine Prog.Wp.bind ((runs_viewElement h (S.isNext d) hnext v₁ loopI).mono ?_)
  rintro elem₁ t ⟨rfl, ht, htoks⟩
  refine Prog.Wp.bind ((runs_viewElement ht hgap hafter v₂ loopI).mono ?_)
  rintro elem₂ u ⟨rfl, hu, hutoks⟩
  exact hQ u hu (hs.trans (htoks.trans hutoks))

/-- A round of the loop over two views, up to their elements. -/
theorem runs_pairLoop (h : TempsHeld (S.taken d) st) {st₀ : CompilerState}
    (hs : SameTokens st₀ st) (count : ℕ) (v₁ v₂ : ViewMeta)
    {f : ℕ × ℕ × ℕ × ℕ × ℕ → ℕ → ℕ → CompilerM α} {Q : α → CompilerState → Prop}
    (hQ : ∀ start jz st', TempsHeld (S.taken (d + 2) ++ [S.slot (d + 3)] ++ [S.slot (d + 4)]) st' →
      SameTokens st₀ st' →
      Runs S (f (15 - S.slot d, 15 - S.slot (d + 1), start, 15 - S.slot (d + 2), jz)
        (15 - S.slot (d + 3)) (15 - S.slot (d + 4))) Q st') :
    Runs S (loopHead count >>= fun head => freeTemp head.2.2.2.1 >>= fun _ =>
      viewElement v₁ head.1 >>= fun elem₁ => viewElement v₂ head.1 >>= fun elem₂ =>
        f head elem₁ elem₂) Q st := by
  refine runs_loopHead h hs count fun start jz t ht htoks => ?_
  refine Prog.Wp.bind (runs_pop ht fun u hu hutoks => ?_)
  exact runs_pair hu (htoks.trans hutoks) v₁ v₂ _ fun w hw hwtoks => hQ start jz w hw hwtoks

/-- The elements go to a function. -/
theorem runs_userPair (h : TempsHeld (S.taken (d + 2) ++ [S.slot (d + 3)] ++ [S.slot (d + 4)]) st)
    {k : CompilerM α} [hk : Uses S (d + 2) d k] :
    Runs S (do
      emit .movReg 7 (15 - S.slot (d + 3)) 0
      emit .movReg 6 (15 - S.slot (d + 4)) 0
      freeTemp (15 - S.slot (d + 4))
      freeTemp (15 - S.slot (d + 3))
      k) (fun _ st' => TempsHeld (S.taken d) st') st := by
  refine Prog.Wp.bind (((quiet_emit .movReg 7 _ 0).runs h).mono fun _ t ht => ?_)
  refine Prog.Wp.bind (((quiet_emit .movReg 6 _ 0).runs ht).mono fun _ u hu => ?_)
  refine Prog.Wp.bind (runs_freeTemp hu fun w hw _ => ?_)
  rw [List.append_nil] at hw
  refine Prog.Wp.bind (runs_freeTemp hw fun x hx _ => ?_)
  rw [List.append_nil] at hx
  exact hk.runs hx

/-- The elements go to a native function. -/
theorem runs_nativePair
    (h : TempsHeld (S.taken (d + 2) ++ [S.slot (d + 3)] ++ [S.slot (d + 4)]) st) {f : Native}
    (hthree : f.arity = 3 → st.ZipsThree f.id) {p k : CompilerM Unit} [hp : Quiet S p]
    [hk : Uses S (d + 2) d k] :
    Runs S (do
      emit .callNat (15 - S.slot (d + 3)) f.id (15 - S.slot (d + 3))
      freeTemp (15 - S.slot (d + 4))
      p
      freeTemp (15 - S.slot (d + 3))
      k) (fun _ st' => TempsHeld (S.taken d) st') st := by
  refine Prog.Wp.bind ((runs_native h (fun hS hnot htwo => ?_) _).mono fun _ t ht => ?_)
  · have htwo : f.arity = 2 := by
      have hle := arity_le f
      have hne : f.arity ≠ 3 := fun heq => hnot (hthree heq)
      omega
    have hregs : argRegs 2 (15 - S.slot (d + 3)) =
        [S.slot (d + 3), S.slot (d + 4)].map (15 - ·) := by
      simp only [argRegs, List.range, List.range.loop, List.map_cons, List.map_nil]
      rw [Nat.sub_zero, Nat.sub_sub, hS (d + 3)]
    rw [htwo, hregs, List.append_assoc, List.map_append]
    exact List.suffix_append _ _
  · refine Prog.Wp.bind (runs_freeTemp ht fun u hu _ => ?_)
    rw [List.append_nil] at hu
    refine Prog.Wp.bind ((hp.runs hu).mono fun _ w hw => ?_)
    refine Prog.Wp.bind (runs_freeTemp hw fun x hx _ => ?_)
    rw [List.append_nil] at hx
    exact hk.runs hx

theorem runs_compileZipWithToReg (h : TempsHeld (S.taken d) st) (dst : ℕ) (v₁ v₂ : ViewMeta)
    (fnName : List UInt8) (isSum : Bool)
    (hzip : ∀ f, combinatorBuiltin fnName = some f → st.NoFn fnName → f.arity = 3 →
      st.ZipsThree f.id) :
    Runs S (compileZipWithToReg dst v₁ v₂ fnName isSum)
      (fun _ st' => TempsHeld (S.taken d) st') st := by
  dsimp only [compileZipWithToReg]
  refine Prog.Wp.bind (runs_lookupCombinatorFn fnName (fun f => ?_) fun f hf hfree => ?_)
  · cases isSum with
    | true =>
      refine runs_code h (.refl st) fun _ t ht htoks => ?_
      exact runs_pairLoop ht htoks _ v₁ v₂ fun start jz u hu _ => runs_userPair hu
    | false => exact runs_pairLoop h (.refl st) _ v₁ v₂ fun start jz u hu _ => runs_userPair hu
  · have hthree : ∀ {t}, SameTokens st t → f.arity = 3 → t.ZipsThree f.id := fun hs harity =>
      SameTokens.zipsThree hs (hzip f hf hfree harity)
    cases isSum with
    | true =>
      refine runs_code h (.refl st) fun _ t ht htoks => ?_
      exact runs_pairLoop ht htoks _ v₁ v₂ fun start jz u hu hs => runs_nativePair hu (hthree hs)
    | false =>
      exact runs_pairLoop h (.refl st) _ v₁ v₂ fun start jz u hu hs =>
        runs_nativePair hu (hthree hs)

end Temps

namespace Temps

-- the size of an instance doubles with every statement of a block
set_option synthInstance.maxSize 1000000000000
-- token kinds have many constructors, and `split` looks at all of them
set_option maxRecDepth 10000

variable {S : Pool.Stack} {held : List ℕ} {d d' pos : ℕ} {st st' : CompilerState} {α β : Type}

/-! ## The cursor -/

/-- The cursor moved by some tokens. -/
def moved (st : CompilerState) (n : ℕ) : CompilerState := { st with current := st.current + n }

@[simp] theorem moved_current (st : CompilerState) (n : ℕ) :
    (moved st n).current = st.current + n := rfl

theorem tempsHeld_moved (h : TempsHeld held st) (n : ℕ) : TempsHeld held (moved st n) :=
  h.of_same rfl rfl rfl

theorem moved_moved (st : CompilerState) (n m : ℕ) : moved (moved st n) m = moved st (n + m) := by
  rw [Temps.moved, Temps.moved, Temps.moved, Nat.add_assoc]

/-- A token that is not the end stands in the buffer. -/
theorem in_buffer (hk : st.peek.kind ≠ .eof) : st.current < st.tokens.length := by
  by_contra hlt
  rw [CompilerState.peek, CompilerState.peekAhead, Nat.add_zero,
    List.getD_eq_default _ _ (Nat.not_lt.mp hlt)] at hk
  exact hk rfl

theorem runs_advance (hk : st.peek.kind ≠ .eof) {Q : Token → CompilerState → Prop}
    (hQ : Q st.peek (moved st 1)) : Runs S advance Q st := by
  refine Prog.Wp.bind fun _ => ⟨trivial, ?_⟩
  change Runs S (if st.current < st.tokens.length then _ else _) Q st
  rw [if_pos (in_buffer hk)]
  exact fun _ => ⟨trivial, hQ⟩

/-- The cursor stays only at the end of the buffer. -/
theorem runs_advance_or {Q : Token → CompilerState → Prop} (hin : Q st.peek (moved st 1))
    (hout : st.peek.kind = .eof → Q st.peek st) : Runs S advance Q st := by
  refine Prog.Wp.bind fun _ => ⟨trivial, ?_⟩
  change Runs S (if st.current < st.tokens.length then _ else _) Q st
  split
  · exact fun _ => ⟨trivial, hin⟩
  · next hend => exact hout (by_contra fun hk => hend (in_buffer hk))

theorem runs_advance_le {Q : Token → CompilerState → Prop}
    (hQ : ∀ n ≤ 1, Q st.peek (moved st n)) : Runs S advance Q st :=
  runs_advance_or (hQ 1 (Nat.le_refl 1)) fun _ => hQ 0 (Nat.zero_le 1)

theorem runs_peekKind {f : TokenKind → CompilerM α} {Q : α → CompilerState → Prop}
    (hQ : Runs S (f st.peek.kind) Q st) : Runs S (peekKind >>= f) Q st :=
  fun _ => ⟨trivial, hQ⟩

theorem runs_matchToken {kind : TokenKind} (hk : kind ≠ .eof) {Q : Bool → CompilerState → Prop}
    (htrue : st.peek.kind = kind → Q true (moved st 1))
    (hfalse : st.peek.kind ≠ kind → Q false st) : Runs S (matchToken kind) Q st := by
  refine runs_peekKind ?_
  split
  · next heq => exact Prog.Wp.bind (runs_advance (heq ▸ hk) (htrue heq))
  · next hne => exact hfalse hne

theorem runs_skip {kind : TokenKind} (hk : kind ≠ .eof) {Q : Unit → CompilerState → Prop}
    (hQ : ∀ n ≤ 1, Q () (moved st n)) : Runs S (skip kind) Q st :=
  Prog.Wp.bind (runs_matchToken hk (fun _ => hQ 1 (Nat.le_refl 1)) fun _ => hQ 0 (Nat.zero_le 1))

/-- A token that has to be there. -/
theorem runs_expect {kind : TokenKind} (hk : kind ≠ .eof)
    {code message expected stage suggestion : String} {f : Unit → CompilerM α}
    {Q : α → CompilerState → Prop} (hQ : st.peek.kind = kind → Runs S (f ()) Q (moved st 1)) :
    Runs S (matchToken kind >>= fun b => require b code message expected stage suggestion >>= f)
      Q st := by
  refine Prog.Wp.bind (runs_matchToken hk (fun heq => ?_) fun _ => ?_)
  · exact Prog.Wp.bind (runs_require fun _ => hQ heq)
  · exact Prog.Wp.bind (runs_require fun hmatched => absurd hmatched Bool.false_ne_true)

theorem runs_text {tok : Token} {Q : List UInt8 → CompilerState → Prop}
    (hQ : ∀ name, st.text? tok = some name → Q name st) : Runs S (text tok) Q st := by
  refine Prog.Wp.bind fun _ => ⟨trivial, ?_⟩
  rw [perform, Prog.Ends, Prog.Wp]
  split
  · next name htext => exact hQ name htext
  · trivial

/-! ## A view -/

/-- Where no view is written in place, the view is a name. -/
theorem runs_parseViewSource (hstart : st.StartsView) (expression : ℕ → CompilerM Unit)
    {Q : ViewMeta → CompilerState → Prop}
    (hQ : ∀ v, st.NamesView st.peek → Q v (moved st 1)) :
    Runs S (parseViewSource expression) Q st := by
  have hplace : ¬ st.NamesView st.peek →
      Runs S (allocTemp >>= fun base => parseViewSourceToReg expression base) Q st := by
    intro hnot
    exact Prog.Wp.bind fun hrely => absurd ⟨hstart, hnot⟩ hrely
  refine Prog.Wp.bind fun _ => ⟨trivial, ?_⟩
  change Runs S (if st.peek.kind = .varIdent ∨ st.peek.kind = .ident then _ else _) Q st
  split
  · next hkind =>
    refine Prog.Wp.bind (runs_text fun name htext => ?_)
    by_cases hview : isViewIntrinsic name = true
    · rw [hview]
      refine hplace fun hnames => ?_
      rw [hnames.2 name htext] at hview
      exact Bool.false_ne_true hview
    · rw [Bool.not_eq_true] at hview
      rw [hview]
      have hnames : st.NamesView st.peek := by
        refine ⟨hkind, fun other hother => ?_⟩
        rw [← Option.some.inj (htext.symm.trans hother)]
        exact hview
      have heof : st.peek.kind ≠ .eof := by
        intro heq
        rw [heq] at hkind
        simp at hkind
      change Runs S (advance >>= fun _ => _) Q st
      refine Prog.Wp.bind (runs_advance heof ?_)
      refine Prog.Wp.bind ((looks_lookupView _).runs fun view => ?_)
      cases view with
      | some v => exact hQ v hnames
      | none => exact Prog.Wp.bind ((looks_lookupArray _).runs fun arr => hQ _ hnames)
  · next hkind => exact hplace fun hnames => hkind hnames.1

/-! ## Combinators -/

/-- The cursor is moved by four tokens at most. -/
theorem runs_chainedSum {Q : Bool → CompilerState → Prop}
    (hQ : ∀ b, ∀ n ≤ 4, Q b (moved st n)) : Runs S chainedSum Q st := by
  have hnone : Q false st := hQ false 0 (Nat.zero_le 4)
  refine runs_peekKind ?_
  split
  · exact hnone
  · refine Prog.Wp.bind ((looks_peekAhead 1).runs fun nextTok => ?_)
    refine Prog.Wp.bind ((looks_text nextTok).runs fun nextName => ?_)
    split
    · exact hnone
    · refine Prog.Wp.bind (runs_advance_le fun n hn => ?_)
      refine Prog.Wp.bind (runs_advance_le fun m hm => ?_)
      refine Prog.Wp.bind (runs_matchToken (by nofun) (fun _ => ?_) fun _ => ?_)
      · refine Prog.Wp.bind (runs_skip (by nofun) fun k hk => ?_)
        simp only [moved_moved]
        exact hQ true _ (by omega)
      · simp only [moved_moved]
        exact hQ true _ (by omega)

variable {pos : ℕ} {names : List (List UInt8)}

/-- The first view in a call of a combinator. -/
theorem startsView_first (h : st.CallsAt names pos) (hmem : names ⊆ combinators)
    (hcur : st.current = pos + 1) : (moved st 1).StartsView := by
  obtain ⟨⟨name, hname, htext⟩, hparen⟩ := h
  refine .inl ⟨pos, ⟨⟨name, hmem hname, htext⟩, hparen⟩, ?_⟩
  rw [moved_current, hcur]

theorem peek_moved (hcur : st.current = pos) (n : ℕ) :
    (moved st n).peek = st.tokenAt (pos + n) := by
  rw [← hcur]
  rfl

/-- The opening parenthesis of a call. -/
theorem peek_paren (h : st.CallsAt names pos) (hcur : st.current = pos + 1) :
    st.peek.kind = .lParen := by
  change (moved st 0).peek.kind = .lParen
  rw [peek_moved hcur]
  exact h.paren

theorem runs_sumCall {r : Rec} (h : TempsHeld (S.taken d) st) (hcall : st.CallsAt names pos)
    (hmem : names ⊆ combinators) (hcur : st.current = pos + 1) (dst : ℕ) :
    Runs S (sumCall r dst) (fun _ st' => TempsHeld (S.taken d) st') st := by
  have hparen : st.peek.kind ≠ .eof := by
    rw [peek_paren hcall hcur]
    nofun
  refine Prog.Wp.bind (runs_advance hparen ?_)
  refine Prog.Wp.bind (runs_matchToken (by nofun) (fun _ => ?_) fun _ => ?_)
  · exact tempsHeld_moved h 2
  · refine Prog.Wp.bind (runs_parseViewSource (startsView_first hcall hmem hcur) _ fun v _ => ?_)
    refine runs_expect (by nofun) fun _ => ?_
    have hheld : TempsHeld (S.taken d) (moved st 3) := tempsHeld_moved h 3
    exact Prog.Wp.bind (((uses_compileSumToReg dst v).runs hheld).mono fun _ t ht => ht)

theorem runs_reduceCall {r : Rec} [hr : Calls S r] (h : TempsHeld (S.taken d) st)
    (hcall : st.CallsAt names pos) (hmem : names ⊆ combinators) (hcur : st.current = pos + 1)
    (dst : ℕ) :
    Runs S (reduceCall r dst) (fun _ st' => TempsHeld (S.taken d) st') st := by
  have hparen : st.peek.kind ≠ .eof := by
    rw [peek_paren hcall hcur]
    nofun
  refine Prog.Wp.bind (runs_advance hparen ?_)
  refine Prog.Wp.bind (runs_parseViewSource (startsView_first hcall hmem hcur) _ fun v _ => ?_)
  refine runs_expect (by nofun) fun _ => ?_
  have hrest : Uses S d d (do
      let initReg ← allocTemp
      r.expression initReg
      let comma ← matchToken .comma
      require comma "ERR_EXPECTED_COMMA" "Expected ',' before function name in @reduce"
        "Comma ','" "Expression -> Combinator Call" "Provide reducer function name"
      let fnTok ← advance
      let fnName ← text fnTok
      let closed ← matchToken .rParen
      require closed "ERR_UNCLOSED_PAREN" "Missing closing parenthesis ')' in @reduce"
        "Closing parenthesis ')'" "Expression -> Combinator Call" "Close with ')'"
      emit .movReg dst initReg 0
      freeTemp initReg
      compileReduceToReg dst v none fnName
      return (none : Option Word64)) := inferInstance
  exact hrest.runs (tempsHeld_moved h 3)

theorem runs_zipWithCall {r : Rec} (h : TempsHeld (S.taken d) st)
    (hcall : st.CallsAt [bytes "@zip_with"] pos) (hcur : st.current = pos + 1) (dst : ℕ) :
    Runs S (zipWithCall r dst) (fun _ st' => TempsHeld (S.taken d) st') st := by
  have hparen : st.peek.kind ≠ .eof := by
    rw [peek_paren hcall hcur]
    nofun
  have hmem : [bytes "@zip_with"] ⊆ combinators := List.cons_subset.mpr
    ⟨List.mem_cons_self, List.nil_subset _⟩
  refine Prog.Wp.bind (runs_advance hparen ?_)
  refine Prog.Wp.bind (runs_parseViewSource (startsView_first hcall hmem hcur) _ fun v₁ hv₁ => ?_)
  refine runs_expect (by nofun) fun hcomma => ?_
  simp only [moved_moved]
  rw [moved_moved, peek_moved hcur] at hcomma
  rw [peek_moved hcur] at hv₁
  have hsecond : (moved st 3).StartsView := by
    refine .inr ⟨pos, ⟨hcall.name, hcall.paren⟩, hv₁, hcomma, ?_⟩
    rw [moved_current, hcur]
  refine Prog.Wp.bind (runs_parseViewSource hsecond _ fun v₂ _ => ?_)
  refine runs_expect (by nofun) fun _ => ?_
  simp only [moved_moved]
  refine Prog.Wp.bind (runs_advance_or ?_ fun heof => ?_)
  · refine Prog.Wp.bind (runs_text fun name htext => ?_)
    refine runs_expect (by nofun) fun _ => ?_
    refine Prog.Wp.bind (runs_chainedSum fun isSum n hn => ?_)
    simp only [moved_moved]
    rw [peek_moved hcur] at htext
    -- the name of the function is the sixth token behind that of the combinator
    have hzip : ∀ f, combinatorBuiltin name = some f → (moved st (7 + n)).NoFn name →
        f.arity = 3 → (moved st (7 + n)).ZipsThree f.id := by
      intro f hf hfree harity
      refine ⟨pos, name, f, ⟨hcall.name, hcall.paren⟩, htext, hfree, hf, rfl, harity, ?_, ?_⟩
      · rw [moved_current, hcur]
        omega
      · rw [moved_current, hcur]
        omega
    have hheld : TempsHeld (S.taken d) (moved st (7 + n)) := tempsHeld_moved h _
    exact Prog.Wp.bind ((runs_compileZipWithToReg hheld dst v₁ v₂ name isSum hzip).mono
      fun _ t ht => ht)
  · refine Prog.Wp.bind (runs_text fun name htext => ?_)
    refine runs_expect (by nofun) fun hclosed => ?_
    rw [heof] at hclosed
    cases hclosed

/-! ## Primary expressions -/

section Recursive

variable {r : Rec} [hr : Calls S r]

/-- A call, the name of what is called just read. -/
theorem runs_callPrimary (h : TempsHeld (S.taken d) st) {name : List UInt8}
    (htext : st.text? (st.tokenAt pos) = some name) (hcur : st.current = pos + 1)
    (hparen : (st.tokenAt (pos + 1)).kind = .lParen) (dst : ℕ) :
    Runs S (callPrimary r name dst) (fun _ st' => TempsHeld (S.taken d) st') st := by
  refine Prog.Wp.bind (runs_findFn name (fun f hf => ?_) fun hfree => ?_)
  · exact (uses_userCall (h.params f hf) dst).runs h
  · have hcall : ∀ names, name ∈ names → st.CallsAt names pos := fun names hmem =>
      ⟨⟨name, hmem, htext, hfree⟩, hparen⟩
    dsimp only
    split
    · exact (uses_streqCall dst).runs h
    · split
      · next hzip => exact runs_zipWithCall h (hcall _ (List.mem_singleton.mpr hzip)) hcur dst
      · split
        · next hsum =>
          have hmem : name ∈ [bytes "@sum", bytes "sum"] := by simpa using hsum
          exact runs_sumCall h (hcall _ hmem) (by simp [combinators]) hcur dst
        · split
          · next hreduce =>
            have hmem : name ∈ [bytes "@reduce", bytes "reduce"] := by simpa using hreduce
            exact runs_reduceCall h (hcall _ hmem) (by simp [combinators]) hcur dst
          · exact (uses_intrinsicCall name dst).runs h

theorem runs_namedPrimary (h : TempsHeld (S.taken d) st) (hcur : st.current = pos + 1)
    (dst : ℕ) :
    Runs S (namedPrimary r (st.tokenAt pos) dst) (fun _ st' => TempsHeld (S.taken d) st') st := by
  refine Prog.Wp.bind (runs_text fun name htext => runs_peekKind ?_)
  have hpeek : st.peek = st.tokenAt (pos + 1) := by
    rw [← hcur]
    rfl
  split
  · exact (uses_of_quiet (d := d)).runs h
  · split
    · exact (uses_tableElement name dst).runs h
    · refine Prog.Wp.bind ((looks_refuseStructLiteral _).runs fun _ => ?_)
      split
      · next hparen => exact runs_callPrimary h htext hcur (hpeek ▸ hparen) dst
      · have hvar : Uses S d d (do
            let varReg ← resolveVar (st.tokenAt pos)
            moveTo dst varReg
            return (none : Option Word64)) := inferInstance
        exact hvar.runs h

theorem uses_primary (dst : ℕ) : Uses S d d (primary r dst) := by
  dsimp only [primary]
  refine ⟨fun {st} h => Prog.Wp.bind (runs_advance_or ?_ fun heof => ?_)⟩
  · have hheld : TempsHeld (S.taken d) (moved st 1) := tempsHeld_moved h 1
    have hnamed : Runs S (namedPrimary r st.peek dst)
        (fun _ st' => TempsHeld (S.taken d) st') (moved st 1) :=
      runs_namedPrimary hheld rfl dst
    generalize st.peek = tok at hnamed
    generalize tok.kind = k
    cases k
    all_goals first
      | exact hnamed
      | exact Uses.runs (d := d) hheld
  · rw [heof]
    exact fun _ => ⟨trivial, trivial⟩

end Recursive

end Temps

end Compiler

end LatencyOS
