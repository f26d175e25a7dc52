import LatencyOS.Compiler.Compile
import LatencyOS.Lib.Pool
import LatencyOS.Lib.Wp

/-!
# The temporaries in use

The compiler hands out the lowest temporary that is free, so temporaries that are freed in the
reverse order are consecutive registers, and a call of a native function needs just that of its
arguments.  Two constructs break it: a view written in place in a combinator takes a temporary that
nobody frees, and `@zip_with` gives two arguments to any function it accepts.

## Main definitions

* `ArgsInPlace`: the arguments of a call are where the machine reads them.
* `TempStep`: neither of the two is being compiled.
* `TempsHeld`: which temporaries are in use, the last handed out at the end.
* `TempWell`: what a step guarantees in return for `TempStep`.
-/

namespace LatencyOS

/-! ## The arguments of a call -/

/-- The number of arguments of a native function. -/
def Native.arity (f : Native) : ℕ :=
  ((Compiler.intrinsics.find? fun i => i.2.2.1 = f).map (·.2.2.2)).getD 0

/-- The registers a native function reads its arguments from. -/
def argRegs (n arg : ℕ) : List ℕ := (List.range n).map (arg - ·)

namespace CompilerState

variable {held front back : List ℕ} {st st' : CompilerState} {i : ℕ}

/-- Whether a register is a temporary in use. -/
def inUse (st : CompilerState) (reg : ℕ) : Bool :=
  8 ≤ reg && reg ≤ 15 && st.tempUsed (15 - reg)

/-- The temporaries in use, the last handed out at the end. -/
def liveTemps (st : CompilerState) : List ℕ := Pool.live st.inUse st.allocLog

end CompilerState

/-- Where a native function of two or three arguments is called, these are the temporaries handed
out last, in the registers the machine reads them from. -/
def ArgsInPlace : (β : Type) → CompilerOp β → CompilerState → Prop
  | _, .emitInst .callNat _ id arg, st =>
    ∀ f : Native, f.id = id → 2 ≤ f.arity → argRegs f.arity arg <:+ st.liveTemps
  | _, _, _ => True

/-! ## The two constructs -/

namespace CompilerState

/-- The token at a position. -/
def tokenAt (st : CompilerState) (pos : ℕ) : Token := st.tokens.getD pos Token.empty

/-- The name of an array or of a declared view. -/
def NamesView (st : CompilerState) (tok : Token) : Prop :=
  (tok.kind = .varIdent ∨ tok.kind = .ident) ∧
    ∀ name, st.text? tok = some name → Compiler.isViewIntrinsic name = false

/-- There is no function of a name. -/
def NoFn (st : CompilerState) (name : List UInt8) : Prop :=
  ∀ f ∈ st.decls.functions, f.name ≠ name

/-- A combinator is called at a position. -/
structure CallsAt (st : CompilerState) (names : List (List UInt8)) (pos : ℕ) : Prop where
  name : ∃ name ∈ names, st.text? (st.tokenAt pos) = some name ∧ st.NoFn name
  paren : (st.tokenAt (pos + 1)).kind = .lParen

/-- The combinators. -/
def combinators : List (List UInt8) :=
  [bytes "@zip_with", bytes "@sum", bytes "sum", bytes "@reduce", bytes "reduce"]

/-- The current token starts a view in a call of a combinator. -/
def StartsView (st : CompilerState) : Prop :=
  (∃ pos, st.CallsAt combinators pos ∧ st.current = pos + 2) ∨
    ∃ pos, st.CallsAt [bytes "@zip_with"] pos ∧ st.NamesView (st.tokenAt (pos + 2)) ∧
      (st.tokenAt (pos + 3)).kind = .comma ∧ st.current = pos + 4

/-- A view is written in place. -/
def ViewInPlace (st : CompilerState) : Prop := st.StartsView ∧ ¬ st.NamesView st.peek

/-- A native function of three arguments was just named in a call of `@zip_with`. -/
def ZipsThree (st : CompilerState) (id : ℕ) : Prop :=
  ∃ pos name f, st.CallsAt [bytes "@zip_with"] pos ∧
    st.text? (st.tokenAt (pos + 6)) = some name ∧ st.NoFn name ∧
    Compiler.combinatorBuiltin name = some f ∧ f.id = id ∧ f.arity = 3 ∧
    pos + 8 ≤ st.current ∧ st.current ≤ pos + 12

end CompilerState

/-- Neither a view written in place nor a function of three arguments for two. -/
def TempStep : (β : Type) → CompilerOp β → CompilerState → Prop
  | _, .allocTemp, st => ¬ st.ViewInPlace
  | _, .emitInst .callNat _ id _, st => ¬ st.ZipsThree id
  | _, _, _ => True

/-! ## Handing out and taking back -/

/-- Every function has registers for its parameters. -/
def Decls.ParamsFit (d : Decls) : Prop := ∀ f ∈ d.functions, f.params.length ≤ 4

/-- Arguments are in place as far as no register is left out, and new functions have registers for
their parameters. -/
def TempWell (gapless : Prop) : (β : Type) → CompilerOp β → CompilerState → Prop
  | _, .emitInst .callNat rd id arg, st =>
    gapless → ArgsInPlace ℕ (.emitInst .callNat rd id arg) st
  | _, .setDecls d, st => st.decls.ParamsFit → d.ParamsFit
  | _, _, _ => True

theorem TempWell.argsInPlace {gapless : Prop} {β : Type} {o : CompilerOp β} {st : CompilerState}
    (h : TempWell gapless β o st) (hgapless : gapless) : ArgsInPlace β o st := by
  cases o with
  | emitInst op rd rs1 rs2 =>
    cases op
    case callNat => exact h hgapless
    all_goals trivial
  | _ => trivial

variable {held front back : List ℕ} {st st' : CompilerState} {i : ℕ}

/-- Which slots are in use, the last handed out at the end.  Slot `i` is register `15 - i`. -/
structure TempsHeld (held : List ℕ) (st : CompilerState) : Prop where
  lt : ∀ i ∈ held, i < 8
  nodup : held.Nodup
  used : ∀ i, st.tempUsed i = decide (i ∈ held)
  live : st.liveTemps = held.map (15 - ·)
  params : st.decls.ParamsFit

/-- What is read of the source stays the same. -/
structure SameTokens (st st' : CompilerState) : Prop where
  src : st'.src = st.src
  tokens : st'.tokens = st.tokens
  current : st'.current = st.current
  decls : st'.decls = st.decls

theorem SameTokens.refl (st : CompilerState) : SameTokens st st := ⟨rfl, rfl, rfl, rfl⟩

theorem SameTokens.trans {a b c : CompilerState} (h₁ : SameTokens a b) (h₂ : SameTokens b c) :
    SameTokens a c :=
  ⟨h₂.src.trans h₁.src, h₂.tokens.trans h₁.tokens, h₂.current.trans h₁.current,
    h₂.decls.trans h₁.decls⟩

namespace TempsHeld

/-- A step that neither hands out nor takes back. -/
theorem of_same (h : TempsHeld held st) (hused : st'.tempUsed = st.tempUsed)
    (hlog : st'.allocLog = st.allocLog) (hfns : st'.decls.functions = st.decls.functions) :
    TempsHeld held st' where
  lt := h.lt
  nodup := h.nodup
  used := by
    rw [hused]
    exact h.used
  live := by
    rw [← h.live, CompilerState.liveTemps, CompilerState.liveTemps, hlog]
    congr 1
    funext reg
    rw [CompilerState.inUse, CompilerState.inUse, hused]
  params := by
    rw [Decls.ParamsFit, hfns]
    exact h.params

theorem notMem_map (hlt : ∀ j ∈ held, j < 8) (hi : i < 8) (hnew : i ∉ held) :
    15 - i ∉ held.map (15 - ·) := by
  intro hmem
  obtain ⟨j, hj, heq⟩ := List.mem_map.mp hmem
  have hj8 := hlt j hj
  have : j = i := by omega
  exact hnew (this ▸ hj)

/-- Only the register of the slot changes. -/
theorem inUse_update (st st' : CompilerState) (hi : i < 8) (b : Bool)
    (hused : st'.tempUsed = Function.update st.tempUsed i b) :
    st'.inUse (15 - i) = b ∧ ∀ reg, reg ≠ 15 - i → st'.inUse reg = st.inUse reg := by
  constructor
  · have hlow : 8 ≤ 15 - i := by omega
    have hhigh : 15 - i ≤ 15 := by omega
    have hslot : 15 - (15 - i) = i := by omega
    simp [CompilerState.inUse, hused, hlow, hslot]
  · intro reg hne
    rw [CompilerState.inUse, CompilerState.inUse, hused]
    by_cases hreg : 8 ≤ reg ∧ reg ≤ 15
    · have hslot : 15 - reg ≠ i := by omega
      rw [Function.update_of_ne hslot]
    · have hout : (decide (8 ≤ reg) && decide (reg ≤ 15)) = false := by
        rw [← Bool.decide_and]
        exact decide_eq_false hreg
      rw [hout]
      rfl

/-- The lowest free slot is handed out, if there is one. -/
theorem allocTemp (h : TempsHeld held st) (hi : Pool.IsNext held i) :
    Prog.Ends (fun _ => True) st.allocTemp fun reg st' =>
      reg = 15 - i ∧ TempsHeld (held ++ [i]) st' ∧ SameTokens st st' := by
  by_cases hlt : i < 8
  · have hfree : st.freeSlot = some i := Pool.find?_eq_some hi hlt h.used
    rw [CompilerState.allocTemp, hfree]
    refine ⟨rfl, ⟨?_, ?_, ?_, ?_, h.params⟩, ⟨rfl, rfl, rfl, rfl⟩⟩
    · intro j hj
      rcases List.mem_append.mp hj with hj | hj
      · exact h.lt j hj
      · rw [List.mem_singleton.mp hj]
        exact hlt
    · exact List.nodup_append.mpr ⟨h.nodup, List.nodup_singleton i, by
        intro a ha b hb
        rw [List.mem_singleton.mp hb]
        rintro rfl
        exact hi.free ha⟩
    · intro j
      by_cases hj : j = i
      · simp [hj]
      · simp [hj, h.used j]
    · obtain ⟨hnow, hsame⟩ := inUse_update st
        { st with
          tempUsed := Function.update st.tempUsed i true
          allocLog := st.allocLog ++ [15 - i] } hlt true rfl
      rw [List.map_append]
      exact Pool.live_push h.live (notMem_map h.lt hlt hi.free) hnow hsame
  · have hfull : st.freeSlot = none := Pool.find?_eq_none hi (Nat.not_lt.mp hlt) h.used
    rw [CompilerState.allocTemp, hfull]
    trivial

/-- A slot is taken back, wherever it stands in the order. -/
theorem freeTemp (h : TempsHeld (front ++ i :: back) st) :
    TempsHeld (front ++ back) (st.freeTemp (15 - i)) ∧ SameTokens st (st.freeTemp (15 - i)) := by
  have hi : i < 8 := h.lt i (by simp)
  have hreg : 8 ≤ 15 - i ∧ 15 - i ≤ 15 := by omega
  have hslot : 15 - (15 - i) = i := by omega
  obtain ⟨hnotin, hrest⟩ := List.nodup_cons.mp (List.nodup_middle.mp h.nodup)
  rw [CompilerState.freeTemp, if_pos hreg, hslot]
  have hlt : ∀ j ∈ front ++ back, j < 8 := by
    intro j hj
    refine h.lt j ?_
    rcases List.mem_append.mp hj with hj | hj
    · exact List.mem_append_left _ hj
    · exact List.mem_append_right _ (List.mem_cons_of_mem _ hj)
  refine ⟨⟨hlt, hrest, ?_, ?_, h.params⟩, ⟨rfl, rfl, rfl, rfl⟩⟩
  · intro j
    by_cases hj : j = i
    · simpa [hj] using hnotin
    · simp [hj, h.used j]
  · obtain ⟨hnow, hsame⟩ := inUse_update st
      { st with tempUsed := Function.update st.tempUsed i false } hi false rfl
    have hkept : ((front ++ i :: back).map (15 - ·)).filter (· ≠ 15 - i) =
        (front ++ back).map (15 - ·) := by
      have hout := notMem_map hlt hi hnotin
      rw [List.map_append, List.mem_append, not_or] at hout
      have hall : ∀ l : List ℕ, 15 - i ∉ l → l.filter (· ≠ 15 - i) = l := by
        intro l hl
        refine List.filter_eq_self.mpr fun a ha => decide_eq_true ?_
        rintro rfl
        exact hl ha
      rw [List.map_append, List.map_cons, List.filter_append, List.map_append,
        List.filter_cons_of_neg (by simp), hall _ hout.1, hall _ hout.2]
    rw [← hkept]
    exact Pool.live_drop h.live hnow hsame

end TempsHeld

end LatencyOS
