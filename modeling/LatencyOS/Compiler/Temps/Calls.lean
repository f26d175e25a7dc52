import LatencyOS.Compiler.Temps.Basic
import Mathlib.Tactic.IntervalCases

/-!
# Temporaries and calls

The arguments of a call go into temporaries of their own.  Those of a function are freed in the
order in which they were handed out, those of an intrinsic in the reverse order.
-/

namespace LatencyOS

namespace Compiler

namespace Temps

-- the size of an instance doubles with every statement of a block
set_option synthInstance.maxSize 1000000000000
-- token kinds have many constructors, and `split` looks at all of them
set_option maxRecDepth 10000

variable {S : Pool.Stack} {held : List ℕ} {d d' : ℕ} {st st' : CompilerState} {α β : Type}

/-! ## Small parts -/

instance quiet_emitPending (reg : ℕ) (val : Option Word64) : Quiet S (emitPending reg val) := by
  cases val <;> dsimp only [emitPending] <;> infer_instance

instance quiet_consumeBySend (slot : ℕ) : Quiet S (consumeBySend slot) := by
  dsimp only [consumeBySend]
  refine .bind inferInstance fun t => ?_
  cases t <;> infer_instance

instance quiet_consumeByRelease (slot : ℕ) : Quiet S (consumeByRelease slot) := by
  dsimp only [consumeByRelease]
  refine .bind inferInstance fun t => ?_
  cases t <;> infer_instance

instance quiet_consumeBy (f : Native) (reg : ℕ) : Quiet S (consumeBy f reg) := by
  dsimp only [consumeBy]
  infer_instance

instance quiet_floatLit (scaledVal : Word64) (fracDigits dst : ℕ) :
    Quiet S (floatLit scaledVal fracDigits dst) := by
  dsimp only [floatLit]
  infer_instance

instance quiet_emitStr (dst offset len : ℕ) : Quiet S (emitStr dst offset len) := by
  dsimp only [emitStr]
  infer_instance

instance looks_stringText (tok : Token) : Looks S (stringText tok) := by
  dsimp only [stringText]
  infer_instance

instance quiet_stringLit (tok : Token) (dst : ℕ) : Quiet S (stringLit tok dst) := by
  dsimp only [stringLit]
  refine .bind inferInstance fun raw => .bind inferInstance fun st =>
    .bind inferInstance fun _ => ?_
  split <;> infer_instance

instance quiet_fieldAccess (tok : Token) (dst : ℕ) : Quiet S (fieldAccess tok dst) := by
  dsimp only [fieldAccess]
  infer_instance

instance quiet_reportVar (tok : Token) : Quiet S (reportVar tok) := by
  dsimp only [reportVar]
  infer_instance

instance quiet_moveTo (dst reg : ℕ) : Quiet S (moveTo dst reg) := by
  dsimp only [moveTo]
  infer_instance

instance quiet_varValue (tok : Token) (dst : ℕ) : Quiet S (varValue tok dst) := by
  dsimp only [varValue]
  refine .bind inferInstance fun slot => ?_
  cases slot with
  | some slot => infer_instance
  | none =>
    refine .bind inferInstance fun _ => .bind inferInstance fun reg => ?_
    split
    · refine .bind inferInstance fun t => ?_
      cases t <;> infer_instance
    · infer_instance

instance quiet_enumVariant (name : List UInt8) (dst : ℕ) : Quiet S (enumVariant name dst) := by
  dsimp only [enumVariant]
  refine .bind inferInstance fun _ => .bind inferInstance fun tok =>
    .bind inferInstance fun _ => .bind inferInstance fun _ => .bind inferInstance fun e => ?_
  cases e with
  | none => infer_instance
  | some e =>
    refine .bind inferInstance fun v => ?_
    cases v <;> infer_instance

instance quiet_movImm (reg imm : ℕ) : Quiet S (movImm reg imm) := by
  dsimp only [movImm]
  infer_instance

instance looks_lookupIntrinsic (name : List UInt8) : Looks S (lookupIntrinsic name) := by
  dsimp only [lookupIntrinsic]
  split <;> infer_instance

instance looks_refuseStructLiteral (tok : Token) : Looks S (refuseStructLiteral tok) := by
  dsimp only [refuseStructLiteral]
  infer_instance

section Recursive

variable {r : Rec} [hr : Calls S r]

instance uses_body : Uses S d d r.body := by
  dsimp only [Rec.body]
  infer_instance

instance uses_varPrimary (tok : Token) (dst : ℕ) : Uses S d d (varPrimary r tok dst) := by
  dsimp only [varPrimary]
  infer_instance

instance uses_streqCall (dst : ℕ) : Uses S d d (streqCall r dst) := by
  dsimp only [streqCall]
  infer_instance

instance uses_tableElement (name : List UInt8) (dst : ℕ) :
    Uses S d d (tableElement r name dst) := by
  dsimp only [tableElement]
  infer_instance

instance uses_negPrimary (dst : ℕ) : Uses S d d (negPrimary r dst) := by
  dsimp only [negPrimary]
  refine .push (.bind inferInstance fun _ => .push (.bind inferInstance fun v => ?_))
  cases v <;> infer_instance

instance uses_notPrimary (dst : ℕ) : Uses S d d (notPrimary r dst) := by
  dsimp only [notPrimary]
  refine .push (.bind inferInstance fun v => ?_)
  cases v <;> infer_instance

instance uses_parenPrimary (dst : ℕ) : Uses S d d (parenPrimary r dst) := by
  dsimp only [parenPrimary]
  infer_instance

end Recursive

/-! ## Calls of functions -/

/-- The registers of so many temporaries handed out one after the other. -/
def tempsFrom (S : Pool.Stack) (d n : ℕ) : List ℕ := (List.range n).map fun k => 15 - S.slot (d + k)

theorem tempsFrom_succ (S : Pool.Stack) (d n : ℕ) :
    tempsFrom S d (n + 1) = tempsFrom S d n ++ [15 - S.slot (d + n)] := by
  rw [tempsFrom, List.range_succ, List.map_append]
  rfl

@[simp] theorem length_tempsFrom (S : Pool.Stack) (d n : ℕ) : (tempsFrom S d n).length = n := by
  rw [tempsFrom, List.length_map, List.length_range]

theorem tempsFrom_eq_argRegs (hS : S.Gapless) (d n : ℕ) :
    tempsFrom S d n = argRegs n (15 - S.slot d) := by
  refine List.map_congr_left fun k _ => ?_
  rw [hS.slot_add]
  omega

/-- The last temporaries handed out are arguments. -/
structure ArgsHeld (S : Pool.Stack) (d : ℕ) (args : List ℕ) (st : CompilerState) : Prop where
  eq : args = tempsFrom S d args.length
  held : TempsHeld (S.taken (d + args.length)) st

theorem ArgsHeld.push {args : List ℕ} (h : ArgsHeld S d args st)
    (ht : TempsHeld (S.taken (d + args.length + 1)) st') :
    ArgsHeld S d (args ++ [15 - S.slot (d + args.length)]) st' := by
  refine ⟨?_, ?_⟩
  · rw [List.length_append, List.length_singleton, tempsFrom_succ, ← h.eq]
  · rw [List.length_append, List.length_singleton]
    exact ht

theorem runs_require {c : Bool} {code message expected stage suggestion : String}
    {Q : Unit → CompilerState → Prop} (h : c = true → Q () st) :
    Runs S (require c code message expected stage suggestion) Q st := by
  cases c with
  | true => exact h rfl
  | false => exact fun _ => ⟨trivial, trivial⟩

section Recursive

variable {r : Rec} [hr : Calls S r]

theorem runs_callArgs (h : TempsHeld (S.taken d) st) (paramCount : ℕ) :
    Runs S (callArgs r paramCount)
      (fun temps st' => temps.length ≤ paramCount ∧ ArgsHeld S d temps st') st := by
  have hnone : ArgsHeld S d [] st := ⟨rfl, h⟩
  dsimp only [callArgs]
  refine runs_loop (I := fun temps st => temps.length ≤ paramCount ∧ ArgsHeld S d temps st) ?_ _ _
    ⟨Nat.zero_le _, hnone⟩
  rintro temps t ⟨hle, ht⟩
  refine Prog.Wp.bind (looks_peekKind.runs fun k => ?_)
  split
  · exact ⟨hle, ht⟩
  · refine Prog.Wp.bind (runs_require fun hlt => Prog.Wp.bind (runs_push ht.held fun u hu _ => ?_))
    refine Prog.Wp.bind (((uses_expression_rec _).runs hu).mono fun _ v hv => ?_)
    refine Prog.Wp.bind (((quiet_matchToken .comma).runs hv).mono fun comma w hw => ?_)
    have hle' : (temps ++ [15 - S.slot (d + temps.length)]).length ≤ paramCount := by
      rw [List.length_append, List.length_singleton]
      exact of_decide_eq_true hlt
    split
    · exact ⟨hle', ht.push hw⟩
    · exact ⟨hle', ht.push hw⟩

/-- The arguments are freed in the order in which they were handed out. -/
theorem runs_passArgs (regs seg : List ℕ) (hlen : seg.length ≤ regs.length)
    (h : TempsHeld (S.taken d ++ seg) st) :
    Runs S (passArgs regs (seg.map (15 - ·))) (fun _ st' => TempsHeld (S.taken d) st') st := by
  induction seg generalizing regs st with
  | nil =>
    rw [List.append_nil] at h
    cases regs <;> exact h
  | cons i seg ih =>
    cases regs with
    | nil => exact absurd hlen (Nat.not_succ_le_zero _)
    | cons reg regs =>
      refine Prog.Wp.bind ((quiet_emit .movReg reg (15 - i) 0).runs h |>.mono fun _ t ht => ?_)
      refine Prog.Wp.bind (runs_freeTemp ht fun u hu _ => ?_)
      exact ih regs (Nat.le_of_succ_le_succ hlen) hu

theorem uses_userCall {f : FnMeta} (hf : f.params.length ≤ 4) (dst : ℕ) :
    Uses S d d (userCall r f dst) := by
  refine ⟨fun {st} h => ?_⟩
  refine Prog.Wp.bind ((quiet_advance.runs h).mono fun _ t ht => ?_)
  refine Prog.Wp.bind ((runs_callArgs ht f.params.length).mono fun temps u hu => ?_)
  obtain ⟨hle, heq, hheld⟩ := hu
  rw [Pool.Stack.taken_add] at hheld
  have hseg : temps = ((List.range temps.length).map fun k => S.slot (d + k)).map (15 - ·) := by
    rw [List.map_map]
    exact heq
  have hregs : ((List.range temps.length).map fun k => S.slot (d + k)).length ≤
      paramRegs.length := by
    rw [List.length_map, List.length_range]
    exact Nat.le_trans hle hf
  have hpass := runs_passArgs paramRegs _ hregs hheld
  rw [← hseg] at hpass
  refine Prog.Wp.bind (hpass.mono fun _ v hv => ?_)
  exact uses_of_quiet.runs hv

/-! ## Calls of intrinsics -/

/-- One more argument is compiled. -/
theorem runs_arg {args : List ℕ} (h : ArgsHeld S d args st) {k : ℕ → CompilerM α}
    {Q : α → CompilerState → Prop}
    (hk : ∀ st', ArgsHeld S d (args ++ [15 - S.slot (d + args.length)]) st' →
      Runs S (k (15 - S.slot (d + args.length))) Q st') :
    Runs S (allocTemp >>= fun arg => r.expression arg >>= fun _ => k arg) Q st := by
  refine Prog.Wp.bind (runs_push h.held fun t ht _ => ?_)
  exact Prog.Wp.bind (((uses_expression_rec _).runs ht).mono fun _ u hu => hk u (h.push hu))

/-- The comma between two arguments. -/
theorem runs_comma {args : List ℕ} (h : ArgsHeld S d args st)
    {code message expected stage suggestion : String} {k : Unit → CompilerM α}
    {Q : α → CompilerState → Prop} (hk : ∀ st', ArgsHeld S d args st' → Runs S (k ()) Q st') :
    Runs S (matchToken .comma >>= fun comma =>
      require comma code message expected stage suggestion >>= k) Q st := by
  refine Prog.Wp.bind (((quiet_matchToken .comma).runs h.held).mono fun comma t ht => ?_)
  exact Prog.Wp.bind (runs_require fun _ => hk t ⟨h.eq, ht⟩)

/-- The argument of an intrinsic; a missing one is register 0. -/
theorem runs_oneArg (h : TempsHeld (S.taken d) st) (f : Native) :
    Runs S (oneArg r f) (fun arg st' => arg = 0 ∧ TempsHeld (S.taken d) st' ∨
      ArgsHeld S d [arg] st') st := by
  have hnone : ∀ {t : CompilerState}, TempsHeld (S.taken d) t → ArgsHeld S d [] t :=
    fun ht => ⟨rfl, ht⟩
  dsimp only [oneArg]
  refine Prog.Wp.bind (looks_peek.runs fun tok => ?_)
  split
  · exact .inl ⟨rfl, h⟩
  · have hrest : ∀ reg {t : CompilerState}, TempsHeld (S.taken d) t →
        Runs S (consumeBy f reg >>= fun _ => allocTemp >>= fun arg => r.expression arg >>= fun _ =>
          pure arg) (fun arg st' => arg = 0 ∧ TempsHeld (S.taken d) st' ∨
            ArgsHeld S d [arg] st') t := by
      intro reg t ht
      refine Prog.Wp.bind (((quiet_consumeBy f reg).runs ht).mono fun _ u hu => ?_)
      exact runs_arg (hnone hu) fun v hv => .inr hv
    split
    · exact Prog.Wp.bind (((quiet_tryResolveVar tok).runs h).mono fun reg t ht => hrest _ ht)
    · exact hrest _ h

/-- The arguments of an intrinsic. -/
theorem runs_intrinsicArgs (h : TempsHeld (S.taken d) st) (f : Native) {n : ℕ} (hn : n ≤ 3) :
    Runs S (intrinsicArgs r f n) (fun args st' => args = [0] ∧ n = 1 ∧ TempsHeld (S.taken d) st' ∨
      args.length = n ∧ ArgsHeld S d args st') st := by
  have hnone : ArgsHeld S d [] st := ⟨rfl, h⟩
  interval_cases n
  · exact .inr ⟨rfl, hnone⟩
  · refine Prog.Wp.bind ((runs_oneArg h f).mono fun arg t ht => ?_)
    rcases ht with ⟨rfl, ht⟩ | ht
    · exact .inl ⟨rfl, rfl, ht⟩
    · exact .inr ⟨rfl, ht⟩
  · refine runs_arg hnone fun t ht => runs_comma ht fun u hu => runs_arg hu fun v hv => ?_
    exact .inr ⟨rfl, hv⟩
  · refine runs_arg hnone fun t ht => runs_comma ht fun u hu => runs_arg hu fun v hv => ?_
    refine runs_comma hv fun w hw => runs_arg hw fun x hx => ?_
    exact .inr ⟨rfl, hx⟩

end Recursive

/-- The arguments of an intrinsic are freed in the reverse order. -/
theorem runs_freeArgs (n : ℕ) (h : TempsHeld (S.taken (d + n)) st) :
    Runs S (freeArgs (tempsFrom S d n)) (fun _ st' => TempsHeld (S.taken d) st') st := by
  induction n generalizing d with
  | zero => exact h
  | succ n ih =>
    have hcons : tempsFrom S d (n + 1) = (15 - S.slot d) :: tempsFrom S (d + 1) n := by
      rw [tempsFrom, List.range_succ_eq_map, List.map_cons, List.map_map]
      refine congrArg _ (List.map_congr_left fun k _ => ?_)
      rw [Function.comp_apply, Nat.add_assoc, Nat.add_comm 1 k]
    have hheld : TempsHeld (S.taken (d + 1 + n)) st := by
      rw [Nat.add_assoc, Nat.add_comm 1 n]
      exact h
    rw [hcons]
    exact Prog.Wp.bind ((ih hheld).mono fun _ t ht => runs_pop ht fun u hu _ => hu)

/-! ### The native functions -/

theorem arity_of_mem : ∀ i ∈ intrinsics, i.2.2.2 = i.2.2.1.arity ∧ i.2.2.2 ≤ 3 := by decide

theorem id_inj {f g : Native} (h : f.id = g.id) : f = g := by
  have hf := Native.ofId?_id f
  rw [h, Native.ofId?_id] at hf
  exact (Option.some.inj hf).symm

/-- A call of a native function. -/
theorem runs_native {f : Native} {arg : ℕ} (h : TempsHeld held st)
    (hargs : S.Gapless → ¬ st.ZipsThree f.id → 2 ≤ f.arity →
      argRegs f.arity arg <:+ held.map (15 - ·))
    (rd : ℕ) : Runs S (emit .callNat rd f.id arg) (fun _ st' => TempsHeld held st') st := by
  refine Prog.Wp.bind fun hrely => ⟨fun hS g hg => ?_, ?_⟩
  · rw [id_inj hg, h.live]
    exact hargs hS hrely
  · exact (ends_emitInst st _ _ _ _).mono fun _ _ hs => hs.1.tempsHeld h

/-- A native function with at most one argument. -/
class FewArgs (f : Native) : Prop where
  lt : f.arity < 2

instance quiet_callNat (f : Native) (rd arg : ℕ) [hf : FewArgs f] :
    Quiet S (emit .callNat rd f.id arg) :=
  ⟨fun h => runs_native h (fun _ _ htwo => absurd hf.lt (Nat.not_lt.mpr htwo)) rd⟩

/-- The number of arguments of an intrinsic is that of its native function. -/
theorem runs_lookupIntrinsic (name : List UInt8) {Q : Native × ℕ → CompilerState → Prop}
    (h : ∀ f : Native × ℕ, f.2 = f.1.arity → f.2 ≤ 3 → Q f st) :
    Runs S (lookupIntrinsic name) Q st := by
  dsimp only [lookupIntrinsic]
  split
  · next i hi =>
    obtain ⟨harity, hle⟩ := arity_of_mem i (List.mem_of_find?_eq_some hi)
    exact h i.2.2 harity hle
  · exact fun _ => ⟨trivial, trivial⟩

/-- The arguments of an intrinsic are where the machine reads them. -/
theorem ArgsHeld.suffix {args : List ℕ} (h : ArgsHeld S d args st) (hS : S.Gapless)
    (hne : 0 < args.length) :
    argRegs args.length (args.headD 0) <:+ (S.taken (d + args.length)).map (15 - ·) := by
  have hhead : args.headD 0 = 15 - S.slot d := by
    rw [h.eq, tempsFrom]
    obtain ⟨n, hn⟩ := Nat.exists_eq_succ_of_ne_zero (Nat.ne_of_gt hne)
    rw [hn, List.range_succ_eq_map]
    rfl
  rw [hhead, ← tempsFrom_eq_argRegs hS, Pool.Stack.taken_add, List.map_append, List.map_map]
  exact List.suffix_append _ _

instance uses_intrinsicCall {r : Rec} [Calls S r] (name : List UInt8) (dst : ℕ) :
    Uses S d d (intrinsicCall r name dst) := by
  refine ⟨fun {st} h => Prog.Wp.bind (runs_lookupIntrinsic name fun f harity hle => ?_)⟩
  refine Prog.Wp.bind ((quiet_advance.runs h).mono fun _ t ht => ?_)
  refine Prog.Wp.bind ((runs_intrinsicArgs ht f.1 hle).mono fun args u hu => ?_)
  have hrest : ∀ held', TempsHeld held' u →
      (S.Gapless → 2 ≤ f.1.arity → argRegs f.1.arity (args.headD 0) <:+ held'.map (15 - ·)) →
      (∀ v, TempsHeld held' v → Runs S (freeArgs args)
        (fun _ st' => TempsHeld (S.taken d) st') v) →
      Runs S (do
        let closed ← matchToken .rParen
        require closed "ERR_UNCLOSED_PAREN"
          "Missing closing parenthesis ')' in function argument list" "Closing parenthesis ')'"
          "Expression -> Intrinsic Function Call" "Add matching ')' after argument list"
        checkIntrinsicRuntime f.1
        emit .callNat dst f.1.id (args.headD 0)
        freeArgs args
        return (none : Option Word64)) (fun _ st' => TempsHeld (S.taken d) st') u := by
    intro held' hheld hargs hfree
    refine Prog.Wp.bind (((quiet_matchToken .rParen).runs hheld).mono fun closed v hv => ?_)
    refine Prog.Wp.bind (runs_require fun _ => Prog.Wp.bind ?_)
    refine (looks_checkIntrinsicRuntime f.1).runs fun _ => Prog.Wp.bind ?_
    refine (runs_native hv (fun hS _ => hargs hS) dst).mono fun _ w hw => Prog.Wp.bind ?_
    exact (hfree w hw).mono fun _ _ hx => hx
  rcases hu with ⟨rfl, hone, hu⟩ | ⟨hlen, hu⟩
  · refine hrest _ hu (fun _ htwo => ?_) fun v hv => ?_
    · rw [← harity, hone] at htwo
      exact absurd htwo (by decide)
    · -- no temporary was handed out, and register 0 is none
      have hzero : v.freeTemp 0 = v := if_neg (by decide)
      refine Prog.Wp.bind fun _ => ⟨trivial, ?_⟩
      change TempsHeld (S.taken d) (v.freeTemp 0)
      rw [hzero]
      exact hv
  · refine hrest _ hu.held (fun hS htwo => ?_) fun v hv => ?_
    · rw [← harity, ← hlen]
      exact hu.suffix hS (by omega)
    · rw [hu.eq]
      exact runs_freeArgs _ hv

end Temps

end Compiler

end LatencyOS
