import LatencyOS.Compiler.Scales

/-!
# Operators on variables and on literals

The two kinds of operands of a binary operator that are one token each.  Two variables are
combined by the machine, by their scales.  Two literals are combined by the compiler, and
`expression` loads the result.

## Main results

* `parses_vars`: the code of an operator on two variables leaves `BinOp.applyScaled`.
* `parses_literals`: an operator on two literals is folded by `BinOp.fold`.
-/

namespace LatencyOS

open CompilerState PX64VM

namespace Compiler

variable {st st' s s' t : CompilerState} {tok : ℕ → Token}
  {name : Token → Option (List UInt8)} {a b x : List UInt8} {op : BinOp} {dst h i j k m : ℕ}
  {v : Option Word64}

/-! ## Variables -/

/-- A variable by itself is fetched. -/
theorem parses_var (hk : (tok i).kind = .varIdent) (hx : name (tok i) = some x)
    (hb : (tok (i + 1)).kind ≠ .lBracket) (hd : (tok (i + 1)).kind ≠ .dot) :
    Parses tok name 0 i (i + 1) (fun st => (st.place x).isSome)
      (fun dst v st t => v = none ∧ Fetches x dst st.next t) := by
  intro fuel n dst st st' v' hat hknown _ hy
  have hfits := fits_of_yields hy hat.fits
  have hy := primary_at hat (by rw [hk]; exact TokenKind.noConfusion) hy
  rw [hk] at hy
  simp only [varPrimary, yields_bind, yields_peekKind] at hy
  obtain ⟨_, _, ⟨rfl, rfl⟩, hy⟩ := hy
  rw [hat.next.peek_kind, if_neg hb, if_neg hd] at hy
  have hname : st.next.text? st.peek = some x := by
    rw [peek_eq_tok, hat.tok_eq, hat.current, ← hx, ← hat.name_eq]
    rfl
  obtain ⟨rfl, hfetch⟩ := fetches_varValue hname (.inl hknown) hy
  exact ⟨none, st', 0, ⟨rfl, hfetch⟩, hat.next.grows hfetch.segment.grows hfits
    (hfetch.current.trans hat.next.current), yields_pure.mpr ⟨rfl, rfl⟩⟩

/-- The code of an operator on two variables.  The right one may not lie in the destination
unless the left one does too, as it is fetched last. -/
structure CombinesVars (op : BinOp) (a b : List UInt8) (dst : ℕ) (st st' : CompilerState) :
    Prop where
  segment : Segment st st'
  runs : ∀ (host : Host) (vm : PX64VM) (p q : Place), st.place a = some p → p.Valid →
    st.place b = some q → q.Valid → (q = .reg dst → p = .reg dst) → Holds vm st st' →
    vm.ip = st.code.length → dst < 20 → ¬ st.Free dst →
    Computes host (fun r => r = dst ∨ st.Free r) dst vm st'.code.length
      (op.applyScaled vm.getStrBytes (st.scaleOf a) (st.scaleOf b) (p.read vm) (q.read vm))

/-- A place is read as before once another register was written. -/
theorem read_of_passes_ne {host : Host} {vm vm' : PX64VM} {q : Place} {r : ℕ}
    (hp : Passes host (· = r) vm vm') (hq : q ≠ .reg r) : q.read vm' = q.read vm := by
  cases q with
  | slot l => exact congrFun hp.spill l
  | reg r' => exact hp.frame r' fun h => hq (congrArg Place.reg h)

theorem combinesVars (ha : Fetches a dst st.next t) (hm : t.next.freeSlot = some m)
    (hb : Fetches b (15 - m) (t.next.take m).next s)
    (hop : ScaledCode op (st.scaleOf a) (st.scaleOf b) dst (15 - m) s s') :
    CombinesVars op a b dst st (s'.freeTemp (15 - m)) := by
  have hm8 := (freeSlot_eq_some hm).1
  have hst : Segment st t.next := ((Segment.next st).trans ha.segment).trans (.next t)
  have hts : Segment (t.next.take m) s := (Segment.next _).trans hb.segment
  have hseg : Segment st (s'.freeTemp (15 - m)) :=
    hst.trans (.bracket hm (hts.trans hop.segment))
  refine ⟨hseg, fun host vm p q hp hpv hq hqv hpq hvm hip hd hfree => ?_⟩
  -- the temporaries of the code
  have hlog : scratch st (s'.freeTemp (15 - m)) = (15 - m) :: scratch s s' := by
    have hnil : scratch st t.next = [] := scratch_eq_nil ha.log
    have hnil' : scratch (t.next.take m) s = [] := scratch_eq_nil hb.log
    rw [scratch_congr (freeTemp_allocLog _ _), scratch_trans hst.grows.log
      ((Grows.take t.next m).trans (hts.trans hop.segment).grows).log, hnil,
      scratch_take m (hts.trans hop.segment).grows.log,
      scratch_trans hts.grows.log hop.segment.grows.log, hnil', List.nil_append, List.nil_append]
  have hscratch : ∀ r, r = 15 - m ∨ r ∈ scratch s s' → st.Free r := fun r hr =>
    hseg.free r (by rw [hlog]; exact List.mem_cons.mpr hr)
  have hne : dst ≠ 15 - m := fun h => hfree (hscratch dst (.inl h))
  -- the left operand
  have hvm' := hvm.left (Grows.freeTemp s' (15 - m))
  have hvm_s : Holds vm st s := hvm'.left hop.segment.grows
  have hgrows : Grows t (t.next.take m).next :=
    ((Segment.next t).grows.trans (.take _ _)).trans (Segment.next _).grows
  have hp_t : t.place a = some p :=
    ((Segment.next st).trans ha.segment).grows.place_of_some hp
  obtain ⟨vm₁, hp₁, hip₁, hreg₁⟩ := ha.runs host vm p hp_t hpv
    ((hvm_s.left (hgrows.trans hb.segment.grows)).right (Nat.le_refl _)) hip hd
  -- the right operand
  have hq_s : s.place b = some q := (hst.grows.trans
    ((Grows.take t.next m).trans hts.grows)).place_of_some hq
  have hlen₁ : st.code.length ≤ (t.next.take m).next.code.length :=
    ((Segment.next st).grows.trans (ha.segment.grows.trans hgrows)).code_le
  have hvm₁ : Holds vm₁ (t.next.take m).next s := (hvm_s.right hlen₁).of_core hp₁.core
  obtain ⟨vm₂, hp₂, hip₂, hreg₂⟩ := hb.runs host vm₁ q hq_s hqv hvm₁ hip₁ (by omega)
  have hread : q.read vm₁ = q.read vm := by
    by_cases hqd : q = .reg dst
    · obtain rfl := hpq hqd
      rw [hqd]
      exact hreg₁
    · exact read_of_passes_ne hp₁ hqd
  have hdst₂ : vm₂.regs dst = p.read vm := (hp₂.frame dst hne).trans hreg₁
  -- the operator
  have hcore := hp₂.core.trans hp₁.core
  have hlen : st.code.length ≤ s.code.length :=
    ((hst.grows.trans (.take _ m)).trans hts.grows).code_le
  have hcomp := hop.runs host vm₂ ((hvm'.right hlen).of_core hcore) hip₂ hd (by omega) hne
    (fun hmem => hfree (hscratch dst (.inr hmem)))
    (hop.segment.notMem_of_used (by
      rw [show 15 - (15 - m) = m by omega, hts.temps]
      exact take_tempUsed _ m))
  rw [hdst₂, hreg₂, hread, getStrBytes_of_core hcore] at hcomp
  refine Computes.after ((hp₁.mono fun r hr => .inl hr).trans
    (hp₂.mono fun r hr => .inr (hscratch r (.inl hr)))) ?_
  rw [freeTemp_code]
  exact hcomp.mono fun r hr => hr.imp_right fun hr => hscratch r (.inr hr)

theorem ScaledCode.of_quiet {s₁ s₂ : Option ℕ} {rhs : ℕ} (hq : Quiet t st)
    (hcur : st.current = t.current) (h : ScaledCode op s₁ s₂ dst rhs st st') :
    ScaledCode op s₁ s₂ dst rhs t st' where
  segment := hq.segment.trans h.segment
  current := h.current.trans hcur
  runs := by
    rw [show scratch t st' = scratch st st' by rw [scratch, scratch, hq.log]]
    exact fun host vm hvm hip => h.runs host vm (hvm.right hq.segment.grows.code_le)
      (by rw [hip, hq.code])

/-- Both variables are known, and their scales are no larger than a word. -/
structure KnownVars (a b : List UInt8) (st : CompilerState) : Prop where
  left : (st.place a).isSome
  right : (st.place b).isSome
  scale_left : ∀ s ∈ st.scaleOf a, s < 64
  scale_right : ∀ s ∈ st.scaleOf b, s < 64

/-- The tokens of an operator between two variables. -/
structure VarTokens (tok : ℕ → Token) (name : Token → Option (List UInt8)) (op : BinOp)
    (a b : List UInt8) (i : ℕ) : Prop where
  left : (tok i).kind = .varIdent
  left_name : name (tok i) = some a
  op : (tok (i + 1)).kind = op.kind
  right : (tok (i + 2)).kind = .varIdent
  right_name : name (tok (i + 2)) = some b
  follows : Follows (tok (i + 3)).kind
  not_indexed : (tok (i + 3)).kind ≠ .lBracket
  not_field : (tok (i + 3)).kind ≠ .dot

theorem parses_vars (htok : VarTokens tok name op a b i) :
    Parses tok name (op.height + 1) i (i + 3) (KnownVars a b)
      (fun dst v st t => v = none ∧ CombinesVars op a b dst st t) := by
  have hbracket : (tok (i + 1)).kind ≠ .lBracket := by
    rw [htok.op]
    cases op <;> exact TokenKind.noConfusion
  have hdot : (tok (i + 1)).kind ≠ .dot := by
    rw [htok.op]
    cases op <;> exact TokenKind.noConfusion
  have hh := op.height_le
  have hleft : Parses tok name (op.height + 1) i (i + 1) (fun st => (st.place a).isSome)
      (fun dst v st t => v = none ∧ Fetches a dst st.next t) :=
    parses_of_le (Nat.zero_le _) (by omega)
      (parses_var htok.left htok.left_name hbracket hdot)
  have hright : Parses tok name op.height (i + 2) (i + 3) (fun st => (st.place b).isSome)
      (fun dst v st t => v = none ∧ Fetches b dst st.next t) :=
    parses_of_le (Nat.zero_le _) (by omega)
      (parses_var htok.right htok.right_name htok.not_indexed htok.not_field)
  intro fuel n dst st st' v'
  refine parses_bin (R := KnownVars a b)
    (P := fun dst v st t => v = none ∧ CombinesVars op a b dst st t) hleft htok.op hright
    (fun hknown => hknown.left) (fun {_ m _ st t} hknown hfetch => ?_) ?_
  · have hgrows : Grows st (t.next.take m) :=
      (((Segment.next st).trans hfetch.2.segment).trans (.next t)).grows.trans (.take _ _)
    exact hgrows.place_isSome hknown.right
  intro dst m va vb w st t s _ s₂ _ hknown hfits hfetch_a hm hfetch_b hcheck hcombine
  obtain ⟨rfl, hfetch_a⟩ := hfetch_a
  obtain ⟨rfl, hfetch_b⟩ := hfetch_b
  have hgrows : Grows st (t.next.take m).next :=
    ((((Segment.next st).trans hfetch_a.segment).trans (.next t)).grows.trans
      (.take _ _)).trans (Segment.next _).grows
  have hscale_a : t.info.fixedScale = st.scaleOf a := hfetch_a.scale
  have hscale_b : s.info.fixedScale = st.scaleOf b :=
    hfetch_b.scale.trans (hgrows.scaleOf_eq b)
  obtain ⟨info, -, rfl⟩ := checkScales_of_yields op hcheck
  simp only [combine, emitPending, yields_bind, yields_pure] at hcombine
  obtain ⟨_, _, ⟨-, rfl⟩, _, _, ⟨-, rfl⟩, _, _, hemit, rfl, rfl⟩ := hcombine
  rw [hscale_a, hscale_b] at hemit
  have hcode := (scaledCode_of_yields (by exact hfits.pool) hknown.scale_left hknown.scale_right
    hemit).of_quiet (.move s s.current info) rfl
  exact ⟨⟨rfl, combinesVars hfetch_a hm hfetch_b hcode⟩, hcode.segment.grows, hcode.current⟩

/-- Nothing is pending behind an operator on variables. -/
theorem CombinesVars.load (h : CombinesVars op a b dst st t) (hload : Pending t dst none st') :
    CombinesVars op a b dst st st' where
  segment := h.segment.trans hload.segment
  runs := fun host vm p q hp hpv hq hqv hpq hvm hip hd hfree =>
    hload.computes (hvm.right h.segment.grows.code_le) hd
      (h.runs host vm p q hp hpv hq hqv hpq (hvm.left hload.segment.grows) hip hd hfree)

/-- The code of the expression at a position, compiled into a register, is about to be run.  The
register is none that the code could take for a temporary. -/
structure Loaded (tok : ℕ → Token) (name : Token → Option (List UInt8)) (i dst : ℕ)
    (st st' : CompilerState) (vm : PX64VM) : Prop where
  starts : At tok name i st
  compiled : ∃ fuel n, Yields (Compiler.expression (recN fuel n) dst) st () st'
  holds : Holds vm st st'
  ip : vm.ip = st.code.length
  dst_lt : dst < 20
  dst_taken : ¬ st.Free dst

/-- The state of the compiler before a statement of a program, with a temporary taken. -/
def stateBefore (src : List UInt8) (k : ℕ) : CompilerState :=
  match prefixState false 40 src k with
  | .ok st => st.take 0
  | .error _ => CompilerState.new [] [] false

/-- A machine with a compiled program and some registers, at the end of the code of a state. -/
def machineAt (st st' : CompilerState) (regs : ℕ → Word64) : PX64VM :=
  { PX64VM.new st'.code st'.strPool st'.constPool [] with ip := st.code.length, regs := regs }

/-- An expression can be compiled into a register: the program fits so far, the register is a
temporary that is taken, and the expression is accepted. -/
def Prepared (st : CompilerState) (dst : ℕ) : Prop :=
  st.code.length ≤ maxBytecodeSize ∧ st.constPool.length ≤ maxConstPool ∧
    st.tempUsed (15 - dst) = true ∧
    ((Compiler.expression (recN 10 10) dst).run perform st).isOk = true

instance (st : CompilerState) (dst : ℕ) : Decidable (Prepared st dst) :=
  inferInstanceAs (Decidable (_ ∧ _))

theorem Prepared.loaded (h : Prepared st dst) (hd : dst < 20) (regs : ℕ → Word64) :
    ∃ st', Loaded st.tok st.text? st.current dst st st' (machineAt st st' regs) := by
  obtain ⟨hcode, hpool, htaken, hok⟩ := h
  cases hrun : (Compiler.expression (recN 10 10) dst).run perform st with
  | error e =>
    rw [hrun] at hok
    cases hok
  | ok r =>
    exact ⟨r.2, ⟨rfl, rfl, rfl, hcode, hpool⟩, ⟨10, 10, hrun⟩,
      ⟨fun _ _ _ => rfl, List.prefix_rfl⟩, rfl, hd,
      fun hfree => Bool.noConfusion (hfree.2.2.symm.trans htaken)⟩

/-- The kinds and the texts of the next tokens. -/
def ahead (st : CompilerState) (n : ℕ) : List (TokenKind × Option (List UInt8)) :=
  (List.range n).map fun k =>
    ((st.tok (st.current + k)).kind, st.text? (st.tok (st.current + k)))

theorem tok_of_ahead {n k : ℕ} {l : List (TokenKind × Option (List UInt8))}
    {c : TokenKind × Option (List UInt8)} (h : ahead st n = l) (hk : l[k]? = some c) :
    (st.tok (st.current + k)).kind = c.1 ∧ st.text? (st.tok (st.current + k)) = c.2 := by
  rw [← h, ahead, List.getElem?_map, Option.map_eq_some_iff] at hk
  obtain ⟨k', hk', rfl⟩ := hk
  obtain ⟨-, rfl⟩ := List.getElem?_eq_some_iff.mp hk'
  rw [List.getElem_range]
  exact ⟨rfl, rfl⟩

theorem VarTokens.of_ahead {w w' : Option (List UInt8)}
    (h : ahead st 4 = [(.varIdent, some a), (op.kind, w), (.varIdent, some b), (.semi, w')]) :
    VarTokens st.tok st.text? op a b st.current := by
  have hsemi := (tok_of_ahead (k := 3) h rfl).1
  exact {
    left := (tok_of_ahead (k := 0) h rfl).1
    left_name := (tok_of_ahead (k := 0) h rfl).2
    op := (tok_of_ahead (k := 1) h rfl).1
    right := (tok_of_ahead (k := 2) h rfl).1
    right_name := (tok_of_ahead (k := 2) h rfl).2
    follows := by rw [hsemi]; exact follows_semi
    not_indexed := by rw [hsemi]; exact TokenKind.noConfusion
    not_field := by rw [hsemi]; exact TokenKind.noConfusion }

/-- A variable with a scale holds a word. -/
structure VarHolds (st : CompilerState) (vm : PX64VM) (x : List UInt8) (p : Place)
    (scale : Option ℕ) (w : Word64) : Prop where
  place : st.place x = some p
  valid : p.Valid
  scale : st.scaleOf x = scale
  value : p.read vm = w

/-- A variable with a scale lies in a register. -/
def InRegister (st : CompilerState) (x : List UInt8) (r : ℕ) (scale : Option ℕ) : Prop :=
  st.place x = some (.reg r) ∧ r < 20 ∧ st.scaleOf x = scale

instance (st : CompilerState) (x : List UInt8) (r : ℕ) (scale : Option ℕ) :
    Decidable (InRegister st x r scale) := inferInstanceAs (Decidable (_ ∧ _))

theorem InRegister.holds {r : ℕ} {sc : Option ℕ} (h : InRegister st x r sc) (st' : CompilerState)
    (regs : ℕ → Word64) : VarHolds st (machineAt st st' regs) x (.reg r) sc (regs r) :=
  ⟨h.1, h.2.1, h.2.2, rfl⟩

theorem VarHolds.known {vm : PX64VM} {p : Place} {sc : Option ℕ} {w : Word64}
    (h : VarHolds st vm x p sc w) : (st.place x).isSome := by
  rw [h.place]
  rfl

/-- An operator on two variables is applied by the machine. -/
theorem Loaded.vars {vm : PX64VM} {p q : Place} {s₁ s₂ : Option ℕ} {w₁ w₂ : Word64}
    (h : Loaded tok name i dst st st' vm) (htok : VarTokens tok name op a b i)
    (ha : VarHolds st vm a p s₁ w₁) (hb : VarHolds st vm b q s₂ w₂) (hs₁ : ∀ s ∈ s₁, s < 64)
    (hs₂ : ∀ s ∈ s₂, s < 64) (hpq : q = .reg dst → p = .reg dst) (host : Host) :
    Computes host (fun r => r = dst ∨ st.Free r) dst vm st'.code.length
      (op.applyScaled vm.getStrBytes s₁ s₂ w₁ w₂) := by
  have hh := op.height_le
  have hp : Parses tok name 11 i (i + 3) (KnownVars a b)
      (fun dst v st t => v = none ∧ CombinesVars op a b dst st t) :=
    parses_of_le (by omega) (Nat.le_refl _) (parses_vars htok)
  have hknown : KnownVars a b st := ⟨ha.known, hb.known, by rwa [ha.scale], by rwa [hb.scale]⟩
  obtain ⟨fuel, n, hy⟩ := h.compiled
  obtain ⟨v, t, ⟨rfl, hcombines⟩, -, hload, -⟩ := hp.expression h.starts hknown htok.follows hy
  have hruns := (hcombines.load hload).runs host vm p q ha.place ha.valid hb.place hb.valid hpq
    h.holds h.ip h.dst_lt h.dst_taken
  rwa [ha.scale, hb.scale, ha.value, hb.value] at hruns

/-! ## Literals -/

/-- A literal: an integer or a time, or a decimal with its digits and their number. -/
inductive Literal
  | int (n : Word64)
  | fixed (scaledVal : Word64) (fracDigits : ℕ)
  deriving DecidableEq

namespace Literal

/-- The word of a literal, when decimals have a scale. -/
def word (s : ℕ) : Literal → Word64
  | int n => n
  | fixed scaledVal fracDigits =>
    BitVec.ofInt 64 ((scaledVal.toInt * 2 ^ s).tdiv (fracDivisor fracDigits))

/-- The scale of a literal: integers have none. -/
def scale (s : ℕ) : Literal → Option ℕ
  | int _ => none
  | fixed .. => some s

end Literal

/-- The literal of a token. -/
def literalOf : TokenKind → Option Literal
  | .number n => some (.int n)
  | .timeLiteral ns => some (.int ns)
  | .floatLit scaledVal fracDigits => some (.fixed scaledVal fracDigits)
  | _ => none

/-- The scale decimals are converted to. -/
def literalScale (st : CompilerState) : ℕ := st.info.targetScale.getD 16

/-- A temporary that is free behind a stretch of code was free before. -/
theorem free_of_segment (hseg : Segment st t) {r : ℕ} (hr : t.Free r) : st.Free r :=
  ⟨hr.1, hr.2.1, by rw [← hseg.temps]; exact hr.2.2⟩

/-- Code that touches the destination and free temporaries only. -/
structure Idles (dst : ℕ) (st st' : CompilerState) : Prop where
  segment : Segment st st'
  runs : ∀ (host : Host) (vm : PX64VM), Holds vm st st' → vm.ip = st.code.length → dst < 20 →
    ∃ vm', Passes host (fun r => r = dst ∨ st.Free r) vm vm' ∧ vm'.ip = st'.code.length

theorem Idles.quiet (h : Idles dst st st') (hq : Quiet st' t) : Idles dst st t where
  segment := h.segment.trans hq.segment
  runs := fun host vm hvm hip hd => by
    obtain ⟨vm', hp, hip'⟩ := h.runs host vm (hvm.left hq.segment.grows) hip hd
    exact ⟨vm', hp, hip'.trans (congrArg List.length hq.code.symm)⟩

theorem Idles.of_quiet (hq : Quiet t st) (h : Idles dst st st') : Idles dst t st' where
  segment := hq.segment.trans h.segment
  runs := fun host vm hvm hip hd => by
    obtain ⟨vm', hp, hip'⟩ := h.runs host vm (hvm.right hq.segment.grows.code_le)
      (by rw [hip, hq.code]) hd
    exact ⟨vm', hp.mono fun r hr => hr.imp_right (free_of_segment hq.segment), hip'⟩

theorem idles_refl (dst : ℕ) (st : CompilerState) : Idles dst st st where
  segment := .refl st
  runs := fun _ vm _ hip _ => ⟨vm, .refl .., hip⟩

theorem Loads.idles {c : Word64} (h : Loads st dst c st') : Idles dst st st' where
  segment := h.segment
  runs := fun host vm hvm hip hd => by
    obtain ⟨vm', hp, hip', -⟩ := h.writes hvm hip hd host
    exact ⟨vm', hp.mono fun r hr => .inl hr, by rw [hip', hip, h.codeLen]⟩

/-- A second operand is prepared in a temporary of its own. -/
theorem Idles.bracket (ha : Idles dst st t) (hm : t.freeSlot = some m)
    (hb : Idles (15 - m) (t.take m) s) : Idles dst st (s.freeTemp (15 - m)) where
  segment := ha.segment.trans (.bracket hm hb.segment)
  runs := fun host vm hvm hip hd => by
    have hgrows : Grows t s := (Grows.take t m).trans hb.segment.grows
    have hvm' := hvm.left (Grows.freeTemp s (15 - m))
    obtain ⟨vm₁, hp₁, hip₁⟩ := ha.runs host vm (hvm'.left hgrows) hip hd
    have hlen : st.code.length ≤ (t.take m).code.length := ha.segment.grows.code_le
    obtain ⟨vm₂, hp₂, hip₂⟩ := hb.runs host vm₁ ((hvm'.right hlen).of_core hp₁.core) hip₁
      (by omega)
    refine ⟨vm₂, hp₁.trans (hp₂.mono ?_), by rw [hip₂, freeTemp_code]⟩
    rintro r (rfl | hr)
    · exact .inr (free_of_segment ha.segment (free_of_freeSlot hm))
    · exact .inr (free_of_segment ha.segment (hr.of_take (freeSlot_eq_some hm).1).1)

theorem literalOf_eq_some {kind : TokenKind} {l : Literal} (h : literalOf kind = some l) :
    (∃ n, l = .int n ∧ (kind = .number n ∨ kind = .timeLiteral n)) ∨
      ∃ scaledVal fracDigits, l = .fixed scaledVal fracDigits ∧
        kind = .floatLit scaledVal fracDigits := by
  unfold literalOf at h
  split at h
  · next n => exact .inl ⟨n, (Option.some.inj h).symm, .inl rfl⟩
  · next n => exact .inl ⟨n, (Option.some.inj h).symm, .inr rfl⟩
  · next v d => exact .inr ⟨v, d, (Option.some.inj h).symm, rfl⟩
  · cases h

/-- A literal is a constant, and decimals are loaded besides. -/
theorem parses_literal {l : Literal} (hl : literalOf (tok i).kind = some l) :
    Parses tok name 0 i (i + 1) (fun _ => True) (fun dst v st t =>
      v = some (l.word (literalScale st)) ∧ Idles dst st t ∧
        literalScale t = literalScale st) := by
  intro fuel n dst st st' v' hat _ _ hy
  have hfits := fits_of_yields hy hat.fits
  rcases literalOf_eq_some hl with ⟨c, rfl, hk⟩ | ⟨scaledVal, fracDigits, rfl, hk⟩
  · have hpure : Yields (pure (some c)) st.next v' st' := by
      rcases hk with hk | hk
      all_goals
        have hy := primary_at hat (by rw [hk]; exact TokenKind.noConfusion) hy
        rw [hk] at hy
        exact hy
    obtain ⟨rfl, rfl⟩ := yields_pure.mp hpure
    exact ⟨_, st.next, 0, ⟨rfl, (idles_refl dst st).quiet (.next st), rfl⟩, hat.next,
      yields_pure.mpr ⟨rfl, rfl⟩⟩
  · have hy := primary_at hat (by rw [hk]; exact TokenKind.noConfusion) hy
    rw [hk] at hy
    simp only [floatLit, setFixedScale, yields_bind, yields_get, yields_modifyInfo,
      yields_pure] at hy
    obtain ⟨_, _, ⟨rfl, rfl⟩, idx, t, hadd, pos, s, himm, _, _, rfl, rfl, rfl⟩ := hy
    have hload := loads_ldc hat.next.fits.pool hadd himm
    have hquiet := Quiet.move s s.current
      { s.info with fixedScale := some (st.info.targetScale.getD 16) }
    have hidles := (Idles.of_quiet (.next st) hload.idles).quiet hquiet
    refine ⟨_, _, 0, ⟨rfl, hidles, ?_⟩, ?_, yields_pure.mpr ⟨rfl, rfl⟩⟩
    · rw [literalScale, hload.info]
      rfl
    · exact hat.next.grows (hload.segment.trans hquiet.segment).grows hfits
        (hload.current.trans hat.next.current)

/-- The tokens of an operator between two literals. -/
structure LiteralTokens (tok : ℕ → Token) (op : BinOp) (l₁ l₂ : Literal) (i : ℕ) : Prop where
  left : literalOf (tok i).kind = some l₁
  op : (tok (i + 1)).kind = op.kind
  right : literalOf (tok (i + 2)).kind = some l₂
  follows : Follows (tok (i + 3)).kind

theorem LiteralTokens.of_ahead {l₁ l₂ : Literal} {k₁ k₂ : TokenKind}
    {w₁ w₂ w₃ w₄ : Option (List UInt8)}
    (h : ahead st 4 = [(k₁, w₁), (op.kind, w₂), (k₂, w₃), (.semi, w₄)])
    (h₁ : literalOf k₁ = some l₁) (h₂ : literalOf k₂ = some l₂) :
    LiteralTokens st.tok op l₁ l₂ st.current where
  left := (congrArg literalOf (tok_of_ahead (k := 0) h rfl).1).trans h₁
  op := (tok_of_ahead (k := 1) h rfl).1
  right := (congrArg literalOf (tok_of_ahead (k := 2) h rfl).1).trans h₂
  follows := by
    rw [(tok_of_ahead (k := 3) h rfl).1]
    exact follows_semi

/-- An operator on two literals is folded. -/
theorem parses_literals {l₁ l₂ : Literal} (htok : LiteralTokens tok op l₁ l₂ i) :
    Parses tok name (op.height + 1) i (i + 3) (fun _ => True) (fun dst v st t =>
      v = op.fold (l₁.word (literalScale st)) (l₂.word (literalScale st)) ∧ v.isSome ∧
        Idles dst st t) := by
  have hh := op.height_le
  have hleft : Parses tok name (op.height + 1) i (i + 1) (fun _ => True) (fun dst v st t =>
      v = some (l₁.word (literalScale st)) ∧ Idles dst st t ∧
        literalScale t = literalScale st) :=
    parses_of_le (Nat.zero_le _) (by omega) (parses_literal htok.left)
  have hright : Parses tok name op.height (i + 2) (i + 3) (fun _ => True) (fun dst v st t =>
      v = some (l₂.word (literalScale st)) ∧ Idles dst st t ∧
        literalScale t = literalScale st) :=
    parses_of_le (Nat.zero_le _) (by omega) (parses_literal htok.right)
  intro fuel n dst st st' v'
  refine parses_bin (R := fun _ => True) (P := fun dst v st t =>
    v = op.fold (l₁.word (literalScale st)) (l₂.word (literalScale st)) ∧ v.isSome ∧
      Idles dst st t) hleft htok.op hright (fun _ => trivial) (fun _ _ => trivial) ?_
  intro dst m va vb w st t s _ s₂ _ _ _ hleft hm hright hcheck hcombine
  obtain ⟨rfl, hidles_a, hscale⟩ := hleft
  obtain ⟨rfl, hidles_b, -⟩ := hright
  obtain ⟨info, -, rfl⟩ := checkScales_of_yields op hcheck
  simp only [combine, yields_bind, yields_pure] at hcombine
  obtain ⟨c, _, hyields, rfl, rfl⟩ := hcombine
  obtain ⟨hfold, rfl⟩ := fold_of_yields hyields
  have hquiet := Quiet.move s s.current info
  have hscale' : literalScale (t.next.take m) = literalScale st := hscale
  rw [hscale'] at hfold
  exact ⟨⟨hfold.symm, rfl, (hidles_a.quiet (.next t)).bracket hm (hidles_b.quiet hquiet)⟩,
    hquiet.segment.grows, rfl⟩

/-- A constant that is pending behind idle code is left in the destination. -/
theorem Idles.load {c : Word64} (h : Idles dst st t) (hload : Pending t dst (some c) st')
    (host : Host) {vm : PX64VM} (hvm : Holds vm st st') (hip : vm.ip = st.code.length)
    (hd : dst < 20) :
    Computes host (fun r => r = dst ∨ st.Free r) dst vm st'.code.length (some c) := by
  obtain ⟨vm₁, hp₁, hip₁⟩ := h.runs host vm (hvm.left hload.segment.grows) hip hd
  obtain ⟨vm₂, hp₂, hip₂, hc⟩ := hload.runs host vm₁
    ((hvm.right h.segment.grows.code_le).of_core hp₁.core) hip₁ hd
  exact ⟨vm₂, hp₁.trans (hp₂.mono fun r hr => .inl hr.1), hip₂, hc c rfl⟩

/-- An operator on two literals is a constant. -/
theorem Loaded.literals {vm : PX64VM} {l₁ l₂ : Literal} (h : Loaded tok name i dst st st' vm)
    (htok : LiteralTokens tok op l₁ l₂ i) :
    ∃ c, op.fold (l₁.word (literalScale st)) (l₂.word (literalScale st)) = some c ∧
      ∀ host, Computes host (fun r => r = dst ∨ st.Free r) dst vm st'.code.length (some c) := by
  have hh := op.height_le
  have hp : Parses tok name 11 i (i + 3) (fun _ => True) (fun dst v st t =>
      v = op.fold (l₁.word (literalScale st)) (l₂.word (literalScale st)) ∧ v.isSome ∧
        Idles dst st t) :=
    parses_of_le (by omega) (Nat.le_refl _) (parses_literals htok)
  obtain ⟨fuel, n, hy⟩ := h.compiled
  obtain ⟨v, t, ⟨hv, hsome, hidles⟩, -, hload, -⟩ :=
    hp.expression h.starts trivial htok.follows hy
  obtain ⟨c, rfl⟩ := Option.isSome_iff_exists.mp hsome
  exact ⟨c, hv.symm, fun host => hidles.load hload host h.holds h.ip h.dst_lt⟩

end Compiler

end LatencyOS
