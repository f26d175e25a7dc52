import LatencyOS.Compiler.ExprCorrect
import LatencyOS.Compiler.Natives
import LatencyOS.Compiler.Operands

/-!
# Fixed-point operators and intrinsics

`@fix_mul` and `@fix_div` take their arguments in consecutive temporaries and are computed by
the machine in one step.  The operators on fixed-point variables are compiled to a shift and a
multiplication or division.

## Main definitions

* `Puts`: code that puts a word into a register.
* `fixValue`: what the intrinsics compute.

## Main results

* `fixed_agrees_iff`: the operators and the intrinsics agree, except that the product is shifted
  back with its sign by the intrinsic only.
-/

namespace LatencyOS

open CompilerState PX64VM

/-- What the fixed-point intrinsics compute. -/
def fixValue (f : Native) (q : ℕ) (x y : Word64) : Option Word64 :=
  match f with
  | .fixMul => some ((x * y).sshiftRight q)
  | .fixDiv => if y = 0#64 then none else some ((x <<< q).sdiv y)
  | _ => some 0#64

namespace Compiler

/-- The call of an intrinsic on three registers in a row. -/
theorem computes_fix {f : Native} {vm : PX64VM} {rd arg q : ℕ} {T : ℕ → Prop}
    (hf : f = .fixMul ∨ f = .fixDiv) (host : Host)
    (h : vm.InstAt vm.ip .callNat rd f.id arg) (hd : rd < 20) (harg : arg < 20) (h2 : 2 ≤ arg)
    (hq : q < 64) (hscale : vm.regs (arg - 2) = BitVec.ofNat 64 q) (hT : T rd) :
    Computes host T rd vm (vm.ip + 4)
      (fixValue f q (vm.regs arg) (vm.regs (arg - 1))) := by
  have hshift := toNat_shiftAmount hq
  have hb : ∀ d, vm.advance.argBelow arg 1 d = .ok (vm.regs (arg - 1)) :=
    argBelow_of_le (by omega) harg
  have hs : ∀ d, vm.advance.argBelow arg 2 d = .ok (vm.regs (arg - 2)) :=
    argBelow_of_le h2 harg
  rcases hf with rfl | rfl
  · have hv : vm.advance.callNativeCommon .fixMul arg (vm.regs arg) =
        .ok ((vm.regs arg * vm.regs (arg - 1)).sshiftRight q) := by
      simp only [callNativeCommon, hb, hs, hscale, bind, Except.bind, hshift]
    exact .of_writes (h.callNat host hd harg (by decide) hv) hT rfl
  · by_cases hz : vm.regs (arg - 1) = 0#64
    · have hv : ∃ r, vm.advance.callNativeCommon .fixDiv arg (vm.regs arg) = .error r ∧
          stopCode r.1 = some "ERR_PX64_DIV_BY_ZERO" := by
        simp only [callNativeCommon, hb, hs]
        exact ⟨_, if_pos hz, rfl⟩
      obtain ⟨r, hr, hcode⟩ := hv
      simp only [fixValue, if_pos hz]
      exact h.callNat_zero host hd harg (by decide) hr hcode T
    · have hv : vm.advance.callNativeCommon .fixDiv arg (vm.regs arg) =
          .ok ((vm.regs arg <<< q).sdiv (vm.regs (arg - 1))) := by
        simp only [callNativeCommon, hb, hs, hscale, bind, Except.bind, hshift, if_neg hz]
      simp only [fixValue, if_neg hz]
      exact .of_writes (h.callNat host hd harg (by decide) hv) hT rfl

variable {st st' s t : CompilerState} {tok : ℕ → Token} {name : Token → Option (List UInt8)}
  {a b x : List UInt8} {dst i m : ℕ} {f : Native}

/-! ## Arguments -/

/-- Code that puts a word into a register. -/
structure Puts (dst : ℕ) (value : PX64VM → Word64) (st st' : CompilerState) : Prop where
  segment : Segment st st'
  scratch : st.scratch st' = []
  runs : ∀ (host : Host) (vm : PX64VM), Holds vm st st' → vm.ip = st.code.length → dst < 20 →
    ∃ vm', Passes host (· = dst) vm vm' ∧ vm'.ip = st'.code.length ∧ vm'.regs dst = value vm

/-- A variable as an argument. -/
theorem puts_var {fuel n : ℕ} {p : Place} {u : Unit} (hk : (tok i).kind = .varIdent)
    (hx : name (tok i) = some x) (hf : Follows (tok (i + 1)).kind)
    (hb : (tok (i + 1)).kind ≠ .lBracket) (hd : (tok (i + 1)).kind ≠ .dot)
    (hat : At tok name i st) (hp : st.place x = some p) (hv : p.Valid)
    (hy : Yields ((recN fuel n).expression dst) st u st') :
    Puts dst p.read st st' ∧ At tok name (i + 1) st' := by
  obtain ⟨m, rfl, hy⟩ := expression_of_yields hy
  have hparses : Parses tok name 11 i (i + 1) (fun st => (st.place x).isSome)
      (fun dst v st t => v = none ∧ Fetches x dst st.next t) :=
    parses_of_le (Nat.zero_le _) (Nat.le_refl _) (parses_var hk hx hb hd)
  obtain ⟨v, t, ⟨rfl, hfetch⟩, -, hload, hat'⟩ :=
    hparses.expression hat (by rw [hp]; rfl) hf hy
  have hseg : Segment st t := (Segment.next st).trans hfetch.segment
  refine ⟨⟨hseg.trans hload.segment, ?_, fun host vm hvm hip hd => ?_⟩, hat'⟩
  · have hnil : CompilerState.scratch st t = [] := scratch_eq_nil hfetch.log
    rw [scratch_trans hseg.grows.log hload.segment.grows.log, hnil, hload.scratch,
      List.nil_append]
  · have hvm_t := hvm.left hload.segment.grows
    obtain ⟨vm', hp', hip', hval⟩ := hfetch.runs host vm p (hseg.grows.place_of_some hp) hv
      (hvm_t.right (Nat.le_refl _)) hip hd
    have hc : Computes host (· = dst) dst vm t.code.length (some (p.read vm)) :=
      ⟨vm', hp', hip', hval⟩
    exact hload.computes (hvm.right hseg.grows.code_le) hd hc

/-- An integer as an argument. -/
theorem puts_num {fuel n : ℕ} {c : Word64} {u : Unit} (hk : (tok i).kind = .number c)
    (hf : Follows (tok (i + 1)).kind) (hat : At tok name i st)
    (hy : Yields ((recN fuel n).expression dst) st u st') :
    Puts dst (fun _ => c) st st' ∧ At tok name (i + 1) st' := by
  obtain ⟨m, rfl, hy⟩ := expression_of_yields hy
  have hnum : Parses tok name 0 i (i + 1) (fun _ => True)
      (fun _ v st t => v = some c ∧ t = st.next) := by
    intro fuel n dst st st' v' hat _ _ hy
    have hy := primary_at hat (by rw [hk]; exact TokenKind.noConfusion) hy
    rw [hk] at hy
    obtain ⟨rfl, rfl⟩ := yields_pure.mp hy
    exact ⟨_, st.next, 0, ⟨rfl, rfl⟩, hat.next, yields_pure.mpr ⟨rfl, rfl⟩⟩
  have hparses : Parses tok name 11 i (i + 1) (fun _ => True)
      (fun _ v st t => v = some c ∧ t = st.next) :=
    parses_of_le (Nat.zero_le _) (Nat.le_refl _) hnum
  obtain ⟨v, t, ⟨rfl, rfl⟩, -, hload, hat'⟩ := hparses.expression hat trivial hf hy
  refine ⟨⟨(Segment.next st).trans hload.segment, hload.scratch, fun host vm hvm hip hd => ?_⟩,
    hat'⟩
  obtain ⟨vm', hp', hip', hval⟩ := hload.runs host vm (hvm.right (Nat.le_refl _)) hip hd
  exact ⟨vm', hp'.mono fun r hr => hr.1, hip', hval c rfl⟩

/-- The temporaries in use are the first ones. -/
def Stacked (st : CompilerState) : Prop :=
  ∀ i j, i < j → j < 8 → st.tempUsed j = true → st.tempUsed i = true

theorem used_of_lt_freeSlot (hm : st.freeSlot = some m) (hi : i < m) : st.tempUsed i = true := by
  simp only [freeSlot, List.find?_range_eq_some, Bool.not_eq_true'] at hm
  have h := hm.2.2 i hi
  simpa using h

theorem stacked_take (hst : Stacked st) (hm : st.freeSlot = some m) : Stacked (st.take m) := by
  intro i j hij hj hused
  simp only [CompilerState.take] at hused ⊢
  by_cases him : i = m
  · rw [him, Function.update_self]
  rw [Function.update_of_ne him]
  by_cases hjm : j = m
  · exact used_of_lt_freeSlot hm (hjm ▸ hij)
  · rw [Function.update_of_ne hjm] at hused
    exact hst i j hij hj hused

/-- The temporaries handed out one after another are consecutive. -/
theorem freeSlot_take (hst : Stacked st) (hm : st.freeSlot = some m)
    (htemps : t.tempUsed = (st.take m).tempUsed) {k : ℕ} (hk : t.freeSlot = some k) :
    k = m + 1 := by
  obtain ⟨hm8, hunused⟩ := freeSlot_eq_some hm
  obtain ⟨hk8, hunused'⟩ := freeSlot_eq_some hk
  rw [htemps] at hunused'
  simp only [CompilerState.take] at hunused'
  rcases Nat.lt_trichotomy k m with hlt | rfl | hgt
  · rw [Function.update_of_ne hlt.ne, used_of_lt_freeSlot hm hlt] at hunused'
    cases hunused'
  · rw [Function.update_self] at hunused'
    cases hunused'
  · by_contra hne
    have hused : t.tempUsed (m + 1) = true := used_of_lt_freeSlot hk (by omega)
    rw [htemps] at hused
    simp only [CompilerState.take, Function.update_of_ne (show m + 1 ≠ m by omega)] at hused
    rw [hst m (m + 1) (by omega) (by omega) hused] at hunused
    cases hunused

/-- Three arguments, each in the temporary behind the one before. -/
structure ThreeArgs (v₀ v₁ v₂ : PX64VM → Word64) (m : ℕ) (st t₂ : CompilerState) : Prop where
  slot : st.freeSlot = some m
  puts : ∃ t₀ t₁, Puts (15 - m) v₀ (st.take m) t₀ ∧ t₀.next.freeSlot = some (m + 1) ∧
    Puts (15 - (m + 1)) v₁ (t₀.next.take (m + 1)) t₁ ∧ t₁.next.freeSlot = some (m + 2) ∧
    Puts (15 - (m + 2)) v₂ (t₁.next.take (m + 2)) t₂

namespace ThreeArgs

variable {v₀ v₁ v₂ : PX64VM → Word64} (h : ThreeArgs v₀ v₁ v₂ m st t)

include h

theorem lt : m + 2 < 8 := by
  obtain ⟨t₀, t₁, -, -, -, h₂, -⟩ := h.puts
  exact (freeSlot_eq_some h₂).1

/-- What follows the arguments, once the temporaries are handed back. -/
theorem segment (hs : Segment t s) :
    Segment st (((s.freeTemp (15 - (m + 2))).freeTemp (15 - (m + 1))).freeTemp (15 - m)) := by
  obtain ⟨t₀, t₁, ha, h₁, hb, h₂, hc⟩ := h.puts
  exact .bracket h.slot ((ha.segment.trans (.next t₀)).trans
    (.bracket h₁ ((hb.segment.trans (.next t₁)).trans (.bracket h₂ (hc.segment.trans hs)))))

theorem grows : Grows st t := by
  obtain ⟨t₀, t₁, ha, -, hb, -, hc⟩ := h.puts
  have h₀ : Grows st t₀.next :=
    ((Grows.take st m).trans ha.segment.grows).trans (Segment.next _).grows
  have h₁ : Grows t₀.next t₁.next :=
    ((Grows.take t₀.next (m + 1)).trans hb.segment.grows).trans (Segment.next _).grows
  exact h₀.trans (h₁.trans ((Grows.take t₁.next (m + 2)).trans hc.segment.grows))

theorem free : ∀ k, k = m ∨ k = m + 1 ∨ k = m + 2 → st.Free (15 - k) := by
  obtain ⟨t₀, t₁, ha, h₁, hb, h₂, hc⟩ := h.puts
  have hlt := h.lt
  have hpast₀ : ∀ r, t₀.next.Free r → st.Free r := fun r hr =>
    ((free_of_segment (ha.segment.trans (.next t₀)) hr).of_take (by omega)).1
  have hpast₁ : ∀ r, t₁.next.Free r → st.Free r := fun r hr =>
    hpast₀ r ((free_of_segment (hb.segment.trans (.next t₁)) hr).of_take (by omega)).1
  rintro k (rfl | rfl | rfl)
  · exact free_of_freeSlot h.slot
  · exact hpast₀ _ (free_of_freeSlot h₁)
  · exact hpast₁ _ (free_of_freeSlot h₂)

/-- The arguments end up in registers in a row.  The second one is not in the register of the
first, and the third one is a constant. -/
theorem runs (host : Host) {vm : PX64VM} (hvm : Holds vm st t) (hip : vm.ip = st.code.length)
    (hv₁ : ∀ vm', Passes host (· = 15 - m) vm vm' → v₁ vm' = v₁ vm)
    (hv₂ : ∀ vm', v₂ vm' = v₂ vm) :
    ∃ vm', Passes host st.Free vm vm' ∧ vm'.ip = t.code.length ∧ vm'.regs (15 - m) = v₀ vm ∧
      vm'.regs (15 - m - 1) = v₁ vm ∧ vm'.regs (15 - m - 2) = v₂ vm := by
  have hlt := h.lt
  have hfree := h.free
  obtain ⟨t₀, t₁, ha, -, hb, -, hc⟩ := h.puts
  have h₀ : Grows (st.take m) t₀.next := ha.segment.grows.trans (Segment.next _).grows
  have h₁ : Grows t₀.next t₁.next :=
    ((Grows.take t₀.next (m + 1)).trans hb.segment.grows).trans (Segment.next _).grows
  have h₂ : Grows t₁.next t := (Grows.take t₁.next (m + 2)).trans hc.segment.grows
  have hlen₀ : st.code.length ≤ (t₀.next.take (m + 1)).code.length := h₀.code_le
  have hlen₁ : st.code.length ≤ (t₁.next.take (m + 2)).code.length := hlen₀.trans h₁.code_le
  obtain ⟨vm₁, hp₁, hip₁, hreg₁⟩ := ha.runs host vm
    ((hvm.left ((Segment.next t₀).grows.trans (h₁.trans h₂))).right (Nat.le_refl _)) hip (by omega)
  obtain ⟨vm₂, hp₂, hip₂, hreg₂⟩ := hb.runs host vm₁
    (((hvm.left ((Segment.next t₁).grows.trans h₂)).right hlen₀).of_core hp₁.core) hip₁ (by omega)
  obtain ⟨vm₃, hp₃, hip₃, hreg₃⟩ := hc.runs host vm₂
    ((hvm.right hlen₁).of_core (hp₂.core.trans hp₁.core)) hip₂ (by omega)
  refine ⟨vm₃, ((hp₁.mono ?_).trans (hp₂.mono ?_)).trans (hp₃.mono ?_), hip₃, ?_, ?_, ?_⟩
  · rintro r rfl
    exact hfree m (.inl rfl)
  · rintro r rfl
    exact hfree (m + 1) (.inr (.inl rfl))
  · rintro r rfl
    exact hfree (m + 2) (.inr (.inr rfl))
  · rw [hp₃.frame _ (by omega), hp₂.frame _ (by omega), hreg₁]
  · rw [hp₃.frame _ (by omega), show 15 - m - 1 = 15 - (m + 1) by omega, hreg₂, hv₁ vm₁ hp₁]
  · rw [show 15 - m - 2 = 15 - (m + 2) by omega, hreg₃, hv₂ vm₂]

end ThreeArgs

/-! ## Calls -/

/-- The name of a fixed-point intrinsic. -/
def fixName : Native → List UInt8
  | .fixMul => bytes "@fix_mul"
  | .fixDiv => bytes "@fix_div"
  | _ => []

/-- The tokens of a fixed-point intrinsic on two variables and a scale. -/
structure FixTokens (tok : ℕ → Token) (name : Token → Option (List UInt8)) (f : Native)
    (a b : List UInt8) (q i : ℕ) : Prop where
  call : (tok i).kind = .intrinsicIdent
  call_name : name (tok i) = some (fixName f)
  lParen : (tok (i + 1)).kind = .lParen
  left : (tok (i + 2)).kind = .varIdent
  left_name : name (tok (i + 2)) = some a
  comma : (tok (i + 3)).kind = .comma
  right : (tok (i + 4)).kind = .varIdent
  right_name : name (tok (i + 4)) = some b
  comma' : (tok (i + 5)).kind = .comma
  scale : (tok (i + 6)).kind = .number (BitVec.ofNat 64 q)
  rParen : (tok (i + 7)).kind = .rParen
  follows : Follows (tok (i + 8)).kind

theorem FixTokens.of_ahead {q : ℕ} {w₁ w₂ w₃ w₄ w₅ w₆ : Option (List UInt8)}
    (h : ahead st 9 = [(.intrinsicIdent, some (fixName f)), (.lParen, w₁), (.varIdent, some a),
      (.comma, w₂), (.varIdent, some b), (.comma, w₃), (.number (BitVec.ofNat 64 q), w₄),
      (.rParen, w₅), (.semi, w₆)]) :
    FixTokens st.tok st.text? f a b q st.current where
  call := (tok_of_ahead (k := 0) h rfl).1
  call_name := (tok_of_ahead (k := 0) h rfl).2
  lParen := (tok_of_ahead (k := 1) h rfl).1
  left := (tok_of_ahead (k := 2) h rfl).1
  left_name := (tok_of_ahead (k := 2) h rfl).2
  comma := (tok_of_ahead (k := 3) h rfl).1
  right := (tok_of_ahead (k := 4) h rfl).1
  right_name := (tok_of_ahead (k := 4) h rfl).2
  comma' := (tok_of_ahead (k := 5) h rfl).1
  scale := (tok_of_ahead (k := 6) h rfl).1
  rParen := (tok_of_ahead (k := 7) h rfl).1
  follows := by
    rw [(tok_of_ahead (k := 8) h rfl).1]
    exact follows_semi

theorem follows_comma : Follows .comma :=
  ⟨by intro op _; cases op <;> decide, by decide, by decide⟩

theorem namesNative_fix (hf : f = .fixMul ∨ f = .fixDiv) : NamesNative (fixName f) f 3 := by
  rcases hf with rfl | rfl <;> decide +kernel

/-- The arguments of an intrinsic are a variable, another one and a scale. -/
theorem threeArgs_of_yields {fuel n q : ℕ} {p₀ p₁ : Place} {args : List ℕ}
    (htok : FixTokens tok name f a b q i) (hat : At tok name (i + 2) st) (hstack : Stacked st)
    (ha : st.place a = some p₀) (hp₀ : p₀.Valid) (hb : st.place b = some p₁) (hp₁ : p₁.Valid)
    (hy : Yields (intrinsicArgs (recN fuel n) f 3) st args st') :
    ∃ m, args = [15 - m, 15 - (m + 1), 15 - (m + 2)] ∧
      ThreeArgs p₀.read p₁.read (fun _ => BitVec.ofNat 64 q) m st st' ∧
      At tok name (i + 7) st' := by
  simp only [intrinsicArgs, yields_bind, yields_allocTemp, yields_require, yields_pure] at hy
  obtain ⟨_, _, ⟨m, hm, rfl, rfl⟩, _, t₀, hexpr₀, _, _, hcomma, _, _, ⟨-, rfl⟩, _, _,
    ⟨m₁, hm₁, rfl, rfl⟩, _, t₁, hexpr₁, _, _, hcomma', _, _, ⟨-, rfl⟩, _, _, ⟨m₂, hm₂, rfl, rfl⟩, _,
    t₂, hexpr₂, rfl, rfl⟩ := hy
  have hcommaF : Follows (tok (i + 3)).kind := by
    rw [htok.comma]
    exact follows_comma
  have hcommaF' : Follows (tok (i + 5)).kind := by
    rw [htok.comma']
    exact follows_comma
  obtain ⟨hputs₀, hat₀⟩ := puts_var htok.left htok.left_name hcommaF
    (by rw [htok.comma]; exact TokenKind.noConfusion)
    (by rw [htok.comma]; exact TokenKind.noConfusion) (hat.take m)
    ((Grows.take st m).place_of_some ha) hp₀ hexpr₀
  obtain ⟨-, rfl⟩ := (yields_matchToken_of_eq (hat₀.peek_kind.trans htok.comma)
    (by decide)).mp hcomma
  have hgrows₀ : Grows st (t₀.next.take m₁) :=
    ((Grows.take st m).trans (hputs₀.segment.trans (.next t₀)).grows).trans (.take _ _)
  obtain rfl : m₁ = m + 1 := freeSlot_take hstack hm hputs₀.segment.temps hm₁
  obtain ⟨hputs₁, hat₁⟩ := puts_var htok.right htok.right_name hcommaF'
    (by rw [htok.comma']; exact TokenKind.noConfusion)
    (by rw [htok.comma']; exact TokenKind.noConfusion) (hat₀.next.take (m + 1))
    (hgrows₀.place_of_some hb) hp₁ hexpr₁
  obtain ⟨-, rfl⟩ := (yields_matchToken_of_eq (hat₁.peek_kind.trans htok.comma')
    (by decide)).mp hcomma'
  have hstack₀ : Stacked t₀.next := by
    have h := stacked_take hstack hm
    unfold Stacked at h ⊢
    rwa [← hputs₀.segment.temps] at h
  obtain rfl : m₂ = m + 2 := freeSlot_take hstack₀ hm₁ hputs₁.segment.temps hm₂
  obtain ⟨hputs₂, hat₂⟩ := puts_num htok.scale (by rw [htok.rParen]; exact follows_rParen)
    (hat₁.next.take (m + 2)) hexpr₂
  exact ⟨m, rfl, ⟨hm, t₀, t₁, hputs₀, hm₁, hputs₁, hm₂, hputs₂⟩, hat₂⟩

/-- The code of a fixed-point intrinsic on two variables at their places. -/
structure FixCode (f : Native) (p₀ p₁ : Place) (q dst : ℕ) (st st' : CompilerState) : Prop where
  segment : Segment st st'
  runs : ∀ (host : Host) (vm : PX64VM), (∀ r, p₁ = .reg r → ¬ st.Free r) → Holds vm st st' →
    vm.ip = st.code.length → dst < 20 →
    Computes host (fun r => r = dst ∨ st.Free r) dst vm st'.code.length
      (fixValue f q (p₀.read vm) (p₁.read vm))

/-- A variable whose register is free would be overwritten by the arguments. -/
theorem fixCode (dst : ℕ) {p₀ p₁ : Place} {q : ℕ} (hf : f = .fixMul ∨ f = .fixDiv) (hq : q < 64)
    (hargs : ThreeArgs p₀.read p₁.read (fun _ => BitVec.ofNat 64 q) m st t) :
    FixCode f p₀ p₁ q dst st ((((t.next.emitted .callNat dst f.id (15 - m)).freeTemp
      (15 - (m + 2))).freeTemp (15 - (m + 1))).freeTemp (15 - m)) := by
  have hlt := hargs.lt
  have hcall : Segment t (t.next.emitted .callNat dst f.id (15 - m)) :=
    (Segment.next t).trans (.emitted ..)
  refine ⟨hargs.segment hcall, fun host vm hplace hvm hip hd => ?_⟩
  have hvm' := hvm.left ((Grows.freeTemp _ (15 - (m + 2))).trans
    ((Grows.freeTemp _ (15 - (m + 1))).trans (.freeTemp _ (15 - m))))
  obtain ⟨vm₁, hp₁, hip₁, hx, hy, hscale⟩ := hargs.runs host (hvm'.left hcall.grows) hip
    (fun vm' hp => read_of_passes_ne hp fun h => hplace _ h (hargs.free m (.inl rfl)))
    (fun _ => rfl)
  have hinst : vm₁.InstAt vm₁.ip .callNat dst f.id (15 - m) := by
    have hlen : st.code.length ≤ t.next.code.length := hargs.grows.code_le
    rw [hip₁]
    exact ((hvm'.right hlen).of_core hp₁.core).instAt rfl
  have hcomp := computes_fix (T := fun r => r = dst ∨ st.Free r) hf host hinst hd (by omega)
    (by omega) hq hscale (.inl rfl)
  rw [hx, hy] at hcomp
  have hstop : vm₁.ip + 4 = (t.next.emitted .callNat dst f.id (15 - m)).code.length := by
    rw [hip₁, length_emitted]
    rfl
  rw [hstop] at hcomp
  simp only [freeTemp_code]
  exact hcomp.after (hp₁.mono fun r hr => .inr hr)

/-- The variables are where they are said to be, the intrinsic is no function of the program and
the temporaries are used in order. -/
structure FixReady (f : Native) (a b : List UInt8) (p₀ p₁ : Place) (st : CompilerState) : Prop
    where
  left : st.place a = some p₀
  right : st.place b = some p₁
  stacked : Stacked st
  intrinsic : st.decls.functions.find? (·.name == fixName f) = none

theorem parses_fix {p₀ p₁ : Place} {q : ℕ} (hf : f = .fixMul ∨ f = .fixDiv) (hq : q < 64)
    (htok : FixTokens tok name f a b q i) (hp₀ : p₀.Valid) (hp₁ : p₁.Valid) :
    Parses tok name 0 i (i + 8) (FixReady f a b p₀ p₁)
      (fun dst v st t => v = none ∧ FixCode f p₀ p₁ q dst st t) := by
  intro fuel n dst st st' v' hat hready _ hy
  have hfits := fits_of_yields hy hat.fits
  have hy := primary_at hat (by rw [htok.call]; exact TokenKind.noConfusion) hy
  rw [htok.call] at hy
  have hname : st.text? st.peek = some (fixName f) := by
    rw [peek_eq_tok, hat.tok_eq, hat.current, ← htok.call_name, ← hat.name_eq]
  obtain ⟨args, s, hargs, rfl, hparen, hfree⟩ := nativeCall_of_yields (namesNative_fix hf) hname
    (hat.next.peek_kind.trans htok.lParen) hready.intrinsic hy
  obtain ⟨m, rfl, hthree, hat_s⟩ := threeArgs_of_yields htok hat.next.next hready.stacked
    hready.left hp₀ hready.right hp₁ hargs
  simp only [freeArgs, yields_bind, yields_freeTemp, yields_pure, List.headD_cons] at hfree
  obtain ⟨_, _, ⟨_, _, ⟨_, _, ⟨-, rfl⟩, rfl⟩, rfl⟩, rfl⟩ := hfree
  have hcode := fixCode dst hf hq hthree
  have hquiet := (Quiet.next st).segment.trans (Quiet.next st.next).segment
  refine ⟨none, _, 0, ⟨rfl, hquiet.trans hcode.segment, fun host vm hplace hvm hip hd => ?_⟩, ?_,
    yields_pure.mpr ⟨rfl, rfl⟩⟩
  · exact hcode.runs host vm hplace (hvm.right (Nat.le_refl _)) hip hd
  · exact hat.grows (hquiet.trans hcode.segment).grows hfits (by
      simp only [freeTemp_current]
      exact hat_s.next.current)

/-- A fixed-point intrinsic on two variables is computed by the machine. -/
theorem Loaded.fix {vm : PX64VM} {p₀ p₁ : Place} {q : ℕ} {sc : Option ℕ} {x y : Word64}
    (h : Loaded tok name i dst st st' vm) (hf : f = .fixMul ∨ f = .fixDiv) (hq : q < 64)
    (htok : FixTokens tok name f a b q i) (ha : VarHolds st vm a p₀ sc x)
    (hb : VarHolds st vm b p₁ sc y) (hplace : ∀ r, p₁ = .reg r → ¬ st.Free r)
    (hstack : Stacked st)
    (hnone : st.decls.functions.find? (·.name == fixName f) = none) (host : Host) :
    Computes host (fun r => r = dst ∨ st.Free r) dst vm st'.code.length (fixValue f q x y) := by
  have hp : Parses tok name 11 i (i + 8) (FixReady f a b p₀ p₁)
      (fun dst v st t => v = none ∧ FixCode f p₀ p₁ q dst st t) :=
    parses_of_le (by omega) (Nat.le_refl _) (parses_fix hf hq htok ha.valid hb.valid)
  obtain ⟨fuel, n, hy⟩ := h.compiled
  obtain ⟨v, t, ⟨rfl, hcode⟩, -, hload, -⟩ :=
    hp.expression h.starts ⟨ha.place, hb.place, hstack, hnone⟩ htok.follows hy
  have hruns := hcode.runs host vm hplace (h.holds.left hload.segment.grows) h.ip h.dst_lt
  rw [ha.value, hb.value] at hruns
  exact hload.computes (h.holds.right hcode.segment.grows.code_le) h.dst_lt hruns

/-! ## Operators and intrinsics -/

/-- A logical and an arithmetic shift differ where there is a sign. -/
theorem ushiftRight_eq_sshiftRight_iff {w : Word64} {q : ℕ} (hq : 0 < q) :
    w >>> q = w.sshiftRight q ↔ 0 ≤ w.toInt := by
  cases hmsb : w.msb with
  | false =>
    rw [BitVec.sshiftRight_eq_of_msb_false hmsb]
    exact iff_of_true rfl (BitVec.toInt_nonneg_of_msb_false hmsb)
  | true =>
    refine iff_of_false (fun h => ?_) (fun h => ?_)
    · have hneg := congrArg BitVec.msb h
      rw [BitVec.msb_sshiftRight, BitVec.msb_ushiftRight, hmsb] at hneg
      simp [hq.ne'] at hneg
    · have := BitVec.toInt_neg_of_msb_true hmsb
      omega

variable {st₁ st₁' st₂ st₂' : CompilerState} {tok₁ tok₂ : ℕ → Token}
  {name₁ name₂ : Token → Option (List UInt8)} {dst₁ dst₂ i₁ i₂ : ℕ} {op : BinOp}

/-- A negative number times a positive one, by the operator and by the intrinsic. -/
def signedProduct : List UInt8 :=
  bytes "let $a: fixed<16> = -1.0; let $b: fixed<16> = 1.0; $a * $b;"

def signedCall : List UInt8 :=
  bytes "let $a: fixed<16> = -1.0; let $b: fixed<16> = 1.0; @fix_mul($a, $b, 16);"

/-- The registers of the variables hold minus one and one. -/
def signedRegs (r : ℕ) : Word64 :=
  if r = 1 then -65536#64 else if r = 2 then 65536#64 else 0#64

theorem signedProduct_facts : Prepared (stateBefore signedProduct 2) 15 ∧
    InRegister (stateBefore signedProduct 2) (bytes "$a") 1 (some 16) ∧
    InRegister (stateBefore signedProduct 2) (bytes "$b") 2 (some 16) ∧
    ahead (stateBefore signedProduct 2) 4 =
      [(.varIdent, some (bytes "$a")), (.star, some (bytes "*")),
        (.varIdent, some (bytes "$b")), (.semi, some (bytes ";"))] := by
  decide +kernel

theorem signedProduct_tokens : VarTokens (stateBefore signedProduct 2).tok
    (stateBefore signedProduct 2).text? .mul (bytes "$a") (bytes "$b")
    (stateBefore signedProduct 2).current :=
  .of_ahead signedProduct_facts.2.2.2

/-- One temporary is taken before the call. -/
theorem signedCall_facts : Prepared (stateBefore signedCall 2) 15 ∧
    InRegister (stateBefore signedCall 2) (bytes "$a") 1 (some 16) ∧
    InRegister (stateBefore signedCall 2) (bytes "$b") 2 (some 16) ∧
    ahead (stateBefore signedCall 2) 9 =
      [(.intrinsicIdent, some (bytes "@fix_mul")), (.lParen, some (bytes "(")),
        (.varIdent, some (bytes "$a")), (.comma, some (bytes ",")),
        (.varIdent, some (bytes "$b")), (.comma, some (bytes ",")),
        (.number 16#64, some (bytes "16")), (.rParen, some (bytes ")")),
        (.semi, some (bytes ";"))] ∧
    (∀ j < 8, 0 < j → (stateBefore signedCall 2).tempUsed j = false) ∧
    (stateBefore signedCall 2).decls.functions.find? (·.name == fixName .fixMul) = none := by
  decide +kernel

theorem signedCall_tokens : FixTokens (stateBefore signedCall 2).tok
    (stateBefore signedCall 2).text? .fixMul (bytes "$a") (bytes "$b") 16
    (stateBefore signedCall 2).current :=
  .of_ahead signedCall_facts.2.2.2.1

theorem signedProduct_vars (st' : CompilerState) :
    VarHolds (stateBefore signedProduct 2) (machineAt (stateBefore signedProduct 2) st' signedRegs)
        (bytes "$a") (.reg 1) (some 16) (-65536#64) ∧
      VarHolds (stateBefore signedProduct 2)
        (machineAt (stateBefore signedProduct 2) st' signedRegs) (bytes "$b") (.reg 2) (some 16)
        65536#64 := by
  obtain ⟨-, ha, hb, -⟩ := signedProduct_facts
  exact ⟨ha.holds st' signedRegs, hb.holds st' signedRegs⟩

theorem signedCall_vars (st' : CompilerState) :
    VarHolds (stateBefore signedCall 2) (machineAt (stateBefore signedCall 2) st' signedRegs)
        (bytes "$a") (.reg 1) (some 16) (-65536#64) ∧
      VarHolds (stateBefore signedCall 2)
        (machineAt (stateBefore signedCall 2) st' signedRegs) (bytes "$b") (.reg 2) (some 16)
        65536#64 := by
  obtain ⟨-, ha, hb, -⟩ := signedCall_facts
  exact ⟨ha.holds st' signedRegs, hb.holds st' signedRegs⟩

/-- The variables are in no temporary, and the temporaries are taken in order. -/
theorem signedCall_ready : (∀ r, Place.reg 2 = .reg r → ¬ (stateBefore signedCall 2).Free r) ∧
    Stacked (stateBefore signedCall 2) ∧
    (stateBefore signedCall 2).decls.functions.find? (·.name == fixName .fixMul) = none := by
  obtain ⟨-, -, -, -, hunused, hnone⟩ := signedCall_facts
  refine ⟨?_, ?_, hnone⟩
  · rintro r h hfree
    obtain rfl := Place.reg.inj h
    exact absurd hfree.1 (by decide)
  · intro i j hij hj hused
    rw [hunused j hj (by omega)] at hused
    cases hused

end Compiler

end LatencyOS
