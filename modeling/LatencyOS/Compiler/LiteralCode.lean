import LatencyOS.Compiler.Arms
import LatencyOS.Compiler.ExprCorrect

/-!
# The code of a literal pattern

A literal in front of an arrow is compiled as an expression of its own: whatever the level it is
parsed at, its code leaves the word in the register and uses free temporaries only.

## Main results

* `literal_of_yields`: the code of a literal pattern loads its word.
-/

namespace LatencyOS

open CompilerState PX64VM

namespace Compiler

variable {st st' t : CompilerState} {tok : ℕ → Token} {name : Token → Option (List UInt8)}
  {c : Word64} {dst i j : ℕ} {v : Option Word64} {α : Type} {a : α} {p : CompilerM α}

theorem follows_fatArrow : Follows .fatArrow :=
  ⟨by intro op _; cases op <;> decide, by decide, by decide⟩

/-- The pools grow. -/
theorem pools_of_yields (h : Yields p st a st') :
    st.constPool <+: st'.constPool ∧ st.strPool <+: st'.strPool :=
  Prog.run_rel perform (fun _ => ⟨List.prefix_rfl, List.prefix_rfl⟩)
    (fun h₁ h₂ => ⟨h₁.1.trans h₂.1, h₁.2.trans h₂.2⟩) (fun o _ _ _ => pools_perform o) p h

/-- Nothing is emitted, and no temporary is taken or handed back. -/
structure Still (st st' : CompilerState) : Prop where
  code : st'.code = st.code
  consts : st'.constPool = st.constPool
  temps : st'.tempUsed = st.tempUsed

theorem Still.refl (st : CompilerState) : Still st st := ⟨rfl, rfl, rfl⟩

theorem Still.trans (h₁ : Still st st') (h₂ : Still st' t) : Still st t :=
  ⟨h₂.code.trans h₁.code, h₂.consts.trans h₁.consts, h₂.temps.trans h₁.temps⟩

theorem still_next (st : CompilerState) : Still st st.next := ⟨rfl, rfl, rfl⟩

/-- A machine that holds the code up to a state holds it up to another one of the same code. -/
theorem Still.holds {vm : PX64VM} {s : CompilerState} (h : Still t st') (hvm : Holds vm s st') :
    Holds vm s t :=
  ⟨fun i h₁ h₂ => by rw [← h.code] at h₂ ⊢; exact hvm.code i h₁ h₂, h.consts ▸ hvm.consts⟩

theorem Still.free {r : ℕ} (h : Still st st') (hr : st'.Free r) : st.Free r :=
  ⟨hr.1, hr.2.1, h.temps ▸ hr.2.2⟩

/-- A machine that holds a longer code holds what comes first. -/
theorem left_of_prefix {vm : PX64VM} {s : CompilerState} (hvm : Holds vm s t)
    (hcode : st.code <+: t.code) (hconsts : st.constPool <+: t.constPool) : Holds vm s st where
  code := fun i h₁ h₂ => by
    obtain ⟨rest, hrest⟩ := hcode
    rw [hvm.code i h₁ (by rw [← hrest, List.length_append]; omega), ← hrest,
      List.getElem?_append_left h₂]
  consts := hconsts.trans hvm.consts

/-- The code of a literal: its word is still pending, or in the register. -/
structure LiteralCode (c : Word64) (dst : ℕ) (v : Option Word64) (st t : CompilerState) : Prop where
  code : st.code <+: t.code
  consts : st.constPool <+: t.constPool
  temps : t.tempUsed = st.tempUsed
  value : v = some c ∨ v = none
  runs : ∀ (host : Host) (vm : PX64VM), Holds vm st t → vm.ip = st.code.length → dst < 20 →
    ∃ vm', PassesIn host (fun r => r = dst ∨ st.Free r) st.code.length t.code.length vm vm' ∧
      vm'.ip = t.code.length ∧ (v = none → vm'.regs dst = c)

/-- Nothing is emitted before. -/
theorem LiteralCode.of_still {s : CompilerState} (h : LiteralCode c dst v s t) (hs : Still st s) :
    LiteralCode c dst v st t where
  code := hs.code ▸ h.code
  consts := hs.consts ▸ h.consts
  temps := h.temps.trans hs.temps
  value := h.value
  runs := fun host vm hvm hip hd => by
    obtain ⟨vm', hp, hip', hv⟩ := h.runs host vm ⟨fun i hi => hvm.code i (hs.code ▸ hi), hvm.consts⟩
      (hip.trans (congrArg List.length hs.code.symm)) hd
    exact ⟨vm', hp.mono (fun r hr => hr.imp_right hs.free)
      (Nat.le_of_eq (congrArg List.length hs.code.symm)) (Nat.le_refl _), hip', hv⟩

/-- Nothing is emitted behind. -/
theorem LiteralCode.still (h : LiteralCode c dst v st t) (ht : Still t st') :
    LiteralCode c dst v st st' where
  code := ht.code ▸ h.code
  consts := ht.consts ▸ h.consts
  temps := ht.temps.trans h.temps
  value := h.value
  runs := fun host vm hvm hip hd => by
    obtain ⟨vm', hp, hip', hv⟩ := h.runs host vm (ht.holds hvm) hip hd
    exact ⟨vm', ht.code ▸ hp, hip'.trans (congrArg List.length ht.code.symm), hv⟩

/-- No code at all. -/
theorem literalCode_next (c : Word64) (dst : ℕ) (st : CompilerState) :
    LiteralCode c dst (some c) st st.next :=
  ⟨List.prefix_rfl, List.prefix_rfl, rfl, .inl rfl, fun host vm _ hip _ =>
    ⟨vm, .refl host _ _ _ vm, hip, nofun⟩⟩

/-- One instruction that loads a word. -/
theorem Loads.literalCode (h : Loads st dst c t) (d : Word64) :
    LiteralCode d dst (some d) st t := by
  refine ⟨?_, h.segment.grows.consts, h.segment.temps, .inl rfl, fun host vm hvm hip hd => ?_⟩
  · obtain ⟨op, hi, lo, consts, rfl, -⟩ := h
    exact List.prefix_append _ _
  · obtain ⟨vm', hp, hip', -⟩ := h.writes hvm hip hd host
    have hend : vm'.ip = t.code.length := by rw [hip', hip, h.codeLen]
    exact ⟨vm', (PassesIn.of_short hp (Nat.le_of_eq hip')).mono (fun r => .inl)
      (Nat.le_of_eq hip.symm) (Nat.le_of_eq hend), hend, nofun⟩

/-! ## Numbers -/

/-- What the parser does at a number. -/
theorem number_of_yields {r : Rec} (hat : At tok name i st) (hnum : st.numberAt (tok i) = some c)
    (hy : Yields (levelAt r 0 dst) st v st') :
    v = some c ∧ At tok name (i + 1) st' ∧ LiteralCode c dst (some c) st st' := by
  rw [CompilerState.numberAt] at hnum
  split at hnum
  · next n hk =>
    obtain rfl := Option.some.inj hnum
    have hy := primary_at hat (by rw [hk]; exact TokenKind.noConfusion) hy
    rw [hk] at hy
    obtain ⟨rfl, rfl⟩ := yields_pure.mp hy
    exact ⟨rfl, hat.next, literalCode_next ..⟩
  · next n hk =>
    obtain rfl := Option.some.inj hnum
    have hy := primary_at hat (by rw [hk]; exact TokenKind.noConfusion) hy
    rw [hk] at hy
    obtain ⟨rfl, rfl⟩ := yields_pure.mp hy
    exact ⟨rfl, hat.next, literalCode_next ..⟩
  · next scaledVal fracDigits hk =>
    obtain rfl := Option.some.inj hnum
    have hy := primary_at hat (by rw [hk]; exact TokenKind.noConfusion) hy
    rw [hk] at hy
    simp only [floatLit, yields_bind, yields_get] at hy
    obtain ⟨_, _, ⟨rfl, rfl⟩, idx, s, hadd, pos, t, himm, _, u, hscale, hy⟩ := hy
    obtain ⟨rfl, rfl⟩ := yields_pure.mp hy
    have hload := loads_ldc hat.next.fits.pool hadd himm
    have hfits' := fits_of_yields himm (fits_of_yields hadd hat.next.fits)
    have hat' := hat.next.grows hload.segment.grows hfits'
      (hload.current.trans hat.next.current)
    obtain rfl := yields_modifyInfo.mp hscale
    refine ⟨rfl, ⟨hat'.tok_eq, hat'.name_eq, hat'.current, ⟨hat'.fits.code, hat'.fits.pool⟩⟩, ?_⟩
    exact ((hload.literalCode _).of_still (still_next st)).still ⟨rfl, rfl, rfl⟩
  · cases hnum

/-- A temporary that is handed back is free again. -/
theorem temps_freeTemp {m : ℕ} (hm : st.freeSlot = some m) (h : t.tempUsed = (st.take m).tempUsed) :
    (t.freeTemp (15 - m)).tempUsed = st.tempUsed := by
  obtain ⟨hm8, hused⟩ := freeSlot_eq_some hm
  rw [CompilerState.freeTemp, if_pos (by omega), show 15 - (15 - m) = m by omega]
  change Function.update t.tempUsed m false = st.tempUsed
  rw [h, CompilerState.take, Function.update_idem, ← hused, Function.update_eq_self]

/-- A number with a sign: the zero in front is loaded, though nothing uses it. -/
theorem negNumber_of_yields {fuel n : ℕ} (hat : At tok name i st) (hk : (tok i).kind = .minus)
    (hnum : st.numberAt (tok (i + 1)) = some c)
    (hy : Yields (levelAt (recN fuel n) 0 dst) st v st') :
    v = some (-c) ∧ At tok name (i + 2) st' ∧ LiteralCode (-c) dst (some (-c)) st st' := by
  have hy := primary_at hat (by rw [hk]; exact TokenKind.noConfusion) hy
  rw [hk] at hy
  simp only [negPrimary, yields_bind, yields_allocTemp] at hy
  obtain ⟨_, _, ⟨z, hz, rfl, rfl⟩, _, s, hconst, _, _, ⟨r, hr, rfl, rfl⟩, w, s', hprim, hy⟩ := hy
  have hat₁ := hat.next.take z
  have hload := loads_of_yields hat₁.fits.pool hconst
  have hat₂ := (hat₁.of_yields hconst hload.segment.grows hload.current).take r
  obtain ⟨n, rfl, hprim⟩ := primary_of_yields hprim
  have hinfo : (s.take r).info = st.info := hload.info
  have hnum' : (s.take r).numberAt (tok (i + 1)) = some c := by
    rw [CompilerState.numberAt, hinfo]
    exact hnum
  obtain ⟨rfl, hat₃, hcode⟩ := number_of_yields hat₂ hnum' hprim
  simp only [yields_bind, yields_freeTemp, yields_pure] at hy
  obtain ⟨_, _, rfl, _, _, rfl, d, t, hneg, rfl, rfl⟩ := hy
  obtain ⟨rfl, rfl⟩ := negLiteral_of_yields hneg
  have hz' := free_of_freeSlot hz
  have htake : ∀ x, (s.take r).Free x → st.Free x := by
    intro x hx
    have hs : s.Free x := (hx.of_take (freeSlot_eq_some hr).1).1
    have hs' : (st.next.take z).Free x :=
      ⟨hs.1, hs.2.1, by rw [← hload.segment.temps]; exact hs.2.2⟩
    exact (still_next st).free (hs'.of_take (freeSlot_eq_some hz).1).1
  have hr' : st.Free (15 - r) := by
    have hs : s.Free (15 - r) := free_of_freeSlot hr
    have hs' : (st.next.take z).Free (15 - r) :=
      ⟨hs.1, hs.2.1, by rw [← hload.segment.temps]; exact hs.2.2⟩
    exact (still_next st).free (hs'.of_take (freeSlot_eq_some hz).1).1
  have hload' : st.code <+: s.code := by
    obtain ⟨op, hi, lo, consts, rfl, -⟩ := hload
    exact List.prefix_append _ _
  refine ⟨rfl, (hat₃.freeTemp _).freeTemp _, ?_⟩
  refine ⟨?_, ?_, ?_, .inl rfl, fun host vm hvm hip hd => ?_⟩
  · rw [freeTemp_code, freeTemp_code]
    exact hload'.trans hcode.code
  · rw [freeTemp_constPool, freeTemp_constPool]
    exact hload.segment.grows.consts.trans hcode.consts
  · refine temps_freeTemp (show st.next.freeSlot = some _ from hz) ?_
    rw [temps_freeTemp hr hcode.temps]
    exact hload.segment.temps
  · have hvm' : Holds vm st.next s' := ⟨fun i hi hlt => by
      have := hvm.code i hi (by rwa [freeTemp_code, freeTemp_code])
      rwa [freeTemp_code, freeTemp_code] at this, by
      have := hvm.consts
      rwa [freeTemp_constPool, freeTemp_constPool] at this⟩
    have hvm₁ : Holds vm st.next s := left_of_prefix hvm' hcode.code hcode.consts
    obtain ⟨vm₁, hp₁, hip₁, -⟩ := hload.writes ⟨hvm₁.code, hvm₁.consts⟩ hip (by omega) host
    have hvm₂ : Holds vm₁ (s.take r) s' := (hvm'.right (b := s.take r) hload'.length_le).of_core
      hp₁.core
    have hip₂ : vm₁.ip = (s.take r).code.length := by
      change vm₁.ip = s.code.length
      rw [hip₁, hip, hload.codeLen]
      rfl
    obtain ⟨vm₂, hp₂, hip₃, -⟩ := hcode.runs host vm₁ hvm₂ hip₂ (by omega)
    rw [freeTemp_code, freeTemp_code]
    have hlen : st.code.length + 4 = s.code.length := hload.codeLen.symm
    have hle : s.code.length ≤ s'.code.length := hcode.code.length_le
    have hip' : vm.ip = st.code.length := hip
    refine ⟨vm₂, ((PassesIn.of_short hp₁ (Nat.le_of_eq hip₁)).mono (fun x hx => .inr (hx ▸ hz'))
      (by omega) (by omega)).trans (hp₂.mono (fun x hx => ?_) (by omega) (Nat.le_refl _)), hip₃,
      nofun⟩
    rcases hx with rfl | hx
    · exact .inr hr'
    · exact .inr (htake x hx)

/-! ## Strings -/

/-- What the loading of a reference leaves alone. -/
theorem emitStr_of_yields {offset len : ℕ} {u : Unit} (h : Yields (emitStr dst offset len) st u st')
    (hpool : st.constPool.length ≤ maxConstPool) :
    st'.src = st.src ∧ st'.tokens = st.tokens ∧ st'.current = st.current ∧
      st'.tempUsed = st.tempUsed := by
  rw [emitStr] at h
  split at h
  · obtain ⟨-, rfl⟩ := yields_emit.mp h
    exact ⟨rfl, rfl, rfl, rfl⟩
  · obtain ⟨op, hi, lo, consts, rfl, -⟩ := loads_of_yields hpool h
    exact ⟨rfl, rfl, rfl, rfl⟩

/-- What the compilation of a string leaves alone. -/
theorem stringLit_of_yields {tok : Token} (hpool : st.constPool.length ≤ maxConstPool)
    (h : Yields (stringLit tok dst) st v st') :
    v = none ∧ st'.src = st.src ∧ st'.tokens = st.tokens ∧ st'.current = st.current ∧
      st'.tempUsed = st.tempUsed := by
  simp only [stringLit, yields_bind, yields_get, yields_require] at h
  obtain ⟨raw, st, hraw, _, _, ⟨rfl, rfl⟩, _, st, ⟨hroom, rfl⟩, h⟩ := h
  obtain ⟨-, rfl⟩ := yields_stringText.mp hraw
  rw [decide_eq_true_eq] at hroom
  split at h
  · obtain ⟨_, _, hemit, h⟩ := yields_bind.mp h
    obtain ⟨rfl, rfl⟩ := yields_pure.mp h
    exact ⟨rfl, emitStr_of_yields hemit hpool⟩
  · obtain ⟨_, t, happ, h⟩ := yields_bind.mp h
    obtain ⟨_, _, hemit, h⟩ := yields_bind.mp h
    obtain ⟨rfl, rfl⟩ := yields_pure.mp h
    rw [Yields, Prog.run_op, perform, appendStr, if_neg (Nat.not_lt.mpr hroom)] at happ
    cases happ
    have hkept := emitStr_of_yields hemit hpool
    exact ⟨rfl, hkept⟩

/-- What the parser does at a string. -/
theorem string_of_yields {r : Rec} {s : List UInt8} (hat : At tok name i st)
    (hk : (tok i).kind = .stringLit) (hs : st.literal? (tok i) = some s)
    (hy : Yields (levelAt r 0 dst) st v st') :
    v = none ∧ At tok name (i + 1) st' ∧
      LiteralCode (loadedWord (st.poolOffset s) s.length) dst none st st' := by
  have hy := primary_at hat (by rw [hk]; exact TokenKind.noConfusion) hy
  rw [hk] at hy
  change Yields (stringLit st.peek dst) st.next v st' at hy
  have htok : st.peek = tok i := by rw [peek_eq_tok, hat.tok_eq, hat.current]
  rw [htok] at hy
  obtain ⟨rfl, hsrc, htokens, hcur, htemps⟩ := stringLit_of_yields hat.next.fits.pool hy
  obtain ⟨s', hs', hload⟩ := loadsLiteral_of_yields hat.next.fits.pool hy
  obtain rfl : s = s' := Option.some.inj (hs.symm.trans hs')
  have hfits := fits_of_yields hy hat.next.fits
  refine ⟨rfl, ⟨?_, ?_, hcur.trans hat.next.current, hfits⟩, ?_⟩
  · rw [← hat.tok_eq]
    funext k
    simp only [CompilerState.tok, htokens]
    rfl
  · rw [← hat.name_eq]
    funext k
    simp only [CompilerState.text?, hsrc]
    rfl
  · obtain ⟨op, hi, lo, -, hcode⟩ := hload.inst
    refine ⟨?_, (pools_of_yields hy).1, htemps, .inr rfl, fun host vm hvm hip hd => ?_⟩
    · rw [hcode]
      exact List.prefix_append _ _
    · obtain ⟨vm', hp, hip', hval⟩ := hload.writes host vm ⟨hvm.code, hvm.consts⟩ hip hd
      have hend : vm'.ip = st'.code.length := by
        rw [hip', hip, hcode, List.length_append, length_instBytes]
        rfl
      exact ⟨vm', (PassesIn.of_short hp (Nat.le_of_eq hip')).mono (fun r => .inl)
        (Nat.le_of_eq hip.symm) (Nat.le_of_eq hend), hend, fun _ => hval⟩

/-! ## Expressions -/

/-- Code that is only added is a prefix. -/
theorem code_prefix_of_grows (h : Grows st st') : st.code <+: st'.code :=
  List.prefix_iff_getElem?.mpr fun i hi => by rw [h.code i hi, List.getElem?_eq_getElem hi]

/-- What is pending takes one instruction at most. -/
theorem length_emitPending {u : Unit} (hpool : t.constPool.length ≤ maxConstPool)
    (h : Yields (emitPending dst v) t u st') : st'.code.length ≤ t.code.length + 4 := by
  cases v with
  | none =>
    obtain ⟨-, rfl⟩ := yields_pure.mp h
    exact Nat.le_add_right _ _
  | some d => exact Nat.le_of_eq (loads_of_yields hpool h).codeLen

/-- What is still pending is loaded. -/
theorem LiteralCode.load {u : Unit} (h : LiteralCode c dst v st t)
    (hpool : t.constPool.length ≤ maxConstPool) (hy : Yields (emitPending dst v) t u st') :
    LiteralCode c dst none st st' := by
  have hload := pending_of_yields hpool hy
  have hlen := length_emitPending hpool hy
  have hle := h.code.length_le
  refine ⟨h.code.trans (code_prefix_of_grows hload.segment.grows),
    h.consts.trans hload.segment.grows.consts, hload.segment.temps.trans h.temps, .inr rfl,
    fun host vm hvm hip hd => ?_⟩
  obtain ⟨vm₁, hp₁, hip₁, hv₁⟩ := h.runs host vm (hvm.left hload.segment.grows) hip hd
  obtain ⟨vm₂, hp₂, hip₂, hv₂⟩ := hload.runs host vm₁
    ((hvm.right h.code.length_le).of_core hp₁.core) hip₁ hd
  have hin := PassesIn.of_short hp₂ (by rw [hip₁, hip₂]; exact hlen)
  refine ⟨vm₂, (hp₁.mono (fun _ => id) (Nat.le_refl _) ?_).trans
    (hin.mono (fun r hr => .inl hr.1) ?_ (Nat.le_of_eq hip₂)), hip₂, fun _ => ?_⟩
  · exact (code_prefix_of_grows hload.segment.grows).length_le
  · rw [hip₁]
    exact hle
  · rcases h.value with rfl | rfl
    · exact hv₂ c rfl
    · rw [hp₂.frame dst fun hr => by cases hr.2]
      exact hv₁ rfl

/-- A literal is compiled alike by every level of the parser. -/
theorem literal_expression {fuel n : ℕ} {u : Unit}
    (hprim : ∀ {fuel n dst : ℕ} {t : CompilerState} {v : Option Word64},
      Yields (levelAt (recN fuel n) 0 dst) st v t →
        At st.tok st.text? j t ∧ LiteralCode c dst v st t)
    (hfits : Fits st) (hj : (st.tok j).kind = .fatArrow)
    (hy : Yields (Compiler.expression (recN fuel n) dst) st u st') :
    LiteralCode c dst none st st' := by
  have hat : At st.tok st.text? st.current st := ⟨rfl, rfl, rfl, hfits⟩
  have hbase : Parses st.tok st.text? 0 st.current j (· = st) (LiteralCode c) := by
    rintro fuel n dst s s' v' _ rfl _ hlevel
    obtain ⟨hat', hcode⟩ := hprim hlevel
    exact ⟨v', s', 0, hcode, hat', yields_pure.mpr ⟨rfl, rfl⟩⟩
  have hparses : Parses st.tok st.text? 11 st.current j (· = st) (LiteralCode c) :=
    parses_of_le (h := 0) (Nat.zero_le 11) (Nat.le_refl 11) hbase
  have hfollows : Follows (st.tok j).kind := by
    rw [hj]
    exact follows_fatArrow
  obtain ⟨v, t, hcode, hat', hload, -⟩ := hparses.pending hat rfl hfollows hy
  exact hcode.load hat'.fits.pool hload

/-- The code of a literal pattern loads its word. -/
theorem literal_of_yields {fuel n : ℕ} {u : Unit} (hlit : st.literalAt = some c) (hfits : Fits st)
    (hy : Yields (Compiler.expression (recN fuel n) dst) st u st') :
    LiteralCode c dst none st st' := by
  have hat : At st.tok st.text? st.current st := ⟨rfl, rfl, rfl, hfits⟩
  rw [CompilerState.literalAt] at hlit
  split at hlit
  · next harrow =>
    refine literal_expression (j := st.current + 1) (fun hprim => ?_) hfits harrow hy
    split at hlit
    · next hk =>
      obtain ⟨s, hs, rfl⟩ := Option.map_eq_some_iff.mp hlit
      obtain ⟨rfl, hat', hcode⟩ := string_of_yields hat hk hs hprim
      exact ⟨hat', hcode⟩
    · obtain ⟨rfl, hat', hcode⟩ := number_of_yields hat hlit hprim
      exact ⟨hat', hcode⟩
  · split at hlit
    · next hk =>
      obtain ⟨d, hd, rfl⟩ := Option.map_eq_some_iff.mp hlit
      refine literal_expression (j := st.current + 2) (fun hprim => ?_) hfits hk.2 hy
      obtain ⟨rfl, hat', hcode⟩ := negNumber_of_yields hat hk.1 hd hprim
      exact ⟨hat', hcode⟩
    · cases hlit

end Compiler

end LatencyOS
