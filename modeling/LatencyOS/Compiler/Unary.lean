import LatencyOS.Compiler.Compiled

/-!
# Unary operators

The operand of a unary operator is compiled into a temporary of its own, so it may mention the
destination anywhere.
-/

namespace LatencyOS

open CompilerState PX64VM

namespace Compiler

variable {st a b : CompilerState} {e : Expr} {dst i j : ℕ} {v : Option Word64}

theorem take_tempUsed (st : CompilerState) (i : ℕ) : (st.take i).tempUsed i = true :=
  Function.update_self ..

theorem take_tempUsed_of_used {k : ℕ} (h : st.tempUsed k = true) :
    (st.take i).tempUsed k = true := by
  by_cases hk : k = i
  · rw [hk]
    exact take_tempUsed st i
  · exact (Function.update_of_ne hk ..).trans h

/-- The temporary just taken is not taken again. -/
theorem temp_notMem (hi : i < 8) (h : Segment (st.take i) a) : 15 - i ∉ scratch (st.take i) a :=
  h.notMem_of_used (by
    rw [show 15 - (15 - i) = i by omega]
    exact take_tempUsed st i)

/-- The machine compares with zero as words. -/
theorem cmpEq_zero (str : Word64 → Option (List UInt8)) (v : Word64) :
    PX64VM.cmpEq str v 0#64 = decide (v = 0#64) := by
  rw [PX64VM.cmpEq]
  split
  · next h => simp [h]
  · next h =>
    have htag : (hasTag 0#64 strTag || hasTag 0#64 argTag) = false := by decide
    rw [htag, Bool.and_false]
    simp [h]

section Neg

/-- The temporaries of a negation. -/
theorem mem_scratch_neg (hload : Loads (st.take i) (15 - i) 0#64 a)
    (he : Segment (a.take j) b) (r : ℕ) :
    r ∈ scratch st b ↔ r = 15 - i ∨ r = 15 - j ∨ r ∈ scratch (a.take j) b := by
  have hab : a.allocLog <+: b.allocLog := (Grows.take a j).log.trans he.grows.log
  rw [scratch_take i (hload.segment.grows.log.trans hab),
    scratch_trans hload.segment.grows.log hab, hload.scratch, List.nil_append,
    scratch_take j he.grows.log, List.mem_cons, List.mem_cons]

theorem reaches_neg (hi : st.freeSlot = some i) (hload : Loads (st.take i) (15 - i) 0#64 a)
    (hj : a.freeSlot = some j) (he : Compiled e (15 - j) v (a.take j) b) :
    ∀ r ∈ scratch st b, st.Reaches (Expr.neg e).temps r := by
  have hlog : a.allocLog <+: b.allocLog := (Grows.take a j).log.trans he.segment.grows.log
  have hload_nil : ∀ r ∈ scratch (st.take i) a, (st.take i).Reaches (e.temps + 1) r := by
    rw [hload.scratch]
    exact fun r hr => absurd hr List.not_mem_nil
  exact reaches_bracket hi (hload.segment.grows.log.trans hlog)
    (hload.segment.reaches_trans hlog hload_nil
      (reaches_bracket hj he.segment.grows.log he.temps))

/-- The code before the subtraction: the zero is loaded and the operand evaluated. -/
theorem neg_operand {st' : CompilerState} (hi : st.freeSlot = some i)
    (hload : Loads (st.take i) (15 - i) 0#64 a) (hj : a.freeSlot = some j)
    (he : Compiled e (15 - j) v (a.take j) b) (hgrows : Grows b st')
    (hlog : st'.allocLog = b.allocLog) (host : Host) {vm : PX64VM} {π : List UInt8 → Place}
    (hπ : ∀ x ∈ e.vars, st'.place x = some (π x)) (hvm : Holds vm st st')
    (hip : vm.ip = st.code.length) (hapart : Apart π (scratch st st') dst (.neg e)) :
    ∃ vm₁, Passes host (· ∈ scratch st st') vm vm₁ ∧ vm₁.regs (15 - i) = 0#64 ∧
      valueAt π vm₁ e = valueAt π vm e ∧ 15 - i ∉ scratch (a.take j) b ∧ i ≠ j ∧
      Does host π (scratch (a.take j) b) e (15 - j) vm₁ b.code.length v := by
  obtain ⟨hi8, hiused⟩ := freeSlot_eq_some hi
  obtain ⟨hj8, hjused⟩ := freeSlot_eq_some hj
  have hmem : ∀ r, r ∈ scratch st st' ↔ r = 15 - i ∨ r = 15 - j ∨ r ∈ scratch (a.take j) b := by
    rw [scratch_congr hlog]
    exact mem_scratch_neg hload he.segment
  have hused : a.tempUsed i = true := by
    rw [hload.segment.temps]
    exact take_tempUsed st i
  have hij : i ≠ j := by
    rintro rfl
    rw [hjused] at hused
    cases hused
  have hz : 15 - i ∉ scratch (a.take j) b := he.segment.notMem_of_used (by
    rw [show 15 - (15 - i) = i by omega]
    exact take_tempUsed_of_used hused)
  have hab : Grows a b := (Grows.take a j).trans he.segment.grows
  obtain ⟨vm₁, hp₁, hip₁, hzero⟩ := hload.writes
    ((hvm.left (hab.trans hgrows)).right (Grows.take st i).code_le) hip (by omega) host
  have hcode : vm₁.ip = (a.take j).code.length := by
    rw [hip₁, hip]
    exact hload.codeLen.symm
  refine ⟨vm₁, hp₁.mono fun r hr => (hmem r).mpr (.inl hr), hzero, ?_, hz, hij, ?_⟩
  · exact valueAt_of_passes hp₁ fun x hx r hr hz' =>
      hapart.vars x hx (15 - i) ((hmem _).mpr (.inl rfl)) (by rw [hr, hz'])
  · refine he.runs host vm₁ π (fun x hx => hgrows.place_eq (he.places x hx) (hπ x hx)) ?_ hcode ?_
    · exact ((hvm.left hgrows).right (((Grows.take st i).trans hload.segment.grows).trans
        (.take a j)).code_le).of_core hp₁.core
    · have hvars : ∀ x ∈ e.vars, x ∈ e.neg.vars := fun _ => id
      exact hapart.temp (fun r hr => (hmem r).mpr (.inr (.inr hr))) hvars (by omega)
        ((hmem _).mpr (.inr (.inl rfl))) (temp_notMem hj8 he.segment)

/-- A negated constant. -/
theorem compiled_neg_some {c : Word64} (hi : st.freeSlot = some i)
    (hload : Loads (st.take i) (15 - i) 0#64 a) (hj : a.freeSlot = some j)
    (he : Compiled e (15 - j) (some c) (a.take j) b) (c' : Word64) :
    Compiled (.neg e) dst (some c') st ((b.freeTemp (15 - j)).freeTemp (15 - i)) where
  segment := .bracket hi (hload.segment.trans (.bracket hj he.segment))
  temps := by
    rw [scratch_congr (b := (b.freeTemp (15 - j)).freeTemp (15 - i)) (c := b) (by simp)]
    exact reaches_neg hi hload hj he
  scale := by
    simp only [freeTemp_info, he.scale, Expr.scaleAfter]
    exact congrArg e.scaleAfter (congrArg ExprInfo.fixedScale hload.info)
  places := fun x hx => ((Grows.freeTemp b _).trans (.freeTemp _ _)).place_isSome (he.places x hx)
  runs := fun host vm π hπ hvm hip hapart => by
    have hgrows : Grows b ((b.freeTemp (15 - j)).freeTemp (15 - i)) :=
      (Grows.freeTemp b _).trans (.freeTemp _ _)
    have hlog : ((b.freeTemp (15 - j)).freeTemp (15 - i)).allocLog = b.allocLog := by simp
    obtain ⟨vm₁, hp₁, -, -, -, -, hdo⟩ :=
      neg_operand hi hload hj he hgrows hlog host hπ hvm hip hapart
    obtain ⟨vm₂, hp₂, hip₂⟩ := hdo
    refine ⟨vm₂, hp₁.trans (hp₂.mono fun r hr => ?_), by simpa using hip₂⟩
    rw [scratch_congr hlog]
    exact (mem_scratch_neg hload he.segment r).mpr (.inr (.inr hr))

/-- A negation at run time. -/
theorem compiled_neg_none (dst : ℕ) (hi : st.freeSlot = some i)
    (hload : Loads (st.take i) (15 - i) 0#64 a) (hj : a.freeSlot = some j)
    (he : Compiled e (15 - j) none (a.take j) b) :
    Compiled (.neg e) dst none st
      (((b.emitted .sub dst (15 - i) (15 - j)).freeTemp (15 - j)).freeTemp (15 - i)) where
  segment := .bracket hi (hload.segment.trans (.bracket hj (he.segment.trans (.emitted ..))))
  temps := by
    have hlog : (((b.emitted .sub dst (15 - i) (15 - j)).freeTemp (15 - j)).freeTemp
        (15 - i)).allocLog = b.allocLog := by simp [emitted]
    rw [scratch_congr hlog]
    exact reaches_neg hi hload hj he
  scale := by
    simp only [freeTemp_info, Expr.scaleAfter]
    exact he.scale.trans (congrArg e.scaleAfter (congrArg ExprInfo.fixedScale hload.info))
  places := fun x hx => ((Segment.emitted b .sub dst (15 - i) (15 - j)).grows.trans
    ((Grows.freeTemp _ _).trans (.freeTemp _ _))).place_isSome (he.places x hx)
  runs := fun host vm π hπ hvm hip hapart => by
    have hfree : Grows (b.emitted .sub dst (15 - i) (15 - j))
        (((b.emitted .sub dst (15 - i) (15 - j)).freeTemp (15 - j)).freeTemp (15 - i)) :=
      (Grows.freeTemp _ _).trans (.freeTemp _ _)
    have hlog : (((b.emitted .sub dst (15 - i) (15 - j)).freeTemp (15 - j)).freeTemp
        (15 - i)).allocLog = b.allocLog := by simp [emitted]
    have hstop : (((b.emitted .sub dst (15 - i) (15 - j)).freeTemp (15 - j)).freeTemp
        (15 - i)).code.length = b.code.length + 4 := by simp [emitted, instBytes]
    obtain ⟨vm₁, hp₁, hzero, hval, hz, hij, hdo⟩ := neg_operand hi hload hj he
      ((Segment.emitted ..).grows.trans hfree) hlog host hπ hvm hip hapart
    have hmem := mem_scratch_neg hload he.segment
    have hi8 := (freeSlot_eq_some hi).1
    have hj8 := (freeSlot_eq_some hj).1
    rw [scratch_congr hlog] at hp₁ ⊢
    rw [does_none, hval] at hdo
    rw [does_none, valueAt, Expr.eval, ← valueAt, hstop]
    have hp₁' := hp₁.mono (U := fun r => r = dst ∨ r ∈ scratch st b) fun r => .inr
    have hsub : ∀ r, r = 15 - j ∨ r ∈ scratch (a.take j) b → r = dst ∨ r ∈ scratch st b :=
      fun r hr => .inr ((hmem r).mpr (.inr hr))
    cases hx : valueAt π vm e with
    | none =>
      rw [hx] at hdo
      exact DividesByZero.after hp₁' (DividesByZero.mono hdo hsub (by omega))
    | some x =>
      rw [hx] at hdo
      obtain ⟨vm₂, hp₂, hip₂, hreg⟩ := hdo
      have hzero₂ : vm₂.regs (15 - i) = 0#64 := by
        rw [hp₂.frame _ (fun hr => hr.elim (fun h => by omega) hz), hzero]
      have hinst : vm₂.InstAt vm₂.ip .sub dst (15 - i) (15 - j) := by
        rw [hip₂]
        exact (((hvm.left hfree).right
          (((Grows.take st i).trans hload.segment.grows).trans
            ((Grows.take a j).trans he.segment.grows)).code_le).of_core
          (hp₂.core.trans hp₁.core)).instAt rfl
      have hw := hinst.alu host (f := (· - ·)) rfl hapart.dst_lt (by omega) (by omega)
      rw [hzero₂, hreg, BitVec.zero_sub] at hw
      exact Computes.after (hp₁'.trans (hp₂.mono hsub)) (.of_writes hw (.inl rfl) (by rw [hip₂]))

end Neg

section Not

/-- The operand of a logical negation is evaluated first. -/
theorem not_operand {st' : CompilerState} (hi : st.freeSlot = some i)
    (he : Compiled e (15 - i) v (st.take i) b) (hgrows : Grows b st') (host : Host) {vm : PX64VM}
    {π : List UInt8 → Place} (hπ : ∀ x ∈ e.vars, st'.place x = some (π x)) (hvm : Holds vm st st')
    (hip : vm.ip = st.code.length) (hapart : Apart π (scratch st st') dst (.not e)) :
    Does host π (scratch (st.take i) b) e (15 - i) vm b.code.length v := by
  have hi8 := (freeSlot_eq_some hi).1
  have hmem : ∀ r, r = 15 - i ∨ r ∈ scratch (st.take i) b → r ∈ scratch st st' := by
    intro r hr
    have hb : r ∈ scratch st b := by
      rw [scratch_take i he.segment.grows.log, List.mem_cons]
      exact hr
    rw [scratch_trans ((Grows.take st i).trans he.segment.grows).log hgrows.log]
    exact List.mem_append_left _ hb
  have hvars : ∀ x ∈ e.vars, x ∈ e.not.vars := fun _ => id
  exact he.runs host vm π (fun x hx => hgrows.place_eq (he.places x hx) (hπ x hx))
    ((hvm.left hgrows).right (Grows.take st i).code_le) hip
    (hapart.temp (fun r hr => hmem r (.inr hr)) hvars (by omega) (hmem _ (.inl rfl))
      (temp_notMem hi8 he.segment))

/-- The logical negation of a constant. -/
theorem compiled_not_some {c : Word64} (hi : st.freeSlot = some i)
    (he : Compiled e (15 - i) (some c) (st.take i) b) (c' : Word64) :
    Compiled (.not e) dst (some c') st (b.freeTemp (15 - i)) where
  segment := .bracket hi he.segment
  temps := by
    rw [scratch_congr (freeTemp_allocLog b _)]
    exact reaches_bracket hi he.segment.grows.log
      fun r hr => (he.temps r hr).mono (Nat.le_max_left _ _)
  scale := by
    rw [freeTemp_info]
    exact he.scale
  places := fun x hx => (Grows.freeTemp b _).place_isSome (he.places x hx)
  runs := fun host vm π hπ hvm hip hapart => by
    obtain ⟨vm₁, hp₁, hip₁⟩ := not_operand hi he (Grows.freeTemp b _) host hπ hvm hip hapart
    refine ⟨vm₁, hp₁.mono fun r hr => ?_, by simpa using hip₁⟩
    rw [scratch_congr (freeTemp_allocLog b _), scratch_take i he.segment.grows.log]
    exact List.mem_cons_of_mem _ hr

/-- A logical negation at run time. -/
theorem compiled_not_none (dst : ℕ) (hi : st.freeSlot = some i)
    (he : Compiled e (15 - i) none (st.take i) b) (hj : b.freeSlot = some j)
    (hload : Loads (b.take j) (15 - j) 0#64 a) :
    Compiled (.not e) dst none st
      (((a.emitted .cmpEq dst (15 - i) (15 - j)).freeTemp (15 - j)).freeTemp (15 - i)) where
  segment := .bracket hi (he.segment.trans (.bracket hj (hload.segment.trans (.emitted ..))))
  temps := by
    have hlog : (((a.emitted .cmpEq dst (15 - i) (15 - j)).freeTemp (15 - j)).freeTemp
        (15 - i)).allocLog = a.allocLog := by simp [emitted]
    have hba : b.allocLog <+: a.allocLog := (Grows.take b j).log.trans hload.segment.grows.log
    have hzero : ∀ r ∈ scratch b a, b.Reaches 1 r :=
      reaches_bracket hj hload.segment.grows.log (by
        rw [hload.scratch]
        exact fun r hr => absurd hr List.not_mem_nil)
    rw [scratch_congr hlog]
    exact reaches_bracket hi (he.segment.grows.log.trans hba)
      (he.segment.reaches_trans hba (fun r hr => (he.temps r hr).mono (Nat.le_max_left _ _))
        fun r hr => (hzero r hr).mono (Nat.le_max_right _ _))
  scale := by
    simp only [freeTemp_info, Expr.scaleAfter]
    exact (congrArg ExprInfo.fixedScale hload.info).trans he.scale
  places := fun x hx => (((Grows.take b j).trans hload.segment.grows).trans
    ((Segment.emitted a .cmpEq dst (15 - i) (15 - j)).grows.trans
      ((Grows.freeTemp _ _).trans (.freeTemp _ _)))).place_isSome (he.places x hx)
  runs := fun host vm π hπ hvm hip hapart => by
    have hi8 := (freeSlot_eq_some hi).1
    have hj8 := (freeSlot_eq_some hj).1
    have hba : Grows b a := (Grows.take b j).trans hload.segment.grows
    have hfree : Grows (a.emitted .cmpEq dst (15 - i) (15 - j))
        (((a.emitted .cmpEq dst (15 - i) (15 - j)).freeTemp (15 - j)).freeTemp (15 - i)) :=
      (Grows.freeTemp _ _).trans (.freeTemp _ _)
    have hrest : Grows a (((a.emitted .cmpEq dst (15 - i) (15 - j)).freeTemp (15 - j)).freeTemp
        (15 - i)) := (Segment.emitted ..).grows.trans hfree
    have hlog : (((a.emitted .cmpEq dst (15 - i) (15 - j)).freeTemp (15 - j)).freeTemp
        (15 - i)).allocLog = a.allocLog := by simp [emitted]
    have hstop : (((a.emitted .cmpEq dst (15 - i) (15 - j)).freeTemp (15 - j)).freeTemp
        (15 - i)).code.length = a.code.length + 4 := by simp [emitted, instBytes]
    have hdo := not_operand hi he (hba.trans hrest) host hπ hvm hip hapart
    have hstb : Grows st b := (Grows.take st i).trans he.segment.grows
    have hmem : ∀ r, r ∈ scratch st a ↔ (r = 15 - i ∨ r ∈ scratch (st.take i) b) ∨ r = 15 - j := by
      intro r
      rw [scratch_trans hstb.log hba.log, List.mem_append, scratch_take i he.segment.grows.log,
        List.mem_cons, scratch_take j hload.segment.grows.log, hload.scratch,
        List.mem_singleton]
    have hij : i ≠ j := by
      rintro rfl
      have hused : b.tempUsed i = true := by
        rw [he.segment.temps]
        exact take_tempUsed st i
      rw [(freeSlot_eq_some hj).2] at hused
      cases hused
    rw [does_none] at hdo ⊢
    rw [valueAt, Expr.eval, ← valueAt, hstop, scratch_congr hlog]
    have hsub : ∀ r, r = 15 - i ∨ r ∈ scratch (st.take i) b → r = dst ∨ r ∈ scratch st a :=
      fun r hr => .inr ((hmem r).mpr (.inl hr))
    cases hx : valueAt π vm e with
    | none =>
      rw [hx] at hdo
      exact DividesByZero.mono hdo hsub (Nat.le_trans hba.code_le (Nat.le_add_right _ _))
    | some x =>
      rw [hx] at hdo
      obtain ⟨vm₁, hp₁, hip₁, hreg⟩ := hdo
      obtain ⟨vm₂, hp₂, hip₂, hzero⟩ := hload.writes (((hvm.left hrest).right
        (hstb.trans (.take b j)).code_le).of_core hp₁.core) hip₁ (by omega) host
      have hreg₂ : vm₂.regs (15 - i) = x := by rw [hp₂.frame _ (by omega), hreg]
      have hend : vm₂.ip = a.code.length := by
        rw [hip₂, hip₁]
        exact hload.codeLen.symm
      have hinst : vm₂.InstAt vm₂.ip .cmpEq dst (15 - i) (15 - j) := by
        rw [hend]
        exact (((hvm.left hfree).right (hstb.trans hba).code_le).of_core
          (hp₂.core.trans hp₁.core)).instAt rfl
      have hw := hinst.alu host rfl hapart.dst_lt (by omega) (by omega)
      rw [hzero, hreg₂, cmpEq_zero] at hw
      refine Computes.after ((hp₁.mono hsub).trans (hp₂.mono fun r hr => ?_))
        (.of_writes hw (.inl rfl) (by rw [hend]))
      exact .inr ((hmem r).mpr (.inr hr))

end Not

end Compiler

end LatencyOS
