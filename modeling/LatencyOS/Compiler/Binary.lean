import LatencyOS.Compiler.Operators

/-!
# Binary operators

The left operand goes to the destination and the right one to a temporary.  Constants are
loaded only after both operands, right before the operator.
-/

namespace LatencyOS

open CompilerState PX64VM

/-! ## Evaluation in place -/

namespace Compiler

variable {st : CompilerState} {a b e : Expr} {dst i : ℕ} {va vb v : Option Word64}
  {op : BinOp}

theorem valueAt_of_isOwn {π : List UInt8 → Place} (vm : PX64VM)
    (h : e.IsOwn (π · = .reg dst)) : valueAt π vm e = some (vm.regs dst) := by
  induction e with
  | var x =>
    have hx : π x = .reg dst := h
    rw [valueAt, Expr.eval, hx]
    rfl
  | paren e ih => exact ih h
  | _ => cases h

/-- The value stays while the places of the variables are read alike. -/
theorem valueAt_congr {π : List UInt8 → Place} {vm vm' : PX64VM} (hcore : vm'.core = vm.core)
    (h : ∀ x ∈ e.vars, (π x).read vm' = (π x).read vm) : valueAt π vm' e = valueAt π vm e := by
  rw [valueAt, valueAt, getStrBytes_of_core hcore]
  exact Expr.eval_congr h

/-- The code of an operand divides by zero, or it ends and the value is known: it is in the
register, or it is the pending constant. -/
theorem Does.split {host : Host} {π : List UInt8 → Place} {S : List ℕ} {vm : PX64VM} {stop : ℕ}
    (h : Does host π S e dst vm stop v) (hv : v = e.constVal) :
    (valueAt π vm e = none ∧ DividesByZero host (fun r => r = dst ∨ r ∈ S) vm stop) ∨
      ∃ x vm', valueAt π vm e = some x ∧
        Passes host (fun r => (r = dst ∧ v = none) ∨ r ∈ S) vm vm' ∧ vm'.ip = stop ∧
        (v = none → vm'.regs dst = x) ∧ ∀ c, v = some c → c = x := by
  cases v with
  | some c =>
    obtain ⟨vm', hp, hip⟩ := h
    refine .inr ⟨c, vm', Expr.eval_of_constVal hv.symm, hp.mono fun r => .inr, hip, ?_, ?_⟩
    · exact fun h => by cases h
    · exact fun c' h => (Option.some.inj h).symm
  | none =>
    rw [does_none] at h
    cases hx : valueAt π vm e with
    | none =>
      rw [hx] at h
      exact .inl ⟨rfl, h⟩
    | some x =>
      rw [hx] at h
      obtain ⟨vm', hp, hip, hreg⟩ := h
      exact .inr ⟨x, vm', rfl, hp.mono fun r hr => hr.imp_left fun hd => ⟨hd, rfl⟩, hip,
        fun _ => hreg, fun c h => by cases h⟩

section Operands

variable {t t' s s' : CompilerState}

/-- The left operand in the destination, then the right one in a fresh temporary. -/
structure Operands (a b : Expr) (dst i : ℕ) (va vb : Option Word64) (st s : CompilerState) :
    Prop where
  left : ∃ t, Compiled a dst va st t ∧ t.freeSlot = some i ∧ Compiled b (15 - i) vb (t.take i) s
  left_const : va = a.constVal
  right_const : vb = b.constVal

namespace Operands

variable (h : Operands a b dst i va vb st s)

include h

theorem slot_lt : i < 8 := by
  obtain ⟨t, -, hi, -⟩ := h.left
  exact (freeSlot_eq_some hi).1

/-- The whole segment, once the temporary is handed back. -/
theorem segment (hs : Segment s s') : Segment st (s'.freeTemp (15 - i)) := by
  obtain ⟨t, ha, hi, hb⟩ := h.left
  exact ha.segment.trans (.bracket hi (hb.segment.trans hs))

theorem grows : Grows st s := by
  obtain ⟨t, ha, hi, hb⟩ := h.left
  exact ha.segment.grows.trans ((Grows.take t i).trans hb.segment.grows)

theorem temps (op : BinOp) : ∀ r ∈ scratch st s, st.Reaches (Expr.bin op a b).temps r := by
  obtain ⟨t, ha, hi, hb⟩ := h.left
  have hts : Grows t s := (Grows.take t i).trans hb.segment.grows
  refine ha.segment.reaches_trans hts.log
    (fun r hr => (ha.temps r hr).mono (Nat.le_max_left _ _))
    fun r hr => (reaches_bracket hi hb.segment.grows.log hb.temps r hr).mono ?_
  exact Nat.le_trans (Nat.succ_le_succ (Nat.le_max_left _ _)) (Nat.le_max_right _ _)

theorem scale : s.info.fixedScale = b.scaleAfter (a.scaleAfter st.info.fixedScale) := by
  obtain ⟨t, ha, hi, hb⟩ := h.left
  rw [hb.scale, ← ha.scale]
  rfl

theorem places : ∀ x ∈ (Expr.bin op a b).vars, (s.place x).isSome := by
  obtain ⟨t, ha, hi, hb⟩ := h.left
  intro x hx
  rcases List.mem_append.mp hx with hx | hx
  · exact ((Grows.take t i).trans hb.segment.grows).place_isSome (ha.places x hx)
  · exact hb.places x hx

theorem temp_mem : 15 - i ∈ scratch st s := by
  obtain ⟨t, ha, hi, hb⟩ := h.left
  rw [scratch_trans ha.segment.grows.log ((Grows.take t i).trans hb.segment.grows).log,
    scratch_take i hb.segment.grows.log]
  exact List.mem_append_right _ List.mem_cons_self

/-- The temporary stays in use until it is handed back. -/
theorem temp_used : s.tempUsed (15 - (15 - i)) = true := by
  have hi8 := h.slot_lt
  obtain ⟨t, ha, hi, hb⟩ := h.left
  rw [show 15 - (15 - i) = i by omega, hb.segment.temps]
  exact take_tempUsed t i

/-- Both operands are evaluated, the left one first; the right one may not read the destination
unless the left one did not write it. -/
theorem runs (hgrows : Grows s s') (host : Host) {vm : PX64VM} {π : List UInt8 → Place}
    (hπ : ∀ x ∈ (Expr.bin op a b).vars, s'.place x = some (π x)) (hvm : Holds vm st s')
    (hip : vm.ip = st.code.length) (hapart : Apart π (scratch st s') dst (.bin op a b)) :
    ((valueAt π vm a = none ∨ valueAt π vm b = none) ∧
        DividesByZero host (fun r => r = dst ∨ r ∈ scratch st s) vm s.code.length) ∨
      ∃ x y vm', valueAt π vm a = some x ∧ valueAt π vm b = some y ∧
        Passes host (fun r => (r = dst ∧ va = none) ∨ r ∈ scratch st s) vm vm' ∧
        vm'.ip = s.code.length ∧ (va = none → vm'.regs dst = x) ∧ (∀ c, va = some c → c = x) ∧
        (vb = none → vm'.regs (15 - i) = y) ∧ ∀ c, vb = some c → c = y := by
  have hi8 := h.slot_lt
  have htemp := h.temp_mem
  have hS : ∀ r ∈ scratch st s, r ∈ scratch st s' := by
    rw [scratch_trans h.grows.log hgrows.log]
    exact fun r => List.mem_append_left _
  obtain ⟨t, ha, hi, hb⟩ := h.left
  have hts : Grows t s := (Grows.take t i).trans hb.segment.grows
  have hmem : ∀ r, r ∈ scratch st s ↔ r ∈ scratch st t ∨ r = 15 - i ∨ r ∈ scratch (t.take i) s := by
    intro r
    rw [scratch_trans ha.segment.grows.log hts.log, scratch_take i hb.segment.grows.log,
      List.mem_append, List.mem_cons]
  have hvars_a : ∀ x ∈ a.vars, x ∈ (Expr.bin op a b).vars := fun x => List.mem_append_left _
  have hvars_b : ∀ x ∈ b.vars, x ∈ (Expr.bin op a b).vars := fun x => List.mem_append_right _
  have hdo_a := ha.runs host vm π
    (fun x hx => (hts.trans hgrows).place_eq (ha.places x hx) (hπ x (hvars_a x hx)))
    (hvm.left (hts.trans hgrows)) hip
    (hapart.mono (fun r hr => hS r ((hmem r).mpr (.inl hr))) hvars_a hapart.inPlace.1)
  rcases hdo_a.split h.left_const with ⟨hnone, hdiv⟩ | ⟨x, vm₁, hx, hp₁, hip₁, hreg, hconst⟩
  · exact .inl ⟨.inl hnone, hdiv.mono (fun r hr => hr.imp_right fun hr => (hmem r).mpr (.inl hr))
      hts.code_le⟩
  have hp₁' : Passes host (fun r => (r = dst ∧ va = none) ∨ r ∈ scratch st s) vm vm₁ :=
    hp₁.mono fun r hr => hr.imp_right fun hr => (hmem r).mpr (.inl hr)
  -- the right operand reads what it would have read before
  have hread : ∀ y ∈ b.vars, (π y).read vm₁ = (π y).read vm := by
    intro y hy
    cases hp : π y with
    | slot s => exact congrFun hp₁.spill s
    | reg r =>
      have hnotS : r ∉ scratch st t := fun hr =>
        hapart.vars y (hvars_b y hy) r (hS r ((hmem r).mpr (.inl hr))) hp
      by_cases hrd : r = dst ∧ va = none
      · obtain ⟨rfl, hva⟩ := hrd
        rcases hapart.inPlace.2 with hown | hc | havoid
        · have hval := valueAt_of_isOwn vm hown
          rw [hx] at hval
          exact (hreg hva).trans (Option.some.inj hval)
        · rw [← h.left_const, hva] at hc
          cases hc
        · exact absurd hp (havoid y hy)
      · exact hp₁.frame r (fun hr => hr.elim hrd hnotS)
  have hval_b : valueAt π vm₁ b = valueAt π vm b := valueAt_congr hp₁.core hread
  have hdo_b := hb.runs host vm₁ π
    (fun x hx => hgrows.place_eq (hb.places x hx) (hπ x (hvars_b x hx)))
    (((hvm.left hgrows).right (ha.segment.grows.trans (.take t i)).code_le).of_core hp₁.core) hip₁
    (hapart.temp (fun r hr => hS r ((hmem r).mpr (.inr (.inr hr)))) hvars_b (by omega)
      (hS _ htemp) (temp_notMem hi8 hb.segment))
  have hsub : ∀ r, r = 15 - i ∨ r ∈ scratch (t.take i) s → r ∈ scratch st s :=
    fun r hr => (hmem r).mpr (.inr hr)
  rcases hdo_b.split h.right_const with ⟨hnone, hdiv⟩ | ⟨y, vm₂, hy, hp₂, hip₂, hreg₂, hconst₂⟩
  · rw [hval_b] at hnone
    refine .inl ⟨.inr hnone, DividesByZero.after (hp₁'.mono fun r hr => hr.imp_left And.left)
      (hdiv.mono (fun r hr => .inr (hsub r hr)) (Nat.le_refl _))⟩
  · rw [hval_b] at hy
    have hp₂' : Passes host (fun r => r ∈ scratch st s) vm₁ vm₂ :=
      hp₂.mono fun r hr => hsub r (hr.imp_left And.left)
    refine .inr ⟨x, y, vm₂, hx, hy, hp₁'.trans (hp₂'.mono fun r => .inr), hip₂, fun hva => ?_,
      hconst, hreg₂, hconst₂⟩
    rw [hp₂'.frame dst (fun hr => hapart.dst_notMem (hS dst hr)), hreg hva]

/-- The temporaries of the operator come behind those of the operands. -/
theorem temps_emit {u w : CompilerState} (hsu : Segment s u) (hnil : scratch s u = [])
    (hop : OpCode op dst (15 - i) u w) :
    ∀ r ∈ scratch st (w.freeTemp (15 - i)), st.Reaches (Expr.bin op a b).temps r := by
  intro r hr
  rw [scratch_congr (freeTemp_allocLog w _),
    scratch_trans h.grows.log (hsu.trans hop.segment).grows.log,
    scratch_trans hsu.grows.log hop.segment.grows.log, hnil, List.nil_append,
    List.mem_append] at hr
  rcases hr with hr | hr
  · exact h.temps op r hr
  obtain ⟨t, ha, hi, hb⟩ := h.left
  have htake : (t.take i).Reaches op.temps r :=
    (hop.temps r hr).congr (hsu.temps.trans hb.segment.temps)
  refine ((htake.of_take h.slot_lt).congr ha.segment.temps).mono ?_
  exact Nat.le_trans (Nat.succ_le_succ (Nat.le_max_right _ _)) (Nat.le_max_right _ _)

/-- Two constants are folded. -/
theorem compiled_fold {x y : Word64} (hva : va = some x) (hvb : vb = some y) (hq : Quiet s s')
    (hscale : s'.info.fixedScale = s.info.fixedScale) (c : Word64) :
    Compiled (.bin op a b) dst (some c) st (s'.freeTemp (15 - i)) where
  segment := h.segment hq.segment
  temps := by
    rw [scratch_congr (freeTemp_allocLog s' _), scratch_congr hq.log]
    exact h.temps op
  scale := by
    have hboth : Expr.bothConst a b = true := by
      rw [Expr.bothConst, ← h.left_const, ← h.right_const, hva, hvb]
      rfl
    rw [freeTemp_info, hscale, h.scale, Expr.scaleAfter, hboth]
    simp
  places := fun x hx => (hq.segment.grows.trans (.freeTemp s' _)).place_isSome (h.places x hx)
  runs := fun host vm π hπ hvm hip hapart => by
    have hlog : (s'.freeTemp (15 - i)).allocLog = s.allocLog := by
      rw [freeTemp_allocLog, hq.log]
    rcases h.runs (hq.segment.grows.trans (.freeTemp s' _)) host hπ hvm hip hapart with
      ⟨hnone, -⟩ | ⟨_, _, vm', -, -, hp, hip', -⟩
    · have hx : valueAt π vm a = some x :=
        Expr.eval_of_constVal (h.left_const.symm.trans hva)
      have hy : valueAt π vm b = some y :=
        Expr.eval_of_constVal (h.right_const.symm.trans hvb)
      rw [hx, hy] at hnone
      rcases hnone with hnone | hnone <;> cases hnone
    · refine ⟨vm', hp.mono fun r hr => ?_, ?_⟩
      · rw [scratch_congr hlog]
        rcases hr with ⟨-, hnone⟩ | hr
        · rw [hva] at hnone
          cases hnone
        · exact hr
      · rw [hip', freeTemp_code, hq.code]

/-- The code of an operator behind its operands. -/
theorem compiled_emit {u₀ u₁ u₂ w : CompilerState} (hboth : Expr.bothConst a b = false)
    (hq : Quiet s u₀) (hscale : u₀.info.fixedScale = s.info.fixedScale)
    (hpa : Pending u₀ dst va u₁) (hpb : Pending u₁ (15 - i) vb u₂)
    (hop : OpCode op dst (15 - i) u₂ w) :
    Compiled (.bin op a b) dst none st (w.freeTemp (15 - i)) where
  segment := h.segment (hq.segment.trans (hpa.segment.trans (hpb.segment.trans hop.segment)))
  temps := h.temps_emit (hq.segment.trans (hpa.segment.trans hpb.segment)) (by
      rw [scratch_trans (hq.segment.trans hpa.segment).grows.log hpb.segment.grows.log,
        hpb.scratch, scratch_trans hq.segment.grows.log hpa.segment.grows.log, hpa.scratch,
        scratch_eq_nil hq.log]
      rfl) hop
  scale := by
    rw [freeTemp_info, hop.scale, hpb.info, hpa.info, hscale, h.scale, Expr.scaleAfter, hboth]
    simp
  places := fun x hx => ((hq.segment.trans (hpa.segment.trans
    (hpb.segment.trans hop.segment))).grows.trans (.freeTemp w _)).place_isSome (h.places x hx)
  runs := fun host vm π hπ hvm hip hapart => by
    have hi8 := h.slot_lt
    have hfree : Grows w (w.freeTemp (15 - i)) := .freeTemp w _
    have hsu₂ : Segment s u₂ := hq.segment.trans (hpa.segment.trans hpb.segment)
    have hlog : scratch st (w.freeTemp (15 - i)) = scratch st s ++ scratch u₂ w := by
      have hnil : scratch s u₂ = [] := by
        rw [scratch_trans (hq.segment.trans hpa.segment).grows.log hpb.segment.grows.log,
          hpb.scratch, scratch_trans hq.segment.grows.log hpa.segment.grows.log, hpa.scratch,
          scratch_eq_nil hq.log]
        rfl
      rw [scratch_congr (freeTemp_allocLog w _),
        scratch_trans h.grows.log (hsu₂.trans hop.segment).grows.log,
        scratch_trans hsu₂.grows.log hop.segment.grows.log, hnil, List.nil_append]
    have hsub : ∀ r, r ∈ scratch st s → r ∈ scratch st (w.freeTemp (15 - i)) := by
      rw [hlog]
      exact fun r => List.mem_append_left _
    have hdst_ne : dst ≠ 15 - i := fun heq =>
      hapart.dst_notMem (hsub dst (heq ▸ h.temp_mem))
    rw [does_none, freeTemp_code]
    rcases h.runs ((hsu₂.trans hop.segment).grows.trans hfree) host hπ hvm hip hapart with
      ⟨hnone, hdiv⟩ | ⟨x, y, vm₁, hx, hy, hp₁, hip₁, hreg, hconst, hreg₂, hconst₂⟩
    · rw [valueAt_bin_none hnone]
      exact hdiv.mono (fun r hr => hr.imp_right (hsub r)) (hsu₂.trans hop.segment).grows.code_le
    rw [valueAt_bin hboth hx hy]
    have hvm_w := (hvm.left hfree).of_core hp₁.core
    have hsu₀ : Grows st u₀ := h.grows.trans hq.segment.grows
    -- pending constants, the left one first
    obtain ⟨vm₂, hp₂, hip₂, hc₂⟩ := hpa.runs host vm₁
      ((hvm_w.left (hpb.segment.trans hop.segment).grows).right hsu₀.code_le)
      (by rw [hip₁, hq.code]) hapart.dst_lt
    have hdst₂ : vm₂.regs dst = x := by
      cases hva : va with
      | none =>
        rw [hp₂.frame dst (fun hd => by rw [hva] at hd; cases hd.2), hreg hva]
      | some c => rw [hc₂ c hva, hconst c hva]
    have htmp₂ : vm₂.regs (15 - i) = vm₁.regs (15 - i) :=
      hp₂.frame _ fun hr => hdst_ne hr.1.symm
    obtain ⟨vm₃, hp₃, hip₃, hc₃⟩ := hpb.runs host vm₂
      (((hvm_w.of_core hp₂.core).left hop.segment.grows).right
        (hsu₀.trans hpa.segment.grows).code_le) hip₂ (by omega)
    have htmp₃ : vm₃.regs (15 - i) = y := by
      cases hvb : vb with
      | none =>
        rw [hp₃.frame _ (fun hd => by rw [hvb] at hd; cases hd.2), htmp₂, hreg₂ hvb]
      | some c => rw [hc₃ c hvb, hconst₂ c hvb]
    have hdst₃ : vm₃.regs dst = x := by rw [hp₃.frame dst (fun hr => hdst_ne hr.1), hdst₂]
    have hcore₃ := hp₃.core.trans (hp₂.core.trans hp₁.core)
    have hrun := hop.runs host vm₃
      (((hvm.left hfree).of_core hcore₃).right (h.grows.trans hsu₂.grows).code_le) hip₃
      hapart.dst_lt (by omega) hdst_ne
      (fun hmem => hapart.dst_notMem (by rw [hlog]; exact List.mem_append_right _ hmem))
      (hop.segment.notMem_of_used (by rw [hsu₂.temps]; exact h.temp_used))
    rw [hdst₃, htmp₃, getStrBytes_of_core hcore₃] at hrun
    refine Computes.after ((hp₁.mono ?_).trans ((hp₂.mono ?_).trans (hp₃.mono ?_)))
      (hrun.mono ?_)
    · exact fun r hr => hr.imp And.left (hsub r)
    · exact fun r hr => .inl hr.1
    · rintro r ⟨rfl, -⟩
      exact .inr (hsub _ h.temp_mem)
    · exact fun r hr => hr.imp_right fun hr => by
        rw [hlog]
        exact List.mem_append_right _ hr

end Operands

end Operands

end Compiler

end LatencyOS
