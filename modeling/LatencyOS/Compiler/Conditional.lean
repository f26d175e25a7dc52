import LatencyOS.Compiler.Binary

/-!
# The conditional

The condition and both branches go to the same register.  The two jumps are emitted before
their targets are known; what the machine finds at a position is what was emitted there, up to
the two bytes of the target.
-/

namespace LatencyOS

open CompilerState PX64VM

namespace CompilerState

/-! ## Two branches in the code -/

/-- The code of two branches: a jump on zero at the end of `s₁`, a branch up to `s₂`, a jump over
the other branch, which starts at `n` and ends at `s₃`. -/
structure Fork (rd : ℕ) (s₁ s₂ n s₃ st' : CompilerState) : Prop where
  room₁ : s₁.code.length + 4 ≤ maxBytecodeSize
  yes : Grows (s₁.emitted .jz rd 0 0) s₂
  room₂ : s₂.code.length + 4 ≤ maxBytecodeSize
  mid : n.code =
    ((s₂.emitted .jmp 0 0 0).patchImm16 s₁.code.length (s₂.code.length + 4)).code
  no : Grows n s₃
  final : st'.code = (s₃.patchImm16 s₂.code.length s₃.code.length).code

@[simp] theorem length_emitted (st : CompilerState) (op : Opcode) (rd rs1 rs2 : ℕ) :
    (st.emitted op rd rs1 rs2).code.length = st.code.length + 4 := by simp [emitted, instBytes]

namespace Fork

variable {rd : ℕ} {s₁ s₂ n s₃ st' : CompilerState} (h : Fork rd s₁ s₂ n s₃ st')

include h

theorem le₁₂ : s₁.code.length + 4 ≤ s₂.code.length := by
  rw [← length_emitted s₁ .jz rd 0 0]
  exact h.yes.code_le

theorem length_mid : n.code.length = s₂.code.length + 4 := by
  rw [h.mid, length_patchImm16, length_emitted]

theorem le₂₃ : s₂.code.length + 4 ≤ s₃.code.length := by
  rw [← h.length_mid]
  exact h.no.code_le

theorem length_final : st'.code.length = s₃.code.length := by
  rw [h.final, length_patchImm16]

/-- The second branch stands where it was emitted. -/
theorem final_no {i : ℕ} (hi : s₂.code.length + 4 ≤ i) : st'.code[i]? = s₃.code[i]? := by
  rw [h.final, getElem?_patchImm16_of_ne (.inr hi)]

/-- The first branch and all before it stand where they were emitted, up to the target. -/
theorem final_yes {i : ℕ} (hi : i < s₁.code.length + 2 ∨ s₁.code.length + 4 ≤ i)
    (hlt : i < s₂.code.length) : st'.code[i]? = s₂.code[i]? := by
  rw [h.final, getElem?_patchImm16_of_ne (.inl (by omega)),
    h.no.code i (by rw [h.length_mid]; omega), h.mid, getElem?_patchImm16_of_ne hi, emitted,
    List.getElem?_append_left hlt]

theorem jz : InstIn st' s₁.code.length .jz rd ((s₂.code.length + 4) / 256)
    ((s₂.code.length + 4) % 256) := by
  have hle := h.le₁₂
  have hmid : InstIn (s₂.emitted .jmp 0 0 0) s₁.code.length .jz rd 0 0 :=
    (instIn_emitted s₁ .jz rd 0 0).of_eq fun i h₁ h₂ => by
      rw [emitted, List.getElem?_append_left (by omega), h.yes.code i (by rwa [length_emitted])]
  refine (hmid.patchImm16 h.room₁).of_eq fun i h₁ h₂ => ?_
  rw [h.final, getElem?_patchImm16_of_ne (.inl (by omega)),
    h.no.code i (by rw [h.length_mid]; omega), h.mid]

theorem jmp : InstIn st' s₂.code.length .jmp 0 (s₃.code.length / 256)
    (s₃.code.length % 256) := by
  have hle := h.le₁₂
  have hlast : InstIn s₃ s₂.code.length .jmp 0 0 0 :=
    (instIn_emitted s₂ .jmp 0 0 0).of_eq fun i h₁ h₂ => by
      rw [h.no.code i (by rw [h.length_mid]; omega), h.mid,
        getElem?_patchImm16_of_ne (.inr (by omega))]
  exact (hlast.patchImm16 h.room₂).of_eq fun i _ _ => by rw [h.final]

end Fork

theorem Holds.inst {vm : PX64VM} {st st' : CompilerState} {pos : ℕ} {op : Opcode} {rd rs1 rs2 : ℕ}
    (h : Holds vm st st') (hin : InstIn st' pos op rd rs1 rs2) (hle : st.code.length ≤ pos) :
    vm.InstAt pos op rd rs1 rs2 := by
  intro i hi
  have hsome : st'.code[pos + i]? ≠ none := by
    rw [hin i hi, ne_eq, List.getElem?_eq_none_iff]
    exact fun hle => Nat.not_le.mpr hi hle
  have hlt := List.getElem?_eq_none_iff.not.mp hsome
  rw [h.code _ (by omega) (by omega)]
  exact hin i hi

/-- A machine holds a part that stands in the final code as it was emitted. -/
theorem Holds.part {vm : PX64VM} {st st' a b : CompilerState} (h : Holds vm st st')
    (hle : st.code.length ≤ a.code.length) (hb : b.code.length ≤ st'.code.length)
    (hcode : ∀ i, a.code.length ≤ i → i < b.code.length → st'.code[i]? = b.code[i]?)
    (hconsts : b.constPool <+: st'.constPool) : Holds vm a b where
  code := fun i h₁ h₂ => (h.code i (by omega) (by omega)).trans (hcode i h₁ h₂)
  consts := hconsts.trans h.consts

end CompilerState

namespace Compiler

variable {st s₁ s₂ n s₃ st' : CompilerState} {c a b : Expr} {dst : ℕ}

theorem valueAt_cond (π : List UInt8 → Place) (vm : PX64VM) (c a b : Expr) :
    valueAt π vm (.cond c a b) =
      match valueAt π vm c with
      | none => none
      | some v => if v = 0#64 then valueAt π vm b else valueAt π vm a := rfl

/-- A conditional: its condition, and its branches around the jumps. -/
theorem compiled_cond (hc : Compiled c dst none st s₁)
    (room₁ : s₁.code.length + 4 ≤ maxBytecodeSize)
    (ha : Compiled a dst none (s₁.emitted .jz dst 0 0) s₂)
    (room₂ : s₂.code.length + 4 ≤ maxBytecodeSize)
    (hn : n = (s₂.next.emitted .jmp 0 0 0).patchImm16 s₁.code.length (s₂.code.length + 4))
    (hb : Compiled b dst none n s₃) (room₃ : s₃.code.length ≤ maxBytecodeSize)
    (hst' : st' = s₃.patchImm16 s₂.code.length s₃.code.length) :
    Compiled (.cond c a b) dst none st st' := by
  have hmid : n.code =
      ((s₂.emitted .jmp 0 0 0).patchImm16 s₁.code.length (s₂.code.length + 4)).code := by
    rw [hn]
    exact patchImm16_code_congr rfl
  have hfork : Fork dst s₁ s₂ n s₃ st' :=
    ⟨room₁, ha.segment.grows, room₂, hmid, hb.segment.grows, by rw [hst']⟩
  have hle₁₂ := hfork.le₁₂
  have hle₂₃ := hfork.le₂₃
  have hjmp : Segment s₂ (s₂.next.emitted .jmp 0 0 0) := (Segment.next s₂).trans (.emitted ..)
  have hsn : Segment s₁ n := by
    have hs : Segment s₁ (s₂.next.emitted .jmp 0 0 0) :=
      (Segment.emitted ..).trans (ha.segment.trans hjmp)
    rw [hn]
    exact hs.patchImm16 (Nat.le_refl _) _
  have hrest : Segment s₁ st' := by
    rw [hst']
    exact (hsn.trans hb.segment).patchImm16 (by omega) _
  have hnplace : ∀ x, n.place x = s₂.place x := fun x => by
    rw [hn, patchImm16_place]
    rfl
  have hplace : ∀ x, st'.place x = s₃.place x := fun x => by rw [hst', patchImm16_place]
  have hnlog : n.allocLog = s₂.allocLog := by
    rw [hn, patchImm16_allocLog]
    rfl
  have hlog : st'.allocLog = s₃.allocLog := by rw [hst', patchImm16_allocLog]
  have hS : scratch st st' = scratch st s₁ ++ (scratch (s₁.emitted .jz dst 0 0) s₂ ++
      scratch n s₃) := by
    rw [scratch_congr hlog, scratch_trans hc.segment.grows.log (hlog ▸ hrest.grows.log)]
    have h₁ : scratch s₁ s₃ = scratch (s₁.emitted .jz dst 0 0) s₃ := rfl
    have h₂ : scratch n s₃ = scratch s₂ s₃ := by rw [scratch, scratch, hnlog]
    rw [h₁, h₂, scratch_trans ha.segment.grows.log (hnlog ▸ hb.segment.grows.log)]
  refine ⟨hc.segment.trans hrest, ?_, ?_, ?_, ?_⟩
  · have htemps₁ : (s₁.emitted .jz dst 0 0).tempUsed = st.tempUsed := hc.segment.temps
    have htemps₂ : n.tempUsed = st.tempUsed := hsn.temps.trans hc.segment.temps
    intro r hr
    rw [hS, List.mem_append, List.mem_append] at hr
    rcases hr with hr | hr | hr
    · exact (hc.temps r hr).mono (Nat.le_max_left _ _)
    · exact ((ha.temps r hr).congr htemps₁).mono
        (Nat.le_trans (Nat.le_max_left _ _) (Nat.le_max_right _ _))
    · exact ((hb.temps r hr).congr htemps₂).mono
        (Nat.le_trans (Nat.le_max_right _ _) (Nat.le_max_right _ _))
  · rw [hst', patchImm16_info, hb.scale, hn, patchImm16_info, Expr.scaleAfter, ← hc.scale]
    exact congrArg b.scaleAfter ha.scale
  · intro x hx
    simp only [Expr.vars, List.mem_append] at hx
    rcases hx with (hx | hx) | hx
    · exact hrest.grows.place_isSome (hc.places x hx)
    · rw [hplace]
      exact hb.segment.grows.place_isSome (by rw [hnplace]; exact ha.places x hx)
    · rw [hplace]
      exact hb.places x hx
  intro host vm π hπ hvm hip hapart
  have hvars_c : ∀ x ∈ c.vars, x ∈ (Expr.cond c a b).vars :=
    fun x hx => List.mem_append_left _ (List.mem_append_left _ hx)
  have hvars_a : ∀ x ∈ a.vars, x ∈ (Expr.cond c a b).vars :=
    fun x hx => List.mem_append_left _ (List.mem_append_right _ hx)
  have hvars_b : ∀ x ∈ b.vars, x ∈ (Expr.cond c a b).vars :=
    fun x hx => List.mem_append_right _ hx
  have hSc : ∀ r ∈ scratch st s₁, r ∈ scratch st st' := fun r hr => by
    rw [hS]
    exact List.mem_append_left _ hr
  have hSa : ∀ r ∈ scratch (s₁.emitted .jz dst 0 0) s₂, r ∈ scratch st st' := fun r hr => by
    rw [hS]
    exact List.mem_append_right _ (List.mem_append_left _ hr)
  have hSb : ∀ r ∈ scratch n s₃, r ∈ scratch st st' := fun r hr => by
    rw [hS]
    exact List.mem_append_right _ (List.mem_append_right _ hr)
  have hstop := hfork.length_final
  rw [does_none, valueAt_cond]
  have hrun := hc.runs host vm π
    (fun x hx => hrest.grows.place_eq (hc.places x hx) (hπ x (hvars_c x hx)))
    (hvm.left hrest.grows) hip (hapart.mono hSc hvars_c hapart.inPlace.1)
  rw [does_none] at hrun
  cases hx : valueAt π vm c with
  | none =>
    rw [hx] at hrun
    exact DividesByZero.mono hrun (fun r hr => hr.imp_right (hSc r)) hrest.grows.code_le
  | some x =>
  rw [hx] at hrun
  obtain ⟨vm₁, hp₁, hip₁, hreg⟩ := hrun
  replace hp₁ := hp₁.mono (U := fun r => r = dst ∨ r ∈ scratch st st')
    fun r hr => hr.imp_right (hSc r)
  -- the branches read what they would have read before
  have hread : ∀ e : Expr, (∀ y ∈ e.vars, y ∈ (Expr.cond c a b).vars) →
      (c.IsOwn (π · = .reg dst) ∨ e.Avoids (π · = .reg dst)) →
      valueAt π vm₁ e = valueAt π vm e := by
    intro e hvars hin
    refine valueAt_congr hp₁.core fun y hy => ?_
    cases hp : π y with
    | slot s => exact congrFun hp₁.spill s
    | reg r =>
      have hnotS : r ∉ scratch st st' := fun hr => hapart.vars y (hvars y hy) r hr hp
      by_cases hrd : r = dst
      · rcases hin with hown | havoid
        · have hval := valueAt_of_isOwn vm hown
          rw [hx] at hval
          rw [hrd]
          exact hreg.trans (Option.some.inj hval)
        · exact absurd (hrd ▸ hp) (havoid y hy)
      · exact hp₁.frame r (fun hr => hr.elim hrd hnotS)
  have hval_a := hread a hvars_a (hapart.inPlace.2.1.imp_right And.left)
  have hval_b := hread b hvars_b (hapart.inPlace.2.1.imp_right And.right)
  have hinst : vm₁.InstAt vm₁.ip .jz dst ((s₂.code.length + 4) / 256)
      ((s₂.code.length + 4) % 256) := by
    rw [hip₁]
    exact (hvm.of_core hp₁.core).inst hfork.jz hc.segment.grows.code_le
  have hmax : maxBytecodeSize = 4096 := rfl
  have hfetch := hinst.jz host hapart.dst_lt (by omega) (by omega)
  rw [hreg, show (s₂.code.length + 4) / 256 * 256 + (s₂.code.length + 4) % 256 =
    s₂.code.length + 4 by omega] at hfetch
  change Computes _ _ _ _ _ (if x = 0#64 then valueAt π vm b else valueAt π vm a)
  split
  · next hz =>
    -- the condition is zero: the second branch
    rw [if_pos hz] at hfetch
    have hp₂ := Passes.jump (T := fun r => r = dst ∨ r ∈ scratch st st') hfetch (by omega)
    have hvm₂ : Holds { vm₁.advance with ip := s₂.code.length + 4 } n s₃ :=
      ((hvm.of_core (hp₂.core.trans hp₁.core)).part
        (by rw [hfork.length_mid]; have := hc.segment.grows.code_le; omega)
        (by omega) (fun i h₁ _ => hfork.final_no (by rwa [hfork.length_mid] at h₁))
        (by simp only [hst', patchImm16_constPool, List.prefix_rfl]))
    have hrun := hb.runs host _ π
      (fun x hx => by rw [← hplace]; exact hπ x (hvars_b x hx)) hvm₂
      (by exact hfork.length_mid.symm) (hapart.mono hSb hvars_b hapart.inPlace.2.2.2)
    rw [does_none] at hrun
    rw [hstop, ← hval_b]
    exact Computes.after (hp₁.trans hp₂) (hrun.mono fun r hr => hr.imp_right (hSb r))
  · next hnz =>
    -- the first branch, and the jump over the second
    rw [if_neg hnz] at hfetch
    have hp₂ := Passes.jump (T := fun r => r = dst ∨ r ∈ scratch st st') hfetch (Nat.le_refl _)
    have hcode := hc.segment.grows.code_le
    have hvm₂ : Holds { vm₁.advance with ip := vm₁.ip + 4 } (s₁.emitted .jz dst 0 0) s₂ :=
      ((hvm.of_core (hp₂.core.trans hp₁.core)).part (by rw [length_emitted]; omega)
        (by omega) (fun i h₁ h₂ => hfork.final_yes (.inr (by rwa [length_emitted] at h₁)) h₂)
        (by
          rw [hst', patchImm16_constPool]
          refine List.IsPrefix.trans ?_ hb.segment.grows.consts
          rw [hn, patchImm16_constPool]
          exact List.prefix_rfl))
    have hrun := ha.runs host _ π (fun x hx => by
        have hx' := ha.places x hx
        rw [← hnplace] at hx'
        rw [← hnplace]
        exact hb.segment.grows.place_eq hx' (by rw [← hplace]; exact hπ x (hvars_a x hx)))
      hvm₂ (by rw [length_emitted, ← hip₁]) (hapart.mono hSa hvars_a hapart.inPlace.2.2.1)
    rw [does_none] at hrun
    rw [← hval_a]
    replace hp₂ := hp₁.trans hp₂
    change Computes _ _ _ _ _ (valueAt π vm₁ a) at hrun
    replace hrun := hrun.mono fun r hr => hr.imp_right (hSa r)
    cases hy : valueAt π vm₁ a with
    | none =>
      rw [hy] at hrun
      exact DividesByZero.after hp₂ (DividesByZero.mono hrun (fun _ => id) (by omega))
    | some y =>
      rw [hy] at hrun
      obtain ⟨vm₃, hp₃, hip₃, hy₃⟩ := hrun
      have hjmp₃ : vm₃.InstAt vm₃.ip .jmp 0 (s₃.code.length / 256) (s₃.code.length % 256) := by
        rw [hip₃]
        exact (hvm.of_core (hp₃.core.trans hp₂.core)).inst hfork.jmp (by omega)
      have hfetch₃ := hjmp₃.jmp host (by omega) (by omega)
      rw [show s₃.code.length / 256 * 256 + s₃.code.length % 256 = s₃.code.length by omega]
        at hfetch₃
      have hp₄ := Passes.jump (T := fun r => r = dst ∨ r ∈ scratch st st') hfetch₃ (by omega)
      exact ⟨_, hp₂.trans (hp₃.trans hp₄), hstop.symm, hy₃⟩

end Compiler

end LatencyOS
