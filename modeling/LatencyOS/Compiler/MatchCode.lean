import LatencyOS.Compiler.ArmCode
import LatencyOS.Compiler.Discipline.Zones

/-!
# The code of a `match`

The arms of a `match` follow one another: the head of each goes on at its body or at the next
head, and each body ends with a jump behind the last arm.

## Main definitions

* `ArmsCode`: what the code of a list of arms is, and what it does.

## Main results

* `armsCode_of_yields`: the loop over the arms emits such code.
* `landAll_of_yields`: the jumps behind the bodies land.
-/

namespace LatencyOS

open CompilerState PX64VM

namespace Compiler

variable {st s t u v : CompilerState} {fuel n reg pos done : ℕ} {arms seen : Arms} {h : ArmHead}
  {x : Unit} {vm : PX64VM} {host : Host}

/-! ## An arm -/

/-- The statements of an arm are compiled: what is left is the jump behind the `match`, and the
jump that skips the body lands behind it. -/
def ended (u : CompilerState) (skip : Option ℕ) : CompilerState :=
  match skip with
  | none => u.emitted .jmp 0 0 0
  | some pos => (u.emitted .jmp 0 0 0).patchImm16 pos (u.code.length + 4)

/-- An arm behind its head is its statements and a jump. -/
theorem rest_of_yields (hy : Yields (h.rest (recN fuel n)) s seen t) :
    ∃ u, Yields (armStatements (recN fuel n)) s () u ∧ u.code.length + 4 ≤ maxBytecodeSize ∧
      seen.jumps = h.seen.jumps ++ [u.code.length] ∧ t = ended u h.skip := by
  rw [ArmHead.rest] at hy
  cases hskip : h.skip with
  | none =>
    rw [hskip] at hy
    simp only [armBody_eq, yields_bind, emitImm16, yields_emitInst, yields_pure] at hy
    obtain ⟨_, _, ⟨_, u, hstatements, hroom, rfl, rfl⟩, rfl, rfl⟩ := hy
    exact ⟨u, hstatements, hroom, rfl, rfl⟩
  | some pos =>
    rw [hskip] at hy
    simp only [guardedBody, armBody_eq, yields_bind, emitImm16, yields_emitInst, yields_codeLen,
      yields_patchImm16, yields_pure] at hy
    obtain ⟨_, _, ⟨_, _, ⟨_, u, hstatements, hroom, rfl, rfl⟩, _, _, ⟨rfl, rfl⟩, _, _, rfl, rfl,
      rfl⟩, rfl, rfl⟩ := hy
    refine ⟨u, hstatements, hroom, rfl, ?_⟩
    rw [length_emitted]
    rfl

variable {skip : Option ℕ}

@[simp] theorem length_ended : (ended u skip).code.length = u.code.length + 4 := by
  cases skip with
  | none => exact length_emitted ..
  | some pos => rw [ended, length_patchImm16, length_emitted]

@[simp] theorem ended_constPool : (ended u skip).constPool = u.constPool := by
  cases skip with
  | none => rfl
  | some pos => rw [ended, patchImm16_constPool]; rfl

/-- The head is there, with the target of its jump. -/
theorem getElem?_ended_head (hp : s.code <+: u.code)
    (hpos : ∀ pos, skip = some pos → pos + 4 ≤ s.code.length) {i : ℕ} (hi : i < s.code.length) :
    (ended u skip).code[i]? = (match skip with
      | none => s
      | some pos => s.patchImm16 pos (u.code.length + 4)).code[i]? := by
  have hle := hp.length_le
  have hp' : s.code <+: (u.emitted .jmp 0 0 0).code := hp.trans (code_prefix_emitted ..)
  cases skip with
  | none =>
    obtain ⟨rest, hrest⟩ := hp'
    rw [ended, ← hrest, List.getElem?_append_left hi]
  | some pos => exact getElem?_patchImm16_of_prefix hp' (hpos pos rfl) hi

/-- Behind the head, the code is what was emitted. -/
theorem getElem?_ended {i : ℕ} (hpos : ∀ pos, skip = some pos → pos + 4 ≤ i) :
    (ended u skip).code[i]? = (u.emitted .jmp 0 0 0).code[i]? := by
  cases skip with
  | none => rfl
  | some pos => exact getElem?_patchImm16_of_ne (.inr (hpos pos rfl))

/-! ## The arms -/

/-- A machine holds code, the targets of the jumps at `stops` aside. -/
structure Linked (vm : PX64VM) (stops : List ℕ) (st s : CompilerState) : Prop where
  code : ∀ i, st.code.length ≤ i → i < s.code.length → (∀ p ∈ stops, i < p + 2 ∨ p + 4 ≤ i) →
    vm.code[i]? = s.code[i]?
  consts : s.constPool <+: vm.constPool

/-- A machine is at the head of an arm. -/
def AtHeads (arms : List Arm) (lo hi : ℕ) (vm : PX64VM) : Prop :=
  lo ≤ vm.ip ∧ vm.ip < hi ∧ ∀ a ∈ arms, vm.ip < a.body ∨ a.stop + 4 ≤ vm.ip

/-- The first arm whose pattern matches a word. -/
def firstMatch (str : Word64 → Option (List UInt8)) (w : Word64) (arms : List Arm) : Option Arm :=
  arms.find? fun a => decide (a.pattern.Matches str w)

/-- The code of the arms of a `match`: the heads lead to the body of the first arm that matches,
or behind the last arm. -/
structure ArmsCode (reg : ℕ) (arms : List Arm) (st s : CompilerState) : Prop where
  code : st.code <+: s.code
  order : arms.Pairwise fun a b => a.stop + 4 ≤ b.body
  bounds : ∀ a ∈ arms, st.code.length ≤ a.body ∧ a.body ≤ a.stop ∧ a.stop + 4 ≤ s.code.length
  jumps : ∀ a ∈ arms, InstIn s a.stop .jmp 0 0 0
  regions : ∀ a ∈ arms, ClosedRegion s.code a.body a.stop
  runs : ∀ (host : Host) (vm : PX64VM), Linked vm (arms.map (·.stop)) st s →
    vm.ip = st.code.length → reg < 20 → s.code.length < 65536 →
    ∃ vm', Machine.Through (fetch host) (AtHeads arms st.code.length s.code.length) vm vm' ∧
      vm'.core = vm.core ∧ vm'.ip =
        ((firstMatch vm.getStrBytes (vm.regs reg) arms).map (·.body)).getD s.code.length

/-- No arm is left. -/
theorem armsCode_nil (h : s.code = st.code) : ArmsCode reg [] st s where
  code := h ▸ List.prefix_rfl
  order := .nil
  bounds := fun _ ha => absurd ha List.not_mem_nil
  jumps := fun _ ha => absurd ha List.not_mem_nil
  regions := fun _ ha => absurd ha List.not_mem_nil
  runs := fun _ vm _ hip _ _ =>
    ⟨vm, .refl vm, rfl, hip.trans (congrArg List.length h.symm)⟩

/-- The code of an arm and of those behind it. -/
theorem armsCode_cons {hd : CompilerState} {q : Pattern} {b : Bool} {rest : List Arm}
    (hst : st.code <+: hd.code)
    (hskip : ∀ pos, skip = some pos → st.code.length ≤ pos ∧ pos + 4 ≤ hd.code.length)
    (hbody : hd.code <+: u.code) (hregion : ClosedRegion u.code hd.code.length u.code.length)
    (tail : ArmsCode reg rest (ended u skip) s)
    (hruns : ∀ (host : Host) (vm : PX64VM),
      Linked vm ((⟨q, b, hd.code.length, u.code.length⟩ :: rest : List Arm).map (·.stop)) st s →
      vm.ip = st.code.length → reg < 20 → s.code.length < 65536 →
      ∃ vm', Machine.Through (fetch host)
          (AtHeads (⟨q, b, hd.code.length, u.code.length⟩ :: rest) st.code.length s.code.length)
          vm vm' ∧ vm'.core = vm.core ∧ vm'.ip =
        ((firstMatch vm.getStrBytes (vm.regs reg)
          (⟨q, b, hd.code.length, u.code.length⟩ :: rest)).map (·.body)).getD s.code.length) :
    ArmsCode reg (⟨q, b, hd.code.length, u.code.length⟩ :: rest) st s := by
  have h₁ := hst.length_le
  have h₂ := hbody.length_le
  have h₃ := tail.code.length_le
  rw [length_ended] at h₃
  have htail (a : Arm) (ha : a ∈ rest) := tail.bounds a ha
  rw [length_ended] at htail
  have hsame (i : ℕ) (hi : hd.code.length ≤ i) (hlt : i < u.code.length + 4) :
      s.code[i]? = (u.emitted .jmp 0 0 0).code[i]? := by
    obtain ⟨more, hmore⟩ := tail.code
    rw [← hmore, List.getElem?_append_left (by rwa [length_ended])]
    exact getElem?_ended fun pos hpos => Nat.le_trans (hskip pos hpos).2 hi
  refine ⟨?_, List.pairwise_cons.mpr ⟨fun a ha => (htail a ha).1, tail.order⟩, ?_, ?_, ?_, hruns⟩
  · refine List.IsPrefix.trans ?_ tail.code
    refine List.prefix_iff_getElem?.mpr fun i hi => ?_
    rw [getElem?_ended_head hbody (fun pos hpos => (hskip pos hpos).2) (by omega)]
    obtain ⟨more, hmore⟩ := hst
    have hhd : hd.code[i]? = some st.code[i] := by
      rw [← hmore, List.getElem?_append_left hi, List.getElem?_eq_getElem hi]
    cases skip with
    | none => exact hhd
    | some pos =>
      have := (hskip pos rfl).1
      rw [getElem?_patchImm16_of_ne (.inl (by omega)), hhd]
  · rintro a (_ | ⟨_, ha⟩)
    · exact ⟨h₁, h₂, h₃⟩
    · have := htail a ha
      omega
  · rintro a (_ | ⟨_, ha⟩)
    · intro i hi
      change s.code[u.code.length + i]? = _
      rw [hsame _ (by omega) (by omega)]
      exact instIn_emitted u .jmp 0 0 0 i hi
    · exact tail.jumps a ha
  · rintro a (_ | ⟨_, ha⟩)
    · refine hregion.congr fun i hlo hhi => ?_
      rw [hsame i hlo (by omega), CompilerState.emitted, List.getElem?_append_left hhi]
    · exact tail.regions a ha

variable {hd : CompilerState} {q : Pattern} {b : Bool} {rest : List Arm}

/-- What is linked behind the first jump. -/
theorem Linked.tail {stops : List ℕ} (h : Linked vm (pos :: stops) st s)
    (hle : st.code.length ≤ t.code.length) (hpos : pos + 4 ≤ t.code.length) :
    Linked vm stops t s where
  code := fun i hi hlt hstops => h.code i (by omega) hlt fun p hp => by
    rcases List.mem_cons.mp hp with rfl | hp
    · exact .inr (by omega)
    · exact hstops p hp
  consts := h.consts

theorem Linked.of_core {vm' : PX64VM} {stops : List ℕ} (h : Linked vm stops st s)
    (hcore : vm'.core = vm.core) : Linked vm' stops st s where
  code := fun i h₁ h₂ hp => by
    rw [code_of_core hcore]
    exact h.code i h₁ h₂ hp
  consts := by
    rw [constPool_of_core hcore]
    exact h.consts

theorem firstMatch_cons {str : Word64 → Option (List UInt8)} {w : Word64} {a : Arm} :
    firstMatch str w (a :: rest) = if a.pattern.Matches str w then some a
      else firstMatch str w rest := by
  rw [firstMatch, List.find?_cons]
  by_cases hm : a.pattern.Matches str w
  · rw [decide_eq_true hm, if_pos hm]
  · rw [decide_eq_false hm, if_neg hm]
    rfl

/-- An arm that tests the matched value. -/
theorem armsCode_tested (hhead : HeadCode reg q pos st hd) (hfree : ¬ st.Free reg)
    (hbody : hd.code <+: u.code) (hregion : ClosedRegion u.code hd.code.length u.code.length)
    (hconsts : hd.constPool <+: s.constPool) (tail : ArmsCode reg rest (ended u (some pos)) s) :
    ArmsCode reg (⟨q, b, hd.code.length, u.code.length⟩ :: rest) st s := by
  have h₁ := hhead.code.length_le
  have h₂ := hbody.length_le
  have h₃ := tail.code.length_le
  rw [length_ended] at h₃
  have htail (a : Arm) (ha : a ∈ rest) := tail.bounds a ha
  rw [length_ended] at htail
  refine armsCode_cons hhead.code (by rintro _ ⟨⟩; exact ⟨hhead.pos_ge, hhead.pos_le⟩) hbody hregion
    tail fun host vm hvm hip hreg hlen => ?_
  have hholds : Holds vm st (hd.patchImm16 pos (u.code.length + 4)) := by
    refine ⟨fun i hi hlt => ?_, ?_⟩
    · rw [length_patchImm16] at hlt
      rw [hvm.code i hi (by omega)]
      · obtain ⟨more, hmore⟩ := tail.code
        rw [← hmore, List.getElem?_append_left (by rw [length_ended]; omega)]
        exact getElem?_ended_head hbody (by rintro _ ⟨⟩; exact hhead.pos_le) hlt
      · rintro p hp
        obtain ⟨a, ha, rfl⟩ := List.mem_map.mp hp
        rcases List.mem_cons.mp ha with rfl | ha
        · exact .inl (by change i < u.code.length + 2; omega)
        · have := htail a ha
          exact .inl (by omega)
    · rw [patchImm16_constPool]
      exact hconsts.trans hvm.consts
  have hheads : ∀ vm' : PX64VM, st.code.length ≤ vm'.ip ∧ vm'.ip < hd.code.length →
      AtHeads (⟨q, b, hd.code.length, u.code.length⟩ :: rest) st.code.length s.code.length vm' := by
    intro vm' hin
    refine ⟨hin.1, by omega, fun a ha => .inl ?_⟩
    rcases List.mem_cons.mp ha with rfl | ha
    · exact hin.2
    · have := htail a ha
      omega
  obtain ⟨hyes, hno⟩ := hhead.runs host vm _ hholds hip (by omega) (by omega) hreg hfree
  rw [firstMatch_cons]
  by_cases hm : q.Matches vm.getStrBytes (vm.regs reg)
  · obtain ⟨vm₁, hp, hip₁⟩ := hyes hm
    refine ⟨vm₁, hp.inside.mono hheads, hp.core, ?_⟩
    rw [if_pos hm, hip₁]
    rfl
  · obtain ⟨vm₁, hp, hip₁⟩ := hno hm
    have hvm₁ : Linked vm₁ (rest.map (·.stop)) (ended u (some pos)) s :=
      (hvm.tail (by rw [length_ended]; omega) (by rw [length_ended])).of_core hp.core
    obtain ⟨vm₂, hthrough, hcore, hip₂⟩ := tail.runs host vm₁ hvm₁
      (by rw [hip₁, length_ended]) hreg hlen
    refine ⟨vm₂, (hp.inside.mono hheads).trans (hthrough.mono fun t ht => ?_),
      hcore.trans hp.core, ?_⟩
    · obtain ⟨hge, hlt, hout⟩ := ht
      rw [length_ended] at hge
      refine ⟨by omega, hlt, fun a ha => ?_⟩
      rcases List.mem_cons.mp ha with rfl | ha
      · exact .inr hge
      · exact hout a ha
    · rw [if_neg hm, hip₂, getStrBytes_of_core hp.core, hp.frame reg fun hne => hne rfl]

/-- A wildcard arm. -/
theorem armsCode_wildcard (hhead : Still st hd) (hbody : hd.code <+: u.code)
    (hregion : ClosedRegion u.code hd.code.length u.code.length) :
    ArmsCode reg [⟨.wildcard, b, hd.code.length, u.code.length⟩] st (ended u none) := by
  have hle := hbody.length_le
  refine armsCode_cons (hhead.code ▸ List.prefix_rfl) (fun _ hpos => by cases hpos) hbody hregion
    (armsCode_nil rfl) fun host vm _ hip _ _ => ⟨vm, .refl vm, rfl, ?_⟩
  rw [firstMatch_cons, if_pos (show Pattern.wildcard.Matches _ _ from trivial), hip, ← hhead.code]
  rfl

/-- No arm is left: nothing is emitted. -/
theorem armHead_none (hy : Yields (armHead (recN fuel n) reg seen) st none s) : s = st := by
  simp only [armHead, yields_bind, yields_peek] at hy
  obtain ⟨_, _, ⟨rfl, rfl⟩, hy⟩ := hy
  split at hy
  · exact (yields_pure.mp hy).2
  · simp only [yields_bind, yields_require] at hy
    obtain ⟨_, _, ⟨-, rfl⟩, name, _, -, next, _, -, hy⟩ := hy
    repeat' split at hy
    all_goals
      obtain ⟨_, -, hnone⟩ := yields_map.mp hy
      cases hnone

theorem armsFrom_none {r : Rec} {k : ℕ} (hy : Yields (armHead r reg seen) st none s) :
    armsFrom r reg (k + 1) seen st = [] := by
  rw [Yields] at hy
  rw [armsFrom, hy]

theorem armsFrom_some {r : Rec} {k : ℕ} (hhead : Yields (armHead r reg arms) st (some h) hd)
    (hrest : Yields (h.rest r) hd seen t) : armsFrom r reg (k + 1) arms st =
      ⟨st.patternAt, st.tempUsed (15 - reg), hd.code.length, t.code.length - 4⟩ ::
        if h.skip.isNone then [] else armsFrom r reg k seen t := by
  rw [Yields] at hhead hrest
  rw [armsFrom, hhead]
  simp only [hrest]

variable {S : Session} [Calls S (recN fuel n)]

theorem placed_of_armHead {o : Option ArmHead} (hs : Sound S arms.jumps st)
    (hy : Yields (armHead (recN fuel n) reg arms) st o hd) : Placed hd :=
  (hs.of_closes (fun o : Option ArmHead => (o.bind (·.skip)).toList ++ arms.jumps) hy).placed

variable [InStatement S]

/-- The arms are compiled one after the other. -/
theorem armsCode_of_yields {k : ℕ} {seen' : Arms}
    (hy : Yields (loop k seen (matchArm (recN fuel n) reg)) st seen' s)
    (hs : Sound S seen.jumps st) (hfits : Fits st)
    (harms : ∀ a ∈ armsFrom (recN fuel n) reg k seen st, a.pattern ≠ .other ∧ a.reserved = true) :
    ArmsCode reg (armsFrom (recN fuel n) reg k seen st) st s ∧
      seen'.jumps = seen.jumps ++ (armsFrom (recN fuel n) reg k seen st).map (·.stop) := by
  induction k generalizing seen st with
  | zero => cases hy
  | succ k ih =>
    obtain ⟨_, t, r, hk, hstep, hrest⟩ := yields_loop hy
    obtain rfl := Nat.succ.inj hk
    have hnext : Sound S (stepValue r).jumps t := by
      have hs' : Sound S (seen.jumps ++ []) st := by rwa [List.append_nil]
      have hend := ((runs_matchArm (r := recN fuel n) reg hs').of_yields hstep).1
      rwa [List.append_nil] at hend
    have hfits' := fits_of_yields hstep hfits
    rw [matchArm_eq, yields_bind] at hstep
    obtain ⟨o, hd, hhead, hstep⟩ := hstep
    cases o with
    | none =>
      rw [armsFrom_none hhead]
      obtain rfl := armHead_none hhead
      obtain ⟨rfl, rfl⟩ := yields_pure.mp hstep
      obtain ⟨rfl, rfl⟩ := hrest
      exact ⟨armsCode_nil rfl, (List.append_nil _).symm⟩
    | some h =>
      simp only [ArmHead.finish, yields_bind] at hstep
      obtain ⟨seen₁, t', harm, hstep⟩ := hstep
      obtain ⟨rfl, rfl⟩ := yields_pure.mp hstep
      rw [armsFrom_some hhead harm] at harms ⊢
      have hplaced := placed_of_armHead hs hhead
      obtain ⟨hother, hreserved⟩ := harms _ List.mem_cons_self
      obtain ⟨hjumps, hcases⟩ := armHead_of_yields hfits hother hhead
      obtain ⟨u, hstatements, hroom, hseen, ht⟩ := rest_of_yields harm
      obtain ⟨hbody, hregion⟩ := region_of_yields fuel n hplaced hstatements
      have hfree : ¬ st.Free reg := fun hr => Bool.noConfusion (hreserved.symm.trans hr.2.2)
      have hstop : t.code.length - 4 = u.code.length := by
        rw [ht, length_ended, Nat.add_sub_cancel]
      rw [hstop]
      rcases hcases with ⟨hskip, hwild, hstill⟩ | ⟨pos, hskip, hcode⟩
      · rw [hskip] at hrest ht ⊢
        obtain ⟨rfl, rfl⟩ := hrest
        rw [hwild, ht]
        refine ⟨armsCode_wildcard hstill hbody hregion, ?_⟩
        rw [hseen, hjumps]
        rfl
      · rw [hskip] at hrest hnext ht harms ⊢
        obtain ⟨tail, htail⟩ :=
          ih hrest hnext hfits' fun a ha => harms a (List.mem_cons_of_mem _ ha)
        have hconsts : hd.constPool <+: s.constPool :=
          (pools_of_yields harm).1.trans (pools_of_yields hrest).1
        rw [ht] at tail
        refine ⟨armsCode_tested hcode hfree hbody hregion hconsts (ht ▸ tail), ?_⟩
        rw [htail, hseen, hjumps, List.append_assoc]
        rfl

/-! ## The whole `match` -/

/-- What landing jumps does to the code. -/
structure Landed (jumps : List ℕ) (s t : CompilerState) : Prop where
  length : t.code.length = s.code.length
  consts : t.constPool = s.constPool
  same : ∀ i, (∀ p ∈ jumps, i < p + 2 ∨ p + 4 ≤ i) → t.code[i]? = s.code[i]?
  insts : jumps.Pairwise (fun p q => p + 4 ≤ q) → ∀ p ∈ jumps, InstIn s p .jmp 0 0 0 →
    p + 4 ≤ maxBytecodeSize → InstIn t p .jmp 0 (s.code.length / 256) (s.code.length % 256)

theorem landAll_of_yields {jumps : List ℕ} (hy : Yields (landAll jumps) s x t) :
    Landed jumps s t := by
  induction jumps generalizing s with
  | nil =>
    obtain ⟨-, rfl⟩ := yields_pure.mp hy
    exact ⟨rfl, rfl, fun _ _ => rfl, fun _ p hp => absurd hp List.not_mem_nil⟩
  | cons pos rest ih =>
    simp only [landAll, yields_bind, yields_codeLen, yields_patchImm16] at hy
    obtain ⟨_, _, ⟨rfl, rfl⟩, _, _, rfl, hy⟩ := hy
    rename_i s _
    have htail := ih hy
    have hlen : (s.patchImm16 pos s.code.length).code.length = s.code.length := length_patchImm16 ..
    refine ⟨htail.length.trans hlen, htail.consts.trans (patchImm16_constPool ..), fun i hi => ?_,
      fun hapart p hp hin hroom => ?_⟩
    · rw [htail.same i fun p hp => hi p (List.mem_cons_of_mem _ hp),
        getElem?_patchImm16_of_ne (hi pos List.mem_cons_self)]
    · obtain ⟨hfirst, hrest⟩ := List.pairwise_cons.mp hapart
      rcases List.mem_cons.mp hp with rfl | hp
      · refine (hin.patchImm16 hroom).of_eq fun i h₁ h₂ => htail.same i fun q hq => ?_
        have := hfirst q hq
        omega
      · have hle := hfirst p hp
        have hin' : InstIn (s.patchImm16 pos s.code.length) p .jmp 0 0 0 :=
          hin.of_eq fun i h₁ h₂ => getElem?_patchImm16_of_ne (.inr (by omega))
        have hlast := htail.insts hrest p hp hin' hroom
        rwa [hlen] at hlast

theorem checkExhaustive_of_yields (hy : Yields (checkExhaustive seen) s x t) : t = s := by
  simp only [checkExhaustive, yields_bind, yields_get] at hy
  obtain ⟨_, _, ⟨rfl, rfl⟩, hy⟩ := hy
  split at hy
  · exact (yields_require.mp hy).2
  · split at hy
    · exact absurd hy not_yields_fail
    split at hy
    · exact absurd hy not_yields_fail
    · exact (yields_pure.mp hy).2

/-- Behind the last arm, the jumps land. -/
theorem matchTail_of_yields (hy : Yields (matchTail reg seen) s x t) : Landed seen.jumps s t := by
  simp only [matchTail, yields_bind, yields_require, yields_freeTemp] at hy
  obtain ⟨_, _, hclosed, _, _, ⟨-, rfl⟩, _, s₁, hcheck, _, s₂, hland, _, _, rfl, hskip⟩ := hy
  obtain rfl := checkExhaustive_of_yields hcheck
  have h₁ := (moved_matchToken hclosed).still
  have h₂ := landAll_of_yields hland
  simp only [skip, yields_bind, yields_pure] at hskip
  obtain ⟨_, _, hsemi, -, rfl⟩ := hskip
  have h₃ := (moved_matchToken hsemi).still
  have hcode₁ : s₁.code = s.code := h₁.code
  have hcode₃ : t.code = s₂.code := h₃.code.trans (freeTemp_code ..)
  refine ⟨?_, ?_, fun i hi => ?_, fun hapart p hp hin hroom => ?_⟩
  · rw [hcode₃, h₂.length, hcode₁]
  · rw [h₃.consts, freeTemp_constPool, h₂.consts, h₁.consts]
  · rw [hcode₃, h₂.same i hi, hcode₁]
  · have hin' : InstIn s₁ p .jmp 0 0 0 := hin.of_eq fun i _ _ => by rw [hcode₁]
    have hlast := h₂.insts hapart p hp hin' hroom
    rw [hcode₁] at hlast
    exact hlast.of_eq fun i _ _ => by rw [hcode₃]

instance keeps_matchHead {r : Rec} {S : Session} [Calls S r] [InStatement S] :
    Keeps S (matchHead r) := by
  dsimp only [matchHead]
  infer_instance

/-- The arms of a `match` and what is behind them. -/
theorem matchStatement_of_yields (hhead : Yields (matchHead (recN fuel n)) st (reg, seen) s)
    (hy : Yields (matchStatement (recN fuel n)) st x t) :
    ∃ seen' u, Yields (loop fuel seen (matchArm (recN fuel n) reg)) s seen' u ∧
      Yields (matchTail reg seen') u () t ∧
      matchArms (recN fuel n) st = armsFrom (recN fuel n) reg fuel seen s := by
  rw [matchStatement_eq, fuel_recN] at hy
  obtain ⟨_, _, hhead', hy⟩ := yields_bind.mp hy
  obtain ⟨heq, rfl⟩ := Prod.mk.inj (Except.ok.inj (hhead.symm.trans hhead'))
  obtain ⟨seen', u, hloop, htail⟩ := yields_bind.mp hy
  rw [← heq] at hloop htail
  refine ⟨seen', u, hloop, htail, ?_⟩
  rw [Yields] at hhead
  rw [matchArms, hhead, fuel_recN]

end Compiler

end LatencyOS
