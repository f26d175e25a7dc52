import LatencyOS.Lib.Trace
import LatencyOS.Smp.Pipeline
import Mathlib.Tactic.Tauto

/-!
# Frames in flight

The pool has four slots and the capture core uses them in turn, while the two rings and the cores
behind them can hold many more handles.  A frame keeps its bytes as long as the capture core starts
a capture only when no handle in flight has the slot.
-/

namespace LatencyOS

namespace Smp

/-- The handle in the hand of the encode core. -/
def EncodeState.hand : EncodeState → List FrameHandle
  | .popping _ => []
  | .consumed h | .forwarding h _ => [h]

/-- The handle in the hand of the network core. -/
def NetworkState.hand : NetworkState → List FrameHandle
  | .popping _ => []
  | .sending h => [h]

/-- It is the turn of the capture core. -/
def PipelineAct.isCapture : PipelineAct → Bool
  | .capture _ _ => true
  | _ => false

namespace Pipeline

/-- The handles that were pushed by the capture core and neither dropped nor sent yet: those in the
first ring, in the hand of the encode core, in the second ring and in the hand of the network
core. -/
def inFlight (s : Pipeline) : List FrameHandle :=
  s.captured.drop s.encoded.length ++ s.encode.hand ++
    (s.forwarded.drop s.sent.length ++ s.network.hand)

/-- The slot of every handle in flight holds the bytes of its frame. -/
def Intact (s : Pipeline) : Prop :=
  ∀ h ∈ s.inFlight, ∀ n < 4, s.framePool h.slotId n = frameByte h.frameId n

/-- If the capture core starts to write a slot, no handle in flight has it. -/
def SlotFree (s : Pipeline) (act : PipelineAct) : Prop :=
  act.isCapture = true → s.capture = .writing 0 →
    ∀ h ∈ s.inFlight, h.slotId ≠ s.slotId % numFrameSlots

instance decidableSlotFree (s : Pipeline) (act : PipelineAct) : Decidable (SlotFree s act) :=
  inferInstanceAs (Decidable (_ → _ → ∀ h ∈ s.inFlight, _))

variable {s : Pipeline} {q₁ q₂ : List FrameHandle} {g : FrameHandle}

/-! ## Handles move on or are dropped -/

theorem inFlight_encodeStep (h : Inv s q₁ q₂) (hg : g ∈ s.encodeStep.inFlight) :
    g ∈ s.inFlight := by
  have henc := h.encode
  unfold encodeStep at hg
  unfold EncodeOk at henc
  have hsplit := h.split₁
  simp only [inFlight, List.mem_append] at hg ⊢
  cases hpc : s.encode with
  | popping p =>
    rw [hpc] at hg henc
    obtain ⟨q₁', hspec⟩ := pop_spec sizes_ring h.holds₁ henc.1
    dsimp only at hg
    revert hspec hg
    generalize pop ringCapacity p s.captureToEncodeRing = r
    obtain ⟨p', ring, result⟩ := r
    intro hg hspec
    rw [hspec.front] at hsplit
    rcases result with _ | _ | fh
    · simpa [taken, EncodeState.afterPop, EncodeState.hand] using hg
    · simpa [taken, EncodeState.afterPop, EncodeState.hand] using hg
    · rw [hsplit] at hg ⊢
      simp only [taken, Option.bind_some, id, Option.toList_some, List.singleton_append,
        List.length_append, List.length_singleton, List.drop_length_add_append, List.drop_left,
        List.drop_succ_cons, List.drop_zero, EncodeState.afterPop, EncodeState.hand,
        List.mem_cons] at hg ⊢
      tauto
  | consumed fh =>
    rw [hpc] at hg
    simpa [EncodeState.hand] using hg
  | forwarding fh p =>
    rw [hpc] at hg henc
    have hadds : p.adds (push ringCapacity fh p s.encodeToNetRing).2.2 = _ := adds_push henc.2.2
    dsimp only at hg
    rw [hadds, h.split₂] at hg
    rw [h.split₂]
    revert hg
    generalize (push ringCapacity fh p s.encodeToNetRing) = r
    obtain ⟨p', ring, result⟩ := r
    intro hg
    rcases result with _ | _ | _
    · simpa [EncodeState.hand] using hg
    · simp [EncodeState.hand] at hg ⊢
      tauto
    · simp [EncodeState.hand, List.append_assoc] at hg ⊢
      tauto

theorem inFlight_networkStep (h : Inv s q₁ q₂) {returns : Bool}
    (hg : g ∈ (s.networkStep returns).inFlight) : g ∈ s.inFlight := by
  have hnet := h.network
  unfold networkStep at hg
  unfold NetworkOk at hnet
  have hsplit := h.split₂
  simp only [inFlight, List.mem_append] at hg ⊢
  cases hpc : s.network with
  | popping p =>
    rw [hpc] at hg hnet
    obtain ⟨q₂', hspec⟩ := pop_spec sizes_ring h.holds₂ hnet
    dsimp only at hg
    revert hspec hg
    generalize pop ringCapacity p s.encodeToNetRing = r
    obtain ⟨p', ring, result⟩ := r
    intro hg hspec
    rw [hspec.front] at hsplit
    rcases result with _ | _ | fh
    · simpa [taken, NetworkState.hand] using hg
    · simpa [taken, NetworkState.hand] using hg
    · rw [hsplit] at hg ⊢
      simp only [taken, Option.bind_some, id, Option.toList_some, List.singleton_append,
        List.length_append, List.length_singleton, List.drop_length_add_append, List.drop_left,
        List.drop_succ_cons, List.drop_zero, NetworkState.hand, List.mem_cons] at hg ⊢
      tauto
  | sending fh =>
    rw [hpc] at hg
    dsimp only at hg
    split at hg
    · simp only [NetworkState.hand] at hg ⊢
      tauto
    · rw [hpc] at hg
      exact hg

/-- A capture adds the handle it pushes when the push succeeds. -/
theorem inFlight_captureStep (h : Inv s q₁ q₂) {vblankTsc captureDoneTsc : ℕ}
    (hg : g ∈ (s.captureStep vblankTsc captureDoneTsc).inFlight) :
    g ∈ s.inFlight ∨
      (∃ p, s.capture = .pushing g p) ∧
        (s.captureStep vblankTsc captureDoneTsc).capture = .pushed := by
  have hcap := h.capture
  unfold captureStep at hg ⊢
  unfold CaptureOk at hcap
  cases hpc : s.capture with
  | writing n =>
    rw [hpc] at hg
    dsimp only at hg
    split at hg <;> exact .inl hg
  | pushing fh p =>
    rw [hpc] at hg hcap
    have hadds : p.adds (push ringCapacity fh p s.captureToEncodeRing).2.2 = _ := adds_push hcap.2.1
    dsimp only at hg ⊢
    rw [hadds] at hg
    simp only [inFlight, h.split₁, List.mem_append, List.append_assoc, List.drop_left] at hg ⊢
    split at hg
    · next hok =>
      rw [hok]
      rcases hg with hg | hg | hg
      · exact .inl (.inl hg)
      · cases List.mem_singleton.mp hg
        exact .inr ⟨⟨p, rfl⟩, rfl⟩
      · exact .inl (.inr hg)
    · rcases hg with hg | hg | hg
      · exact .inl (.inl hg)
      · cases hg
      · exact .inl (.inr hg)
  | pushed =>
    rw [hpc] at hg
    exact .inl hg

/-! ## The slot of the capture core -/

/-- The slot the capture core writes is not in flight, and holds what it has written. -/
def CaptureSlot (s : Pipeline) : Prop :=
  match s.capture with
  | .writing n => (0 < n → ∀ h ∈ s.inFlight, h.slotId ≠ s.slotId % numFrameSlots) ∧
    ∀ j < n, j < 4 → s.framePool (s.slotId % numFrameSlots) j = frameByte s.frameSeq j
  | .pushing h _ => (∀ g ∈ s.inFlight, g.slotId ≠ h.slotId) ∧
    ∀ j < 4, s.framePool h.slotId j = frameByte h.frameId j
  | .pushed => True

/-- What holds while the capture core finds its slots free. -/
structure Kept (s : Pipeline) : Prop where
  inv : ∃ q₁ q₂, Inv s q₁ q₂
  intact : Intact s
  slot : CaptureSlot s

/-- A step of another core lets handles move on and leaves the rest. -/
theorem Kept.other {s' : Pipeline} (h : Kept s) (hinv : ∃ q₁ q₂, Inv s' q₁ q₂)
    (hflight : ∀ g ∈ s'.inFlight, g ∈ s.inFlight) (hpool : s'.framePool = s.framePool)
    (hcapture : s'.capture = s.capture) (hslot : s'.slotId = s.slotId)
    (hseq : s'.frameSeq = s.frameSeq) : Kept s' := by
  refine ⟨hinv, fun g hg => ?_, ?_⟩
  · rw [hpool]
    exact h.intact g (hflight g hg)
  · have hold := h.slot
    unfold CaptureSlot at hold ⊢
    rw [hcapture, hpool, hslot, hseq]
    cases hpc : s.capture with
    | writing n =>
      rw [hpc] at hold
      exact ⟨fun hn g hg => hold.1 hn g (hflight g hg), hold.2⟩
    | pushing fh p =>
      rw [hpc] at hold
      exact ⟨fun g hg => hold.1 g (hflight g hg), hold.2⟩
    | pushed => trivial

theorem frame_encodeStep (s : Pipeline) : s.encodeStep.framePool = s.framePool ∧
    s.encodeStep.capture = s.capture ∧ s.encodeStep.slotId = s.slotId ∧
    s.encodeStep.frameSeq = s.frameSeq := by
  unfold encodeStep
  split <;> exact ⟨rfl, rfl, rfl, rfl⟩

theorem frame_networkStep (s : Pipeline) (returns : Bool) :
    (s.networkStep returns).framePool = s.framePool ∧
    (s.networkStep returns).capture = s.capture ∧ (s.networkStep returns).slotId = s.slotId ∧
    (s.networkStep returns).frameSeq = s.frameSeq := by
  unfold networkStep
  split
  · exact ⟨rfl, rfl, rfl, rfl⟩
  · split <;> exact ⟨rfl, rfl, rfl, rfl⟩

theorem writeFrameByte_of_ne {pool : FramePool} {slotId frameId n slot : ℕ}
    (h : slot ≠ slotId % numFrameSlots) : writeFrameByte pool slotId frameId n slot = pool slot :=
  Function.update_of_ne h _ _

theorem writeFrameByte_self {pool : FramePool} {slotId frameId n j : ℕ} :
    writeFrameByte pool slotId frameId n (slotId % numFrameSlots) j =
      if j = n then frameByte frameId n else pool (slotId % numFrameSlots) j := by
  rw [writeFrameByte, Function.update_self, Function.update_apply]

/-- The capture core writes a byte of its slot, or has written all. -/
theorem kept_writing {n : ℕ} (h : Kept s) (hpc : s.capture = .writing n)
    (vblankTsc captureDoneTsc : ℕ) (hfree : SlotFree s (.capture vblankTsc captureDoneTsc))
    (hinv : ∃ q₁ q₂, Inv (s.captureStep vblankTsc captureDoneTsc) q₁ q₂) :
    Kept (s.captureStep vblankTsc captureDoneTsc) := by
  have hslot := h.slot
  unfold CaptureSlot at hslot
  rw [hpc] at hslot
  have hfree' : ∀ g ∈ s.inFlight, g.slotId ≠ s.slotId % numFrameSlots := by
    rcases Nat.eq_zero_or_pos n with rfl | hn
    · exact hfree rfl hpc
    · exact hslot.1 hn
  refine ⟨hinv, ?_, ?_⟩
  · unfold captureStep
    rw [hpc]
    dsimp only
    split
    · intro g hg k hk
      change writeFrameByte _ _ _ _ g.slotId k = _
      rw [writeFrameByte_of_ne (hfree' g hg)]
      exact h.intact g hg k hk
    · exact h.intact
  · unfold captureStep CaptureSlot
    rw [hpc]
    dsimp only
    by_cases hn : n < 4
    · simp only [if_pos hn]
      refine ⟨fun _ => hfree', fun j hj hj4 => ?_⟩
      rw [writeFrameByte_self]
      split
      · next heq => rw [heq]
      · exact hslot.2 j (by omega) hj4
    · simp only [if_neg hn]
      exact ⟨hfree', fun j hj => hslot.2 j (by omega) hj⟩

/-- The capture core pushes its handle. -/
theorem kept_pushing {fh : FrameHandle} {p : PushState FrameHandle} (h : Kept s)
    (hpc : s.capture = .pushing fh p) (vblankTsc captureDoneTsc : ℕ) :
    Kept (s.captureStep vblankTsc captureDoneTsc) := by
  obtain ⟨q₁, q₂, hinv⟩ := h.inv
  obtain ⟨q₁', hinv'⟩ := inv_captureStep hinv vblankTsc captureDoneTsc
  have hslot := h.slot
  unfold CaptureSlot at hslot
  rw [hpc] at hslot
  have hpool : (s.captureStep vblankTsc captureDoneTsc).framePool = s.framePool := by
    unfold captureStep
    rw [hpc]
  have hflight : ∀ g ∈ (s.captureStep vblankTsc captureDoneTsc).inFlight, g ∈ s.inFlight ∨
      g = fh ∧ (s.captureStep vblankTsc captureDoneTsc).capture = .pushed := by
    intro g hg
    refine (inFlight_captureStep hinv hg).imp_right fun hnew => ?_
    obtain ⟨⟨p', hp'⟩, hdone⟩ := hnew
    rw [hpc] at hp'
    cases hp'
    exact ⟨rfl, hdone⟩
  refine ⟨⟨q₁', q₂, hinv'⟩, fun g hg => ?_, ?_⟩
  · rw [hpool]
    rcases hflight g hg with hold | hnew
    · exact h.intact g hold
    · rw [hnew.1]
      exact hslot.2
  · have hcapture : (s.captureStep vblankTsc captureDoneTsc).capture =
        .afterPush fh (push ringCapacity fh p s.captureToEncodeRing).1
          (push ringCapacity fh p s.captureToEncodeRing).2.2 := by
      unfold captureStep
      exact hpc ▸ rfl
    unfold CaptureSlot
    rw [hpool]
    rw [hcapture] at hflight ⊢
    revert hflight
    generalize push ringCapacity fh p s.captureToEncodeRing = r
    obtain ⟨p', ring, result⟩ := r
    intro hflight
    rcases result with _ | _ | _
    · refine ⟨fun g hg => ?_, hslot.2⟩
      rcases hflight g hg with hold | hnew
      · exact hslot.1 g hold
      · cases hnew.2
    · exact ⟨fun hlt => absurd hlt (Nat.lt_irrefl 0), fun j hj => absurd hj (Nat.not_lt_zero j)⟩
    · trivial

theorem kept_captureStep (h : Kept s) (vblankTsc captureDoneTsc : ℕ)
    (hfree : SlotFree s (.capture vblankTsc captureDoneTsc)) :
    Kept (s.captureStep vblankTsc captureDoneTsc) := by
  obtain ⟨q₁, q₂, hinv⟩ := h.inv
  obtain ⟨q₁', hinv'⟩ := inv_captureStep hinv vblankTsc captureDoneTsc
  cases hpc : s.capture with
  | writing n => exact kept_writing h hpc vblankTsc captureDoneTsc hfree ⟨q₁', q₂, hinv'⟩
  | pushing fh p => exact kept_pushing h hpc vblankTsc captureDoneTsc
  | pushed =>
    refine ⟨⟨q₁', q₂, hinv'⟩, ?_, ?_⟩
    · unfold captureStep
      rw [hpc]
      exact h.intact
    · unfold captureStep CaptureSlot
      rw [hpc]
      exact ⟨fun hlt => absurd hlt (Nat.lt_irrefl 0), fun j hj => absurd hj (Nat.not_lt_zero j)⟩

theorem kept_step (s : Pipeline) (act : PipelineAct) (h : Kept s) (hfree : SlotFree s act) :
    Kept (s.step act) := by
  obtain ⟨q₁, q₂, hinv⟩ := h.inv
  cases act with
  | capture vblankTsc captureDoneTsc => exact kept_captureStep h vblankTsc captureDoneTsc hfree
  | encode =>
    obtain ⟨hpool, hcapture, hslot, hseq⟩ := frame_encodeStep s
    exact h.other (inv_encodeStep hinv) (fun _ => inFlight_encodeStep hinv) hpool hcapture hslot
      hseq
  | network returns =>
    obtain ⟨hpool, hcapture, hslot, hseq⟩ := frame_networkStep s returns
    obtain ⟨q₂', hinv'⟩ := inv_networkStep hinv returns
    exact h.other ⟨q₁, q₂', hinv'⟩ (fun _ => inFlight_networkStep hinv) hpool hcapture hslot hseq

theorem kept_new : Kept new where
  inv := ⟨[], [], inv_new⟩
  intact := nofun
  slot := ⟨fun hlt => absurd hlt (Nat.lt_irrefl 0), fun j hj => absurd hj (Nat.not_lt_zero j)⟩

/-- In every run in which the capture core starts to write a slot only when no handle in flight has
it, every frame in flight keeps its bytes. -/
theorem intact_run (acts : List PipelineAct) (hfree : AlongFold step SlotFree new acts) :
    Intact (new.run acts) :=
  (foldl_invariant kept_step kept_new hfree).intact

theorem oneFrame_intact : AlongFold step SlotFree new oneFrame ∧ Intact (new.run oneFrame) := by
  have hfree : AlongFold step SlotFree new oneFrame := by decide +kernel
  exact ⟨hfree, intact_run oneFrame hfree⟩

/-- Four captures and the first byte of a fifth, with no other core at work. -/
def fifthFrame : List PipelineAct := List.replicate 41 (.capture 1 2)

theorem fifthFrame_overwrites : ¬ ∀ acts, Intact (new.run acts) := by
  intro hall
  have hbad : ((new.run fifthFrame).inFlight.all fun h =>
      decide ((new.run fifthFrame).framePool h.slotId 0 = frameByte h.frameId 0)) = false := by
    decide +kernel
  have hgood : ((new.run fifthFrame).inFlight.all fun h =>
      decide ((new.run fifthFrame).framePool h.slotId 0 = frameByte h.frameId 0)) = true :=
    List.all_eq_true.mpr fun h hh => decide_eq_true (hall fifthFrame h hh 0 (by decide))
  rw [hbad] at hgood
  cases hgood

end Pipeline

end Smp

end LatencyOS
