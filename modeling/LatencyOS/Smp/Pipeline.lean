import LatencyOS.Smp.RingBuffer

/-!
# The frame pipeline

Three cores run one loop each.  The capture core writes a frame into a slot of the pool and pushes
a handle of it onto the first ring, the encode core passes handles on to the second ring, and the
network core sends the frames.  Every push may fail: the capture core then captures the same frame
again, and the encode core drops the handle.  The loops interleave at their accesses of shared
memory.
-/

namespace LatencyOS

namespace Smp

def numFrameSlots : ℕ := 4

/-- The capacity of both rings. -/
def ringCapacity : ℕ := 16

/-- The number of values of a `u64`. -/
def u64Size : ℕ := 2 ^ 64

/-- A frame of the pool.  What is the same for every frame, and the address that goes with the
slot, are left out. -/
structure FrameHandle where
  slotId : ℕ
  frameId : ℕ
  crc32 : UInt32
  vblankTsc : ℕ
  captureDoneTsc : ℕ
  deriving DecidableEq

/-- `FrameHandle::empty`. -/
def FrameHandle.empty : FrameHandle := ⟨0, 0, 0, 0, 0⟩

/-- The bytes of the slots. -/
abbrev FramePool := ℕ → ℕ → UInt8

def FramePool.new : FramePool
  | 0 => fun _ => 0x5A
  | 1 => fun _ => 0xA5
  | 2 => fun _ => 0x3C
  | _ => fun _ => 0xC3

/-- An entry of the CRC table. -/
def crc32Entry (i : UInt32) : UInt32 :=
  Nat.iterate
    (fun crc : UInt32 => if crc &&& 1 ≠ 0 then (crc >>> 1) ^^^ 0xEDB88320 else crc >>> 1) 8 i

/-- `compute_crc32`. -/
def computeCrc32 (data : List UInt8) : UInt32 :=
  ~~~ data.foldl (fun crc byte => (crc >>> 8) ^^^ crc32Entry ((crc ^^^ byte.toUInt32) &&& 0xFF))
    0xFFFFFFFF

/-! ## `capture_frame_zero_copy` -/

/-- Byte `n` of a frame id. -/
def frameByte (frameId n : ℕ) : UInt8 := UInt8.ofNat (frameId >>> (8 * n))

/-- The write of byte `n` of the frame id into a slot. -/
def writeFrameByte (pool : FramePool) (slotId frameId n : ℕ) : FramePool :=
  Function.update pool (slotId % numFrameSlots)
    (Function.update (pool (slotId % numFrameSlots)) n (frameByte frameId n))

/-- The handle that is returned. -/
def frameHandle (pool : FramePool) (slotId frameId vblankTsc captureDoneTsc : ℕ) : FrameHandle where
  slotId := slotId % numFrameSlots
  frameId := frameId
  crc32 := computeCrc32 ((List.range 4096).map (pool (slotId % numFrameSlots)))
  vblankTsc := vblankTsc
  captureDoneTsc := captureDoneTsc

/-! ## The loops -/

/-- Where the capture core stands: it has written some bytes of the frame id, it pushes the handle,
or the push has succeeded. -/
inductive CaptureState
  | writing (n : ℕ)
  | pushing (h : FrameHandle) (p : PushState FrameHandle)
  | pushed
  deriving DecidableEq

/-- Where the encode core stands: it pops a handle, it has popped one, or it passes it on. -/
inductive EncodeState
  | popping (p : PopState FrameHandle)
  | consumed (h : FrameHandle)
  | forwarding (h : FrameHandle) (p : PushState FrameHandle)
  deriving DecidableEq

/-- Where the network core stands: it pops a handle, or it sends the frame. -/
inductive NetworkState
  | popping (p : PopState FrameHandle)
  | sending (h : FrameHandle)
  deriving DecidableEq

/-- Where an access of the `push` of a handle leaves the capture core: a full ring sends it back to
`capture_write_frame`. -/
def CaptureState.afterPush (h : FrameHandle) (p : PushState FrameHandle) :
    Option Bool → CaptureState
  | none => .pushing h p
  | some true => .pushed
  | some false => .writing 0

/-- Where an access of the `pop` leaves the encode core: it spins on an empty ring. -/
def EncodeState.afterPop (p : PopState FrameHandle) : Option (Option FrameHandle) → EncodeState
  | some (some h) => .consumed h
  | _ => .popping p

/-- The pushes that the capture core has not counted yet. -/
def CaptureState.uncounted : CaptureState → ℕ
  | .pushed => 1
  | _ => 0

/-- The pops that the encode core has not counted yet. -/
def EncodeState.uncounted : EncodeState → ℕ
  | .consumed _ => 1
  | _ => 0

/-- Shared memory, the three cores, and the handles that went into and out of the rings so far. -/
structure Pipeline where
  framePool : FramePool
  captureToEncodeRing : SpscRingBuffer FrameHandle
  encodeToNetRing : SpscRingBuffer FrameHandle
  capturedFrames : ℕ
  consumedFrames : ℕ
  capture : CaptureState
  frameSeq : ℕ
  slotId : ℕ
  encode : EncodeState
  network : NetworkState
  captured : List FrameHandle
  encoded : List FrameHandle
  forwarded : List FrameHandle
  sent : List FrameHandle

/-- Which core goes on.  The capture core reads the time stamps of its handle, and the network core
learns whether `stream_send_frame` returns. -/
inductive PipelineAct
  | capture (vblankTsc captureDoneTsc : ℕ)
  | encode
  | network (returns : Bool)

namespace Pipeline

/-- The three loops before their first turn. -/
def new : Pipeline where
  framePool := .new
  captureToEncodeRing := .new .empty
  encodeToNetRing := .new .empty
  capturedFrames := 0
  consumedFrames := 0
  capture := .writing 0
  frameSeq := 0
  slotId := 0
  encode := .popping .idle
  network := .popping .idle
  captured := []
  encoded := []
  forwarded := []
  sent := []

/-- An access of the capture loop. -/
def captureStep (s : Pipeline) (vblankTsc captureDoneTsc : ℕ) : Pipeline :=
  match s.capture with
  | .writing n =>
    if n < 4 then
      { s with
        framePool := writeFrameByte s.framePool s.slotId s.frameSeq n
        capture := .writing (n + 1) }
    else
      { s with
        capture := .pushing
          (frameHandle s.framePool s.slotId s.frameSeq vblankTsc captureDoneTsc) .idle }
  | .pushing h p =>
    let r := push ringCapacity h p s.captureToEncodeRing
    { s with
      captureToEncodeRing := r.2.1
      captured := s.captured ++ p.adds r.2.2
      capture := .afterPush h r.1 r.2.2 }
  | .pushed =>
    { s with
      capturedFrames := (s.capturedFrames + 1) % u64Size
      frameSeq := (s.frameSeq + 1) % u64Size
      slotId := (s.slotId + 1) % numFrameSlots
      capture := .writing 0 }

/-- An access of the encode loop. -/
def encodeStep (s : Pipeline) : Pipeline :=
  match s.encode with
  | .popping p =>
    let r := pop ringCapacity p s.captureToEncodeRing
    { s with
      captureToEncodeRing := r.2.1
      encoded := s.encoded ++ taken r.2.2
      encode := .afterPop r.1 r.2.2 }
  | .consumed h =>
    { s with
      consumedFrames := (s.consumedFrames + 1) % u64Size
      encode := .forwarding h .idle }
  | .forwarding h p =>
    let r := push ringCapacity h p s.encodeToNetRing
    { s with
      encodeToNetRing := r.2.1
      forwarded := s.forwarded ++ p.adds r.2.2
      encode :=
        match r.2.2 with
        | none => .forwarding h r.1
        | some _ => .popping .idle }

/-- An access of the network loop. -/
def networkStep (s : Pipeline) (returns : Bool) : Pipeline :=
  match s.network with
  | .popping p =>
    let r := pop ringCapacity p s.encodeToNetRing
    { s with
      encodeToNetRing := r.2.1
      sent := s.sent ++ taken r.2.2
      network :=
        match r.2.2 with
        | some (some h) => .sending h
        | _ => .popping r.1 }
  | .sending _ => if returns then { s with network := .popping .idle } else s

def step (s : Pipeline) : PipelineAct → Pipeline
  | .capture vblankTsc captureDoneTsc => s.captureStep vblankTsc captureDoneTsc
  | .encode => s.encodeStep
  | .network returns => s.networkStep returns

/-- The state after some accesses. -/
def run (s : Pipeline) (acts : List PipelineAct) : Pipeline := acts.foldl step s

/-! ## What holds along every run -/

/-- What holds of the capture core. -/
def CaptureOk (s : Pipeline) (q₁ : List FrameHandle) : Prop :=
  match s.capture with
  | .writing _ => True
  | .pushing h p => p.Ok ringCapacity s.captureToEncodeRing q₁ ∧ p.Carries h ∧
    h.frameId = s.frameSeq
  | .pushed => True

/-- What holds of the encode core: all handles it popped but the one in its hand were passed on or
dropped. -/
def EncodeOk (s : Pipeline) (q₁ q₂ : List FrameHandle) : Prop :=
  match s.encode with
  | .popping p => p.Ok s.captureToEncodeRing q₁ ∧ s.forwarded.Sublist s.encoded
  | .consumed h => ∃ done, s.encoded = done ++ [h] ∧ s.forwarded.Sublist done
  | .forwarding h p => (∃ done, s.encoded = done ++ [h] ∧ s.forwarded.Sublist done) ∧
    p.Ok ringCapacity s.encodeToNetRing q₂ ∧ p.Carries h

/-- What holds of the network core. -/
def NetworkOk (s : Pipeline) (q₂ : List FrameHandle) : Prop :=
  match s.network with
  | .popping p => p.Ok s.encodeToNetRing q₂
  | .sending _ => True

/-- The handles in the rings are those that went in and did not come out, they are numbered in
order, and every core knows where it stands. -/
structure Inv (s : Pipeline) (q₁ q₂ : List FrameHandle) : Prop where
  split₁ : s.captured = s.encoded ++ q₁
  holds₁ : s.captureToEncodeRing.Holds ringCapacity usizeSize s.encoded.length q₁
  split₂ : s.forwarded = s.sent ++ q₂
  holds₂ : s.encodeToNetRing.Holds ringCapacity usizeSize s.sent.length q₂
  capture : CaptureOk s q₁
  encode : EncodeOk s q₁ q₂
  network : NetworkOk s q₂
  ids : ∀ i h, s.captured[i]? = some h → h.frameId = i % u64Size
  counted : ∃ n, s.captured.length = n + s.capture.uncounted ∧
    s.frameSeq = n % u64Size ∧ s.capturedFrames = n % u64Size
  popped : ∃ n, s.encoded.length = n + s.encode.uncounted ∧
    s.consumedFrames = n % u64Size

theorem sizes_ring : Ring.Sizes ringCapacity usizeSize := SpscState.sizes_two_pow 4

variable {s : Pipeline} {q₁ q₂ : List FrameHandle}

theorem inv_new : Inv new [] [] where
  split₁ := rfl
  holds₁ := Ring.holds_nil _
  split₂ := rfl
  holds₂ := Ring.holds_nil _
  capture := trivial
  encode := ⟨trivial, List.Sublist.refl _⟩
  network := trivial
  ids := nofun
  counted := ⟨0, rfl, rfl, rfl⟩
  popped := ⟨0, rfl, rfl⟩

/-- The encode core does not notice what the other cores do to the rings. -/
theorem EncodeOk.frame {s' : Pipeline} {q₁' q₂' : List FrameHandle} (h : EncodeOk s q₁ q₂)
    (hpop : ∀ c : PopState FrameHandle, c.Ok s.captureToEncodeRing q₁ →
      c.Ok s'.captureToEncodeRing q₁')
    (hpush : ∀ p : PushState FrameHandle, p.Ok ringCapacity s.encodeToNetRing q₂ →
      p.Ok ringCapacity s'.encodeToNetRing q₂')
    (hencode : s'.encode = s.encode) (hencoded : s'.encoded = s.encoded)
    (hforwarded : s'.forwarded = s.forwarded) : EncodeOk s' q₁' q₂' := by
  unfold EncodeOk at h ⊢
  rw [hencode, hencoded, hforwarded]
  cases hpc : s.encode with
  | popping p =>
    rw [hpc] at h
    exact ⟨hpop p h.1, h.2⟩
  | consumed h' =>
    rw [hpc] at h
    exact h
  | forwarding h' p =>
    rw [hpc] at h
    exact ⟨h.1, hpush p h.2.1, h.2.2⟩

/-- The next handle has the next number. -/
theorem ids_append {captured : List FrameHandle} {fh : FrameHandle}
    (h : ∀ i h, captured[i]? = some h → h.frameId = i % u64Size)
    (hid : fh.frameId = captured.length % u64Size) :
    ∀ i h, (captured ++ [fh])[i]? = some h → h.frameId = i % u64Size := by
  intro i h' hi
  rcases Nat.lt_trichotomy i captured.length with hlt | heq | hgt
  · rw [List.getElem?_append_left hlt] at hi
    exact h i h' hi
  · subst heq
    rw [List.getElem?_concat_length] at hi
    cases hi
    exact hid
  · rw [List.getElem?_eq_none (by simpa using Nat.succ_le_of_lt hgt)] at hi
    cases hi

theorem inv_captureStep (h : Inv s q₁ q₂) (vblankTsc captureDoneTsc : ℕ) :
    ∃ q₁', Inv (s.captureStep vblankTsc captureDoneTsc) q₁' q₂ := by
  obtain ⟨n, hlen, hseq, hcount⟩ := h.counted
  have hcap := h.capture
  unfold captureStep
  unfold CaptureOk at hcap
  cases hpc : s.capture with
  | writing k =>
    rw [hpc] at hlen
    simp only
    split
    · exact ⟨q₁, h.split₁, h.holds₁, h.split₂, h.holds₂, trivial,
        h.encode.frame (fun _ hc => hc) (fun _ hp => hp) rfl rfl rfl, h.network, h.ids,
        ⟨n, hlen, hseq, hcount⟩, h.popped⟩
    · exact ⟨q₁, h.split₁, h.holds₁, h.split₂, h.holds₂, ⟨trivial, trivial, rfl⟩,
        h.encode.frame (fun _ hc => hc) (fun _ hp => hp) rfl rfl rfl, h.network, h.ids,
        ⟨n, hlen, hseq, hcount⟩, h.popped⟩
  | pushing fh p =>
    rw [hpc] at hlen hcap
    obtain ⟨hp, hcarries, hid⟩ := hcap
    obtain ⟨q₁', hspec⟩ := push_spec sizes_ring h.holds₁ hp fh
    have hcarries' : (push ringCapacity fh p s.captureToEncodeRing).1.Carries fh :=
      carries_push hcarries
    have hadds : p.adds (push ringCapacity fh p s.captureToEncodeRing).2.2 = _ := adds_push hcarries
    dsimp only
    revert hspec hcarries' hadds
    generalize push ringCapacity fh p s.captureToEncodeRing = r
    intro hspec hcarries' hadds
    obtain ⟨p', ring, result⟩ := r
    have hsplit : s.captured ++ p.adds result = s.encoded ++ q₁' := by
      rw [hspec.back, ← List.append_assoc, ← h.split₁]
    have hencode : ∀ s' : Pipeline, s'.captureToEncodeRing = ring →
        s'.encodeToNetRing = s.encodeToNetRing → s'.encode = s.encode →
        s'.encoded = s.encoded → s'.forwarded = s.forwarded → EncodeOk s' q₁' q₂ := by
      intro s' hring hnet
      refine h.encode.frame ?_ ?_
      · rw [hring]
        exact hspec.others
      · rw [hnet]
        exact fun _ hp => hp
    simp only at hadds
    rw [hadds] at hsplit
    simp only [hadds]
    rcases result with _ | _ | _
    · rw [if_neg nofun, List.append_nil] at hsplit ⊢
      exact ⟨q₁', hsplit, hspec.holds, h.split₂, h.holds₂, ⟨hspec.own, hcarries', hid⟩,
        hencode _ rfl rfl rfl rfl rfl, h.network, h.ids, ⟨n, hlen, hseq, hcount⟩, h.popped⟩
    · rw [if_neg nofun, List.append_nil] at hsplit ⊢
      exact ⟨q₁', hsplit, hspec.holds, h.split₂, h.holds₂, trivial,
        hencode _ rfl rfl rfl rfl rfl, h.network, h.ids, ⟨n, hlen, hseq, hcount⟩, h.popped⟩
    · rw [if_pos rfl] at hsplit ⊢
      refine ⟨q₁', hsplit, hspec.holds, h.split₂, h.holds₂, trivial,
        hencode _ rfl rfl rfl rfl rfl, h.network, ids_append h.ids ?_, ⟨n, ?_, hseq, hcount⟩,
        h.popped⟩
      · rw [hid, hseq, hlen]
        rfl
      · change (s.captured ++ [fh]).length = _
        rw [List.length_append, hlen]
        rfl
  | pushed =>
    rw [hpc] at hlen
    refine ⟨q₁, h.split₁, h.holds₁, h.split₂, h.holds₂, trivial,
        h.encode.frame (fun _ hc => hc) (fun _ hp => hp) rfl rfl rfl, h.network, h.ids,
        ⟨n + 1, hlen, ?_, ?_⟩, h.popped⟩
    · change (s.frameSeq + 1) % u64Size = _
      rw [hseq, Nat.mod_add_mod]
    · change (s.capturedFrames + 1) % u64Size = _
      rw [hcount, Nat.mod_add_mod]

theorem CaptureOk.frame {s' : Pipeline} {q₁' : List FrameHandle} (h : CaptureOk s q₁)
    (hring : ∀ p : PushState FrameHandle, p.Ok ringCapacity s.captureToEncodeRing q₁ →
      p.Ok ringCapacity s'.captureToEncodeRing q₁')
    (hcapture : s'.capture = s.capture) (hseq : s'.frameSeq = s.frameSeq) : CaptureOk s' q₁' := by
  unfold CaptureOk at h ⊢
  rw [hcapture, hseq]
  cases hpc : s.capture with
  | writing n => trivial
  | pushing fh p =>
    rw [hpc] at h
    exact ⟨hring p h.1, h.2⟩
  | pushed => trivial

theorem NetworkOk.frame {s' : Pipeline} {q₂' : List FrameHandle} (h : NetworkOk s q₂)
    (hring : ∀ c : PopState FrameHandle, c.Ok s.encodeToNetRing q₂ →
      c.Ok s'.encodeToNetRing q₂')
    (hnetwork : s'.network = s.network) : NetworkOk s' q₂' := by
  unfold NetworkOk at h ⊢
  rw [hnetwork]
  cases hpc : s.network with
  | popping p =>
    rw [hpc] at h
    exact hring p h
  | sending fh => trivial

theorem inv_encodeStep (h : Inv s q₁ q₂) : ∃ q₁' q₂', Inv s.encodeStep q₁' q₂' := by
  obtain ⟨n, hlen, hcount⟩ := h.popped
  have henc := h.encode
  unfold encodeStep
  unfold EncodeOk at henc
  cases hpc : s.encode with
  | popping p =>
    rw [hpc] at hlen henc
    obtain ⟨q₁', hspec⟩ := pop_spec sizes_ring h.holds₁ henc.1
    dsimp only
    revert hspec
    generalize pop ringCapacity p s.captureToEncodeRing = r
    intro hspec
    obtain ⟨p', ring, result⟩ := r
    have hsplit : s.captured = s.encoded ++ taken result ++ q₁' := by
      rw [h.split₁, hspec.front, List.append_assoc]
    have hholds : ring.Holds ringCapacity usizeSize (s.encoded ++ taken result).length q₁' := by
      rw [List.length_append]
      exact hspec.holds
    have hcap : ∀ s' : Pipeline, s'.captureToEncodeRing = ring → s'.capture = s.capture →
        s'.frameSeq = s.frameSeq → CaptureOk s' q₁' := by
      intro s' hring
      refine h.capture.frame ?_
      rw [hring]
      exact hspec.others
    rcases result with _ | _ | fh
    · refine ⟨q₁', q₂, hsplit, hholds, h.split₂, h.holds₂, hcap _ rfl rfl rfl,
        ⟨hspec.own, ?_⟩, h.network, h.ids, h.counted, ⟨n, ?_, hcount⟩⟩
      · exact henc.2.trans (List.sublist_append_left _ _)
      · exact (congrArg List.length (List.append_nil _)).trans hlen
    · refine ⟨q₁', q₂, hsplit, hholds, h.split₂, h.holds₂, hcap _ rfl rfl rfl,
        ⟨hspec.own, ?_⟩, h.network, h.ids, h.counted, ⟨n, ?_, hcount⟩⟩
      · exact henc.2.trans (List.sublist_append_left _ _)
      · exact (congrArg List.length (List.append_nil _)).trans hlen
    · refine ⟨q₁', q₂, hsplit, hholds, h.split₂, h.holds₂, hcap _ rfl rfl rfl,
        ⟨s.encoded, rfl, henc.2⟩, h.network, h.ids, h.counted, ⟨n, ?_, hcount⟩⟩
      change (s.encoded ++ [fh]).length = _
      rw [List.length_append, hlen]
      rfl
  | consumed fh =>
    rw [hpc] at hlen henc
    refine ⟨q₁, q₂, h.split₁, h.holds₁, h.split₂, h.holds₂,
      h.capture.frame (fun _ hp => hp) rfl rfl, ⟨henc, trivial, trivial⟩, h.network, h.ids,
      h.counted, ⟨n + 1, hlen, ?_⟩⟩
    change (s.consumedFrames + 1) % u64Size = _
    rw [hcount, Nat.mod_add_mod]
  | forwarding fh p =>
    rw [hpc] at hlen henc
    obtain ⟨⟨done, hdone, hsub⟩, hp, hcarries⟩ := henc
    obtain ⟨q₂', hspec⟩ := push_spec sizes_ring h.holds₂ hp fh
    have hcarries' : (push ringCapacity fh p s.encodeToNetRing).1.Carries fh :=
      carries_push hcarries
    have hadds : p.adds (push ringCapacity fh p s.encodeToNetRing).2.2 = _ := adds_push hcarries
    dsimp only
    revert hspec hcarries' hadds
    generalize push ringCapacity fh p s.encodeToNetRing = r
    intro hspec hcarries' hadds
    obtain ⟨p', ring, result⟩ := r
    have hsplit : s.forwarded ++ p.adds result = s.sent ++ q₂' := by
      rw [hspec.back, ← List.append_assoc, ← h.split₂]
    have hnet : ∀ s' : Pipeline, s'.encodeToNetRing = ring → s'.network = s.network →
        NetworkOk s' q₂' := by
      intro s' hring
      refine h.network.frame ?_
      rw [hring]
      exact hspec.others
    have hcap : ∀ s' : Pipeline, s'.captureToEncodeRing = s.captureToEncodeRing →
        s'.capture = s.capture → s'.frameSeq = s.frameSeq → CaptureOk s' q₁ := by
      intro s' hring
      refine h.capture.frame ?_
      rw [hring]
      exact fun _ hp => hp
    simp only at hadds
    rw [hadds] at hsplit
    simp only [hadds]
    rcases result with _ | _ | _
    · rw [if_neg nofun, List.append_nil] at hsplit ⊢
      exact ⟨q₁, q₂', h.split₁, h.holds₁, hsplit, hspec.holds, hcap _ rfl rfl rfl,
        ⟨⟨done, hdone, hsub⟩, hspec.own, hcarries'⟩, hnet _ rfl rfl, h.ids, h.counted,
        ⟨n, hlen, hcount⟩⟩
    · rw [if_neg nofun, List.append_nil] at hsplit ⊢
      refine ⟨q₁, q₂', h.split₁, h.holds₁, hsplit, hspec.holds, hcap _ rfl rfl rfl,
        ⟨trivial, ?_⟩, hnet _ rfl rfl, h.ids, h.counted, ⟨n, hlen, hcount⟩⟩
      change s.forwarded.Sublist s.encoded
      rw [hdone]
      exact hsub.trans (List.sublist_append_left _ _)
    · rw [if_pos rfl] at hsplit ⊢
      refine ⟨q₁, q₂', h.split₁, h.holds₁, hsplit, hspec.holds, hcap _ rfl rfl rfl,
        ⟨trivial, ?_⟩, hnet _ rfl rfl, h.ids, h.counted, ⟨n, hlen, hcount⟩⟩
      change (s.forwarded ++ [fh]).Sublist s.encoded
      rw [hdone]
      exact hsub.append (List.Sublist.refl _)

theorem inv_networkStep (h : Inv s q₁ q₂) (returns : Bool) :
    ∃ q₂', Inv (s.networkStep returns) q₁ q₂' := by
  have hnet := h.network
  unfold networkStep
  unfold NetworkOk at hnet
  cases hpc : s.network with
  | popping p =>
    rw [hpc] at hnet
    obtain ⟨q₂', hspec⟩ := pop_spec sizes_ring h.holds₂ hnet
    dsimp only
    revert hspec
    generalize pop ringCapacity p s.encodeToNetRing = r
    intro hspec
    obtain ⟨p', ring, result⟩ := r
    have hsplit : s.forwarded = s.sent ++ taken result ++ q₂' := by
      rw [h.split₂, hspec.front, List.append_assoc]
    have hholds : ring.Holds ringCapacity usizeSize (s.sent ++ taken result).length q₂' := by
      rw [List.length_append]
      exact hspec.holds
    have henc : ∀ s' : Pipeline, s'.captureToEncodeRing = s.captureToEncodeRing →
        s'.encodeToNetRing = ring → s'.encode = s.encode → s'.encoded = s.encoded →
        s'.forwarded = s.forwarded → EncodeOk s' q₁ q₂' := by
      intro s' hring₁ hring₂
      refine h.encode.frame ?_ ?_
      · rw [hring₁]
        exact fun _ hc => hc
      · rw [hring₂]
        exact hspec.others
    rcases result with _ | _ | fh
    · exact ⟨q₂', h.split₁, h.holds₁, hsplit, hholds, h.capture, henc _ rfl rfl rfl rfl rfl,
        hspec.own, h.ids, h.counted, h.popped⟩
    · exact ⟨q₂', h.split₁, h.holds₁, hsplit, hholds, h.capture, henc _ rfl rfl rfl rfl rfl,
        hspec.own, h.ids, h.counted, h.popped⟩
    · exact ⟨q₂', h.split₁, h.holds₁, hsplit, hholds, h.capture, henc _ rfl rfl rfl rfl rfl,
        trivial, h.ids, h.counted, h.popped⟩
  | sending fh =>
    dsimp only
    split
    · exact ⟨q₂, h.split₁, h.holds₁, h.split₂, h.holds₂, h.capture, h.encode, trivial, h.ids,
        h.counted, h.popped⟩
    · exact ⟨q₂, h⟩

theorem inv_step (h : Inv s q₁ q₂) (act : PipelineAct) : ∃ q₁' q₂', Inv (s.step act) q₁' q₂' := by
  cases act with
  | capture vblankTsc captureDoneTsc =>
    obtain ⟨q₁', h'⟩ := inv_captureStep h vblankTsc captureDoneTsc
    exact ⟨q₁', q₂, h'⟩
  | encode => exact inv_encodeStep h
  | network returns =>
    obtain ⟨q₂', h'⟩ := inv_networkStep h returns
    exact ⟨q₁, q₂', h'⟩

theorem inv_run (acts : List PipelineAct) (h : Inv s q₁ q₂) :
    ∃ q₁' q₂', Inv (s.run acts) q₁' q₂' := by
  induction acts generalizing s q₁ q₂ with
  | nil => exact ⟨q₁, q₂, h⟩
  | cons act acts ih =>
    obtain ⟨q₁', q₂', h'⟩ := inv_step h act
    exact ih h'

/-! ## The order of the frames -/

/-- Frames arrive in order and once, and the counters keep up with them. -/
structure InOrder (s : Pipeline) : Prop where
  increasing : (s.sent.map (·.frameId)).Pairwise (· < ·)
  subsequence : (s.sent.map (·.frameId)).Sublist (s.captured.map (·.frameId))
  gapless : s.encoded <+: s.captured ∧
    s.captured.map (·.frameId) = List.range s.captured.length
  capturedFrames : s.capturedFrames = s.captured.length ∨
    s.capturedFrames + 1 = s.captured.length
  consumedFrames : s.consumedFrames ≤ s.capturedFrames + 1

/-- What the encode core passed on it has popped before. -/
theorem EncodeOk.forwarded_sublist (h : EncodeOk s q₁ q₂) : s.forwarded.Sublist s.encoded := by
  unfold EncodeOk at h
  cases hpc : s.encode with
  | popping p =>
    rw [hpc] at h
    exact h.2
  | consumed fh =>
    rw [hpc] at h
    obtain ⟨done, hdone, hsub⟩ := h
    rw [hdone]
    exact hsub.trans (List.sublist_append_left _ _)
  | forwarding fh p =>
    rw [hpc] at h
    obtain ⟨⟨done, hdone, hsub⟩, -⟩ := h
    rw [hdone]
    exact hsub.trans (List.sublist_append_left _ _)

theorem Inv.sent_sublist (h : Inv s q₁ q₂) : s.sent.Sublist s.captured := by
  have h₁ : s.sent.Sublist s.forwarded := by
    rw [h.split₂]
    exact List.sublist_append_left _ _
  have h₂ : s.encoded.Sublist s.captured := by
    rw [h.split₁]
    exact List.sublist_append_left _ _
  exact (h₁.trans h.encode.forwarded_sublist).trans h₂

/-- Below `2 ^ 64` captures the frame ids are the numbers of the captures. -/
theorem Inv.ids_eq (h : Inv s q₁ q₂) (hfew : s.captured.length < u64Size) :
    s.captured.map (·.frameId) = List.range s.captured.length := by
  refine List.ext_getElem (by simp) fun i hi hi' => ?_
  rw [List.length_map] at hi
  have hid := h.ids i s.captured[i] (List.getElem?_eq_getElem hi)
  rw [List.getElem_map, List.getElem_range, hid, Nat.mod_eq_of_lt (Nat.lt_trans hi hfew)]

theorem Inv.inOrder (h : Inv s q₁ q₂) (hfew : s.captured.length < u64Size) : InOrder s := by
  have hids := h.ids_eq hfew
  have hsub := h.sent_sublist.map (·.frameId)
  obtain ⟨n, hlen, -, hcount⟩ := h.counted
  obtain ⟨m, hlen', hcount'⟩ := h.popped
  have hle : s.encoded.length ≤ s.captured.length := by
    rw [h.split₁, List.length_append]
    exact Nat.le_add_right _ _
  have hn : s.capture.uncounted ≤ 1 := by
    cases s.capture <;> simp [CaptureState.uncounted]
  rw [Nat.mod_eq_of_lt (by omega)] at hcount hcount'
  refine ⟨?_, hsub, ⟨⟨q₁, h.split₁.symm⟩, hids⟩, by omega, by omega⟩
  rw [hids] at hsub
  exact List.pairwise_lt_range.sublist hsub

/-- In any order of the accesses of the three loops, with fewer than `2 ^ 64` captures, frames
arrive in order and once. -/
theorem run_inOrder (acts : List PipelineAct) (hfew : (new.run acts).captured.length < u64Size) :
    InOrder (new.run acts) := by
  obtain ⟨q₁, q₂, h⟩ := inv_run acts inv_new
  exact h.inOrder hfew

/-- One frame through the whole pipeline. -/
def oneFrame : List PipelineAct :=
  List.replicate 10 (.capture 1 2) ++ List.replicate 9 .encode ++ List.replicate 4 (.network false)

theorem oneFrame_inOrder : InOrder (new.run oneFrame) ∧ (new.run oneFrame).sent.length = 1 :=
  ⟨run_inOrder oneFrame (by decide), by decide⟩

end Pipeline

end Smp

end LatencyOS
