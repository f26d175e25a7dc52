import Mathlib.Algebra.Ring.Int.Defs
import Mathlib.Algebra.Ring.Nat
import Mathlib.Logic.Function.Basic

/-!
# Initialisation vectors of the video stream

Every packet is encrypted with one static AES key.  Its 96-bit vector is made of a salt, the
stream's source id and a 16-bit sequence number, and each caller of `stream_send_frame` counts
for itself from one: the loop of core 3 during the whole run, an `@send` of a script for its one
frame, a `benchmark` command for its frames.  Callers run on different cores, so their packets
interleave in any way.
-/

namespace LatencyOS

namespace Net

def staticMasterSalt : List UInt8 :=
  [0xA5, 0x5A, 0xA5, 0x5A, 0xA5, 0x5A, 0xA5, 0x5A, 0xA5, 0x5A, 0xA5, 0x5A]

def maxSrtpPayloadChunk : ℕ := 1380

/-- The largest frame that is sent. -/
def maxFrameSize : ℕ := 16 * 1024 * 1024

/-- The vector of a packet: the salt, with the source id and the sequence number mixed in. -/
def iv (seq : UInt16) : List UInt8 :=
  List.zipWith (· ^^^ ·) staticMasterSalt
    [0, 0, 0, 0, 0x12, 0x34, 0x56, 0x78, 0, 0, (seq >>> 8).toUInt8, seq.toUInt8]

/-- An encrypted packet. -/
structure Packet where
  iv : List UInt8
  payload : List UInt8
  deriving DecidableEq

/-- Who sends: the loop of core 3, a script's `@send`, or a `benchmark` command. -/
inductive SenderId
  | network
  | script (call : ℕ)
  | benchmark (command : ℕ)
  deriving DecidableEq

/-- A caller of `stream_send_frame`: its counter, and what is left of the frame it sends. -/
structure Sender where
  packetSeq : UInt16
  rest : List UInt8

/-- What happens to a sender next. -/
inductive Act
  /-- It calls `stream_send_frame`. -/
  | frame (data : List UInt8)
  /-- One turn of the loop over the frame. -/
  | packet
  /-- The deadline has passed or the queue of the card is full: the frame is dropped. -/
  | stop

/-- What is left to send when a frame comes in: a frame is sent to its end or dropped before
the next one, and an empty or too large one is not sent. -/
def accept (rest data : List UInt8) : List UInt8 :=
  if rest = [] ∧ data.length ≤ maxFrameSize then data else rest

/-- One action of a sender. -/
def Sender.act (s : Sender) : Act → Sender × List Packet
  | .frame data => ({ s with rest := accept s.rest data }, [])
  | .packet =>
    if s.rest = [] then (s, [])
    else (⟨s.packetSeq + 1, s.rest.drop maxSrtpPayloadChunk⟩,
      [⟨iv s.packetSeq, s.rest.take maxSrtpPayloadChunk⟩])
  | .stop => ({ s with rest := [] }, [])

/-- The senders, and the packets encrypted so far. -/
structure State where
  senders : SenderId → Sender
  packets : List Packet

/-- Every sender starts counting at one. -/
def State.new : State := ⟨fun _ => ⟨1, []⟩, []⟩

def step (st : State) (e : SenderId × Act) : State :=
  let r := (st.senders e.1).act e.2
  ⟨Function.update st.senders e.1 r.1, st.packets ++ r.2⟩

/-- The state after some actions of some senders. -/
def run (st : State) (events : List (SenderId × Act)) : State := events.foldl step st

/-- No two packets with different payloads have the same vector. -/
def NoReuse (packets : List Packet) : Prop :=
  ∀ a ∈ packets, ∀ b ∈ packets, a.iv = b.iv → a.payload = b.payload

/-! ## What a sender sends -/

/-- The actions of one sender. -/
def actsOf (id : SenderId) (events : List (SenderId × Act)) : List Act :=
  events.filterMap fun e => if e.1 = id then some e.2 else none

/-- The payloads some actions send, from what is left of a frame. -/
def payloads : List UInt8 → List Act → List (List UInt8)
  | _, [] => []
  | rest, .frame data :: acts => payloads (accept rest data) acts
  | rest, .packet :: acts =>
    if rest = [] then payloads [] acts
    else rest.take maxSrtpPayloadChunk :: payloads (rest.drop maxSrtpPayloadChunk) acts
  | _, .stop :: acts => payloads [] acts

/-- The payloads a sender sends during a run, in order. -/
def sent (id : SenderId) (events : List (SenderId × Act)) : List (List UInt8) :=
  payloads [] (actsOf id events)

/-- Payloads of all senders, counted for each sender apart, that stand at the same place modulo
`2 ^ 16` are equal. -/
def Aligned (events : List (SenderId × Act)) : Prop :=
  ∀ (s t : SenderId) (i j : ℕ) (x y : List UInt8), i % 65536 = j % 65536 →
    (sent s events)[i]? = some x → (sent t events)[j]? = some y → x = y

/-! ## Vectors and sequence numbers -/

theorem iv_inj {a b : UInt16} (h : iv a = iv b) : a = b := by
  simp only [iv, staticMasterSalt, List.zipWith_cons_cons, List.cons.injEq, true_and,
    UInt8.xor_right_inj] at h
  have hhigh := congrArg UInt8.toNat h.1
  have hlow := congrArg UInt8.toNat h.2.1
  simp only [UInt16.toNat_toUInt8, UInt16.toNat_shiftRight] at hhigh hlow
  have ha := a.toNat_lt
  have hb := b.toNat_lt
  refine UInt16.toNat_inj.mp ?_
  simp [Nat.shiftRight_eq_div_pow] at hhigh
  omega

/-- The sequence number of a sender's packet. -/
theorem ofNat_eq_iff {i j : ℕ} :
    (1 : UInt16) + UInt16.ofNat i = 1 + UInt16.ofNat j ↔ i % 65536 = j % 65536 := by
  rw [UInt16.add_right_inj, ← UInt16.toNat_inj]
  simp

/-! ## The packets of a run -/

variable {st : State} {id : SenderId} {act : Act} {events : List (SenderId × Act)}

@[simp] theorem actsOf_nil : actsOf id [] = [] := rfl

theorem actsOf_cons (e : SenderId × Act) :
    actsOf id (e :: events) = if e.1 = id then e.2 :: actsOf id events else actsOf id events := by
  by_cases h : e.1 = id <;> simp [actsOf, h]

/-- What a sender encrypts during some actions. -/
def Sender.Sends (s : Sender) (acts : List Act) (p : Packet) : Prop :=
  ∃ (k : ℕ) (x : List UInt8), (payloads s.rest acts)[k]? = some x ∧
    p = ⟨iv (s.packetSeq + UInt16.ofNat k), x⟩

/-- What is encrypted at once, and what after that. -/
theorem Sender.sends_cons (s : Sender) (act : Act) (acts : List Act) (p : Packet) :
    s.Sends (act :: acts) p ↔ p ∈ (s.act act).2 ∨ (s.act act).1.Sends acts p := by
  cases act with
  | frame data => simp [Sends, payloads, Sender.act]
  | stop => simp [Sends, payloads, Sender.act]
  | packet =>
    by_cases hrest : s.rest = []
    · simp [Sends, payloads, Sender.act, hrest]
    · have hseq : ∀ k : ℕ, s.packetSeq + UInt16.ofNat (k + 1) =
          s.packetSeq + 1 + UInt16.ofNat k := by
        intro k
        rw [UInt16.ofNat_add, UInt16.add_comm (UInt16.ofNat k), ← UInt16.add_assoc]
        rfl
      simp only [Sends, payloads, Sender.act, if_neg hrest, List.mem_singleton]
      constructor
      · rintro ⟨k, x, hx, rfl⟩
        cases k with
        | zero =>
          left
          simpa using hx.symm
        | succ k => exact .inr ⟨k, x, by simpa using hx, by rw [hseq]⟩
      · rintro (rfl | ⟨k, x, hx, rfl⟩)
        · exact ⟨0, _, rfl, by simp⟩
        · exact ⟨k + 1, x, by simpa using hx, by rw [hseq]⟩

/-- What some sender encrypts during a run. -/
def Encrypts (st : State) (events : List (SenderId × Act)) (p : Packet) : Prop :=
  ∃ id, (st.senders id).Sends (actsOf id events) p

theorem encrypts_cons (e : SenderId × Act) (p : Packet) :
    Encrypts st (e :: events) p ↔
      p ∈ ((st.senders e.1).act e.2).2 ∨ Encrypts (step st e) events p := by
  have hself : (st.senders e.1).Sends (actsOf e.1 (e :: events)) p ↔
      p ∈ ((st.senders e.1).act e.2).2 ∨
        ((step st e).senders e.1).Sends (actsOf e.1 events) p := by
    rw [actsOf_cons, if_pos rfl, Sender.sends_cons]
    simp [step]
  have hother : ∀ id, id ≠ e.1 → ((st.senders id).Sends (actsOf id (e :: events)) p ↔
      ((step st e).senders id).Sends (actsOf id events) p) := by
    intro id hne
    rw [actsOf_cons, if_neg (Ne.symm hne)]
    simp [step, hne]
  constructor
  · rintro ⟨id, h⟩
    by_cases hid : id = e.1
    · subst hid
      exact (hself.mp h).imp_right fun h => ⟨_, h⟩
    · exact .inr ⟨id, (hother id hid).mp h⟩
  · rintro (h | ⟨id, h⟩)
    · exact ⟨e.1, hself.mpr (.inl h)⟩
    · by_cases hid : id = e.1
      · subst hid
        exact ⟨_, hself.mpr (.inr h)⟩
      · exact ⟨id, (hother id hid).mpr h⟩

theorem mem_run (p : Packet) :
    p ∈ (run st events).packets ↔ p ∈ st.packets ∨ Encrypts st events p := by
  induction events generalizing st with
  | nil => simp [run, Encrypts, Sender.Sends, payloads]
  | cons e events ih =>
    have hrun : run st (e :: events) = run (step st e) events := rfl
    rw [hrun, ih, encrypts_cons]
    simp only [step, List.mem_append]
    rw [or_assoc]

/-- No vector is used for different payloads exactly when payloads at the same place, modulo
`2 ^ 16`, are equal. -/
theorem noReuse_iff (events : List (SenderId × Act)) :
    NoReuse (run State.new events).packets ↔ Aligned events := by
  have hmem : ∀ p, p ∈ (run State.new events).packets ↔
      ∃ (id : SenderId) (k : ℕ) (x : List UInt8), (sent id events)[k]? = some x ∧
        p = ⟨iv (1 + UInt16.ofNat k), x⟩ := by
    intro p
    rw [mem_run]
    simp only [State.new, List.not_mem_nil, false_or]
    rfl
  constructor
  · intro h s t i j x y hij hx hy
    have ha := (hmem ⟨iv (1 + UInt16.ofNat i), x⟩).mpr ⟨s, i, x, hx, rfl⟩
    have hb := (hmem ⟨iv (1 + UInt16.ofNat j), y⟩).mpr ⟨t, j, y, hy, rfl⟩
    exact h _ ha _ hb (congrArg iv (ofNat_eq_iff.mpr hij))
  · intro h a ha b hb hiv
    obtain ⟨s, i, x, hx, rfl⟩ := (hmem a).mp ha
    obtain ⟨t, j, y, hy, rfl⟩ := (hmem b).mp hb
    exact h s t i j x y (ofNat_eq_iff.mp (iv_inj hiv)) hx hy

/-- Two scripts that send different frames of 1400 bytes. -/
def twoSends : List (SenderId × Act) :=
  [(.script 0, .frame (List.replicate 1400 0)), (.script 0, .packet), (.script 0, .packet),
    (.script 1, .frame (List.replicate 1400 1)), (.script 1, .packet), (.script 1, .packet)]

/-- Both scripts count from one. -/
theorem twoSends_reuses :
    ¬ ∀ events : List (SenderId × Act), NoReuse (run State.new events).packets := by
  intro h
  have hfirst : (run State.new twoSends).packets[0]? =
      some ⟨iv 1, List.replicate 1380 0⟩ := by decide +kernel
  have hsecond : (run State.new twoSends).packets[2]? =
      some ⟨iv 1, List.replicate 1380 1⟩ := by decide +kernel
  have heq := h twoSends _ (List.mem_of_getElem? hfirst) _ (List.mem_of_getElem? hsecond) rfl
  exact absurd (List.replicate_inj.mp heq).2 (by decide)

end Net

end LatencyOS
