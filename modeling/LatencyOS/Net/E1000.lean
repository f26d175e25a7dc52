import LatencyOS.Lib.Trace
import Mathlib.Algebra.Ring.Int.Defs
import Mathlib.Algebra.Ring.Nat
import Mathlib.Logic.Function.Basic

/-!
# The e1000 driver and its device

The driver of `e1000.rs` and the network card share two rings of descriptors.  The card sends the
descriptors from `TDH` up to `TDT` and sets the done bit of each; it fills the descriptors from
`RDH` up to `RDT` with arriving packets and sets their done bits.  `unsent`, `received`,
`returned` and `arrival` are histories: no step of the driver or of the card reads them.
-/

namespace LatencyOS.Net

def numTxDescs : ℕ := 64
def numRxDescs : ℕ := 64
def packetBufferSize : ℕ := 2048

/-- A transmit descriptor. -/
structure TxDesc where
  length : ℕ
  cmd : UInt8
  status : UInt8

/-- A receive descriptor. -/
structure RxDesc where
  length : ℕ
  status : UInt8

/-- The transmit ring, its registers and the descriptors handed to the card and not completed. -/
structure TxRing where
  descs : ℕ → TxDesc
  buffers : ℕ → List UInt8
  tail : ℕ
  tdh : ℕ
  tdt : ℕ
  unsent : List ℕ

/-- A packet that fits a buffer. -/
abbrev Frame := {p : List UInt8 // p.length ≤ packetBufferSize}

/-- The receive ring, its registers, the packets the card has put into it, the numbers and bytes
of the packets the driver has returned, and the number of the packet in each descriptor. -/
structure RxRing where
  descs : ℕ → RxDesc
  buffers : ℕ → List UInt8
  tail : ℕ
  rdh : ℕ
  rdt : ℕ
  received : List Frame
  returned : List (ℕ × List UInt8)
  arrival : ℕ → ℕ

/-- The driver and the card. -/
structure E1000 where
  initialized : Bool
  bar0 : UInt64
  tx : TxRing
  rx : RxRing

namespace E1000

/-- The statics of the driver before it starts. -/
def boot : E1000 where
  initialized := false
  bar0 := 0
  tx := ⟨fun _ => ⟨0, 0, 0⟩, fun _ => .replicate packetBufferSize 0, 0, 0, 0, []⟩
  rx := ⟨fun _ => ⟨0, 0⟩, fun _ => .replicate packetBufferSize 0, 0, 0, 0, [], [], fun _ => 0⟩

variable (s : E1000)

/-! ## The driver -/

/-- `init_e1000`: the part of it that concerns the rings. -/
def init (bar0 : UInt64) : E1000 where
  initialized := true
  bar0 := bar0
  tx :=
    { s.tx with
      descs := fun i =>
        if i < numTxDescs then { s.tx.descs i with cmd := 0, status := 1 } else s.tx.descs i
      tail := 0
      tdh := 0
      tdt := 0
      unsent := [] }
  rx :=
    { s.rx with
      descs := fun i =>
        if i < numRxDescs then { s.rx.descs i with status := 0 } else s.rx.descs i
      tail := 0
      rdh := 0
      rdt := numRxDescs - 1
      received := []
      returned := [] }

/-- The driver has found a card. -/
def ready : Bool := s.initialized && s.bar0 != 0

/-- The descriptor the next packet goes to. -/
def txIndex : ℕ := s.tx.tail % numTxDescs

/-- `TX ring full`: the descriptor is in use and not done. -/
def txFull : Bool :=
  (s.tx.descs s.txIndex).status &&& 1 == 0 && (s.tx.descs s.txIndex).cmd != 0

/-- What a packet that is sent changes. -/
def sent (packet : List UInt8) : TxRing where
  descs := Function.update s.tx.descs s.txIndex
    ⟨min packet.length packetBufferSize, 0b1011, 0⟩
  buffers := Function.update s.tx.buffers s.txIndex
    (packet.take (min packet.length packetBufferSize) ++
      (s.tx.buffers s.txIndex).drop (min packet.length packetBufferSize))
  tail := (s.txIndex + 1) % numTxDescs
  tdh := s.tx.tdh
  tdt := (s.txIndex + 1) % numTxDescs
  unsent := s.tx.unsent ++ [s.txIndex]

/-- `send_packet`, with whether it succeeds. -/
def sendPacket (packet : List UInt8) : Bool × E1000 :=
  if !s.ready then (false, s)
  else if s.txFull then (false, s)
  else (true, { s with tx := s.sent packet })

/-- The descriptor `poll_rx_packet` looks at. -/
def rxIndex : ℕ := (s.rx.tail + 1) % numRxDescs

/-- What a returned packet changes. -/
def taken (bytes : List UInt8) : RxRing :=
  { s.rx with
    descs := Function.update s.rx.descs s.rxIndex { s.rx.descs s.rxIndex with status := 0 }
    tail := s.rxIndex
    rdt := s.rxIndex
    returned := s.rx.returned ++ [(s.rx.arrival s.rxIndex, bytes)] }

/-- `poll_rx_packet` with room for `room` bytes, and the bytes it writes. -/
def pollRxPacket (room : ℕ) : Option (List UInt8) × E1000 :=
  if !s.ready then (none, s)
  else if (s.rx.descs s.rxIndex).status &&& 1 == 0 then (none, s)
  else
    let copyLen := min (s.rx.descs s.rxIndex).length room
    let bytes := (s.rx.buffers s.rxIndex).take copyLen
    (some bytes, { s with rx := s.taken bytes })

/-! ## The card -/

/-- The card sends the packet at `TDH`, unless the ring is empty, and sets the done bit. -/
def complete : E1000 :=
  if s.tx.tdh = s.tx.tdt then s
  else
    let desc := s.tx.descs s.tx.tdh
    { s with
      tx :=
        { s.tx with
          descs := Function.update s.tx.descs s.tx.tdh { desc with status := desc.status ||| 1 }
          tdh := (s.tx.tdh + 1) % numTxDescs
          unsent := s.tx.unsent.erase s.tx.tdh } }

/-- The card puts a packet into the descriptor at `RDH`, unless there is none left for it, and
sets the done bit. -/
def arrive (packet : Frame) : E1000 :=
  if s.rx.rdh = s.rx.rdt then s
  else
    let desc := s.rx.descs s.rx.rdh
    { s with
      rx :=
        { s.rx with
          descs := Function.update s.rx.descs s.rx.rdh
            ⟨packet.val.length, desc.status ||| 1⟩
          buffers := Function.update s.rx.buffers s.rx.rdh
            (packet.val ++ (s.rx.buffers s.rx.rdh).drop packet.val.length)
          rdh := (s.rx.rdh + 1) % numRxDescs
          received := s.rx.received ++ [packet]
          arrival := Function.update s.rx.arrival s.rx.rdh s.rx.received.length } }

/-- What can happen: the driver is called, or the card works. -/
inductive Event where
  | send (packet : List UInt8)
  | poll (room : ℕ)
  | complete
  | arrive (packet : Frame)

def step : Event → E1000
  | .send packet => (s.sendPacket packet).2
  | .poll room => (s.pollRxPacket room).2
  | .complete => s.complete
  | .arrive packet => s.arrive packet

/-! ## The rings are apart -/

theorem pollRxPacket_apart (room : ℕ) : ∃ rx, (s.pollRxPacket room).2 = { s with rx := rx } := by
  rw [pollRxPacket]
  split
  · exact ⟨s.rx, rfl⟩
  · split
    · exact ⟨s.rx, rfl⟩
    · exact ⟨_, rfl⟩

theorem arrive_apart (packet : Frame) : ∃ rx, s.arrive packet = { s with rx := rx } := by
  rw [arrive]
  split
  · exact ⟨s.rx, rfl⟩
  · exact ⟨_, rfl⟩

theorem sendPacket_apart (packet : List UInt8) :
    ∃ tx, (s.sendPacket packet).2 = { s with tx := tx } := by
  rw [sendPacket]
  split
  · exact ⟨s.tx, rfl⟩
  · split
    · exact ⟨s.tx, rfl⟩
    · exact ⟨_, rfl⟩

theorem complete_apart : ∃ tx, s.complete = { s with tx := tx } := by
  rw [complete]
  split
  · exact ⟨s.tx, rfl⟩
  · exact ⟨_, rfl⟩

end E1000

end LatencyOS.Net

namespace LatencyOS.Net.E1000

/-!
## The receive ring

The card fills the ring from descriptor 0 on.  The driver starts with its tail at 0, not at the
last descriptor as `RDT`, so it looks at descriptor 1 first: the first packet waits until the
ring has gone round, and the others are returned before it.
-/

/-- A call returns the oldest packet that was not returned, if there is one. -/
def ReturnsNext (s : E1000) : Event → Prop
  | .poll room =>
    let next := s.rx.received[s.rx.returned.length]?.map fun packet => packet.val.take room
    (s.pollRxPacket room).1 = next ∧
      (s.pollRxPacket room).2.rx.returned =
        s.rx.returned ++ next.toList.map fun bytes => (s.rx.returned.length, bytes)
  | _ => True

/-- `poll_rx_packet` is called only while no packet has been received. -/
def BeforeFirst (s : E1000) : Event → Prop
  | .poll _ => s.rx.received = []
  | _ => True

/-- The ring while no packet has been returned: the packets stand in it from 0 on. -/
structure Waiting (s : E1000) : Prop where
  tail : s.rx.tail = 0
  rdt : s.rx.rdt = numRxDescs - 1
  rdh : s.rx.rdh = s.rx.received.length
  len : s.rx.received.length < numRxDescs
  returned : s.rx.returned = []
  idle : ∀ i < numRxDescs, s.rx.received.length ≤ i → (s.rx.descs i).status &&& 1 = 0
  arrival : ∀ i < s.rx.received.length, s.rx.arrival i = i

variable {s : E1000}

theorem waiting_init (s : E1000) (bar0 : UInt64) : Waiting (s.init bar0) where
  tail := rfl
  rdt := rfl
  rdh := rfl
  len := Nat.zero_lt_succ 63
  returned := rfl
  idle := by
    intro i hi _
    simp [init, hi]
  arrival := fun i hi => absurd hi (Nat.not_lt_zero i)

theorem Waiting.withTx (h : Waiting s) (tx : TxRing) : Waiting { s with tx := tx } :=
  ⟨h.tail, h.rdt, h.rdh, h.len, h.returned, h.idle, h.arrival⟩

theorem Waiting.rxIndex_eq (h : Waiting s) : s.rxIndex = 1 := by
  rw [rxIndex, h.tail]
  rfl

/-- A call changes nothing, or takes the packet in its descriptor. -/
theorem pollRxPacket_cases (s : E1000) (room : ℕ) :
    s.pollRxPacket room = (none, s) ∨
      (s.rx.descs s.rxIndex).status &&& 1 ≠ 0 ∧
        ∃ bytes, s.pollRxPacket room = (some bytes, { s with rx := s.taken bytes }) := by
  rw [pollRxPacket]
  split
  · exact .inl rfl
  · split
    · exact .inl rfl
    · rename_i hdone
      refine .inr ⟨fun hzero => hdone ?_, _, rfl⟩
      rw [hzero]
      rfl

theorem waiting_arrive (h : Waiting s) (packet : Frame) : Waiting (s.arrive packet) := by
  rw [arrive]
  split
  case isTrue => exact h
  case isFalse hne =>
    have hlen := h.len
    have hroom : s.rx.received.length + 1 < numRxDescs := by
      rw [h.rdh, h.rdt] at hne
      omega
    have hlength : (s.rx.received ++ [packet]).length = s.rx.received.length + 1 := by
      rw [List.length_append, List.length_singleton]
    refine ⟨h.tail, h.rdt, ?_, ?_, h.returned, fun i hi hle => ?_, fun i hi => ?_⟩
    · change (s.rx.rdh + 1) % numRxDescs = _
      rw [hlength, h.rdh, Nat.mod_eq_of_lt hroom]
    · rw [hlength]
      exact hroom
    · change (s.rx.received ++ [packet]).length ≤ i at hle
      rw [hlength] at hle
      have hdiff : i ≠ s.rx.rdh := by
        rw [h.rdh]
        omega
      change (Function.update s.rx.descs s.rx.rdh _ i).status &&& 1 = 0
      rw [Function.update_of_ne hdiff]
      exact h.idle i hi (Nat.le_of_succ_le hle)
    · change i < (s.rx.received ++ [packet]).length at hi
      rw [hlength] at hi
      change Function.update s.rx.arrival s.rx.rdh s.rx.received.length i = i
      rcases eq_or_ne i s.rx.rdh with rfl | hdiff
      · rw [Function.update_self, h.rdh]
      · rw [Function.update_of_ne hdiff]
        rw [h.rdh] at hdiff
        exact h.arrival i (by omega)

/-- While nothing was received, a call returns nothing. -/
theorem Waiting.poll_eq (h : Waiting s) (hnil : s.rx.received = []) (room : ℕ) :
    s.pollRxPacket room = (none, s) := by
  rcases pollRxPacket_cases s room with heq | ⟨hdone, -⟩
  · exact heq
  · refine absurd (h.idle s.rxIndex ?_ ?_) hdone
    · rw [h.rxIndex_eq]
      decide
    · rw [hnil]
      exact Nat.zero_le _

theorem waiting_step (h : Waiting s) (e : Event) (hbefore : BeforeFirst s e) :
    Waiting (s.step e) := by
  cases e with
  | send packet =>
    obtain ⟨tx, htx⟩ := s.sendPacket_apart packet
    rw [step, htx]
    exact h.withTx tx
  | complete =>
    obtain ⟨tx, htx⟩ := s.complete_apart
    rw [step, htx]
    exact h.withTx tx
  | arrive packet => exact waiting_arrive h packet
  | poll room =>
    rw [step, h.poll_eq hbefore]
    exact h

/-- Once a packet was received, the first call does not return it: it returns nothing, or the
packet after it. -/
theorem Waiting.not_returnsNext (h : Waiting s) (hne : s.rx.received ≠ []) (room : ℕ) :
    ¬ ReturnsNext s (.poll room) := by
  obtain ⟨packet, rest, hreceived⟩ := List.exists_cons_of_ne_nil hne
  intro hnext
  have hreturned := hnext.2
  rw [h.returned, hreceived] at hreturned
  rcases pollRxPacket_cases s room with heq | ⟨hdone, bytes, heq⟩
  · rw [heq, h.returned] at hreturned
    exact List.cons_ne_nil _ _ hreturned.symm
  · have hlt : 1 < s.rx.received.length := by
      rw [h.rxIndex_eq] at hdone
      refine Nat.lt_of_not_le fun hle => hdone (h.idle 1 (by decide) hle)
    rw [heq] at hreturned
    change s.rx.returned ++ [(s.rx.arrival s.rxIndex, bytes)] = _ at hreturned
    rw [h.returned, h.rxIndex_eq, h.arrival 1 hlt] at hreturned
    have hone := congrArg Prod.fst (List.cons.inj hreturned).1
    contradiction

theorem returnsNext_iff (h : Waiting s) (e : Event) : ReturnsNext s e ↔ BeforeFirst s e := by
  cases e with
  | send | complete | arrive => rfl
  | poll room =>
    constructor
    · intro hnext
      by_contra hne
      exact h.not_returnsNext hne room hnext
    · intro hnil
      have hnil' : s.rx.received = [] := hnil
      rw [ReturnsNext, h.poll_eq hnil, hnil']
      exact ⟨rfl, (List.append_nil _).symm⟩

/-- Along every run of driver and card from the start of the driver, the calls return the
received packets in order exactly when none is made after a packet was received. -/
theorem returnsNext_run_iff (s : E1000) (bar0 : UInt64) (es : List Event) :
    AlongFold step ReturnsNext (s.init bar0) es ↔ AlongFold step BeforeFirst (s.init bar0) es :=
  alongFold_congr (I := Waiting) (fun _ e h => returnsNext_iff h e)
    (fun _ e h hbefore => waiting_step h e hbefore) (waiting_init s bar0)

/-- Of two packets the second one is returned first. -/
theorem secondPacket_returnedFirst :
    let packets : List Event := [.arrive ⟨[1], by decide⟩, .arrive ⟨[2], by decide⟩, .poll 2048]
    ¬ AlongFold step ReturnsNext (boot.init 0xFEBC0000) packets ∧
      (packets.foldl step (boot.init 0xFEBC0000)).rx.returned = [(1, [2])] := by
  refine ⟨fun hrun => ?_, by decide +kernel⟩
  have hnext := hrun.2.2.1.2
  revert hnext
  decide +kernel

end LatencyOS.Net.E1000
