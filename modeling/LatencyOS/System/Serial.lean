import LatencyOS.Lib.Trace
import Mathlib.Data.List.Basic
import Mathlib.Data.Nat.ModEq

/-!
# The serial port

The port is polled.  Every call first empties what the UART has received into a ring buffer in
memory, and sending looks at it again in every turn of its waiting loops.  A line feed is sent with
a carriage return in front of it, unless one was sent just before.

The UART is the environment: what it has ready at each look comes with the call.
-/

namespace LatencyOS

namespace Serial

/-- `RX_BUF_SIZE`. -/
def rxBufSize : ℕ := 4096

/-- The state of the driver, and what has gone out on the line. -/
structure Port where
  rxBuffer : ℕ → UInt8
  rxHead : ℕ
  rxTail : ℕ
  lastByteSent : UInt8
  wire : List UInt8

/-- The driver at the start. -/
def Port.new : Port := ⟨fun _ => 0, 0, 0, 0, []⟩

/-- One turn of `drain_rx_internal`: a byte that finds no cell is dropped. -/
def receive (s : Port) (b : UInt8) : Port :=
  let head := s.rxHead % rxBufSize
  let tail := s.rxTail % rxBufSize
  let nextHead := (head + 1) % rxBufSize
  if nextHead ≠ tail then
    { s with rxBuffer := Function.update s.rxBuffer head b, rxHead := nextHead }
  else s

/-- `drain_rx_internal`, with the bytes the UART has ready. -/
def drainRxInternal (s : Port) (ready : List UInt8) : Port := ready.foldl receive s

/-- `outb` to the data register. -/
def out (s : Port) (b : UInt8) : Port := { s with wire := s.wire ++ [b] }

/-- What the UART has ready at each look while a byte is sent: at first, in the turns that wait for
room for the carriage return, after it, in the turns that wait for room for the byte, and after
it. -/
structure SendEnv where
  first : List UInt8
  waitReturn : List (List UInt8)
  afterReturn : List UInt8
  wait : List (List UInt8)
  last : List UInt8

/-- All bytes that come in while a byte is sent; the carriage return may not be sent. -/
def SendEnv.arrived (env : SendEnv) (withReturn : Bool) : List UInt8 :=
  env.first ++ (if withReturn then env.waitReturn.flatten ++ env.afterReturn else []) ++
    env.wait.flatten ++ env.last

/-- Whether a carriage return is sent in front of a byte. -/
def needsReturn (last byte : UInt8) : Bool := byte == 0x0A && last != 0x0D

/-- `send_byte`. -/
def sendByte (s : Port) (env : SendEnv) (byte : UInt8) : Port :=
  let s := drainRxInternal s env.first
  let s :=
    if needsReturn s.lastByteSent byte then
      drainRxInternal (out (env.waitReturn.foldl drainRxInternal s) 0x0D) env.afterReturn
    else s
  let s := out (env.wait.foldl drainRxInternal s) byte
  drainRxInternal { s with lastByteSent := byte } env.last

/-- `is_data_ready`. -/
def isDataReady (s : Port) (ready : List UInt8) : Bool × Port :=
  let s := drainRxInternal s ready
  (s.rxHead % rxBufSize != s.rxTail % rxBufSize, s)

/-- `read_byte_nonblocking`. -/
def readByteNonblocking (s : Port) (ready : List UInt8) : Option UInt8 × Port :=
  let s := drainRxInternal s ready
  let head := s.rxHead % rxBufSize
  let tail := s.rxTail % rxBufSize
  if head ≠ tail then (some (s.rxBuffer tail), { s with rxTail := (tail + 1) % rxBufSize })
  else (none, s)

/-- `send_str`, with what the UART has ready at each of its bytes. -/
def sendStr (s : Port) : List (SendEnv × UInt8) → Port
  | [] => s
  | (env, byte) :: bytes => sendStr (sendByte s env byte) bytes

/-! ## The ring as a queue -/

/-- The number of bytes that wait in the ring. -/
def waiting (s : Port) : ℕ := (s.rxHead + rxBufSize - s.rxTail) % rxBufSize

/-- The bytes that wait in the ring. -/
def unread (s : Port) : List UInt8 :=
  (List.range (waiting s)).map fun i => s.rxBuffer ((s.rxTail + i) % rxBufSize)

/-- The indices are cells of the ring. -/
structure Inside (s : Port) : Prop where
  head : s.rxHead < rxBufSize
  tail : s.rxTail < rxBufSize

variable {s : Port} {b : UInt8} {bytes : List UInt8}

theorem inside_new : Inside Port.new := ⟨by decide, by decide⟩

@[simp] theorem length_unread (s : Port) : (unread s).length = waiting s := by
  simp [unread]

theorem waiting_lt (s : Port) : waiting s < rxBufSize := Nat.mod_lt _ (by decide)

/-- The head is as far behind the tail as bytes wait. -/
theorem Inside.head_eq (h : Inside s) : s.rxHead = (s.rxTail + waiting s) % rxBufSize := by
  have hhead := h.head
  have htail := h.tail
  simp only [waiting, rxBufSize] at *
  omega

/-- One byte more fits exactly where the ring does not close. -/
theorem Inside.room_iff (h : Inside s) :
    (s.rxHead % rxBufSize + 1) % rxBufSize ≠ s.rxTail % rxBufSize ↔
      waiting s + 1 < rxBufSize := by
  have hhead := h.head
  have htail := h.tail
  simp only [waiting, rxBufSize] at *
  omega

theorem Inside.receive (h : Inside s) (b : UInt8) : Inside (receive s b) := by
  unfold Serial.receive
  dsimp only
  split
  · exact ⟨Nat.mod_lt _ (by decide), h.tail⟩
  · exact h

/-- What a queue of bounded length takes. -/
def enqueue (q : List UInt8) (b : UInt8) : List UInt8 :=
  if q.length + 1 < rxBufSize then q ++ [b] else q

/-- A byte that finds a cell is put into it. -/
theorem Inside.receive_of_room (h : Inside s) (hroom : waiting s + 1 < rxBufSize) (b : UInt8) :
    Serial.receive s b = { s with
      rxBuffer := Function.update s.rxBuffer s.rxHead b
      rxHead := (s.rxHead + 1) % rxBufSize } := by
  have hnext := h.room_iff.mpr hroom
  rw [Serial.receive, if_pos hnext, Nat.mod_eq_of_lt h.head]

/-- A byte that comes in is enqueued. -/
theorem Inside.unread_receive (h : Inside s) (b : UInt8) :
    unread (Serial.receive s b) = enqueue (unread s) b := by
  have hhead := h.head
  have htail := h.tail
  by_cases hroom : waiting s + 1 < rxBufSize
  · have hwaiting : waiting (Serial.receive s b) = waiting s + 1 := by
      rw [h.receive_of_room hroom]
      simp only [waiting, rxBufSize] at *
      omega
    rw [enqueue, length_unread, if_pos hroom, unread, hwaiting, List.range_succ, List.map_append,
      List.map_singleton, h.receive_of_room hroom]
    dsimp only
    rw [← h.head_eq, Function.update_self, unread]
    refine congrArg (· ++ [b]) (List.map_congr_left fun i hi => Function.update_of_ne ?_ _ _)
    have hi' := List.mem_range.mp hi
    have hcell := h.head_eq
    simp only [rxBufSize] at *
    omega
  · rw [enqueue, length_unread, if_neg hroom, Serial.receive,
      if_neg (mt h.room_iff.mp hroom)]

/-- Draining enqueues all bytes in order. -/
theorem Inside.drain (h : Inside s) (bytes : List UInt8) :
    Inside (drainRxInternal s bytes) ∧
      unread (drainRxInternal s bytes) = bytes.foldl enqueue (unread s) := by
  induction bytes generalizing s with
  | nil => exact ⟨h, rfl⟩
  | cons b bytes ih =>
    obtain ⟨hinside, heq⟩ := ih (h.receive b)
    refine ⟨hinside, ?_⟩
    rw [drainRxInternal, List.foldl_cons, ← drainRxInternal, heq, h.unread_receive,
      List.foldl_cons]

/-- Draining in turns drains all. -/
theorem foldl_drain (s : Port) (turns : List (List UInt8)) :
    turns.foldl drainRxInternal s = drainRxInternal s turns.flatten := by
  induction turns generalizing s with
  | nil => rfl
  | cons bytes turns ih =>
    rw [List.foldl_cons, ih, List.flatten_cons, drainRxInternal, drainRxInternal, drainRxInternal,
      List.foldl_append]

theorem drain_append (s : Port) (bytes bytes' : List UInt8) :
    drainRxInternal (drainRxInternal s bytes) bytes' = drainRxInternal s (bytes ++ bytes') := by
  rw [drainRxInternal, drainRxInternal, drainRxInternal, List.foldl_append]

/-- The port with another state of the line. -/
def onLine (s : Port) (wire : List UInt8) (last : UInt8) : Port :=
  { s with wire := wire, lastByteSent := last }

/-- Draining does not look at the line. -/
theorem drain_onLine (s : Port) (wire : List UInt8) (last : UInt8) (bytes : List UInt8) :
    drainRxInternal (onLine s wire last) bytes = onLine (drainRxInternal s bytes) wire last := by
  induction bytes generalizing s with
  | nil => rfl
  | cons b bytes ih =>
    have hone : receive (onLine s wire last) b = onLine (receive s b) wire last := by
      unfold receive onLine
      dsimp only
      split <;> rfl
    simp only [drainRxInternal, List.foldl_cons, hone]
    exact ih (receive s b)

theorem onLine_self (s : Port) : onLine s s.wire s.lastByteSent = s := rfl

theorem drain_line (s : Port) (bytes : List UInt8) :
    (drainRxInternal s bytes).wire = s.wire ∧
      (drainRxInternal s bytes).lastByteSent = s.lastByteSent := by
  rw [← onLine_self s, drain_onLine]
  exact ⟨rfl, rfl⟩

/-! ## Line feeds -/

/-- What goes out for a byte. -/
def onWire (last byte : UInt8) : List UInt8 :=
  if needsReturn last byte then [0x0D, byte] else [byte]

/-- What goes out for some bytes, with the last one that was sent before. -/
def crlf : UInt8 → List UInt8 → List UInt8
  | _, [] => []
  | last, b :: bytes => onWire last b ++ crlf b bytes

theorem crlf_concat (last : UInt8) (bytes : List UInt8) (b : UInt8) :
    crlf last (bytes ++ [b]) = crlf last bytes ++ onWire (bytes.getLastD last) b := by
  induction bytes generalizing last with
  | nil => simp [crlf]
  | cons c bytes ih => rw [List.cons_append, crlf, ih, crlf, List.append_assoc,
      List.getLastD_cons]

/-- The text without the carriage returns in front of line feeds. -/
def unixText : List UInt8 → List UInt8
  | [] => []
  | b :: bytes => if b = 0x0D ∧ bytes.head? = some 0x0A then unixText bytes else b :: unixText bytes

/-- Every line feed comes behind a carriage return. -/
def LinesEnd : UInt8 → List UInt8 → Prop
  | _, [] => True
  | last, b :: bytes => (b = 0x0A → last = 0x0D) ∧ LinesEnd b bytes

theorem linesEnd_crlf (last : UInt8) (bytes : List UInt8) : LinesEnd last (crlf last bytes) := by
  induction bytes generalizing last with
  | nil => trivial
  | cons b bytes ih =>
    rw [crlf, onWire]
    split
    · exact ⟨fun h => absurd h (by decide), fun _ => rfl, ih b⟩
    · next hneed =>
      refine ⟨fun hb => ?_, ih b⟩
      simpa [needsReturn, hb] using hneed

/-- The carriage returns that are added are taken away again. -/
theorem unixText_crlf (last : UInt8) (bytes : List UInt8) :
    unixText (crlf last bytes) = unixText bytes := by
  induction bytes generalizing last with
  | nil => rfl
  | cons b bytes ih =>
    rw [crlf, onWire]
    split
    · next hneed =>
      have hb : b = 0x0A := by
        simp only [needsReturn, Bool.and_eq_true, beq_iff_eq] at hneed
        exact hneed.1
      simp [hb, unixText, ih]
    · -- behind a carriage return nothing is put in
      have hhead : b = 0x0D → ((crlf b bytes).head? = some 0x0A ↔ bytes.head? = some 0x0A) := by
        rintro rfl
        cases bytes with
        | nil => rfl
        | cons c bytes => simp [crlf, onWire, needsReturn]
      rw [List.singleton_append, unixText, unixText, ih]
      simp only [and_congr_right hhead]

/-! ## Sending -/

/-- Sending a byte drains what comes in, and puts out the byte. -/
theorem sendByte_eq (s : Port) (env : SendEnv) (byte : UInt8) :
    sendByte s env byte =
      onLine (drainRxInternal s (env.arrived (needsReturn s.lastByteSent byte)))
        (s.wire ++ onWire s.lastByteSent byte) byte := by
  have hout : ∀ (t : Port) (b : UInt8), out t b = onLine t (t.wire ++ [b]) t.lastByteSent :=
    fun _ _ => rfl
  have hlast : ∀ t : Port, { out t byte with lastByteSent := byte } =
      onLine t (t.wire ++ [byte]) byte := fun _ => rfl
  rw [sendByte, hlast, (drain_line s _).2]
  by_cases hneed : needsReturn s.lastByteSent byte = true
  · simp only [hneed, if_true, foldl_drain, hout, drain_onLine, drain_append, drain_line, onWire,
      SendEnv.arrived]
    simp [onLine]
  · rw [Bool.not_eq_true] at hneed
    simp only [hneed, foldl_drain, drain_onLine, drain_append, drain_line, onWire,
      SendEnv.arrived]
    simp [onLine, drain_append, drain_line]

/-! ## Reading -/

/-- With bytes in the ring the first one is in the cell the tail points to. -/
theorem Inside.unread_cons (h : Inside s) (hne : s.rxHead ≠ s.rxTail) :
    unread s = s.rxBuffer s.rxTail :: unread { s with rxTail := (s.rxTail + 1) % rxBufSize } := by
  have hhead := h.head
  have htail := h.tail
  have hwaiting : waiting s = waiting { s with rxTail := (s.rxTail + 1) % rxBufSize } + 1 := by
    simp only [waiting, rxBufSize] at *
    omega
  rw [unread, hwaiting, List.range_succ_eq_map, List.map_cons, Nat.add_zero,
    Nat.mod_eq_of_lt htail, List.map_map]
  refine congrArg _ (List.map_congr_left fun i _ => ?_)
  simp only [Function.comp_def, Nat.mod_add_mod, Nat.succ_eq_add_one]
  rw [Nat.add_assoc, Nat.add_comm i]

/-- Reading drains what comes in and takes the first byte of the ring. -/
theorem Inside.read (h : Inside s) (bytes : List UInt8) :
    Inside (readByteNonblocking s bytes).2 ∧
      bytes.foldl enqueue (unread s) = (readByteNonblocking s bytes).1.toList ++
        unread (readByteNonblocking s bytes).2 := by
  obtain ⟨hinside, hunread⟩ := h.drain bytes
  rw [← hunread, readByteNonblocking, Nat.mod_eq_of_lt hinside.head, Nat.mod_eq_of_lt hinside.tail]
  split
  · next hne =>
    exact ⟨⟨hinside.head, Nat.mod_lt _ (by decide)⟩, hinside.unread_cons hne⟩
  · exact ⟨hinside, rfl⟩

theorem read_line (s : Port) (bytes : List UInt8) :
    (readByteNonblocking s bytes).2.wire = s.wire ∧
      (readByteNonblocking s bytes).2.lastByteSent = s.lastByteSent := by
  unfold readByteNonblocking
  dsimp only
  split <;> exact drain_line s bytes

/-! ## Runs -/

/-- A call of the driver. -/
inductive Call
  | send (env : SendEnv) (byte : UInt8)
  | ready (bytes : List UInt8)
  | read (bytes : List UInt8)

/-- The bytes that come in during a call. -/
def Call.arrived (s : Port) : Call → List UInt8
  | .send env byte => env.arrived (needsReturn s.lastByteSent byte)
  | .ready bytes => bytes
  | .read bytes => bytes

/-- The driver and what has happened: what came in, what reading returned, what was to be sent. -/
structure History where
  port : Port
  arrived : List UInt8
  returned : List UInt8
  sent : List UInt8

namespace History

def start : History := ⟨Port.new, [], [], []⟩

/-- A call and its history. -/
def step (h : History) (c : Call) : History :=
  let arrived := h.arrived ++ c.arrived h.port
  match c with
  | .send env byte => ⟨sendByte h.port env byte, arrived, h.returned, h.sent ++ [byte]⟩
  | .ready bytes => ⟨(isDataReady h.port bytes).2, arrived, h.returned, h.sent⟩
  | .read bytes =>
    let r := readByteNonblocking h.port bytes
    ⟨r.2, arrived, h.returned ++ r.1.toList, h.sent⟩

/-- All bytes that come in during a call find a cell. -/
def Fits (h : History) (c : Call) : Prop :=
  waiting h.port + (c.arrived h.port).length < rxBufSize

instance (h : History) (c : Call) : Decidable (Fits h c) := inferInstanceAs (Decidable (_ < _))

/-- Nothing that came in was dropped. -/
def Lossless (h : History) : Prop := h.returned ++ unread h.port = h.arrived

/-- What holds along every run: what came in is returned in order, and what goes out is the text
with its line ends. -/
structure Good (h : History) : Prop where
  inside : Inside h.port
  wire : h.port.wire = crlf 0 h.sent
  last : h.port.lastByteSent = h.sent.getLastD 0
  order : (h.returned ++ unread h.port).Sublist h.arrived

variable {h : History} {c : Call} {calls : List Call}

/-- The bounded queue keeps its bytes and takes some of those that come in, all of them if they
fit. -/
theorem foldl_enqueue {q : List UInt8} (hq : q.length < rxBufSize) (bytes : List UInt8) :
    ∃ kept, kept.Sublist bytes ∧ bytes.foldl enqueue q = q ++ kept ∧
      (kept = bytes ↔ q.length + bytes.length < rxBufSize) := by
  induction bytes generalizing q with
  | nil => exact ⟨[], .slnil, (List.append_nil q).symm, iff_of_true rfl hq⟩
  | cons b bytes ih =>
    rw [List.foldl_cons, enqueue]
    by_cases hroom : q.length + 1 < rxBufSize
    · rw [if_pos hroom]
      have hlen : (q ++ [b]).length = q.length + 1 := List.length_append
      obtain ⟨kept, hsub, heq, hiff⟩ := ih (q := q ++ [b]) (by omega)
      refine ⟨b :: kept, hsub.cons_cons b, ?_, ?_⟩
      · rw [heq, List.append_assoc, List.singleton_append]
      · rw [List.cons_inj_right, hiff, hlen, List.length_cons, Nat.add_assoc,
          Nat.add_comm 1]
    · rw [if_neg hroom]
      obtain ⟨kept, hsub, heq, -⟩ := ih hq
      refine ⟨kept, hsub.cons b, heq, iff_of_false ?_ ?_⟩
      · intro hall
        have hlen := hsub.length_le
        rw [hall, List.length_cons] at hlen
        omega
      · rw [List.length_cons]
        omega

/-- A text is sent byte by byte. -/
theorem port_sendStr (h : History) (bytes : List (SendEnv × UInt8)) :
    ((bytes.map fun b => Call.send b.1 b.2).foldl step h).port = sendStr h.port bytes := by
  induction bytes generalizing h with
  | nil => rfl
  | cons b bytes ih => rw [List.map_cons, List.foldl_cons, ih]; rfl

/-- What a call does to the line, and to the bytes that are returned or wait. -/
theorem step_spec (hgood : Good h) (c : Call) :
    Inside (step h c).port ∧ (step h c).port.wire = crlf 0 (step h c).sent ∧
      (step h c).port.lastByteSent = (step h c).sent.getLastD 0 ∧
      (step h c).arrived = h.arrived ++ c.arrived h.port ∧
      (step h c).returned ++ unread (step h c).port =
        h.returned ++ (c.arrived h.port).foldl enqueue (unread h.port) := by
  cases c with
  | send env byte =>
    obtain ⟨hinside, hunread⟩ :=
      hgood.inside.drain (env.arrived (needsReturn h.port.lastByteSent byte))
    have hsend := sendByte_eq h.port env byte
    refine ⟨?_, ?_, ?_, rfl, ?_⟩
    · simp only [step, hsend]
      exact ⟨hinside.head, hinside.tail⟩
    · simp only [step, hsend]
      rw [crlf_concat, ← hgood.wire, ← hgood.last]
      rfl
    · simp only [step, hsend, onLine, List.getLastD_concat]
    · simp only [step, hsend, Call.arrived, ← hunread]
      rfl
  | ready bytes =>
    obtain ⟨hinside, hunread⟩ := hgood.inside.drain bytes
    obtain ⟨hwire, hlast⟩ := drain_line h.port bytes
    refine ⟨hinside, hwire.trans hgood.wire, hlast.trans hgood.last, rfl, ?_⟩
    simp only [step, isDataReady, Call.arrived, hunread]
  | read bytes =>
    obtain ⟨hinside, hread⟩ := hgood.inside.read bytes
    obtain ⟨hwire, hlast⟩ := read_line h.port bytes
    refine ⟨hinside, hwire.trans hgood.wire, hlast.trans hgood.last, rfl, ?_⟩
    simp only [step, Call.arrived, hread, List.append_assoc]

/-- A call keeps the order, and drops nothing exactly when what comes in fits. -/
theorem good_step (hgood : Good h) (c : Call) :
    Good (step h c) ∧ (Lossless (step h c) ↔ Lossless h ∧ Fits h c) := by
  obtain ⟨hinside, hwire, hlast, harrived, hkept⟩ := step_spec hgood c
  obtain ⟨kept, hsub, hqueue, hiff⟩ := foldl_enqueue (q := unread h.port)
    (by rw [length_unread]; exact waiting_lt _) (c.arrived h.port)
  rw [hqueue, ← List.append_assoc] at hkept
  refine ⟨⟨hinside, hwire, hlast, ?_⟩, ?_⟩
  · rw [hkept, harrived]
    exact hgood.order.append hsub
  · rw [length_unread] at hiff
    rw [Lossless, Lossless, hkept, harrived, Fits, ← hiff]
    constructor
    · intro heq
      have hle := hgood.order.length_le
      have hle' := hsub.length_le
      have hlen := congrArg List.length heq
      rw [List.length_append, @List.length_append _ h.arrived] at hlen
      exact ⟨hgood.order.eq_of_length (by omega), hsub.eq_of_length (by omega)⟩
    · rintro ⟨heq, hall⟩
      rw [heq, hall]

theorem good_start : Good start := ⟨inside_new, rfl, rfl, List.nil_sublist _⟩

theorem good_run (hgood : Good h) :
    Good (calls.foldl step h) ∧
      (Lossless (calls.foldl step h) ↔ Lossless h ∧ AlongFold step Fits h calls) := by
  induction calls generalizing h with
  | nil => exact ⟨hgood, (and_iff_left trivial).symm⟩
  | cons c calls ih =>
    obtain ⟨hstep, hloss⟩ := good_step hgood c
    obtain ⟨hrun, hall⟩ := ih hstep
    refine ⟨hrun, hall.trans ?_⟩
    rw [hloss, AlongFold, and_assoc]

/-- In every run of the driver the bytes that came in are returned in order, none twice; none is
lost exactly when those that come in during a call always fit with those that wait.  What goes out
is the text with a carriage return in front of every line feed. -/
theorem serial_run (calls : List Call) :
    let h := calls.foldl step start
    (h.returned ++ unread h.port).Sublist h.arrived ∧
      (h.returned ++ unread h.port = h.arrived ↔ AlongFold step Fits start calls) ∧
      LinesEnd 0 h.port.wire ∧ unixText h.port.wire = unixText h.sent := by
  intro h
  obtain ⟨hgood, hloss⟩ : Good h ∧ (Lossless h ↔ _) := good_run good_start
  refine ⟨hgood.order, hloss.trans (and_iff_right rfl), ?_, ?_⟩
  · rw [hgood.wire]
    exact linesEnd_crlf 0 _
  · rw [hgood.wire]
    exact unixText_crlf 0 _

end History

end Serial

namespace Serial

/-!
## Printing from several cores

`_print` takes a lock, sends its text byte by byte and gives the lock back.  The cores interleave at
their accesses: a try to take the lock, a look at the UART, a byte that is put out, the store that
frees the lock.  Whatever the order, the texts go out one after the other and whole.
-/

/-- Where a core stands in `_print`: outside of the lock, with bytes still to be sent, or between a
carriage return and its byte. -/
inductive PrintState
  | idle
  | sending (rest : List UInt8)
  | returned (byte : UInt8) (rest : List UInt8)
  deriving DecidableEq

/-- The cores, the lock and the line, with the texts each core is still to print. -/
structure Cores (Core : Type) where
  printLock : Bool
  lastByteSent : UInt8
  wire : List UInt8
  state : Core → PrintState
  texts : Core → List (List UInt8)
  /-- The texts that were begun, in order; not part of the machine. -/
  begun : List (Core × List UInt8)

/-- Which core makes the next access.  The access is for nothing if the exchange fails, which a weak
one may do also when the lock is free, or if the UART has no room yet. -/
structure Access (Core : Type) where
  core : Core
  forNothing : Bool

namespace Cores

variable {Core : Type} [DecidableEq Core]

/-- All cores outside of the lock. -/
def start (texts : Core → List (List UInt8)) : Cores Core :=
  ⟨false, 0, [], fun _ => .idle, texts, []⟩

/-- One access of a core in `_print`. -/
def step (s : Cores Core) (a : Access Core) : Cores Core :=
  match s.state a.core with
  | .idle =>
    match s.texts a.core with
    | [] => s
    | text :: texts =>
      if s.printLock ∨ a.forNothing then s
      else
        { s with
          printLock := true
          state := Function.update s.state a.core (.sending text)
          texts := Function.update s.texts a.core texts
          begun := s.begun ++ [(a.core, text)] }
  | .sending [] =>
    { s with printLock := false, state := Function.update s.state a.core .idle }
  | .sending (b :: rest) =>
    if a.forNothing then s
    else if needsReturn s.lastByteSent b then
      { s with
        wire := s.wire ++ [0x0D]
        state := Function.update s.state a.core (.returned b rest) }
    else
      { s with
        wire := s.wire ++ [b]
        lastByteSent := b
        state := Function.update s.state a.core (.sending rest) }
  | .returned b rest =>
    if a.forNothing then s
    else
      { s with
        wire := s.wire ++ [b]
        lastByteSent := b
        state := Function.update s.state a.core (.sending rest) }

/-- The texts of a core among those that were begun. -/
def textsOf (c : Core) (begun : List (Core × List UInt8)) : List (List UInt8) :=
  (begun.filter (·.1 = c)).map (·.2)

/-- The bytes of some texts. -/
def allBytes (begun : List (Core × List UInt8)) : List UInt8 := begun.flatMap (·.2)

/-- The text a core is about to send went out up to what the core has left. -/
def Sent (wire : List UInt8) (last : UInt8) (before : List (Core × List UInt8))
    (part : List UInt8) : PrintState → List UInt8 → Prop
  | .idle, _ => False
  | .sending rest, text =>
    text = part ++ rest ∧ wire = crlf 0 (allBytes before ++ part) ∧
      last = (allBytes before ++ part).getLastD 0
  | .returned b rest, text =>
    text = part ++ b :: rest ∧ wire = crlf 0 (allBytes before ++ part) ++ [0x0D] ∧
      last = (allBytes before ++ part).getLastD 0 ∧ needsReturn last b = true

/-- What holds along every run. -/
structure Orderly (prog : Core → List (List UInt8)) (s : Cores Core) : Prop where
  exclusive : ∀ c c', s.state c ≠ .idle → s.state c' ≠ .idle → c = c'
  locked : ∀ c, s.state c ≠ .idle → s.printLock = true
  free : (∀ c, s.state c = .idle) → s.printLock = false ∧ s.wire = crlf 0 (allBytes s.begun) ∧
    s.lastByteSent = (allBytes s.begun).getLastD 0
  busy : ∀ c, s.state c ≠ .idle → ∃ before text part, s.begun = before ++ [(c, text)] ∧
    Sent s.wire s.lastByteSent before part (s.state c) text
  programs : ∀ c, textsOf c s.begun ++ s.texts c = prog c

variable {prog : Core → List (List UInt8)} {s : Cores Core} {c : Core}
  {accesses : List (Access Core)}

theorem orderly_start (prog : Core → List (List UInt8)) : Orderly prog (start prog) :=
  ⟨fun _ _ h => absurd rfl h, fun _ h => absurd rfl h, fun _ => ⟨rfl, rfl, rfl⟩,
    fun _ h => absurd rfl h, fun _ => rfl⟩

/-- While a core prints the others are outside. -/
theorem Orderly.others (h : Orderly prog s) (hc : s.state c ≠ .idle) {c' : Core} (hne : c' ≠ c) :
    s.state c' = .idle := by
  by_contra hc'
  exact hne (h.exclusive c' c hc' hc)

/-- A core that prints puts something out. -/
theorem Orderly.send (h : Orderly prog s) (hc : s.state c ≠ .idle) {wire : List UInt8}
    {last : UInt8} {state : PrintState} (hstate : state ≠ .idle)
    (hsent : ∀ (before : List (Core × List UInt8)) text part,
      Sent s.wire s.lastByteSent before part (s.state c) text →
        ∃ part', Sent wire last before part' state text) :
    Orderly prog { s with
      wire := wire
      lastByteSent := last
      state := Function.update s.state c state } := by
  have hidle : ∀ c', Function.update s.state c state c' ≠ .idle → c' = c := by
    intro c' hc'
    by_contra hne
    rw [Function.update_of_ne hne] at hc'
    exact hc' (h.others hc hne)
  refine ⟨fun c₁ c₂ h₁ h₂ => (hidle c₁ h₁).trans (hidle c₂ h₂).symm, fun _ _ => h.locked c hc,
    fun hall => ?_, fun c' hc' => ?_, h.programs⟩
  · have hself := hall c
    dsimp only at hself
    rw [Function.update_self] at hself
    exact absurd hself hstate
  · obtain rfl := hidle c' hc'
    obtain ⟨before, text, part, hbegun, hpart⟩ := h.busy c' hc
    obtain ⟨part', hpart'⟩ := hsent before text part hpart
    refine ⟨before, text, part', hbegun, ?_⟩
    dsimp only
    rwa [Function.update_self]

/-- A core that has nothing left gives the lock back. -/
theorem Orderly.release (h : Orderly prog s) (hc : s.state c = .sending []) :
    Orderly prog { s with
      printLock := false
      state := Function.update s.state c .idle } := by
  have hbusy : s.state c ≠ .idle := by
    rw [hc]
    exact PrintState.noConfusion
  have hidle : ∀ c', Function.update s.state c .idle c' = .idle := by
    intro c'
    by_cases hne : c' = c
    · rw [hne, Function.update_self]
    · rw [Function.update_of_ne hne]
      exact h.others hbusy hne
  obtain ⟨before, text, part, hbegun, hsent⟩ := h.busy c hbusy
  rw [hc] at hsent
  obtain ⟨htext, hwire, hlast⟩ := hsent
  rw [List.append_nil] at htext
  have hall : allBytes s.begun = allBytes before ++ part := by
    rw [hbegun, allBytes, List.flatMap_append, List.flatMap_singleton, htext]
    rfl
  refine ⟨fun c' _ hc' => absurd (hidle c') hc', fun c' hc' => absurd (hidle c') hc',
    fun _ => ⟨rfl, ?_, ?_⟩, fun c' hc' => absurd (hidle c') hc', h.programs⟩
  · rw [hall]
    exact hwire
  · rw [hall]
    exact hlast

/-- A core takes the free lock. -/
theorem Orderly.acquire (h : Orderly prog s) (hlock : s.printLock = false) {text : List UInt8}
    {texts : List (List UInt8)} (htexts : s.texts c = text :: texts) :
    Orderly prog { s with
      printLock := true
      state := Function.update s.state c (.sending text)
      texts := Function.update s.texts c texts
      begun := s.begun ++ [(c, text)] } := by
  have hall : ∀ c', s.state c' = .idle := by
    intro c'
    by_contra hc'
    rw [h.locked c' hc'] at hlock
    exact absurd hlock (by decide)
  obtain ⟨-, hwire, hlast⟩ := h.free hall
  have hidle : ∀ c', Function.update s.state c (.sending text) c' ≠ .idle → c' = c := by
    intro c' hc'
    by_contra hne
    rw [Function.update_of_ne hne] at hc'
    exact hc' (hall c')
  refine ⟨fun c₁ c₂ h₁ h₂ => (hidle c₁ h₁).trans (hidle c₂ h₂).symm, fun _ _ => rfl,
    fun hnone => ?_, fun c' hc' => ?_, fun c' => ?_⟩
  · have hself := hnone c
    dsimp only at hself
    rw [Function.update_self] at hself
    cases hself
  · obtain rfl := hidle c' hc'
    refine ⟨s.begun, text, [], rfl, ?_⟩
    dsimp only
    rw [Function.update_self]
    refine ⟨rfl, ?_, ?_⟩
    · rw [List.append_nil]
      exact hwire
    · rw [List.append_nil]
      exact hlast
  · have hprog := h.programs c'
    by_cases hne : c' = c
    · rw [hne] at hprog ⊢
      rw [htexts] at hprog
      simpa [textsOf] using hprog
    · have hne' : c ≠ c' := fun heq => hne heq.symm
      simpa [textsOf, hne, hne'] using hprog

/-- Every access keeps the order. -/
theorem orderly_step (h : Orderly prog s) (a : Access Core) : Orderly prog (step s a) := by
  unfold step
  split
  · split
    · exact h
    · next text texts htexts =>
      split
      · exact h
      · next hfree =>
        rw [not_or, Bool.not_eq_true] at hfree
        exact h.acquire hfree.1 htexts
  · next hstate => exact h.release hstate
  · next b rest hstate =>
    have hbusy : s.state a.core ≠ .idle := by
      rw [hstate]
      exact PrintState.noConfusion
    split
    · exact h
    · split
      · next hneed =>
        refine h.send hbusy PrintState.noConfusion fun before text part hsent => ⟨part, ?_⟩
        rw [hstate] at hsent
        obtain ⟨htext, hwire, hlast⟩ := hsent
        exact ⟨htext, congrArg (· ++ [0x0D]) hwire, hlast, hneed⟩
      · next hneed =>
        refine h.send hbusy PrintState.noConfusion fun before text part hsent => ⟨part ++ [b], ?_⟩
        rw [hstate] at hsent
        obtain ⟨htext, hwire, hlast⟩ := hsent
        refine ⟨by rw [htext, List.append_assoc]; rfl, ?_, ?_⟩
        · rw [← List.append_assoc, crlf_concat, ← hlast, onWire, if_neg hneed, ← hwire]
        · rw [← List.append_assoc, List.getLastD_concat]
  · next b rest hstate =>
    have hbusy : s.state a.core ≠ .idle := by
      rw [hstate]
      exact PrintState.noConfusion
    split
    · exact h
    · refine h.send hbusy PrintState.noConfusion fun before text part hsent => ⟨part ++ [b], ?_⟩
      rw [hstate] at hsent
      obtain ⟨htext, hwire, hlast, hneed⟩ := hsent
      refine ⟨by rw [htext, List.append_assoc]; rfl, ?_, ?_⟩
      · rw [← List.append_assoc, crlf_concat, ← hlast, onWire, if_pos hneed, hwire]
        simp
      · rw [← List.append_assoc, List.getLastD_concat]

theorem orderly_run (h : Orderly prog s) : Orderly prog (accesses.foldl step s) := by
  induction accesses generalizing s with
  | nil => exact h
  | cons a accesses ih => exact ih (orderly_step h a)

/-- Whatever the order of the accesses, at most one core prints; what has gone out are whole texts
one after the other, with a part of the text of the core that prints behind them; and every core's
texts go out in its own order. -/
theorem print_run (prog : Core → List (List UInt8)) (accesses : List (Access Core)) :
    let s := accesses.foldl step (start prog)
    (∀ c c', s.state c ≠ .idle → s.state c' ≠ .idle → c = c') ∧
      (∀ c, textsOf c s.begun ++ s.texts c = prog c) ∧
      ((∀ c, s.state c = .idle) → s.wire = crlf 0 (allBytes s.begun)) ∧
      ∀ c, s.state c ≠ .idle → ∃ before text part, s.begun = before ++ [(c, text)] ∧
        part <+: text ∧ (s.wire = crlf 0 (allBytes before ++ part) ∨
          s.wire = crlf 0 (allBytes before ++ part) ++ [0x0D]) := by
  intro s
  have h : Orderly prog s := orderly_run (orderly_start prog)
  refine ⟨h.exclusive, h.programs, fun hall => (h.free hall).2.1, fun c hc => ?_⟩
  obtain ⟨before, text, part, hbegun, hsent⟩ := h.busy c hc
  refine ⟨before, text, part, hbegun, ?_⟩
  cases hstate : s.state c with
  | idle => exact absurd hstate hc
  | sending rest =>
    rw [hstate] at hsent
    exact ⟨⟨rest, hsent.1.symm⟩, .inl hsent.2.1⟩
  | returned b rest =>
    rw [hstate] at hsent
    exact ⟨⟨b :: rest, hsent.1.symm⟩, .inr hsent.2.1⟩

end Cores

end Serial

end LatencyOS
