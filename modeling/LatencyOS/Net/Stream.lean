import LatencyOS.Crypto.Gcm
import LatencyOS.Lib.Buffer
import LatencyOS.Net.Nonce

/-!
# Sending a frame

`stream_send_frame` cuts a frame into chunks.  Each chunk goes into one buffer behind its Ethernet,
IPv4, UDP and SRTP headers, is encrypted there and is handed to the card with its tag.  A slice
that does not lie inside its buffer is a panic: it has no outcome.
-/

namespace LatencyOS.Net

open Buffer

def staticMasterKey : List UInt8 :=
  [0x01, 0x23, 0x45, 0x67, 0x89, 0xAB, 0xCD, 0xEF, 0xFE, 0xDC, 0xBA, 0x98, 0x76, 0x54, 0x32, 0x10]

def rtpPayloadTypeVideo : UInt8 := 96
def rtpSsrcVideo : UInt32 := 0x12345678

inductive SendError
  | deadlineExceeded | nicQueueFull | invalidFrame
  deriving DecidableEq

/-- `to_be_bytes` of a `u16`. -/
def be16 (n : UInt16) : List UInt8 := [(n >>> 8).toUInt8, n.toUInt8]

/-- `to_be_bytes` of a `u32`. -/
def be32 (n : UInt32) : List UInt8 :=
  [(n >>> 24).toUInt8, (n >>> 16).toUInt8, (n >>> 8).toUInt8, n.toUInt8]

/-! ## The checksum -/

/-- The first loop of `compute_ip_checksum`; a last byte without its partner is out of bounds. -/
def sumWords : List UInt8 → UInt32 → Option UInt32
  | [], sum => some sum
  | [_], _ => none
  | hi :: lo :: rest, sum => sumWords rest (sum + (hi.toUInt32 <<< 8 ||| lo.toUInt32))

theorem toNat_fold (sum : UInt32) (h : sum >>> 16 ≠ 0) :
    ((sum &&& (0xFFFF : UInt32)) + (sum >>> 16)).toNat < sum.toNat := by
  have hlt := sum.toNat_lt
  have hhigh : (sum >>> 16).toNat = sum.toNat / 65536 := by
    rw [UInt32.toNat_shiftRight, Nat.shiftRight_eq_div_pow]
    rfl
  have hlow : (sum &&& 0xFFFF).toNat = sum.toNat % 65536 := by
    rw [UInt32.toNat_and]
    exact Nat.and_two_pow_sub_one_eq_mod _ 16
  have hpos : (sum >>> 16).toNat ≠ 0 := fun hzero => h (UInt32.toNat_inj.mp hzero)
  rw [hhigh] at hpos
  rw [UInt32.toNat_add, hlow, hhigh]
  refine Nat.lt_of_le_of_lt (Nat.mod_le _ _) ?_
  omega

/-- Its second loop: what is above 16 bits is added below. -/
def foldCarries (sum : UInt32) : UInt32 :=
  if sum >>> 16 ≠ 0 then foldCarries ((sum &&& (0xFFFF : UInt32)) + (sum >>> 16)) else sum
termination_by sum.toNat
decreasing_by exact toNat_fold sum (by assumption)

/-- `compute_ip_checksum`. -/
def computeIpChecksum (header : List UInt8) : Option UInt16 :=
  (sumWords header 0).map fun sum => ~~~ (foldCarries sum).toUInt16

/-! ## A packet -/

/-- A hardware address. -/
abbrev Mac := {m : List UInt8 // m.length = 6}

def dstMac : List UInt8 := [0xFF, 0xFF, 0xFF, 0xFF, 0xFF, 0xFF]

/-- The fields of a `FrameHandle` that are sent, and those that say where the frame is. -/
structure FrameHandle where
  frameId : UInt64
  physAddr : UInt64
  size : ℕ
  vblankTsc : UInt64

/-- The low two bytes of the frame's number, the higher one first. -/
def frameIdBytes (frameId : UInt64) : List UInt8 := [(frameId >>> 8).toUInt8, frameId.toUInt8]

/-- The Ethernet and the IPv4 header, with no checksum yet. -/
def ipFields (srcMac : Mac) (frame : FrameHandle) (ipTotalLen : UInt16) : List (ℕ × List UInt8) :=
  [(0, dstMac), (6, srcMac.val), (12, be16 0x0800), (14, [0x45]), (15, [0x00]),
    (16, be16 ipTotalLen), (18, frameIdBytes frame.frameId), (20, be16 0x4000), (22, [64]),
    (23, [17]), (24, be16 0), (26, [192, 168, 1, 10]), (30, [192, 168, 1, 20])]

/-- The UDP and the SRTP header, and the chunk. -/
def udpFields (frame : FrameHandle) (seq : UInt16) (udpLen : UInt16) (chunk : List UInt8) :
    List (ℕ × List UInt8) :=
  [(34, be16 5004), (36, be16 5004), (38, be16 udpLen), (40, be16 0), (42, [0x80]),
    (43, [rtpPayloadTypeVideo]), (44, be16 seq), (46, be32 frame.vblankTsc.toUInt32),
    (50, be32 rtpSsrcVideo), (54, chunk)]

/-- The bytes as the cipher takes them. -/
def toBits (bytes : List UInt8) : List Crypto.Byte := bytes.map UInt8.toBitVec

def ofBits (bytes : List Crypto.Byte) : List UInt8 := bytes.map UInt8.ofBitVec

/-- The key of the stream. -/
def streamKey : Crypto.Aes128Key := .new (.ofBytes (toBits staticMasterKey))

/-- The vector of a packet, of twelve bytes. -/
def ivOf (seq : UInt16) : Crypto.Iv :=
  let b := Crypto.Block.ofBytes (toBits (iv seq))
  ⟨b.x0, b.x1, b.x2⟩

/-- One turn of the loop, as far as the buffer: the headers, the encrypted chunk and its tag. -/
def fillPacket (buf : List UInt8) (srcMac : Mac) (frame : FrameHandle) (seq : UInt16)
    (chunk : List UInt8) : Option (List UInt8) := do
  let ipTotalLen := UInt16.ofNat (20 + 8 + 12 + chunk.length + 16)
  let buf ← storeAll buf (ipFields srcMac frame ipTotalLen)
  let ipCsum ← computeIpChecksum (← load buf 14 20)
  let buf ← store buf 24 (be16 ipCsum)
  let udpLen := UInt16.ofNat (8 + 12 + chunk.length + 16)
  let buf ← storeAll buf (udpFields frame seq udpLen chunk)
  let aad ← load buf 42 12
  let payload ← load buf 54 chunk.length
  let out := Crypto.aes128GcmEncrypt streamKey (ivOf seq) (toBits aad) (toBits payload)
  let buf ← store buf 54 (ofBits out.1)
  store buf (54 + chunk.length) (ofBits out.2.toBytes)

/-! ## The loop -/

/-- What surrounds a call: the memory, the card's address, the counter at the start and in every
turn, and whether `send_packet` succeeds in it. -/
structure Surroundings where
  memory : ℕ → UInt8
  srcMac : Mac
  startTsc : UInt64
  turnTsc : ℕ → UInt64
  accepts : ℕ → Bool

/-- The variables of the call, the two statics it counts in, and the packets the card has
accepted. -/
structure SendState where
  packetBuffer : List UInt8
  offset : ℕ
  bytesSent : ℕ
  packetSeq : UInt16
  totalPacketsSent : UInt64
  totalFramesDropped : UInt64
  sent : List (List UInt8)

variable (env : Surroundings) (frame : FrameHandle) (deadlineTsc : UInt64)

/-- The frame is dropped. -/
def SendState.drop (s : SendState) : SendState :=
  { s with totalFramesDropped := s.totalFramesDropped + 1 }

/-- The `while` loop, from a turn on. -/
def sendLoop (frameSlice : List UInt8) (turn : ℕ) (s : SendState) :
    Option (Except SendError ℕ × SendState) :=
  if _h : s.offset < frameSlice.length then
    if deadlineTsc < env.turnTsc turn then some (.error .deadlineExceeded, s.drop)
    else
      let chunkLen := min maxSrtpPayloadChunk (frameSlice.length - s.offset)
      let totalPacketLen := 14 + 20 + 8 + 12 + chunkLen + 16
      let chunk? := load frameSlice s.offset chunkLen
      match chunk?.bind (fillPacket s.packetBuffer env.srcMac frame s.packetSeq) with
      | none => none
      | some buf =>
        match load buf 0 totalPacketLen with
        | none => none
        | some packet =>
          if env.accepts turn then
            sendLoop frameSlice (turn + 1)
              { s with
                packetBuffer := buf
                offset := s.offset + chunkLen
                bytesSent := s.bytesSent + totalPacketLen
                packetSeq := s.packetSeq + 1
                totalPacketsSent := s.totalPacketsSent + 1
                sent := s.sent ++ [packet] }
          else
            some (.error .nicQueueFull,
              { s with packetBuffer := buf, packetSeq := s.packetSeq + 1 })
  else some (.ok s.bytesSent, s)
termination_by frameSlice.length - s.offset
decreasing_by
  simp only [maxSrtpPayloadChunk]
  omega

/-- The bytes of a frame in memory. -/
def FrameHandle.slice (memory : ℕ → UInt8) : List UInt8 :=
  (List.range frame.size).map fun i => memory (frame.physAddr.toNat + i)

/-- `stream_send_frame`. -/
def streamSendFrame (packetSeq : UInt16) (totalPacketsSent totalFramesDropped : UInt64) :
    Option (Except SendError ℕ × SendState) :=
  let s : SendState :=
    ⟨List.replicate 1514 0, 0, 0, packetSeq, totalPacketsSent, totalFramesDropped, []⟩
  if deadlineTsc < env.startTsc then some (.error .deadlineExceeded, s.drop)
  else if frame.physAddr < 0x1000 ∨ frame.size = 0 ∨ maxFrameSize < frame.size then some (.ok 0, s)
  else sendLoop env frame deadlineTsc (frame.slice env.memory) 0 s

end LatencyOS.Net
