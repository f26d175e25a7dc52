import LatencyOS.Crypto.GcmCorrect
import LatencyOS.Net.Checksum

/-!
# The packets of a frame

What a receiver reads out of the packets of a call: their sequence numbers, their lengths, the
checksum and, with the key of the stream, their chunks.  A call that is not cut off sends the whole
frame.
-/

namespace LatencyOS.Net

open Buffer

/-! ## What a receiver reads -/

/-- The number in two bytes of a packet. -/
def be16At (p : List UInt8) (i : ℕ) : ℕ := (p.getD i 0).toNat * 256 + (p.getD (i + 1) 0).toNat

/-- The RTP sequence number. -/
def seqOf (p : List UInt8) : UInt16 := UInt16.ofNat (be16At p 44)

/-- The chunk in a packet, decrypted: the mode is its own inverse. -/
def plaintext (p : List UInt8) : List UInt8 :=
  ofBits (Crypto.aes128GcmEncrypt streamKey (ivOf (seqOf p)) []
    (toBits ((p.drop 54).take (p.length - 70)))).1

/-- A packet fits the buffer, has the lengths its headers give, and its checksum verifies. -/
structure WellFormed (p : List UInt8) : Prop where
  short : p.length ≤ 1514
  ipLen : be16At p 16 + 14 = p.length
  udpLen : be16At p 38 + 34 = p.length
  checksum : computeIpChecksum ((p.drop 14).take 20) = some 0

/-- Some packets carry some data, in chunks that are numbered from `seq` on. -/
structure Carries (data : List UInt8) (seq : UInt16) (packets : List (List UInt8)) : Prop where
  plaintexts : packets.flatMap plaintext = data
  seqs : packets.map seqOf = (List.range packets.length).map fun i => seq + UInt16.ofNat i
  wellFormed : ∀ p ∈ packets, WellFormed p

/-- A call has sent a frame, in packets of `count` bytes, and its counter goes on behind them. -/
structure Exact (data : List UInt8) (seq : UInt16) (count : ℕ) (s : SendState) : Prop where
  carries : Carries data seq s.sent
  next : s.packetSeq = seq + UInt16.ofNat s.sent.length
  count : count = (s.sent.map List.length).sum

/-! ## Numbers in two bytes -/

@[simp] theorem length_be32 (n : UInt32) : (be32 n).length = 4 := rfl

@[simp] theorem length_frameIdBytes (n : UInt64) : (frameIdBytes n).length = 2 := rfl

/-- The number written behind some bytes. -/
theorem be16At_append {front : List UInt8} {i : ℕ} (hi : i = front.length) (n : UInt16)
    (back : List UInt8) : be16At (front ++ be16 n ++ back) i = n.toNat := by
  subst hi
  have hhigh : (front ++ be16 n ++ back).getD front.length 0 = (n >>> 8).toUInt8 := by
    rw [List.append_assoc, List.getD_append_right _ _ _ _ le_rfl, Nat.sub_self]
    rfl
  have hlow : (front ++ be16 n ++ back).getD (front.length + 1) 0 = n.toUInt8 := by
    rw [List.append_assoc, List.getD_append_right _ _ _ _ (Nat.le_add_right _ _),
      Nat.add_sub_cancel_left]
    rfl
  rw [be16At, hhigh, hlow, toNat_be16]

/-! ## One packet -/

/-- The Ethernet header. -/
def ethernetHeader (srcMac : Mac) : List UInt8 := dstMac ++ srcMac.val ++ be16 0x0800

/-- The IPv4 header with a checksum. -/
def ipHeader (frame : FrameHandle) (ipTotalLen ipCsum : UInt16) : List UInt8 :=
  [0x45, 0x00] ++ be16 ipTotalLen ++ frameIdBytes frame.frameId ++ be16 0x4000 ++ [64, 17] ++
    be16 ipCsum ++ [192, 168, 1, 10, 192, 168, 1, 20]

def udpHeader (udpLen : UInt16) : List UInt8 := be16 5004 ++ be16 5004 ++ be16 udpLen ++ be16 0

def srtpHeader (frame : FrameHandle) (seq : UInt16) : List UInt8 :=
  [0x80, rtpPayloadTypeVideo] ++ be16 seq ++ be32 frame.vblankTsc.toUInt32 ++ be32 rtpSsrcVideo

/-- The encrypted chunk and its tag. -/
def sealed (frame : FrameHandle) (seq : UInt16) (chunk : List UInt8) :
    List Crypto.Byte × Crypto.Block :=
  Crypto.aes128GcmEncrypt streamKey (ivOf seq) (toBits (srtpHeader frame seq)) (toBits chunk)

/-- The headers of a chunk up to the IPv4 header. -/
def ipPart (srcMac : Mac) (frame : FrameHandle) (chunkLen : ℕ) (ipCsum : UInt16) : List UInt8 :=
  ethernetHeader srcMac ++ ipHeader frame (UInt16.ofNat (20 + 8 + 12 + chunkLen + 16)) ipCsum

/-- All headers of a chunk. -/
def headers (srcMac : Mac) (frame : FrameHandle) (seq : UInt16) (chunkLen : ℕ) (ipCsum : UInt16) :
    List UInt8 :=
  ipPart srcMac frame chunkLen ipCsum ++ udpHeader (UInt16.ofNat (8 + 12 + chunkLen + 16)) ++
    srtpHeader frame seq

/-- The whole packet of a chunk. -/
def packetOf (srcMac : Mac) (frame : FrameHandle) (seq : UInt16) (chunk : List UInt8)
    (ipCsum : UInt16) : List UInt8 :=
  headers srcMac frame seq chunk.length ipCsum ++ ofBits (sealed frame seq chunk).1 ++
    ofBits (sealed frame seq chunk).2.toBytes

variable {srcMac : Mac} {frame : FrameHandle} {seq len csum : UInt16} {chunk : List UInt8}

@[simp] theorem length_ethernetHeader : (ethernetHeader srcMac).length = 14 := by
  simp [ethernetHeader, dstMac, srcMac.property]

@[simp] theorem length_ipHeader : (ipHeader frame len csum).length = 20 := rfl

@[simp] theorem length_udpHeader : (udpHeader len).length = 8 := rfl

@[simp] theorem length_srtpHeader : (srtpHeader frame seq).length = 12 := rfl

@[simp] theorem length_ipPart (n : ℕ) : (ipPart srcMac frame n csum).length = 34 := by
  simp [ipPart]

@[simp] theorem length_headers (n : ℕ) : (headers srcMac frame seq n csum).length = 54 := by
  simp [headers]

@[simp] theorem length_toBits (bytes : List UInt8) : (toBits bytes).length = bytes.length :=
  List.length_map _

@[simp] theorem ofBits_toBits (bytes : List UInt8) : ofBits (toBits bytes) = bytes := by
  rw [ofBits, toBits, List.map_map]
  exact List.map_id _

@[simp] theorem toBits_ofBits (bytes : List Crypto.Byte) : toBits (ofBits bytes) = bytes := by
  rw [ofBits, toBits, List.map_map]
  exact List.map_id _

@[simp] theorem length_sealed_fst : (ofBits (sealed frame seq chunk).1).length = chunk.length := by
  rw [ofBits, List.length_map, sealed, Crypto.aes128GcmEncrypt, Crypto.ctrLoop_eq,
    Crypto.Sp80038d.gctr, List.length_mapIdx, length_toBits]

@[simp] theorem length_sealed_snd : (ofBits (sealed frame seq chunk).2.toBytes).length = 16 := rfl

@[simp] theorem length_packetOf :
    (packetOf srcMac frame seq chunk csum).length = 70 + chunk.length := by
  rw [packetOf, List.length_append, List.length_append, length_headers, length_sealed_fst,
    length_sealed_snd]
  omega

theorem contents_ipFields (len : UInt16) :
    contents (ipFields srcMac frame len) = ethernetHeader srcMac ++ ipHeader frame len 0 := by
  simp only [ipFields, contents_cons, contents_nil, ethernetHeader, ipHeader, List.append_assoc]
  rfl

theorem consecutive_ipFields (len : UInt16) :
    Consecutive 0 (ipFields srcMac frame len) := by
  simp [ipFields, Consecutive, dstMac, srcMac.property]

theorem contents_udpFields (len : UInt16) :
    contents (udpFields frame seq len chunk) =
      udpHeader len ++ srtpHeader frame seq ++ chunk := by
  simp only [udpFields, contents_cons, contents_nil, udpHeader, srtpHeader, List.append_assoc,
    List.append_nil, List.cons_append, List.nil_append]

theorem consecutive_udpFields (len : UInt16) :
    Consecutive 34 (udpFields frame seq len chunk) := by
  simp [udpFields, Consecutive]

/-- The checksum is one of the words of its header, and the others do not sum to zero. -/
theorem wordSum_ipHeader (frame : FrameHandle) (len : UInt16) :
    ∃ others, 0 < others ∧ ∀ csum, wordSum (ipHeader frame len csum) = others + csum.toNat := by
  refine ⟨wordSum ([0x45, 0x00] ++ be16 len ++ frameIdBytes frame.frameId ++ be16 0x4000 ++
    [64, 17]) + wordSum [192, 168, 1, 10, 192, 168, 1, 20], Nat.add_pos_right _ (by decide),
    fun csum => ?_⟩
  rw [ipHeader, wordSum_append (Dvd.intro 6 rfl), wordSum_append (Dvd.intro 5 rfl), wordSum_be16]
  omega

/-- The checksum that is filled in makes the header verify. -/
theorem ipHeader_verifies (frame : FrameHandle) (len : UInt16) :
    ∃ csum, computeIpChecksum (ipHeader frame len 0) = some csum ∧
      computeIpChecksum (ipHeader frame len csum) = some 0 := by
  obtain ⟨others, hothers, hsum⟩ := wordSum_ipHeader frame len
  have hzero : wordSum (ipHeader frame len 0) = others := hsum 0
  have heven : ∀ csum, 2 ∣ (ipHeader frame len csum).length := fun _ => Dvd.intro 10 rfl
  have hlen : ∀ csum, (ipHeader frame len csum).length < 65536 :=
    fun _ => Nat.lt_of_sub_pos (Nat.zero_lt_succ _)
  obtain ⟨csum, hcsum, hmod, -⟩ := computeIpChecksum_eq (heven 0) (hlen 0)
  refine ⟨csum, hcsum, computeIpChecksum_zero (heven csum) (hlen csum) ?_ ?_⟩
  · rw [hsum]
    omega
  · rw [hsum, ← hzero, Nat.add_comm, hmod]

/-- The IPv4 header goes to the front of the buffer. -/
theorem storeAll_ipFields {buf : List UInt8} (hbuf : buf.length = 1514) (n : ℕ) :
    storeAll buf (ipFields srcMac frame (UInt16.ofNat (20 + 8 + 12 + n + 16))) =
      some (ipPart srcMac frame n 0 ++ buf.drop 34) := by
  have hconsecutive : Consecutive ([] : List UInt8).length
      (ipFields srcMac frame (UInt16.ofNat (20 + 8 + 12 + n + 16))) := consecutive_ipFields _
  have hlen : (contents (ipFields srcMac frame
      (UInt16.ofNat (20 + 8 + 12 + n + 16)))).length ≤ buf.length := by
    rw [contents_ipFields, ← ipPart, length_ipPart]
    omega
  have h := storeAll_append hconsecutive hlen
  rwa [contents_ipFields, ← ipPart, length_ipPart, List.nil_append, List.nil_append] at h

theorem load_ipHeader (n : ℕ) (back : List UInt8) :
    load (ipPart srcMac frame n csum ++ back) 14 20 =
      some (ipHeader frame (UInt16.ofNat (20 + 8 + 12 + n + 16)) csum) :=
  load_append length_ethernetHeader.symm rfl back

/-- The checksum is written over the zeros that stand for it. -/
theorem store_ipCsum (n : ℕ) (csum : UInt16) (back : List UInt8) :
    store (ipPart srcMac frame n 0 ++ back) 24 (be16 csum) =
      some (ipPart srcMac frame n csum ++ back) := by
  have hoff : 24 = (ethernetHeader srcMac ++ ([0x45, 0x00] ++
      be16 (UInt16.ofNat (20 + 8 + 12 + n + 16)) ++ frameIdBytes frame.frameId ++ be16 0x4000 ++
      [64, 17])).length := by simp
  have hzeros : (be16 csum).length = (be16 0).length := rfl
  have h := store_replace hoff hzeros ([192, 168, 1, 10, 192, 168, 1, 20] ++ back)
  simpa only [ipPart, ipHeader, List.append_assoc] using h

/-- The other headers and the chunk follow. -/
theorem storeAll_udpFields {back : List UInt8} (hback : 20 + chunk.length ≤ back.length) :
    storeAll (ipPart srcMac frame chunk.length csum ++ back)
        (udpFields frame seq (UInt16.ofNat (8 + 12 + chunk.length + 16)) chunk) =
      some (headers srcMac frame seq chunk.length csum ++ chunk ++
        back.drop (20 + chunk.length)) := by
  have hlen : (contents (udpFields frame seq
      (UInt16.ofNat (8 + 12 + chunk.length + 16)) chunk)).length = 20 + chunk.length := by
    rw [contents_udpFields, List.length_append, List.length_append, length_udpHeader,
      length_srtpHeader]
  have hconsecutive : Consecutive (ipPart srcMac frame chunk.length csum).length
      (udpFields frame seq (UInt16.ofNat (8 + 12 + chunk.length + 16)) chunk) := by
    rw [length_ipPart]
    exact consecutive_udpFields _
  have h := storeAll_append hconsecutive (hlen ▸ hback)
  rw [hlen, contents_udpFields] at h
  simpa only [headers, List.append_assoc] using h

theorem load_srtpHeader (n : ℕ) (back : List UInt8) :
    load (headers srcMac frame seq n csum ++ back) 42 12 = some (srtpHeader frame seq) :=
  load_append (by simp) rfl back

/-- A turn of the loop puts the packet of its chunk at the front of the buffer. -/
theorem fillPacket_spec {buf : List UInt8} (hbuf : buf.length = 1514)
    (hchunk : chunk.length ≤ maxSrtpPayloadChunk) (srcMac : Mac) (frame : FrameHandle)
    (seq : UInt16) :
    ∃ csum back, computeIpChecksum
          (ipHeader frame (UInt16.ofNat (20 + 8 + 12 + chunk.length + 16)) csum) = some 0 ∧
      (packetOf srcMac frame seq chunk csum ++ back).length = 1514 ∧
      fillPacket buf srcMac frame seq chunk =
        some (packetOf srcMac frame seq chunk csum ++ back) := by
  have hroom : chunk.length ≤ 1380 := hchunk
  obtain ⟨csum, hcsum, hverifies⟩ :=
    ipHeader_verifies frame (UInt16.ofNat (20 + 8 + 12 + chunk.length + 16))
  have hback : 20 + chunk.length ≤ (buf.drop 34).length := by
    rw [List.length_drop]
    omega
  generalize htail : (buf.drop 34).drop (20 + chunk.length) = tail
  have hlen : tail.length = 1460 - chunk.length := by
    rw [← htail, List.length_drop, List.length_drop]
    omega
  have hpayload : load (headers srcMac frame seq chunk.length csum ++ chunk ++ tail) 54
      chunk.length = some chunk := load_append (by simp) rfl tail
  have haad : load (headers srcMac frame seq chunk.length csum ++ chunk ++ tail) 42 12 =
      some (srtpHeader frame seq) := by
    rw [List.append_assoc]
    exact load_srtpHeader chunk.length (chunk ++ tail)
  have hheaders : 54 = (headers srcMac frame seq chunk.length csum).length :=
    (length_headers _).symm
  have hsealed : (ofBits (sealed frame seq chunk).1).length = chunk.length := length_sealed_fst
  have hcipher := store_replace hheaders hsealed tail
  have hoff : 54 + chunk.length = (headers srcMac frame seq chunk.length csum ++
      ofBits (sealed frame seq chunk).1).length := by
    rw [List.length_append, length_headers, length_sealed_fst]
  have hfits : (ofBits (sealed frame seq chunk).2.toBytes).length ≤ tail.length := by
    rw [length_sealed_snd]
    omega
  have htag := store_append hoff hfits
  refine ⟨csum, tail.drop 16, hverifies, ?_, ?_⟩
  · rw [List.length_append, length_packetOf, List.length_drop, hlen]
    omega
  · rw [fillPacket, storeAll_ipFields hbuf]
    simp only [Option.bind_eq_bind, Option.bind_some, load_ipHeader, hcsum, store_ipCsum,
      storeAll_udpFields hback, htail, haad, hpayload]
    rw [← sealed, hcipher, Option.bind_some, htag]
    rfl

/-! ## What a packet carries -/

theorem seqOf_packetOf : seqOf (packetOf srcMac frame seq chunk csum) = seq := by
  have hfront : 44 = (ipPart srcMac frame chunk.length csum ++
      udpHeader (UInt16.ofNat (8 + 12 + chunk.length + 16)) ++
      [0x80, rtpPayloadTypeVideo]).length := by simp
  have h := be16At_append hfront seq (be32 frame.vblankTsc.toUInt32 ++ be32 rtpSsrcVideo ++
    (ofBits (sealed frame seq chunk).1 ++ ofBits (sealed frame seq chunk).2.toBytes))
  have hat : be16At (packetOf srcMac frame seq chunk csum) 44 = seq.toNat := by
    simpa only [packetOf, headers, srtpHeader, List.append_assoc] using h
  rw [seqOf, hat, UInt16.ofNat_toNat]

theorem toNat_ofNat_len {n : ℕ} (h : n < 65536) : (UInt16.ofNat n).toNat = n := by
  rw [UInt16.toNat_ofNat']
  exact Nat.mod_eq_of_lt h

theorem wellFormed_packetOf (hchunk : chunk.length ≤ maxSrtpPayloadChunk)
    (hcsum : computeIpChecksum
      (ipHeader frame (UInt16.ofNat (20 + 8 + 12 + chunk.length + 16)) csum) = some 0) :
    WellFormed (packetOf srcMac frame seq chunk csum) := by
  have hroom : chunk.length ≤ 1380 := hchunk
  have hipFront : 16 = (ethernetHeader srcMac ++ [0x45, 0x00]).length := by simp
  have hudpFront : 38 = (ipPart srcMac frame chunk.length csum ++ be16 5004 ++
      be16 5004).length := by simp
  have hip := be16At_append hipFront
    (UInt16.ofNat (20 + 8 + 12 + chunk.length + 16)) (frameIdBytes frame.frameId ++ be16 0x4000 ++
      [64, 17] ++ be16 csum ++ [192, 168, 1, 10, 192, 168, 1, 20] ++
      udpHeader (UInt16.ofNat (8 + 12 + chunk.length + 16)) ++ srtpHeader frame seq ++
      ofBits (sealed frame seq chunk).1 ++ ofBits (sealed frame seq chunk).2.toBytes)
  have hudp := be16At_append hudpFront (UInt16.ofNat (8 + 12 + chunk.length + 16))
    (be16 0 ++ srtpHeader frame seq ++ ofBits (sealed frame seq chunk).1 ++
      ofBits (sealed frame seq chunk).2.toBytes)
  rw [toNat_ofNat_len (by omega)] at hip hudp
  refine ⟨?_, ?_, ?_, ?_⟩
  · rw [length_packetOf]
    omega
  · have hat : be16At (packetOf srcMac frame seq chunk csum) 16 =
        20 + 8 + 12 + chunk.length + 16 := by
      simpa only [packetOf, headers, ipPart, ipHeader, List.append_assoc] using hip
    rw [hat, length_packetOf]
    omega
  · have hat : be16At (packetOf srcMac frame seq chunk csum) 38 =
        8 + 12 + chunk.length + 16 := by
      simpa only [packetOf, headers, udpHeader, List.append_assoc] using hudp
    rw [hat, length_packetOf]
    omega
  · have hheader : ((packetOf srcMac frame seq chunk csum).drop 14).take 20 =
        ipHeader frame (UInt16.ofNat (20 + 8 + 12 + chunk.length + 16)) csum := by
      simp only [packetOf, headers, ipPart, List.append_assoc]
      rw [List.drop_left' length_ethernetHeader, List.take_left' length_ipHeader]
    rw [hheader, hcsum]

/-- A receiver restores the chunk. -/
theorem plaintext_packetOf : plaintext (packetOf srcMac frame seq chunk csum) = chunk := by
  have hpayload : ((packetOf srcMac frame seq chunk csum).drop 54).take
      ((packetOf srcMac frame seq chunk csum).length - 70) = ofBits (sealed frame seq chunk).1 := by
    rw [length_packetOf, Nat.add_sub_cancel_left, packetOf, List.append_assoc,
      List.drop_left' (length_headers _), List.take_left' length_sealed_fst]
  rw [plaintext, seqOf_packetOf, hpayload, toBits_ofBits]
  have hinverse : (Crypto.aes128GcmEncrypt streamKey (ivOf seq) [] (sealed frame seq chunk).1).1 =
      toBits chunk := by
    change Crypto.ctrLoop streamKey (ivOf seq) 1
      (Crypto.ctrLoop streamKey (ivOf seq) 1 (toBits chunk)) = toBits chunk
    rw [Crypto.ctrLoop_eq, Crypto.ctrLoop_eq, Crypto.gctr_gctr]
  rw [hinverse, ofBits_toBits]

theorem carries_nil (seq : UInt16) : Carries [] seq [] :=
  ⟨rfl, rfl, fun _ hp => absurd hp List.not_mem_nil⟩

/-- The packet of a chunk, before the packets of the rest. -/
theorem Carries.cons {data : List UInt8} {packets : List (List UInt8)}
    (h : Carries data (seq + 1) packets) (hchunk : chunk.length ≤ maxSrtpPayloadChunk)
    (hcsum : computeIpChecksum
      (ipHeader frame (UInt16.ofNat (20 + 8 + 12 + chunk.length + 16)) csum) = some 0) :
    Carries (chunk ++ data) seq (packetOf srcMac frame seq chunk csum :: packets) where
  plaintexts := by rw [List.flatMap_cons, plaintext_packetOf, h.plaintexts]
  seqs := by
    rw [List.map_cons, seqOf_packetOf, h.seqs, List.length_cons, List.range_succ_eq_map,
      List.map_cons, List.map_map]
    refine congrArg₂ _ (UInt16.add_zero seq).symm (List.map_congr_left fun i _ => ?_)
    rw [Function.comp_apply, Nat.succ_eq_add_one, UInt16.ofNat_add,
      UInt16.add_comm (UInt16.ofNat i), ← UInt16.add_assoc]
    rfl
  wellFormed := by
    intro p hp
    rcases List.mem_cons.mp hp with rfl | hp
    · exact wellFormed_packetOf hchunk hcsum
    · exact h.wellFormed p hp

/-! ## The loop -/

variable {env : Surroundings} {deadlineTsc : UInt64} {frameSlice : List UInt8}

/-- The chunk a turn takes from the frame. -/
def nextChunk (frameSlice : List UInt8) (offset : ℕ) : List UInt8 :=
  (frameSlice.drop offset).take (min maxSrtpPayloadChunk (frameSlice.length - offset))

theorem length_nextChunk (frameSlice : List UInt8) (offset : ℕ) :
    (nextChunk frameSlice offset).length =
      min maxSrtpPayloadChunk (frameSlice.length - offset) := by
  rw [nextChunk, List.length_take, List.length_drop]
  exact Nat.min_eq_left (Nat.min_le_right _ _)

theorem nextChunk_append_drop (frameSlice : List UInt8) (offset : ℕ) :
    nextChunk frameSlice offset ++
      frameSlice.drop (offset + (nextChunk frameSlice offset).length) =
        frameSlice.drop offset := by
  rw [length_nextChunk, nextChunk, ← List.drop_drop, List.take_append_drop]

/-- What a turn that goes through leaves: the packet of its chunk is sent and counted. -/
def SendState.after (s : SendState) (packet : List UInt8) (chunkLen : ℕ)
    (back : List UInt8) : SendState :=
  { s with
    packetBuffer := packet ++ back
    offset := s.offset + chunkLen
    bytesSent := s.bytesSent + packet.length
    packetSeq := s.packetSeq + 1
    totalPacketsSent := s.totalPacketsSent + 1
    sent := s.sent ++ [packet] }

/-- A turn sends the packet of the next chunk, if nothing cuts it off. -/
theorem sendLoop_turn (hturn : ∀ turn, env.turnTsc turn ≤ deadlineTsc)
    (haccepts : ∀ turn, env.accepts turn = true) (frame : FrameHandle) (turn : ℕ) {s : SendState}
    (hbuf : s.packetBuffer.length = 1514) (hoff : s.offset < frameSlice.length) :
    ∃ csum back, computeIpChecksum (ipHeader frame (UInt16.ofNat
          (20 + 8 + 12 + (nextChunk frameSlice s.offset).length + 16)) csum) = some 0 ∧
      (packetOf env.srcMac frame s.packetSeq (nextChunk frameSlice s.offset) csum ++
        back).length = 1514 ∧
      sendLoop env frame deadlineTsc frameSlice turn s =
        sendLoop env frame deadlineTsc frameSlice (turn + 1)
          (s.after (packetOf env.srcMac frame s.packetSeq (nextChunk frameSlice s.offset) csum)
            (nextChunk frameSlice s.offset).length back) := by
  have hlen := length_nextChunk frameSlice s.offset
  have hchunk : (nextChunk frameSlice s.offset).length ≤ maxSrtpPayloadChunk :=
    hlen ▸ Nat.min_le_left _ _
  obtain ⟨csum, back, hcsum, hlength, hfill⟩ :=
    fillPacket_spec hbuf hchunk env.srcMac frame s.packetSeq
  refine ⟨csum, back, hcsum, hlength, ?_⟩
  have hlate : ¬ deadlineTsc < env.turnTsc turn := UInt64.not_lt.mpr (hturn turn)
  have hload : load frameSlice s.offset (min maxSrtpPayloadChunk
      (frameSlice.length - s.offset)) = some (nextChunk frameSlice s.offset) := by
    have hmin := Nat.min_le_right maxSrtpPayloadChunk (frameSlice.length - s.offset)
    rw [load, if_pos (by omega), nextChunk]
  have hpacketLen : 14 + 20 + 8 + 12 + (nextChunk frameSlice s.offset).length + 16 =
      (packetOf env.srcMac frame s.packetSeq (nextChunk frameSlice s.offset) csum).length := by
    rw [length_packetOf]
    omega
  have hpacket : load (packetOf env.srcMac frame s.packetSeq (nextChunk frameSlice s.offset) csum
      ++ back) 0 (14 + 20 + 8 + 12 + (nextChunk frameSlice s.offset).length + 16) =
      some (packetOf env.srcMac frame s.packetSeq (nextChunk frameSlice s.offset) csum) :=
    load_append (Eq.refl ([] : List UInt8).length) hpacketLen back
  rw [sendLoop, dif_pos hoff, if_neg hlate]
  dsimp only
  rw [hload, Option.bind_some, hfill]
  dsimp only
  rw [← hlen, hpacket]
  dsimp only
  rw [if_pos (haccepts turn), SendState.after, ← hpacketLen]

/-- From any turn on, the loop sends what is left of the frame, if nothing cuts it off. -/
theorem sendLoop_exact (hturn : ∀ turn, env.turnTsc turn ≤ deadlineTsc)
    (haccepts : ∀ turn, env.accepts turn = true) (frame : FrameHandle)
    (frameSlice : List UInt8) (turn : ℕ) (s : SendState)
    (hbuf : s.packetBuffer.length = 1514) :
    ∃ s' packets, sendLoop env frame deadlineTsc frameSlice turn s =
        some (.ok (s.bytesSent + (packets.map List.length).sum), s') ∧
      s'.sent = s.sent ++ packets ∧
      s'.packetSeq = s.packetSeq + UInt16.ofNat packets.length ∧
      Carries (frameSlice.drop s.offset) s.packetSeq packets := by
  induction hn : frameSlice.length - s.offset using Nat.strong_induction_on generalizing turn s with
  | _ n ih =>
    by_cases hoff : s.offset < frameSlice.length
    · obtain ⟨csum, back, hcsum, hlength, hstep⟩ :=
        sendLoop_turn hturn haccepts frame turn hbuf hoff
      have hlen : (nextChunk frameSlice s.offset).length =
        min 1380 (frameSlice.length - s.offset) := length_nextChunk frameSlice s.offset
      generalize hpacket : packetOf env.srcMac frame s.packetSeq
        (nextChunk frameSlice s.offset) csum = packet at hlength hstep
      obtain ⟨s', packets, hloop, hsent, hseq, hcarries⟩ := ih
        (frameSlice.length - (s.offset + (nextChunk frameSlice s.offset).length)) (by omega)
        (turn + 1) (s.after packet (nextChunk frameSlice s.offset).length back) hlength rfl
      refine ⟨s', packet :: packets, ?_, ?_, ?_, ?_⟩
      · rw [hstep, hloop, List.map_cons, List.sum_cons, ← Nat.add_assoc]
        rfl
      · rw [hsent, SendState.after, List.append_assoc]
        rfl
      · rw [hseq, List.length_cons, UInt16.ofNat_add, UInt16.add_comm (UInt16.ofNat _),
          ← UInt16.add_assoc]
        rfl
      · rw [← nextChunk_append_drop, ← hpacket]
        exact hcarries.cons (by rw [hlen]; exact Nat.min_le_left _ _) hcsum
    · rw [sendLoop, dif_neg hoff]
      refine ⟨s, [], by simp, by simp, by simp, ?_⟩
      rw [List.drop_eq_nil_of_le (Nat.not_lt.mp hoff)]
      exact carries_nil _

/-- A frame of up to 16 MiB is sent exactly, whatever the first sequence number, when the deadline
is never passed and the card accepts every packet. -/
theorem streamSendFrame_exact (env : Surroundings) (frame : FrameHandle) (deadlineTsc : UInt64)
    (packetSeq : UInt16) (totalPacketsSent totalFramesDropped : UInt64)
    (haddr : 0x1000 ≤ frame.physAddr) (hpos : 1 ≤ frame.size) (hmax : frame.size ≤ maxFrameSize)
    (hstart : env.startTsc ≤ deadlineTsc) (hturn : ∀ turn, env.turnTsc turn ≤ deadlineTsc)
    (haccepts : ∀ turn, env.accepts turn = true) :
    ∃ count s', streamSendFrame env frame deadlineTsc packetSeq totalPacketsSent
        totalFramesDropped = some (.ok count, s') ∧
      Exact (frame.slice env.memory) packetSeq count s' := by
  have hlate : ¬ deadlineTsc < env.startTsc := UInt64.not_lt.mpr hstart
  have hframe : ¬ (frame.physAddr < 0x1000 ∨ frame.size = 0 ∨ maxFrameSize < frame.size) := by
    rintro (h | h | h)
    · exact UInt64.not_lt.mpr haddr h
    · omega
    · omega
  obtain ⟨s', packets, hloop, hsent, hseq, hcarries⟩ := sendLoop_exact hturn haccepts frame
    (frame.slice env.memory) 0
      ⟨List.replicate 1514 0, 0, 0, packetSeq, totalPacketsSent, totalFramesDropped, []⟩
    List.length_replicate
  dsimp only at hsent hseq hcarries
  rw [List.nil_append] at hsent
  rw [List.drop_zero, ← hsent] at hcarries
  refine ⟨_, s', ?_, hcarries, by rw [hseq, hsent], rfl⟩
  rw [streamSendFrame, if_neg hlate, if_neg hframe, hloop, hsent, Nat.zero_add]

/-- A frame of two chunks, with the last sequence number. -/
theorem twoChunks_exact :
    ∃ count s', streamSendFrame ⟨fun _ => 7, ⟨dstMac, rfl⟩, 1, fun _ => 2, fun _ => true⟩
        ⟨0, 0x1000, 1381, 0⟩ 10 65535 0 0 = some (.ok count, s') ∧
      Exact (FrameHandle.slice ⟨0, 0x1000, 1381, 0⟩ fun _ => 7) 65535 count s' :=
  streamSendFrame_exact ⟨fun _ => 7, ⟨dstMac, rfl⟩, 1, fun _ => 2, fun _ => true⟩
    ⟨0, 0x1000, 1381, 0⟩ 10 65535 0 0 (by decide) (by decide) (by decide) (by decide)
    (fun _ => (by decide : (2 : UInt64) ≤ 10)) (fun _ => rfl)

end LatencyOS.Net
