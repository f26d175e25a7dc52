import LatencyOS.Disk.Image

/-!
# Making an image

The build tool makes the export disk from a list of files.  It gives each file the clusters behind
those of the file before and the next directory entry, and copies the first FAT over the second at
the end.  Each turn of its loop is a write as the kernel would do it.
-/

namespace LatencyOS

set_option maxRecDepth 8000

namespace Image

variable (m : Image)

/-- The image with some bytes put in from a place on. -/
def put (off : ℕ) (bytes : List UInt8) : Image :=
  ⟨m.size, fun p => if off ≤ p ∧ p < off + bytes.length then bytes.getD (p - off) 0 else m.byte p⟩

/-- `copy_from_slice` into a range of the image; a range beyond its end panics. -/
def patch (off : ℕ) (bytes : List UInt8) : Option Image :=
  if off + bytes.length ≤ m.size then some (m.put off bytes) else none

/-- An image of zeros. -/
def zeros (size : ℕ) : Image := ⟨size, fun _ => 0⟩

end Image

/-! ## The new image -/

/-- The geometry of the export disk. -/
def exportBpb : Fat16Bpb where
  sectorsPerCluster := 4
  reservedSectors := 4
  numFats := 2
  rootDirEntries := 512
  totalSectors := 32768
  fatSizeSectors := 32

def exportSize : ℕ := 32768 * 512

/-- The fields of the boot sector, with their places. -/
def bootFields : List (ℕ × List UInt8) :=
  [(0, [0xEB, 0x3C, 0x90]), (3, utf8 "MSWIN4.1".toList), (11, toLe16 512),
    (13, [UInt8.ofNat exportBpb.sectorsPerCluster]), (14, toLe16 exportBpb.reservedSectors),
    (16, [UInt8.ofNat exportBpb.numFats]), (17, toLe16 exportBpb.rootDirEntries),
    (19, toLe16 exportBpb.totalSectors), (21, [0xF8]), (22, toLe16 exportBpb.fatSizeSectors),
    (24, toLe16 63), (26, toLe16 255), (32, toLe32 exportBpb.totalSectors), (36, [0x80]),
    (38, [0x29]), (39, toLe32 0x12345678), (43, utf8 "EXPORT_DISK".toList),
    (54, utf8 "FAT16   ".toList), (510, [0x55, 0xAA])]

/-- The first two entries of the table. -/
def firstFatEntries : List UInt8 := toLe16 0xFFF8 ++ toLe16 0xFFFF

/-- The image before the files. -/
def emptyImage : Image :=
  (bootFields.foldl (fun m f => m.put f.1 f.2) (Image.zeros exportSize)).put
    (exportBpb.reservedSectors * 512) firstFatEntries

namespace Image

/-- The place of a table entry. -/
def fatEntryOffset (c : ℕ) : ℕ := exportBpb.reservedSectors * 512 + c * 2

/-- The place of a cluster. -/
def clusterOffset (c : ℕ) : ℕ :=
  exportBpb.dataStartLba * 512 + (c - 2) * (exportBpb.sectorsPerCluster * 512)

/-- The place of a directory entry. -/
def entryOffset (k : ℕ) : ℕ := exportBpb.rootDirStartLba * 512 + k * 32

/-- Write and link the clusters of a file from one on, with the contents still to be written; a
cluster number beyond 16 bits panics. -/
def addClusters : ℕ → Image → ℕ → List UInt8 → Option Image
  | 0, m, _, _ => some m
  | n + 1, m, c, content =>
    if 65536 ≤ c then none
    else
      let chunk := content.take (exportBpb.sectorsPerCluster * 512)
      let data := if chunk = [] then some m else m.patch (clusterOffset c) chunk
      data.bind fun m =>
        (m.patch (fatEntryOffset c) (toLe16 (if n = 0 then 0xFFFF else c + 1))).bind fun m =>
          addClusters n m (c + 1) (content.drop (exportBpb.sectorsPerCluster * 512))

/-- Write the files from a cluster and a directory entry on. -/
def addFiles : Image → ℕ → ℕ → List (Str × List UInt8) → Option Image
  | m, _, _, [] => some m
  | m, current, idx, (filename, content) :: files =>
    let needed := Disk.neededClusters exportBpb content.length
    (addClusters needed m current content).bind fun m =>
      (m.patch (entryOffset idx) (imageName83 filename ++ [0x20])).bind fun m =>
        (m.patch (entryOffset idx + 26) (toLe16 current ++ toLe32 content.length)).bind fun m =>
          if 65536 ≤ current + needed then none
          else addFiles m (current + needed) (idx + 1) files

/-- `copy_within` of the first FAT to the second. -/
def mirrorFat (m : Image) : Image :=
  let fatBytes := exportBpb.fatSizeSectors * 512
  let fat1 := exportBpb.reservedSectors * 512
  ⟨m.size, fun p =>
    if fat1 + fatBytes ≤ p ∧ p < fat1 + 2 * fatBytes then m.byte (p - fatBytes) else m.byte p⟩

end Image

/-- `create_fat16_image`: the bytes that are written to the file; none on a panic. -/
def createFat16Image (initialFiles : List (Str × List UInt8)) : Option Image :=
  (Image.addFiles emptyImage 2 0 initialFiles).map Image.mirrorFat

namespace Image

variable {m : Image} {g : Fat16Bpb} {off len p c k : ℕ} {bytes : List UInt8}

/-! ## Bytes of an image -/

theorem slice_congr {m' : Image} (h : ∀ p, off ≤ p → p < off + len → m'.byte p = m.byte p) :
    m'.slice off len = m.slice off len :=
  List.map_congr_left fun _ hi => h _ (Nat.le_add_right _ _)
    (Nat.add_lt_add_left (List.mem_range.mp hi) _)

@[simp] theorem size_put (m : Image) (off : ℕ) (bytes : List UInt8) :
    (m.put off bytes).size = m.size := rfl

@[simp] theorem length_slice (m : Image) (off len : ℕ) : (m.slice off len).length = len := by
  simp [slice]

/-- A stretch of zeros has only stretches of zeros in it. -/
theorem slice_zeros {off' len' : ℕ} (h : m.slice off len = List.replicate len 0)
    (hge : off ≤ off') (hle : off' + len' ≤ off + len) :
    m.slice off' len' = List.replicate len' 0 := by
  refine List.eq_replicate_iff.mpr ⟨length_slice m off' len', fun b hb => ?_⟩
  obtain ⟨i, hi, rfl⟩ := List.mem_map.mp hb
  have hlt := List.mem_range.mp hi
  refine (List.eq_replicate_iff.mp h).2 _ (List.mem_map.mpr ⟨off' + i - off, ?_, ?_⟩)
  · rw [List.mem_range]
    omega
  · rw [Nat.add_sub_cancel' (by omega)]

theorem byte_put_of_outside (h : p < off ∨ off + bytes.length ≤ p) :
    (m.put off bytes).byte p = m.byte p := by
  rw [put]
  dsimp only
  rw [if_neg (by omega)]

theorem byte_put_inside {i : ℕ} (hi : i < bytes.length) :
    (m.put off bytes).byte (off + i) = bytes[i] := by
  rw [put]
  dsimp only
  rw [if_pos (by omega), Nat.add_sub_cancel_left, List.getD_eq_getElem?_getD,
    List.getElem?_eq_getElem hi, Option.getD_some]

/-- What was put in is read back. -/
theorem slice_put (m : Image) (off : ℕ) (bytes : List UInt8) :
    (m.put off bytes).slice off bytes.length = bytes := by
  refine List.ext_getElem (by simp [slice]) fun i _ hi => ?_
  have hbyte : (m.put off bytes).byte (off + i) = bytes[i] := byte_put_inside hi
  simp only [slice, List.getElem_map, List.getElem_range, hbyte]

theorem slice_put_of_apart (h : off + len ≤ p ∨ p + bytes.length ≤ off) :
    (m.put p bytes).slice off len = m.slice off len :=
  slice_congr fun _ hge hlt => byte_put_of_outside (by omega)

theorem patch_eq (h : off + bytes.length ≤ m.size) : m.patch off bytes = some (m.put off bytes) :=
  if_pos h

theorem slice_add (m : Image) (off len len' : ℕ) :
    m.slice off (len + len') = m.slice off len ++ m.slice (off + len) len' := by
  simp only [slice, List.range_add, List.map_append, List.map_map, Function.comp_def,
    Nat.add_assoc]

/-! ## The disk of an image -/

/-- The disk whose image this is. -/
def disk (m : Image) : Disk :=
  ⟨fun lba i => if i < sectorSize then m.byte (lba * sectorSize + i) else 0, []⟩

/-- An image is the image of its disk. -/
theorem image_disk (m : Image) : m.disk.image m.size = m := by
  cases m with
  | mk size byte =>
    simp only [Disk.image, disk, Image.mk.injEq, true_and]
    funext p
    have hlt : p % sectorSize < sectorSize := Nat.mod_lt _ (by decide)
    rw [if_pos hlt, Nat.mul_comm, Nat.div_add_mod]

theorem fatVal_disk (m : Image) (g : Fat16Bpb) (c : ℕ) : m.disk.fatVal g c =
    le16 (m.byte (g.reservedSectors * 512 + c * 2))
      (m.byte (g.reservedSectors * 512 + c * 2 + 1)) := by
  rw [Disk.fatVal_eq_byte m.disk g m.size, image_disk]

theorem entry_disk (m : Image) (g : Fat16Bpb) (k : ℕ) :
    m.disk.entry g k = m.slice (g.rootDirStartLba * 512 + k * 32) 32 := by
  rw [Disk.entry_eq_slice m.disk g m.size, image_disk]

theorem clusterBytes_disk (m : Image) (g : Fat16Bpb) (c : ℕ) :
    m.disk.clusterBytes g c = m.slice (g.dataStartLba * 512 +
      (c - 2) * (g.sectorsPerCluster * 512)) (g.sectorsPerCluster * 512) := by
  rw [Disk.clusterBytes_eq_slice m.disk g m.size, image_disk]

/-- The boot sector of a disk lies in the first bytes of its image. -/
theorem bpb_congr {m' : Image} (h : ∀ p < 512, m'.byte p = m.byte p) :
    m'.disk.bpb = m.disk.bpb := by
  have hsector : m'.disk.sectors 0 = m.disk.sectors 0 := by
    funext i
    simp only [disk, Nat.zero_mul, Nat.zero_add]
    by_cases hi : i < sectorSize
    · rw [if_pos hi, if_pos hi, h i hi]
    · rw [if_neg hi, if_neg hi]
  rw [Disk.bpb, Disk.bpb, hsector]

/-! ## Places of the export disk -/

theorem fatEntryOffset_eq (c : ℕ) : fatEntryOffset c = 2048 + 2 * c := by
  rw [fatEntryOffset, Nat.mul_comm c 2]
  rfl

theorem clusterOffset_eq (c : ℕ) : clusterOffset c = 51200 + 2048 * (c - 2) := by
  rw [clusterOffset, Nat.mul_comm (c - 2)]
  rfl

theorem entryOffset_eq (k : ℕ) : entryOffset k = 34816 + 32 * k := by
  rw [entryOffset, Nat.mul_comm k 32]
  rfl

theorem inVolume_exportBpb : InVolume exportBpb c ↔ 2 ≤ c ∧ c < 8169 := Iff.rfl

theorem geometry_exportBpb : Geometry exportBpb :=
  ⟨by decide, by decide, by decide, by decide, by decide⟩

theorem fatVal_export (m : Image) (c : ℕ) : m.disk.fatVal exportBpb c =
    le16 (m.byte (fatEntryOffset c)) (m.byte (fatEntryOffset c + 1)) := fatVal_disk m exportBpb c

theorem entry_export (m : Image) (k : ℕ) :
    m.disk.entry exportBpb k = m.slice (entryOffset k) 32 := entry_disk m exportBpb k

theorem clusterBytes_export (m : Image) (c : ℕ) :
    m.disk.clusterBytes exportBpb c = m.slice (clusterOffset c) 2048 :=
  clusterBytes_disk m exportBpb c

/-! ## The clusters of a file -/

/-- Two images agree in front of the clusters, but for the table entries of some clusters. -/
def SameFront (m m' : Image) (c n : ℕ) : Prop :=
  ∀ p < 51200, p < 2048 + 2 * c ∨ 2048 + 2 * (c + n) ≤ p → m'.byte p = m.byte p

/-- A table entry put in is seen in the table. -/
theorem fatVal_put (m : Image) {x val : ℕ} (hval : val < 65536) :
    (m.put (fatEntryOffset c) (toLe16 val)).disk.fatVal exportBpb x =
      if x = c then val else m.disk.fatVal exportBpb x := by
  have hx := fatEntryOffset_eq x
  have hc := fatEntryOffset_eq c
  have hlen : (toLe16 val).length = 2 := rfl
  rw [fatVal_export, fatVal_export]
  by_cases hxc : x = c
  · have hlow : (m.put (fatEntryOffset c) (toLe16 val)).byte (fatEntryOffset c) =
        UInt8.ofNat val := byte_put_inside (hlen.symm ▸ Nat.two_pos)
    have hhigh : (m.put (fatEntryOffset c) (toLe16 val)).byte (fatEntryOffset c + 1) =
        UInt8.ofNat (val / 256) := byte_put_inside (hlen.symm ▸ Nat.one_lt_two)
    rw [if_pos hxc, hxc, hlow, hhigh]
    exact Disk.le16_ofNat hval
  · rw [if_neg hxc, byte_put_of_outside (by omega), byte_put_of_outside (by omega)]

/-- The part of a file that goes into one cluster is put there. -/
theorem putChunk {chunk : List UInt8} (hsize : m.size = exportSize) (hc : InVolume exportBpb c)
    (hchunk : chunk.length ≤ 2048) :
    ∃ m₁, (if chunk = [] then some m else m.patch (clusterOffset c) chunk) = some m₁ ∧
      m₁.size = exportSize ∧ m₁.slice (clusterOffset c) chunk.length = chunk ∧
      ∀ p, p < clusterOffset c ∨ clusterOffset c + chunk.length ≤ p → m₁.byte p = m.byte p := by
  have hoff := clusterOffset_eq c
  have hlt := (inVolume_exportBpb.mp hc).2
  have htotal : exportSize = 16777216 := rfl
  by_cases hnil : chunk = []
  · refine ⟨m, if_pos hnil, hsize, ?_, fun _ _ => rfl⟩
    rw [hnil]
    rfl
  · exact ⟨m.put (clusterOffset c) chunk, by rw [if_neg hnil, patch_eq (by omega)], hsize,
      slice_put m _ chunk, fun p hp => byte_put_of_outside hp⟩

/-- One turn of the loop over the clusters. -/
structure OneCluster (m m' : Image) (c next : ℕ) (chunk : List UInt8) : Prop where
  size : m'.size = exportSize
  front : SameFront m m' c 1
  fat : ∀ x, InVolume exportBpb x → m'.disk.fatVal exportBpb x =
    if x = c then next else m.disk.fatVal exportBpb x
  kept : ∀ x, 2 ≤ x → x ≠ c →
    m'.disk.clusterBytes exportBpb x = m.disk.clusterBytes exportBpb x
  stored : (m'.disk.clusterBytes exportBpb c).take chunk.length = chunk

theorem oneCluster {chunk : List UInt8} {next : ℕ} (hsize : m.size = exportSize)
    (hc : InVolume exportBpb c) (hchunk : chunk.length ≤ 2048) (hnext : next < 65536) :
    ∃ m', ((if chunk = [] then some m else m.patch (clusterOffset c) chunk).bind fun m =>
      m.patch (fatEntryOffset c) (toLe16 next)) = some m' ∧ OneCluster m m' c next chunk := by
  obtain ⟨m₁, hdata, hsize₁, hslice, hbyte⟩ := putChunk hsize hc hchunk
  have hfat := fatEntryOffset_eq c
  have hoff := clusterOffset_eq c
  have hrange := inVolume_exportBpb.mp hc
  have htotal : exportSize = 16777216 := rfl
  have hlen : (toLe16 next).length = 2 := rfl
  refine ⟨m₁.put (fatEntryOffset c) (toLe16 next),
    by rw [hdata, Option.bind_some, patch_eq (by omega)], hsize₁, fun p hp hout => ?_,
    fun x hx => ?_, fun x hx hne => ?_, ?_⟩
  · rw [byte_put_of_outside (by omega)]
    exact hbyte p (.inl (by omega))
  · have hsame : m₁.disk.fatVal exportBpb x = m.disk.fatVal exportBpb x := by
      have hplace := fatEntryOffset_eq x
      have hxlt := (inVolume_exportBpb.mp hx).2
      rw [fatVal_export, fatVal_export, hbyte _ (.inl (by omega)), hbyte _ (.inl (by omega))]
    rw [fatVal_put m₁ hnext, hsame]
  · have hplace := clusterOffset_eq x
    rw [clusterBytes_export, clusterBytes_export, slice_put_of_apart (.inr (by omega))]
    exact slice_congr fun p hge hlt => hbyte p (by omega)
  · rw [clusterBytes_export, Disk.take_slice hchunk, slice_put_of_apart (.inr (by omega)), hslice]

end Image

namespace Disk

variable {d d₁ d' : Disk} {g : Fat16Bpb} {c : ℕ} {rest : List ℕ} {data : List UInt8}

/-- Storing data in a cluster in front of others that hold what follows. -/
theorem Stored.cons {size : ℕ} (h : Stored d₁ d' g rest (data.drop size))
    (hsize : g.sectorsPerCluster * sectorSize = size) (hbpb : d₁.bpb = d.bpb)
    (hentry : ∀ k < g.rootDirSectors * 16, d₁.entry g k = d.entry g k)
    (hfat : ∀ x, InVolume g x → d₁.fatVal g x =
      if x = c then rest.headD 0xFFFF else d.fatVal g x)
    (hkept : ∀ x, 2 ≤ x → x ≠ c → d₁.clusterBytes g x = d.clusterBytes g x)
    (hdata : (d₁.clusterBytes g c).take (data.take size).length = data.take size)
    (hc : 2 ≤ c) (hnot : c ∉ rest) : Stored d d' g (c :: rest) data := by
  refine ⟨h.bpb.trans hbpb, fun k hk => (h.entry k hk).trans (hentry k hk), fun x hx => ?_,
    fun x hx hxnot => ?_, ?_⟩
  · rw [h.fat x hx]
    cases rest with
    | nil => rw [link, link, hfat x hx, Function.update_apply, List.headD_nil]
    | cons c₁ rest =>
      rw [link]
      refine link_congr ?_
      rw [hfat x hx, Function.update_apply, List.headD_cons]
  · rw [List.mem_cons, not_or] at hxnot
    rw [h.kept x hx hxnot.2, hkept x hx hxnot.1]
  · have hrest := h.stored
    rw [List.length_drop] at hrest
    rw [List.flatMap_cons, List.take_append, length_clusterBytes, hsize, hrest,
      h.kept c hc hnot]
    have hfirst : (d₁.clusterBytes g c).take data.length = data.take size := by
      rw [← hdata, List.take_eq_take_iff, length_clusterBytes, hsize, List.length_take]
      omega
    rw [hfirst, List.take_append_drop]

end Disk

namespace Image

variable {m m' : Image} {c n : ℕ} {content : List UInt8}

theorem SameFront.bpb (h : SameFront m m' c n) : m'.disk.bpb = m.disk.bpb :=
  bpb_congr fun p hp => h p (by omega) (.inl (by omega))

/-- The clusters' table entries lie in front of the directory. -/
theorem SameFront.entry (h : SameFront m m' c n) (hend : c + n ≤ 8169) {k : ℕ}
    (hk : k < exportBpb.rootDirSectors * 16) :
    m'.disk.entry exportBpb k = m.disk.entry exportBpb k := by
  have hslots : exportBpb.rootDirSectors * 16 = 512 := rfl
  have hplace := entryOffset_eq k
  rw [entry_export, entry_export]
  exact slice_congr fun p hge hlt => h p (by omega) (.inr (by omega))

/-- The loop over the clusters of a file stores its contents. -/
theorem addClusters_spec (hsize : m.size = exportSize) (hc : 2 ≤ c) (hend : c + n ≤ 8169)
    (hlen : content.length ≤ n * 2048) :
    ∃ m', addClusters n m c content = some m' ∧ m'.size = exportSize ∧ SameFront m m' c n ∧
      Disk.Stored m.disk m'.disk exportBpb (List.range' c n) content := by
  induction n generalizing m c content with
  | zero =>
    have hnil : content = [] := List.length_eq_zero_iff.mp (by omega)
    refine ⟨m, rfl, hsize, fun _ _ _ => rfl, ?_⟩
    rw [hnil]
    exact ⟨rfl, fun _ _ => rfl, fun _ _ => rfl, fun _ _ _ => rfl, rfl⟩
  | succ n ih =>
    have hchunk : (content.take 2048).length ≤ 2048 := List.length_take_le _ _
    have hnext : (if n = 0 then 0xFFFF else c + 1) < 65536 := by
      split <;> omega
    obtain ⟨m₁, hturn, hone⟩ := oneCluster hsize (inVolume_exportBpb.mpr ⟨hc, by omega⟩) hchunk
      hnext
    have hdrop : (content.drop 2048).length ≤ n * 2048 := by
      rw [List.length_drop]
      omega
    obtain ⟨m', hrest, hsize', hfront, hstored⟩ := ih (m := m₁) (c := c + 1) hone.size (by omega)
      (by omega) hdrop
    have hsplit : exportBpb.sectorsPerCluster * 512 = 2048 := rfl
    refine ⟨m', ?_, hsize', fun p hp hout => ?_, ?_⟩
    · rw [addClusters, if_neg (by omega), hsplit]
      dsimp only
      rw [← Option.bind_assoc, hturn, Option.bind_some, hrest]
    · rw [hfront p hp (by omega), hone.front p hp (by omega)]
    · rw [List.range'_succ]
      refine hstored.cons hsplit hone.front.bpb
        (fun k hk => hone.front.entry (by omega) hk) (fun x hx => ?_) hone.kept hone.stored hc
        (by simp [List.mem_range'_1])
      rw [hone.fat x hx]
      congr 1
      cases n with
      | zero => rfl
      | succ n => rw [List.range'_succ, List.headD_cons, if_neg (Nat.succ_ne_zero n)]

/-! ## The directory entry of a file -/

/-- The directory entry of a file is put in where there were zeros. -/
theorem addEntry {k : ℕ} {name83 : List UInt8} (current len : ℕ) (hsize : m.size = exportSize)
    (hname : name83.length = 11) (hk : k < exportBpb.rootDirSectors * 16)
    (hzero : m.disk.entry exportBpb k = List.replicate 32 0) :
    ∃ m', ((m.patch (entryOffset k) (name83 ++ [0x20])).bind fun m =>
        m.patch (entryOffset k + 26) (toLe16 current ++ toLe32 len)) = some m' ∧
      m'.size = exportSize ∧ m'.disk.entry exportBpb k = Disk.newEntry name83 current len ∧
      ∀ p, p < entryOffset k ∨ entryOffset k + 32 ≤ p → m'.byte p = m.byte p := by
  have hslots : exportBpb.rootDirSectors * 16 = 512 := rfl
  have hplace := entryOffset_eq k
  have htotal : exportSize = 16777216 := rfl
  have hfirst : (name83 ++ [0x20]).length = 12 := by rw [List.length_append, hname]; rfl
  have hlast : (toLe16 current ++ toLe32 len).length = 6 := rfl
  refine ⟨(m.put (entryOffset k) (name83 ++ [0x20])).put (entryOffset k + 26)
      (toLe16 current ++ toLe32 len), ?_, hsize, ?_, fun p hp => ?_⟩
  · rw [patch_eq (by omega), Option.bind_some, patch_eq (by rw [size_put]; omega)]
  · rw [entry_export] at hzero ⊢
    have hparts : (32 : ℕ) = 12 + 14 + 6 := rfl
    have hhead := slice_put m (entryOffset k) (name83 ++ [0x20])
    rw [hfirst] at hhead
    have htail := slice_put (m.put (entryOffset k) (name83 ++ [0x20])) (entryOffset k + 26)
      (toLe16 current ++ toLe32 len)
    rw [hlast] at htail
    rw [hparts, slice_add, slice_add, slice_put_of_apart (.inl (by omega)), hhead,
      slice_put_of_apart (.inl (by omega)), slice_put_of_apart (.inr (by omega)),
      slice_zeros hzero (by omega) (by omega), htail, Disk.newEntry]
    simp only [List.append_assoc]
  · rw [byte_put_of_outside (by omega), byte_put_of_outside (by omega)]

end Image

end LatencyOS
