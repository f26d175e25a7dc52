import LatencyOS.Disk.Delete
import Mathlib.Tactic.NormNum

/-!
# The disk as an image file

The build tool opens the export disk as a file and looks a name up in it on its own: it stops at
the first unused entry of the whole directory, takes the name as it is written and checks every
place against the length of the file.  On a well-formed volume whose unused entries are the last
ones it finds what the kernel finds.
-/

namespace LatencyOS

set_option maxRecDepth 4000

/-- The bytes of an image file. -/
structure Image where
  size : ℕ
  byte : ℕ → UInt8

/-- The 8.3 form of a file name, cut at the last point only. -/
def imageName83 (filename : Str) : List UInt8 :=
  if '.' ∈ filename then field83 8 (beforeLast '.' filename) ++ field83 3 (afterLast '.' filename)
  else field83 8 filename ++ field83 3 []

theorem to83Name_eq_imageName83 (name : Str) :
    to83Name name = imageName83 (baseName (trim name)) := rfl

theorem length_imageName83 (filename : Str) : (imageName83 filename).length = 11 := by
  unfold imageName83
  split <;> simp only [List.length_append, length_field83]

namespace Image

/-- Where the parts of an image lie. -/
structure Layout where
  fatOffset : ℕ
  rootOffset : ℕ
  dataOffset : ℕ
  clusterSize : ℕ
  rootEntries : ℕ

variable (m : Image)

/-- Some bytes from a place on. -/
def slice (off len : ℕ) : List UInt8 := (List.range len).map fun i => m.byte (off + i)

/-- The layout in the boot sector; a sector size of zero is divided by, which panics. -/
def layout : Option Layout :=
  let bytesPerSec := le16 (m.byte 11) (m.byte 12)
  let secPerCluster := (m.byte 13).toNat
  let reservedSec := le16 (m.byte 14) (m.byte 15)
  let numFats := (m.byte 16).toNat
  let rootEntries := le16 (m.byte 17) (m.byte 18)
  let fatSize := le16 (m.byte 22) (m.byte 23)
  let rootOffset := (reservedSec + numFats * fatSize) * bytesPerSec
  let rootSectors := (rootEntries * 32 + bytesPerSec - 1) / bytesPerSec
  if bytesPerSec = 0 then none
  else
    some {
      fatOffset := reservedSec * bytesPerSec
      rootOffset := rootOffset
      dataOffset := rootOffset + rootSectors * bytesPerSec
      clusterSize := secPerCluster * bytesPerSec
      rootEntries := rootEntries }

/-- The entry of a name: the scan ends at the end of the file or at an unused entry. -/
def findFile (p : Layout) (target83 : List UInt8) : Option (List UInt8) :=
  let offsets := ((List.range p.rootEntries).map fun idx => p.rootOffset + idx * 32).takeWhile
    fun off => off + 32 ≤ m.size && m.byte off != 0
  (offsets.map fun off => m.slice off 32).find? fun e =>
    entryListed e && entryName e == target83

open Disk in
/-- The loop that collects a file; none if it has not ended within a number of turns. -/
def readChain (p : Layout) (fileSize : ℕ) : ℕ → ℕ → List UInt8 → Option (List UInt8)
  | 0, c, out => if Ends c ∨ fileSize ≤ out.length then some out else none
  | n + 1, c, out =>
    if Ends c ∨ fileSize ≤ out.length then some out
    else
      let clOff := p.dataOffset + (c - 2) * p.clusterSize
      let chunk := min p.clusterSize (fileSize - out.length)
      if clOff + chunk ≤ m.size then
        let fatEntryOff := p.fatOffset + c * 2
        if fatEntryOff + 2 ≤ m.size then
          readChain p fileSize n (le16 (m.byte fatEntryOff) (m.byte (fatEntryOff + 1)))
            (out ++ m.slice clOff chunk)
        else some (out ++ m.slice clOff chunk)
      else some out

/-- `read_file_from_fat16_image`, of a file that could be opened, with a bound on the turns of its
loop: none on a panic or where the loop has not ended. -/
def readFile (fuel : ℕ) (filename : Str) : Option (Option (List UInt8)) :=
  if m.size < 512 ∨ m.byte 510 ≠ 0x55 ∨ m.byte 511 ≠ 0xAA then some none
  else m.layout.bind fun p =>
    match m.findFile p (imageName83 filename) with
    | none => some none
    | some e => (m.readChain p (entrySize e) fuel (entryCluster e) []).map some

end Image

namespace Disk

/-- The image file of a disk of some size. -/
def image (d : Disk) (size : ℕ) : Image :=
  ⟨size, fun p => d.sectors (p / sectorSize) (p % sectorSize)⟩

/-- The contents of the file that is found under an 8.3 name. -/
def contents (d : Disk) (g : Fat16Bpb) (name83 : List UInt8) : Option (List UInt8) :=
  (d.findEntry g name83).map fun k =>
    let e := d.entry g k
    d.readClusters g (entrySize e) (entryCluster e) (entrySize e)

variable {d d' : Disk} {g : Fat16Bpb} {chain : ℕ → List ℕ} {name83 : List UInt8} {name : Str}
  {l : List ℕ} {c k size fuel : ℕ}

/-! ## Places in the image -/

/-- A byte of a sector, as a byte of the image. -/
theorem byte_image {lba i p : ℕ} (hi : i < 512) (hp : p = lba * 512 + i) (d : Disk) (size : ℕ) :
    (d.image size).byte p = d.sectors lba i := by
  have hdiv : p / 512 = lba := by omega
  have hmod : p % 512 = i := by omega
  rw [image]
  dsimp only
  rw [sectorSize, hdiv, hmod]

theorem fatVal_eq_byte (d : Disk) (g : Fat16Bpb) (size c : ℕ) :
    d.fatVal g c = le16 ((d.image size).byte (g.reservedSectors * 512 + c * 2))
      ((d.image size).byte (g.reservedSectors * 512 + c * 2 + 1)) := by
  have hsec := fatSector_eq g c
  have hoff := fatOffset_eq c
  have hlo : (d.image size).byte (g.reservedSectors * 512 + c * 2) =
      d.sectors (fatSector g c) (fatOffset c) := byte_image (by omega) (by omega) d size
  have hhi : (d.image size).byte (g.reservedSectors * 512 + c * 2 + 1) =
      d.sectors (fatSector g c) (fatOffset c + 1) := byte_image (by omega) (by omega) d size
  rw [fatVal, hlo, hhi]

theorem entry_eq_slice (d : Disk) (g : Fat16Bpb) (size k : ℕ) :
    d.entry g k = (d.image size).slice (g.rootDirStartLba * 512 + k * 32) 32 := by
  refine List.map_congr_left fun j hj => ?_
  have hj32 : j < 32 := List.mem_range.mp hj
  have hplace : g.rootDirStartLba * 512 + k * 32 + j =
      (g.rootDirStartLba + k / 16) * 512 + (k % 16 * 32 + j) := by omega
  rw [byte_image (by omega) hplace, rootSector]

/-- The bytes of sectors that follow each other. -/
theorem flatMap_sectorBytes (d : Disk) (size lba n : ℕ) :
    ((List.range n).flatMap fun s => sectorBytes (d.sectors (lba + s))) =
      (d.image size).slice (lba * 512) (n * 512) := by
  rw [Image.slice, range_mul_eq_flatMap, List.map_flatMap]
  refine List.flatMap_congr fun s _ => ?_
  rw [sectorBytes, List.map_map]
  refine List.map_congr_left fun j hj => ?_
  have hj512 : j < 512 := List.mem_range.mp hj
  have hplace : lba * 512 + (s * 512 + j) = (lba + s) * 512 + j := by omega
  exact (byte_image hj512 hplace d size).symm

theorem clusterBytes_eq_slice (d : Disk) (g : Fat16Bpb) (size c : ℕ) :
    d.clusterBytes g c = (d.image size).slice
      (g.dataStartLba * 512 + (c - 2) * (g.sectorsPerCluster * 512))
      (g.sectorsPerCluster * 512) := by
  have hplace : clusterLba g c * 512 =
      g.dataStartLba * 512 + (c - 2) * (g.sectorsPerCluster * 512) := by
    rw [clusterLba, Nat.add_mul, Nat.mul_assoc]
  rw [clusterBytes, flatMap_sectorBytes d size, hplace]

theorem take_slice {m : Image} {off len n : ℕ} (h : n ≤ len) :
    (m.slice off len).take n = m.slice off n := by
  rw [Image.slice, ← List.map_take, List.take_range, Nat.min_eq_left h, Image.slice]

/-- The layout of the image of a disk is that of its boot sector. -/
theorem layout_image (hb : d.bpb = .ok g) (size : ℕ) : (d.image size).layout = some {
    fatOffset := g.reservedSectors * 512
    rootOffset := g.rootDirStartLba * 512
    dataOffset := g.dataStartLba * 512
    clusterSize := g.sectorsPerCluster * 512
    rootEntries := g.rootDirEntries } ∧
    (d.image size).byte 510 = 0x55 ∧ (d.image size).byte 511 = 0xAA := by
  unfold Disk.bpb parseBpb at hb
  split at hb
  · cases hb
  · next hsig =>
    split at hb
    · cases hb
    · next hbytes =>
      split at hb
      · cases hb
      · cases hb
        have hsize : le16 ((d.image size).byte 11) ((d.image size).byte 12) = 512 := by
          simpa [image, sectorSize] using hbytes
        refine ⟨?_, by simpa [image, sectorSize] using hsig⟩
        simp only [Image.layout, hsize]
        simp only [image, sectorSize, Fat16Bpb.rootDirStartLba, Fat16Bpb.dataStartLba,
          Fat16Bpb.rootDirSectors]
        norm_num [Nat.add_mul]

/-! ## Finding an entry -/

theorem takeWhile_congr {α : Type} {l : List α} {p q : α → Bool} (h : ∀ a ∈ l, p a = q a) :
    l.takeWhile p = l.takeWhile q := by
  induction l with
  | nil => rfl
  | cons a l ih =>
    rw [List.takeWhile_cons, List.takeWhile_cons, h a List.mem_cons_self,
      ih fun b hb => h b (List.mem_cons_of_mem a hb)]

/-- The directory has as many entries as its sectors hold. -/
def WholeRoot (g : Fat16Bpb) : Prop := g.rootDirEntries = g.rootDirSectors * 16

instance (g : Fat16Bpb) : Decidable (WholeRoot g) := inferInstanceAs (Decidable (_ = _))

/-- An image that holds all clusters of a volume. -/
def Holds (g : Fat16Bpb) (size : ℕ) : Prop :=
  (g.dataStartLba + g.totalDataClusters * g.sectorsPerCluster) * 512 ≤ size

instance (g : Fat16Bpb) (size : ℕ) : Decidable (Holds g size) :=
  inferInstanceAs (Decidable (_ ≤ _))

/-- The places of directory entries lie in the file. -/
theorem entry_place {start roots : ℕ} {rest i : ℕ} (hi : i < roots * 16)
    (h : (start + roots + rest) * 512 ≤ size) : start * 512 + i * 32 + 32 ≤ size := by
  omega

/-- The places of clusters lie in the file. -/
theorem cluster_place {start total spc chunk : ℕ} (hc : 2 ≤ c) (hlt : c < total + 2)
    (hchunk : chunk ≤ spc * 512) (h : (start + total * spc) * 512 ≤ size) :
    start * 512 + (c - 2) * (spc * 512) + chunk ≤ size := by
  have hmul : (c - 2 + 1) * spc ≤ total * spc := Nat.mul_le_mul_right _ (by omega)
  rw [← Nat.mul_assoc]
  rw [Nat.add_mul, Nat.one_mul] at hmul
  omega

/-- The places of table entries lie in the file. -/
theorem fat_place {reserved fats roots total rest : ℕ} (hlt : c < total + 2)
    (hcover : total + 2 ≤ fats * 256)
    (h : (reserved + 2 * fats + roots + rest) * 512 ≤ size) :
    reserved * 512 + c * 2 + 2 ≤ size := by
  omega

/-- Where the unused entries are the last ones, no entry before a visible one is unused. -/
theorem visible_eq_of_packed (hpacked : Packed d g) (hk : k < g.rootDirSectors * 16) :
    d.visible g k = (List.range (k + 1)).all fun i => entryMark (d.entry g i) != 0 := by
  rw [Bool.eq_iff_iff, visible_iff, List.all_eq_true]
  simp only [List.mem_range, bne_iff_ne]
  constructor
  · intro h i hi hmark
    rcases Nat.lt_or_eq_of_le (Nat.le_of_lt_succ hi) with hlt | rfl
    · exact h k le_rfl rfl (hpacked i k hlt hk hmark)
    · exact h i le_rfl rfl hmark
  · exact fun h i hi _ => h i (by omega)

/-- The scan of the image takes the entry that the kernel's scan takes. -/
theorem findFile_image (hroot : WholeRoot g) (hpacked : Packed d g) (hholds : Holds g size)
    {p : Image.Layout} (hoff : p.rootOffset = g.rootDirStartLba * 512)
    (hcount : p.rootEntries = g.rootDirEntries) (name83 : List UInt8) :
    (d.image size).findFile p name83 = (d.findEntry g name83).map (d.entry g) := by
  have hplaces : ∀ i < g.rootDirSectors * 16, p.rootOffset + i * 32 + 32 ≤ size := by
    intro i hi
    rw [hoff]
    exact entry_place hi hholds
  have hmark : ∀ i, (d.image size).byte (p.rootOffset + i * 32) = entryMark (d.entry g i) := by
    intro i
    rw [entry_eq_slice d g size, hoff]
    rfl
  have htake : ((List.range (g.rootDirSectors * 16)).map fun idx =>
      p.rootOffset + idx * 32).takeWhile
        (fun off => off + 32 ≤ (d.image size).size && (d.image size).byte off != 0) =
      ((List.range (g.rootDirSectors * 16)).takeWhile
        fun i => entryMark (d.entry g i) != 0).map fun idx => p.rootOffset + idx * 32 := by
    rw [List.takeWhile_map]
    refine congrArg _ (takeWhile_congr fun i hi => ?_)
    have hplace := hplaces i (List.mem_range.mp hi)
    have hsize : (d.image size).size = size := rfl
    simp only [Function.comp_def, hmark, hsize, hplace, decide_true, Bool.true_and]
  rw [Image.findFile, hcount, hroot]
  rw [htake, List.map_map, List.find?_map, find?_takeWhile_range, findEntry_eq]
  have hentry : (fun off => (d.image size).slice off 32) ∘ (fun idx => p.rootOffset + idx * 32) =
      d.entry g := by
    funext i
    rw [entry_eq_slice d g size, hoff]
    rfl
  rw [hentry]
  refine congrArg _ (List.find?_congr fun i hi => ?_)
  rw [visible_eq_of_packed hpacked (List.mem_range.mp hi)]
  rfl

/-! ## Reading a chain -/

/-- The loop over the image collects the data of a chain, up to the size of the file. -/
theorem readChain_image (hg : Geometry g) (hholds : Holds g size) {p : Image.Layout}
    (hfat : p.fatOffset = g.reservedSectors * 512) (hdata : p.dataOffset = g.dataStartLba * 512)
    (hcluster : p.clusterSize = g.sectorsPerCluster * 512)
    (h : Chain (d.fatVal g) Ends c l) (hvol : ∀ x ∈ l, InVolume g x) (hfuel : l.length ≤ fuel)
    (fileSize : ℕ) (out : List UInt8) :
    (d.image size).readChain p fileSize fuel c out =
      some (out ++ (l.flatMap (d.clusterBytes g)).take (fileSize - out.length)) := by
  induction h generalizing fuel out with
  | nil hend => cases fuel <;> simp [Image.readChain, hend]
  | @cons c l hend ht ih =>
    cases fuel with
    | zero => exact absurd hfuel (by simp)
    | succ n =>
      by_cases hfull : fileSize ≤ out.length
      · rw [Image.readChain, if_pos (.inr hfull), Nat.sub_eq_zero_of_le hfull, List.take_zero,
          List.append_nil]
      · have hc := hvol c List.mem_cons_self
        have hplace : p.dataOffset + (c - 2) * p.clusterSize +
            min p.clusterSize (fileSize - out.length) ≤ size := by
          rw [hdata, hcluster]
          exact cluster_place hc.1 hc.2 (Nat.min_le_left _ _) hholds
        have hentry : p.fatOffset + c * 2 + 2 ≤ size := by
          rw [Holds, Fat16Bpb.dataStartLba, rootDirStartLba_eq hg] at hholds
          rw [hfat]
          exact fat_place hc.2 hg.cover hholds
        have hsize : (d.image size).size = size := rfl
        rw [Image.readChain, if_neg (by simp only [hend, hfull, or_self, not_false_eq_true])]
        dsimp only
        rw [hsize, if_pos hplace, if_pos hentry, hfat, ← fatVal_eq_byte,
          ih (fun x hx => hvol x (List.mem_cons_of_mem c hx)) (Nat.le_of_succ_le_succ hfuel)]
        rw [hdata, hcluster, List.append_assoc, List.flatMap_cons, List.take_append,
          length_clusterBytes, sectorSize]
        congr 2
        have hchunk : (d.clusterBytes g c).take (fileSize - out.length) =
            (d.image size).slice (g.dataStartLba * 512 + (c - 2) * (g.sectorsPerCluster * 512))
              (min (g.sectorsPerCluster * 512) (fileSize - out.length)) := by
          have hall : (d.clusterBytes g c).take (g.sectorsPerCluster * 512) =
              d.clusterBytes g c := List.take_of_length_le (length_clusterBytes d g c).le
          rw [← take_slice (Nat.min_le_left _ _), ← clusterBytes_eq_slice, Nat.min_comm,
            ← List.take_take, hall]
        rw [hchunk]
        congr 2
        simp only [List.length_append, Image.slice, List.length_map, List.length_range]
        omega

/-! ## Reading a file -/

/-- The contents of a file are the data of its chain, up to its size. -/
theorem contents_eq (hg : Geometry g) (hfind : d.findEntry g name83 = some k)
    (hchain : Chain (d.fatVal g) Ends (entryCluster (d.entry g k)) l) :
    d.contents g name83 =
      some ((l.flatMap (d.clusterBytes g)).take (entrySize (d.entry g k))) := by
  rw [contents, hfind, Option.map_some]
  dsimp only
  rw [readClusters_eq hg.cluster hchain le_rfl]

theorem contents_eq_none (hfind : d.findEntry g name83 = none) : d.contents g name83 = none := by
  rw [contents, hfind, Option.map_none]

/-- The kernel reads the contents of the file, as far as the buffer takes them. -/
theorem readFile_eq_contents (hv : Volume d g chain) (name : Str) (bufSize : ℕ) :
    d.readFile name bufSize = (d.contents g (to83Name name)).elim
      (.error "File not found on Export Disk") fun data => .ok (data.take bufSize) := by
  cases hfind : d.findEntry g (to83Name name) with
  | none =>
    rw [contents_eq_none hfind]
    simp only [readFile, hv.bpb, bind, Except.bind, hfind, Option.elim_none]
  | some k =>
    have hchain := hv.chains k (findEntry_eq_some_iff.mp hfind).1.live
    rw [contents_eq hv.geometry hfind hchain, readFile_eq hv.bpb hv.geometry hfind hchain,
      Option.elim_some, List.take_take, Nat.min_comm]

/-- The build tool reads the contents of the file. -/
theorem readFile_image (hv : Volume d g chain) (hpacked : Packed d g) (hroot : WholeRoot g)
    (hholds : Holds g size) (hfuel : 65536 ≤ fuel) (filename : Str) :
    (d.image size).readFile fuel filename = some (d.contents g (imageName83 filename)) := by
  obtain ⟨hlayout, hsig, hsig'⟩ := layout_image hv.bpb size
  have hlong : ¬ (d.image size).size < 512 := by
    have hres := hv.geometry.reserved
    rw [Holds, Fat16Bpb.dataStartLba, Fat16Bpb.rootDirStartLba] at hholds
    change ¬ size < 512
    omega
  have hguard : ¬ ((d.image size).size < 512 ∨ (d.image size).byte 510 ≠ 0x55 ∨
      (d.image size).byte 511 ≠ 0xAA) := by
    rw [hsig, hsig']
    simpa using hlong
  rw [Image.readFile, if_neg hguard, hlayout, Option.bind_some,
    findFile_image hroot hpacked hholds rfl rfl]
  cases hfind : d.findEntry g (imageName83 filename) with
  | none => rw [contents_eq_none hfind, Option.map_none]
  | some k =>
    have hlive := (findEntry_eq_some_iff.mp hfind).1.live
    have hchain := hv.chains k hlive
    have hvol := fun c hc => (hv.members k hlive c hc).1
    have hlen := length_chain_le hv.geometry hchain hvol
    rw [Option.map_some, contents_eq hv.geometry hfind hchain]
    dsimp only
    rw [readChain_image hv.geometry hholds rfl rfl rfl hchain hvol (by omega), List.nil_append,
      List.length_nil, Nat.sub_zero, Option.map_some]

/-- What the build tool finds in the image under the last part of a path, the kernel finds on the
disk under the path. -/
theorem image_readFile (hv : Volume d g chain) (hpacked : Packed d g) (hroot : WholeRoot g)
    (hholds : Holds g size) (hfuel : 65536 ≤ fuel) (name : Str) (bufSize : ℕ) :
    ∃ found, (d.image size).readFile fuel (baseName (trim name)) = some found ∧
      d.readFile name bufSize = found.elim (.error "File not found on Export Disk")
        fun data => .ok (data.take bufSize) :=
  ⟨_, readFile_image hv hpacked hroot hholds hfuel _, readFile_eq_contents hv name bufSize⟩

theorem blankDisk_image : ∃ d', blankDisk.writeFile true "A.TXT".toList [1, 2, 3] = (.ok 3, d') ∧
    ∃ found, (d'.image 4608).readFile 65536 (baseName (trim "A.TXT".toList)) = some found ∧
      d'.readFile "A.TXT".toList 10 = found.elim (.error "File not found on Export Disk")
        fun data => .ok (data.take 10) := by
  have hw : blankDisk.writeFile true "A.TXT".toList [1, 2, 3] =
      (.ok 3, (blankDisk.writeFile true "A.TXT".toList [1, 2, 3]).2) :=
    Prod.ext (by decide +kernel) rfl
  obtain ⟨clusters, k, h⟩ := written_of_ok volume_blankDisk.bpb volume_blankDisk.geometry hw
  have hlen := length_to83Name "A.TXT".toList
  exact ⟨_, hw, image_readFile (h.volume volume_blankDisk hlen)
    (h.packed packed_blankDisk hlen (by decide +kernel)) (by decide) (by decide) le_rfl _ 10⟩

end Disk

end LatencyOS
