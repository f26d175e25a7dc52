import LatencyOS.Disk.Fat
import LatencyOS.Lib.Chain
import Mathlib.Data.List.Find
import Mathlib.Data.List.TakeWhile
import Mathlib.Data.Nat.Find

/-!
# Areas of the disk

On a disk with two FATs that cover its clusters the boot sector, the FATs, the root directory
and the clusters lie apart: a change to a table entry, a directory entry or the data of a
cluster is seen there and nowhere else.
-/

namespace LatencyOS

/-- A geometry with two FATs that cover all clusters of a FAT16 volume. -/
structure Geometry (g : Fat16Bpb) : Prop where
  fats : g.numFats = 2
  reserved : 1 ≤ g.reservedSectors
  cluster : 1 ≤ g.sectorsPerCluster
  count : g.totalDataClusters ≤ 65524
  cover : g.totalDataClusters + 2 ≤ g.fatSizeSectors * 256

/-- The numbers of the clusters of a volume. -/
def InVolume (g : Fat16Bpb) (c : ℕ) : Prop := 2 ≤ c ∧ c < g.totalDataClusters + 2

namespace Disk

variable {d d' : Disk} {g : Fat16Bpb} {c c' k k' val : ℕ}

theorem fatSector_eq (g : Fat16Bpb) (c : ℕ) : fatSector g c = g.reservedSectors + c / 256 := by
  simp only [fatSector, sectorSize]
  omega

theorem fatOffset_eq (c : ℕ) : fatOffset c = c % 256 * 2 := by
  simp only [fatOffset, sectorSize]
  omega

theorem fatSector_lt (hg : Geometry g) (hc : InVolume g c) :
    fatSector g c < g.reservedSectors + g.fatSizeSectors := by
  have hcover := hg.cover
  have hlt := hc.2
  rw [fatSector_eq]
  omega

theorem rootDirStartLba_eq (hg : Geometry g) :
    g.rootDirStartLba = g.reservedSectors + 2 * g.fatSizeSectors := by
  rw [Fat16Bpb.rootDirStartLba, hg.fats]

/-- Two disks agree behind the FATs. -/
def SameBehind (g : Fat16Bpb) (d d' : Disk) : Prop :=
  d'.sectors 0 = d.sectors 0 ∧ ∀ lba, g.rootDirStartLba ≤ lba → d'.sectors lba = d.sectors lba

theorem SameBehind.refl (g : Fat16Bpb) (d : Disk) : SameBehind g d d := ⟨rfl, fun _ _ => rfl⟩

theorem SameBehind.trans {d'' : Disk} (h : SameBehind g d d') (h' : SameBehind g d' d'') :
    SameBehind g d d'' :=
  ⟨h'.1.trans h.1, fun lba hlba => (h'.2 lba hlba).trans (h.2 lba hlba)⟩

theorem SameBehind.bpb (h : SameBehind g d d') : d'.bpb = d.bpb := by
  rw [Disk.bpb, Disk.bpb, h.1]

theorem SameBehind.entry (h : SameBehind g d d') (k : ℕ) : d'.entry g k = d.entry g k := by
  simp only [Disk.entry]
  rw [h.2 (rootSector g k) (Nat.le_add_right _ _)]

theorem SameBehind.clusterBytes (h : SameBehind g d d') (c : ℕ) :
    d'.clusterBytes g c = d.clusterBytes g c := by
  have hdata : ∀ s, d'.sectors (clusterLba g c + s) = d.sectors (clusterLba g c + s) := by
    intro s
    refine h.2 _ ?_
    simp only [clusterLba, Fat16Bpb.dataStartLba]
    omega
  simp only [Disk.clusterBytes, hdata]

theorem le16_lt (lo hi : UInt8) : le16 lo hi < 65536 := by
  have hlo := lo.toNat_lt
  have hhi := hi.toNat_lt
  rw [le16]
  omega

/-- The fields of an accepted boot sector. -/
theorem bpb_bounds (hb : d.bpb = .ok g) : g.sectorsPerCluster < 256 ∧
    g.reservedSectors < 65536 ∧ g.numFats < 256 ∧ g.rootDirEntries < 65536 ∧
    g.fatSizeSectors < 65536 := by
  unfold Disk.bpb parseBpb at hb
  split at hb
  · cases hb
  · split at hb
    · cases hb
    · split at hb
      · cases hb
      · cases hb
        exact ⟨UInt8.toNat_lt _, le16_lt _ _, UInt8.toNat_lt _, le16_lt _ _, le16_lt _ _⟩

/-! ## Table entries -/

theorem le16_ofNat (h : val < 65536) : le16 (UInt8.ofNat val) (UInt8.ofNat (val / 256)) = val := by
  simp only [le16, UInt8.toNat_ofNat']
  omega

theorem sectors_write (area : Area) (lba lba' : ℕ) (s : Sector) :
    (d.write area lba s).sectors lba' = if lba' = lba then s else d.sectors lba' := by
  simp [Disk.write, Function.update_apply]

/-- The table entries after one of them is changed, where its copy is not written over them. -/
theorem fatVal_setFat_of_apart (hapart : fatSector g c' = fatSector g c ∨
    fatSector g c' ≠ fatSector g c + g.fatSizeSectors) (hval : val < 65536) :
    (d.setFat g c val).fatVal g c' = if c' = c then val else d.fatVal g c' := by
  have ho := fatOffset_eq c
  have ho' := fatOffset_eq c'
  by_cases hsame : fatSector g c' = fatSector g c
  · simp only [Disk.fatVal, Disk.setFat, sectors_write, hsame, if_true, ite_self]
    by_cases hcc : c' = c
    · subst hcc
      simp [le16_ofNat hval]
    · rw [if_neg hcc]
      rw [fatSector_eq, fatSector_eq] at hsame
      have h₁ : fatOffset c' ≠ fatOffset c := by omega
      have h₂ : fatOffset c' ≠ fatOffset c + 1 := by omega
      have h₃ : fatOffset c' + 1 ≠ fatOffset c := by omega
      simp [Function.update_of_ne, h₁, h₂, h₃]
  · have hcc : c' ≠ c := fun heq => hsame (by rw [heq])
    simp only [Disk.fatVal, Disk.setFat, sectors_write, if_neg (hapart.resolve_left hsame),
      if_neg hsame, if_neg hcc]

/-- The table entries of a volume after one of them is changed. -/
theorem fatVal_setFat (hg : Geometry g) (hc' : InVolume g c') (hval : val < 65536) :
    (d.setFat g c val).fatVal g c' = if c' = c then val else d.fatVal g c' := by
  have hsec := fatSector_lt hg hc'
  have hlow := fatSector_eq g c
  exact fatVal_setFat_of_apart (.inr (by omega)) hval

/-- A change of the table is not seen behind it. -/
theorem sameBehind_setFat (hg : Geometry g) (hc : InVolume g c) (val : ℕ) :
    SameBehind g d (d.setFat g c val) := by
  have hsec := fatSector_lt hg hc
  have hlow := fatSector_eq g c
  have hres := hg.reserved
  have hroot := rootDirStartLba_eq hg
  refine ⟨?_, fun lba hlba => ?_⟩
  · have h₁ : 0 ≠ fatSector g c := by omega
    have h₂ : 0 ≠ fatSector g c + g.fatSizeSectors := by omega
    simp only [Disk.setFat, sectors_write, if_neg h₁, if_neg h₂]
  · have h₁ : lba ≠ fatSector g c := by omega
    have h₂ : lba ≠ fatSector g c + g.fatSizeSectors := by omega
    simp only [Disk.setFat, sectors_write, if_neg h₁, if_neg h₂]

/-! ## Directory entries -/

@[simp] theorem length_entry (d : Disk) (g : Fat16Bpb) (k : ℕ) : (d.entry g k).length = 32 := by
  simp [Disk.entry]

/-- The directory entries after one of them is replaced. -/
theorem entry_setEntry {e : List UInt8} (he : e.length = 32) (k k' : ℕ) :
    (d.setEntry g k e).entry g k' = if k' = k then e else d.entry g k' := by
  by_cases hkk : k' = k
  · subst hkk
    rw [if_pos rfl]
    refine List.ext_getElem (by simp [he]) fun j hj hj' => ?_
    have hj32 : j < 32 := by simpa using hj
    have hdiv : (k' % 16 * 32 + j) / 32 = k' % 16 := by omega
    have hmod : (k' % 16 * 32 + j) % 32 = j := by omega
    simp only [Disk.entry, Disk.setEntry, sectors_write, List.getElem_map, List.getElem_range,
      if_true, hdiv, hmod]
    simp [List.getD, List.getElem?_eq_getElem hj']
  · rw [if_neg hkk]
    refine List.map_congr_left fun j hj => ?_
    have hj32 : j < 32 := List.mem_range.mp hj
    simp only [Disk.setEntry, sectors_write]
    by_cases hsec : rootSector g k' = rootSector g k
    · rw [if_pos hsec, hsec]
      have hdiv : (k' % 16 * 32 + j) / 32 ≠ k % 16 := by
        simp only [rootSector] at hsec
        omega
      rw [if_neg hdiv]
    · rw [if_neg hsec]

theorem fatVal_setEntry (hg : Geometry g) (hc : InVolume g c) (k : ℕ) (e : List UInt8) :
    (d.setEntry g k e).fatVal g c = d.fatVal g c := by
  have hsec := fatSector_lt hg hc
  have hroot := rootDirStartLba_eq hg
  have hne : fatSector g c ≠ rootSector g k := by
    simp only [rootSector]
    omega
  simp only [Disk.fatVal, Disk.setEntry, sectors_write, if_neg hne]

/-- Two disks agree on the data of all clusters and on the boot sector. -/
def SameData (g : Fat16Bpb) (d d' : Disk) : Prop :=
  d'.bpb = d.bpb ∧ ∀ c, d'.clusterBytes g c = d.clusterBytes g c

theorem sameData_setEntry (hg : Geometry g) (hk : k < g.rootDirSectors * 16) (e : List UInt8) :
    SameData g d (d.setEntry g k e) := by
  have hres := hg.reserved
  have hroot := rootDirStartLba_eq hg
  constructor
  · have hne : 0 ≠ rootSector g k := by
      simp only [rootSector]
      omega
    simp only [Disk.bpb, Disk.setEntry, sectors_write, if_neg hne]
  · intro c
    have hne : ∀ s, clusterLba g c + s ≠ rootSector g k := by
      intro s
      simp only [clusterLba, Fat16Bpb.dataStartLba, rootSector]
      omega
    simp only [Disk.clusterBytes, Disk.setEntry, sectors_write, if_neg (hne _)]

end Disk

/-!
## The root directory

Reading and deleting scan the directory sector by sector and leave a sector at its first unused
entry; writing scans all entries in order.  Here is what each scan finds, and what a scan finds
after one entry was replaced.
-/

/-! ## Scans by blocks -/

/-- A range that is left at the first index that fails a test. -/
theorem find?_takeWhile_range (p q : ℕ → Bool) (n : ℕ) :
    ((List.range n).takeWhile p).find? q =
      (List.range n).find? fun i => (List.range (i + 1)).all p && q i := by
  induction n with
  | zero => rfl
  | succ n ih =>
    rw [List.range_succ, List.find?_append, ← ih, List.takeWhile_append]
    by_cases hall : ∀ i ∈ List.range n, p i
    · have hself := List.takeWhile_eq_self_iff.mpr hall
      have hall' : (List.range n).all p = true := List.all_eq_true.mpr hall
      rw [hself, if_pos rfl, List.find?_append]
      by_cases hn : p n = true
      · simp [hn, List.range_succ, hall']
      · simp [hn, List.range_succ]
    · have hne : ((List.range n).takeWhile p).length ≠ (List.range n).length := by
        intro hlen
        have hself := (List.takeWhile_prefix p).eq_of_length hlen
        exact hall (List.takeWhile_eq_self_iff.mp hself)
      have hall' : (List.range n).all p = false := by
        simpa using hall
      rw [if_neg hne]
      simp [List.range_succ, hall']

/-- The numbers below a multiple, block by block. -/
theorem range_mul_eq_flatMap (n m : ℕ) :
    List.range (n * m) = (List.range n).flatMap fun s => (List.range m).map (s * m + ·) := by
  induction n with
  | zero => simp
  | succ n ih => rw [Nat.succ_mul, List.range_add, ih, List.range_succ, List.flatMap_append]; simp

namespace Disk

variable {d d' : Disk} {g : Fat16Bpb} {name83 other : List UInt8} {j k : ℕ}

/-! ## What a scan finds -/

/-- An entry with no unused one before it in its sector. -/
def visible (d : Disk) (g : Fat16Bpb) (k : ℕ) : Bool :=
  (List.range (k % 16 + 1)).all fun i => entryMark (d.entry g (k / 16 * 16 + i)) != 0

theorem visible_iff : d.visible g k = true ↔
    ∀ i ≤ k, i / 16 = k / 16 → entryMark (d.entry g i) ≠ 0 := by
  simp only [visible, List.all_eq_true, List.mem_range, bne_iff_ne]
  constructor
  · intro h i hik hdiv
    have hi := h (i % 16) (by omega)
    have heq : k / 16 * 16 + i % 16 = i := by omega
    rwa [heq] at hi
  · intro h i hi
    exact h _ (by omega) (by omega)

/-- An entry that reading finds under a name. -/
structure IsFile (d : Disk) (g : Fat16Bpb) (name83 : List UInt8) (k : ℕ) : Prop where
  slot : k < g.rootDirSectors * 16
  seen : ∀ i ≤ k, i / 16 = k / 16 → entryMark (d.entry g i) ≠ 0
  listed : entryListed (d.entry g k) = true
  name : entryName (d.entry g k) = name83

theorem findEntry_eq (d : Disk) (g : Fat16Bpb) (name83 : List UInt8) :
    d.findEntry g name83 = (List.range (g.rootDirSectors * 16)).find? fun k =>
      d.visible g k && (entryListed (d.entry g k) && entryName (d.entry g k) == name83) := by
  rw [range_mul_eq_flatMap, List.find?_flatMap]
  refine congrArg (List.findSome? · _) (funext fun sec => ?_)
  rw [scanSector, List.takeWhile_map, List.find?_map, List.find?_map, find?_takeWhile_range]
  congr 1
  refine List.find?_congr fun i hi => ?_
  have hi16 : i < 16 := List.mem_range.mp hi
  have hdiv : (sec * 16 + i) / 16 = sec := by omega
  have hmod : (sec * 16 + i) % 16 = i := by omega
  simp only [Function.comp_def, visible, hdiv, hmod]

/-- Reading and deleting take the first entry that is found under the name. -/
theorem findEntry_eq_some_iff : d.findEntry g name83 = some k ↔
    IsFile d g name83 k ∧ ∀ i < k, ¬ IsFile d g name83 i := by
  have hfile : ∀ i, i < g.rootDirSectors * 16 → ((d.visible g i && (entryListed (d.entry g i) &&
      entryName (d.entry g i) == name83)) = true ↔ IsFile d g name83 i) := by
    intro i hi
    rw [Bool.and_eq_true, Bool.and_eq_true, visible_iff, beq_iff_eq]
    exact ⟨fun h => ⟨hi, h.1, h.2.1, h.2.2⟩, fun h => ⟨h.seen, h.listed, h.name⟩⟩
  rw [findEntry_eq, List.find?_range_eq_some]
  constructor
  · intro h
    have hk := List.mem_range.mp h.2.1
    refine ⟨(hfile k hk).mp h.1, fun i hi hf => ?_⟩
    have hnot := h.2.2 i hi
    rw [(hfile i (by omega)).mpr hf] at hnot
    exact absurd hnot (by decide)
  · intro h
    refine ⟨(hfile k h.1.slot).mpr h.1, List.mem_range.mpr h.1.slot, fun i hi => ?_⟩
    have hlt := h.1.slot
    rw [Bool.not_eq_true', Bool.eq_false_iff, ne_eq, hfile i (by omega)]
    exact h.2 i hi

theorem findEntry_eq_none_iff : d.findEntry g name83 = none ↔ ∀ i, ¬ IsFile d g name83 i := by
  constructor
  · intro h i hf
    -- the least entry that is found would be taken
    classical
    have hex : ∃ i, IsFile d g name83 i := ⟨i, hf⟩
    have hsome := findEntry_eq_some_iff.mpr ⟨Nat.find_spec hex, fun _ => Nat.find_min hex⟩
    rw [h] at hsome
    exact absurd hsome.symm (Option.some_ne_none _)
  · intro h
    cases hfind : d.findEntry g name83 with
    | none => rfl
    | some k => exact absurd (findEntry_eq_some_iff.mp hfind).1 (h k)

/-- The scans of two disks that have the same files under a name agree. -/
theorem findEntry_congr (h : ∀ i, IsFile d' g name83 i ↔ IsFile d g name83 i) :
    d'.findEntry g name83 = d.findEntry g name83 := by
  cases hfind : d.findEntry g name83 with
  | none =>
    rw [findEntry_eq_none_iff] at hfind ⊢
    exact fun i hf => hfind i ((h i).mp hf)
  | some k =>
    rw [findEntry_eq_some_iff] at hfind ⊢
    exact ⟨(h k).mpr hfind.1, fun i hi hf => hfind.2 i hi ((h i).mp hf)⟩

/-- An entry that writing may take for a name. -/
def Takes (d : Disk) (g : Fat16Bpb) (name83 : List UInt8) (k : ℕ) : Prop :=
  entryName (d.entry g k) = name83 ∨ entryMark (d.entry g k) = 0 ∨
    entryMark (d.entry g k) = 0xE5

instance (d : Disk) (g : Fat16Bpb) (name83 : List UInt8) (k : ℕ) :
    Decidable (Takes d g name83 k) := inferInstanceAs (Decidable (_ ∨ _))

/-- Writing takes the first entry it may take. -/
theorem findSlot_eq_some_iff : d.findSlot g name83 = some k ↔
    k < g.rootDirSectors * 16 ∧ Takes d g name83 k ∧ ∀ i < k, ¬ Takes d g name83 i := by
  rw [findSlot, List.find?_range_eq_some]
  simp only [Bool.or_eq_true, beq_iff_eq, Bool.not_eq_true', Bool.eq_false_iff, ne_eq,
    List.mem_range, Takes, or_assoc]
  tauto

theorem findSlot_congr (h : ∀ i < g.rootDirSectors * 16, d'.entry g i = d.entry g i) :
    d'.findSlot g name83 = d.findSlot g name83 := by
  refine List.find?_congr fun i hi => ?_
  rw [h i (List.mem_range.mp hi)]

end Disk

end LatencyOS
