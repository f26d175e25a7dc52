import LatencyOS.Disk.Create
import LatencyOS.Disk.Mirror
import LatencyOS.Disk.Store

/-!
# The image that is made

Each turn of the loop over the files is a write as the kernel would do it, so that the image is a
well-formed volume with these files and no others.  What the kernel then writes and deletes, the
build tool finds in the image afterwards.
-/

namespace LatencyOS

set_option maxRecDepth 8000

/-! ## The files of the image -/

/-- The contents under a name in a list of files. -/
def filesStore (files : List (Str × List UInt8)) : Store :=
  fun name83 => (files.find? fun f => imageName83 f.1 == name83).map (·.2)

/-- The clusters that some files take. -/
def clusterCount (files : List (Str × List UInt8)) : ℕ :=
  (files.map fun f => Disk.neededClusters exportBpb f.2.length).sum

/-- Files that an image takes: as many as the directory and the clusters hold, and each under a
live name of its own. -/
structure Admissible (files : List (Str × List UInt8)) : Prop where
  count : files.length ≤ 512
  room : clusterCount files ≤ exportBpb.totalDataClusters
  live : ∀ f ∈ files, Disk.LiveName (imageName83 f.1)
  distinct : (files.map fun f => imageName83 f.1).Nodup

namespace Disk

/-- A disk with some files, as the loop has made it when it is to go on with a cluster. -/
structure Made (files : List (Str × List UInt8)) (d : Disk) (current : ℕ) : Prop where
  accounted : ∃ chain, Volume d exportBpb chain ∧ Accounted d exportBpb chain
  packed : Packed d exportBpb
  roots : files.length ≤ 512
  free : ∀ c, current ≤ c → InVolume exportBpb c → d.fatVal exportBpb c = 0
  unused : ∀ k, files.length ≤ k → k < 512 → d.entry exportBpb k = List.replicate 32 0
  names : ∀ k (hk : k < files.length), entryName (d.entry exportBpb k) = imageName83 files[k].1
  contents : d.contents exportBpb = filesStore files

variable {d d' : Disk} {files : List (Str × List UInt8)} {filename : Str}
  {content : List UInt8} {current k : ℕ}

/-- The mark of an entry is the first byte of its name. -/
theorem entryMark_eq_entryName (e : List UInt8) : entryMark e = (entryName e).getD 0 0 := by
  simp only [entryMark, entryName, List.getD_eq_getElem?_getD, List.getElem?_take]
  rfl

theorem Made.slot_lt (h : Made files d current) (hk : Live d exportBpb k) : k < files.length := by
  by_contra hlt
  have hzero := h.unused k (Nat.le_of_not_lt hlt) hk.1
  have hlive := hk.2
  rw [hzero] at hlive
  exact absurd hlive (by decide)

/-- The file that is added is new: the kernel would take the same entry for it. -/
theorem Made.findSlot (h : Made files d current) (hroom : files.length < 512)
    (hlive : ∀ f ∈ files, LiveName (imageName83 f.1))
    (hnew : ∀ f ∈ files, imageName83 f.1 ≠ imageName83 filename) :
    d.findSlot exportBpb (imageName83 filename) = some files.length := by
  refine findSlot_eq_some_iff.mpr ⟨hroom, ?_, fun i hi => ?_⟩
  · rw [Takes, h.unused _ le_rfl hroom]
    exact .inr (.inl rfl)
  · have hmem : files[i] ∈ files := List.getElem_mem hi
    have hname := h.names i hi
    have hmark := hlive _ hmem
    rw [Takes, entryMark_eq_entryName, hname]
    rintro (heq | hzero | hdeleted)
    · exact hnew _ hmem heq
    · exact hmark.1 hzero
    · exact hmark.2 hdeleted

theorem filesStore_append (files : List (Str × List UInt8))
    (hnew : ∀ f ∈ files, imageName83 f.1 ≠ imageName83 filename) :
    filesStore (files ++ [(filename, content)]) =
      Function.update (filesStore files) (imageName83 filename) (some content) := by
  funext name83
  rw [filesStore, List.find?_append, Function.update_apply]
  by_cases hself : name83 = imageName83 filename
  · have hnone : (files.find? fun f => imageName83 f.1 == name83) = none := by
      rw [List.find?_eq_none]
      intro f hf
      rw [beq_iff_eq, hself]
      exact hnew f hf
    rw [hnone, if_pos hself]
    simp [hself]
  · rw [if_neg hself, filesStore]
    have hlast : (imageName83 filename == name83) = false := by
      rw [beq_eq_false_iff_ne]
      exact fun heq => hself heq.symm
    simp [hlast]

/-- A write into the next clusters and the next entry adds a file. -/
theorem Made.add {n : ℕ} (h : Made files d current)
    (hw : Written d d' exportBpb (imageName83 filename) content (List.range' current n)
      files.length)
    (hname : LiveName (imageName83 filename))
    (hnew : ∀ f ∈ files, imageName83 f.1 ≠ imageName83 filename) :
    Made (files ++ [(filename, content)]) d' (current + n) := by
  obtain ⟨chain, hv, ha⟩ := h.accounted
  have hlen := length_imageName83 filename
  have hslot := hw.slot_lt
  have hspared : Spared d exportBpb (imageName83 filename) := by
    intro k hk hlive hkname
    have hlt := h.slot_lt ⟨hk, hlive⟩
    rw [h.names k hlt] at hkname
    exact absurd hkname (hnew _ (List.getElem_mem hlt))
  refine ⟨⟨_, hw.volume hv hlen, hw.accounted hv hlen hname hspared ha⟩,
    hw.packed h.packed hlen hname, ?_, fun c hge hc => ?_, fun k hge hk => ?_, fun k hk => ?_, ?_⟩
  · rw [List.length_append, List.length_singleton]
    exact hslot
  · rw [hw.fat c hc, link_of_notMem (by rw [List.mem_range'_1]; omega)]
    exact h.free c (by omega) hc
  · rw [List.length_append, List.length_singleton] at hge
    rw [hw.entry_of_ne hk (by omega)]
    exact h.unused k (by omega) hk
  · rw [List.length_append, List.length_singleton] at hk
    by_cases hself : k = files.length
    · subst hself
      rw [hw.entry_self, entryName_newEntry hlen, List.getElem_concat_length rfl]
    · rw [hw.entry_of_ne (by omega) hself, h.names k (by omega),
        List.getElem_append_left (by omega)]
  · rw [hw.contents hv h.packed hlen hname, h.contents, filesStore_append files hnew]

/-! ## The copy of the table -/

/-- Two disks have the same files and tables; the second FAT may differ. -/
structure SameFiles (g : Fat16Bpb) (d d' : Disk) : Prop where
  bpb : d'.bpb = d.bpb
  entry : ∀ k < g.rootDirSectors * 16, d'.entry g k = d.entry g k
  fat : ∀ c, InVolume g c → d'.fatVal g c = d.fatVal g c
  bytes : ∀ c, d'.clusterBytes g c = d.clusterBytes g c

namespace SameFiles

variable {g : Fat16Bpb} {chain : ℕ → List ℕ} (h : SameFiles g d d')
include h

theorem live_iff (k : ℕ) : Live d' g k ↔ Live d g k := by
  refine and_congr_right fun hk => ?_
  rw [h.entry k hk]

theorem volume (hv : Volume d g chain) : Volume d' g chain := by
  refine ⟨h.bpb.trans hv.bpb, hv.geometry, fun k hk => ?_, fun k hk c hc => ?_,
    fun k k' hk hk' => hv.disjoint k k' ((h.live_iff k).mp hk) ((h.live_iff k').mp hk')⟩
  · have hlive := (h.live_iff k).mp hk
    rw [h.entry k hk.1]
    exact (hv.chains k hlive).congr fun c hc => h.fat c (hv.members k hlive c hc).1
  · have hmember := hv.members k ((h.live_iff k).mp hk) c hc
    rwa [h.fat c hmember.1]

theorem accounted (ha : Accounted d g chain) : Accounted d' g chain := by
  intro c hc
  rw [h.fat c hc, ha c hc]
  simp only [h.live_iff]

theorem packed (hp : Packed d g) : Packed d' g := by
  intro k k' hlt hk' hmark
  rw [h.entry k (by omega)] at hmark
  rw [h.entry k' hk']
  exact hp k k' hlt hk' hmark

theorem isFile {name83 : List UInt8} (hf : IsFile d g name83 k) : IsFile d' g name83 k := by
  have hslot := hf.slot
  refine ⟨hslot, fun j hj hdiv => ?_, ?_, ?_⟩
  · rw [h.entry j (by omega)]
    exact hf.seen j hj hdiv
  · rw [h.entry k hslot]
    exact hf.listed
  · rw [h.entry k hslot]
    exact hf.name

omit h in
theorem symm (h : SameFiles g d d') : SameFiles g d' d :=
  ⟨h.bpb.symm, fun k hk => (h.entry k hk).symm, fun c hc => (h.fat c hc).symm,
    fun c => (h.bytes c).symm⟩

theorem contents (hv : Volume d g chain) : d'.contents g = d.contents g := by
  funext name83
  refine contents_congr hv (findEntry_congr fun k => ⟨h.symm.isFile, h.isFile⟩)
    fun k hk _ => ⟨h.entry k hk.1, ?_, fun c _ => h.bytes c⟩
  rw [h.entry k hk.1]
  exact (hv.chains k hk).congr fun c hc => h.fat c (hv.members k hk c hc).1

end SameFiles

theorem Made.same (h : Made files d current) (hsame : SameFiles exportBpb d d') :
    Made files d' current := by
  obtain ⟨chain, hv, ha⟩ := h.accounted
  have hslots : exportBpb.rootDirSectors * 16 = 512 := rfl
  refine ⟨⟨chain, hsame.volume hv, hsame.accounted ha⟩, hsame.packed h.packed,
    h.roots, fun c hge hc => ?_, fun k hge hk => ?_, fun k hk => ?_, ?_⟩
  · rw [hsame.fat c hc, h.free c hge hc]
  · rw [hsame.entry k (by omega), h.unused k hge hk]
  · have hroots := h.roots
    rw [hsame.entry k (by omega), h.names k hk]
  · rw [hsame.contents hv, h.contents]

end Disk

namespace Image

open Disk

variable {m m' : Image} {c k : ℕ} {files rest : List (Str × List UInt8)} {filename : Str}
  {content : List UInt8} {current : ℕ}

theorem byte_mirrorFat {p : ℕ} (h : p < 18432 ∨ 34816 ≤ p) : m.mirrorFat.byte p = m.byte p := by
  have hfat : exportBpb.fatSizeSectors = 32 := rfl
  have hres : exportBpb.reservedSectors = 4 := rfl
  rw [mirrorFat]
  dsimp only
  rw [hfat, hres, if_neg (by omega)]

/-- Copying the table changes nothing that is read. -/
theorem sameFiles_mirrorFat (m : Image) : SameFiles exportBpb m.disk m.mirrorFat.disk := by
  refine ⟨bpb_congr fun p hp => byte_mirrorFat (.inl (by omega)), fun k hk => ?_,
    fun c hc => ?_, fun c => ?_⟩
  · have hplace := entryOffset_eq k
    rw [entry_export, entry_export]
    exact slice_congr fun p hge hlt => byte_mirrorFat (.inr (by omega))
  · have hplace := fatEntryOffset_eq c
    have hlt := (inVolume_exportBpb.mp hc).2
    rw [fatVal_export, fatVal_export, byte_mirrorFat (.inl (by omega)),
      byte_mirrorFat (.inl (by omega))]
  · have hplace := clusterOffset_eq c
    rw [clusterBytes_export, clusterBytes_export]
    exact slice_congr fun p hge hlt => byte_mirrorFat (.inr (by omega))

theorem fatsEqual_mirrorFat (m : Image) : FatsEqual exportBpb m.mirrorFat.disk := by
  intro i hi
  have hfat : exportBpb.fatSizeSectors = 32 := rfl
  have hres : exportBpb.reservedSectors = 4 := rfl
  rw [hfat] at hi ⊢
  rw [hres]
  funext j
  simp only [disk]
  by_cases hj : j < sectorSize
  · have hj' : j < 512 := hj
    have hsector : sectorSize = 512 := rfl
    rw [if_pos hj, if_pos hj, hsector, byte_mirrorFat (p := (4 + i) * 512 + j) (.inl (by omega)),
      mirrorFat]
    dsimp only
    have hback : (4 + 32 + i) * 512 + j - 32 * 512 = (4 + i) * 512 + j :=
      Nat.sub_eq_of_eq_add (by omega)
    rw [hfat, hres, if_pos (by omega), hback]
  · rw [if_neg hj, if_neg hj]

/-! ## The image without files -/

theorem byte_foldl_put {fields : List (ℕ × List UInt8)} {p bound : ℕ}
    (hfields : ∀ f ∈ fields, f.1 + f.2.length ≤ bound) (hp : bound ≤ p) (m : Image) :
    (fields.foldl (fun m f => m.put f.1 f.2) m).byte p = m.byte p := by
  induction fields generalizing m with
  | nil => rfl
  | cons f fields ih =>
    have hf := hfields f List.mem_cons_self
    rw [List.foldl_cons, ih fun f' hf' => hfields f' (List.mem_cons_of_mem f hf')]
    exact byte_put_of_outside (.inr (by omega))

theorem byte_emptyImage {p : ℕ} (hp : 2052 ≤ p) : emptyImage.byte p = 0 := by
  have hplace : exportBpb.reservedSectors * 512 + firstFatEntries.length = 2052 := rfl
  have hfields : ∀ f ∈ bootFields, f.1 + f.2.length ≤ 512 := by decide +kernel
  rw [emptyImage, byte_put_of_outside (.inr (by omega)), byte_foldl_put hfields (by omega)]
  rfl

theorem size_emptyImage : emptyImage.size = exportSize := by
  have hsize : ∀ (fields : List (ℕ × List UInt8)) (m : Image),
      (fields.foldl (fun m f => m.put f.1 f.2) m).size = m.size := by
    intro fields
    induction fields with
    | nil => exact fun m => rfl
    | cons f fields ih => exact fun m => ih (m.put f.1 f.2)
  rw [emptyImage, size_put, hsize]
  rfl

theorem entry_emptyImage (k : ℕ) : emptyImage.disk.entry exportBpb k = List.replicate 32 0 := by
  have hplace := entryOffset_eq k
  rw [entry_export]
  refine List.eq_replicate_iff.mpr ⟨length_slice _ _ _, fun b hb => ?_⟩
  obtain ⟨i, -, rfl⟩ := List.mem_map.mp hb
  exact byte_emptyImage (by omega)

theorem bpb_emptyImage : emptyImage.disk.bpb = .ok exportBpb := by decide +kernel

theorem made_emptyImage : Made [] emptyImage.disk 2 := by
  have hmark : ∀ k, entryMark (emptyImage.disk.entry exportBpb k) = 0 := by
    intro k
    rw [entry_emptyImage]
    rfl
  have hdead : ∀ k, ¬ Live emptyImage.disk exportBpb k := by
    intro k hk
    have hlive := hk.2
    rw [entry_emptyImage] at hlive
    exact absurd hlive (by decide)
  have hfree : ∀ c, InVolume exportBpb c → emptyImage.disk.fatVal exportBpb c = 0 := by
    intro c hc
    have hplace := fatEntryOffset_eq c
    have hge := hc.1
    rw [fatVal_export, byte_emptyImage (by omega), byte_emptyImage (by omega)]
    rfl
  refine ⟨⟨fun _ => [], ⟨bpb_emptyImage, geometry_exportBpb, fun k hk => absurd hk (hdead k),
    fun k hk => absurd hk (hdead k), fun k _ hk => absurd hk (hdead k)⟩, fun c hc => ?_⟩,
    fun _ k _ _ _ => hmark k, Nat.zero_le _, fun c _ hc => hfree c hc,
    fun k _ _ => entry_emptyImage k, fun k hk => absurd hk (Nat.not_lt_zero k), ?_⟩
  · refine iff_of_false (fun hne => hne (hfree c hc)) ?_
    rintro ⟨k, hk, -⟩
    exact hdead k hk
  · funext name83
    refine contents_eq_none (findEntry_eq_none_iff.mpr fun k hk => ?_)
    exact hdead k hk.live

/-! ## The loop over the files -/

/-- One turn of the loop is a write. -/
theorem addFile_spec (hsize : m.size = exportSize) (h : Made files m.disk current)
    (hcurrent : 2 ≤ current)
    (hend : current + neededClusters exportBpb content.length ≤ 8169)
    (hroom : files.length < 512) (hlive : ∀ f ∈ files, LiveName (imageName83 f.1))
    (hnew : ∀ f ∈ files, imageName83 f.1 ≠ imageName83 filename) :
    ∃ m₁ m₂ m', addClusters (neededClusters exportBpb content.length) m current content =
        some m₁ ∧
      m₁.patch (entryOffset files.length) (imageName83 filename ++ [0x20]) = some m₂ ∧
      m₂.patch (entryOffset files.length + 26) (toLe16 current ++ toLe32 content.length) =
        some m' ∧
      m'.size = exportSize ∧
      Written m.disk m'.disk exportBpb (imageName83 filename) content
        (List.range' current (neededClusters exportBpb content.length)) files.length := by
  have hpos : 0 < neededClusters exportBpb content.length :=
    neededClusters_pos geometry_exportBpb.cluster
  have hfits : content.length ≤ neededClusters exportBpb content.length * 2048 :=
    le_neededClusters geometry_exportBpb.cluster
  have hslots : exportBpb.rootDirSectors * 16 = 512 := rfl
  obtain ⟨m₁, hadd, hsize₁, hfront, hstored⟩ := addClusters_spec hsize hcurrent hend hfits
  have hzero : m₁.disk.entry exportBpb files.length = List.replicate 32 0 := by
    rw [hstored.entry _ (by omega), h.unused _ le_rfl hroom]
  obtain ⟨m', hentry, hsize', hself, hother⟩ := addEntry current
    content.length hsize₁ (length_imageName83 filename) (by omega) hzero
  rw [Option.bind_eq_some_iff] at hentry
  obtain ⟨m₂, hfirst, hsecond⟩ := hentry
  have hplace := entryOffset_eq files.length
  have halloc : Allocated m.disk exportBpb content.length
      (List.range' current (neededClusters exportBpb content.length)) := by
    have hvol : ∀ c ∈ List.range' current (neededClusters exportBpb content.length),
        current ≤ c ∧ InVolume exportBpb c := by
      intro c hc
      rw [List.mem_range'_1] at hc
      exact ⟨hc.1, inVolume_exportBpb.mpr (by omega)⟩
    refine ⟨List.nodup_range', fun hnil => ?_, fun c hc => (hvol c hc).2,
      fun c hc => h.free c (hvol c hc).1 (hvol c hc).2, ?_⟩
    · rw [List.range'_eq_nil_iff] at hnil
      omega
    · rw [List.length_range']
      exact hfits
  have hfirstCluster : (List.range' current (neededClusters exportBpb content.length)).headD 0 =
      current := by
    obtain ⟨n, hn⟩ := Nat.exists_eq_succ_of_ne_zero hpos.ne'
    rw [hn, List.range'_succ, List.headD_cons]
  have hkept : ∀ c, m'.disk.clusterBytes exportBpb c = m₁.disk.clusterBytes exportBpb c := by
    intro c
    have hcplace := clusterOffset_eq c
    rw [clusterBytes_export, clusterBytes_export]
    exact slice_congr fun p hge hlt => hother p (.inr (by omega))
  refine ⟨m₁, m₂, m', hadd, hfirst, hsecond, hsize', halloc, h.findSlot hroom hlive hnew,
    (bpb_congr fun p hp => hother p (.inl (by omega))).trans hstored.bpb, fun j hj => ?_,
    fun c hc => ?_, fun c hc hnot => (hkept c).trans (hstored.kept c hc hnot), ?_, ?_⟩
  · by_cases hjk : j = files.length
    · rw [if_pos hjk, hjk, hself, hfirstCluster]
    · have hjplace := entryOffset_eq j
      rw [if_neg hjk, ← hstored.entry j hj, entry_export, entry_export]
      exact slice_congr fun p hge hlt => hother p (by omega)
  · have hcplace := fatEntryOffset_eq c
    have hlt := (inVolume_exportBpb.mp hc).2
    rw [← hstored.fat c hc, fatVal_export, fatVal_export, hother _ (.inl (by omega)),
      hother _ (.inl (by omega))]
  · rw [funext hkept]
    exact hstored.stored
  · omega

/-- The loop adds all files that have room. -/
theorem addFiles_spec (hsize : m.size = exportSize) (h : Made files m.disk current)
    (hcurrent : 2 ≤ current) (hend : current + clusterCount rest ≤ 8169)
    (hroom : files.length + rest.length ≤ 512)
    (hlive : ∀ f ∈ files ++ rest, LiveName (imageName83 f.1))
    (hnodup : ((files ++ rest).map fun f => imageName83 f.1).Nodup) :
    ∃ m' current', addFiles m current files.length rest = some m' ∧ m'.size = exportSize ∧
      Made (files ++ rest) m'.disk current' := by
  induction rest generalizing m files current with
  | nil =>
    rw [List.append_nil]
    exact ⟨m, current, rfl, hsize, h⟩
  | cons f rest ih =>
    obtain ⟨filename, content⟩ := f
    have hcount : clusterCount ((filename, content) :: rest) =
        neededClusters exportBpb content.length + clusterCount rest := by
      simp only [clusterCount, List.map_cons, List.sum_cons]
    rw [List.length_cons] at hroom
    have hnew : ∀ f ∈ files, imageName83 f.1 ≠ imageName83 filename := by
      intro f hf heq
      rw [List.map_append, List.nodup_append'] at hnodup
      exact hnodup.2.2 (List.mem_map_of_mem hf) (by simp [heq])
    have hend' : current + neededClusters exportBpb content.length ≤ 8169 := by omega
    obtain ⟨m₁, m₂, m₃, hadd, hfirst, hsecond, hsize', hw⟩ := addFile_spec hsize h hcurrent
      hend' (by omega)
      (fun f hf => hlive f (List.mem_append_left _ hf)) hnew
    have hmade := h.add hw (hlive (filename, content) (by simp)) hnew
    have hassoc : files ++ (filename, content) :: rest =
        (files ++ [(filename, content)]) ++ rest := by simp
    rw [hassoc] at hlive hnodup ⊢
    obtain ⟨m', current', hrest, hsize'', hmade'⟩ := ih hsize' hmade (by omega) (by omega)
      (by rw [List.length_append, List.length_singleton]; omega) hlive hnodup
    refine ⟨m', current', ?_, hsize'', hmade'⟩
    rw [List.length_append, List.length_singleton] at hrest
    simp only [addFiles, hadd, hfirst, hsecond, Option.bind_some]
    rw [if_neg (by omega), hrest]

end Image

namespace Disk

variable {d : Disk} {files : List (Str × List UInt8)} {current fuel : ℕ} {checks : Bool}
  {ops : List DiskOp}

theorem Made.unique (h : Made files d current)
    (hdistinct : (files.map fun f => imageName83 f.1).Nodup) : Unique d exportBpb := by
  intro k k' hk hk' hname
  have hlt := h.slot_lt hk
  have hlt' := h.slot_lt hk'
  rw [h.names k hlt, h.names k' hlt'] at hname
  have hmap : k < (files.map fun f => imageName83 f.1).length := by simpa using hlt
  have hmap' : k' < (files.map fun f => imageName83 f.1).length := by simpa using hlt'
  exact (@List.Nodup.getElem_inj_iff _ _ hdistinct k hmap k' hmap').mp (by simpa using hname)

/-- The image that is made is a well-formed volume with the files and nothing else. -/
theorem made_createFat16Image (h : Admissible files) :
    ∃ m current, createFat16Image files = some m ∧ m.size = exportSize ∧
      Made files m.disk current ∧ FatsEqual exportBpb m.disk := by
  have hroom : clusterCount files ≤ 8167 := h.room
  obtain ⟨m, current, hadd, hsize, hmade⟩ := Image.addFiles_spec
    Image.size_emptyImage Image.made_emptyImage le_rfl (by omega)
    (by rw [List.length_nil, Nat.zero_add]; exact h.count) h.live h.distinct
  exact ⟨m.mirrorFat, current, by rw [createFat16Image, ← List.length_nil, hadd]; rfl, hsize,
    hmade.same (Image.sameFiles_mirrorFat m), Image.fatsEqual_mirrorFat m⟩

theorem Made.tidy (h : Made files d current) (hfiles : Admissible files) : Tidy d exportBpb := by
  obtain ⟨chain, hv, -⟩ := h.accounted
  exact ⟨⟨chain, hv⟩, h.packed, h.unique hfiles.distinct⟩

/-- An image is made of all files that have room; it is a well-formed volume with equal FATs and
all its used clusters in chains, and the build tool and the kernel find in it the files with their
contents and no others. -/
theorem createFat16Image_files (h : Admissible files) (hfuel : 65536 ≤ fuel) :
    ∃ m, createFat16Image files = some m ∧ Tidy m.disk exportBpb ∧ FatsEqual exportBpb m.disk ∧
      (∃ chain, Volume m.disk exportBpb chain ∧ Accounted m.disk exportBpb chain) ∧
      (∀ filename, m.readFile fuel filename =
        some (filesStore files (imageName83 filename))) ∧
      ∀ name bufSize, m.disk.readFile name bufSize = (filesStore files (to83Name name)).elim
        (.error "File not found on Export Disk") fun data => .ok (data.take bufSize) := by
  obtain ⟨m, current, hcreate, hsize, hmade, hfats⟩ := made_createFat16Image h
  obtain ⟨chain, hv, ha⟩ := hmade.accounted
  have hholds : Holds exportBpb m.size := by
    rw [hsize]
    decide
  refine ⟨m, hcreate, hmade.tidy h, hfats, ⟨chain, hv, ha⟩, fun filename => ?_,
    fun name bufSize => ?_⟩
  · have hread := readFile_image hv hmade.packed (by decide) hholds hfuel filename
    rwa [Image.image_disk, hmade.contents] at hread
  · rw [readFile_eq_contents hv, hmade.contents]

/-- From the build tool and back: after a run of writes and deletes on an image that was made, the
image holds the files it was made of, with the changes of the run. -/
theorem createFat16Image_run (h : Admissible files) (hfuel : 65536 ≤ fuel)
    (hsteps : ∀ m, createFat16Image files = some m →
      AlongRun (step checks fuel) (KeepsFiles exportBpb) m.disk ops) :
    ∃ m d', createFat16Image files = some m ∧ runAll (step checks fuel) m.disk ops = some d' ∧
      (∀ filename, (d'.image m.size).readFile fuel filename =
        some (storeAfter checks fuel m.disk (filesStore files) ops (imageName83 filename))) ∧
      ∀ name bufSize, d'.readFile name bufSize =
        (storeAfter checks fuel m.disk (filesStore files) ops (to83Name name)).elim
          (.error "File not found on Export Disk") fun data => .ok (data.take bufSize) := by
  obtain ⟨m, current, hcreate, hsize, hmade, -⟩ := made_createFat16Image h
  have hholds : Holds exportBpb m.size := by
    rw [hsize]
    decide
  obtain ⟨d', hrun, himage, hdisk⟩ := image_run (hmade.tidy h) (by decide) hholds hfuel
    (hsteps m hcreate)
  rw [hmade.contents] at himage hdisk
  exact ⟨m, d', hcreate, hrun, himage, hdisk⟩

/-- The files the build tool puts on a new disk, with shorter contents. -/
def exportFiles : List (Str × List UInt8) :=
  [("HELLO.TXT".toList, utf8 "Hello".toList), ("WIN_SRC.PUL".toList, [])]

theorem admissible_exportFiles : Admissible exportFiles :=
  ⟨by decide, by decide +kernel, by decide +kernel, by decide +kernel⟩

theorem exportFiles_created : ∃ m, createFat16Image exportFiles = some m ∧
    m.readFile 65536 "hello.txt".toList = some (some (utf8 "Hello".toList)) ∧
    m.disk.readFile "WIN_SRC.PUL".toList 10 = .ok [] := by
  obtain ⟨m, hcreate, -, -, -, himage, hdisk⟩ :=
    createFat16Image_files admissible_exportFiles (le_refl 65536)
  refine ⟨m, hcreate, ?_, ?_⟩
  · rw [himage]
    decide +kernel
  · rw [hdisk]
    decide +kernel

/-- A file is written to the disk and another is deleted from it. -/
def exportOps : List DiskOp :=
  [.write "LIVE_SYN.PUL".toList [1, 2, 3], .delete "HELLO.TXT".toList]

theorem exportFiles_run : ∃ m d', createFat16Image exportFiles = some m ∧
    runAll (step true 65536) m.disk exportOps = some d' ∧
    (d'.image m.size).readFile 65536 "HELLO.TXT".toList = some none ∧
    d'.readFile "HELLO.TXT".toList 10 = .error "File not found on Export Disk" := by
  obtain ⟨m, current, hcreate, -, hmade, -⟩ := made_createFat16Image admissible_exportFiles
  have htidy := hmade.tidy admissible_exportFiles
  have hkeeps : KeepsFiles exportBpb m.disk (.write "LIVE_SYN.PUL".toList [1, 2, 3]) := by
    refine fun _ => ⟨by decide +kernel, foremost_of_contents htidy ?_⟩
    rw [hmade.contents]
    decide +kernel
  obtain ⟨done, d₁, hwrite, ⟨⟨chain, hv⟩, -, -⟩, -⟩ :=
    contents_exec true htidy le_rfl _ hkeeps
  obtain ⟨d₂, hdelete, -⟩ := exec_delete hv true le_rfl "HELLO.TXT".toList
  have hstore : ∀ s : Store, storeAfter true 65536 m.disk s exportOps
      (to83Name "HELLO.TXT".toList) = none := by
    intro s
    rw [exportOps, storeAfter, hwrite]
    dsimp only
    rw [storeAfter, hdelete]
    dsimp only
    rw [storeAfter, if_pos rfl]
    simp only [DiskOp.apply, Function.update_self]
  have hsteps : ∀ m, createFat16Image exportFiles = some m →
      AlongRun (step true 65536) (KeepsFiles exportBpb) m.disk exportOps := by
    intro m' hm
    obtain rfl : m = m' := Option.some.inj (hcreate.symm.trans hm)
    exact ⟨hkeeps, fun _ _ => ⟨trivial, fun _ _ => trivial⟩⟩
  obtain ⟨m', d', hcreate', hrun, himage, hdisk⟩ :=
    createFat16Image_run admissible_exportFiles (le_refl 65536) hsteps
  obtain rfl : m = m' := Option.some.inj (hcreate.symm.trans hcreate')
  have hname : imageName83 "HELLO.TXT".toList = to83Name "HELLO.TXT".toList := by
    decide +kernel
  refine ⟨m, d', hcreate, hrun, ?_, ?_⟩
  · rw [himage, hname, hstore]
  · rw [hdisk, hstore]
    rfl

end Disk

end LatencyOS
