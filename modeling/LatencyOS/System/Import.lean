import LatencyOS.Disk.Volume
import LatencyOS.Disk.Walks
import LatencyOS.Fs.Destination
import LatencyOS.Fs.PathBuffer
import LatencyOS.Lib.Faults

/-!
# Files are imported from the export disk

At boot the root directory of the export disk is read, and its files are created in LatencyFS.
Any read of a sector may fail.  A file that could not be read counts as an empty one, and one whose
chain is too short as what there is of it; what stood under its path is replaced by that.

## Main results

* `makes_exportDiskReadClusters`: which sectors are read, and what is read from them
* `foldl_create_cases`: what creating files under some paths does to a file
* `import_keeps_iff`: which imports replace files only by complete ones
-/

namespace LatencyOS.Import

open FaultM Disk

def maxExportFileSize : ℕ := 65536

variable (fails : ℕ → Option String) (d : Disk) (g : Fat16Bpb) (cwd : Str)

/-! ## Reading -/

/-- `ata_read_sector` -/
def ataReadSector (lba : ℕ) : FaultM String Sector := attempt fails (d.sectors lba)

/-- `export_disk_get_bpb` -/
def exportDiskGetBpb : FaultM String Fat16Bpb := do
  let sector0 ← ataReadSector fails d 0
  match parseBpb sector0 with
  | .ok g => pure g
  | .error e => throw e

/-- Some sectors from `lba` on, as long as bytes are left to read. -/
def readSectors : ℕ → ℕ → ℕ → FaultM String (List UInt8)
  | 0, _, _ => pure []
  | s + 1, lba, left =>
    if left = 0 then pure []
    else do
      let sector ← ataReadSector fails d lba
      let chunk := (sectorBytes sector).take left
      let rest ← readSectors s (lba + 1) (left - chunk.length)
      return chunk ++ rest

/-- The loop of `export_disk_read_clusters`, with the bytes that are left to read; every turn reads
some. -/
def readTurns : ℕ → ℕ → ℕ → FaultM String (List UInt8)
  | 0, _, _ => pure []
  | n + 1, c, left =>
    if Ends c ∨ left = 0 then pure []
    else do
      let chunk ← readSectors fails d g.sectorsPerCluster (clusterLba g c) left
      let table ← ataReadSector fails d (fatSector g c)
      let next := le16 (table (fatOffset c)) (table (fatOffset c + 1))
      let rest ← readTurns n next (left - chunk.length)
      return chunk ++ rest

/-- `export_disk_read_clusters`, into a buffer of some size. -/
def exportDiskReadClusters (firstCluster fileSize bufSize : ℕ) : FaultM String (List UInt8) :=
  if fileSize = 0 ∨ firstCluster < 2 then pure []
  else
    let bytesToRead := min fileSize bufSize
    readTurns fails d g bytesToRead firstCluster bytesToRead

/-! ## Importing -/

/-- `to_ascii_lowercase` -/
def asciiLower (b : UInt8) : UInt8 := if 0x41 ≤ b ∧ b ≤ 0x5A then b + 0x20 else b

/-- A deleted entry, a part of a long name, a volume label or a directory. -/
def passedOver (e : List UInt8) : Bool :=
  let attr := e.getD 11 0
  entryMark e == 0xE5 || attr &&& 0x0F == 0x0F || attr &&& 0x08 != 0 || attr &&& 0x10 != 0

/-- The 8.3 name in an entry, without its blanks. -/
def fileName (e : List UInt8) : List UInt8 :=
  let base := (e.take 8).filter (· != 0x20)
  let ext := ((e.drop 8).take 3).filter (· != 0x20)
  if ext = [] then base else base ++ 0x2E :: ext

/-- A name in lower case behind a directory, in a buffer of 63 bytes. -/
def pathBytes (dir name : List UInt8) : List UInt8 :=
  dir ++ (name.map asciiLower).take (63 - dir.length)

/-- The paths under which the file of an entry is created, unless it is passed over. -/
def importPaths (e : List UInt8) : Option (List Str) :=
  if passedOver e then none
  else
    match Fs.fromUtf8 (fileName e) with
    | none => none
    | some rawName =>
      if maxExportFileSize < entrySize e then none
      else
        let root := Fs.fromUtf8 (pathBytes (utf8 "/".toList) (fileName e))
        let pulselang := Fs.fromUtf8 (pathBytes (utf8 "/pulselang/".toList) (fileName e))
        let isScript := ".PUL".toList.isSuffixOf rawName || ".pul".toList.isSuffixOf rawName
        some (root.toList ++ if isScript then pulselang.toList else [])

/-- The state of `export_disk_auto_import`: whether its loop over the sectors was left, and that
over the entries of the sector in `ROOT_DIR_BUF`. -/
structure State where
  fs : LatencyFS
  reads : ℕ
  rootDirBuf : Sector
  broken : Bool
  ended : Bool
  importedCount : ℕ

/-- A turn of the loop over the sectors of the root directory, and one over their entries. -/
inductive Turn
  | sector (sec : ℕ)
  | entry (idx : ℕ)
  deriving DecidableEq

/-- `fs_create_internal`, whose error is dropped. -/
def create (data : List UInt8) (fs : LatencyFS) (path : Str) : LatencyFS :=
  Fs.step fs (cwd, .create path data false)

/-- The file of an entry is read and created; one that cannot be read is taken for an empty one. -/
def importEntry (s : State) (e : List UInt8) : State :=
  match importPaths e with
  | none => s
  | some paths =>
    let r := (exportDiskReadClusters fails d g (entryCluster e) (entrySize e)
      maxExportFileSize).outcome s.reads
    let data := r.1.toOption.getD []
    { s with
      fs := paths.foldl (create cwd data) s.fs
      reads := r.2
      importedCount := s.importedCount + 1 }

/-- An entry of the sector in `ROOT_DIR_BUF`. -/
def State.entry (s : State) (idx : ℕ) : List UInt8 :=
  (List.range 32).map fun j => s.rootDirBuf (idx * 32 + j)

/-- One turn. -/
def turn (s : State) : Turn → State
  | .sector sec =>
    if s.broken then s
    else
      match (ataReadSector fails d (g.rootDirStartLba + sec)).outcome s.reads with
      | (.ok buf, reads) => { s with rootDirBuf := buf, reads := reads, ended := false }
      | (.error _, reads) => { s with broken := true, reads := reads }
  | .entry idx =>
    if s.broken || s.ended then s
    else if entryMark (s.entry idx) = 0 then { s with ended := true }
    else importEntry fails d g cwd s (s.entry idx)

/-- The turns of both loops. -/
def turns : List Turn :=
  (List.range g.rootDirSectors).flatMap fun sec => .sector sec :: (List.range 16).map .entry

/-- The state before the first turn. -/
def start (fs : LatencyFS) (reads : ℕ) : State := ⟨fs, reads, fun _ => 0, false, false, 0⟩

/-- `export_disk_auto_import`; while it runs, nothing is passed on to the disk. -/
def exportDiskAutoImport (fs : LatencyFS) : Except String ℕ × LatencyFS :=
  match (exportDiskGetBpb fails d).outcome 0 with
  | (.error e, _) => (.error e, fs)
  | (.ok g, reads) =>
    let s := (turns g).foldl (turn fails d g cwd) (start fs reads)
    (.ok s.importedCount, s.fs)

/-- A condition on every turn of an import and the state before it. -/
def AlongImport (fs : LatencyFS) (P : Fat16Bpb → State → Turn → Prop) : Prop :=
  match (exportDiskGetBpb fails d).outcome 0 with
  | (.error _, _) => True
  | (.ok g, reads) => AlongFold (turn fails d g cwd) (P g) (start fs reads) (turns g)

/-! ## What there is to read -/

/-- The clusters of a chain, `n` of them at most. -/
def clusters : ℕ → ℕ → List ℕ
  | 0, _ => []
  | n + 1, c => if Ends c then [] else c :: clusters n (d.fatVal g c)

/-- The clusters that hold so many bytes. -/
def clusterCount (size : ℕ) : ℕ :=
  (size + g.sectorsPerCluster * sectorSize - 1) / (g.sectorsPerCluster * sectorSize)

/-- The sectors that hold so many bytes. -/
def sectorCount (size : ℕ) : ℕ := (size + sectorSize - 1) / sectorSize

/-- The reads for some bytes in some clusters: the sectors of the bytes, and one of the table for
each cluster. -/
def chainReads (chain : List ℕ) (size : ℕ) : ℕ :=
  min (sectorCount size) (chain.length * g.sectorsPerCluster) + chain.length

/-- The bytes in some clusters. -/
def chainData (chain : List ℕ) (size : ℕ) : List UInt8 :=
  (chain.flatMap (d.clusterBytes g)).take size

/-- The clusters that are there for the file of an entry. -/
def entryClusters (e : List UInt8) : List ℕ :=
  clusters d g (clusterCount g (entrySize e)) (entryCluster e)

/-- The number of reads for the file of an entry. -/
def entryReads (e : List UInt8) : ℕ := chainReads g (entryClusters d g e) (entrySize e)

/-- What the clusters of the file hold. -/
def entryData (e : List UInt8) : List UInt8 := chainData d g (entryClusters d g e) (entrySize e)

/-- After `k` reads, all clusters of the file are there and every read for them goes through. -/
def Complete (k : ℕ) (e : List UInt8) : Prop :=
  (entryClusters d g e).length = clusterCount g (entrySize e) ∧ Sound fails k (entryReads d g e)

/-- The part of the file that is created. -/
def entryPart (k : ℕ) (e : List UInt8) : List UInt8 :=
  if Sound fails k (entryReads d g e) then entryData d g e else []

/-- The entry that is imported in a turn, and the paths of its file. -/
def State.imports (s : State) : Turn → Option (List UInt8 × List Str)
  | .sector _ => none
  | .entry idx =>
    if s.broken || s.ended || entryMark (s.entry idx) = 0 then none
    else (importPaths (s.entry idx)).map fun paths => (s.entry idx, paths)

/-- A turn leaves every file as it is, or replaces its contents by the complete ones of the file
that it imports. -/
def Keeps (g : Fat16Bpb) (s : State) (t : Turn) : Prop :=
  ∀ (i : ℕ) (f : FileEntry), s.fs.files[i]? = some f → f.used = true → f.isDir = false →
    (turn fails d g cwd s t).fs.files[i]? = some f ∨
    ∃ e paths, s.imports t = some (e, paths) ∧ Complete fails d g s.reads e ∧
      (turn fails d g cwd s t).fs.files[i]? = some { f with data := entryData d g e }

/-- A file that `fs_create_internal` replaces by one of some length. -/
structure Hits (cwd : Str) (fs : LatencyFS) (len : ℕ) (path : Str) (i : ℕ) (f : FileEntry) :
    Prop where
  fits : len ≤ maxFileSize
  names : ∃ norm, Fs.normalizePath path cwd = .ok norm ∧
    fs.files.findIdx? (Fs.named norm) = some i
  row : fs.files[i]? = some f
  isFile : f.isDir = false
  writable : f.readOnly = false

/-- The file that a turn imports is complete, or no file with other contents than those that were
read stands under its paths. -/
def Spares (g : Fat16Bpb) (s : State) (t : Turn) : Prop :=
  ∀ e paths, s.imports t = some (e, paths) → Complete fails d g s.reads e ∨
    ∀ path ∈ paths, ∀ i f, Hits cwd s.fs (entryPart fails d g s.reads e).length path i f →
      f.data = entryPart fails d g s.reads e

variable {fails d g cwd} {c n left lba size k : ℕ} {s : State} {e : List UInt8}

/-! ## What is read -/

theorem makes_ataReadSector (lba : ℕ) :
    Makes fails (ataReadSector fails d lba) 1 (d.sectors lba) := makes_attempt _

/-- The bytes of some sectors. -/
def sectorsBytes (d : Disk) (lba n : ℕ) : List UInt8 :=
  (List.range n).flatMap fun s => sectorBytes (d.sectors (lba + s))

theorem sectorsBytes_succ (d : Disk) (lba n : ℕ) :
    sectorsBytes d lba (n + 1) = sectorBytes (d.sectors lba) ++ sectorsBytes d (lba + 1) n := by
  have hshift : (fun s => sectorBytes (d.sectors (lba + (s + 1)))) =
      fun s => sectorBytes (d.sectors (lba + 1 + s)) := by
    funext s
    rw [Nat.add_assoc, Nat.add_comm 1 s]
  simp only [sectorsBytes, List.range_succ_eq_map, List.flatMap_cons, List.flatMap_map,
    Nat.add_zero, Nat.succ_eq_add_one]
  rw [hshift]

theorem length_sectorsBytes (d : Disk) (lba n : ℕ) :
    (sectorsBytes d lba n).length = n * sectorSize := by
  induction n generalizing lba with
  | zero => simp [sectorsBytes]
  | succ n ih =>
    rw [sectorsBytes_succ, List.length_append, length_sectorBytes, ih, Nat.succ_mul, Nat.add_comm]

theorem sectorCount_step (h : left ≠ 0) :
    sectorCount left = 1 + sectorCount (left - min left sectorSize) := by
  unfold sectorCount sectorSize
  omega

/-- The sectors of a cluster, as far as bytes are left to read. -/
theorem makes_readSectors (n lba left : ℕ) : Makes fails (readSectors fails d n lba left)
    (min (sectorCount left) n) ((sectorsBytes d lba n).take left) := by
  induction n generalizing lba left with
  | zero =>
    rw [Nat.min_zero, List.take_of_length_le (by rw [length_sectorsBytes, Nat.zero_mul]; omega)]
    exact makes_pure _
  | succ n ih =>
    rw [readSectors]
    split
    · next h =>
      subst h
      exact makes_pure []
    · next h =>
      have hchunk : ((sectorBytes (d.sectors lba)).take left).length = min left sectorSize := by
        rw [List.length_take, length_sectorBytes]
      have hcount := sectorCount_step h
      refine Makes.of_eq (Makes.bind (makes_ataReadSector lba)
        (Makes.bind (ih (lba + 1) _) (makes_pure _))) ?_ ?_
      · rw [hchunk]
        omega
      · have hleft : left - sectorSize = left - min left sectorSize := by omega
        rw [hchunk, sectorsBytes_succ, List.take_append, length_sectorBytes, hleft]

theorem clusterBytes_eq (d : Disk) (g : Fat16Bpb) (c : ℕ) :
    d.clusterBytes g c = sectorsBytes d (clusterLba g c) g.sectorsPerCluster := rfl

theorem clusterCount_zero (h : 1 ≤ g.sectorsPerCluster) : clusterCount g 0 = 0 := by
  have hpos : 1 ≤ g.sectorsPerCluster * sectorSize := Nat.mul_pos h (by decide)
  rw [clusterCount, Nat.zero_add]
  exact Nat.div_eq_of_lt (by omega)

theorem clusterCount_step (h : 1 ≤ g.sectorsPerCluster) (hleft : left ≠ 0) :
    clusterCount g left =
      clusterCount g (left - min left (g.sectorsPerCluster * sectorSize)) + 1 := by
  have hpos : 1 ≤ g.sectorsPerCluster * sectorSize := Nat.mul_pos h (by decide)
  have hsub : left + g.sectorsPerCluster * sectorSize - 1 =
      left - 1 + g.sectorsPerCluster * sectorSize := by omega
  have hdiv : clusterCount g left = (left - 1) / (g.sectorsPerCluster * sectorSize) + 1 := by
    rw [clusterCount, hsub, Nat.add_div_right _ hpos]
  rw [hdiv, clusterCount]
  by_cases hle : left ≤ g.sectorsPerCluster * sectorSize
  · rw [Nat.min_eq_left hle, Nat.sub_self, Nat.zero_add, Nat.div_eq_of_lt (by omega),
      Nat.div_eq_of_lt (by omega)]
  · rw [Nat.min_eq_right (by omega), Nat.sub_add_cancel (by omega)]

theorem clusters_eq_nil (hspc : 1 ≤ g.sectorsPerCluster) (hend : Ends c ∨ left = 0) :
    clusters d g (clusterCount g left) c = [] := by
  rcases hend with hend | rfl
  · cases clusterCount g left with
    | zero => rfl
    | succ m => rw [clusters, if_pos hend]
  · rw [clusterCount_zero hspc, clusters]

/-- The sectors that are left after those of a cluster. -/
theorem sectorCount_cluster (n left : ℕ) (h : n * sectorSize < left) :
    sectorCount left = n + sectorCount (left - min left (n * sectorSize)) := by
  rw [Nat.min_eq_right (Nat.le_of_lt h)]
  unfold sectorCount
  unfold sectorSize at *
  omega

@[simp] theorem chainReads_nil : chainReads g [] size = 0 := by
  rw [chainReads, List.length_nil, Nat.zero_mul, Nat.min_zero]

@[simp] theorem chainData_nil : chainData d g [] size = [] := List.take_nil

/-- One cluster more is read. -/
theorem chainReads_cons {chain : List ℕ}
    (hchain : left ≤ g.sectorsPerCluster * sectorSize → chain = []) :
    chainReads g (c :: chain) left = min (sectorCount left) g.sectorsPerCluster +
      (1 + chainReads g chain (left - min left (g.sectorsPerCluster * sectorSize))) := by
  rw [chainReads, List.length_cons, Nat.succ_mul]
  by_cases hle : left ≤ g.sectorsPerCluster * sectorSize
  · rw [hchain hle, chainReads_nil, List.length_nil]
    omega
  · rw [chainReads, sectorCount_cluster g.sectorsPerCluster left (by omega)]
    omega

theorem chainData_cons (d : Disk) (g : Fat16Bpb) (c : ℕ) (chain : List ℕ) (left : ℕ) :
    chainData d g (c :: chain) left = (d.clusterBytes g c).take left ++
      chainData d g chain (left - min left (g.sectorsPerCluster * sectorSize)) := by
  have hleft : left - g.sectorsPerCluster * sectorSize =
      left - min left (g.sectorsPerCluster * sectorSize) := by omega
  rw [chainData, List.flatMap_cons, List.take_append, length_clusterBytes, hleft, chainData]

/-- The turns of the loop read the clusters that are there, and a sector of the table for each. -/
theorem makes_readTurns (hspc : 1 ≤ g.sectorsPerCluster) (hleft : left ≤ n) (c : ℕ) :
    Makes fails (readTurns fails d g n c left)
      (chainReads g (clusters d g (clusterCount g left) c) left)
      (chainData d g (clusters d g (clusterCount g left) c) left) := by
  induction n generalizing c left with
  | zero =>
    rw [clusters_eq_nil hspc (.inr (Nat.le_zero.mp hleft)), chainReads_nil, chainData_nil]
    exact makes_pure []
  | succ n ih =>
    rw [readTurns]
    split
    · next hend =>
      rw [clusters_eq_nil hspc hend, chainReads_nil, chainData_nil]
      exact makes_pure []
    · next hend =>
      obtain ⟨hlive, hne⟩ := not_or.mp hend
      have hpos : 1 ≤ g.sectorsPerCluster * sectorSize := Nat.mul_pos hspc (by decide)
      have hchunk : ((sectorsBytes d (clusterLba g c) g.sectorsPerCluster).take left).length =
          min left (g.sectorsPerCluster * sectorSize) := by
        rw [List.length_take, length_sectorsBytes]
      rw [clusterCount_step hspc hne, clusters, if_neg hlive, chainData_cons,
        chainReads_cons fun hle => clusters_eq_nil hspc (.inr (by omega))]
      refine Makes.of_eq (Makes.bind (makes_readSectors g.sectorsPerCluster (clusterLba g c) left)
        (Makes.bind (makes_ataReadSector (fatSector g c))
          (Makes.bind (ih (by rw [hchunk]; omega) (d.fatVal g c)) (makes_pure _)))) ?_ ?_
      · rw [hchunk, Nat.add_zero]
      · rw [hchunk, clusterBytes_eq]

/-- The file of an entry that fits the buffer is read from the clusters that are there for it. -/
theorem makes_exportDiskReadClusters (fails : ℕ → Option String) (d : Disk)
    (hspc : 1 ≤ g.sectorsPerCluster)
    (hsize : entrySize e ≤ maxExportFileSize) :
    Makes fails (exportDiskReadClusters fails d g (entryCluster e) (entrySize e)
      maxExportFileSize) (entryReads d g e) (entryData d g e) := by
  rw [exportDiskReadClusters, entryReads, entryData, entryClusters]
  split
  · next hnone =>
    have hend : Ends (entryCluster e) ∨ entrySize e = 0 := by
      rcases hnone with h | h
      · exact .inr h
      · exact .inl fun hlive => Nat.not_lt.mpr hlive.1 h
    rw [clusters_eq_nil hspc hend, chainReads_nil, chainData_nil]
    exact makes_pure []
  · rw [Nat.min_eq_left hsize]
    exact makes_readTurns hspc (Nat.le_refl _) _

/-! ## What is created -/

section Create

variable {fs : LatencyFS} {data : List UInt8} {path : Str} {paths : List Str} {i : ℕ}
  {f : FileEntry}

theorem Hits.used {len : ℕ} (h : Hits cwd fs len path i f) : f.used = true := by
  obtain ⟨norm, -, hfirst⟩ := h.names
  obtain ⟨e, he, hnamed⟩ := Fs.getElem?_of_findIdx? hfirst
  obtain rfl : e = f := Option.some.inj (he.symm.trans h.row)
  exact (Fs.named_iff.mp hnamed).1

/-- A file that is hit can be replaced. -/
theorem Hits.createInternal (h : Hits cwd fs data.length path i f) :
    ∃ r, Fs.createInternal cwd path data false fs = .ok r := by
  obtain ⟨norm, hnorm, hfirst⟩ := h.names
  refine Fs.createInternal_isOk hnorm h.fits false (.inl ⟨i, hfirst, ?_⟩)
  rw [Fs.getD_of_getElem? h.row]
  exact h.writable

/-- A file is created over one that it hits, and every other one stays. -/
theorem create_cases (hf : fs.files[i]? = some f) (hused : f.used = true)
    (hdir : f.isDir = false) :
    (Hits cwd fs data.length path i f ∧
        (create cwd data fs path).files[i]? = some { f with data := data }) ∨
      (¬ Hits cwd fs data.length path i f ∧ (create cwd data fs path).files[i]? = some f ∧
        ∀ path', Hits cwd (create cwd data fs path) data.length path' i f ↔
          Hits cwd fs data.length path' i f) := by
  rw [create, Fs.step, Fs.exec]
  cases hcreate : Fs.createInternal cwd path data false fs with
  | error err =>
    refine .inr ⟨fun hhit => ?_, hf, fun path' => Iff.rfl⟩
    obtain ⟨r, hr⟩ := hhit.createInternal
    rw [hcreate] at hr
    cases hr
  | ok r =>
    obtain ⟨norm, hnorm⟩ := Fs.normalizePath_of_createInternal hcreate
    obtain ⟨idx, e, ro, hplaced, hro, -⟩ := Fs.placed_createInternal hnorm hcreate
    dsimp only [Except.map]
    by_cases hi : i = idx
    · subst hi
      obtain rfl : e = f := Option.some.inj (hplaced.row.symm.trans hf)
      obtain ⟨hname, hwritable⟩ := hplaced.held hused
      have hfirst := (hplaced.findIdx?_iff hf hused).mp hplaced.findIdx?_named
      obtain rfl : ro = false := Bool.eq_false_iff.mpr fun h => Bool.false_ne_true (hro h)
      refine .inl ⟨⟨Fs.length_le_of_createInternal hcreate, ⟨norm, hnorm, hfirst⟩, hf, hdir,
        hwritable⟩, ?_⟩
      rw [hplaced.placed, List.getElem?_set_self (List.getElem?_eq_some_iff.mp hf).1, hdir,
        hwritable, hused, hname]
    · have hrow : r.2.files[i]? = some f := by
        rw [hplaced.placed, List.getElem?_set_ne (Ne.symm hi), hf]
      refine .inr ⟨fun hhit => ?_, hrow, fun path' => ?_⟩
      · obtain ⟨norm', hnorm', hfirst⟩ := hhit.names
        obtain rfl := Except.ok.inj (hnorm.symm.trans hnorm')
        rw [← hplaced.findIdx?_iff hf hused, hplaced.findIdx?_named] at hfirst
        exact hi (Option.some.inj hfirst).symm
      · have hnames : (∃ n, Fs.normalizePath path' cwd = .ok n ∧
            r.2.files.findIdx? (Fs.named n) = some i) ↔
            ∃ n, Fs.normalizePath path' cwd = .ok n ∧
              fs.files.findIdx? (Fs.named n) = some i := by
          simp only [hplaced.findIdx?_iff hf hused]
        exact ⟨fun h => ⟨h.fits, hnames.mp h.names, hf, h.isFile, h.writable⟩,
          fun h => ⟨h.fits, hnames.mpr h.names, hrow, h.isFile, h.writable⟩⟩

/-- Files are created over one when one of the paths hits it, and it stays otherwise. -/
theorem foldl_create_cases (cwd : Str) (data : List UInt8) (paths : List Str)
    (hf : fs.files[i]? = some f) (hused : f.used = true)
    (hdir : f.isDir = false) :
    ((∃ path ∈ paths, Hits cwd fs data.length path i f) ∧
        (paths.foldl (create cwd data) fs).files[i]? = some { f with data := data }) ∨
      ((∀ path ∈ paths, ¬ Hits cwd fs data.length path i f) ∧
        (paths.foldl (create cwd data) fs).files[i]? = some f) := by
  induction paths generalizing fs f with
  | nil => exact .inr ⟨fun path h => absurd h List.not_mem_nil, hf⟩
  | cons path paths ih =>
    rw [List.foldl_cons, List.forall_mem_cons]
    rcases create_cases hf hused hdir with ⟨hhit, hrow⟩ | ⟨hmiss, hrow, hsame⟩
    · refine .inl ⟨⟨path, List.mem_cons_self, hhit⟩, ?_⟩
      rcases ih hrow hused hdir with ⟨-, hrest⟩ | ⟨-, hrest⟩
      · exact hrest
      · exact hrest
    · rcases ih hrow hused hdir with ⟨⟨path', hmem, hhit⟩, hrest⟩ | ⟨hnone, hrest⟩
      · exact .inl ⟨⟨path', List.mem_cons_of_mem path hmem, (hsame path').mp hhit⟩, hrest⟩
      · exact .inr ⟨⟨hmiss, fun path' hmem hhit => hnone path' hmem ((hsame path').mpr hhit)⟩,
          hrest⟩

end Create

/-! ## Turns -/

theorem size_of_importPaths {paths : List Str} (h : importPaths e = some paths) :
    entrySize e ≤ maxExportFileSize := by
  unfold importPaths at h
  split at h
  · cases h
  · split at h
    · cases h
    · split at h
      · cases h
      · next hsize => exact Nat.not_lt.mp hsize

/-- A turn that imports nothing leaves the files. -/
theorem turn_of_none {t : Turn} (h : s.imports t = none) :
    (turn fails d g cwd s t).fs = s.fs := by
  cases t with
  | sector sec =>
    rw [turn]
    split
    · rfl
    · split <;> rfl
  | entry idx =>
    rw [turn]
    split
    · rfl
    · next hrun =>
      split
      · rfl
      · next hmark =>
        rw [State.imports, if_neg (by simp [hrun, hmark]), Option.map_eq_none_iff] at h
        rw [importEntry, h]

/-- A turn creates what was read of the file of an entry. -/
theorem turn_of_some (fails : ℕ → Option String) (d : Disk) (cwd : Str) {t : Turn}
    {paths : List Str} (hspc : 1 ≤ g.sectorsPerCluster)
    (h : s.imports t = some (e, paths)) : (turn fails d g cwd s t).fs =
      paths.foldl (create cwd (entryPart fails d g s.reads e)) s.fs := by
  cases t with
  | sector sec => cases h
  | entry idx =>
    rw [State.imports] at h
    split at h
    · cases h
    · next hskip =>
      obtain ⟨ps, hps, heq⟩ := Option.map_eq_some_iff.mp h
      cases heq
      simp only [Bool.or_eq_true, decide_eq_true_eq, not_or] at hskip
      have hread := (makes_exportDiskReadClusters fails d hspc
        (size_of_importPaths hps)).toOption s.reads
      have hpart : ((exportDiskReadClusters fails d g (entryCluster (s.entry idx))
          (entrySize (s.entry idx)) maxExportFileSize).outcome s.reads).1.toOption.getD [] =
          entryPart fails d g s.reads (s.entry idx) := by
        rw [hread, entryPart]
        split <;> rfl
      rw [turn, if_neg (by simp [hskip.1]), if_neg hskip.2, importEntry, hps]
      dsimp only
      rw [hpart]

/-- A turn replaces files only by complete ones exactly when it spares the others. -/
theorem keeps_iff_spares (hspc : 1 ≤ g.sectorsPerCluster) (s : State) (t : Turn) :
    Keeps fails d cwd g s t ↔ Spares fails d cwd g s t := by
  cases himport : s.imports t with
  | none =>
    refine iff_of_true (fun i f hf _ _ => .inl ?_) fun e paths h => ?_
    · rw [turn_of_none himport, hf]
    · rw [himport] at h
      cases h
  | some r =>
    obtain ⟨e, paths⟩ := r
    have hturn := turn_of_some fails d cwd hspc himport
    constructor
    · intro hkeeps e' paths' h
      obtain ⟨rfl, rfl⟩ := Prod.mk.inj (Option.some.inj (himport.symm.trans h))
      by_cases hcomplete : Complete fails d g s.reads e
      · exact .inl hcomplete
      refine .inr fun path hmem i f hhit => ?_
      have hrow : (turn fails d g cwd s t).fs.files[i]? =
          some { f with data := entryPart fails d g s.reads e } := by
        rw [hturn]
        rcases foldl_create_cases cwd (entryPart fails d g s.reads e) paths hhit.row hhit.used
          hhit.isFile with ⟨-, hrow⟩ | ⟨hnone, -⟩
        · exact hrow
        · exact absurd hhit (hnone path hmem)
      rcases hkeeps i f hhit.row hhit.used hhit.isFile with hsame | ⟨e', paths', h, hc, -⟩
      · rw [hrow] at hsame
        exact (congrArg FileEntry.data (Option.some.inj hsame)).symm
      · obtain ⟨rfl, -⟩ := Prod.mk.inj (Option.some.inj (himport.symm.trans h))
        exact absurd hc hcomplete
    · intro hspares i f hf hused hdir
      rw [hturn]
      rcases foldl_create_cases cwd (entryPart fails d g s.reads e) paths hf hused hdir with
        ⟨⟨path, hmem, hhit⟩, hrow⟩ | ⟨-, hrow⟩
      · rcases hspares e paths himport with hcomplete | hsame
        · refine .inr ⟨e, paths, himport, hcomplete, ?_⟩
          rw [hrow, entryPart, if_pos hcomplete.2]
        · refine .inl ?_
          rw [hrow, ← hsame path hmem i f hhit]
      · exact .inl hrow

/-- A boot sector that is read and accepted. -/
theorem bpb_of_getBpb {reads : ℕ} (h : (exportDiskGetBpb fails d).outcome 0 = (.ok g, reads)) :
    d.bpb = .ok g := by
  rw [exportDiskGetBpb, outcome_bind, ataReadSector, outcome_attempt] at h
  cases hfail : fails 0 with
  | some err =>
    rw [hfail] at h
    cases h
  | none =>
    rw [hfail] at h
    dsimp only at h
    rw [Disk.bpb]
    cases hparse : parseBpb (d.sectors 0) with
    | error err =>
      rw [hparse] at h
      cases h
    | ok g' =>
      rw [hparse] at h
      cases h
      rfl

/-- An import leaves every file as it is, or replaces its contents by the complete ones of a file
that was read without an error, in every turn, exactly when in every turn the file to import is
complete, or nothing with other contents than those that were read stands under its paths. -/
theorem import_keeps_iff (fails : ℕ → Option String) (d : Disk) (cwd : Str) (fs : LatencyFS) :
    AlongImport fails d cwd fs (Keeps fails d cwd) ↔
      AlongImport fails d cwd fs (Spares fails d cwd) := by
  unfold AlongImport
  split
  · rfl
  · next g reads hboot =>
    have hspc := sectorsPerCluster_pos (bpb_of_getBpb hboot)
    exact alongFold_congr (I := fun _ => True) (fun s t _ => keeps_iff_spares hspc s t)
      (fun _ _ _ _ => trivial) trivial

/-- Where every turn spares the files, every file is in the end what it was, or the complete file
of an entry. -/
theorem exportDiskAutoImport_files {fs : LatencyFS}
    (h : AlongImport fails d cwd fs (Spares fails d cwd)) {i : ℕ} {f : FileEntry}
    (hf : fs.files[i]? = some f) (hused : f.used = true) (hdir : f.isDir = false) :
    (exportDiskAutoImport fails d cwd fs).2.files[i]? = some f ∨
      ∃ g k e, d.bpb = .ok g ∧ Complete fails d g k e ∧
        (exportDiskAutoImport fails d cwd fs).2.files[i]? =
          some { f with data := entryData d g e } := by
  unfold AlongImport at h
  unfold exportDiskAutoImport
  split at h
  · exact .inl hf
  · next g reads hboot =>
    have hb := bpb_of_getBpb hboot
    have hkept := foldl_invariant
      (I := fun s => s.fs.files[i]? = some f ∨ ∃ k e, Complete fails d g k e ∧
        s.fs.files[i]? = some { f with data := entryData d g e })
      (fun s t hI hspares => ?_) (.inl hf) h
    · rcases hkept with hsame | ⟨k, e, hcomplete, hrow⟩
      · exact .inl hsame
      · exact .inr ⟨g, k, e, hb, hcomplete, hrow⟩
    · have hkeeps := (keeps_iff_spares (sectorsPerCluster_pos hb) s t).mpr hspares
      rcases hI with hrow | ⟨k, e, hcomplete, hrow⟩
      · rcases hkeeps i f hrow hused hdir with hsame | ⟨e, -, -, hcomplete, hnew⟩
        · exact .inl hsame
        · exact .inr ⟨s.reads, e, hcomplete, hnew⟩
      · rcases hkeeps i _ hrow hused hdir with hsame | ⟨e', -, -, hcomplete', hnew⟩
        · exact .inr ⟨k, e, hcomplete, hsame⟩
        · exact .inr ⟨s.reads, e', hcomplete', hnew⟩

/-- A volume with a file of one byte, `A`. -/
def smallDisk : Disk :=
  ⟨fun lba =>
    if lba = 0 then blankBoot
    else if lba = 3 then fun j => (newEntry (to83Name "A".toList) 2 1).getD j 0
    else fun _ => 0xFF, []⟩

/-- The third read fails. -/
def thirdFails (k : ℕ) : Option String := if k = 2 then some "" else none

/-- A file of the same name. -/
def smallFiles : LatencyFS := Fs.run (.new .zero) [(['/'], .write "/a".toList [7])]

/-- The read of the data fails, and the file of the same name is empty afterwards. -/
theorem smallDisk_lost :
    ¬ AlongImport thirdFails smallDisk ['/'] smallFiles (Keeps thirdFails smallDisk ['/']) := by
  have hboot : (exportDiskGetBpb thirdFails smallDisk).outcome 0 = (.ok blankBpb, 1) := rfl
  have hturns : turns blankBpb =
      .sector 0 :: .entry 0 :: (List.range 15).map fun i => .entry (i + 1) := by decide
  rw [AlongImport, hboot]
  dsimp only
  rw [hturns]
  rintro ⟨-, hkeeps, -⟩
  have hrow : smallFiles.files[0]? = some ⟨"/a".toList, [7], false, false, true⟩ := by
    decide +kernel
  have hlost : (turn thirdFails smallDisk blankBpb ['/'] (turn thirdFails smallDisk blankBpb ['/']
      (start smallFiles 1) (.sector 0)) (.entry 0)).fs.files[0]? =
      some ⟨"/a".toList, [], false, false, true⟩ := by decide +kernel
  have hentry : (turn thirdFails smallDisk blankBpb ['/'] (start smallFiles 1)
      (.sector 0)).imports (.entry 0) =
        some (newEntry (to83Name "A".toList) 2 1, ["/a".toList]) := by decide +kernel
  rcases hkeeps 0 _ hrow rfl rfl with hsame | ⟨e, paths, himport, hcomplete, -⟩
  · rw [hlost] at hsame
    exact absurd hsame (by decide)
  · obtain ⟨rfl, -⟩ := Prod.mk.inj (Option.some.inj (hentry.symm.trans himport))
    exact absurd (hcomplete.2 0 (by decide +kernel)) (by decide +kernel)

end LatencyOS.Import
