import LatencyOS.Disk.Name
import Mathlib.Logic.Function.Basic

/-!
# The FAT16 export disk

The disk is a map from sector numbers to sectors.  Sectors are read and written whole; the
functions below read, change and write them as the kernel does.  Sector numbers are computed
without bound here; `Geometry` shows that those of an accepted boot sector stay within the 28
bits the disk takes.
-/

namespace LatencyOS

/-- The 512 bytes of a sector. -/
abbrev Sector := ℕ → UInt8

/-- What a write is meant for. -/
inductive Area
  | fat | root | data
  deriving DecidableEq

/-- A disk, with the writes made so far. -/
structure Disk where
  sectors : ℕ → Sector
  /-- What was written where; not part of the disk. -/
  log : List (Area × ℕ)

/-- `ata_write_sector`. -/
def Disk.write (d : Disk) (area : Area) (lba : ℕ) (s : Sector) : Disk :=
  ⟨Function.update d.sectors lba s, d.log ++ [(area, lba)]⟩

/-- `u16::from_le_bytes`. -/
def le16 (lo hi : UInt8) : ℕ := lo.toNat + 256 * hi.toNat

/-- `u32::from_le_bytes`. -/
def le32 (b₀ b₁ b₂ b₃ : UInt8) : ℕ := le16 b₀ b₁ + 65536 * le16 b₂ b₃

/-- `to_le_bytes` of a 16-bit number. -/
def toLe16 (n : ℕ) : List UInt8 := [UInt8.ofNat n, UInt8.ofNat (n / 256)]

/-- `to_le_bytes` of a 32-bit number. -/
def toLe32 (n : ℕ) : List UInt8 := toLe16 n ++ toLe16 (n / 65536)

def sectorSize : ℕ := 512

/-- `Fat16Bpb`, without the fields that follow from the others. -/
structure Fat16Bpb where
  sectorsPerCluster : ℕ
  reservedSectors : ℕ
  numFats : ℕ
  rootDirEntries : ℕ
  totalSectors : ℕ
  fatSizeSectors : ℕ
  deriving DecidableEq

namespace Fat16Bpb

variable (g : Fat16Bpb)

def rootDirStartLba : ℕ := g.reservedSectors + g.numFats * g.fatSizeSectors

def rootDirSectors : ℕ := (g.rootDirEntries * 32 + 511) / 512

def dataStartLba : ℕ := g.rootDirStartLba + g.rootDirSectors

def totalDataClusters : ℕ := (g.totalSectors - g.dataStartLba) / g.sectorsPerCluster

end Fat16Bpb

/-- `parse_bpb`. -/
def parseBpb (s : Sector) : Except String Fat16Bpb :=
  if s 510 ≠ 0x55 ∨ s 511 ≠ 0xAA then .error "Invalid boot sector signature (0x55AA missing)"
  else if le16 (s 11) (s 12) ≠ 512 then
    .error "Unsupported sector size (only 512 bytes supported)"
  else if s 13 = 0 then .error "Invalid sectors per cluster (0)"
  else
    let sectors16 := le16 (s 19) (s 20)
    .ok {
      sectorsPerCluster := (s 13).toNat
      reservedSectors := le16 (s 14) (s 15)
      numFats := (s 16).toNat
      rootDirEntries := le16 (s 17) (s 18)
      totalSectors := if sectors16 ≠ 0 then sectors16 else le32 (s 32) (s 33) (s 34) (s 35)
      fatSizeSectors := le16 (s 22) (s 23) }

namespace Disk

/-- `export_disk_get_bpb`, of the disk that is attached. -/
def bpb (d : Disk) : Except String Fat16Bpb := parseBpb (d.sectors 0)

variable (d : Disk) (g : Fat16Bpb)

/-! ## The file allocation table -/

/-- The sector of a table entry in the first FAT. -/
def fatSector (g : Fat16Bpb) (c : ℕ) : ℕ := g.reservedSectors + c * 2 / sectorSize

/-- The place of a table entry in its sector. -/
def fatOffset (c : ℕ) : ℕ := c * 2 % sectorSize

/-- The table entry of a cluster, in the first FAT. -/
def fatVal (c : ℕ) : ℕ :=
  let s := d.sectors (fatSector g c)
  le16 (s (fatOffset c)) (s (fatOffset c + 1))

/-- Change a table entry: its sector is written to the first FAT and to the second. -/
def setFat (c val : ℕ) : Disk :=
  let s := Function.update (Function.update (d.sectors (fatSector g c)) (fatOffset c)
    (UInt8.ofNat val)) (fatOffset c + 1) (UInt8.ofNat (val / 256))
  (d.write .fat (fatSector g c) s).write .fat (fatSector g c + g.fatSizeSectors) s

/-! ## The root directory -/

/-- The sector of a directory entry. -/
def rootSector (g : Fat16Bpb) (k : ℕ) : ℕ := g.rootDirStartLba + k / 16

/-- The 32 bytes of a directory entry. -/
def entry (k : ℕ) : List UInt8 :=
  (List.range 32).map fun j => d.sectors (rootSector g k) (k % 16 * 32 + j)

/-- Replace a directory entry. -/
def setEntry (k : ℕ) (e : List UInt8) : Disk :=
  d.write .root (rootSector g k) fun i =>
    if i / 32 = k % 16 then e.getD (i % 32) 0 else d.sectors (rootSector g k) i

end Disk

/-- The name in a directory entry. -/
def entryName (e : List UInt8) : List UInt8 := e.take 11

/-- The first byte of a directory entry: 0 in an unused one, 0xE5 in a deleted one. -/
def entryMark (e : List UInt8) : UInt8 := e.getD 0 0

/-- The first cluster in a directory entry. -/
def entryCluster (e : List UInt8) : ℕ := le16 (e.getD 26 0) (e.getD 27 0)

/-- The file size in a directory entry. -/
def entrySize (e : List UInt8) : ℕ :=
  le32 (e.getD 28 0) (e.getD 29 0) (e.getD 30 0) (e.getD 31 0)

/-- Whether an entry is neither deleted nor part of a long name. -/
def entryListed (e : List UInt8) : Bool :=
  entryMark e != 0xE5 && e.getD 11 0 &&& 0x0F != 0x0F

/-- A live entry: one that is used and listed. -/
def entryLive (e : List UInt8) : Bool := entryMark e != 0 && entryListed e

namespace Disk

variable (d : Disk) (g : Fat16Bpb)

/-- The entries of one sector of the root directory, up to the first unused one. -/
def scanSector (name83 : List UInt8) (sec : ℕ) : Option ℕ :=
  (((List.range 16).map (sec * 16 + ·)).takeWhile fun k => entryMark (d.entry g k) != 0).find?
    fun k => entryListed (d.entry g k) && entryName (d.entry g k) == name83

/-- The entry with a name, as reading and deleting look for it: an unused entry ends the scan
of its sector only. -/
def findEntry (name83 : List UInt8) : Option ℕ :=
  (List.range g.rootDirSectors).findSome? (d.scanSector g name83)

/-! ## Reading -/

/-- The first sector of a cluster. -/
def clusterLba (g : Fat16Bpb) (c : ℕ) : ℕ := g.dataStartLba + (c - 2) * g.sectorsPerCluster

/-- The bytes of a sector. -/
def sectorBytes (s : Sector) : List UInt8 := (List.range sectorSize).map s

/-- The bytes of a cluster. -/
def clusterBytes (c : ℕ) : List UInt8 :=
  (List.range g.sectorsPerCluster).flatMap fun s => sectorBytes (d.sectors (clusterLba g c + s))

/-- The cluster numbers that end a walk through the table. -/
def Ends (c : ℕ) : Prop := ¬ (2 ≤ c ∧ c < 0xFFF8)

instance (c : ℕ) : Decidable (Ends c) := inferInstanceAs (Decidable (¬ _))

/-- `export_disk_read_clusters`, with the number of bytes left to read; every turn of the loop
reads some. -/
def readClusters : ℕ → ℕ → ℕ → List UInt8
  | 0, _, _ => []
  | n + 1, c, left =>
    if Ends c ∨ left = 0 then []
    else
      let chunk := (d.clusterBytes g c).take left
      chunk ++ readClusters n (d.fatVal g c) (left - chunk.length)

/-- `export_disk_read_file` into a buffer of some size. -/
def readFile (name : Str) (bufSize : ℕ) : Except String (List UInt8) := do
  let g ← d.bpb
  match d.findEntry g (to83Name name) with
  | none => .error "File not found on Export Disk"
  | some k =>
    let e := d.entry g k
    let want := min (entrySize e) bufSize
    if entrySize e = 0 ∨ entryCluster e < 2 then .ok []
    else .ok (d.readClusters g want (entryCluster e) want)

/-! ## Deleting -/

/-- Some turns of the loop that frees a chain: the disk and the cluster that comes next. -/
def freeTurns (g : Fat16Bpb) : ℕ → Disk → ℕ → Disk × ℕ
  | 0, d, c => (d, c)
  | n + 1, d, c => if Ends c then (d, c) else freeTurns g n (d.setFat g c 0) (d.fatVal g c)

/-- Free a chain; nothing if the walk has not ended within a number of turns. -/
def freeChain (g : Fat16Bpb) (n : ℕ) (d : Disk) (c : ℕ) : Option Disk :=
  let r := freeTurns g n d c
  if Ends r.2 then some r.1 else none

/-- `export_disk_delete_file`, with a bound on the walk: a file that is not there is no error. -/
def deleteFileN (fuel : ℕ) (name : Str) : Option (Except String Unit × Disk) :=
  match d.bpb with
  | .error msg => some (.error msg, d)
  | .ok g =>
    match d.findEntry g (to83Name name) with
    | none => some (.ok (), d)
    | some k =>
      let e := d.entry g k
      (freeChain g fuel (d.setEntry g k (e.set 0 0xE5)) (entryCluster e)).map fun d' => (.ok (), d')

/-! ## Writing -/

/-- How a write ends. -/
inductive WriteResult
  | ok (len : ℕ)
  | error (msg : String)
  | panic
  deriving DecidableEq

/-- The clusters a file of some size needs. -/
def neededClusters (g : Fat16Bpb) (len : ℕ) : ℕ :=
  let clusterSize := g.sectorsPerCluster * sectorSize
  if len = 0 then 1 else (len + clusterSize - 1) / clusterSize

/-- The end of the range of cluster numbers, in 16 bits; a checked build panics on overflow. -/
def clusterEnd (checks : Bool) (g : Fat16Bpb) : Option ℕ :=
  let count := g.totalDataClusters % 65536
  if checks ∧ 65536 ≤ count + 2 then none else some ((count + 2) % 65536)

/-- The free clusters below a number, in order. -/
def freeClusters (stop : ℕ) : List ℕ :=
  (List.range' 2 (stop - 2)).filter fun c => d.fatVal g c == 0

/-- A sector that starts with some bytes and is zero behind them. -/
def padSector (data : List UInt8) : Sector := fun i => (data.take sectorSize).getD i 0

/-- Write data to some sectors, 512 bytes to each. -/
def writeData (d : Disk) : List ℕ → List UInt8 → Disk
  | [], _ => d
  | lba :: lbas, data => writeData (d.write .data lba (padSector data)) lbas (data.drop sectorSize)

/-- The sectors of some clusters, in order. -/
def clusterSectors (g : Fat16Bpb) (clusters : List ℕ) : List ℕ :=
  clusters.flatMap fun c => (List.range g.sectorsPerCluster).map (clusterLba g c + ·)

/-- Link clusters in both FATs, the last one to the end marker. -/
def linkClusters (g : Fat16Bpb) : Disk → List ℕ → Disk
  | d, [] => d
  | d, [c] => d.setFat g c 0xFFFF
  | d, c :: c' :: rest => linkClusters g (d.setFat g c c') (c' :: rest)

/-- The entry a file is written to: the first that has its name, is unused or is deleted. -/
def findSlot (name83 : List UInt8) : Option ℕ :=
  (List.range (g.rootDirSectors * 16)).find? fun k =>
    entryName (d.entry g k) == name83 || entryMark (d.entry g k) == 0 ||
      entryMark (d.entry g k) == 0xE5

/-- The directory entry of a file. -/
def newEntry (name83 : List UInt8) (cluster len : ℕ) : List UInt8 :=
  name83 ++ [0x20] ++ List.replicate 14 0 ++ toLe16 cluster ++ toLe32 len

/-- `export_disk_write_file`. -/
def writeFile (checks : Bool) (name : Str) (data : List UInt8) : WriteResult × Disk :=
  match d.bpb with
  | .error msg => (.error msg, d)
  | .ok g =>
    let needed := neededClusters g data.length
    if 64 < needed then
      (.error "File size exceeds static cluster allocation limit (128KB)", d)
    else
      match clusterEnd checks g with
      | none => (.panic, d)
      | some stop =>
        let clusters := (d.freeClusters g stop).take needed
        if clusters.length < needed then (.error "Not enough free space on Export Disk", d)
        else
          let d := linkClusters g (d.writeData (clusterSectors g clusters) data) clusters
          match d.findSlot g (to83Name name) with
          | none => (.error "Root directory is full on Export Disk", d)
          | some k =>
            (.ok data.length,
              d.setEntry g k (newEntry (to83Name name) (clusters.headD 0) data.length))

end Disk

end LatencyOS
