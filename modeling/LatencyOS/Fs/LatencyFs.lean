import LatencyOS.Disk.Name
import LatencyOS.Fs.Path

/-!
# LatencyFS

The in-memory file system: a flat table of entries that carry their full paths.  Every
operation resolves its paths against the current directory and then searches the table; files
that are created, changed, renamed or deleted are passed on to the export disk.

Time stamps are left out: nothing here reads them.
-/

namespace LatencyOS

/-!
## LatencyVFS

The files under `/vram`: the frame slots and the scratch buffer of the GPU, and a text of
statistics.  A path is routed here by its spelling.
-/

def numFrameSlots : ℕ := 4
def vfsScratchSize : ℕ := 64 * 1024

def frameSize : ℕ := 1920 * 1080 * 4

/-- The memory behind the files of `/vram`. -/
structure Vram where
  slots : List (List UInt8)
  scratch : List UInt8
  scratchLen : ℕ
  slots_length : slots.length = numFrameSlots
  slot_length : ∀ slot ∈ slots, slot.length = frameSize
  scratch_length : scratch.length = vfsScratchSize
  scratchLen_le : scratchLen ≤ vfsScratchSize

/-- Write over the start of a buffer, as far as it reaches. -/
def overwrite (buf content : List UInt8) : List UInt8 :=
  content.take buf.length ++ buf.drop content.length

@[simp] theorem length_overwrite (buf content : List UInt8) :
    (overwrite buf content).length = buf.length := by
  simp only [overwrite, List.length_append, List.length_take, List.length_drop]
  omega

/-- Slots and scratch buffer filled with one byte each. -/
def Vram.filled (slotByte : ℕ → UInt8) (scratchByte : UInt8) : Vram where
  slots := (List.range numFrameSlots).map fun i => List.replicate frameSize (slotByte i)
  scratch := List.replicate vfsScratchSize scratchByte
  scratchLen := 0
  slots_length := by simp
  slot_length := by
    intro slot h
    obtain ⟨i, -, rfl⟩ := List.mem_map.mp h
    simp
  scratch_length := by simp
  scratchLen_le := Nat.zero_le _

/-- The memory as the kernel starts with it. -/
def Vram.zero : Vram := .filled (fun _ => 0) 0

/-- Write to the scratch buffer. -/
def Vram.writeScratch (v : Vram) (content : List UInt8) : Vram :=
  { v with
    scratch := overwrite v.scratch content
    scratchLen := min content.length vfsScratchSize
    scratch_length := by rw [length_overwrite, v.scratch_length]
    scratchLen_le := Nat.min_le_right _ _ }

/-- Write to a frame slot. -/
def Vram.writeSlot (v : Vram) (idx : ℕ) (content : List UInt8) : Vram :=
  { v with
    slots := v.slots.modify idx (overwrite · content)
    slots_length := by rw [List.length_modify, v.slots_length]
    slot_length := by
      intro slot h
      obtain ⟨i, hi⟩ := List.mem_iff_getElem?.mp h
      rw [List.getElem?_modify] at hi
      obtain ⟨old, hold, rfl⟩ := Option.map_eq_some_iff.mp hi
      have hlen := v.slot_length old (List.mem_of_getElem? hold)
      split
      · rw [length_overwrite, hlen]
      · exact hlen }

/-- What a name under `/vram` stands for. -/
inductive VramFile
  | stats
  | slot (idx : ℕ)
  | scratch
  deriving DecidableEq

namespace Vfs

/-- Whether a string starts with another. -/
def startsWith (s start : Str) : Bool := start.isPrefixOf s

/-- `vfs_is_vram_path`. -/
def isVramPath (path : Str) : Bool :=
  let p := trim path
  p = "/vram".toList || p = "/vram/".toList || startsWith p "/vram/".toList || p = "vram".toList ||
    startsWith p "vram/".toList

/-- `trim_start_matches("vram")`. -/
def trimVram : Str → Str
  | 'v' :: 'r' :: 'a' :: 'm' :: rest => trimVram rest
  | s => s

/-- The name of a file under the mount point. -/
def stripMount (path : Str) : Str :=
  (trimVram (path.dropWhile (· == '/'))).dropWhile (· == '/')

/-- `str::parse::<usize>`: digits behind an optional sign. -/
def parseUsize (s : Str) : Option ℕ :=
  let digits := if s.head? = some '+' then s.tail else s
  if digits = [] ∨ ¬ digits.all Char.isDigit then none
  else
    let n := digits.foldl (fun n c => 10 * n + (c.toNat - 48)) 0
    if n < 2 ^ 64 then some n else none

/-- The file a path under the mount point names. -/
def file? (path : Str) : Option VramFile :=
  let clean := stripMount path
  if clean = "stats".toList then some .stats
  else if startsWith clean "slot".toList then
    match parseUsize (clean.drop 4) with
    | some idx => if idx < numFrameSlots then some (.slot idx) else none
    | none => none
  else if clean = "scratch".toList then some .scratch
  else none

/-- The lines of `/vram/stats`. -/
def statsText : String :=
  "==================== [LatencyVFS: GPU VRAM FILE SYSTEM] ====================\n" ++
  "Mount Point: /vram/ | Backing: Physical GPU DMA Framebuffer Pool\n" ++
  "Resolution: 1920x1080 @ 32bpp | Total VRAM Slots: 8 (63.28 MB DMA Pool)\n" ++
  "Status: ACTIVE | Zero-Copy GPU Direct Access: ENABLED\n" ++
  "----------------------------------------------------------------------------\n" ++
  "Virtual Files:\n" ++
  "  /vram/slot0..slot7 : Raw RGBA32 Frame Buffer Slots (8,294,400 bytes each)\n" ++
  "  /vram/scratch      : High-Speed Zero-Copy Scratch Pad (65,536 bytes)\n" ++
  "  /vram/stats        : Telemetry & Memory Allocation Statistics\n" ++
  "----------------------------------------------------------------------------\n"

/-- `vfs_read`; the statistics are cut to the buffer they are written to. -/
def read (path : Str) (v : Vram) : Option (List UInt8) :=
  match file? path with
  | some .stats => some ((utf8 statsText.toList).take 1024)
  | some (.slot idx) => v.slots[idx]?
  | some .scratch =>
    let len := min v.scratchLen vfsScratchSize
    some (if 0 < len then v.scratch.take len else v.scratch)
  | none => none

/-- `vfs_write`; the statistics cannot be written. -/
def write (path : Str) (content : List UInt8) (v : Vram) : Option Vram :=
  match file? path with
  | some .scratch => some (v.writeScratch content)
  | some (.slot idx) => some (v.writeSlot idx content)
  | some .stats => none
  | none => none

end Vfs

/-- `FileEntry`; `data` is the part of the buffer the entry's size covers. -/
structure FileEntry where
  name : Str
  data : List UInt8
  isDir : Bool
  readOnly : Bool
  used : Bool
  deriving DecidableEq

/-- `FileEntry::empty`. -/
def FileEntry.empty : FileEntry := ⟨[], [], false, false, false⟩

/-- What is passed on to the export disk. -/
inductive DiskSync
  | file (path : Str) (content : List UInt8)
  | delete (path : Str)
  deriving DecidableEq

/-- The state of the file system. -/
structure LatencyFS where
  files : List FileEntry
  vram : Vram
  /-- The requests passed on to the export disk, oldest first. -/
  synced : List DiskSync

/-- `LatencyFS::new`. -/
def LatencyFS.new (vram : Vram) : LatencyFS := ⟨List.replicate maxFiles .empty, vram, []⟩

namespace Fs

/-- Whether a used entry has a name. -/
def named (name : Str) (f : FileEntry) : Bool := f.used && f.name == name

/-- Whether a name lies below a path. -/
def below (path name : Str) : Bool :=
  Vfs.startsWith name path && (name.drop path.length).head? == some '/'

/-- Whether a path is kept off the export disk. -/
def offDisk (path : Str) : Bool := Vfs.startsWith path "/vram".toList

/-- `export_disk_auto_sync_file`, unless the path is kept off the disk. -/
def syncFile (path : Str) (content : List UInt8) : List DiskSync :=
  if offDisk path then [] else [.file path content]

/-- `export_disk_auto_sync_delete`, unless the path is kept off the disk. -/
def syncDelete (path : Str) : List DiskSync := if offDisk path then [] else [.delete path]

/-- `fs_mkdir`. -/
def mkdir (cwd path : Str) (fs : LatencyFS) : Except FsError (ℕ × LatencyFS) := do
  let norm ← normalizePath path cwd
  match fs.files.findIdx? (named norm) with
  | some idx => .ok (idx, fs)
  | none =>
    match fs.files.findIdx? (!·.used) with
    | some idx => .ok (idx, { fs with files := fs.files.set idx ⟨norm, [], true, false, true⟩ })
    | none => .error .diskFull

/-- `fs_is_dir`. -/
def isDir (cwd path : Str) (fs : LatencyFS) : Bool :=
  let clean := trim path
  if clean = ['/'] ∨ clean = ['.'] ∨ clean = ['.', '.'] then true
  else if Vfs.isVramPath clean ∧ (clean = "/vram".toList ∨ clean = "/vram/".toList ∨
      clean = "vram".toList ∨ clean = "vram/".toList) then true
  else
    match normalizePath clean cwd with
    | .error _ => false
    | .ok norm =>
      norm == ['/'] || norm == "/vram".toList ||
        fs.files.any (fun f => f.used && f.isDir && f.name == norm) ||
        fs.files.any (fun f => f.used && below norm f.name)

/-- `fs_create_internal`. -/
def createInternal (cwd name : Str) (content : List UInt8) (readOnly : Bool) (fs : LatencyFS) :
    Except FsError (ℕ × LatencyFS) :=
  if maxFileSize < content.length then .error .fileTooLarge
  else do
    let norm ← normalizePath name cwd
    let sync := if readOnly then [] else syncFile norm content
    match fs.files.findIdx? (named norm) with
    | some idx =>
      let f := fs.files.getD idx .empty
      if f.readOnly then .error .readOnly
      else .ok (idx, { fs with
        files := fs.files.set idx { f with isDir := false, data := content }
        synced := fs.synced ++ sync })
    | none =>
      match fs.files.findIdx? (!·.used) with
      | some idx => .ok (idx, { fs with
          files := fs.files.set idx ⟨norm, content, false, readOnly, true⟩
          synced := fs.synced ++ sync })
      | none => .error .diskFull

/-- The first regular file that satisfies a condition. -/
def findFile (fs : LatencyFS) (p : FileEntry → Bool) : Option (List UInt8) :=
  (fs.files.find? fun f => f.used && !f.isDir && p f).map (·.data)

/-- `fs_read`: the file itself, else one with the same last part, else one with the same 8.3
name. -/
def read (cwd name : Str) (fs : LatencyFS) : Option (List UInt8) :=
  let clean := trim name
  if clean = [] then none
  else if Vfs.isVramPath clean then Vfs.read clean fs.vram
  else
    match normalizePath clean cwd with
    | .error _ => none
    | .ok norm =>
      findFile fs (·.name == norm) <|>
      findFile fs (fun f => '/' ∈ f.name && afterLast '/' f.name == clean) <|>
      findFile fs (to83Name ·.name == to83Name clean)

/-- `fs_write`. -/
def write (cwd name : Str) (content : List UInt8) (fs : LatencyFS) : Except FsError LatencyFS :=
  let clean := trim name
  if Vfs.isVramPath clean then
    match Vfs.write clean content fs.vram with
    | some vram => .ok { fs with vram := vram }
    | none => .error .diskFull
  else (createInternal cwd name content false fs).map (·.2)

/-- `fs_delete`. -/
def delete (cwd name : Str) (fs : LatencyFS) : Except FsError LatencyFS := do
  let norm ← normalizePath name cwd
  if fs.files.any fun f => f.used && f.name != norm && below norm f.name then
    .error .directoryNotEmpty
  else
    match fs.files.findIdx? (named norm) with
    | some idx =>
      if (fs.files.getD idx .empty).readOnly then .error .readOnly
      else .ok { fs with
        files := fs.files.set idx .empty
        synced := fs.synced ++ syncDelete norm }
    | none => .error .fileNotFound

/-- `fs_rename`. -/
def rename (cwd oldName newName : Str) (fs : LatencyFS) : Except FsError LatencyFS := do
  let oldNorm ← normalizePath oldName cwd
  let newNorm ← normalizePath newName cwd
  if newNorm = [] ∨ maxFilenameLen < byteLen newNorm then .error .invalidName
  else if fs.files.any (named newNorm) then .error .alreadyExists
  else
    match fs.files.findIdx? (named oldNorm) with
    | some idx =>
      let f := fs.files.getD idx .empty
      if f.readOnly then .error .readOnly
      else .ok { fs with
        files := fs.files.set idx { f with name := newNorm }
        synced := fs.synced ++ syncDelete oldNorm ++
          (if f.isDir then [] else syncFile newNorm f.data) }
    | none => .error .fileNotFound

/-- `fs_copy`. -/
def copy (cwd srcName dstName : Str) (fs : LatencyFS) : Except FsError LatencyFS := do
  let srcNorm ← normalizePath srcName cwd
  let dstNorm ← normalizePath dstName cwd
  match read cwd srcNorm fs with
  | some content => write cwd dstNorm content fs
  | none => .error .fileNotFound

/-! ## Runs -/

/-- The operations of the file system. -/
inductive Op
  | mkdir (path : Str)
  | write (name : Str) (content : List UInt8)
  | create (name : Str) (content : List UInt8) (readOnly : Bool)
  | delete (name : Str)
  | rename (oldName newName : Str)
  | copy (srcName dstName : Str)

/-- One operation in a current directory. -/
def exec (cwd : Str) (fs : LatencyFS) : Op → Except FsError LatencyFS
  | .mkdir path => (mkdir cwd path fs).map (·.2)
  | .write name content => write cwd name content fs
  | .create name content readOnly => (createInternal cwd name content readOnly fs).map (·.2)
  | .delete name => delete cwd name fs
  | .rename oldName newName => rename cwd oldName newName fs
  | .copy srcName dstName => copy cwd srcName dstName fs

/-- The state after an operation; one that fails leaves it as it was. -/
def step (fs : LatencyFS) (call : Str × Op) : LatencyFS :=
  match exec call.1 fs call.2 with
  | .ok fs' => fs'
  | .error _ => fs

/-- The state after some operations. -/
def run (fs : LatencyFS) (calls : List (Str × Op)) : LatencyFS := calls.foldl step fs

end Fs

end LatencyOS
