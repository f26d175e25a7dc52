import LatencyOS.Fs.Invariant

/-!
# The calls of LatencyFS, statement by statement

`Fs.LatencyFs` gives each operation as a function that fails without a state.  Here the operations
change the table in place and return from the middle, as in the kernel: what a call has changed
before it fails stays changed.  `exec_call` says that nothing ever has.
-/

namespace LatencyOS

namespace Fs

/-- Code that changes the file system in place and may return an error. -/
abbrev FsM := EStateM FsError LatencyFS

namespace FsM

/-- The answer of a function that does not look at the file system. -/
def answer {α : Type} : Except FsError α → FsM α
  | .ok a => pure a
  | .error e => throw e

/-- The first row a `for` loop over the table stops at. -/
def firstRow (p : FileEntry → Bool) : FsM (Option ℕ) := do
  return (← get).files.findIdx? p

/-- A row of the table. -/
def getRow (idx : ℕ) : FsM FileEntry := do
  return (← get).files.getD idx .empty

/-- Change a row in place. -/
def setRow (idx : ℕ) (f : FileEntry → FileEntry) : FsM Unit :=
  modify fun fs => { fs with files := fs.files.modify idx f }

/-- Pass something on to the export disk. -/
def sync (requests : List DiskSync) : FsM Unit :=
  modify fun fs => { fs with synced := fs.synced ++ requests }

variable {α β : Type} (fs : LatencyFS)

@[simp] theorem bind_apply (m : FsM α) (k : α → FsM β) : (m >>= k) fs = match m fs with
    | .ok a fs' => k a fs'
    | .error e fs' => .error e fs' := by
  change EStateM.bind m k fs = _
  rw [EStateM.bind]
  cases m fs <;> rfl

@[simp] theorem pure_apply (a : α) : (pure a : FsM α) fs = .ok a fs := rfl

@[simp] theorem throw_apply (e : FsError) : (throw e : FsM α) fs = .error e fs := rfl

@[simp] theorem get_apply : (get : FsM LatencyFS) fs = .ok fs fs := rfl

@[simp] theorem firstRow_apply (p : FileEntry → Bool) :
    firstRow p fs = .ok (fs.files.findIdx? p) fs := rfl

@[simp] theorem getRow_apply (idx : ℕ) : getRow idx fs = .ok (fs.files.getD idx .empty) fs := rfl

@[simp] theorem setRow_apply (idx : ℕ) (f : FileEntry → FileEntry) :
    setRow idx f fs = .ok () { fs with files := fs.files.modify idx f } := rfl

@[simp] theorem sync_apply (requests : List DiskSync) :
    sync requests fs = .ok () { fs with synced := fs.synced ++ requests } := rfl

end FsM

open FsM

/-- `fs_mkdir`. -/
def fsMkdir (cwd path : Str) : FsM ℕ := do
  let norm ← answer (normalizePath path cwd)
  match ← firstRow (named norm) with
  | some idx => return idx
  | none =>
    match ← firstRow (!·.used) with
    | some idx =>
      setRow idx fun f => { f with used := true, isDir := true }
      setRow idx fun f => { f with name := norm, data := [], readOnly := false }
      return idx
    | none => throw .diskFull

/-- `fs_create_internal`. -/
def fsCreateInternal (cwd name : Str) (content : List UInt8) (readOnly : Bool) : FsM ℕ :=
  if maxFileSize < content.length then throw .fileTooLarge
  else do
    let norm ← answer (normalizePath name cwd)
    match ← firstRow (named norm) with
    | some idx =>
      let file ← getRow idx
      if file.readOnly then throw .readOnly
      else do
        setRow idx fun f => { f with isDir := false }
        setRow idx fun f => { f with data := content }
        sync (if readOnly then [] else syncFile norm content)
        return idx
    | none =>
      match ← firstRow (!·.used) with
      | some idx =>
        setRow idx fun f => { f with used := true, isDir := false }
        setRow idx fun f => { f with name := norm, data := content, readOnly := readOnly }
        sync (if readOnly then [] else syncFile norm content)
        return idx
      | none => throw .diskFull

/-- `fs_write`. -/
def fsWrite (cwd name : Str) (content : List UInt8) : FsM Unit :=
  let clean := trim name
  if Vfs.isVramPath clean then do
    match Vfs.write clean content (← get).vram with
    | some vram => modify fun fs => { fs with vram := vram }
    | none => throw .diskFull
  else do
    let _ ← fsCreateInternal cwd name content false

/-- `fs_delete`. -/
def fsDelete (cwd name : Str) : FsM Unit := do
  let norm ← answer (normalizePath name cwd)
  let fs ← get
  if fs.files.any fun f => f.used && f.name != norm && below norm f.name then
    throw .directoryNotEmpty
  else
    match ← firstRow (named norm) with
    | some idx =>
      let file ← getRow idx
      if file.readOnly then throw .readOnly
      else do
        setRow idx fun _ => .empty
        sync (syncDelete norm)
    | none => throw .fileNotFound

/-- `fs_rename`. -/
def fsRename (cwd oldName newName : Str) : FsM Unit := do
  let oldNorm ← answer (normalizePath oldName cwd)
  let newNorm ← answer (normalizePath newName cwd)
  let fs ← get
  if newNorm = [] ∨ maxFilenameLen < byteLen newNorm then throw .invalidName
  else if fs.files.any (named newNorm) then throw .alreadyExists
  else
    match ← firstRow (named oldNorm) with
    | some idx =>
      let file ← getRow idx
      if file.readOnly then throw .readOnly
      else do
        setRow idx fun f => { f with name := newNorm }
        sync (syncDelete oldNorm)
        let file ← getRow idx
        sync (if file.isDir then [] else syncFile newNorm file.data)
    | none => throw .fileNotFound

/-- `fs_copy`. -/
def fsCopy (cwd srcName dstName : Str) : FsM Unit := do
  let srcNorm ← answer (normalizePath srcName cwd)
  let dstNorm ← answer (normalizePath dstName cwd)
  match read cwd srcNorm (← get) with
  | some content => fsWrite cwd dstNorm content
  | none => throw .fileNotFound

/-- A call in a current directory. -/
def call (cwd : Str) : Op → FsM Unit
  | .mkdir path => discard (fsMkdir cwd path)
  | .write name content => fsWrite cwd name content
  | .create name content readOnly => discard (fsCreateInternal cwd name content readOnly)
  | .delete name => fsDelete cwd name
  | .rename oldName newName => fsRename cwd oldName newName
  | .copy srcName dstName => fsCopy cwd srcName dstName

/-! ## The calls and the operations -/

/-- What a call does, given what the operation does: nothing, when the operation fails. -/
def outcome {α : Type} (fs : LatencyFS) : Except FsError (α × LatencyFS) →
    EStateM.Result FsError LatencyFS α
  | .ok (a, fs') => .ok a fs'
  | .error e => .error e fs

/-- The same for a call that returns nothing but success. -/
def done (fs : LatencyFS) (x : Except FsError LatencyFS) : EStateM.Result FsError LatencyFS Unit :=
  outcome fs (x.map fun fs' => ((), fs'))

variable {α β : Type} {cwd : Str} {fs : LatencyFS} {files : List FileEntry} {idx : ℕ}
  {e : FileEntry}

@[simp] theorem outcome_ok (a : α) (fs' : LatencyFS) : outcome fs (.ok (a, fs')) = .ok a fs' := rfl

@[simp] theorem outcome_error (e : FsError) :
    outcome fs (.error e : Except FsError (α × LatencyFS)) = .error e fs := rfl

theorem answer_bind {x : Except FsError α} {k : α → FsM β}
    {f : α → Except FsError (β × LatencyFS)} (h : ∀ a, k a fs = outcome fs (f a)) :
    (answer x >>= k) fs = outcome fs (x >>= f) := by
  cases x with
  | error e => rfl
  | ok a => exact h a

theorem answer_bind_done {x : Except FsError α} {k : α → FsM Unit}
    {f : α → Except FsError LatencyFS} (h : ∀ a, k a fs = done fs (f a)) :
    (answer x >>= k) fs = done fs (x >>= f) := by
  cases x with
  | error e => rfl
  | ok a => exact h a

theorem modify_eq_set (he : files[idx]? = some e) (f : FileEntry → FileEntry) :
    files.modify idx f = files.set idx (f e) := by
  obtain ⟨hlt, heq⟩ := List.getElem?_eq_some_iff.mp he
  refine List.ext_getElem? fun i => ?_
  rw [List.getElem?_modify, List.getElem?_set]
  by_cases hi : idx = i
  · subst hi
    simp [hlt, heq]
  · simp [hi]

theorem set_modify (he : files[idx]? = some e) (a : FileEntry) (f : FileEntry → FileEntry) :
    (files.set idx a).modify idx f = files.set idx (f a) := by
  have hlt := (List.getElem?_eq_some_iff.mp he).1
  rw [modify_eq_set (e := a) (by rw [List.getElem?_set_self hlt]), List.set_set]

theorem fsMkdir_apply (path : Str) : fsMkdir cwd path fs = outcome fs (mkdir cwd path fs) := by
  refine answer_bind fun norm => ?_
  simp only [bind_apply, firstRow_apply]
  cases hfind : fs.files.findIdx? (named norm) with
  | some idx => rfl
  | none =>
    simp only [bind_apply, firstRow_apply]
    cases hfree : fs.files.findIdx? (!·.used) with
    | none => rfl
    | some idx =>
      obtain ⟨e, he, -⟩ := getElem?_of_findIdx? hfree
      simp only [bind_apply, setRow_apply, pure_apply, modify_eq_set he, set_modify he, outcome_ok]

theorem fsCreateInternal_apply (name : Str) (content : List UInt8) (readOnly : Bool) :
    fsCreateInternal cwd name content readOnly fs =
      outcome fs (createInternal cwd name content readOnly fs) := by
  unfold fsCreateInternal createInternal
  split
  · rfl
  · refine answer_bind fun norm => ?_
    simp only [bind_apply, firstRow_apply]
    cases hfind : fs.files.findIdx? (named norm) with
    | some idx =>
      obtain ⟨e, he, -⟩ := getElem?_of_findIdx? hfind
      simp only [bind_apply, getRow_apply, getD_of_getElem? he]
      split
      · rfl
      · simp only [bind_apply, setRow_apply, sync_apply, pure_apply, modify_eq_set he,
          set_modify he, outcome_ok]
    | none =>
      simp only [bind_apply, firstRow_apply]
      cases hfree : fs.files.findIdx? (!·.used) with
      | none => rfl
      | some idx =>
        obtain ⟨e, he, -⟩ := getElem?_of_findIdx? hfree
        simp only [bind_apply, setRow_apply, sync_apply, pure_apply, modify_eq_set he,
          set_modify he, outcome_ok]

theorem fsWrite_apply (name : Str) (content : List UInt8) :
    fsWrite cwd name content fs = done fs (write cwd name content fs) := by
  unfold fsWrite write
  dsimp only
  split
  · simp only [bind_apply, get_apply]
    cases Vfs.write (trim name) content fs.vram <;> rfl
  · rw [bind_apply, fsCreateInternal_apply]
    cases createInternal cwd name content false fs <;> rfl

theorem fsDelete_apply (name : Str) :
    fsDelete cwd name fs = done fs (delete cwd name fs) := by
  refine answer_bind_done fun norm => ?_
  simp only [bind_apply, get_apply]
  split
  · rfl
  · simp only [bind_apply, firstRow_apply]
    cases hfind : fs.files.findIdx? (named norm) with
    | none => rfl
    | some idx =>
      obtain ⟨e, he, -⟩ := getElem?_of_findIdx? hfind
      simp only [bind_apply, getRow_apply, getD_of_getElem? he]
      split
      · rfl
      · simp only [bind_apply, setRow_apply, sync_apply, modify_eq_set he]
        rfl

theorem fsRename_apply (oldName newName : Str) :
    fsRename cwd oldName newName fs = done fs (rename cwd oldName newName fs) := by
  refine answer_bind_done fun oldNorm => answer_bind_done fun newNorm => ?_
  simp only [bind_apply, get_apply]
  split
  · rfl
  split
  · rfl
  simp only [bind_apply, firstRow_apply]
  cases hfind : fs.files.findIdx? (named oldNorm) with
  | none => rfl
  | some idx =>
    obtain ⟨e, he, -⟩ := getElem?_of_findIdx? hfind
    have hlt := (List.getElem?_eq_some_iff.mp he).1
    have hrow : (fs.files.set idx { e with name := newNorm }).getD idx .empty =
        { e with name := newNorm } := getD_of_getElem? (List.getElem?_set_self hlt)
    simp only [bind_apply, getRow_apply, getD_of_getElem? he]
    split
    · rfl
    · simp only [bind_apply, setRow_apply, sync_apply, getRow_apply, modify_eq_set he, hrow]
      rfl

theorem fsCopy_apply (srcName dstName : Str) :
    fsCopy cwd srcName dstName fs = done fs (copy cwd srcName dstName fs) := by
  refine answer_bind_done fun srcNorm => answer_bind_done fun dstNorm => ?_
  simp only [bind_apply, get_apply]
  cases read cwd srcNorm fs with
  | none => rfl
  | some content => exact fsWrite_apply dstNorm content

theorem discard_apply (m : FsM α) : (discard m) fs = match m fs with
    | .ok _ fs' => .ok () fs'
    | .error e fs' => .error e fs' := by
  change EStateM.map _ m fs = _
  rw [EStateM.map]
  cases m fs <;> rfl

/-- The code of a call does what its operation does. -/
theorem call_apply (cwd : Str) (op : Op) (fs : LatencyFS) :
    call cwd op fs = done fs (exec cwd fs op) := by
  cases op with
  | mkdir path =>
    rw [call, discard_apply, fsMkdir_apply, exec]
    cases mkdir cwd path fs <;> rfl
  | write name content => exact fsWrite_apply name content
  | create name content readOnly =>
    rw [call, discard_apply, fsCreateInternal_apply, exec]
    cases createInternal cwd name content readOnly fs <;> rfl
  | delete name => exact fsDelete_apply name
  | rename oldName newName => exact fsRename_apply oldName newName
  | copy srcName dstName => exact fsCopy_apply srcName dstName

/-- A call that returns an error, in any state, has changed nothing and has written nothing to the
export disk. -/
theorem call_error_unchanged (cwd : Str) (op : Op) (fs fs' : LatencyFS) (e : FsError)
    (h : call cwd op fs = .error e fs') : fs'.files = fs.files ∧ fs'.synced = fs.synced := by
  rw [call_apply] at h
  cases hexec : exec cwd fs op with
  | error e' =>
    rw [hexec] at h
    cases h
    exact ⟨rfl, rfl⟩
  | ok fs'' =>
    rw [hexec] at h
    cases h

/-- Deleting a file that is not there. -/
theorem missing_unchanged :
    call ['/'] (.delete "a".toList) (.new .zero) = .error .fileNotFound (.new .zero) ∧
      (LatencyFS.new .zero).files = (LatencyFS.new .zero).files ∧
      (LatencyFS.new .zero).synced = (LatencyFS.new .zero).synced := by
  have hfail : call ['/'] (.delete "a".toList) (.new .zero) =
      .error .fileNotFound (.new .zero) := rfl
  exact ⟨hfail, call_error_unchanged _ _ _ _ _ hfail⟩

end Fs

end LatencyOS
