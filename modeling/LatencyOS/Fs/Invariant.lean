import LatencyOS.Fs.LatencyFs

/-!
# The representation of LatencyFS

What an operation can do to the table is said once, in `Change`; the invariants follow from it.
Names are unique, short and normal, and sizes are bounded, after any operations that do not
name the root itself.
-/

namespace LatencyOS

namespace Fs

/-- The path of the entry an operation creates, changes or renames to. -/
def target (cwd : Str) : Op → Option Str
  | .mkdir path => (normalizePath path cwd).toOption
  | .write name _ =>
    if Vfs.isVramPath (trim name) then none else (normalizePath name cwd).toOption
  | .create name _ _ => (normalizePath name cwd).toOption
  | .delete _ => none
  | .rename _ newName => (normalizePath newName cwd).toOption
  | .copy _ dstName =>
    match normalizePath dstName cwd with
    | .ok dst => if Vfs.isVramPath (trim dst) then none else (normalizePath dst cwd).toOption
    | .error _ => none

/-- What an operation creates: a directory or a regular file. -/
def Op.makes : Op → Option Bool
  | .mkdir _ => some true
  | .write _ _ | .create _ _ _ | .copy _ _ => some false
  | .delete _ | .rename _ _ => none

/-- What an operation does to the table. -/
inductive Change (cwd : Str) (op : Op) (files files' : List FileEntry) : Prop
  /-- Nothing. -/
  | same (h : files' = files)
  /-- A used entry gets new contents. -/
  | fill (idx : ℕ) (e : FileEntry) (content : List UInt8) (he : files[idx]? = some e)
    (hused : e.used = true) (hname : target cwd op = some e.name)
    (hop : op.makes = some false) (hlen : content.length ≤ maxFileSize)
    (h : files' = files.set idx { e with isDir := false, data := content })
  /-- An unused entry is taken for a new name. -/
  | insert (idx : ℕ) (e e' : FileEntry) (he : files[idx]? = some e) (hfree : e.used = false)
    (hname : target cwd op = some e'.name) (hnew : ∀ f ∈ files, named e'.name f = false)
    (hop : op.makes = some e'.isDir) (hlen : e'.data.length ≤ maxFileSize)
    (h : files' = files.set idx e')
  /-- An entry is deleted. -/
  | clear (idx : ℕ) (name : Str) (hop : op = .delete name) (h : files' = files.set idx .empty)
  /-- A used entry gets a new name. -/
  | rename (idx : ℕ) (e : FileEntry) (oldName newName norm : Str)
    (hop : op = .rename oldName newName) (he : files[idx]? = some e) (hused : e.used = true)
    (hold : normalizePath oldName cwd = .ok e.name) (hname : target cwd op = some norm)
    (hnew : ∀ f ∈ files, named norm f = false) (h : files' = files.set idx { e with name := norm })

theorem named_iff {name : Str} {f : FileEntry} :
    named name f = true ↔ f.used = true ∧ f.name = name := by
  simp [named]

/-- What a search of the table finds. -/
theorem getElem?_of_findIdx? {α : Type} {l : List α} {p : α → Bool} {idx : ℕ}
    (h : l.findIdx? p = some idx) : ∃ a, l[idx]? = some a ∧ p a = true := by
  obtain ⟨hlt, hp, -⟩ := List.findIdx?_eq_some_iff_getElem.mp h
  exact ⟨l[idx], List.getElem?_eq_getElem hlt, hp⟩

theorem getD_of_getElem? {α : Type} {l : List α} {idx : ℕ} {a d : α} (h : l[idx]? = some a) :
    l.getD idx d = a := by
  simp [List.getD, h]

theorem toOption_eq_some {ε α : Type} {x : Except ε α} {a : α} (h : x = .ok a) :
    x.toOption = some a := by
  rw [h]
  rfl

variable {cwd : Str} {fs fs' : LatencyFS}

/-- A successful step of a computation that may fail. -/
theorem bind_eq_ok {ε α β : Type} {x : Except ε α} {f : α → Except ε β} {b : β}
    (h : (x >>= f) = .ok b) : ∃ a, x = .ok a ∧ f a = .ok b := by
  cases x with
  | error e => cases h
  | ok a => exact ⟨a, rfl, h⟩

theorem map_eq_ok {ε α β : Type} {x : Except ε α} {f : α → β} {b : β}
    (h : x.map f = .ok b) : ∃ a, x = .ok a ∧ f a = b := by
  cases x with
  | error e => cases h
  | ok a =>
    cases h
    exact ⟨a, rfl, rfl⟩

/-- Nothing has a name that a search does not find. -/
theorem named_of_findIdx?_none {files : List FileEntry} {name : Str}
    (h : files.findIdx? (named name) = none) : ∀ f ∈ files, named name f = false := by
  simpa using h

theorem change_mkdir {path : Str} {idx : ℕ} (h : mkdir cwd path fs = .ok (idx, fs')) :
    Change cwd (.mkdir path) fs.files fs'.files := by
  obtain ⟨norm, hnorm, h⟩ := bind_eq_ok h
  cases hfind : fs.files.findIdx? (named norm) with
  | some i =>
    rw [hfind] at h
    cases h
    exact .same rfl
  | none =>
    rw [hfind] at h
    cases hfree : fs.files.findIdx? (!·.used) with
    | none =>
      rw [hfree] at h
      cases h
    | some i =>
      rw [hfree] at h
      cases h
      obtain ⟨e, he, hused⟩ := getElem?_of_findIdx? hfree
      exact .insert _ e _ he (by simpa using hused) (toOption_eq_some hnorm)
        (named_of_findIdx?_none hfind) rfl (Nat.zero_le _) rfl

/-- Creating a file, on behalf of any operation with that target. -/
theorem change_createInternal {op : Op} {name norm : Str} {content : List UInt8} {ro : Bool}
    {idx : ℕ} (hnorm : normalizePath name cwd = .ok norm) (htarget : target cwd op = some norm)
    (hop : op.makes = some false)
    (h : createInternal cwd name content ro fs = .ok (idx, fs')) :
    Change cwd op fs.files fs'.files := by
  unfold createInternal at h
  split at h
  · cases h
  · next hlen =>
    have hsize : content.length ≤ maxFileSize := Nat.not_lt.mp hlen
    obtain ⟨norm', hnorm', h⟩ := bind_eq_ok h
    rw [hnorm] at hnorm'
    cases hnorm'
    dsimp only at h
    cases hfind : fs.files.findIdx? (named norm) with
    | some i =>
      obtain ⟨e, he, hnamed⟩ := getElem?_of_findIdx? hfind
      obtain ⟨hused, hname⟩ := named_iff.mp hnamed
      rw [hfind] at h
      simp only [getD_of_getElem? he] at h
      split at h
      · cases h
      · cases h
        exact .fill _ e content he hused (by rw [hname, htarget]) hop hsize rfl
    | none =>
      rw [hfind] at h
      cases hfree : fs.files.findIdx? (!·.used) with
      | none =>
        rw [hfree] at h
        cases h
      | some i =>
        rw [hfree] at h
        cases h
        obtain ⟨e, he, hused⟩ := getElem?_of_findIdx? hfree
        exact .insert _ e _ he (by simpa using hused) htarget (named_of_findIdx?_none hfind)
          hop hsize rfl

theorem normalizePath_of_createInternal {name : Str} {content : List UInt8} {ro : Bool}
    {r : ℕ × LatencyFS} (h : createInternal cwd name content ro fs = .ok r) :
    ∃ norm, normalizePath name cwd = .ok norm := by
  unfold createInternal at h
  split at h
  · cases h
  · obtain ⟨norm, hnorm, -⟩ := bind_eq_ok h
    exact ⟨norm, hnorm⟩

/-- Writing a file, on behalf of any operation with the targets of the write. -/
theorem change_write {op : Op} {name : Str} {content : List UInt8}
    (htarget : target cwd op =
      if Vfs.isVramPath (trim name) then none else (normalizePath name cwd).toOption)
    (hop : op.makes = some false) (h : write cwd name content fs = .ok fs') :
    Change cwd op fs.files fs'.files := by
  simp only [write] at h
  split at h
  · split at h
    · cases h
      exact .same rfl
    · cases h
  · next hvram =>
    obtain ⟨⟨idx, r⟩, hcreate, hr⟩ := map_eq_ok h
    cases hr
    obtain ⟨norm, hnorm⟩ := normalizePath_of_createInternal hcreate
    refine change_createInternal hnorm ?_ hop hcreate
    rw [htarget, if_neg hvram]
    exact toOption_eq_some hnorm

theorem change_delete {name : Str} (h : delete cwd name fs = .ok fs') :
    Change cwd (.delete name) fs.files fs'.files := by
  obtain ⟨norm, hnorm, h⟩ := bind_eq_ok h
  split at h
  · cases h
  · split at h
    · split at h
      · cases h
      · cases h
        exact .clear _ name rfl rfl
    · cases h

/-- A rename that succeeds has given one row a name that no row had. -/
theorem renamed_of_ok {oldName newName : Str} (h : rename cwd oldName newName fs = .ok fs') :
    ∃ oldNorm newNorm idx e, normalizePath oldName cwd = .ok oldNorm ∧
      normalizePath newName cwd = .ok newNorm ∧ fs.files[idx]? = some e ∧ e.used = true ∧
      e.name = oldNorm ∧ (∀ f ∈ fs.files, named newNorm f = false) ∧
      fs'.files = fs.files.set idx { e with name := newNorm } := by
  obtain ⟨oldNorm, hold, h⟩ := bind_eq_ok h
  obtain ⟨newNorm, hnew, h⟩ := bind_eq_ok h
  split at h
  · cases h
  split at h
  · cases h
  next hfresh =>
  cases hfind : fs.files.findIdx? (named oldNorm) with
  | none =>
    rw [hfind] at h
    cases h
  | some i =>
    obtain ⟨e, he, hnamed⟩ := getElem?_of_findIdx? hfind
    obtain ⟨hused, hname⟩ := named_iff.mp hnamed
    rw [hfind] at h
    simp only [getD_of_getElem? he] at h
    split at h
    · cases h
    · cases h
      exact ⟨oldNorm, newNorm, i, e, hold, hnew, he, hused, hname, by simpa using hfresh, rfl⟩

theorem change_rename {oldName newName : Str} (h : rename cwd oldName newName fs = .ok fs') :
    Change cwd (.rename oldName newName) fs.files fs'.files := by
  obtain ⟨oldNorm, newNorm, i, e, hold, hnew, he, hused, hname, hfresh, hfiles⟩ := renamed_of_ok h
  exact .rename i e oldName newName newNorm rfl he hused (by rw [hname, hold])
    (toOption_eq_some hnew) hfresh hfiles

theorem change_copy {srcName dstName : Str} (h : copy cwd srcName dstName fs = .ok fs') :
    Change cwd (.copy srcName dstName) fs.files fs'.files := by
  obtain ⟨srcNorm, -, h⟩ := bind_eq_ok h
  obtain ⟨dstNorm, hdst, h⟩ := bind_eq_ok h
  split at h
  · refine change_write ?_ rfl h
    simp only [target, hdst]
  · cases h

/-- Every operation changes the table in one of these ways. -/
theorem change_step (fs : LatencyFS) (call : Str × Op) :
    Change call.1 call.2 fs.files (step fs call).files := by
  obtain ⟨cwd, op⟩ := call
  simp only [step]
  cases h : exec cwd fs op with
  | error e => exact .same rfl
  | ok fs' =>
    cases op with
    | mkdir path =>
      obtain ⟨⟨idx, r⟩, hmk, hr⟩ := map_eq_ok h
      cases hr
      exact change_mkdir hmk
    | write name content => exact change_write rfl rfl h
    | create name content ro =>
      obtain ⟨⟨idx, r⟩, hcreate, hr⟩ := map_eq_ok h
      cases hr
      obtain ⟨norm, hnorm⟩ := normalizePath_of_createInternal hcreate
      exact change_createInternal hnorm (toOption_eq_some hnorm) rfl hcreate
    | delete name => exact change_delete h
    | rename oldName newName => exact change_rename h
    | copy srcName dstName => exact change_copy h

/-! ## The representation invariant -/

/-- No two used entries have the same name. -/
def Unique (files : List FileEntry) : Prop :=
  ∀ (i j : ℕ) (e f : FileEntry), files[i]? = some e → files[j]? = some f → e.used = true →
    f.used = true → e.name = f.name → i = j

/-- What the claim of the table's fields is, with the root as a name allowed or not. -/
structure RepInvariant (files : List FileEntry) : Prop where
  unique : Unique files
  path : ∀ f ∈ files, f.used = true → AbsPath f.name
  utf8 : ∀ f ∈ files, f.used = true → (utf8 f.name).toByteArray.IsValidUTF8
  short : ∀ f ∈ files, f.used = true → byteLen f.name ≤ 63
  size : ∀ f ∈ files, f.data.length ≤ maxFileSize

theorem isValidUTF8_utf8 (s : Str) : (utf8 s).toByteArray.IsValidUTF8 :=
  ByteArray.isValidUTF8_utf8Encode

/-- The entries of a table after one of them is replaced. -/
theorem getElem?_set_cases {α : Type} {l : List α} {idx i : ℕ} {a b : α}
    (h : (l.set idx a)[i]? = some b) : (i = idx ∧ b = a) ∨ (i ≠ idx ∧ l[i]? = some b) := by
  by_cases hi : i = idx
  · subst hi
    rw [List.getElem?_set] at h
    simp only [if_true] at h
    split at h
    · cases h
      exact .inl ⟨rfl, rfl⟩
    · cases h
  · rw [List.getElem?_set_ne (Ne.symm hi)] at h
    exact .inr ⟨hi, h⟩

/-- A replaced entry whose name no other used entry has keeps names unique. -/
theorem Unique.set {files : List FileEntry} (h : Unique files) {idx : ℕ} {e : FileEntry}
    (hfresh : ∀ i f, i ≠ idx → files[i]? = some f → f.used = true → e.used = true →
      f.name ≠ e.name) : Unique (files.set idx e) := by
  intro i j a b ha hb hua hub hname
  rcases getElem?_set_cases ha with ⟨rfl, rfl⟩ | ⟨hi, ha'⟩
  · rcases getElem?_set_cases hb with ⟨rfl, rfl⟩ | ⟨hj, hb'⟩
    · rfl
    · exact absurd hname.symm (hfresh j b hj hb' hub hua)
  · rcases getElem?_set_cases hb with ⟨rfl, rfl⟩ | ⟨hj, hb'⟩
    · exact absurd hname (hfresh i a hi ha' hua hub)
    · exact h i j a b ha' hb' hua hub hname

theorem ne_of_named_false {files : List FileEntry} {name : Str}
    (h : ∀ f ∈ files, named name f = false) {i : ℕ} {f : FileEntry} (hf : files[i]? = some f)
    (hused : f.used = true) : f.name ≠ name := by
  intro heq
  have hno := h f (List.mem_of_getElem? hf)
  rw [named_iff.mpr ⟨hused, heq⟩] at hno
  cases hno

/-- Every operation keeps names unique. -/
theorem Change.unique {op : Op} {files files' : List FileEntry}
    (h : Change cwd op files files') (hu : Unique files) : Unique files' := by
  cases h with
  | same h => rwa [h]
  | fill idx e content he hused hname hop hlen h =>
    rw [h]
    refine hu.set fun i f hi hf hfu _ heq => ?_
    exact hi (hu i idx f e hf he hfu hused heq)
  | insert idx e e' he hfree hname hnew hop hlen h =>
    rw [h]
    exact hu.set fun i f _ hf hfu _ => ne_of_named_false hnew hf hfu
  | clear idx name hop h =>
    rw [h]
    exact hu.set fun _ _ _ _ _ hused => absurd hused (by decide)
  | rename idx e oldName newName norm hop he hused hold hname hnew h =>
    rw [h]
    exact hu.set fun i f _ hf hfu _ => ne_of_named_false hnew hf hfu

theorem unique_run (hu : Unique fs.files) (calls : List (Str × Op)) :
    Unique (run fs calls).files := by
  induction calls generalizing fs with
  | nil => exact hu
  | cons call calls ih => exact ih ((change_step fs call).unique hu)

/-- What holds of every entry holds after one is replaced by an entry of which it holds. -/
theorem forall_mem_set {α : Type} {P : α → Prop} {l : List α} (h : ∀ a ∈ l, P a) {idx : ℕ} {a : α}
    (ha : P a) : ∀ b ∈ l.set idx a, P b := by
  intro b hb
  rcases List.mem_or_eq_of_mem_set hb with hb | rfl
  · exact h b hb
  · exact ha

/-- A property of used names that every target has is kept. -/
theorem Change.names {P : Str → Prop} {op : Op} {files files' : List FileEntry}
    (h : Change cwd op files files') (htarget : ∀ name, target cwd op = some name → P name)
    (hP : ∀ f ∈ files, f.used = true → P f.name) : ∀ f ∈ files', f.used = true → P f.name := by
  cases h with
  | same h => rwa [h]
  | fill idx e content he hused hname hop hlen h =>
    rw [h]
    exact forall_mem_set hP fun _ => htarget _ hname
  | insert idx e e' he hfree hname hnew hop hlen h =>
    rw [h]
    exact forall_mem_set hP fun _ => htarget _ hname
  | clear idx name hop h =>
    rw [h]
    exact forall_mem_set hP fun hused => absurd hused (by decide)
  | rename idx e oldName newName norm hop he hused hold hname hnew h =>
    rw [h]
    exact forall_mem_set hP fun _ => htarget _ hname

/-- Every operation keeps sizes bounded. -/
theorem Change.sizes {op : Op} {files files' : List FileEntry} (h : Change cwd op files files')
    (hs : ∀ f ∈ files, f.data.length ≤ maxFileSize) :
    ∀ f ∈ files', f.data.length ≤ maxFileSize := by
  cases h with
  | same h => rwa [h]
  | fill idx e content he hused hname hop hlen h =>
    rw [h]
    exact forall_mem_set hs hlen
  | insert idx e e' he hfree hname hnew hop hlen h =>
    rw [h]
    exact forall_mem_set hs hlen
  | clear idx name hop h =>
    rw [h]
    exact forall_mem_set hs (Nat.zero_le _)
  | rename idx e oldName newName norm hop he hused hold hname hnew h =>
    rw [h]
    exact forall_mem_set hs (hs e (List.mem_of_getElem? he))

theorem toOption_eq_some_iff {ε α : Type} {x : Except ε α} {a : α} :
    x.toOption = some a ↔ x = .ok a := by
  cases x <;> simp [Except.toOption]

/-- Targets are normal and short. -/
theorem target_spec {op : Op} {name : Str} (h : target cwd op = some name) :
    NormalPath name ∧ byteLen name < maxFilenameLen := by
  have hspec : ∀ {input : Str}, (normalizePath input cwd).toOption = some name →
      NormalPath name ∧ byteLen name < maxFilenameLen :=
    fun h => normalizePath_spec (toOption_eq_some_iff.mp h)
  cases op with
  | mkdir path => exact hspec h
  | write name' content =>
    simp only [target] at h
    split at h
    · cases h
    · exact hspec h
  | create name' content ro => exact hspec h
  | delete name' => cases h
  | rename oldName newName => exact hspec h
  | copy srcName dstName =>
    simp only [target] at h
    split at h
    · split at h
      · cases h
      · exact hspec h
    · cases h

theorem repInvariant_step {call : Str × Op} (h : RepInvariant fs.files)
    (hroot : target call.1 call.2 ≠ some ['/']) : RepInvariant (step fs call).files := by
  have hchange := change_step fs call
  have hnames : ∀ f ∈ (step fs call).files, f.used = true →
      AbsPath f.name ∧ byteLen f.name ≤ 63 := by
    refine hchange.names (P := fun name => AbsPath name ∧ byteLen name ≤ 63) (fun name hname => ?_)
      fun f hf hu => ⟨h.path f hf hu, h.short f hf hu⟩
    obtain ⟨hnormal, hlen⟩ := target_spec hname
    rcases hnormal with rfl | habs
    · exact absurd hname hroot
    · exact ⟨habs, Nat.le_of_lt_succ hlen⟩
  exact ⟨hchange.unique h.unique, fun f hf hu => (hnames f hf hu).1,
    fun f _ _ => isValidUTF8_utf8 f.name, fun f hf hu => (hnames f hf hu).2,
    hchange.sizes h.size⟩

theorem repInvariant_new (vram : Vram) : RepInvariant (LatencyFS.new vram).files := by
  have hfree : ∀ f ∈ (LatencyFS.new vram).files, f = FileEntry.empty :=
    fun f hf => List.eq_of_mem_replicate hf
  have hunused : ∀ f ∈ (LatencyFS.new vram).files, f.used ≠ true := by
    intro f hf
    rw [hfree f hf]
    decide
  refine ⟨fun i j e f he _ hu => absurd hu (hunused e (List.mem_of_getElem? he)),
    fun f hf hu => absurd hu (hunused f hf), fun f hf hu => absurd hu (hunused f hf),
    fun f hf hu => absurd hu (hunused f hf), fun f hf => ?_⟩
  rw [hfree f hf]
  exact Nat.zero_le _

/-- The invariant holds after any operations in any directories that do not create the root. -/
theorem repInvariant_run (vram : Vram) (calls : List (Str × Op))
    (hroot : ∀ call ∈ calls, target call.1 call.2 ≠ some ['/']) :
    RepInvariant (run (LatencyFS.new vram) calls).files := by
  have hrun : ∀ fs : LatencyFS, RepInvariant fs.files → RepInvariant (run fs calls).files := by
    induction calls with
    | nil => exact fun fs h => h
    | cons call calls ih =>
      intro fs h
      have hstep := repInvariant_step h (hroot call List.mem_cons_self)
      exact ih (fun c hc => hroot c (List.mem_cons_of_mem call hc)) (step fs call) hstep
  exact hrun _ (repInvariant_new vram)

/-- A directory and a file in it. -/
def smallRun : List (Str × Op) :=
  [("/".toList, .mkdir "a".toList), ("/a".toList, .write "../a/./b".toList [1])]

theorem smallRun_repInvariant :
    (∀ call ∈ smallRun, target call.1 call.2 ≠ some ['/']) ∧
      RepInvariant (run (LatencyFS.new .zero) smallRun).files := by
  have hroot : ∀ call ∈ smallRun, target call.1 call.2 ≠ some ['/'] := by decide +kernel
  exact ⟨hroot, repInvariant_run _ _ hroot⟩

/-- The root can be entered in the table, as an entry of its own. -/
theorem rootEntry_breaks :
    ¬ ∀ (vram : Vram) (calls : List (Str × Op)),
      RepInvariant (run (LatencyFS.new vram) calls).files := by
  intro h
  have hfirst : (run (LatencyFS.new .zero) [(['/'], .mkdir ['/'])]).files[0]? =
      some ⟨['/'], [], true, false, true⟩ := by decide +kernel
  have habs := (h .zero [(['/'], .mkdir ['/'])]).path _ (List.mem_of_getElem? hfirst) rfl
  exact absurd habs.one_lt (by decide)

end Fs

namespace Fs

/-!
## Renaming a directory

A directory and what is in it are separate rows of the table, which only their paths hold together.
`fs_rename` changes one row.
-/

/-- A path in a directory. -/
def child (dir x : Str) : Str := if dir = ['/'] then '/' :: x else dir ++ '/' :: x

/-- A path lies in a directory, at any depth. -/
def Under (dir name : Str) : Prop := ∃ x, x ≠ [] ∧ name = child dir x

/-- What renaming a directory means: its contents are afterwards in the new one, nothing is left in
the old one, and the other entries are as they were. -/
structure MovesContents (files files' : List FileEntry) (old new : Str) : Prop where
  moved : ∀ f ∈ files, f.used = true → ∀ x, x ≠ [] → f.name = child old x →
    { f with name := child new x } ∈ files'
  nothingLeft : ∀ f ∈ files', f.used = true → ¬ Under old f.name
  others : ∀ (i : ℕ) (f : FileEntry), files[i]? = some f → f.used = true → f.name ≠ old →
    ¬ Under old f.name → files'[i]? = some f

/-- Nothing is in a directory. -/
def Empty (files : List FileEntry) (dir : Str) : Prop :=
  ∀ f ∈ files, f.used = true → ¬ Under dir f.name

theorem child_ne (dir : Str) {x : Str} (hx : x ≠ []) : child dir x ≠ dir := by
  intro h
  have hlen := congrArg List.length h
  have hpos := List.length_pos_iff.mpr hx
  unfold child at hlen
  split at hlen
  · next hroot =>
    rw [hroot, List.length_cons, List.length_singleton] at hlen
    omega
  · rw [List.length_append, List.length_cons] at hlen
    omega

theorem not_under_self (dir : Str) : ¬ Under dir dir := by
  rintro ⟨x, hx, h⟩
  exact child_ne dir hx h.symm

/-- A rename that succeeds moves what is in the directory exactly when nothing is in it, and it is
not moved into itself. -/
theorem movesContents_iff (fs fs' : LatencyFS) (cwd oldName newName old new : Str)
    (hold : normalizePath oldName cwd = .ok old) (hnew : normalizePath newName cwd = .ok new)
    (h : rename cwd oldName newName fs = .ok fs') :
    MovesContents fs.files fs'.files old new ↔ Empty fs.files old ∧ ¬ Under old new := by
  obtain ⟨old', new', idx, e, hold', hnew', he, hused, hname, -, hfiles⟩ := renamed_of_ok h
  obtain rfl : old = old' := Except.ok.inj (hold.symm.trans hold')
  obtain rfl : new = new' := Except.ok.inj (hnew.symm.trans hnew')
  have hlt := (List.getElem?_eq_some_iff.mp he).1
  -- every row but the renamed one stays
  have hkept : ∀ (i : ℕ) (f : FileEntry), fs.files[i]? = some f → f.name ≠ old →
      fs'.files[i]? = some f := by
    intro i f hf hne
    have hi : idx ≠ i := by
      rintro rfl
      rw [he] at hf
      cases hf
      exact hne hname
    rw [hfiles, List.getElem?_set_ne hi, hf]
  constructor
  · intro hmoves
    refine ⟨fun f hf hfused hunder => ?_, fun hunder => ?_⟩
    · have hne : f.name ≠ old := by
        intro heq
        rw [heq] at hunder
        exact not_under_self old hunder
      obtain ⟨i, hi⟩ := List.mem_iff_getElem?.mp hf
      exact hmoves.nothingLeft f (List.mem_of_getElem? (hkept i f hi hne)) hfused hunder
    · have hrow : { e with name := new } ∈ fs'.files := by
        rw [hfiles]
        exact List.mem_set hlt _
      exact hmoves.nothingLeft _ hrow hused hunder
  · rintro ⟨hempty, hinto⟩
    refine ⟨fun f hf hfused x hx hfname => ?_, fun f hf hfused hunder => ?_,
      fun i f hf _ hne _ => hkept i f hf hne⟩
    · exact absurd ⟨x, hx, hfname⟩ (hempty f hf hfused)
    · rw [hfiles] at hf
      rcases List.mem_or_eq_of_mem_set hf with hf | rfl
      · exact hempty f hf hfused hunder
      · exact hinto hunder

/-- A directory without contents. -/
theorem emptyDir_movesContents :
    MovesContents (run (.new .zero) [(['/'], .mkdir "/d".toList)]).files
        (run (.new .zero) [(['/'], .mkdir "/d".toList),
          (['/'], .rename "/d".toList "/e".toList)]).files "/d".toList "/e".toList ↔
      Empty (run (.new .zero) [(['/'], .mkdir "/d".toList)]).files "/d".toList ∧
        ¬ Under "/d".toList "/e".toList :=
  movesContents_iff _ _ ['/'] "/d".toList "/e".toList _ _ rfl rfl rfl

/-- A directory and a file in it. -/
def fullDir : List (Str × Op) :=
  [(['/'], .mkdir "/d".toList), (['/'], .write "/d/f".toList [1])]

/-- The file stays behind. -/
theorem fullDir_left : ¬ ∀ (calls : List (Str × Op)) (cwd oldName newName old new : Str)
    (fs' : LatencyFS), normalizePath oldName cwd = .ok old → normalizePath newName cwd = .ok new →
      rename cwd oldName newName (run (.new .zero) calls) = .ok fs' →
      (∃ f ∈ (run (.new .zero) calls).files, f.used = true ∧ f.isDir = true ∧ f.name = old) →
        MovesContents (run (.new .zero) calls).files fs'.files old new := by
  intro h
  have hdir : ∃ f ∈ (run (.new .zero) fullDir).files,
      f.used = true ∧ f.isDir = true ∧ f.name = "/d".toList := by decide +kernel
  have hmoves := h fullDir ['/'] "/d".toList "/e".toList "/d".toList "/e".toList
    (step (run (.new .zero) fullDir) (['/'], .rename "/d".toList "/e".toList)) rfl rfl rfl hdir
  have hrow : (step (run (.new .zero) fullDir)
      (['/'], .rename "/d".toList "/e".toList)).files[1]? =
        some ⟨"/d/f".toList, [1], false, false, true⟩ := by decide +kernel
  exact hmoves.nothingLeft _ (List.mem_of_getElem? hrow) rfl
    ⟨['f'], by decide, by decide +kernel⟩

end Fs

end LatencyOS
