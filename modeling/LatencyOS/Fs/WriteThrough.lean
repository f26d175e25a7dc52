import LatencyOS.Disk.Accounting
import LatencyOS.Fs.Invariant

/-!
# Write-through to the export disk

The calls that change files pass them on to the export disk, under the last part of their paths.
A call has effects on the files: one is written, or one is removed.  Each effect is mirrored by
what is passed on, so that the disk follows the files as long as the names of the disk tell them
apart.
-/

namespace LatencyOS

namespace Fs

/-! ## The export disk behind the file system -/

/-- The name of a file on the export disk. -/
def diskName (path : Str) : Str := afterLast '/' path

/-- `export_disk_auto_sync_file` and `export_disk_auto_sync_delete`, of a disk that is
attached. -/
def syncDisk (checks : Bool) (fuel : ℕ) (d : Disk) : DiskSync → Option Disk
  | .file path content =>
    if diskName path = [] then some d else d.step checks fuel (.write (diskName path) content)
  | .delete path =>
    if diskName path = [] then some d else d.step checks fuel (.delete (diskName path))

/-- The disk after some calls: what they have passed on is carried out in order. -/
def diskAfter (checks : Bool) (fuel : ℕ) (d : Disk) (fs fs' : LatencyFS) : Option Disk :=
  runAll (syncDisk checks fuel) d (fs'.synced.drop fs.synced.length)

/-! ## Effects -/

/-- What a call does to a file. -/
inductive Effect
  | wrote (path : Str) (content : List UInt8)
  | removed (path : Str) (dir : Bool)

/-- What is passed on for an effect. -/
def Effect.request : Effect → List DiskSync
  | .wrote path content => syncFile path content
  | .removed path _ => syncDelete path

/-- The entry of a path. -/
def row (fs : LatencyFS) (path : Str) : FileEntry := (fs.files.find? (named path)).getD .empty

/-- The effects of a call that succeeds. -/
def effectsOk (fs : LatencyFS) (cwd : Str) : Op → List Effect
  | .write name content => (target cwd (.write name content)).toList.map (.wrote · content)
  | .copy srcName dstName =>
    let content := (normalizePath srcName cwd).toOption.bind fun src => read cwd src fs
    (target cwd (.copy srcName dstName)).toList.map (.wrote · (content.getD []))
  | .delete name =>
    (normalizePath name cwd).toOption.toList.map fun path =>
      .removed path (row fs path).isDir
  | .rename oldName newName =>
    (normalizePath oldName cwd).toOption.toList.flatMap fun old =>
      .removed old (row fs old).isDir ::
        if (row fs old).isDir then []
        else (normalizePath newName cwd).toOption.toList.map (.wrote · (row fs old).data)
  | .mkdir _ => []
  | .create _ _ _ => []

/-- The effects of a call. -/
def effects (fs : LatencyFS) (call : Str × Op) : List Effect :=
  match exec call.1 fs call.2 with
  | .ok _ => effectsOk fs call.1 call.2
  | .error _ => []

/-- The effects of some calls. -/
def effectsOf : LatencyFS → List (Str × Op) → List Effect
  | _, [] => []
  | fs, call :: calls => effects fs call ++ effectsOf (step fs call) calls

/-- The calls that are mirrored: `fs_write`, `fs_delete`, `fs_rename` and `fs_copy`. -/
def Op.mirrored : Op → Bool
  | .write _ _ | .delete _ | .rename _ _ | .copy _ _ => true
  | .mkdir _ | .create _ _ _ => false

/-- The contents of the regular files of a table. -/
def look (files : List FileEntry) (path : Str) : Option (List UInt8) :=
  (files.find? fun f => named path f && !f.isDir).map (·.data)

/-- The contents of files after an effect. -/
def Effect.apply (m : Str → Option (List UInt8)) : Effect → Str → Option (List UInt8)
  | .wrote path content => Function.update m path (some content)
  | .removed path _ => Function.update m path none

/-- A call does to the table what its effects say, and passes them on. -/
structure Follows (fs fs' : LatencyFS) (effs : List Effect) : Prop where
  synced : fs'.synced = fs.synced ++ effs.flatMap Effect.request
  files : look fs'.files = effs.foldl Effect.apply (look fs.files)

/-! ## The contents of a table -/

variable {files : List FileEntry} {fs fs' : LatencyFS} {cwd name path norm : Str}
  {content : List UInt8} {idx : ℕ} {e e' : FileEntry}

theorem look_eq_some_iff (hu : Unique files) : look files path = some content ↔
    ∃ (i : ℕ) (f : FileEntry), files[i]? = some f ∧ f.used = true ∧ f.name = path ∧
      f.isDir = false ∧ f.data = content := by
  simp only [look, Option.map_eq_some_iff]
  constructor
  · rintro ⟨f, hf, hdata⟩
    have hp := List.find?_some hf
    rw [Bool.and_eq_true, named_iff, Bool.not_eq_true'] at hp
    obtain ⟨i, hi⟩ := List.mem_iff_getElem?.mp (List.mem_of_find?_eq_some hf)
    exact ⟨i, f, hi, hp.1.1, hp.1.2, hp.2, hdata⟩
  · rintro ⟨i, f, hi, hused, hname, hdir, hdata⟩
    have hp : (named path f && !f.isDir) = true := by
      rw [named_iff.mpr ⟨hused, hname⟩, hdir]
      rfl
    cases hfind : files.find? fun f => named path f && !f.isDir with
    | none => exact absurd hp (List.find?_eq_none.mp hfind f (List.mem_of_getElem? hi))
    | some g =>
      have hg := List.find?_some hfind
      rw [Bool.and_eq_true, named_iff] at hg
      obtain ⟨j, hj⟩ := List.mem_iff_getElem?.mp (List.mem_of_find?_eq_some hfind)
      have hij := hu i j f g hi hj hused hg.1.1 (hname.trans hg.1.2.symm)
      rw [hij, hj] at hi
      cases hi
      exact ⟨f, rfl, hdata⟩

/-- The contents of a table after one entry is replaced. -/
theorem look_set (hu : Unique files) (hu' : Unique (files.set idx e'))
    (he : files[idx]? = some e) (path : Str) :
    look (files.set idx e') path =
      if e'.used = true ∧ e'.name = path then (if e'.isDir then none else some e'.data)
      else if e.used = true ∧ e.name = path then none else look files path := by
  have hidx : (files.set idx e')[idx]? = some e' := by
    obtain ⟨hlt, -⟩ := List.getElem?_eq_some_iff.mp he
    rw [List.getElem?_set_self hlt]
  ext content
  rw [look_eq_some_iff hu']
  split
  · next hself =>
    constructor
    · rintro ⟨i, f, hi, hused, hname, hdir, hdata⟩
      have hii := hu' i idx f e' hi hidx hused hself.1 (hname.trans hself.2.symm)
      rw [hii, hidx] at hi
      cases hi
      simp [hdir, hdata]
    · intro h
      split at h
      · cases h
      · next hdir =>
        cases h
        exact ⟨idx, e', hidx, hself.1, hself.2, by simpa using hdir, rfl⟩
  · next hself =>
    have hother : ∀ (i : ℕ) (f : FileEntry), (files.set idx e')[i]? = some f →
        f.used = true → f.name = path → i ≠ idx ∧ files[i]? = some f := by
      intro i f hi hused hname
      rcases getElem?_set_cases hi with ⟨-, rfl⟩ | h
      · exact absurd ⟨hused, hname⟩ hself
      · exact h
    split
    · next hold =>
      constructor
      · rintro ⟨i, f, hi, hused, hname, -⟩
        obtain ⟨hne, hi⟩ := hother i f hi hused hname
        exact absurd (hu i idx f e hi he hused hold.1 (hname.trans hold.2.symm)) hne
      · intro h
        cases h
    · next hold =>
      rw [look_eq_some_iff hu]
      constructor
      · rintro ⟨i, f, hi, hused, hname, hrest⟩
        exact ⟨i, f, (hother i f hi hused hname).2, hused, hname, hrest⟩
      · rintro ⟨i, f, hi, hused, hname, hrest⟩
        have hne : i ≠ idx := by
          rintro rfl
          rw [he] at hi
          cases hi
          exact hold ⟨hused, hname⟩
        exact ⟨i, f, by rw [List.getElem?_set_ne hne.symm, hi], hused, hname, hrest⟩

/-! ## What calls do -/

/-- An entry that a search finds, as an entry of the table. -/
theorem row_eq (h : fs.files.findIdx? (named path) = some idx) (he : fs.files[idx]? = some e) :
    row fs path = e := by
  obtain ⟨hlt, hp, hbefore⟩ := List.findIdx?_eq_some_iff_getElem.mp h
  obtain ⟨_, hidx⟩ := List.getElem?_eq_some_iff.mp he
  have hfind : fs.files.find? (named path) = some e := by
    rw [List.find?_eq_some_iff_getElem]
    rw [hidx] at hp
    exact ⟨hp, idx, hlt, hidx, fun j hj => by simpa using hbefore j hj⟩
  rw [row, hfind, Option.getD_some]

/-- Replacing an entry, as a change of the contents at its name. -/
theorem look_replace (hu : Unique files) (hu' : Unique (files.set idx e'))
    (he : files[idx]? = some e) (hused : e'.used = true) (hdir : e'.isDir = false)
    (hold : e.used = true → e.name = e'.name) :
    look (files.set idx e') = Function.update (look files) e'.name (some e'.data) := by
  funext path
  rw [look_set hu hu' he, Function.update_apply, hdir]
  by_cases hpath : path = e'.name
  · simp [hpath, hused]
  · have hne : ¬ (e.used = true ∧ e.name = path) := by
      rintro ⟨heused, hename⟩
      exact hpath (hename.symm.trans (hold heused))
    rw [if_neg (fun h => hpath h.2.symm), if_neg hne, if_neg hpath]

theorem follows_createInternal (hu : Unique fs.files) (hnorm : normalizePath name cwd = .ok norm)
    (h : createInternal cwd name content false fs = .ok (idx, fs')) :
    Follows fs fs' [.wrote norm content] := by
  have hchange : Change cwd (.create name content false) fs.files fs'.files :=
    change_createInternal hnorm (toOption_eq_some hnorm) rfl h
  have hu' := hchange.unique hu
  unfold createInternal at h
  split at h
  · cases h
  · obtain ⟨norm', hnorm', h⟩ := bind_eq_ok h
    rw [hnorm] at hnorm'
    cases hnorm'
    dsimp only at h
    cases hfind : fs.files.findIdx? (named norm) with
    | some i =>
      obtain ⟨e, he, hnamed⟩ := getElem?_of_findIdx? hfind
      obtain ⟨hused, hname⟩ := named_iff.mp hnamed
      rw [hfind] at h
      simp only [getD_of_getElem? he] at h
      split at h
      · cases h
      · cases h
        refine ⟨by simp [Effect.request], ?_⟩
        rw [look_replace hu hu' he hused rfl fun _ => rfl, hname]
        rfl
    | none =>
      rw [hfind] at h
      cases hfree : fs.files.findIdx? (!·.used) with
      | none =>
        rw [hfree] at h
        cases h
      | some i =>
        rw [hfree] at h
        cases h
        obtain ⟨e, he, hunused⟩ := getElem?_of_findIdx? hfree
        refine ⟨by simp [Effect.request], ?_⟩
        rw [look_replace hu hu' he rfl rfl fun hused => by simp [hused] at hunused]
        rfl

theorem follows_write (hu : Unique fs.files) {op : Op}
    (htarget : target cwd op =
      if Vfs.isVramPath (trim name) then none else (normalizePath name cwd).toOption)
    (h : write cwd name content fs = .ok fs') :
    Follows fs fs' ((target cwd op).toList.map (.wrote · content)) := by
  rw [htarget]
  simp only [write] at h
  split at h
  · next hvram =>
    rw [if_pos hvram]
    split at h
    · cases h
      exact ⟨by simp, rfl⟩
    · cases h
  · next hvram =>
    obtain ⟨⟨idx, r⟩, hcreate, hr⟩ := map_eq_ok h
    cases hr
    obtain ⟨norm, hnorm⟩ := normalizePath_of_createInternal hcreate
    rw [if_neg hvram, toOption_eq_some hnorm]
    exact follows_createInternal hu hnorm hcreate

theorem follows_delete (hu : Unique fs.files) (h : delete cwd name fs = .ok fs') :
    Follows fs fs' (effectsOk fs cwd (.delete name)) := by
  have hu' : Unique fs'.files := (change_delete h).unique hu
  obtain ⟨norm, hnorm, h⟩ := bind_eq_ok h
  split at h
  · cases h
  cases hfind : fs.files.findIdx? (named norm) with
  | none =>
    rw [hfind] at h
    cases h
  | some i =>
    obtain ⟨e, he, hnamed⟩ := getElem?_of_findIdx? hfind
    obtain ⟨hused, hname⟩ := named_iff.mp hnamed
    rw [hfind] at h
    simp only at h
    split at h
    · cases h
    · cases h
      simp only [effectsOk, toOption_eq_some hnorm, Option.toList_some, List.map_cons,
        List.map_nil]
      refine ⟨by simp [Effect.request], funext fun path => ?_⟩
      rw [look_set hu hu' he]
      simp only [FileEntry.empty, Bool.false_eq_true, false_and, if_false, hused, hname, true_and,
        List.foldl_cons, List.foldl_nil, Effect.apply, Function.update_apply, eq_comm]

/-- Nothing is found under a name that no entry has. -/
theorem look_of_fresh (h : ∀ f ∈ files, named path f = false) : look files path = none := by
  rw [look, Option.map_eq_none_iff, List.find?_eq_none]
  intro f hf
  simp [h f hf]

theorem follows_rename {oldName newName : Str} (hu : Unique fs.files)
    (h : rename cwd oldName newName fs = .ok fs') :
    Follows fs fs' (effectsOk fs cwd (.rename oldName newName)) := by
  have hu' : Unique fs'.files := (change_rename h).unique hu
  obtain ⟨oldNorm, hold, h⟩ := bind_eq_ok h
  obtain ⟨newNorm, hnew, h⟩ := bind_eq_ok h
  split at h
  · cases h
  split at h
  · cases h
  next hfresh =>
  cases hfind : fs.files.findIdx? (named oldNorm) with
  | none =>
    rw [hfind] at h
    cases h
  | some i =>
    obtain ⟨e, he, hnamed⟩ := getElem?_of_findIdx? hfind
    obtain ⟨hused, hname⟩ := named_iff.mp hnamed
    have hnone : look fs.files newNorm = none := look_of_fresh (by simpa using hfresh)
    rw [hfind] at h
    simp only [getD_of_getElem? he] at h
    split at h
    · cases h
    · cases h
      simp only [effectsOk, toOption_eq_some hold, toOption_eq_some hnew, row_eq hfind he,
        Option.toList_some, List.flatMap_cons, List.flatMap_nil, List.append_nil, List.map_cons,
        List.map_nil]
      have hlook : ∀ path, look (fs.files.set i { e with name := newNorm }) path =
          if newNorm = path then (if e.isDir then none else some e.data)
          else if oldNorm = path then none else look fs.files path := by
        intro path
        rw [look_set hu hu' he]
        simp only [hused, hname, true_and]
      by_cases hdir : e.isDir = true
      · refine ⟨by simp [Effect.request, hdir], funext fun path => ?_⟩
        rw [hlook, if_pos hdir, if_pos hdir]
        simp only [List.foldl_cons, List.foldl_nil, Effect.apply, Function.update_apply]
        by_cases hpath : newNorm = path
        · rw [if_pos hpath, ← hpath, hnone, ite_self]
        · simp only [if_neg hpath, eq_comm]
      · refine ⟨by simp [Effect.request, hdir], funext fun path => ?_⟩
        rw [hlook, if_neg hdir, if_neg hdir]
        simp only [List.foldl_cons, List.foldl_nil, Effect.apply, Function.update_apply, eq_comm]

/-- A mirrored call does what its effects say. -/
theorem follows_step {call : Str × Op} (hu : Unique fs.files)
    (hcall : call.2.mirrored = true) : Follows fs (step fs call) (effects fs call) := by
  obtain ⟨cwd, op⟩ := call
  simp only [step, effects]
  cases h : exec cwd fs op with
  | error err => exact ⟨by simp, rfl⟩
  | ok fs' =>
    cases op with
    | mkdir path => cases hcall
    | create name content ro => cases hcall
    | write name content => exact follows_write hu rfl h
    | delete name => exact follows_delete hu h
    | rename oldName newName => exact follows_rename hu h
    | copy srcName dstName =>
      obtain ⟨srcNorm, hsrc, h⟩ := bind_eq_ok h
      obtain ⟨dstNorm, hdst, h⟩ := bind_eq_ok h
      cases hread : read cwd srcNorm fs with
      | none =>
        rw [hread] at h
        cases h
      | some content =>
        rw [hread] at h
        have htarget : target cwd (.copy srcName dstName) = if Vfs.isVramPath (trim dstNorm)
            then none else (normalizePath dstNorm cwd).toOption := by
          simp only [target, hdst]
        simp only [effectsOk, toOption_eq_some hsrc, Option.bind_some, hread, Option.getD_some]
        exact follows_write hu htarget h

/-- Calls in a row do what their effects say. -/
theorem follows_run {calls : List (Str × Op)} (hu : Unique fs.files)
    (hcalls : ∀ call ∈ calls, call.2.mirrored = true) :
    Follows fs (run fs calls) (effectsOf fs calls) := by
  induction calls generalizing fs with
  | nil => exact ⟨by simp [run, effectsOf], rfl⟩
  | cons call calls ih =>
    have hfirst := follows_step hu (hcalls call List.mem_cons_self)
    have hrest := ih ((change_step fs call).unique hu)
      fun c hc => hcalls c (List.mem_cons_of_mem call hc)
    constructor
    · rw [effectsOf, List.flatMap_append, ← List.append_assoc, ← hfirst.synced]
      exact hrest.synced
    · rw [effectsOf, List.foldl_append, ← hfirst.files]
      exact hrest.files

/-! ## The disk follows the files -/

/-- A path of LatencyVFS. -/
def onVram (path : Str) : Bool :=
  path == "/vram".toList || Vfs.startsWith path "/vram/".toList

/-- The files outside LatencyVFS that some calls have written and that are still there, and those
that they have removed and not made again. -/
structure History where
  written : List Str
  gone : List Str

def History.note (h : History) : Effect → History
  | .wrote path _ =>
    if onVram path then h else ⟨path :: h.written, h.gone.filter (· ≠ path)⟩
  | .removed path dir =>
    if onVram path then h
    else ⟨h.written.filter (· ≠ path), if dir then h.gone else path :: h.gone⟩

/-- The history of some calls. -/
def historyOf (fs : LatencyFS) (calls : List (Str × Op)) : History :=
  (effectsOf fs calls).foldl History.note ⟨[], []⟩

/-- The files, what was done to them, and the disk. -/
structure Mirror where
  files : Str → Option (List UInt8)
  history : History
  disk : Disk

/-- An effect, and what is passed on for it. -/
def Mirror.step (checks : Bool) (fuel : ℕ) (s : Mirror) (e : Effect) : Option Mirror :=
  (runAll (syncDisk checks fuel) s.disk e.request).map fun d =>
    ⟨e.apply s.files, s.history.note e, d⟩

/-- The 8.3 name of a file on the export disk. -/
def name83 (path : Str) : List UInt8 := to83Name (diskName path)

/-- No other of some paths has the 8.3 name of a path. -/
def Apart (paths : List Str) (path : Str) : Prop :=
  ∀ p ∈ paths, p ≠ path → name83 p ≠ name83 path

/-- A path whose file is passed on to the disk, under a name. -/
def Passed (path : Str) : Prop := diskName path ≠ [] ∧ offDisk path = false

/-- What a file needs to be mirrored: it is passed on under a name that makes a live entry and
that no other file of the history has, and the disk has room and no earlier entry to take. -/
structure WritesThrough (checks : Bool) (fuel : ℕ) (g : Fat16Bpb) (s : Mirror) (path : Str)
    (content : List UInt8) : Prop where
  passed : Passed path
  live : Disk.LiveName (name83 path)
  apart : Apart (s.history.written ++ s.history.gone) path
  foremost : Disk.Foremost s.disk g (name83 path)
  succeeds : Disk.Succeeds checks fuel s.disk (.write (diskName path) content)

/-- An effect that the disk follows. -/
def Mirrored (checks : Bool) (fuel : ℕ) (g : Fat16Bpb) (s : Mirror) : Effect → Prop
  | .wrote path content => onVram path = false → WritesThrough checks fuel g s path content
  | .removed path dir => (Passed path → Apart s.history.written path) ∧
      (onVram path = false → dir = false → Passed path)

instance (paths : List Str) (path : Str) : Decidable (Apart paths path) :=
  inferInstanceAs (Decidable (∀ p ∈ paths, p ≠ path → name83 p ≠ name83 path))

instance (path : Str) : Decidable (Passed path) := inferInstanceAs (Decidable (_ ∧ _))

instance (checks : Bool) (fuel : ℕ) (g : Fat16Bpb) (s : Mirror) (path : Str)
    (content : List UInt8) : Decidable (WritesThrough checks fuel g s path content) :=
  decidable_of_iff (Passed path ∧ Disk.LiveName (name83 path) ∧
      Apart (s.history.written ++ s.history.gone) path ∧
      Disk.Foremost s.disk g (name83 path) ∧
      Disk.Succeeds checks fuel s.disk (.write (diskName path) content))
    ⟨fun h => ⟨h.1, h.2.1, h.2.2.1, h.2.2.2.1, h.2.2.2.2⟩,
      fun h => ⟨h.passed, h.live, h.apart, h.foremost, h.succeeds⟩⟩

instance decidableMirrored (checks : Bool) (fuel : ℕ) (g : Fat16Bpb) (s : Mirror) :
    (e : Effect) → Decidable (Mirrored checks fuel g s e)
  | .wrote path content =>
    inferInstanceAs (Decidable (onVram path = false → WritesThrough checks fuel g s path content))
  | .removed path dir =>
    inferInstanceAs (Decidable ((Passed path → Apart s.history.written path) ∧
      (onVram path = false → dir = false → Passed path)))

/-- The disk holds the files that were written, and none that is gone. -/
structure InStep (g : Fat16Bpb) (s : Mirror) : Prop where
  tidy : Disk.Tidy s.disk g
  disk : ∀ p ∈ s.history.written, onVram p = false
  written : ∀ p ∈ s.history.written, ∀ content, s.files p = some content → ∀ bufSize,
    content.length ≤ bufSize → s.disk.readFile (diskName p) bufSize = .ok content
  gone : ∀ p ∈ s.history.gone, ∀ bufSize,
    s.disk.readFile (diskName p) bufSize = .error "File not found on Export Disk"

theorem offDisk_of_onVram (h : onVram path = true) : offDisk path = true := by
  have hprefix : "/vram".toList <+: path := by
    simp only [onVram, Bool.or_eq_true, beq_iff_eq, Vfs.startsWith,
      List.isPrefixOf_iff_prefix] at h
    rcases h with rfl | h
    · exact List.prefix_refl _
    · exact List.IsPrefix.trans (by decide) h
  exact List.isPrefixOf_iff_prefix.mpr hprefix

variable {checks : Bool} {fuel : ℕ} {g : Fat16Bpb} {d : Disk} {s : Mirror} {dir : Bool}

theorem runAll_wrote (h : Passed path) (content : List UInt8) :
    runAll (syncDisk checks fuel) d (Effect.wrote path content).request =
      d.step checks fuel (.write (diskName path) content) := by
  simp [Effect.request, syncFile, h.2, runAll, syncDisk, h.1]

theorem runAll_removed (h : Passed path) (dir : Bool) :
    runAll (syncDisk checks fuel) d (Effect.removed path dir).request =
      d.step checks fuel (.delete (diskName path)) := by
  simp [Effect.request, syncDelete, h.2, runAll, syncDisk, h.1]

/-- What is not passed on leaves the disk. -/
theorem runAll_not_passed (h : ¬ Passed path) (dir : Bool) :
    runAll (syncDisk checks fuel) d (Effect.removed path dir).request = some d := by
  simp only [Effect.request, syncDelete]
  split
  · rfl
  · next hoff =>
    have hname : diskName path = [] := by
      by_contra hne
      exact h ⟨hne, by simpa using hoff⟩
    simp [runAll, syncDisk, hname]

/-- A change of a file of LatencyVFS, which nothing is passed on for. -/
theorem inStep_onVram (h : InStep g s) (hvram : onVram path = true)
    (contents : Option (List UInt8)) :
    InStep g ⟨Function.update s.files path contents, s.history, s.disk⟩ := by
  refine ⟨h.tidy, h.disk, fun p hp content' hfile => ?_, h.gone⟩
  have hne : p ≠ path := by
    rintro rfl
    rw [h.disk p hp] at hvram
    cases hvram
  refine h.written p hp content' ?_
  dsimp only at hfile
  rwa [Function.update_of_ne hne] at hfile

theorem inStep_wrote (h : InStep g s) (hmirrored : Mirrored checks fuel g s (.wrote path content)) :
    ∃ s', s.step checks fuel (.wrote path content) = some s' ∧ InStep g s' := by
  by_cases hvram : onVram path = true
  · refine ⟨_, ?_, inStep_onVram h hvram (some content)⟩
    simp only [Mirror.step, Effect.request, syncFile, offDisk_of_onVram hvram, if_true, runAll,
      Option.map_some, History.note, hvram]
    rfl
  · have hw := hmirrored (by simpa using hvram)
    obtain ⟨d', hstep, htidy, hself, hother⟩ :=
      Disk.step_write h.tidy hw.live hw.foremost hw.succeeds
    refine ⟨⟨Function.update s.files path (some content),
      ⟨path :: s.history.written, s.history.gone.filter (· ≠ path)⟩, d'⟩, ?_, htidy,
      fun p hp => ?_, fun p hp content' hfile bufSize hbuf => ?_, fun p hp bufSize => ?_⟩
    · rw [Mirror.step, runAll_wrote hw.passed, hstep]
      simp only [Option.map_some, History.note, if_neg hvram]
      rfl
    · rcases List.mem_cons.mp hp with rfl | hp
      · simpa using hvram
      · exact h.disk p hp
    · dsimp only at hfile ⊢
      by_cases hpath : p = path
      · rw [hpath, Function.update_self] at hfile
        cases hfile
        rw [hpath]
        exact hself bufSize hbuf
      · have hmem := (List.mem_cons.mp hp).resolve_left hpath
        rw [Function.update_of_ne hpath] at hfile
        rw [hother _ (hw.apart p (List.mem_append_left _ hmem) hpath)]
        exact h.written p hmem content' hfile bufSize hbuf
    · dsimp only at hp ⊢
      rw [List.mem_filter] at hp
      have hpath : p ≠ path := by simpa using hp.2
      rw [hother _ (hw.apart p (List.mem_append_right _ hp.1) hpath)]
      exact h.gone p hp.1 bufSize

theorem inStep_removed (h : InStep g s) (hfuel : 65536 ≤ fuel)
    (hmirrored : Mirrored checks fuel g s (.removed path dir)) :
    ∃ s', s.step checks fuel (.removed path dir) = some s' ∧ InStep g s' := by
  by_cases hvram : onVram path = true
  · have hpassed : ¬ Passed path := by
      intro hpassed
      rw [Passed, offDisk_of_onVram hvram] at hpassed
      cases hpassed.2
    refine ⟨_, ?_, inStep_onVram h hvram none⟩
    rw [Mirror.step, runAll_not_passed hpassed]
    simp only [Option.map_some, History.note, if_pos hvram]
    rfl
  · -- the disk after the effect, whether it was passed on or not
    obtain ⟨d', hrun, htidy, hwritten, hgone, hself⟩ : ∃ d',
        runAll (syncDisk checks fuel) s.disk (Effect.removed path dir).request = some d' ∧
        Disk.Tidy d' g ∧
        (∀ p ∈ s.history.written, p ≠ path → ∀ bufSize,
          d'.readFile (diskName p) bufSize = s.disk.readFile (diskName p) bufSize) ∧
        (∀ p ∈ s.history.gone, ∀ bufSize,
          d'.readFile (diskName p) bufSize = .error "File not found on Export Disk") ∧
        (dir = false → ∀ bufSize,
          d'.readFile (diskName path) bufSize = .error "File not found on Export Disk") := by
      by_cases hpassed : Passed path
      · obtain ⟨d', hstep, htidy, hself, hother⟩ :=
          Disk.step_delete h.tidy checks hfuel (diskName path)
        refine ⟨d', by rw [runAll_removed hpassed, hstep], htidy, fun p hp hne => ?_,
          fun p hp bufSize => ?_, fun _ => hself _ rfl⟩
        · exact hother _ (hmirrored.1 hpassed p hp hne)
        · by_cases heq : name83 p = name83 path
          · exact hself _ heq bufSize
          · rw [hother _ heq]
            exact h.gone p hp bufSize
      · refine ⟨s.disk, runAll_not_passed hpassed dir, h.tidy, fun _ _ _ _ => rfl, h.gone,
          fun hdir => ?_⟩
        exact absurd (hmirrored.2 (by simpa using hvram) hdir) hpassed
    refine ⟨⟨Function.update s.files path none, ⟨s.history.written.filter (· ≠ path),
      if dir then s.history.gone else path :: s.history.gone⟩, d'⟩, ?_, htidy, fun p hp => ?_,
      fun p hp content' hfile bufSize hbuf => ?_, fun p hp bufSize => ?_⟩
    · rw [Mirror.step, hrun]
      simp only [Option.map_some, History.note, if_neg hvram]
      rfl
    · exact h.disk p (List.mem_filter.mp hp).1
    · dsimp only at hp hfile ⊢
      rw [List.mem_filter] at hp
      have hpath : p ≠ path := by simpa using hp.2
      rw [Function.update_of_ne hpath] at hfile
      rw [hwritten p hp.1 hpath]
      exact h.written p hp.1 content' hfile bufSize hbuf
    · dsimp only at hp
      split at hp
      · exact hgone p hp bufSize
      · next hdir =>
        rcases List.mem_cons.mp hp with rfl | hp
        · exact hself (by simpa using hdir) bufSize
        · exact hgone p hp bufSize

/-! ## Runs -/

/-- What is passed on for some effects is passed on for each in turn. -/
theorem runAll_mirror {effs : List Effect} {s s' : Mirror}
    (h : runAll (Mirror.step checks fuel) s effs = some s') :
    s'.files = effs.foldl Effect.apply s.files ∧
      s'.history = effs.foldl History.note s.history ∧
      runAll (syncDisk checks fuel) s.disk (effs.flatMap Effect.request) = some s'.disk := by
  induction effs generalizing s with
  | nil =>
    cases h
    exact ⟨rfl, rfl, rfl⟩
  | cons e effs ih =>
    rw [runAll, Option.bind_eq_some_iff] at h
    obtain ⟨s₁, hfirst, hrest⟩ := h
    rw [Mirror.step, Option.map_eq_some_iff] at hfirst
    obtain ⟨d₁, hd₁, rfl⟩ := hfirst
    obtain ⟨hfiles, hhistory, hdisk⟩ := ih hrest
    refine ⟨hfiles, hhistory, ?_⟩
    rw [List.flatMap_cons, runAll_append, hd₁, Option.bind_some]
    exact hdisk

/-- The disk is in step with the files after some calls: it holds the regular files that were
written, and none that was removed. -/
def WriteThrough (checks : Bool) (fuel : ℕ) (d : Disk) (fs : LatencyFS)
    (calls : List (Str × Op)) : Prop :=
  ∃ d', diskAfter checks fuel d fs (run fs calls) = some d' ∧
    (∀ f ∈ (run fs calls).files, f.used = true → f.isDir = false →
      f.name ∈ (historyOf fs calls).written → ∀ bufSize, f.data.length ≤ bufSize →
        d'.readFile (diskName f.name) bufSize = .ok f.data) ∧
    ∀ path ∈ (historyOf fs calls).gone, ∀ bufSize,
      d'.readFile (diskName path) bufSize = .error "File not found on Export Disk"

/-- In every run of calls whose effects the disk follows, it is in step with the files. -/
theorem writeThrough_run {calls : List (Str × Op)} (hd : Disk.Tidy d g)
    (hfuel : 65536 ≤ fuel) (hfs : Unique fs.files)
    (hcalls : ∀ call ∈ calls, call.2.mirrored = true)
    (hsteps : AlongRun (Mirror.step checks fuel) (Mirrored checks fuel g)
      ⟨look fs.files, ⟨[], []⟩, d⟩ (effectsOf fs calls)) :
    WriteThrough checks fuel d fs calls := by
  have hstart : InStep g ⟨look fs.files, ⟨[], []⟩, d⟩ :=
    ⟨hd, fun p hp => absurd hp List.not_mem_nil, fun p hp => absurd hp List.not_mem_nil,
      fun p hp => absurd hp List.not_mem_nil⟩
  have hstep : ∀ s e, InStep g s → Mirrored checks fuel g s e →
      ∃ s', Mirror.step checks fuel s e = some s' ∧ InStep g s' := by
    intro s e h hmirrored
    cases e with
    | wrote path content => exact inStep_wrote h hmirrored
    | removed path dir => exact inStep_removed h hfuel hmirrored
  obtain ⟨s', hrun, hin⟩ := runAll_invariant hstep hstart hsteps
  obtain ⟨hfiles, hhistory, hdisk⟩ := runAll_mirror hrun
  have hfollows := follows_run hfs hcalls
  have hu : Unique (run fs calls).files := unique_run hfs calls
  refine ⟨s'.disk, ?_, fun f hf hused hdir hname => ?_, fun path hpath => ?_⟩
  · rw [diskAfter, hfollows.synced, List.drop_left]
    exact hdisk
  · refine hin.written f.name (by rw [hhistory]; exact hname) f.data ?_
    rw [hfiles, ← hfollows.files, look_eq_some_iff hu]
    obtain ⟨i, hi⟩ := List.mem_iff_getElem?.mp hf
    exact ⟨i, f, hi, hused, rfl, hdir, rfl⟩
  · exact hin.gone path (by rw [hhistory]; exact hpath)

theorem tidy_blankDisk : Disk.Tidy Disk.blankDisk Disk.blankBpb :=
  ⟨⟨_, Disk.volume_blankDisk⟩, Disk.packed_blankDisk, Disk.unique_blankDisk⟩

/-- Files that are written, renamed, copied and deleted, all with names of their own. -/
def ownNames : List (Str × Op) :=
  [("/".toList, .write "/a".toList [1]), ("/".toList, .write "b".toList [2]),
    ("/".toList, .rename "/b".toList "/c".toList), ("/".toList, .copy "/c".toList "/d".toList),
    ("/".toList, .delete "/a".toList)]

theorem ownNames_writeThrough :
    AlongRun (Mirror.step true 65536) (Mirrored true 65536 Disk.blankBpb)
        ⟨look (LatencyFS.new .zero).files, ⟨[], []⟩, Disk.blankDisk⟩
        (effectsOf (LatencyFS.new .zero) ownNames) ∧
      WriteThrough true 65536 Disk.blankDisk (LatencyFS.new .zero) ownNames := by
  have hsteps : AlongRun (Mirror.step true 65536) (Mirrored true 65536 Disk.blankBpb)
      ⟨look (LatencyFS.new .zero).files, ⟨[], []⟩, Disk.blankDisk⟩
      (effectsOf (LatencyFS.new .zero) ownNames) := by decide +kernel
  exact ⟨hsteps, writeThrough_run tidy_blankDisk le_rfl (repInvariant_new .zero).unique
    (by decide) hsteps⟩

/-- The disk has room for a file that is written. -/
def HasRoom (checks : Bool) (fuel : ℕ) (s : Mirror) : Effect → Prop
  | .wrote path content => Disk.Succeeds checks fuel s.disk (.write (diskName path) content)
  | .removed _ _ => True

instance decidableHasRoom (checks : Bool) (fuel : ℕ) (s : Mirror) :
    (e : Effect) → Decidable (HasRoom checks fuel s e)
  | .wrote path content =>
    inferInstanceAs (Decidable (Disk.Succeeds checks fuel s.disk (.write (diskName path) content)))
  | .removed _ _ => isTrue trivial

/-- A file that is written again after one before it was deleted, and then deleted. -/
def staleFile : List (Str × Op) :=
  [("/".toList, .write "/a".toList [1]), ("/".toList, .write "/b".toList [2]),
    ("/".toList, .delete "/a".toList), ("/".toList, .write "/b".toList [3]),
    ("/".toList, .delete "/b".toList)]

/-- Two files with the same last part. -/
def sameName : List (Str × Op) :=
  [("/".toList, .write "/x/f".toList [1]), ("/".toList, .write "/y/f".toList [2])]

/-- The deleted file is still found on the disk; and one of two files with the same last part
holds the contents of the other. -/
theorem staleFile_breaks :
    Disk.Tidy Disk.blankDisk Disk.blankBpb ∧
      (∀ calls ∈ [staleFile, sameName], AlongRun (Mirror.step true 65536) (HasRoom true 65536)
        ⟨look (LatencyFS.new .zero).files, ⟨[], []⟩, Disk.blankDisk⟩
        (effectsOf (LatencyFS.new .zero) calls)) ∧
      ¬ WriteThrough true 65536 Disk.blankDisk (LatencyFS.new .zero) staleFile ∧
      ¬ WriteThrough true 65536 Disk.blankDisk (LatencyFS.new .zero) sameName := by
  refine ⟨tidy_blankDisk, by decide +kernel, ?_, ?_⟩
  · rintro ⟨d', hd', -, hgone⟩
    have hread : (diskAfter true 65536 Disk.blankDisk (LatencyFS.new .zero)
        (run (LatencyFS.new .zero) staleFile)).map (·.readFile "b".toList 10) =
          some (.ok [2]) := by decide +kernel
    have hmem : "/b".toList ∈ (historyOf (LatencyFS.new .zero) staleFile).gone := by
      decide +kernel
    rw [hd', Option.map_some, Option.some_inj] at hread
    have hnone := hgone _ hmem 10
    rw [show diskName "/b".toList = "b".toList by decide, hread] at hnone
    cases hnone
  · rintro ⟨d', hd', hwritten, -⟩
    have hread : (diskAfter true 65536 Disk.blankDisk (LatencyFS.new .zero)
        (run (LatencyFS.new .zero) sameName)).map (·.readFile "f".toList 10) =
          some (.ok [2]) := by decide +kernel
    have hmem : "/x/f".toList ∈ (historyOf (LatencyFS.new .zero) sameName).written := by
      decide +kernel
    have hrow : (run (LatencyFS.new .zero) sameName).files[0]? =
        some ⟨"/x/f".toList, [1], false, false, true⟩ := by decide +kernel
    rw [hd', Option.map_some, Option.some_inj] at hread
    have hfile := hwritten _ (List.mem_of_getElem? hrow) rfl rfl hmem 10 (by decide)
    rw [show diskName "/x/f".toList = "f".toList by decide, hread] at hfile
    cases hfile

end Fs

end LatencyOS
