import LatencyOS.Fs.Invariant
import LatencyOS.Fs.Spelling
import LatencyOS.Lib.Trace

/-!
# Reading what was written and what was deleted

A file that was just written is found under its own path, before any fallback.  A file that was
deleted is not; but `fs_read` goes on to its two fallbacks, and these find another file with the
same last part or the same 8.3 name.
-/

namespace LatencyOS

namespace Fs

variable {cwd p norm : Str} {fs fs' : LatencyFS} {files : List FileEntry} {content : List UInt8}
  {idx : ℕ} {e : FileEntry}

/-! ## Writing -/

/-- What a search finds that stops at a row that was replaced. -/
theorem find?_set {α : Type} {l : List α} {q : α → Bool} {i : ℕ} {a : α} (hlt : i < l.length)
    (ha : q a = true) (hbefore : ∀ j b, j < i → l[j]? = some b → q b = false) :
    (l.set i a).find? q = some a := by
  induction l generalizing i with
  | nil => exact absurd hlt (Nat.not_lt_zero i)
  | cons b l ih =>
    cases i with
    | zero => rw [List.set_cons_zero, List.find?_cons_of_pos ha]
    | succ i =>
      have hb := hbefore 0 b (Nat.zero_lt_succ i) rfl
      rw [List.set_cons_succ, List.find?_cons_of_neg (by simp [hb])]
      refine ih (Nat.lt_of_succ_lt_succ hlt) fun j c hj hc => ?_
      exact hbefore (j + 1) c (Nat.succ_lt_succ hj) hc

/-- What a write has done: the first row of its name holds the content, and the other rows are as
they were. -/
structure Stored (files files' : List FileEntry) (norm : Str) (content : List UInt8) : Prop where
  found : (files'.find? fun f => f.used && !f.isDir && f.name == norm).map (·.data) = some content
  others : ∀ (i : ℕ) (f : FileEntry), files[i]? = some f → f.used = true → f.name ≠ norm →
    files'[i]? = some f

/-- What a write does to the table: its row takes the place of the first one that has its name, or
of an unused one. -/
structure Placed (files files' : List FileEntry) (norm : Str) (content : List UInt8) (ro : Bool)
    (idx : ℕ) (e : FileEntry) : Prop where
  row : files[idx]? = some e
  held : e.used = true → e.name = norm ∧ e.readOnly = false
  first : ∀ j f, j < idx ∨ e.used = false → files[j]? = some f → named norm f = false
  placed : files' = files.set idx ⟨norm, content, false, ro, true⟩

theorem Placed.stored {ro : Bool} (h : Placed files files' norm content ro idx e) :
    Stored files files' norm content where
  found := by
    have hlt := (List.getElem?_eq_some_iff.mp h.row).1
    rw [h.placed, find?_set hlt (by simp) fun j f hj hf => ?_]
    · rfl
    · have hname := h.first j f (.inl hj) hf
      rw [named] at hname
      by_cases hused : f.used = true
      · rw [hused, Bool.true_and] at hname
        rw [hname, Bool.and_false]
      · simp [hused]
  others := by
    intro i f hf hused hne
    by_cases hi : i = idx
    · rw [hi, h.row] at hf
      cases hf
      exact absurd (h.held hused).1 hne
    · rw [h.placed, List.getElem?_set_ne (Ne.symm hi), hf]

/-- The row of a file that is created; a file that can be changed stays one. -/
theorem placed_createInternal {name : Str} {ro : Bool} {r : ℕ × LatencyFS}
    (hnorm : normalizePath name cwd = .ok norm)
    (h : createInternal cwd name content ro fs = .ok r) :
    ∃ idx e ro', Placed fs.files r.2.files norm content ro' idx e ∧ (ro' = true → ro = true) ∧
      r.2.vram = fs.vram := by
  unfold createInternal at h
  split at h
  · cases h
  obtain ⟨norm', hnorm', h⟩ := bind_eq_ok h
  rw [hnorm] at hnorm'
  cases hnorm'
  dsimp only at h
  cases hfind : fs.files.findIdx? (named norm) with
  | some i =>
    obtain ⟨e, he, hnamed⟩ := getElem?_of_findIdx? hfind
    obtain ⟨hused, hname⟩ := named_iff.mp hnamed
    obtain ⟨hlt, -, hfirst⟩ := List.findIdx?_eq_some_iff_getElem.mp hfind
    rw [hfind] at h
    simp only [getD_of_getElem? he] at h
    split at h
    · cases h
    · next hro =>
      cases h
      have hwritable : e.readOnly = false := Bool.eq_false_iff.mpr hro
      have hrow : ({ e with isDir := false, data := content } : FileEntry) =
          ⟨norm, content, false, false, true⟩ := by rw [hname, hused, hwritable]
      refine ⟨i, e, false, ⟨he, fun _ => ⟨hname, hwritable⟩, fun j f hj hf => ?_, ?_⟩,
        fun h => absurd h Bool.false_ne_true, rfl⟩
      · obtain ⟨hjlt, rfl⟩ := List.getElem?_eq_some_iff.mp hf
        rcases hj with hj | hfree
        · simpa using hfirst j hj
        · rw [hused] at hfree
          cases hfree
      · rw [← hrow]
  | none =>
    have hnone := named_of_findIdx?_none hfind
    rw [hfind] at h
    cases hfree : fs.files.findIdx? (!·.used) with
    | none =>
      rw [hfree] at h
      cases h
    | some i =>
      rw [hfree] at h
      cases h
      obtain ⟨e, he, hfreed⟩ := getElem?_of_findIdx? hfree
      have hunused : e.used = false := by simpa using hfreed
      refine ⟨i, e, ro, ⟨he, fun hused => ?_, fun j f _ hf => hnone f (List.mem_of_getElem? hf),
        rfl⟩, id, rfl⟩
      rw [hunused] at hused
      cases hused

/-- After a write the file reads back, and every other used entry is as it was. -/
theorem read_write (fs fs' : LatencyFS) (cwd p : Str) (content : List UInt8)
    (hvram : Vfs.isVramPath (trim p) = false) (h : write cwd p content fs = .ok fs') :
    read cwd p fs' = some content ∧
      ∃ norm, normalizePath p cwd = .ok norm ∧ ∀ (i : ℕ) (f : FileEntry), fs.files[i]? = some f →
        f.used = true → f.name ≠ norm → fs'.files[i]? = some f := by
  rw [write_table hvram] at h
  obtain ⟨r, hcreate, rfl⟩ := map_eq_ok h
  obtain ⟨norm, hnorm⟩ := normalizePath_of_createInternal hcreate
  obtain ⟨idx, e, ro, hplaced, -, -⟩ := placed_createInternal hnorm hcreate
  have hstored := hplaced.stored
  refine ⟨?_, norm, hnorm, hstored.others⟩
  have hfound : findFile r.2 (·.name == norm) = some content := hstored.found
  rw [read_table hnorm hvram, hfound]
  rfl

theorem firstFile_read_write :
    write ['/'] "a".toList [1, 2] (.new .zero) =
        .ok (step (.new .zero) (['/'], .write "a".toList [1, 2])) ∧
      read ['/'] "a".toList (step (.new .zero) (['/'], .write "a".toList [1, 2])) =
        some [1, 2] := by
  have hw : write ['/'] "a".toList [1, 2] (.new .zero) =
      .ok (step (.new .zero) (['/'], .write "a".toList [1, 2])) := rfl
  exact ⟨hw, (read_write _ _ _ _ _ (by decide +kernel) hw).1⟩

/-! ## Deleting -/

/-- No regular file has a name. -/
def NoFile (files : List FileEntry) (norm : Str) : Prop :=
  ∀ f ∈ files, f.used = true → f.name = norm → f.isDir = true

/-- A call puts a regular file at a path: it writes or copies to it, or renames a regular file to
it. -/
def PutsFile (norm : Str) (fs : LatencyFS) (call : Str × Op) : Prop :=
  target call.1 call.2 = some norm ∧
    match call.2 with
    | .rename oldName _ => ∃ f ∈ fs.files, f.used = true ∧ f.isDir = false ∧
        normalizePath oldName call.1 = .ok f.name
    | op => op.makes = some false

/-- A regular file that the fallbacks of `fs_read` find for a spelling. -/
def Fallback (files : List FileEntry) (clean : Str) : Prop :=
  ∃ f ∈ files, f.used = true ∧ f.isDir = false ∧
    (('/' ∈ f.name ∧ afterLast '/' f.name = clean) ∨ to83Name f.name = to83Name clean)

/-- A row that does not have the name keeps the name free. -/
theorem NoFile.set (h : NoFile files norm)
    (he : e.used = true → e.name = norm → e.isDir = true) : NoFile (files.set idx e) norm :=
  forall_mem_set h he

theorem noFile_step {call : Str × Op} (h : NoFile fs.files norm) (hcall : ¬ PutsFile norm fs call) :
    NoFile (step fs call).files norm := by
  obtain ⟨cwd, op⟩ := call
  cases change_step fs (cwd, op) with
  | same heq => rwa [heq]
  | fill idx e content he hused hname hop hlen heq =>
    rw [heq]
    refine h.set fun _ hnorm => absurd ⟨?_, ?_⟩ hcall
    · rw [← hnorm]
      exact hname
    · cases op <;> first | exact hop | cases hop
  | insert idx e e' he hfree hname hnew hop hlen heq =>
    rw [heq]
    refine h.set fun _ hnorm => ?_
    by_contra hdir
    have hfile : op.makes = some false := by
      rw [hop, Bool.not_eq_true _ |>.mp hdir]
    refine hcall ⟨by rw [← hnorm]; exact hname, ?_⟩
    cases op <;> first | exact hfile | cases hfile
  | clear idx name hop heq =>
    rw [heq]
    exact h.set fun hused => absurd hused (by decide)
  | rename idx e oldName newName norm' hop he hused hold hname hnew heq =>
    cases hop
    rw [heq]
    refine h.set fun _ hnorm => ?_
    by_contra hdir
    refine hcall ⟨by rw [← hnorm]; exact hname, e, List.mem_of_getElem? he, hused,
      Bool.not_eq_true _ |>.mp hdir, hold⟩

theorem noFile_run {calls : List (Str × Op)} (h : NoFile fs.files norm)
    (hcalls : AlongFold step (fun fs call => ¬ PutsFile norm fs call) fs calls) :
    NoFile (run fs calls).files norm :=
  foldl_invariant (I := fun fs : LatencyFS => NoFile fs.files norm)
    (fun _ _ h hcall => noFile_step h hcall) h hcalls

/-- The name of a deleted file is free, as names are unique. -/
theorem noFile_delete (hu : Unique fs.files) (hnorm : normalizePath p cwd = .ok norm)
    (h : delete cwd p fs = .ok fs') : NoFile fs'.files norm := by
  obtain ⟨norm', hnorm', h⟩ := bind_eq_ok h
  rw [hnorm] at hnorm'
  cases hnorm'
  split at h
  · cases h
  cases hfind : fs.files.findIdx? (named norm) with
  | none =>
    rw [hfind] at h
    cases h
  | some i =>
    obtain ⟨e, he, hnamed⟩ := getElem?_of_findIdx? hfind
    obtain ⟨hused, hname⟩ := named_iff.mp hnamed
    rw [hfind] at h
    simp only [getD_of_getElem? he] at h
    split at h
    · cases h
    · cases h
      intro f hf hfused hfname
      obtain ⟨j, hj⟩ := List.mem_iff_getElem?.mp hf
      rcases getElem?_set_cases hj with ⟨-, rfl⟩ | ⟨hne, hj'⟩
      · cases hfused
      · exact absurd (hu j i f e hj' he hfused hused (hfname.trans hname.symm)) hne

theorem findFile_eq_none_iff {q : FileEntry → Bool} : findFile fs q = none ↔
    ∀ f ∈ fs.files, f.used = true → f.isDir = false → q f = false := by
  simp [findFile, and_imp]

/-- Where no file has the path, reading it is left to the fallbacks. -/
theorem read_eq_none_iff (hnorm : normalizePath p cwd = .ok norm)
    (hvram : Vfs.isVramPath (trim p) = false) (h : NoFile fs.files norm) :
    read cwd p fs = none ↔ ¬ Fallback fs.files (trim p) := by
  have hexact : findFile fs (·.name == norm) = none := by
    rw [findFile_eq_none_iff]
    intro f hf hused hdir
    rw [beq_eq_false_iff_ne]
    intro hname
    rw [h f hf hused hname] at hdir
    cases hdir
  have horElse : ∀ x y : Option (List UInt8), (none <|> x <|> y) = none ↔ x = none ∧ y = none := by
    intro x y
    cases x <;> simp
  rw [read_table hnorm hvram, hexact, horElse, findFile_eq_none_iff, findFile_eq_none_iff]
  constructor
  · rintro ⟨hbase, h83⟩ ⟨f, hf, hused, hdir, ⟨hslash, hlast⟩ | hshort⟩
    · have hno := hbase f hf hused hdir
      simp [hslash, hlast] at hno
    · have hno := h83 f hf hused hdir
      simp [hshort] at hno
  · intro hnone
    refine ⟨fun f hf hused hdir => ?_, fun f hf hused hdir => ?_⟩
    · by_contra hyes
      refine hnone ⟨f, hf, hused, hdir, .inl ?_⟩
      simpa using hyes
    · by_contra hyes
      refine hnone ⟨f, hf, hused, hdir, .inr ?_⟩
      simpa using hyes

/-- Two files with the same last part in different directories. -/
def twins : List (Str × Op) :=
  [("/".toList, .write "/x/f".toList [1]), ("/".toList, .write "/y/f".toList [2])]

end Fs

end LatencyOS
