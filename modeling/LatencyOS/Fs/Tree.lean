import LatencyOS.Fs.Invariant

/-!
# LatencyFS as a tree

The hierarchy is in the path strings only, and no operation looks at the other rows of the
table.  The table stays a tree along the runs in which every operation respects the rows that
are there: this is what `TreeStep` asks of the state before a step.
-/

namespace LatencyOS

namespace Fs

/-- A path is a proper prefix of another, component by component. -/
def PathPrefix (p q : Str) : Prop := ∃ rest, q = p ++ '/' :: rest

theorem below_iff {p q : Str} : below p q = true ↔ PathPrefix p q := by
  simp only [below, Vfs.startsWith, Bool.and_eq_true, List.isPrefixOf_iff_prefix, beq_iff_eq]
  constructor
  · rintro ⟨⟨t, rfl⟩, hhead⟩
    rw [List.drop_left] at hhead
    obtain ⟨rest, rfl⟩ := List.head?_eq_some_iff.mp hhead
    exact ⟨rest, rfl⟩
  · rintro ⟨rest, rfl⟩
    exact ⟨List.prefix_append _ _, by simp⟩

theorem not_pathPrefix_self (p : Str) : ¬ PathPrefix p p := by
  rintro ⟨rest, h⟩
  have hlen := congrArg List.length h
  simp at hlen

/-- No regular file lies above another entry, and the root is not a regular file. -/
structure Tree (files : List FileEntry) : Prop where
  leaf : ∀ f ∈ files, ∀ g ∈ files, f.used = true → f.isDir = false → g.used = true →
    ¬ PathPrefix f.name g.name
  root : ∀ f ∈ files, f.used = true → f.isDir = false → f.name ≠ ['/']

/-- Directories stay directories: the rows of the table, and what `fs_is_dir` answers. -/
structure DirsKept (fs fs' : LatencyFS) : Prop where
  rows : ∀ f ∈ fs.files, f.used = true → f.isDir = true → f ∈ fs'.files
  isDir : ∀ cwd path, isDir cwd path fs = true → isDir cwd path fs' = true

/-- Whether a new row respects an old one: no regular file above it and, if it is a regular
file itself, nothing below it and no directory in its place. -/
def respects (name : Str) (dir : Bool) (g : FileEntry) : Bool :=
  (g.isDir || !below g.name name) &&
    (dir || (!below name g.name && (!g.isDir || g.name != name)))

/-- A new row respects all used rows, but for one that is moved away. -/
def fits (files : List FileEntry) (name : Str) (dir : Bool) (moved : Option Str) : Bool :=
  (dir || name != ['/']) &&
    files.all fun g => !g.used || some g.name == moved || respects name dir g

/-- Whether an operation respects the rows that are there. -/
def respectsRows (fs : LatencyFS) (cwd : Str) (op : Op) (name : Str) : Bool :=
  match op, op.makes with
  | _, some dir => fits fs.files name dir none
  | .rename oldName _, none =>
    match normalizePath oldName cwd with
    | .error _ => true
    | .ok oldNorm =>
      fs.files.all fun f => !named oldNorm f || fits fs.files name f.isDir (some oldNorm)
  | _, none => true

/-- What a step must respect in the state before it. -/
def TreeStep (fs : LatencyFS) (call : Str × Op) : Prop :=
  ∀ name ∈ target call.1 call.2, respectsRows fs call.1 call.2 name = true

/-- A property of every step of a run and the state before it. -/
def AllSteps (P : LatencyFS → Str × Op → Prop) : LatencyFS → List (Str × Op) → Prop
  | _, [] => True
  | fs, call :: calls => P fs call ∧ AllSteps P (step fs call) calls

instance decidableTreeStep (fs : LatencyFS) (call : Str × Op) : Decidable (TreeStep fs call) :=
  inferInstanceAs (Decidable (∀ name ∈ target call.1 call.2, _))

instance decidableAllSteps (P : LatencyFS → Str × Op → Prop) [∀ fs call, Decidable (P fs call)] :
    (fs : LatencyFS) → (calls : List (Str × Op)) → Decidable (AllSteps P fs calls)
  | _, [] => isTrue trivial
  | fs, call :: calls =>
    have := decidableAllSteps P (step fs call) calls
    inferInstanceAs (Decidable (P fs call ∧ AllSteps P (step fs call) calls))

/-! ## One step -/

variable {cwd : Str} {fs : LatencyFS} {files files' : List FileEntry} {name : Str} {dir : Bool}
  {moved : Option Str}

theorem respects_spec {g : FileEntry} (h : respects name dir g = true) :
    (g.isDir = false → ¬ PathPrefix g.name name) ∧
      (dir = false → ¬ PathPrefix name g.name ∧ (g.isDir = true → g.name ≠ name)) := by
  simp only [respects, Bool.and_eq_true, Bool.or_eq_true, Bool.not_eq_true', bne_iff_ne] at h
  simp only [← below_iff, Bool.not_eq_true]
  refine ⟨fun hdir => ?_, fun hdir => ?_⟩
  · exact h.1.resolve_left (by simp [hdir])
  · have hfile := h.2.resolve_left (by simp [hdir])
    exact ⟨hfile.1, fun hg => hfile.2.resolve_left (by simp [hg])⟩

theorem fits_spec (h : fits files name dir moved = true) :
    (dir = false → name ≠ ['/']) ∧
      ∀ g ∈ files, g.used = true → some g.name ≠ moved → respects name dir g = true := by
  simp only [fits, Bool.and_eq_true, Bool.or_eq_true, bne_iff_ne, List.all_eq_true, beq_iff_eq,
    Bool.not_eq_true'] at h
  refine ⟨fun hdir => h.1.resolve_left (by simp [hdir]), fun g hg hused hmoved => ?_⟩
  rcases h.2 g hg with (hfree | heq) | hresp
  · rw [hused] at hfree
    cases hfree
  · exact absurd heq hmoved
  · exact hresp

/-- A replaced row that respects the others keeps the tree. -/
theorem Tree.set (h : Tree files) {idx : ℕ} {e : FileEntry}
    (hroot : e.used = true → e.isDir = false → e.name ≠ ['/'])
    (hresp : ∀ (i : ℕ) (g : FileEntry), i ≠ idx → files[i]? = some g → g.used = true →
      e.used = true → respects e.name e.isDir g = true) : Tree (files.set idx e) where
  leaf := by
    intro f hf g hg hfu hfd hgu hprefix
    obtain ⟨i, hi⟩ := List.mem_iff_getElem?.mp hf
    obtain ⟨j, hj⟩ := List.mem_iff_getElem?.mp hg
    rcases getElem?_set_cases hi with ⟨rfl, rfl⟩ | ⟨hne, hi'⟩
    · rcases getElem?_set_cases hj with ⟨rfl, rfl⟩ | ⟨hne', hj'⟩
      · exact not_pathPrefix_self _ hprefix
      · exact ((respects_spec (hresp j g hne' hj' hgu hfu)).2 hfd).1 hprefix
    · rcases getElem?_set_cases hj with ⟨rfl, rfl⟩ | ⟨hne', hj'⟩
      · exact (respects_spec (hresp i f hne hi' hfu hgu)).1 hfd hprefix
      · exact h.leaf f (List.mem_of_getElem? hi') g (List.mem_of_getElem? hj') hfu hfd hgu hprefix
  root := by
    intro f hf hfu hfd
    rcases List.mem_or_eq_of_mem_set hf with hf | rfl
    · exact h.root f hf hfu hfd
    · exact hroot hfu hfd

/-- A step that makes a row finds that it fits. -/
theorem fits_of_treeStep {op : Op} (h : TreeStep fs (cwd, op)) (hname : target cwd op = some name)
    (hop : op.makes = some dir) : fits fs.files name dir none = true := by
  have hrows : respectsRows fs cwd op name = true := h name hname
  unfold respectsRows at hrows
  rw [hop] at hrows
  exact hrows

theorem fits_of_rename {oldName newName oldNorm : Str} {e : FileEntry}
    (h : TreeStep fs (cwd, .rename oldName newName))
    (hname : target cwd (.rename oldName newName) = some name)
    (hold : normalizePath oldName cwd = .ok oldNorm) (he : e ∈ fs.files)
    (hnamed : named oldNorm e = true) : fits fs.files name e.isDir (some oldNorm) = true := by
  have hrows : respectsRows fs cwd (.rename oldName newName) name = true := h name hname
  simp only [respectsRows, Op.makes, hold, List.all_eq_true, Bool.or_eq_true] at hrows
  exact (hrows e he).resolve_left (by simp [hnamed])

/-- A step that respects the rows that are there keeps the tree. -/
theorem tree_step {call : Str × Op} (h : Tree fs.files) (hu : Unique fs.files)
    (hstep : TreeStep fs call) : Tree (step fs call).files := by
  cases change_step fs call with
  | same heq => rwa [heq]
  | fill idx e content he hused hname hop hlen heq =>
    obtain ⟨hroot, hresp⟩ := fits_spec (fits_of_treeStep hstep hname hop)
    rw [heq]
    refine h.set (fun _ => hroot) fun i g _ hg hgu _ => ?_
    exact hresp g (List.mem_of_getElem? hg) hgu (Option.some_ne_none _)
  | insert idx e e' he hfree hname hnew hop hlen heq =>
    obtain ⟨hroot, hresp⟩ := fits_spec (fits_of_treeStep hstep hname hop)
    rw [heq]
    refine h.set (fun _ => hroot) fun i g _ hg hgu _ => ?_
    exact hresp g (List.mem_of_getElem? hg) hgu (Option.some_ne_none _)
  | clear idx name hop heq =>
    rw [heq]
    exact h.set (fun hused => absurd hused (by decide)) fun _ _ _ _ _ hused =>
      absurd hused (by decide)
  | rename idx e oldName newName norm hop he hused hold hname hnew heq =>
    obtain ⟨cwd, op⟩ := call
    cases hop
    obtain ⟨hroot, hresp⟩ := fits_spec (fits_of_rename hstep hname hold
      (List.mem_of_getElem? he) (named_iff.mpr ⟨hused, rfl⟩))
    rw [heq]
    refine h.set (fun _ => hroot) fun i g hi hg hgu _ => ?_
    -- names are unique: no other row is the one that is moved
    refine hresp g (List.mem_of_getElem? hg) hgu fun hsame => ?_
    exact hi (hu i idx g e hg he hgu hused (Option.some.inj hsame))

theorem mem_set_of_ne {α : Type} {l : List α} {i idx : ℕ} {a b : α} (hi : l[i]? = some a)
    (hne : i ≠ idx) : a ∈ l.set idx b := by
  refine List.mem_iff_getElem?.mpr ⟨i, ?_⟩
  rw [List.getElem?_set_ne (Ne.symm hne), hi]

/-- An operation that makes something leaves every used row its name. -/
theorem Change.names_kept {op : Op} (h : Change cwd op files files') (hop : op.makes ≠ none)
    {f : FileEntry} (hf : f ∈ files) (hused : f.used = true) :
    ∃ f' ∈ files', f'.used = true ∧ f'.name = f.name := by
  obtain ⟨i, hi⟩ := List.mem_iff_getElem?.mp hf
  have hlt : i < files.length := (List.getElem?_eq_some_iff.mp hi).1
  cases h with
  | same heq => exact ⟨f, heq ▸ hf, hused, rfl⟩
  | fill idx e content he hu hname hop' hlen heq =>
    rw [heq]
    by_cases hne : i = idx
    · subst hne
      rw [hi] at he
      cases he
      exact ⟨_, List.mem_set hlt _, hu, rfl⟩
    · exact ⟨f, mem_set_of_ne hi hne, hused, rfl⟩
  | insert idx e e' he hfree hname hnew hop' hlen heq =>
    rw [heq]
    refine ⟨f, mem_set_of_ne hi fun hne => ?_, hused, rfl⟩
    subst hne
    rw [hi] at he
    cases he
    rw [hused] at hfree
    cases hfree
  | clear idx name hop' heq =>
    subst hop'
    exact absurd rfl hop
  | rename idx e oldName newName norm hop' he hu hold hname hnew heq =>
    subst hop'
    exact absurd rfl hop

/-- A step that makes something and respects the rows that are there leaves the rows of
directories alone. -/
theorem dirs_kept {call : Str × Op} (hstep : TreeStep fs call) (hop : call.2.makes ≠ none)
    {f : FileEntry} (hf : f ∈ fs.files) (hused : f.used = true) (hdir : f.isDir = true) :
    f ∈ (step fs call).files := by
  obtain ⟨i, hi⟩ := List.mem_iff_getElem?.mp hf
  cases change_step fs call with
  | same heq => rwa [heq]
  | fill idx e content he hu hname hop' hlen heq =>
    rw [heq]
    refine mem_set_of_ne hi fun hne => ?_
    subst hne
    rw [hi] at he
    cases he
    have hresp :=
      (fits_spec (fits_of_treeStep hstep hname hop')).2 f hf hused (Option.some_ne_none _)
    exact ((respects_spec hresp).2 rfl).2 hdir rfl
  | insert idx e e' he hfree hname hnew hop' hlen heq =>
    rw [heq]
    refine mem_set_of_ne hi fun hne => ?_
    subst hne
    rw [hi] at he
    cases he
    rw [hused] at hfree
    cases hfree
  | clear idx name hop' heq =>
    rw [hop'] at hop
    exact absurd rfl hop
  | rename idx e oldName newName norm hop' he hu hold hname hnew heq =>
    rw [hop'] at hop
    exact absurd rfl hop

theorem dirsKept_step {call : Str × Op} (hstep : TreeStep fs call) (hop : call.2.makes ≠ none) :
    DirsKept fs (step fs call) where
  rows := fun _ hf hused hdir => dirs_kept hstep hop hf hused hdir
  isDir := by
    intro cwd path h
    unfold isDir at h ⊢
    dsimp only at h ⊢
    split
    · rfl
    · next hspecial =>
      rw [if_neg hspecial] at h
      split
      · rfl
      · next hvram =>
        rw [if_neg hvram] at h
        split at h
        · cases h
        · simp only [Bool.or_eq_true, List.any_eq_true, Bool.and_eq_true, beq_iff_eq] at h ⊢
          rcases h with (h | ⟨f, hf, ⟨hused, hdir⟩, hname⟩) | ⟨f, hf, hused, hbelow⟩
          · exact .inl (.inl h)
          · exact .inl (.inr ⟨f, dirs_kept hstep hop hf hused hdir, ⟨hused, hdir⟩, hname⟩)
          · obtain ⟨f', hf', hused', hname'⟩ := (change_step fs call).names_kept hop hf hused
            exact .inr ⟨f', hf', hused', hname' ▸ hbelow⟩

theorem unique_new (vram : Vram) : Unique (LatencyFS.new vram).files :=
  (repInvariant_new vram).unique

theorem tree_new (vram : Vram) : Tree (LatencyFS.new vram).files := by
  have hunused : ∀ f ∈ (LatencyFS.new vram).files, f.used ≠ true := by
    intro f hf
    rw [List.eq_of_mem_replicate hf]
    decide
  exact ⟨fun f hf _ _ hfu => absurd hfu (hunused f hf), fun f hf hfu => absurd hfu (hunused f hf)⟩

/-- What is claimed of a run: a tree at its end, and before that no step but a deletion or a
renaming that took a directory away. -/
def TreeRun (fs : LatencyFS) (calls : List (Str × Op)) : Prop :=
  Tree (run fs calls).files ∧
    AllSteps (fun fs call => call.2.makes ≠ none → DirsKept fs (step fs call)) fs calls

theorem treeRun_of_steps {calls : List (Str × Op)} (h : Tree fs.files) (hu : Unique fs.files)
    (hsteps : AllSteps TreeStep fs calls) : TreeRun fs calls := by
  induction calls generalizing fs with
  | nil => exact ⟨h, trivial⟩
  | cons call calls ih =>
    have hu' := (change_step fs call).unique hu
    have htail := ih (tree_step h hu hsteps.1) hu' hsteps.2
    exact ⟨htail.1, fun hop => dirsKept_step hsteps.1 hop, htail.2⟩

/-- A run from the empty table whose steps all respect the rows that are there keeps the tree. -/
theorem tree_run (vram : Vram) (calls : List (Str × Op))
    (hsteps : AllSteps TreeStep (LatencyFS.new vram) calls) :
    TreeRun (LatencyFS.new vram) calls :=
  treeRun_of_steps (tree_new vram) (unique_new vram) hsteps

theorem smallRun_tree :
    AllSteps TreeStep (LatencyFS.new .zero) smallRun ∧
      TreeRun (LatencyFS.new .zero) smallRun := by
  have hsteps : AllSteps TreeStep (LatencyFS.new .zero) smallRun := by decide +kernel
  exact ⟨hsteps, tree_run _ _ hsteps⟩

/-- A file below a file. -/
def nestedFiles : List (Str × Op) :=
  [("/".toList, .write "/a".toList [1]), ("/".toList, .write "/a/b".toList [2])]

theorem nestedFiles_breaks :
    ¬ ∀ (vram : Vram) (calls : List (Str × Op)), TreeRun (LatencyFS.new vram) calls := by
  intro h
  have hfirst : (run (LatencyFS.new .zero) nestedFiles).files[0]? =
      some ⟨"/a".toList, [1], false, false, true⟩ := by decide +kernel
  have hsecond : (run (LatencyFS.new .zero) nestedFiles).files[1]? =
      some ⟨"/a/b".toList, [2], false, false, true⟩ := by decide +kernel
  have hleaf := (h .zero nestedFiles).1.leaf _ (List.mem_of_getElem? hfirst) _
    (List.mem_of_getElem? hsecond) rfl rfl rfl
  exact hleaf ⟨['b'], by decide +kernel⟩

end Fs

end LatencyOS
