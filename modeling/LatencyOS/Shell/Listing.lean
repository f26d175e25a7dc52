import LatencyOS.Fs.PathBuffer
import LatencyOS.Fs.Tree

/-!
# Listing a directory

`ls` joins its argument to the current directory in a buffer of its own, without the resolution of
paths that the file system makes, and lists the entries whose names lie directly behind the result.
How a row is printed is left out.
-/

namespace LatencyOS.Shell

open Buffer Fs

/-- `str::split_whitespace`. -/
def splitWhitespace (s : Str) : List Str := (s.splitOnP isWhitespace).filter (· ≠ [])

/-- `trim_end_matches('/')` -/
def trimEndSlashes (s : Str) : Str := s.rdropWhile (· == '/')

/-- What the words of the argument set.  The word is copied to a buffer that it fits. -/
structure LsOptions where
  isLong : Bool
  isTiming : Bool
  targetDir : Str

/-- One turn of the loop over the words. -/
def LsOptions.word (o : LsOptions) (w : Str) : LsOptions :=
  if w = "-l".toList ∨ w = "-la".toList ∨ w = "-al".toList then { o with isLong := true }
  else if w = "-t".toList ∨ w = "-timing".toList then { o with isTiming := true }
  else if w.head? ≠ some '-' then
    if byteLen w < maxFilenameLen then { o with targetDir := w } else o
  else o

/-- The loop over the words. -/
def lsOptions (arg : Str) : LsOptions :=
  (splitWhitespace arg).foldl LsOptions.word ⟨false, false, []⟩

/-- The directory in `norm_dir_buf`, and its length. -/
def normDir (raw cwd : Str) : Option (List UInt8 × ℕ) :=
  let trimmed := trimEndSlashes raw
  let buf := List.replicate maxFilenameLen 0
  if trimmed = [] then do
    let buf ← store buf 0 [0x2F]
    some (buf, 1)
  else if trimmed.head? = some '/' then do
    let buf ← store buf 0 (utf8 trimmed)
    some (buf, byteLen trimmed)
  else if cwd = ['/'] then do
    let buf ← store buf 0 [0x2F]
    let buf ← store buf 1 (utf8 trimmed)
    some (buf, 1 + byteLen trimmed)
  else do
    let buf ← store buf 0 (utf8 cwd)
    let buf ← store buf (byteLen cwd) [0x2F]
    let buf ← store buf (byteLen cwd + 1) (utf8 trimmed)
    some (buf, byteLen cwd + 1 + byteLen trimmed)

/-- One component, and nothing else. -/
def single (rel : Str) : Option Str := if '/' ∉ rel ∧ rel ≠ [] then some rel else none

/-- What is behind the directory in a name, if it is one component. -/
def displayName (curDir name : Str) : Option Str :=
  if curDir = ['/'] then
    if name.head? = some '/' then single (name.drop 1) else single name
  else if below curDir name then single (name.drop (curDir.length + 1))
  else none

/-- An entry of the table, and the name it is listed under. -/
def row (curDir : Str) (f : FileEntry) : Option (FileEntry × Str) :=
  if f.used = false then none
  else if f.isDir = true ∧ f.name = curDir then none
  else (displayName curDir f.name).map (f, ·)

/-- What is listed: the files of the GPU, or entries of the table. -/
inductive Listing
  | vram
  | rows (rows : List (FileEntry × Str))

/-- `ls` -/
def ls (arg cwd : Str) (files : List FileEntry) : Option Listing := do
  let o := lsOptions arg
  let raw := if o.targetDir = [] then cwd else o.targetDir
  let (buf, len) ← normDir raw cwd
  let text ← load buf 0 len
  let curDir := (fromUtf8 text).getD ['/']
  if curDir = "/vram".toList ∨ curDir = "vram".toList then some .vram
  else some (.rows (files.filterMap (row curDir)))

/-! ## Direct children -/

/-- A name stands directly behind a directory. -/
def ChildOf (dir name last : Str) : Prop :=
  last ≠ [] ∧ '/' ∉ last ∧ name = (if dir = ['/'] then [] else dir) ++ '/' :: last

/-- Rows are the direct children of a directory, each once, under its last component. -/
structure Lists (files : List FileEntry) (dir : Str) (rows : List (FileEntry × Str)) : Prop where
  once : rows.Nodup
  mem : ∀ f last, (f, last) ∈ rows ↔ f ∈ files ∧ f.used = true ∧ ChildOf dir f.name last

/-- There are no children. -/
def Childless (files : List FileEntry) (dir : Str) : Prop :=
  ∀ f ∈ files, f.used = true → ∀ last, ¬ ChildOf dir f.name last

/-- A path behind the current directory, without trailing slashes. -/
def spelledOut (raw cwd : Str) : Str :=
  if trimEndSlashes (joined raw cwd) = [] then ['/'] else trimEndSlashes (joined raw cwd)

/-- What an argument spells.  One that starts with a dash is taken for an option. -/
def spelled (d cwd : Str) : Str := spelledOut (if d.head? = some '-' then cwd else d) cwd

variable {files : List FileEntry} {dir dir' name last d cwd n : Str} {f : FileEntry}

theorem single_eq_some {rel : Str} :
    single rel = some last ↔ last ≠ [] ∧ '/' ∉ last ∧ rel = last := by
  rw [single]
  split
  case isTrue h =>
    rw [Option.some.injEq]
    constructor
    · rintro rfl
      exact ⟨h.2, h.1, rfl⟩
    · exact fun hlast => hlast.2.2
  case isFalse h =>
    refine iff_of_false nofun ?_
    rintro ⟨hne, hslash, rfl⟩
    exact h ⟨hslash, hne⟩

theorem displayName_eq_some (hname : AbsPath name) :
    displayName dir name = some last ↔ ChildOf dir name last := by
  rw [displayName, ChildOf]
  by_cases hroot : dir = ['/']
  · obtain ⟨rel, rfl⟩ := List.head?_eq_some_iff.mp hname.head
    rw [if_pos hroot, if_pos List.head?_cons, if_pos hroot, single_eq_some, List.drop_one,
      List.tail_cons, List.nil_append, List.cons.injEq, and_iff_right rfl]
  rw [if_neg hroot, if_neg hroot]
  split
  case isTrue hbelow =>
    obtain ⟨rest, rfl⟩ := below_iff.mp hbelow
    have hdrop : (dir ++ '/' :: rest).drop (dir.length + 1) = rest := by
      rw [List.append_cons]
      exact List.drop_left' (by rw [List.length_append, List.length_singleton])
    rw [hdrop, single_eq_some, List.append_cancel_left_eq, List.cons.injEq, and_iff_right rfl]
  case isFalse hbelow =>
    refine iff_of_false nofun ?_
    rintro ⟨-, -, rfl⟩
    exact hbelow (below_iff.mpr ⟨last, rfl⟩)

theorem ChildOf.ne (h : ChildOf dir name last) : name ≠ dir := by
  obtain ⟨hne, -, rfl⟩ := h
  intro heq
  have hlen := congrArg List.length heq
  rw [List.length_append, List.length_cons] at hlen
  split at hlen
  case isTrue hroot =>
    rw [hroot] at hlen
    have hpos := List.length_pos_of_ne_nil hne
    simp only [List.length_nil, List.length_singleton] at hlen
    omega
  case isFalse => omega

/-- The row of a used entry is there exactly for the children. -/
theorem row_eq_some (hname : f.used = true → AbsPath f.name) {r : FileEntry × Str} :
    row dir f = some r ↔ f = r.1 ∧ f.used = true ∧ ChildOf dir f.name r.2 := by
  obtain ⟨g, last⟩ := r
  rw [row]
  cases hused : f.used with
  | false => exact iff_of_false nofun fun h => Bool.false_ne_true h.2.1
  | true =>
    rw [if_neg (by decide)]
    split
    case isTrue hskip =>
      exact iff_of_false nofun fun h => h.2.2.ne hskip.2
    case isFalse =>
      rw [Option.map_eq_some_iff]
      constructor
      · rintro ⟨last', hlast, heq⟩
        obtain ⟨rfl, rfl⟩ := Prod.mk.inj heq
        exact ⟨rfl, rfl, (displayName_eq_some (hname hused)).mp hlast⟩
      · rintro ⟨rfl, -, hchild⟩
        exact ⟨last, (displayName_eq_some (hname hused)).mpr hchild, rfl⟩

/-- What is listed of a directory are its direct children. -/
theorem lists_filterMap (h : RepInvariant files) (dir : Str) :
    Lists files dir (files.filterMap (row dir)) where
  once := by
    rw [List.Nodup, List.pairwise_filterMap, List.pairwise_iff_getElem]
    rintro i j hi hj hij r hr r' hr' rfl
    obtain ⟨heq, hused, -⟩ := (row_eq_some (h.path _ (List.getElem_mem hi))).mp hr
    obtain ⟨heq', hused', -⟩ := (row_eq_some (h.path _ (List.getElem_mem hj))).mp hr'
    have hname := congrArg FileEntry.name (heq.trans heq'.symm)
    exact Nat.ne_of_lt hij (h.unique i j _ _ (List.getElem?_eq_getElem hi)
      (List.getElem?_eq_getElem hj) hused hused' hname)
  mem := by
    intro f last
    rw [List.mem_filterMap]
    constructor
    · rintro ⟨g, hg, hrow⟩
      obtain ⟨rfl, hused, hchild⟩ := (row_eq_some (h.path g hg)).mp hrow
      exact ⟨hg, hused, hchild⟩
    · rintro ⟨hf, hused, hchild⟩
      exact ⟨f, hf, (row_eq_some (h.path f hf)).mpr ⟨rfl, hused, hchild⟩⟩

/-- A name is directly behind one directory only. -/
theorem ChildOf.unique (hdir : dir ≠ []) (hdir' : dir' ≠ []) (h : ChildOf dir name last)
    (h' : ChildOf dir' name last) : dir = dir' := by
  have heq := h.2.2.symm.trans h'.2.2
  rw [List.append_cancel_right_eq] at heq
  split_ifs at heq with hroot hroot'
  · rw [hroot, hroot']
  · exact absurd heq.symm hdir'
  · exact absurd heq hdir
  · exact heq

/-- What is listed of a directory are the children of another one only where neither has any. -/
theorem lists_iff (h : RepInvariant files) (hdir : dir ≠ []) (hdir' : dir' ≠ []) :
    Lists files dir' (files.filterMap (row dir)) ↔
      dir = dir' ∨ Childless files dir ∧ Childless files dir' := by
  have hlists := lists_filterMap h dir
  constructor
  · intro hlists'
    by_cases heq : dir = dir'
    · exact .inl heq
    refine .inr ⟨fun f hf hused last hchild => ?_, fun f hf hused last hchild => ?_⟩
    · have hmem := (hlists'.mem f last).mp ((hlists.mem f last).mpr ⟨hf, hused, hchild⟩)
      exact heq (hchild.unique hdir hdir' hmem.2.2)
    · have hmem := (hlists.mem f last).mp ((hlists'.mem f last).mpr ⟨hf, hused, hchild⟩)
      exact heq (hmem.2.2.unique hdir hdir' hchild)
  · rintro (rfl | ⟨hnone, hnone'⟩)
    · exact hlists
    · refine ⟨hlists.once, fun f last => (hlists.mem f last).trans ?_⟩
      exact iff_of_false (fun hmem => hnone f hmem.1 hmem.2.1 last hmem.2.2)
        (fun hmem => hnone' f hmem.1 hmem.2.1 last hmem.2.2)

/-! ## The directory that is listed -/

theorem splitWhitespace_of_word (hne : d ≠ []) (hd : ∀ c ∈ d, isWhitespace c = false) :
    splitWhitespace d = [d] := by
  rw [splitWhitespace, List.splitOnP_eq_singleton hd, List.filter_cons_of_pos (by simpa using hne),
    List.filter_nil]

/-- The directory is the argument, unless that starts with a dash. -/
theorem lsOptions_targetDir (hne : d ≠ []) (hd : ∀ c ∈ d, isWhitespace c = false)
    (hlen : byteLen d < maxFilenameLen) :
    (lsOptions d).targetDir = if d.head? = some '-' then [] else d := by
  rw [lsOptions, splitWhitespace_of_word hne hd, List.foldl_cons, List.foldl_nil, LsOptions.word]
  by_cases hlong : d = "-l".toList ∨ d = "-la".toList ∨ d = "-al".toList
  · have hdash : d.head? = some '-' := by
      rcases hlong with rfl | rfl | rfl <;> rfl
    rw [if_pos hlong, if_pos hdash]
  rw [if_neg hlong]
  by_cases htiming : d = "-t".toList ∨ d = "-timing".toList
  · have hdash : d.head? = some '-' := by
      rcases htiming with rfl | rfl <;> rfl
    rw [if_pos htiming, if_pos hdash]
  rw [if_neg htiming, if_pos hlen]
  by_cases hdash : d.head? = some '-'
  · rw [if_neg (not_not_intro hdash), if_pos hdash]
  · rw [if_pos hdash, if_neg hdash]

theorem trimEndSlashes_append {a b : Str} (hb : trimEndSlashes b ≠ []) :
    trimEndSlashes (a ++ b) = a ++ trimEndSlashes b := by
  rw [trimEndSlashes, List.rdropWhile] at hb
  have hempty : (b.reverse.dropWhile (· == '/')).isEmpty = false := by
    rw [List.isEmpty_eq_false_iff]
    exact fun hnil => hb (by rw [hnil, List.reverse_nil])
  rw [trimEndSlashes, trimEndSlashes, List.rdropWhile, List.rdropWhile, List.reverse_append,
    List.dropWhile_append, hempty, if_neg Bool.false_ne_true, List.reverse_append,
    List.reverse_reverse]

theorem byteLen_trimEndSlashes_le (s : Str) : byteLen (trimEndSlashes s) ≤ byteLen s := by
  obtain ⟨t, ht⟩ := List.rdropWhile_prefix (· == '/') s
  have hlen := congrArg byteLen ht
  rw [byteLen_append] at hlen
  rw [trimEndSlashes]
  omega

theorem head_trimEndSlashes {s : Str} (h : trimEndSlashes s ≠ []) :
    (trimEndSlashes s).head? = s.head? := by
  obtain ⟨t, ht⟩ := List.rdropWhile_prefix (· == '/') s
  have happend : (trimEndSlashes s ++ t).head? = (trimEndSlashes s).head? :=
    List.head?_append_of_ne_nil _ h
  exact happend.symm.trans (congrArg List.head? ht)

/-- A path without its trailing slashes is nothing if it is slashes only. -/
theorem joined_of_trimEndSlashes_eq_nil (cwd : Str) {raw : Str} (hraw : raw ≠ [])
    (h : trimEndSlashes raw = []) : joined raw cwd = raw := by
  rw [trimEndSlashes, List.rdropWhile_eq_nil_iff] at h
  obtain ⟨c, r, rfl⟩ := List.exists_cons_of_ne_nil hraw
  have hc : c = '/' := by simpa using h c List.mem_cons_self
  rw [joined, hc, if_pos List.head?_cons]

/-- The buffer holds what the path spells. -/
theorem normDir_spec {raw : Str} (hraw : raw ≠ []) (hcwd : cwd ≠ [])
    (hlen : byteLen (joined raw cwd) < maxFilenameLen) :
    ∃ k, normDir raw cwd = some (utf8 (spelledOut raw cwd) ++ List.replicate k 0,
      byteLen (spelledOut raw cwd)) := by
  rw [normDir, spelledOut]
  by_cases hnil : trimEndSlashes raw = []
  · have hjoined := joined_of_trimEndSlashes_eq_nil cwd hraw hnil
    rw [if_pos hnil, if_pos (by rw [hjoined, hnil])]
    exact ⟨maxFilenameLen - 1, rfl⟩
  rw [if_neg hnil]
  have hhead := head_trimEndSlashes hnil
  have hle := byteLen_trimEndSlashes_le raw
  by_cases habs : (trimEndSlashes raw).head? = some '/'
  · have hjoined : joined raw cwd = raw := if_pos (hhead ▸ habs)
    rw [hjoined] at hlen ⊢
    rw [if_pos habs, if_neg hnil,
      store_zeros_front (show (utf8 (trimEndSlashes raw)).length ≤ maxFilenameLen from
        Nat.le_of_lt (Nat.lt_of_le_of_lt hle hlen))]
    exact ⟨_, rfl⟩
  have hrel : raw.head? ≠ some '/' := hhead ▸ habs
  rw [if_neg habs]
  by_cases hroot : cwd = ['/']
  · have hjoined : joined raw cwd = ['/'] ++ raw := by
      rw [joined, if_neg hrel, if_pos (.inr hroot)]
      rfl
    rw [hjoined, List.singleton_append, byteLen_slash] at hlen
    rw [if_pos hroot, hjoined, trimEndSlashes_append hnil,
      if_neg (List.append_ne_nil_of_left_ne_nil (List.cons_ne_nil _ _) _), Option.bind_eq_bind,
      store_behindRoot (by omega), List.singleton_append, byteLen_slash]
    exact ⟨_, rfl⟩
  · have hjoined : joined raw cwd = cwd ++ ['/'] ++ raw := by
      rw [joined, if_neg hrel, if_neg (not_or.mpr ⟨hcwd, hroot⟩), List.append_assoc,
        List.singleton_append]
    have hslash : byteLen ['/'] = 1 := rfl
    rw [hjoined, byteLen_append, byteLen_append, hslash] at hlen
    rw [if_neg hroot, hjoined, trimEndSlashes_append hnil,
      if_neg (List.append_ne_nil_of_right_ne_nil _ hnil), Option.bind_eq_bind,
      store_behindDir (by omega), byteLen_append, byteLen_append, hslash, List.append_assoc,
      List.singleton_append]
    exact ⟨_, rfl⟩

theorem spelledOut_head (raw : Str) (hcwd : NormalPath cwd) :
    (spelledOut raw cwd).head? = some '/' := by
  rw [spelledOut]
  split
  case isTrue => rfl
  case isFalse h => rw [head_trimEndSlashes h, joined_head hcwd]

theorem spelled_head (d : Str) (hcwd : NormalPath cwd) : (spelled d cwd).head? = some '/' :=
  spelledOut_head _ hcwd

theorem ne_nil_of_head {s : Str} (h : s.head? = some '/') : s ≠ [] := by
  rintro rfl
  cases h

theorem trim_of_word (hd : ∀ c ∈ d, isWhitespace c = false) : trim d = d := by
  cases hhead : d.head? with
  | none =>
    rw [List.head?_eq_none_iff.mp hhead]
    rfl
  | some c =>
    have hne : d ≠ [] := by
      rintro rfl
      cases hhead
    exact trim_eq_self hhead (List.getLast?_eq_getLast_of_ne_nil hne)
      (hd c (List.mem_of_mem_head? hhead)) (hd _ (List.getLast_mem hne))

theorem byteLen_le_joined (d cwd : Str) : byteLen d ≤ byteLen (joined d cwd) := by
  rw [joined]
  split_ifs
  · exact Nat.le_refl _
  · rw [byteLen_slash]
    omega
  · rw [byteLen_append, byteLen_slash]
    omega

/-- The directory is the argument, or the current one. -/
theorem ls_raw (hne : d ≠ []) (hd : ∀ c ∈ d, isWhitespace c = false)
    (hlen : byteLen d < maxFilenameLen) :
    (if (lsOptions d).targetDir = [] then cwd else (lsOptions d).targetDir) =
      if d.head? = some '-' then cwd else d := by
  rw [lsOptions_targetDir hne hd hlen]
  by_cases hdash : d.head? = some '-'
  · rw [if_pos hdash, if_pos rfl, if_pos hdash]
  · rw [if_neg hdash, if_neg hne, if_neg hdash]

/-- The directory that is listed is the one that is spelled, and the buffer is not overrun. -/
theorem ls_eq (hcwd : NormalPath cwd) (hshort : byteLen cwd < maxFilenameLen)
    (hd : ∀ c ∈ d, isWhitespace c = false) (hn : normalizePath d cwd = .ok n)
    (files : List FileEntry) :
    ls d cwd files =
      some (if spelled d cwd = "/vram".toList then .vram
        else .rows (files.filterMap (row (spelled d cwd)))) := by
  rw [normalizePath_eq hcwd, trim_of_word hd] at hn
  split at hn
  case isTrue => cases hn
  case isFalse hok =>
    obtain ⟨hne, hlong⟩ := not_or.mp hok
    have hlen : byteLen (joined d cwd) < maxFilenameLen := Nat.lt_of_not_le hlong
    have hcwdNe := ne_nil_of_head hcwd.head
    have hraw : (if d.head? = some '-' then cwd else d) ≠ [] ∧
        byteLen (joined (if d.head? = some '-' then cwd else d) cwd) < maxFilenameLen := by
      split_ifs
      · exact ⟨hcwdNe, by rwa [joined, if_pos hcwd.head]⟩
      · exact ⟨hne, hlen⟩
    obtain ⟨k, hnorm⟩ := normDir_spec hraw.1 hcwdNe hraw.2
    rw [← spelled] at hnorm
    have hload : load (utf8 (spelled d cwd) ++ List.replicate k 0) 0 (byteLen (spelled d cwd)) =
        some (utf8 (spelled d cwd)) :=
      load_append (Eq.refl ([] : List UInt8).length) rfl (List.replicate k 0)
    have hvram : spelled d cwd ≠ "vram".toList := fun heq => by
      have hhead := spelled_head d hcwd
      rw [heq] at hhead
      cases hhead
    rw [ls]
    dsimp only
    rw [ls_raw hne hd (Nat.lt_of_le_of_lt (byteLen_le_joined d cwd) hlen), hnorm,
      Option.bind_eq_bind, Option.bind_some]
    dsimp only
    rw [hload, Option.bind_eq_bind, Option.bind_some, fromUtf8_utf8, Option.getD_some]
    by_cases hgpu : spelled d cwd = "/vram".toList
    · rw [if_pos (.inl hgpu), if_pos hgpu]
    · rw [if_neg (not_or.mpr ⟨hgpu, hvram⟩), if_neg hgpu]

/-- `ls` lists the direct children of the directory its argument is resolved to, if and only if the
argument spells that directory out, or neither has any. -/
theorem ls_lists_iff (hrep : RepInvariant files) (hcwd : NormalPath cwd)
    (hshort : byteLen cwd < maxFilenameLen) (hd : ∀ c ∈ d, isWhitespace c = false)
    (hn : normalizePath d cwd = .ok n) (hvram : n ≠ "/vram".toList) :
    (∃ rows, ls d cwd files = some (.rows rows) ∧ Lists files n rows) ↔
      spelled d cwd = n ∨
        spelled d cwd ≠ "/vram".toList ∧ Childless files (spelled d cwd) ∧ Childless files n := by
  have hlists := lists_iff hrep (ne_nil_of_head (spelled_head d hcwd))
    (ne_nil_of_head (normalizePath_spec hn).1.head)
  rw [ls_eq hcwd hshort hd hn]
  by_cases hspelled : spelled d cwd = "/vram".toList
  · rw [if_pos hspelled]
    refine iff_of_false (by rintro ⟨rows, hrows, -⟩; cases hrows) ?_
    rintro (heq | hother)
    · exact hvram (heq.symm.trans hspelled)
    · exact hother.1 hspelled
  · rw [if_neg hspelled, and_iff_right hspelled, ← hlists]
    constructor
    · rintro ⟨rows, hrows, hlist⟩
      cases hrows
      exact hlist
    · exact fun hlist => ⟨_, rfl, hlist⟩

/-- A table with a directory and a file in it. -/
def smallTable : List FileEntry :=
  [⟨"/a".toList, [], true, false, true⟩, ⟨"/a/b".toList, [0x78], false, false, true⟩]

theorem repInvariant_smallTable : RepInvariant smallTable where
  unique := by
    intro i j e f he hf _ _ hname
    have hnames : (smallTable.map FileEntry.name).Nodup := by decide
    have hi : (smallTable.map FileEntry.name)[i]? = some e.name := by
      rw [List.getElem?_map, he]
      rfl
    have hj : (smallTable.map FileEntry.name)[j]? = some e.name := by
      rw [List.getElem?_map, hf, hname]
      rfl
    exact (List.getElem?_inj (List.getElem?_eq_some_iff.mp hi).1 hnames).mp (hi.trans hj.symm)
  path := by
    have ha : Component ['a'] := ⟨by decide, by decide, by decide, by decide⟩
    have hb : Component ['b'] := ⟨by decide, by decide, by decide, by decide⟩
    intro f hf _
    rcases List.mem_cons.mp hf with rfl | hf
    · exact ⟨[['a']], by decide, by simpa using ha, rfl⟩
    · obtain rfl := List.mem_singleton.mp hf
      exact ⟨[['a'], ['b']], by decide, by simpa using ⟨ha, hb⟩, rfl⟩
  utf8 := fun f _ _ => isValidUTF8_utf8 f.name
  short := by decide
  size := by decide

/-- The file is listed under its last component. -/
theorem ls_lists_smallTable :
    (∃ rows, ls "a".toList ['/'] smallTable = some (.rows rows) ∧
      Lists smallTable "/a".toList rows) ↔
      spelled "a".toList ['/'] = "/a".toList ∨
        spelled "a".toList ['/'] ≠ "/vram".toList ∧
          Childless smallTable (spelled "a".toList ['/']) ∧ Childless smallTable "/a".toList :=
  ls_lists_iff repInvariant_smallTable (.inl rfl) (by decide)
    (show ∀ c ∈ ['a'], isWhitespace c = false from List.forall_mem_singleton.mpr (by decide))
    (by decide +kernel) (by decide)

/-- `ls .` lists nothing in the root. -/
theorem dot_listsNothing :
    ¬ ∀ files cwd d n, RepInvariant files → NormalPath cwd → byteLen cwd < maxFilenameLen →
      (∀ c ∈ d, isWhitespace c = false) → byteLen d ≤ 63 → normalizePath d cwd = .ok n →
      (n = ['/'] ∨ ∃ f ∈ files, f.used = true ∧ f.isDir = true ∧ f.name = n) →
      n ≠ "/vram".toList → ∃ rows, ls d cwd files = some (.rows rows) ∧ Lists files n rows := by
  intro hall
  have hn : normalizePath ['.'] ['/'] = .ok ['/'] := by decide +kernel
  have hd : ∀ c ∈ ['.'], isWhitespace c = false := List.forall_mem_singleton.mpr (by decide)
  obtain ⟨rows, hrows, hlists⟩ := hall smallTable ['/'] ['.'] ['/'] repInvariant_smallTable
    (.inl rfl) (by decide) hd (by decide) hn (.inl rfl) (by decide)
  have hspelled : spelled ['.'] ['/'] = "/.".toList := by decide
  rw [ls_eq (.inl rfl) (by decide) hd hn, hspelled, if_neg (by decide)] at hrows
  cases hrows
  have hchild : ChildOf ['/'] "/a".toList ['a'] := ⟨by decide, by decide, rfl⟩
  have hmem := (hlists.mem _ ['a']).mpr ⟨List.mem_cons_self, rfl, hchild⟩
  revert hmem
  decide

end LatencyOS.Shell
