import LatencyOS.Fs.ReadBack

/-!
# What a path names

`fs_write` goes to a file of the GPU's memory or to a row of the table.  Two paths that name the
same are written alike; a write that names something else leaves it as it was.

## Main results

* `write_congr`: writes to one destination are the same
* `firstByte_write`, `firstByte_step_ne`: a write changes its destination and no other
* `accepts_of_write`, `accepts_write`: what takes a write takes every other and the next one
* `files_write_read`: a file that is read and written back stays
-/

namespace LatencyOS

namespace Fs

/-- A file of the GPU's memory, or the row of a resolved path. -/
inductive Destination
  | vram (file : VramFile)
  | row (norm : Str)
  deriving DecidableEq

/-- What a path names in a current directory. -/
def destination (cwd p : Str) : Option Destination :=
  if Vfs.isVramPath (trim p) then (Vfs.file? (trim p)).map .vram
  else (normalizePath p cwd).toOption.map .row

variable {cwd p q norm : Str} {fs fs' : LatencyFS} {files files' : List FileEntry}
  {content : List UInt8} {idx : ℕ} {e f : FileEntry} {d : Destination}

theorem destination_vram (h : Vfs.isVramPath (trim p) = true) :
    destination cwd p = (Vfs.file? (trim p)).map .vram := if_pos h

theorem destination_table (h : Vfs.isVramPath (trim p) = false) :
    destination cwd p = (normalizePath p cwd).toOption.map .row := by
  rw [destination, if_neg (by rw [h]; exact Bool.false_ne_true)]

theorem destination_eq_row (hvram : Vfs.isVramPath (trim p) = false) :
    destination cwd p = some (.row norm) ↔ normalizePath p cwd = .ok norm := by
  rw [destination_table hvram, Option.map_eq_some_iff]
  constructor
  · rintro ⟨n, hn, heq⟩
    obtain rfl := Destination.row.inj heq
    exact toOption_eq_some_iff.mp hn
  · exact fun h => ⟨norm, toOption_eq_some h, rfl⟩

theorem write_vram (hvram : Vfs.isVramPath (trim p) = true) :
    write cwd p content fs = match Vfs.write (trim p) content fs.vram with
      | some vram => .ok { fs with vram := vram }
      | none => .error .diskFull :=
  if_pos hvram

/-- A write that goes through has a destination. -/
theorem destination_of_write (h : write cwd p content fs = .ok fs') :
    ∃ d, destination cwd p = some d := by
  cases hvram : Vfs.isVramPath (trim p) with
  | true =>
    rw [write_vram hvram] at h
    rw [destination_vram hvram]
    cases hfile : Vfs.file? (trim p) with
    | none =>
      rw [Vfs.write, hfile] at h
      cases h
    | some file => exact ⟨_, rfl⟩
  | false =>
    rw [write_table hvram] at h
    obtain ⟨r, hcreate, -⟩ := map_eq_ok h
    obtain ⟨norm, hnorm⟩ := normalizePath_of_createInternal hcreate
    exact ⟨_, (destination_eq_row hvram).mpr hnorm⟩

/-- Writes to one destination are the same. -/
theorem write_congr (hp : destination cwd p = some d) (hq : destination cwd q = some d)
    (content : List UInt8) (fs : LatencyFS) : write cwd q content fs = write cwd p content fs := by
  cases hvp : Vfs.isVramPath (trim p) <;> cases hvq : Vfs.isVramPath (trim q)
  case true.true =>
    rw [destination_vram hvp, Option.map_eq_some_iff] at hp
    rw [destination_vram hvq, Option.map_eq_some_iff] at hq
    obtain ⟨file, hfile, rfl⟩ := hp
    obtain ⟨file', hfile', heq⟩ := hq
    obtain rfl := Destination.vram.inj heq
    rw [write_vram hvp, write_vram hvq, Vfs.write, Vfs.write, hfile, hfile']
  case false.false =>
    cases d with
    | vram file =>
      rw [destination_table hvp, Option.map_eq_some_iff] at hp
      obtain ⟨_, _, heq⟩ := hp
      cases heq
    | row norm =>
      rw [write_table hvp, write_table hvq, createInternal, createInternal,
        (destination_eq_row hvp).mp hp, (destination_eq_row hvq).mp hq]
  all_goals
    simp only [destination, hvp, hvq, if_true, Bool.false_eq_true, if_false,
      Option.map_eq_some_iff] at hp hq
    obtain ⟨_, _, rfl⟩ := hp
    obtain ⟨_, _, heq⟩ := hq
    cases heq

/-! ## Where a write is seen -/

/-- The first byte that stands at a destination. -/
def firstByte (fs : LatencyFS) : Destination → Option UInt8
  | .vram (.slot idx) => fs.vram.slots[idx]?.bind List.head?
  | .vram .scratch => fs.vram.scratch.head?
  | .vram .stats => none
  | .row norm => (fs.files.find? (named norm)).bind (·.data.head?)

theorem Placed.find?_named {ro : Bool} (h : Placed files files' norm content ro idx e) :
    files'.find? (named norm) = some ⟨norm, content, false, ro, true⟩ := by
  rw [h.placed]
  exact find?_set (List.getElem?_eq_some_iff.mp h.row).1 (named_iff.mpr ⟨rfl, rfl⟩)
    fun j f hj => h.first j f (.inl hj)

/-- A search does not see a row that it does not stop at, before and after. -/
theorem find?_set_of_neg {α : Type} {l : List α} {q : α → Bool} {i : ℕ} {a b : α}
    (ha : l[i]? = some a) (hqa : q a = false) (hqb : q b = false) :
    (l.set i b).find? q = l.find? q := by
  induction l generalizing i with
  | nil => rfl
  | cons c l ih =>
    cases i with
    | zero =>
      cases ha
      rw [List.set_cons_zero, List.find?_cons_of_neg (by simp [hqb]),
        List.find?_cons_of_neg (by simp [hqa])]
    | succ i =>
      rw [List.set_cons_succ, List.find?_cons, List.find?_cons]
      cases q c with
      | true => rfl
      | false => exact ih ha

/-- Neither the row that was replaced nor the one that was placed has another name. -/
theorem Placed.named_ne {ro : Bool} {norm' : Str}
    (h : Placed files files' norm content ro idx e) (hne : norm' ≠ norm) :
    named norm' e = false ∧ named norm' ⟨norm, content, false, ro, true⟩ = false := by
  constructor <;> rw [Bool.eq_false_iff] <;> intro hnamed
  · obtain ⟨hused, hname⟩ := named_iff.mp hnamed
    exact hne (hname.symm.trans (h.held hused).1)
  · exact hne (named_iff.mp hnamed).2.symm

theorem Placed.find?_ne {ro : Bool} {norm' : Str}
    (h : Placed files files' norm content ro idx e) (hne : norm' ≠ norm) :
    files'.find? (named norm') = files.find? (named norm') := by
  rw [h.placed]
  exact find?_set_of_neg h.row (h.named_ne hne).1 (h.named_ne hne).2

/-- A write to the table places a row. -/
theorem placed_write (hvram : Vfs.isVramPath (trim p) = false)
    (h : write cwd p content fs = .ok fs') :
    ∃ norm idx e, destination cwd p = some (.row norm) ∧
      Placed fs.files fs'.files norm content false idx e ∧ fs'.vram = fs.vram := by
  rw [write_table hvram] at h
  obtain ⟨r, hcreate, rfl⟩ := map_eq_ok h
  obtain ⟨norm, hnorm⟩ := normalizePath_of_createInternal hcreate
  obtain ⟨idx, e, ro, hplaced, hro, hsame⟩ := placed_createInternal hnorm hcreate
  cases ro with
  | true => exact absurd (hro rfl) Bool.false_ne_true
  | false => exact ⟨norm, idx, e, (destination_eq_row hvram).mpr hnorm, hplaced, hsame⟩

/-- A write to the GPU's memory leaves the table. -/
theorem placed_vram (hvram : Vfs.isVramPath (trim p) = true)
    (h : write cwd p content fs = .ok fs') :
    ∃ file vram, destination cwd p = some (.vram file) ∧ Vfs.file? (trim p) = some file ∧
      Vfs.write (trim p) content fs.vram = some vram ∧ fs' = { fs with vram := vram } := by
  rw [write_vram hvram] at h
  split at h
  · next vram hwrite =>
    cases h
    cases hfile : Vfs.file? (trim p) with
    | none =>
      rw [Vfs.write, hfile] at hwrite
      cases hwrite
    | some file => exact ⟨file, vram, by rw [destination_vram hvram, hfile]; rfl, rfl, hwrite, rfl⟩
  · cases h

/-- The row that was placed is the first one of its name. -/
theorem Placed.findIdx?_named {ro : Bool} (h : Placed files files' norm content ro idx e) :
    files'.findIdx? (named norm) = some idx := by
  have hlt := (List.getElem?_eq_some_iff.mp h.row).1
  rw [h.placed, List.findIdx?_eq_some_iff_getElem]
  refine ⟨by rw [List.length_set]; exact hlt, ?_, fun j hj => ?_⟩
  · rw [List.getElem_set_self]
    exact named_iff.mpr ⟨rfl, rfl⟩
  · rw [List.getElem_set_ne (Nat.ne_of_gt hj), h.first j _ (.inl hj)
      (List.getElem?_eq_getElem (hj.trans hlt))]
    exact Bool.false_ne_true

/-- A search does not see a row that it does not stop at, before and after. -/
theorem findIdx?_set_of_neg {α : Type} {l : List α} {q : α → Bool} {i : ℕ} {a b : α}
    (ha : l[i]? = some a) (hqa : q a = false) (hqb : q b = false) :
    (l.set i b).findIdx? q = l.findIdx? q := by
  induction l generalizing i with
  | nil => rfl
  | cons c l ih =>
    cases i with
    | zero =>
      cases ha
      rw [List.set_cons_zero, List.findIdx?_cons, List.findIdx?_cons, hqa, hqb]
    | succ i => rw [List.set_cons_succ, List.findIdx?_cons, List.findIdx?_cons, ih ha]

/-- A file that stood in the table is the first of a name after a row was placed exactly when it
was before. -/
theorem Placed.findIdx?_iff {ro : Bool} {norm' : Str} {i : ℕ}
    (h : Placed files files' norm content ro idx e) (hf : files[i]? = some f)
    (hused : f.used = true) :
    files'.findIdx? (named norm') = some i ↔ files.findIdx? (named norm') = some i := by
  by_cases hne : norm' = norm
  · subst hne
    rw [h.findIdx?_named, Option.some.injEq]
    constructor
    · rintro rfl
      obtain rfl : e = f := Option.some.inj (h.row.symm.trans hf)
      obtain ⟨hlt, hrow⟩ := List.getElem?_eq_some_iff.mp hf
      rw [List.findIdx?_eq_some_iff_getElem]
      refine ⟨hlt, by rw [hrow]; exact named_iff.mpr ⟨hused, (h.held hused).1⟩, fun j hj => ?_⟩
      rw [h.first j _ (.inl hj) (List.getElem?_eq_getElem (hj.trans hlt))]
      exact Bool.false_ne_true
    · intro hfirst
      obtain ⟨hlt, hnamed, hbefore⟩ := List.findIdx?_eq_some_iff_getElem.mp hfirst
      rcases Nat.lt_trichotomy idx i with hlt' | heq | hgt
      · cases hfree : e.used with
        | true =>
          have hrow := (List.getElem?_eq_some_iff.mp h.row).2
          refine absurd ?_ (hbefore idx hlt')
          rw [hrow]
          exact named_iff.mpr ⟨hfree, (h.held hfree).1⟩
        | false =>
          rw [h.first i _ (.inr hfree) (List.getElem?_eq_getElem hlt)] at hnamed
          cases hnamed
      · exact heq
      · rw [h.first i _ (.inl hgt) (List.getElem?_eq_getElem hlt)] at hnamed
        cases hnamed
  · rw [h.placed, findIdx?_set_of_neg h.row (h.named_ne hne).1 (h.named_ne hne).2]

theorem slots_writeSlot (v : Vram) (i j : ℕ) (content : List UInt8) :
    (v.writeSlot i content).slots[j]? =
      if i = j then v.slots[j]?.map (overwrite · content) else v.slots[j]? := by
  rw [Vram.writeSlot, List.getElem?_modify]
  by_cases h : i = j <;> simp [h]

theorem head?_overwrite {buf : List UInt8} {b : UInt8} {rest : List UInt8} (h : buf ≠ []) :
    (overwrite buf (b :: rest)).head? = some b := by
  obtain ⟨c, buf', rfl⟩ := List.exists_cons_of_ne_nil h
  rfl

/-- The destination of a write starts with the first byte that was written. -/
theorem firstByte_write {b : UInt8} {rest : List UInt8}
    (h : write cwd p (b :: rest) fs = .ok fs') (hd : destination cwd p = some d) :
    firstByte fs' d = some b := by
  cases hvram : Vfs.isVramPath (trim p) with
  | false =>
    obtain ⟨norm, idx, e, hdest, hplaced, -⟩ := placed_write hvram h
    obtain rfl : d = .row norm := Option.some.inj (hd.symm.trans hdest)
    rw [firstByte, hplaced.find?_named]
    rfl
  | true =>
    obtain ⟨file, vram, hdest, hfile, hwrite, rfl⟩ := placed_vram hvram h
    obtain rfl : d = .vram file := Option.some.inj (hd.symm.trans hdest)
    rw [Vfs.write, hfile] at hwrite
    cases file with
    | stats => cases hwrite
    | slot i =>
      cases hwrite
      have hi : i < fs.vram.slots.length := by
        rw [fs.vram.slots_length]
        exact slot_lt hfile
      have hslot := fs.vram.slot_length _ (List.getElem_mem hi)
      rw [firstByte, slots_writeSlot, if_pos rfl, List.getElem?_eq_getElem hi]
      refine head?_overwrite ?_
      rw [← List.length_pos_iff, hslot]
      decide
    | scratch =>
      cases hwrite
      refine head?_overwrite ?_
      rw [← List.length_pos_iff, fs.vram.scratch_length]
      decide

/-- What the call does not name keeps its first byte. -/
theorem firstByte_step_ne (h : destination cwd q ≠ some d) :
    firstByte (step fs (cwd, .write q content)) d = firstByte fs d := by
  rw [step, exec]
  cases hwrite : write cwd q content fs with
  | error e => rfl
  | ok fs' =>
    dsimp only
    cases hvram : Vfs.isVramPath (trim q) with
    | false =>
      obtain ⟨norm, idx, e, hdest, hplaced, hsame⟩ := placed_write hvram hwrite
      rw [hdest, Ne, Option.some.injEq] at h
      cases d with
      | vram file => cases file <;> simp only [firstByte, hsame]
      | row norm' =>
        rw [firstByte, firstByte, hplaced.find?_ne fun heq => h (by rw [heq])]
    | true =>
      obtain ⟨file, vram, hdest, hfile, hput, rfl⟩ := placed_vram hvram hwrite
      rw [hdest, Ne, Option.some.injEq] at h
      rw [Vfs.write, hfile] at hput
      cases d with
      | row norm => rfl
      | vram file' =>
        cases file' with
        | stats => rfl
        | slot i =>
          cases file with
          | stats => cases hput
          | scratch =>
            cases hput
            rfl
          | slot j =>
            cases hput
            have hne : j ≠ i := fun heq => h (by rw [heq])
            rw [firstByte, firstByte, slots_writeSlot, if_neg hne]
        | scratch =>
          cases file with
          | stats => cases hput
          | slot j =>
            cases hput
            rfl
          | scratch => exact absurd rfl h

/-! ## What takes a write -/

/-- A path takes every content of the size of a file. -/
def Accepts (cwd p : Str) (fs : LatencyFS) : Prop :=
  ∀ content : List UInt8, content.length ≤ maxFileSize → ∃ fs', write cwd p content fs = .ok fs'

theorem accepts_vram {file : VramFile} (hvram : Vfs.isVramPath (trim p) = true)
    (hfile : Vfs.file? (trim p) = some file) (hstats : file ≠ .stats) (fs : LatencyFS) :
    Accepts cwd p fs := by
  intro content _
  rw [write_vram hvram, Vfs.write, hfile]
  cases file with
  | stats => exact absurd rfl hstats
  | slot i => exact ⟨_, rfl⟩
  | scratch => exact ⟨_, rfl⟩

/-- A file is created where its name stands and can be changed, or where there is a free row. -/
theorem createInternal_isOk (hnorm : normalizePath p cwd = .ok norm)
    (hlen : content.length ≤ maxFileSize) (ro : Bool)
    (hrow : (∃ i, fs.files.findIdx? (named norm) = some i ∧
        (fs.files.getD i .empty).readOnly = false) ∨
      (fs.files.findIdx? (named norm) = none ∧ ∃ i, fs.files.findIdx? (!·.used) = some i)) :
    ∃ r, createInternal cwd p content ro fs = .ok r := by
  rw [createInternal, if_neg (Nat.not_lt.mpr hlen), hnorm]
  rcases hrow with ⟨i, hi, hro⟩ | ⟨hnone, i, hi⟩
  · simp only [bind, Except.bind, hi, hro]
    exact ⟨_, rfl⟩
  · simp only [bind, Except.bind, hnone, hi]
    exact ⟨_, rfl⟩

theorem length_le_of_createInternal {ro : Bool} {r : ℕ × LatencyFS}
    (h : createInternal cwd p content ro fs = .ok r) : content.length ≤ maxFileSize := by
  unfold createInternal at h
  split at h
  · cases h
  · next hlen => exact Nat.not_lt.mp hlen

theorem accepts_table (hvram : Vfs.isVramPath (trim p) = false)
    (hnorm : normalizePath p cwd = .ok norm)
    (hrow : (∃ i, fs.files.findIdx? (named norm) = some i ∧
        (fs.files.getD i .empty).readOnly = false) ∨
      (fs.files.findIdx? (named norm) = none ∧ ∃ i, fs.files.findIdx? (!·.used) = some i)) :
    Accepts cwd p fs := by
  intro content hlen
  obtain ⟨r, hr⟩ := createInternal_isOk hnorm hlen false hrow
  exact ⟨r.2, by rw [write_table hvram, hr]; rfl⟩

/-- What takes one content takes every other. -/
theorem accepts_of_write (h : write cwd p content fs = .ok fs') : Accepts cwd p fs := by
  cases hvram : Vfs.isVramPath (trim p) with
  | true =>
    obtain ⟨file, vram, -, hfile, hwrite, -⟩ := placed_vram hvram h
    refine accepts_vram hvram hfile (fun hstats => ?_) fs
    rw [Vfs.write, hfile, hstats] at hwrite
    cases hwrite
  | false =>
    rw [write_table hvram] at h
    obtain ⟨r, hcreate, -⟩ := map_eq_ok h
    obtain ⟨norm, hnorm⟩ := normalizePath_of_createInternal hcreate
    refine accepts_table hvram hnorm ?_
    unfold createInternal at hcreate
    split at hcreate
    · cases hcreate
    rw [hnorm] at hcreate
    simp only [bind, Except.bind] at hcreate
    cases hfind : fs.files.findIdx? (named norm) with
    | some i =>
      rw [hfind] at hcreate
      dsimp only at hcreate
      split at hcreate
      · cases hcreate
      · next hro => exact .inl ⟨i, rfl, Bool.eq_false_iff.mpr hro⟩
    | none =>
      rw [hfind] at hcreate
      cases hfree : fs.files.findIdx? (!·.used) with
      | some i => exact .inr ⟨rfl, i, rfl⟩
      | none =>
        rw [hfree] at hcreate
        cases hcreate

/-- What took a write takes the next one. -/
theorem accepts_write (h : write cwd p content fs = .ok fs') : Accepts cwd p fs' := by
  cases hvram : Vfs.isVramPath (trim p) with
  | true =>
    obtain ⟨file, vram, -, hfile, hwrite, -⟩ := placed_vram hvram h
    refine accepts_vram hvram hfile (fun hstats => ?_) fs'
    rw [Vfs.write, hfile, hstats] at hwrite
    cases hwrite
  | false =>
    obtain ⟨norm, idx, e, hdest, hplaced, -⟩ := placed_write hvram h
    have hfound := hplaced.find?_named
    rw [List.find?_eq_bind_findIdx?_getElem?, Option.bind_eq_some_iff] at hfound
    obtain ⟨i, hi, hrow⟩ := hfound
    refine accepts_table hvram ((destination_eq_row hvram).mp hdest) (.inl ⟨i, hi, ?_⟩)
    rw [getD_of_getElem? hrow]

/-! ## Writing back what was read -/

/-- A regular file that is read before the row of its name is replaced is that row. -/
theorem Placed.read_self (h : Placed fs.files files' norm content false idx f)
    (hused : f.used = true) (hdir : f.isDir = false)
    (hvram : Vfs.isVramPath (trim p) = false) (hnorm : normalizePath p cwd = .ok norm) :
    read cwd p fs = some f.data := by
  have hexact : findFile fs (·.name == norm) = some f.data := by
    rw [findFile, List.find?_eq_bind_findIdx?_getElem?]
    have hidx : fs.files.findIdx? (fun f => f.used && !f.isDir && f.name == norm) = some idx := by
      obtain ⟨hlt, hrow⟩ := List.getElem?_eq_some_iff.mp h.row
      refine List.findIdx?_eq_some_iff_getElem.mpr ⟨hlt, ?_, fun j hj => ?_⟩
      · rw [hrow, hused, hdir, (h.held hused).1]
        simp
      · have hfirst := h.first j _ (.inl hj) (List.getElem?_eq_getElem (hj.trans hlt))
        simp only [Bool.and_eq_true, Bool.not_eq_true', beq_iff_eq, not_and]
        intro hfile hname
        rw [named_iff.mpr ⟨hfile.1, hname⟩] at hfirst
        cases hfirst
    rw [hidx, Option.bind_some, h.row]
    rfl
  rw [read_table hnorm hvram, hexact]
  rfl

/-- A regular file stays when its path is written with what was read from it. -/
theorem files_write_read {i : ℕ} (h : write cwd p content fs = .ok fs')
    (hback : ∀ data, read cwd p fs = some data → data.length ≤ maxFileSize → content = data)
    (hsize : ∀ f ∈ fs.files, f.data.length ≤ maxFileSize) (hf : fs.files[i]? = some f)
    (hused : f.used = true) (hdir : f.isDir = false) : fs'.files[i]? = some f := by
  cases hvram : Vfs.isVramPath (trim p) with
  | true =>
    obtain ⟨file, vram, -, -, -, rfl⟩ := placed_vram hvram h
    exact hf
  | false =>
    obtain ⟨norm, idx, e, hdest, hplaced, -⟩ := placed_write hvram h
    by_cases hi : i = idx
    · subst hi
      obtain rfl : e = f := Option.some.inj (hplaced.row.symm.trans hf)
      have hread := hplaced.read_self hused hdir hvram ((destination_eq_row hvram).mp hdest)
      obtain rfl := hback _ hread (hsize _ (List.mem_of_getElem? hf))
      obtain ⟨hname, hro⟩ := hplaced.held hused
      rw [hplaced.placed, List.getElem?_set_self (List.getElem?_eq_some_iff.mp hf).1, ← hname]
      rw [show e = ⟨e.name, e.data, e.isDir, e.readOnly, e.used⟩ from rfl, hdir, hro, hused]
    · rw [hplaced.placed, List.getElem?_set_ne (Ne.symm hi), hf]

end Fs

end LatencyOS
