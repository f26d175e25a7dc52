import LatencyOS.Fs.LatencyFs

/-!
# Spellings of a path

A file is looked up under its normal path, but the route to `/vram` and the two fallbacks of
`fs_read` go by the spelling.  Two spellings of one normal path are interchangeable exactly when
they take the same route.
-/

namespace LatencyOS

namespace Fs

variable {cwd p q norm : Str} {fs : LatencyFS}

/-- Reading and writing under two spellings is the same, in every state of the file system. -/
def SpellingFree (cwd p q : Str) : Prop :=
  ∀ fs : LatencyFS, read cwd p fs = read cwd q fs ∧
    ∀ content, write cwd p content fs = write cwd q content fs

/-- What the first fallback compares last parts with: a spelling without a `/`. -/
def baseKey (clean : Str) : Option Str := if '/' ∈ clean then none else some clean

/-- Two spellings take the same route: to the same file of `/vram`, or to the table with the
same fallbacks. -/
def SameRoute (p q : Str) : Prop :=
  (Vfs.isVramPath (trim p) = true ∧ Vfs.isVramPath (trim q) = true ∧
    Vfs.file? (trim p) = Vfs.file? (trim q)) ∨
  (Vfs.isVramPath (trim p) = false ∧ Vfs.isVramPath (trim q) = false ∧
    baseKey (trim p) = baseKey (trim q) ∧ to83Name (trim p) = to83Name (trim q))

/-! ## Trimming -/

theorem dropWhile_eq_self_of_prefix {α : Type} {f : α → Bool} {l l' : List α}
    (h : l' <+: l.dropWhile f) : l'.dropWhile f = l' := by
  cases l' with
  | nil => rfl
  | cons x l' =>
    obtain ⟨t, ht⟩ := h
    have hx : f x = false := by
      have hhead := List.head?_dropWhile_not f l
      rw [← ht] at hhead
      simpa using hhead
    rw [List.dropWhile_cons_of_neg (by simp [hx])]

@[simp] theorem trim_trim (s : Str) : trim (trim s) = trim s := by
  have hprefix : trim s <+: s.dropWhile isWhitespace := List.rdropWhile_prefix _ _
  have hdrop := dropWhile_eq_self_of_prefix hprefix
  rw [trim, hdrop]
  exact List.rdropWhile_idempotent _ _

@[simp] theorem normalizePath_trim (s cwd : Str) :
    normalizePath (trim s) cwd = normalizePath s cwd := by
  simp [normalizePath]

theorem trim_ne_nil (h : normalizePath p cwd = .ok norm) : trim p ≠ [] := by
  intro hnil
  simp [normalizePath, hnil] at h

/-! ## Reading -/

/-- Reading through the table. -/
theorem read_table (h : normalizePath p cwd = .ok norm) (hvram : Vfs.isVramPath (trim p) = false) :
    read cwd p fs = (findFile fs (·.name == norm) <|>
      findFile fs (fun f => '/' ∈ f.name && afterLast '/' f.name == trim p) <|>
      findFile fs (to83Name ·.name == to83Name (trim p))) := by
  simp [read, trim_ne_nil h, hvram, h]

theorem read_vram (h : normalizePath p cwd = .ok norm) (hvram : Vfs.isVramPath (trim p) = true) :
    read cwd p fs = Vfs.read (trim p) fs.vram := by
  simp [read, trim_ne_nil h, hvram]

theorem slash_notMem_afterLast (s : Str) : '/' ∉ afterLast '/' s := by
  intro h
  have := List.mem_rtakeWhile_imp h
  simp at this

/-- Spellings with the same key have the same first fallback. -/
theorem baseMatch_congr {a b name : Str} (h : baseKey a = baseKey b) :
    (afterLast '/' name == a) = (afterLast '/' name == b) := by
  have hslash := slash_notMem_afterLast name
  have hfalse : ∀ {c : Str}, '/' ∈ c → (afterLast '/' name == c) = false := by
    intro c hc
    rw [beq_eq_false_iff_ne]
    rintro rfl
    exact hslash hc
  unfold baseKey at h
  by_cases ha : '/' ∈ a
  · by_cases hb : '/' ∈ b
    · rw [hfalse ha, hfalse hb]
    · simp [ha, hb] at h
  · by_cases hb : '/' ∈ b
    · simp [ha, hb] at h
    · simp only [ha, hb, if_false, Option.some.injEq] at h
      rw [h]

theorem write_table (hvram : Vfs.isVramPath (trim p) = false) (content : List UInt8) :
    write cwd p content fs = (createInternal cwd p content false fs).map (·.2) := by
  simp [write, hvram]

/-- Spellings on the same route are interchangeable. -/
theorem spellingFree_of_sameRoute (hp : normalizePath p cwd = .ok norm)
    (hq : normalizePath q cwd = .ok norm) (h : SameRoute p q) : SpellingFree cwd p q := by
  intro fs
  rcases h with ⟨hvp, hvq, hfile⟩ | ⟨hvp, hvq, hbase, h83⟩
  · rw [read_vram hp hvp, read_vram hq hvq]
    refine ⟨by simp only [Vfs.read, hfile], fun content => ?_⟩
    simp only [write, hvp, hvq, if_true, Vfs.write, hfile]
  · rw [read_table hp hvp, read_table hq hvq]
    refine ⟨by simp only [baseMatch_congr hbase, h83], fun content => ?_⟩
    rw [write_table hvp, write_table hvq]
    simp only [createInternal, hp, hq]

/-! ## States that tell spellings apart -/

/-- A table with some rows. -/
def table (rows : List FileEntry) (vram : Vram) : LatencyFS :=
  ⟨rows ++ List.replicate (maxFiles - rows.length) .empty, vram, []⟩

theorem findFile_table (rows : List FileEntry) (vram : Vram) (f : FileEntry → Bool) :
    findFile (table rows vram) f =
      (rows.find? fun e => e.used && !e.isDir && f e).map (·.data) := by
  have hfree : (List.replicate (maxFiles - rows.length) FileEntry.empty).find?
      (fun e => e.used && !e.isDir && f e) = none := by
    rw [List.find?_eq_none]
    intro e he
    rw [List.eq_of_mem_replicate he]
    simp [FileEntry.empty]
  simp only [findFile, table, List.find?_append, hfree, Option.or_none]

/-- A regular file. -/
def fileRow (name : Str) (content : List UInt8) : FileEntry := ⟨name, content, false, false, true⟩

/-- A normal path does not start with two separators. -/
theorem slashes_ne_normal (h : NormalPath norm) (s : Str) : '/' :: '/' :: s ≠ norm := by
  rintro rfl
  rcases h with h | ⟨parts, hne, hparts, h⟩
  · cases h
  · cases parts with
    | nil => exact hne rfl
    | cons c parts =>
      have hc := hparts c List.mem_cons_self
      cases c with
      | nil => exact hc.ne_nil rfl
      | cons x c =>
        rw [joinPath_cons] at h
        simp only [List.cons_append, List.cons.injEq, true_and] at h
        exact hc.no_slash (by simp [← h.1])

theorem slash_mem_normal (h : NormalPath norm) : '/' ∈ norm := by
  rcases h with rfl | ⟨parts, hne, -, rfl⟩
  · simp
  · cases parts with
    | nil => exact absurd rfl hne
    | cons c parts => simp [joinPath_cons]

theorem slash_notMem_baseName (s : Str) : '/' ∉ baseName s := by
  unfold baseName
  split
  · exact slash_notMem_afterLast s
  · next hs =>
    split
    · exact fun h => hs ((List.rtakeWhile_suffix _ _).subset h)
    · exact hs

/-- The last part of a path behind two separators. -/
theorem afterLast_slashes {c : Str} (hc : '/' ∉ c) : afterLast '/' ('/' :: '/' :: c) = c := by
  have hall : ∀ x ∈ c, (x != '/') = true := fun x hx => bne_iff_ne.mpr fun h => hc (h ▸ hx)
  have hsplit : '/' :: '/' :: c = ['/', '/'] ++ c := rfl
  have hrev : (c.reverse ++ ['/', '/']).takeWhile (· != '/') = c.reverse := by
    rw [List.takeWhile_append_of_pos (by simpa using hall)]
    simp
  rw [afterLast, List.rtakeWhile, hsplit, List.reverse_append]
  simp only [List.reverse_cons, List.reverse_nil, List.nil_append, List.cons_append]
  rw [hrev, List.reverse_reverse]

/-- A suffix of a trimmed spelling behind two separators is trimmed. -/
theorem trim_slashes {c : Str} (hc : c <:+ trim p) : trim ('/' :: '/' :: c) = '/' :: '/' :: c := by
  have hlast : ∀ hl : trim p ≠ [], isWhitespace ((trim p).getLast hl) = false := by
    intro hl
    have hself : (trim p).rdropWhile isWhitespace = trim p := List.rdropWhile_idempotent _ _
    simpa using List.rdropWhile_eq_self_iff.mp hself hl
  rw [trim, List.dropWhile_cons_of_neg (by decide)]
  refine List.rdropWhile_eq_self_iff.mpr fun hl => ?_
  by_cases hnil : c = []
  · subst hnil
    change ¬ isWhitespace '/' = true
    decide
  · obtain ⟨t, ht⟩ := hc
    have hpne : trim p ≠ [] := by
      rw [← ht]
      simp [hnil]
    have hsame : ('/' :: '/' :: c).getLast hl = (trim p).getLast hpne := by
      simp only [← ht, List.getLast_cons hnil, List.getLast_append_of_ne_nil _ hnil,
        List.getLast_cons (List.cons_ne_nil _ _)]
    rw [hsame, hlast hpne]
    exact Bool.false_ne_true

/-- The last part of a spelling behind two separators has its 8.3 name. -/
theorem to83Name_slashes (p : Str) :
    to83Name ('/' :: '/' :: baseName (trim p)) = to83Name (trim p) := by
  have hbase : baseName ('/' :: '/' :: baseName (trim p)) = baseName (trim p) := by
    rw [baseName, if_pos (by simp), afterLast_slashes (slash_notMem_baseName _)]
  simp only [to83Name, trim_slashes (baseName_suffix (trim p)), hbase, trim_trim]

/-- Different 8.3 names are told apart by a file with one of them. -/
theorem read_ne_of_to83Name (hp : normalizePath p cwd = .ok norm)
    (hq : normalizePath q cwd = .ok norm) (hvp : Vfs.isVramPath (trim p) = false)
    (hvq : Vfs.isVramPath (trim q) = false) (h83 : to83Name (trim p) ≠ to83Name (trim q))
    (hbase : baseName (trim p) ≠ trim q) : ¬ SpellingFree cwd p q := by
  intro hfree
  have hsame := (hfree (table [fileRow ('/' :: '/' :: baseName (trim p)) [1]] .zero)).1
  have hnorm := slashes_ne_normal (normalizePath_spec hp).1 (baseName (trim p))
  have hlast := afterLast_slashes (slash_notMem_baseName (trim p))
  rw [read_table hp hvp, read_table hq hvq] at hsame
  simp only [findFile_table, fileRow, List.find?_singleton, hlast, to83Name_slashes] at hsame
  simp [hnorm, h83, hbase] at hsame

/-- A spelling that is a last part by itself is told apart by a file with that last part, behind
another one with its 8.3 name. -/
theorem read_ne_of_baseKey (hp : normalizePath p cwd = .ok norm)
    (hq : normalizePath q cwd = .ok norm) (hvp : Vfs.isVramPath (trim p) = false)
    (hvq : Vfs.isVramPath (trim q) = false) (h83 : to83Name (trim p) = to83Name (trim q))
    (hslash : '/' ∉ trim p) (hne : trim p ≠ trim q) : ¬ SpellingFree cwd p q := by
  intro hfree
  have hsame := (hfree (table [fileRow (trim p) [1], fileRow ('/' :: '/' :: trim p) [2]] .zero)).1
  have hsecond : ('/' :: '/' :: trim p == norm) = false :=
    beq_eq_false_iff_ne.mpr (slashes_ne_normal (normalizePath_spec hp).1 (trim p))
  have hfirst : (trim p == norm) = false := by
    rw [beq_eq_false_iff_ne]
    rintro rfl
    exact hslash (slash_mem_normal (normalizePath_spec hp).1)
  have hother : (trim p == trim q) = false := beq_eq_false_iff_ne.mpr hne
  have hlast := afterLast_slashes hslash
  rw [read_table hp hvp, read_table hq hvq] at hsame
  simp only [findFile_table, fileRow, List.find?_cons, List.find?_nil, hlast] at hsame
  simp [hfirst, hsecond, hother, h83, hslash] at hsame

/-- The contents of a file of `/vram` when every buffer is filled with a byte of its own. -/
def filledContent : VramFile → List UInt8
  | .stats => (utf8 Vfs.statsText.toList).take 1024
  | .slot idx => List.replicate frameSize (UInt8.ofNat idx)
  | .scratch => List.replicate vfsScratchSize 9

theorem slot_lt {path : Str} {idx : ℕ} (h : Vfs.file? path = some (.slot idx)) :
    idx < numFrameSlots := by
  unfold Vfs.file? at h
  dsimp only at h
  split at h
  · cases h
  · split at h
    · split at h
      · split at h
        · next hlt =>
          cases h
          exact hlt
        · cases h
      · cases h
    · split at h <;> cases h

theorem read_filled (path : Str) :
    Vfs.read path (.filled UInt8.ofNat 9) = (Vfs.file? path).map filledContent := by
  unfold Vfs.read
  cases hfile : Vfs.file? path with
  | none => rfl
  | some f =>
    cases f with
    | stats => rfl
    | slot idx => simp [Vram.filled, slot_lt hfile, filledContent]
    | scratch => simp [Vram.filled, filledContent]

theorem ofNat_inj_of_lt {i j : ℕ} (hi : i < numFrameSlots) (hj : j < numFrameSlots)
    (h : UInt8.ofNat i = UInt8.ofNat j) : i = j := by
  have hnat := congrArg UInt8.toNat h
  simp only [UInt8.toNat_ofNat'] at hnat
  unfold numFrameSlots at hi hj
  omega

/-- The filled buffers tell the files of `/vram` apart. -/
theorem filledContent_inj {f g : VramFile} (hf : ∀ idx, f = .slot idx → idx < numFrameSlots)
    (hg : ∀ idx, g = .slot idx → idx < numFrameSlots) (h : filledContent f = filledContent g) :
    f = g := by
  have hstats : (filledContent .stats).length ≤ 1024 := List.length_take_le _ _
  have hslot : ∀ idx, (filledContent (.slot idx)).length = frameSize :=
    fun _ => List.length_replicate
  have hscratch : (filledContent .scratch).length = vfsScratchSize := List.length_replicate
  have hsizes : 1024 < vfsScratchSize ∧ vfsScratchSize < frameSize := by decide
  have hlen := congrArg List.length h
  cases f with
  | stats =>
    cases g with
    | stats => rfl
    | slot j =>
      rw [hslot j] at hlen
      omega
    | scratch =>
      rw [hscratch] at hlen
      omega
  | slot i =>
    cases g with
    | stats =>
      rw [hslot i] at hlen
      omega
    | slot j =>
      have hbyte := (List.replicate_inj.mp h).2.resolve_left (by decide)
      rw [ofNat_inj_of_lt (hf i rfl) (hg j rfl) hbyte]
    | scratch =>
      rw [hslot i, hscratch] at hlen
      omega
  | scratch =>
    cases g with
    | stats =>
      rw [hscratch] at hlen
      omega
    | slot j =>
      rw [hslot j, hscratch] at hlen
      omega
    | scratch => rfl

theorem file?_eq_of_read {a b : Str}
    (h : Vfs.read a (.filled UInt8.ofNat 9) = Vfs.read b (.filled UInt8.ofNat 9)) :
    Vfs.file? a = Vfs.file? b := by
  rw [read_filled, read_filled] at h
  cases ha : Vfs.file? a with
  | none =>
    rw [ha] at h
    exact (Option.map_eq_none_iff.mp h.symm).symm
  | some f =>
    cases hb : Vfs.file? b with
    | none =>
      rw [ha, hb] at h
      cases h
    | some g =>
      rw [ha, hb] at h
      have hinj := filledContent_inj (fun idx hf => slot_lt (hf ▸ ha))
        (fun idx hg => slot_lt (hg ▸ hb)) (Option.some.inj h)
      rw [hinj]

/-- A content too large for the table is told apart from one that goes to `/vram`. -/
theorem write_ne_of_vram (hvp : Vfs.isVramPath (trim p) = true)
    (hvq : Vfs.isVramPath (trim q) = false) :
    write cwd p (List.replicate 4097 0) fs ≠ write cwd q (List.replicate 4097 0) fs := by
  have hlarge : maxFileSize < (List.replicate 4097 (0 : UInt8)).length := by
    rw [List.length_replicate]
    decide
  have hq : write cwd q (List.replicate 4097 0) fs = .error .fileTooLarge := by
    rw [write_table hvq, createInternal, if_pos hlarge]
    rfl
  rw [hq]
  simp only [write, hvp, if_true]
  split <;> intro h <;> cases h

theorem SpellingFree.symm (h : SpellingFree cwd p q) : SpellingFree cwd q p :=
  fun fs => ⟨(h fs).1.symm, fun content => ((h fs).2 content).symm⟩

/-- Interchangeable spellings that go through the table have the same fallbacks. -/
theorem sameFallbacks (hp : normalizePath p cwd = .ok norm) (hq : normalizePath q cwd = .ok norm)
    (hvp : Vfs.isVramPath (trim p) = false) (hvq : Vfs.isVramPath (trim q) = false)
    (h : SpellingFree cwd p q) :
    baseKey (trim p) = baseKey (trim q) ∧ to83Name (trim p) = to83Name (trim q) := by
  have h83 : to83Name (trim p) = to83Name (trim q) := by
    by_contra hne
    -- each file would have to be the other's last part
    have hpq : baseName (trim p) = trim q := by
      by_contra hbase
      exact read_ne_of_to83Name hp hq hvp hvq hne hbase h
    have hqp : baseName (trim q) = trim p := by
      by_contra hbase
      exact read_ne_of_to83Name hq hp hvq hvp (Ne.symm hne) hbase h.symm
    have hsuffix : trim q <:+ trim p := hpq ▸ baseName_suffix (trim p)
    have hsuffix' : trim p <:+ trim q := hqp ▸ baseName_suffix (trim q)
    have heq := hsuffix.eq_of_length (Nat.le_antisymm hsuffix.length_le hsuffix'.length_le)
    exact hne (by rw [heq])
  refine ⟨?_, h83⟩
  by_cases heq : trim p = trim q
  · rw [heq]
  · have hsp : '/' ∈ trim p := by
      by_contra hslash
      exact read_ne_of_baseKey hp hq hvp hvq h83 hslash heq h
    have hsq : '/' ∈ trim q := by
      by_contra hslash
      exact read_ne_of_baseKey hq hp hvq hvp h83.symm hslash (Ne.symm heq) h.symm
    rw [baseKey, baseKey, if_pos hsp, if_pos hsq]

end Fs

end LatencyOS
