import LatencyOS.Lib.Str

/-!
# Paths of the kernel

Every length the kernel compares is a number of bytes.  `fs_normalize_path` resolves a path
against the current directory; its result is `/`, or a path without empty, `.` and `..`
components.
-/

namespace LatencyOS

/-- The part before the last occurrence of a character, or nothing. -/
def beforeLast (c : Char) (s : Str) : Str := (s.rdropWhile (· != c)).dropLast

/-- The part behind the last occurrence of a character, or everything. -/
def afterLast (c : Char) (s : Str) : Str := s.rtakeWhile (· != c)

/-- The errors of the file system. -/
inductive FsError
  | fileNotFound | diskFull | fileTooLarge | readOnly | invalidName
  | notADirectory | isADirectory | directoryNotEmpty | alreadyExists
  deriving DecidableEq, Repr

def maxFiles : ℕ := 128
def maxFilenameLen : ℕ := 64
def maxFileSize : ℕ := 4096

namespace Fs

/-- Go up one directory. -/
def popPart (out : Str) : Str :=
  if '/' ∈ out then
    let parent := beforeLast '/' out
    if parent = [] then ['/'] else parent
  else out

/-- One turn of the loop over the parts of a path. -/
def pushPart (out part : Str) : Except FsError Str :=
  if part = [] ∨ part = ['.'] then .ok out
  else if part = ['.', '.'] then .ok (if 1 < byteLen out then popPart out else out)
  else if 1 < byteLen out then
    if maxFilenameLen ≤ byteLen out + 1 + byteLen part then .error .invalidName
    else .ok (out ++ '/' :: part)
  else if maxFilenameLen ≤ byteLen out + byteLen part then .error .invalidName
  else .ok (out ++ part)

/-- A path made absolute: what is copied to the temporary buffer. -/
def absolute (clean cwd : Str) : Except FsError Str :=
  let full := if clean.head? = some '/' then clean
    else if cwd = [] ∨ cwd = ['/'] then '/' :: clean
    else cwd ++ '/' :: clean
  if maxFilenameLen ≤ byteLen full then .error .invalidName else .ok full

/-- `fs_normalize_path`. -/
def normalizePath (input cwd : Str) : Except FsError Str :=
  let clean := trim input
  if clean = [] then .error .invalidName
  else
    match absolute clean cwd with
    | .error e => .error e
    | .ok full => (full.splitOn '/').foldlM pushPart ['/']

/-! ## Normal paths -/

/-- A component of a normal path. -/
structure Component (p : Str) : Prop where
  ne_nil : p ≠ []
  ne_dot : p ≠ ['.']
  ne_dotDot : p ≠ ['.', '.']
  no_slash : '/' ∉ p

/-- The path through some components. -/
def joinPath (parts : List Str) : Str := parts.flatMap ('/' :: ·)

/-- An absolute path without empty, `.` or `..` components and without a trailing `/`. -/
def AbsPath (s : Str) : Prop :=
  ∃ parts, parts ≠ [] ∧ (∀ p ∈ parts, Component p) ∧ s = joinPath parts

/-- What a path is resolved to. -/
def NormalPath (s : Str) : Prop := s = ['/'] ∨ AbsPath s

@[simp] theorem joinPath_nil : joinPath [] = [] := rfl

@[simp] theorem joinPath_append (ps qs : List Str) :
    joinPath (ps ++ qs) = joinPath ps ++ joinPath qs :=
  List.flatMap_append

@[simp] theorem joinPath_singleton (p : Str) : joinPath [p] = '/' :: p := by simp [joinPath]

theorem joinPath_cons (p : Str) (ps : List Str) : joinPath (p :: ps) = '/' :: p ++ joinPath ps :=
  rfl

theorem Component.byteLen_pos {p : Str} (h : Component p) : 0 < byteLen p :=
  Nat.lt_of_lt_of_le (List.length_pos_of_ne_nil h.ne_nil) (length_le_byteLen p)

theorem byteLen_slash (s : Str) : byteLen ('/' :: s) = 1 + byteLen s := by
  rw [byteLen_cons]
  rfl

theorem AbsPath.one_lt {s : Str} (h : AbsPath s) : 1 < byteLen s := by
  obtain ⟨parts, hne, hparts, rfl⟩ := h
  cases parts with
  | nil => exact absurd rfl hne
  | cons p ps =>
    have hp := (hparts p List.mem_cons_self).byteLen_pos
    rw [joinPath_cons, byteLen_append, byteLen_slash]
    omega

theorem rdropWhile_of_notMem {c : Char} {p : Str} (hp : c ∉ p) (s : Str) :
    (s ++ p).rdropWhile (· != c) = s.rdropWhile (· != c) := by
  induction p using List.reverseRecOn with
  | nil => simp
  | append_singleton p x ih =>
    have hx : (x != c) = true := bne_iff_ne.mpr fun h => hp (by simp [h])
    rw [← List.append_assoc, List.rdropWhile_concat_pos (· != c) (s ++ p) x hx]
    exact ih fun h => hp (by simp [h])

/-- The parent of a path. -/
theorem beforeLast_slash {p : Str} (hp : '/' ∉ p) (s : Str) :
    beforeLast '/' (s ++ '/' :: p) = s := by
  have hsplit : s ++ '/' :: p = (s ++ ['/']) ++ p := by simp
  rw [beforeLast, hsplit, rdropWhile_of_notMem hp,
    List.rdropWhile_concat_neg (· != '/') s '/' (by decide)]
  exact List.dropLast_concat

/-- Going up keeps paths normal and makes them no longer. -/
theorem popPart_spec {s : Str} (h : AbsPath s) :
    NormalPath (popPart s) ∧ byteLen (popPart s) ≤ byteLen s := by
  have hone := h.one_lt
  obtain ⟨parts, hne, hparts, rfl⟩ := h
  obtain ⟨ps, p, hps⟩ := List.eq_nil_or_concat parts |>.resolve_left hne
  rw [List.concat_eq_append] at hps
  subst hps
  have hp := hparts p (by simp)
  have hs : joinPath (ps ++ [p]) = joinPath ps ++ '/' :: p := by simp
  have hslash : '/' ∈ joinPath ps ++ '/' :: p := by simp
  rw [hs] at hone ⊢
  simp only [popPart, if_pos hslash, beforeLast_slash hp.no_slash]
  by_cases hnil : joinPath ps = []
  · rw [if_pos hnil]
    exact ⟨.inl rfl, Nat.le_of_lt hone⟩
  · rw [if_neg hnil]
    refine ⟨.inr ⟨ps, ?_, fun q hq => hparts q (by simp [hq]), rfl⟩, by simp⟩
    intro h
    rw [h] at hnil
    exact hnil rfl

/-- A part appended to a normal path. -/
theorem AbsPath.push {s part : Str} (h : AbsPath s) (hpart : Component part) :
    AbsPath (s ++ '/' :: part) := by
  obtain ⟨parts, hne, hparts, rfl⟩ := h
  refine ⟨parts ++ [part], by simp, ?_, by simp⟩
  intro p hp
  rcases List.mem_append.mp hp with hp | hp
  · exact hparts p hp
  · rw [List.mem_singleton.mp hp]
    exact hpart

/-- One part keeps the path normal and short. -/
theorem pushPart_spec {out part out' : Str} (hslash : '/' ∉ part) (hout : NormalPath out)
    (hlen : byteLen out < maxFilenameLen) (h : pushPart out part = .ok out') :
    NormalPath out' ∧ byteLen out' < maxFilenameLen := by
  unfold pushPart at h
  by_cases hskip : part = [] ∨ part = ['.']
  · rw [if_pos hskip] at h
    cases h
    exact ⟨hout, hlen⟩
  rw [if_neg hskip] at h
  by_cases hup : part = ['.', '.']
  · rw [if_pos hup] at h
    cases h
    rcases hout with rfl | habs
    · exact ⟨.inl rfl, hlen⟩
    · rw [if_pos habs.one_lt]
      have hpop := popPart_spec habs
      exact ⟨hpop.1, Nat.lt_of_le_of_lt hpop.2 hlen⟩
  rw [if_neg hup] at h
  have hpart : Component part := ⟨fun h => hskip (.inl h), fun h => hskip (.inr h), hup, hslash⟩
  rcases hout with rfl | habs
  · -- the root already ends with the separator
    have hroot : ¬ 1 < byteLen ['/'] := by decide
    rw [if_neg hroot] at h
    split at h
    · cases h
    · next hfits =>
      cases h
      refine ⟨.inr ⟨[part], by simp, by simpa using hpart, by simp⟩, ?_⟩
      rw [byteLen_append]
      omega
  · rw [if_pos habs.one_lt] at h
    split at h
    · cases h
    · next hfits =>
      cases h
      refine ⟨.inr (habs.push hpart), ?_⟩
      rw [byteLen_append, byteLen_slash]
      omega

theorem notMem_of_mem_splitOn {c : Char} {s part : Str} (h : part ∈ s.splitOn c) : c ∉ part := by
  induction s generalizing part with
  | nil => simp_all
  | cons x s ih =>
    rw [List.splitOn_cons_eq_if_modifyHead] at h
    split at h
    · rcases List.mem_cons.mp h with rfl | h
      · simp
      · exact ih h
    · next hx =>
      cases hs : s.splitOn c with
      | nil => exact absurd hs (List.splitOn_ne_nil c s)
      | cons q qs =>
        rw [hs] at h ih
        rcases List.mem_cons.mp h with rfl | h
        · have hq := ih List.mem_cons_self
          simp only [beq_iff_eq] at hx
          simp [hq, Ne.symm hx]
        · exact ih (List.mem_cons_of_mem q h)

/-- The parts of a path keep it normal and short. -/
theorem foldlM_pushPart_spec {parts : List Str} {out out' : Str}
    (hparts : ∀ p ∈ parts, '/' ∉ p) (hout : NormalPath out) (hlen : byteLen out < maxFilenameLen)
    (h : parts.foldlM pushPart out = .ok out') :
    NormalPath out' ∧ byteLen out' < maxFilenameLen := by
  induction parts generalizing out with
  | nil =>
    cases h
    exact ⟨hout, hlen⟩
  | cons p parts ih =>
    rw [List.foldlM_cons] at h
    cases hpush : pushPart out p with
    | error e =>
      rw [hpush] at h
      cases h
    | ok next =>
      rw [hpush] at h
      obtain ⟨hnext, hnextLen⟩ := pushPart_spec (hparts p List.mem_cons_self) hout hlen hpush
      exact ih (fun q hq => hparts q (List.mem_cons_of_mem p hq)) hnext hnextLen h

/-- A path is resolved to a normal path of at most 63 bytes. -/
theorem normalizePath_spec {input cwd out : Str} (h : normalizePath input cwd = .ok out) :
    NormalPath out ∧ byteLen out < maxFilenameLen := by
  unfold normalizePath at h
  dsimp only at h
  split at h
  · cases h
  · split at h
    · cases h
    · exact foldlM_pushPart_spec (fun _ hp => notMem_of_mem_splitOn hp) (.inl rfl) (by decide) h

end Fs

end LatencyOS
