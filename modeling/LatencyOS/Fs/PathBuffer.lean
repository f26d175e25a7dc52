import LatencyOS.Fs.Resolve
import LatencyOS.Lib.Buffer

/-!
# Paths are resolved in two buffers

`fs_normalize_path` has no list of components: it copies the joined path to a temporary buffer of
64 bytes and builds its result in the caller's, going up by a search for the last separator.  Each
turn keeps the result at the front of that buffer, so the bytes are those of the resolved path.  A
write outside a buffer is a panic, and has no outcome.
-/

namespace LatencyOS

namespace Fs

open Buffer

/-- `str::from_utf8`. -/
def fromUtf8 (bytes : List UInt8) : Option Str := bytes.toByteArray.utf8Decode?.map Array.toList

/-- `str::rfind`: a number of bytes. -/
def rfind (c : Char) (s : Str) : Option ℕ :=
  if c ∈ s then some (byteLen (beforeLast c s)) else none

/-- What a function leaves: its result, and the caller's buffer. -/
abbrev Outcome := Option (Except FsError ℕ × List UInt8)

/-- The joined path in the temporary buffer, and its length. -/
def fillTemp (clean cwd : Str) : Option (Except FsError (List UInt8 × ℕ)) :=
  let temp := List.replicate maxFilenameLen 0
  if clean.head? = some '/' then
    if maxFilenameLen ≤ byteLen clean then some (.error .invalidName)
    else do
      let temp ← store temp 0 (utf8 clean)
      some (.ok (temp, byteLen clean))
  else
    let cleanCwd := if cwd = [] then ['/'] else cwd
    if cleanCwd = ['/'] then
      let total := 1 + byteLen clean
      if maxFilenameLen ≤ total then some (.error .invalidName)
      else do
        let temp ← store temp 0 [0x2F]
        let temp ← store temp 1 (utf8 clean)
        some (.ok (temp, total))
    else
      let total := byteLen cleanCwd + 1 + byteLen clean
      if maxFilenameLen ≤ total then some (.error .invalidName)
      else do
        let temp ← store temp 0 (utf8 cleanCwd)
        let temp ← store temp (byteLen cleanCwd) [0x2F]
        let temp ← store temp (byteLen cleanCwd + 1) (utf8 clean)
        some (.ok (temp, total))

/-- Go up one directory. -/
def popBytes (out : List UInt8) (outLen : ℕ) : Option ℕ := do
  let cur ← load out 0 outLen
  match rfind '/' ((fromUtf8 cur).getD ['/']) with
  | some pos => some (if pos = 0 then 1 else pos)
  | none => some outLen

/-- The end of a turn: the part is copied behind the result. -/
def copyPart (out : List UInt8) (outLen : ℕ) (part : Str) : Outcome :=
  if maxFilenameLen ≤ outLen + byteLen part then some (.error .invalidName, out)
  else do
    let out ← store out outLen (utf8 part)
    some (.ok (outLen + byteLen part), out)

/-- One turn of the loop over the parts of a path. -/
def turn (out : List UInt8) (outLen : ℕ) (part : Str) : Outcome :=
  if part = [] ∨ part = ['.'] then some (.ok outLen, out)
  else if part = ['.', '.'] then
    if 1 < outLen then do
      let outLen ← popBytes out outLen
      some (.ok outLen, out)
    else some (.ok outLen, out)
  else if 1 < outLen then
    if maxFilenameLen ≤ outLen + 1 + byteLen part then some (.error .invalidName, out)
    else do
      let out ← store out outLen [0x2F]
      copyPart out (outLen + 1) part
  else copyPart out outLen part

/-- The loop over the parts of a path. -/
def turns (out : List UInt8) (outLen : ℕ) : List Str → Outcome
  | [] => some (.ok outLen, out)
  | part :: parts => do
    match ← turn out outLen part with
    | (.error e, out) => some (.error e, out)
    | (.ok outLen, out) => turns out outLen parts

/-- `fs_normalize_path`. -/
def fsNormalizePath (input cwd : Str) (out : List UInt8) : Outcome :=
  let clean := trim input
  if clean = [] then some (.error .invalidName, out)
  else do
    match ← fillTemp clean cwd with
    | .error e => some (.error e, out)
    | .ok (temp, tempLen) =>
      let out ← store out 0 [0x2F]
      let text ← load temp 0 tempLen
      match fromUtf8 text with
      | none => some (.error .invalidName, out)
      | some path => turns out 1 (path.splitOn '/')

/-- A string that starts with a separator stands at the front of the buffer. -/
structure Shows (out : List UInt8) (outLen : ℕ) (s : Str) : Prop where
  length : out.length = maxFilenameLen
  len : outLen = byteLen s
  front : ∃ rest, out = utf8 s ++ rest
  head : s.head? = some '/'

/-- What a function leaves shows what it is to compute. -/
def Agrees (outcome : Outcome) : Except FsError Str → Prop
  | .error e => ∃ out, outcome = some (.error e, out) ∧ out.length = maxFilenameLen
  | .ok s => ∃ out outLen, outcome = some (.ok outLen, out) ∧ Shows out outLen s

variable {out : List UInt8} {outLen : ℕ} {s part clean cwd input : Str} {parts : List Str}

/-! ## Strings in buffers -/

@[simp] theorem fromUtf8_utf8 (s : Str) : fromUtf8 (utf8 s) = some s := by
  have hbytes : (utf8 s).toByteArray = s.utf8Encode := rfl
  rw [fromUtf8, hbytes, List.utf8Decode?_utf8Encode]
  rfl

theorem fromUtf8_eq_some {bytes : List UInt8} : fromUtf8 bytes = some s ↔ utf8 s = bytes := by
  constructor
  · intro h
    have hsome : bytes.toByteArray.utf8Decode?.isSome := by
      obtain ⟨_, hdecode, -⟩ := Option.map_eq_some_iff.mp h
      rw [hdecode]
      rfl
    obtain ⟨m, hm⟩ := ByteArray.isSome_utf8Decode?_iff.mp hsome
    have hbytes : bytes = utf8 m := List.toByteArray_inj.mp hm
    rw [hbytes, fromUtf8_utf8] at h
    rw [hbytes, Option.some.inj h]
  · rintro rfl
    exact fromUtf8_utf8 s

theorem utf8_slash (s : Str) : utf8 ('/' :: s) = 0x2F :: utf8 s := rfl

theorem Shows.loaded (h : Shows out outLen s) : load out 0 outLen = some (utf8 s) := by
  obtain ⟨rest, hrest⟩ := h.front
  have hfront : out = [] ++ utf8 s ++ rest := hrest
  rw [hfront]
  exact load_append rfl h.len rest

theorem Shows.take (h : Shows out outLen s) : out.take (byteLen s) = utf8 s := by
  obtain ⟨rest, rfl⟩ := h.front
  exact List.take_left

/-- Bytes copied behind what is shown. -/
theorem Shows.copied (h : Shows out outLen s) {t : Str}
    (hfits : outLen + byteLen t ≤ maxFilenameLen) :
    ∃ out', store out outLen (utf8 t) = some out' ∧ Shows out' (outLen + byteLen t) (s ++ t) := by
  obtain ⟨rest, hrest⟩ := h.front
  have hlen := h.length
  rw [hrest, List.length_append, ← byteLen, ← h.len] at hlen
  have hback : (utf8 t).length ≤ rest.length := by
    rw [← byteLen]
    omega
  have hstore := store_append h.len hback
  rw [← hrest] at hstore
  refine ⟨_, hstore, ?_, ?_, ?_, ?_⟩
  · rw [length_store hstore]
    exact h.length
  · rw [byteLen_append, h.len]
  · exact ⟨rest.drop (utf8 t).length, by rw [utf8_append]⟩
  · rw [List.head?_append, h.head]
    rfl

theorem Shows.copiedSlash (h : Shows out outLen s) (hfits : outLen + 1 ≤ maxFilenameLen) :
    ∃ out', store out outLen [0x2F] = some out' ∧ Shows out' (outLen + 1) (s ++ ['/']) :=
  h.copied (t := ['/']) hfits

/-! ## The turns -/

theorem popBytes_shows (h : Shows out outLen s) :
    ∃ outLen', popBytes out outLen = some outLen' ∧ Shows out outLen' (popPart s) := by
  have hmem : '/' ∈ s := List.mem_of_mem_head? h.head
  obtain ⟨t, ht⟩ : ∃ t, s = beforeLast '/' s ++ t := by
    obtain ⟨u, hu⟩ := List.rdropWhile_prefix (· != '/') s
    obtain ⟨v, hv⟩ := List.dropLast_prefix (s.rdropWhile (· != '/'))
    exact ⟨v ++ u, by rw [← List.append_assoc, beforeLast, hv, hu]⟩
  have hpop : popPart s = if beforeLast '/' s = [] then ['/'] else beforeLast '/' s := by
    rw [popPart, if_pos hmem]
  have hbytes : popBytes out outLen =
      some (if byteLen (beforeLast '/' s) = 0 then 1 else byteLen (beforeLast '/' s)) := by
    rw [popBytes, h.loaded]
    simp [rfind, hmem]
  obtain ⟨rest, hrest⟩ := h.front
  by_cases hnil : beforeLast '/' s = []
  · rw [hnil] at hpop hbytes
    refine ⟨1, hbytes, h.length, ?_, ?_, ?_⟩
    · rw [hpop]
      rfl
    · obtain ⟨v, hv⟩ := List.head?_eq_some_iff.mp h.head
      refine ⟨utf8 v ++ rest, ?_⟩
      rw [hpop, hrest, hv]
      rfl
    · rw [hpop]
      rfl
  · have hpos : byteLen (beforeLast '/' s) ≠ 0 := by
      have hlen := length_le_byteLen (beforeLast '/' s)
      have hne := List.length_pos_of_ne_nil hnil
      omega
    rw [if_neg hnil] at hpop
    rw [if_neg hpos] at hbytes
    refine ⟨_, hbytes, h.length, by rw [hpop], ?_, ?_⟩
    · refine ⟨utf8 t ++ rest, ?_⟩
      rw [hpop, ← List.append_assoc, ← utf8_append, ← ht]
      exact hrest
    · have hhead := h.head
      rw [ht, List.head?_append_of_ne_nil _ hnil] at hhead
      rw [hpop]
      exact hhead

theorem copyPart_agrees (h : Shows out outLen s) (part : Str) :
    Agrees (copyPart out outLen part)
      (if maxFilenameLen ≤ byteLen s + byteLen part then .error .invalidName
        else .ok (s ++ part)) := by
  unfold copyPart
  rw [← h.len]
  by_cases hlong : maxFilenameLen ≤ outLen + byteLen part
  · rw [if_pos hlong, if_pos hlong]
    exact ⟨out, rfl, h.length⟩
  · rw [if_neg hlong, if_neg hlong]
    obtain ⟨out', hstore, hshows⟩ := h.copied (Nat.le_of_lt (Nat.lt_of_not_le hlong))
    rw [hstore]
    exact ⟨out', _, rfl, hshows⟩

/-- A turn in the buffer does what it does to the string. -/
theorem turn_agrees (h : Shows out outLen s) (part : Str) :
    Agrees (turn out outLen part) (pushPart s part) := by
  unfold turn pushPart
  rw [← h.len]
  by_cases hskip : part = [] ∨ part = ['.']
  · rw [if_pos hskip, if_pos hskip]
    exact ⟨out, outLen, rfl, h⟩
  rw [if_neg hskip, if_neg hskip]
  by_cases hup : part = ['.', '.']
  · rw [if_pos hup, if_pos hup]
    by_cases hone : 1 < outLen
    · obtain ⟨outLen', hpop, hshows⟩ := popBytes_shows h
      rw [if_pos hone, if_pos hone, hpop]
      exact ⟨out, outLen', rfl, hshows⟩
    · rw [if_neg hone, if_neg hone]
      exact ⟨out, outLen, rfl, h⟩
  rw [if_neg hup, if_neg hup]
  by_cases hone : 1 < outLen
  · rw [if_pos hone, if_pos hone]
    by_cases hlong : maxFilenameLen ≤ outLen + 1 + byteLen part
    · rw [if_pos hlong, if_pos hlong]
      exact ⟨out, rfl, h.length⟩
    · obtain ⟨out', hstore, hshows⟩ := h.copiedSlash (by omega)
      have hcopy := copyPart_agrees hshows part
      rw [if_neg hlong, if_neg hlong, hstore]
      rw [← hshows.len, if_neg hlong, List.append_assoc] at hcopy
      exact hcopy
  · have hcopy := copyPart_agrees h part
    rw [← h.len] at hcopy
    rw [if_neg hone, if_neg hone]
    exact hcopy

/-- The loop in the buffer does what it does to the string. -/
theorem turns_agree (h : Shows out outLen s) (parts : List Str) :
    Agrees (turns out outLen parts) (parts.foldlM pushPart s) := by
  induction parts generalizing out outLen s with
  | nil => exact ⟨out, outLen, rfl, h⟩
  | cons part parts ih =>
    have hturn := turn_agrees h part
    rw [turns, List.foldlM_cons]
    cases hpush : pushPart s part with
    | error e =>
      rw [hpush] at hturn
      obtain ⟨out', hout', hlen⟩ := hturn
      rw [hout']
      exact ⟨out', rfl, hlen⟩
    | ok next =>
      rw [hpush] at hturn
      obtain ⟨out', outLen', hout', hshows⟩ := hturn
      rw [hout']
      exact ih hshows

/-! ## The temporary buffer -/

theorem fillTemp_long (h : maxFilenameLen ≤ byteLen (joined clean cwd)) :
    fillTemp clean cwd = some (.error .invalidName) := by
  unfold joined at h
  unfold fillTemp
  dsimp only
  by_cases hclean : clean.head? = some '/'
  · rw [if_pos hclean] at h
    rw [if_pos hclean, if_pos h]
  rw [if_neg hclean] at h
  rw [if_neg hclean]
  by_cases hnil : cwd = []
  · rw [if_pos (.inl hnil), byteLen_slash] at h
    rw [if_pos hnil, if_pos rfl, if_pos h]
  rw [if_neg hnil]
  by_cases hroot : cwd = ['/']
  · rw [if_pos (.inr hroot), byteLen_slash] at h
    rw [if_pos hroot, if_pos h]
  · rw [if_neg (not_or.mpr ⟨hnil, hroot⟩), byteLen_append, byteLen_slash, ← Nat.add_assoc] at h
    rw [if_neg hroot, if_pos h]

/-- Bytes copied behind others, with zeros behind them. -/
theorem store_zeros {front bytes : List UInt8} {off k : ℕ} (hoff : off = front.length)
    (hfits : bytes.length ≤ k) :
    store (front ++ List.replicate k 0) off bytes =
      some (front ++ bytes ++ List.replicate (k - bytes.length) 0) := by
  have hback : bytes.length ≤ (List.replicate k (0 : UInt8)).length := by
    rw [List.length_replicate]
    exact hfits
  rw [store_append hoff hback, List.drop_replicate]

theorem store_zeros_front {bytes : List UInt8} {k : ℕ} (hfits : bytes.length ≤ k) :
    store (List.replicate k 0) 0 bytes =
      some (bytes ++ List.replicate (k - bytes.length) 0) := by
  have hstore := store_zeros (Eq.refl ([] : List UInt8).length) hfits
  exact hstore

/-- A separator and a string, in an empty buffer. -/
theorem store_behindRoot {β : Type} {t : Str} (h : 1 + byteLen t ≤ maxFilenameLen)
    (f : List UInt8 → Option β) :
    ((store (List.replicate maxFilenameLen 0) 0 [0x2F]).bind fun buf =>
        (store buf 1 (utf8 t)).bind f) =
      f (utf8 ('/' :: t) ++ List.replicate (maxFilenameLen - 1 - byteLen t) 0) := by
  have hslash : store (List.replicate maxFilenameLen (0 : UInt8)) 0 [0x2F] =
      some ([0x2F] ++ List.replicate (maxFilenameLen - 1) 0) := rfl
  have hcopy : store ([0x2F] ++ List.replicate (maxFilenameLen - 1) 0) 1 (utf8 t) =
      some ([0x2F] ++ utf8 t ++ List.replicate (maxFilenameLen - 1 - byteLen t) 0) :=
    store_zeros rfl (by rw [← byteLen]; omega)
  rw [hslash, Option.bind_some, hcopy]
  rfl

/-- A directory, a separator and a string, in an empty buffer. -/
theorem store_behindDir {β : Type} {t : Str} (h : byteLen cwd + 1 + byteLen t ≤ maxFilenameLen)
    (f : List UInt8 → Option β) :
    ((store (List.replicate maxFilenameLen 0) 0 (utf8 cwd)).bind fun buf =>
        (store buf (byteLen cwd) [0x2F]).bind fun buf =>
        (store buf (byteLen cwd + 1) (utf8 t)).bind f) =
      f (utf8 (cwd ++ '/' :: t) ++
        List.replicate (maxFilenameLen - byteLen cwd - 1 - byteLen t) 0) := by
  have hdir : store (List.replicate maxFilenameLen 0) 0 (utf8 cwd) =
      some (utf8 cwd ++ List.replicate (maxFilenameLen - byteLen cwd) 0) :=
    store_zeros_front (by rw [← byteLen]; omega)
  have hslash : store (utf8 cwd ++ List.replicate (maxFilenameLen - byteLen cwd) 0)
      (byteLen cwd) [0x2F] =
      some (utf8 cwd ++ [0x2F] ++ List.replicate (maxFilenameLen - byteLen cwd - 1) 0) :=
    store_zeros rfl (by rw [List.length_singleton]; omega)
  have hcopy : store (utf8 cwd ++ [0x2F] ++
        List.replicate (maxFilenameLen - byteLen cwd - 1) 0) (byteLen cwd + 1) (utf8 t) =
      some (utf8 cwd ++ [0x2F] ++ utf8 t ++
        List.replicate (maxFilenameLen - byteLen cwd - 1 - byteLen t) 0) :=
    store_zeros (by rw [List.length_append, List.length_singleton, byteLen])
      (by rw [← byteLen]; omega)
  rw [hdir, Option.bind_some, hslash, Option.bind_some, hcopy, Option.bind_some, utf8_append,
    utf8_slash, List.append_cons (utf8 cwd) 0x2F (utf8 t)]

/-- A joined path that is short enough stands at the front of the temporary buffer. -/
theorem fillTemp_fits (h : byteLen (joined clean cwd) < maxFilenameLen) :
    ∃ k, fillTemp clean cwd = some (.ok (utf8 (joined clean cwd) ++ List.replicate k 0,
      byteLen (joined clean cwd))) := by
  unfold joined at h ⊢
  unfold fillTemp
  dsimp only
  by_cases hclean : clean.head? = some '/'
  · rw [if_pos hclean] at h
    have hcopy : store (List.replicate maxFilenameLen 0) 0 (utf8 clean) =
        some (utf8 clean ++ List.replicate (maxFilenameLen - byteLen clean) 0) :=
      store_zeros_front (Nat.le_of_lt h)
    rw [if_pos hclean, if_pos hclean, if_neg (Nat.not_le.mpr h), hcopy]
    exact ⟨_, rfl⟩
  rw [if_neg hclean] at h
  rw [if_neg hclean, if_neg hclean]
  by_cases hroot : cwd = [] ∨ cwd = ['/']
  · rw [if_pos hroot, byteLen_slash] at h
    have hcwd : (if cwd = [] then ['/'] else cwd) = ['/'] := by
      rcases hroot with hnil | hone
      · rw [if_pos hnil]
      · rw [hone]
        rfl
    rw [if_pos hroot, hcwd, if_pos rfl, byteLen_slash, if_neg (Nat.not_le.mpr h),
      Option.bind_eq_bind, store_behindRoot (Nat.le_of_lt h)]
    exact ⟨_, rfl⟩
  · rw [if_neg hroot, byteLen_append, byteLen_slash, ← Nat.add_assoc] at h
    have hnil : cwd ≠ [] := fun hnil => hroot (.inl hnil)
    have hone : cwd ≠ ['/'] := fun hone => hroot (.inr hone)
    rw [if_neg hroot, if_neg hnil, if_neg hone, byteLen_append, byteLen_slash, ← Nat.add_assoc,
      if_neg (Nat.not_le.mpr h), Option.bind_eq_bind, store_behindDir (Nat.le_of_lt h)]
    exact ⟨_, rfl⟩

/-! ## The whole function -/

/-- The result begins as the separator alone. -/
theorem store_root (hout : out.length = maxFilenameLen) :
    ∃ out', store out 0 [0x2F] = some out' ∧ Shows out' 1 ['/'] := by
  cases out with
  | nil => cases hout
  | cons b rest =>
    refine ⟨0x2F :: rest, ?_, hout, rfl, ⟨rest, rfl⟩, rfl⟩
    exact store_append (Eq.refl ([] : List UInt8).length) (Nat.le_add_left _ _)

/-- What the buffers compute is `normalizePath`, and neither is overrun, whatever the current
directory is. -/
theorem fsNormalizePath_agrees (input cwd : Str) (hout : out.length = maxFilenameLen) :
    Agrees (fsNormalizePath input cwd out) (normalizePath input cwd) := by
  unfold fsNormalizePath normalizePath
  dsimp only
  by_cases hnil : trim input = []
  · rw [if_pos hnil, if_pos hnil]
    exact ⟨out, rfl, hout⟩
  rw [if_neg hnil, if_neg hnil, absolute_eq]
  by_cases hlong : maxFilenameLen ≤ byteLen (joined (trim input) cwd)
  · rw [if_pos hlong, fillTemp_long hlong]
    exact ⟨out, rfl, hout⟩
  · obtain ⟨k, htemp⟩ := fillTemp_fits (Nat.lt_of_not_le hlong)
    obtain ⟨out', hroot, hshows⟩ := store_root hout
    have hload : load (utf8 (joined (trim input) cwd) ++ List.replicate k 0) 0
        (byteLen (joined (trim input) cwd)) = some (utf8 (joined (trim input) cwd)) :=
      load_append (Eq.refl ([] : List UInt8).length) rfl (List.replicate k 0)
    have hturns := turns_agree hshows ((joined (trim input) cwd).splitOn '/')
    rw [if_neg hlong, htemp]
    simp only [Option.bind_eq_bind, Option.bind_some, hroot, hload, fromUtf8_utf8]
    exact hturns

/-- An empty path and a joined path that is too long are refused before the loop. -/
theorem fsNormalizePath_refused (out : List UInt8)
    (h : trim input = [] ∨ maxFilenameLen ≤ byteLen (joined (trim input) cwd)) :
    fsNormalizePath input cwd out = some (.error .invalidName, out) := by
  unfold fsNormalizePath
  dsimp only
  by_cases hnil : trim input = []
  · rw [if_pos hnil]
  · rw [if_neg hnil, fillTemp_long (h.resolve_left hnil)]
    rfl

/-- Turns before one that goes through have gone through. -/
theorem foldlM_pushPart_take {s' : Str} (h : parts.foldlM pushPart s = .ok s') (k : ℕ) :
    ∃ t, (parts.take k).foldlM pushPart s = .ok t := by
  rw [← List.take_append_drop k parts, List.foldlM_append] at h
  cases hfirst : (parts.take k).foldlM pushPart s with
  | error e =>
    rw [hfirst] at h
    cases h
  | ok t => exact ⟨t, rfl⟩

/-- Behind a normal current directory, a path is resolved exactly when it is not blank and the
joined path is shorter than the buffer, to a separator and the joined path's components; the loop
then makes no error after any number of turns, and otherwise it is not reached. -/
theorem fsNormalizePath_exact (input cwd : Str) (out : List UInt8) (hcwd : NormalPath cwd)
    (hout : out.length = maxFilenameLen) :
    (trim input ≠ [] → byteLen (joined (trim input) cwd) < maxFilenameLen →
      (∃ out', fsNormalizePath input cwd out =
          some (.ok (byteLen (rendered (components (joined (trim input) cwd)))), out') ∧
        out'.length = maxFilenameLen ∧
        out'.take (byteLen (rendered (components (joined (trim input) cwd)))) =
          utf8 (rendered (components (joined (trim input) cwd)))) ∧
      ∀ k, ∃ outLen out', out'.length = maxFilenameLen ∧
        turns (0x2F :: out.tail) 1 (((joined (trim input) cwd).splitOn '/').take k) =
          some (.ok outLen, out')) ∧
    (trim input = [] ∨ maxFilenameLen ≤ byteLen (joined (trim input) cwd) →
      fsNormalizePath input cwd out = some (.error .invalidName, out)) := by
  refine ⟨fun hne hlen => ⟨?_, fun k => ?_⟩, fun h => fsNormalizePath_refused out h⟩
  · have hagrees := fsNormalizePath_agrees input cwd hout
    rw [normalizePath_eq hcwd, if_neg (not_or.mpr ⟨hne, Nat.not_le.mpr hlen⟩)] at hagrees
    obtain ⟨out', outLen, hresult, hshows⟩ := hagrees
    rw [hshows.len] at hresult
    exact ⟨out', hresult, hshows.length, hshows.take⟩
  · have hloop := foldlM_splitOn (joined_head hcwd (trim input)) hlen
    obtain ⟨t, ht⟩ := foldlM_pushPart_take hloop k
    have hroot : Shows (0x2F :: out.tail) 1 ['/'] := by
      refine ⟨?_, rfl, ⟨out.tail, rfl⟩, rfl⟩
      rw [List.length_cons, List.length_tail, hout]
      rfl
    have hturns := turns_agree hroot (((joined (trim input) cwd).splitOn '/').take k)
    rw [ht] at hturns
    obtain ⟨out', outLen, hresult, hshows⟩ := hturns
    exact ⟨outLen, out', hshows.length, hresult⟩

/-- Above the root, and over a repeated separator: `../a//b/..` in the root is `/a`. -/
theorem aboveRoot_exact : ∃ out',
    fsNormalizePath ['.', '.', '/', 'a', '/', '/', 'b', '/', '.', '.'] ['/']
      (List.replicate maxFilenameLen 0) = some (.ok 2, out') ∧ out'.take 2 = [0x2F, 0x61] := by
  have hpath : rendered (components (joined
      (trim ['.', '.', '/', 'a', '/', '/', 'b', '/', '.', '.']) ['/'])) = ['/', 'a'] := by decide
  have hexact := fsNormalizePath_exact ['.', '.', '/', 'a', '/', '/', 'b', '/', '.', '.'] ['/']
    (List.replicate maxFilenameLen 0) (.inl rfl) List.length_replicate
  rw [hpath] at hexact
  obtain ⟨out', hresult, -, htake⟩ := (hexact.1 (by decide) (by decide)).1
  exact ⟨out', hresult, htake⟩

end Fs

end LatencyOS
