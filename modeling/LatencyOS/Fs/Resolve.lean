import LatencyOS.Fs.Path

/-!
# What a path is resolved to

The path behind the current directory is split at its separators; empty parts and `.` are left out,
and `..` takes the component before it away.  `fs_normalize_path` renders what is left, and its
length errors in the loop cannot occur for a path that starts with a separator.
-/

namespace LatencyOS

namespace Fs

/-- The path that is resolved: a relative one stands behind the current directory. -/
def joined (clean cwd : Str) : Str :=
  if clean.head? = some '/' then clean
  else if cwd = [] ∨ cwd = ['/'] then '/' :: clean
  else cwd ++ '/' :: clean

/-- What a part does to the components before it. -/
def enter (comps : List Str) (part : Str) : List Str :=
  if part = [] ∨ part = ['.'] then comps
  else if part = ['.', '.'] then comps.dropLast
  else comps ++ [part]

/-- The components of a path. -/
def components (path : Str) : List Str := (path.splitOn '/').foldl enter []

/-- A separator, followed by the components. -/
def rendered (comps : List Str) : Str := '/' :: ['/'].intercalate comps

variable {comps parts : List Str} {part out input cwd clean path : Str}

/-! ## Components -/

@[simp] theorem rendered_nil : rendered [] = ['/'] := rfl

theorem rendered_cons (p : Str) (ps : List Str) : rendered (p :: ps) = joinPath (p :: ps) := by
  induction ps generalizing p with
  | nil => simp [rendered, List.intercalate]
  | cons q ps ih =>
    have hq := ih q
    rw [rendered, joinPath_cons] at hq
    rw [rendered, joinPath_cons, joinPath_cons, ← hq]
    simp [List.intercalate]

theorem rendered_of_ne_nil (h : comps ≠ []) : rendered comps = joinPath comps := by
  cases comps with
  | nil => exact absurd rfl h
  | cons p ps => exact rendered_cons p ps

theorem enter_component (h : ∀ p ∈ comps, Component p) (hpart : '/' ∉ part) :
    ∀ p ∈ enter comps part, Component p := by
  unfold enter
  split
  · exact h
  · next hskip =>
    split
    · exact fun p hp => h p (List.dropLast_subset _ hp)
    · next hup =>
      intro p hp
      rcases List.mem_append.mp hp with hp | hp
      · exact h p hp
      · rw [List.mem_singleton.mp hp]
        exact ⟨fun hnil => hskip (.inl hnil), fun hdot => hskip (.inr hdot), hup, hpart⟩

theorem foldl_enter_component (h : ∀ p ∈ comps, Component p) (hparts : ∀ p ∈ parts, '/' ∉ p) :
    ∀ p ∈ parts.foldl enter comps, Component p := by
  induction parts generalizing comps with
  | nil => exact h
  | cons part parts ih =>
    exact ih (enter_component h (hparts part List.mem_cons_self))
      fun p hp => hparts p (List.mem_cons_of_mem part hp)

theorem components_component (path : Str) : ∀ p ∈ components path, Component p :=
  foldl_enter_component (fun _ h => absurd h List.not_mem_nil) fun _ => notMem_of_mem_splitOn

/-! ## One part -/

theorem one_lt_rendered_iff (h : ∀ p ∈ comps, Component p) :
    1 < byteLen (rendered comps) ↔ comps ≠ [] := by
  constructor
  · rintro hlt rfl
    exact absurd hlt (by decide)
  · intro hne
    rw [rendered_of_ne_nil hne]
    exact AbsPath.one_lt ⟨comps, hne, h, rfl⟩

/-- Going up drops the last component. -/
theorem popPart_rendered (h : ∀ p ∈ comps, Component p) (hne : comps ≠ []) :
    popPart (rendered comps) = rendered comps.dropLast := by
  obtain ⟨ps, p, rfl⟩ := List.eq_nil_or_concat comps |>.resolve_left hne
  rw [List.concat_eq_append] at h hne ⊢
  have hp := h p (by simp)
  have hs : joinPath (ps ++ [p]) = joinPath ps ++ '/' :: p := by simp
  have hslash : '/' ∈ joinPath ps ++ '/' :: p := by simp
  rw [rendered_of_ne_nil hne, hs, popPart, if_pos hslash, List.dropLast_concat]
  simp only [beforeLast_slash hp.no_slash]
  cases ps with
  | nil => rfl
  | cons q qs => rw [if_neg (by simp [joinPath_cons]), rendered_cons]

/-- A part that goes through does what it does to the components. -/
theorem pushPart_rendered (h : ∀ p ∈ comps, Component p)
    (hpush : pushPart (rendered comps) part = .ok out) : out = rendered (enter comps part) := by
  unfold pushPart at hpush
  unfold enter
  by_cases hskip : part = [] ∨ part = ['.']
  · rw [if_pos hskip] at hpush ⊢
    cases hpush
    rfl
  rw [if_neg hskip] at hpush ⊢
  by_cases hup : part = ['.', '.']
  · rw [if_pos hup] at hpush ⊢
    cases hpush
    by_cases hne : comps = []
    · subst hne
      rfl
    · rw [if_pos ((one_lt_rendered_iff h).mpr hne), popPart_rendered h hne]
  rw [if_neg hup] at hpush ⊢
  by_cases hne : comps = []
  · subst hne
    rw [if_neg (by decide)] at hpush
    split at hpush
    · cases hpush
    · cases hpush
      simp [rendered, List.intercalate]
  · rw [if_pos ((one_lt_rendered_iff h).mpr hne)] at hpush
    split at hpush
    · cases hpush
    · cases hpush
      rw [rendered_of_ne_nil hne, rendered_of_ne_nil (by simp), joinPath_append,
        joinPath_singleton]

theorem foldlM_pushPart_rendered (h : ∀ p ∈ comps, Component p) (hparts : ∀ p ∈ parts, '/' ∉ p)
    (hpush : parts.foldlM pushPart (rendered comps) = .ok out) :
    out = rendered (parts.foldl enter comps) := by
  induction parts generalizing comps with
  | nil =>
    cases hpush
    rfl
  | cons part parts ih =>
    rw [List.foldlM_cons] at hpush
    cases hfirst : pushPart (rendered comps) part with
    | error e =>
      rw [hfirst] at hpush
      cases hpush
    | ok next =>
      rw [hfirst, pushPart_rendered h hfirst] at hpush
      exact ih (enter_component h (hparts part List.mem_cons_self))
        (fun p hp => hparts p (List.mem_cons_of_mem part hp)) hpush

/-! ## Lengths -/

/-- The bytes some parts take, each with a separator. -/
def width (parts : List Str) : ℕ := (parts.map fun p => 1 + byteLen p).sum

theorem width_splitOn (s : Str) : width (s.splitOn '/') = 1 + byteLen s := by
  induction s with
  | nil => rfl
  | cons c s ih =>
    rw [List.splitOn_cons_eq_if_modifyHead]
    split
    · next hc =>
      have hslash : c = '/' := by simpa using hc
      rw [hslash, width, List.map_cons, List.sum_cons, ← width, ih, byteLen_slash]
      rfl
    · cases hs : s.splitOn '/' with
      | nil => exact absurd hs (List.splitOn_ne_nil '/' s)
      | cons q qs =>
        rw [hs, width, List.map_cons, List.sum_cons] at ih
        rw [List.modifyHead_cons, width, List.map_cons, List.sum_cons, byteLen_cons, byteLen_cons]
        omega

/-- The components take no more bytes than the parts they come from. -/
theorem byteLen_enter_le (comps : List Str) (part : Str) :
    byteLen (joinPath (enter comps part)) ≤ byteLen (joinPath comps) + (1 + byteLen part) := by
  unfold enter
  split
  · exact Nat.le_add_right _ _
  · split
    · rcases List.eq_nil_or_concat comps with rfl | ⟨ps, p, rfl⟩
      · exact Nat.le_add_right _ _
      · rw [List.concat_eq_append, List.dropLast_concat, joinPath_append, byteLen_append]
        omega
    · rw [joinPath_append, joinPath_singleton, byteLen_append, byteLen_slash]

theorem byteLen_foldl_enter_le (comps parts : List Str) :
    byteLen (joinPath (parts.foldl enter comps)) ≤ byteLen (joinPath comps) + width parts := by
  induction parts generalizing comps with
  | nil => exact Nat.le_add_right _ _
  | cons part parts ih =>
    have hfirst := byteLen_enter_le comps part
    have hrest := ih (enter comps part)
    rw [List.foldl_cons, width, List.map_cons, List.sum_cons, ← width]
    omega

/-- The parts of a path that starts with a separator. -/
theorem splitOn_slash (s : Str) : ('/' :: s).splitOn '/' = [] :: s.splitOn '/' := by
  rw [List.splitOn_cons_eq_if_modifyHead, if_pos (by simp)]

theorem components_slash (s : Str) :
    components ('/' :: s) = (s.splitOn '/').foldl enter [] := by
  rw [components, splitOn_slash]
  rfl

/-- A path that starts with a separator is resolved to one that is no longer. -/
theorem byteLen_rendered_components_le (h : path.head? = some '/') :
    byteLen (rendered (components path)) ≤ byteLen path := by
  obtain ⟨s, rfl⟩ := List.head?_eq_some_iff.mp h
  have hle := byteLen_foldl_enter_le [] (s.splitOn '/')
  rw [width_splitOn] at hle
  rw [components_slash, byteLen_slash]
  generalize (s.splitOn '/').foldl enter [] = comps at hle ⊢
  cases comps with
  | nil => exact Nat.le_add_right _ _
  | cons p ps =>
    rw [rendered_cons]
    simpa using hle

/-- A part that fits goes through. -/
theorem pushPart_fits (h : ∀ p ∈ comps, Component p)
    (hfits : byteLen (joinPath comps) + (1 + byteLen part) < maxFilenameLen) :
    ∃ out, pushPart (rendered comps) part = .ok out := by
  unfold pushPart
  split
  · exact ⟨_, rfl⟩
  split
  · exact ⟨_, rfl⟩
  by_cases hne : comps = []
  · subst hne
    rw [if_neg (by decide), if_neg (Nat.not_le.mpr ?_)]
    · exact ⟨_, rfl⟩
    · rw [joinPath_nil, byteLen_nil, Nat.zero_add] at hfits
      exact hfits
  · rw [if_pos ((one_lt_rendered_iff h).mpr hne), if_neg (Nat.not_le.mpr ?_)]
    · exact ⟨_, rfl⟩
    · rw [rendered_of_ne_nil hne]
      omega

theorem foldlM_pushPart_fits (h : ∀ p ∈ comps, Component p) (hparts : ∀ p ∈ parts, '/' ∉ p)
    (hfits : byteLen (joinPath comps) + width parts < maxFilenameLen) :
    parts.foldlM pushPart (rendered comps) = .ok (rendered (parts.foldl enter comps)) := by
  induction parts generalizing comps with
  | nil => rfl
  | cons part parts ih =>
    rw [width, List.map_cons, List.sum_cons, ← width] at hfits
    have hfirst : byteLen (joinPath comps) + (1 + byteLen part) < maxFilenameLen := by omega
    obtain ⟨out, hout⟩ := pushPart_fits h hfirst
    have hle := byteLen_enter_le comps part
    rw [List.foldlM_cons, hout, pushPart_rendered h hout]
    exact ih (enter_component h (hparts part List.mem_cons_self))
      (fun p hp => hparts p (List.mem_cons_of_mem part hp)) (by omega)

/-- The loop resolves a path that starts with a separator and is short enough. -/
theorem foldlM_splitOn (h : path.head? = some '/') (hlen : byteLen path < maxFilenameLen) :
    (path.splitOn '/').foldlM pushPart ['/'] = .ok (rendered (components path)) := by
  obtain ⟨s, rfl⟩ := List.head?_eq_some_iff.mp h
  have hwidth : byteLen (joinPath []) + width (s.splitOn '/') < maxFilenameLen := by
    rw [width_splitOn, joinPath_nil, byteLen_nil, Nat.zero_add, ← byteLen_slash]
    exact hlen
  rw [components_slash, splitOn_slash, List.foldlM_cons]
  exact foldlM_pushPart_fits (fun _ hp => absurd hp List.not_mem_nil)
    (fun _ hp => notMem_of_mem_splitOn hp) hwidth

/-! ## The whole function -/

theorem absolute_eq (clean cwd : Str) :
    absolute clean cwd = if maxFilenameLen ≤ byteLen (joined clean cwd) then .error .invalidName
      else .ok (joined clean cwd) := rfl

theorem AbsPath.head (h : AbsPath path) : path.head? = some '/' := by
  obtain ⟨parts, hne, -, rfl⟩ := h
  cases parts with
  | nil => exact absurd rfl hne
  | cons p ps => rfl

theorem NormalPath.head (h : NormalPath path) : path.head? = some '/' := by
  rcases h with rfl | h
  · rfl
  · exact h.head

/-- Behind a normal current directory every path starts with a separator. -/
theorem joined_head (hcwd : NormalPath cwd) (clean : Str) :
    (joined clean cwd).head? = some '/' := by
  unfold joined
  by_cases hclean : clean.head? = some '/'
  · rw [if_pos hclean]
    exact hclean
  rw [if_neg hclean]
  by_cases hroot : cwd = [] ∨ cwd = ['/']
  · rw [if_pos hroot]
    rfl
  · rw [if_neg hroot, List.head?_append, hcwd.head]
    rfl

/-- `fs_normalize_path` renders the components of the joined path. -/
theorem normalizePath_eq (hcwd : NormalPath cwd) (input : Str) :
    normalizePath input cwd =
      if trim input = [] ∨ maxFilenameLen ≤ byteLen (joined (trim input) cwd) then
        .error .invalidName
      else .ok (rendered (components (joined (trim input) cwd))) := by
  unfold normalizePath
  dsimp only
  by_cases hnil : trim input = []
  · rw [if_pos hnil, if_pos (.inl hnil)]
  rw [if_neg hnil, absolute_eq]
  by_cases hlen : maxFilenameLen ≤ byteLen (joined (trim input) cwd)
  · rw [if_pos hlen, if_pos (.inr hlen)]
  · rw [if_neg hlen, if_neg (not_or.mpr ⟨hnil, hlen⟩)]
    exact foldlM_splitOn (joined_head hcwd (trim input)) (Nat.lt_of_not_le hlen)

end Fs

end LatencyOS
