import LatencyOS.Fs.Resolve

/-!
# Resolving a path again

Blanks are trimmed before a path is split, and components are removed after: a component that was
not the last one may become it, with blanks at its end.  Resolved again, the path then loses them.
Read from the right, a path shows which of its parts becomes the last component.
-/

namespace LatencyOS

namespace Fs

variable {comps parts : List Str} {path part input cwd n : Str}

/-- The part that `k` removals leave last, in parts read from the right: `..` removes a part more,
and empty parts and `.` are passed over. -/
def surviving : ℕ → List Str → Option Str
  | _, [] => none
  | k, part :: parts =>
    if part = [] ∨ part = ['.'] then surviving k parts
    else if part = ['.', '.'] then surviving (k + 1) parts
    else if k = 0 then some part
    else surviving (k - 1) parts

/-- The last character is a blank. -/
def EndsBlank (s : Str) : Prop := ∃ c, s.getLast? = some c ∧ isWhitespace c = true

/-- The part of the joined path that becomes the last component does not end with a blank. -/
def KeepsLast (input cwd : Str) : Prop :=
  ∀ part, surviving 0 ((joined (trim input) cwd).splitOn '/').reverse = some part →
    ¬ EndsBlank part

/-! ## The last component -/

theorem surviving_skip (k : ℕ) (h : part = [] ∨ part = ['.']) :
    surviving k (part :: parts) = surviving k parts := by
  rw [surviving, if_pos h]

theorem surviving_up (k : ℕ) : surviving k (['.', '.'] :: parts) = surviving (k + 1) parts := by
  rw [surviving, if_neg (by decide), if_pos rfl]

/-- The part that survives `k` removals is the last component but `k`. -/
theorem surviving_reverse (k : ℕ) (parts : List Str) :
    surviving k parts.reverse = ((parts.foldl enter []).reverse.drop k).head? := by
  induction parts using List.reverseRecOn generalizing k with
  | nil => cases k <;> rfl
  | append_singleton parts part ih =>
    rw [List.reverse_concat, List.foldl_concat, enter]
    by_cases hskip : part = [] ∨ part = ['.']
    · rw [if_pos hskip, surviving_skip k hskip]
      exact ih k
    rw [if_neg hskip]
    by_cases hup : part = ['.', '.']
    · rw [if_pos hup, hup, surviving_up, ih (k + 1)]
      rw [← List.tail_reverse, List.drop_tail]
    · rw [if_neg hup, surviving, if_neg hskip, if_neg hup, List.reverse_concat]
      cases k with
      | zero => rfl
      | succ k =>
        rw [List.drop_succ_cons]
        exact ih k

theorem surviving_splitOn (path : Str) :
    surviving 0 (path.splitOn '/').reverse = (components path).getLast? := by
  rw [surviving_reverse, List.drop_zero, List.head?_reverse, components]

theorem foldl_enter_append (h : ∀ p ∈ parts, Component p) (comps : List Str) :
    parts.foldl enter comps = comps ++ parts := by
  induction parts generalizing comps with
  | nil => rw [List.append_nil, List.foldl_nil]
  | cons p parts ih =>
    have hp := h p List.mem_cons_self
    have hskip : ¬ (p = [] ∨ p = ['.']) := not_or.mpr ⟨hp.ne_nil, hp.ne_dot⟩
    rw [List.foldl_cons, enter, if_neg hskip, if_neg hp.ne_dotDot,
      ih fun q hq => h q (List.mem_cons_of_mem p hq), ← List.append_cons]

/-- A resolved path has the components it was rendered from. -/
theorem components_rendered (h : ∀ p ∈ comps, Component p) :
    components (rendered comps) = comps := by
  rw [rendered, components_slash]
  by_cases hnil : comps = []
  · rw [hnil]
    rfl
  · rw [List.splitOn_intercalate '/' (fun p hp => (h p hp).no_slash) hnil,
      foldl_enter_append h, List.nil_append]

/-! ## Blanks at the end -/

theorem endsBlank_append (hpart : part ≠ []) (s : Str) :
    EndsBlank (s ++ part) ↔ EndsBlank part := by
  unfold EndsBlank
  rw [List.getLast?_append_of_ne_nil s hpart]

/-- A resolved path ends as its last component does. -/
theorem endsBlank_rendered (h : ∀ p ∈ comps, Component p) :
    EndsBlank (rendered comps) ↔ ∃ part, comps.getLast? = some part ∧ EndsBlank part := by
  rcases List.eq_nil_or_concat comps with rfl | ⟨ps, p, rfl⟩
  · constructor
    · rintro ⟨c, hc, hblank⟩
      cases hc
      exact absurd hblank (by decide)
    · rintro ⟨part, hpart, -⟩
      cases hpart
  · rw [List.concat_eq_append] at h ⊢
    have hp := h p (List.mem_append_right ps List.mem_cons_self)
    rw [rendered_of_ne_nil (by simp), joinPath_append, joinPath_singleton, List.append_cons,
      endsBlank_append hp.ne_nil, List.getLast?_concat]
    constructor
    · intro hblank
      exact ⟨p, rfl, hblank⟩
    · rintro ⟨part, hpart, hblank⟩
      cases hpart
      exact hblank

theorem trim_of_head (h : path.head? = some '/') : trim path = path.rdropWhile isWhitespace := by
  obtain ⟨s, rfl⟩ := List.head?_eq_some_iff.mp h
  rw [trim, List.dropWhile_cons_of_neg (by decide)]

/-- A path that does not end with a blank is not trimmed. -/
theorem trim_eq_self (h : path.head? = some '/') (hend : ¬ EndsBlank path) : trim path = path := by
  rw [trim_of_head h, List.rdropWhile_eq_self_iff]
  intro hne hblank
  exact hend ⟨path.getLast hne, List.getLast?_eq_some_getLast hne, hblank⟩

/-- One that does is trimmed to a shorter path. -/
theorem byteLen_trim_lt (h : path.head? = some '/') (hend : EndsBlank path) :
    byteLen (trim path) < byteLen path ∧ (trim path).head? = some '/' := by
  obtain ⟨c, hc, hblank⟩ := hend
  obtain ⟨front, rfl⟩ := List.getLast?_eq_some_iff.mp hc
  have hne : (front ++ [c]).rdropWhile isWhitespace ≠ [] := by
    intro hnil
    have hslash := List.rdropWhile_eq_nil_iff.mp hnil '/' (List.mem_of_mem_head? h)
    exact absurd hslash (by decide)
  rw [trim_of_head h]
  constructor
  · obtain ⟨rest, hrest⟩ := List.rdropWhile_prefix isWhitespace front
    have hle : byteLen (front.rdropWhile isWhitespace) + byteLen rest = byteLen front := by
      rw [← byteLen_append, hrest]
    have hpos := c.utf8Size_pos
    rw [List.rdropWhile_concat_pos isWhitespace front c hblank, byteLen_append, byteLen_cons]
    omega
  · obtain ⟨rest, hrest⟩ := List.rdropWhile_prefix isWhitespace (front ++ [c])
    rw [← hrest, List.head?_append_of_ne_nil _ hne] at h
    exact h

/-! ## Resolving twice -/

theorem normalizePath_ok (h : normalizePath input cwd = .ok n) :
    n = rendered (components (joined (trim input) cwd)) := by
  unfold normalizePath at h
  dsimp only at h
  split at h
  · cases h
  · rw [absolute_eq] at h
    by_cases hlong : maxFilenameLen ≤ byteLen (joined (trim input) cwd)
    · rw [if_pos hlong] at h
      cases h
    · rw [if_neg hlong] at h
      exact foldlM_pushPart_rendered (fun _ hp => absurd hp List.not_mem_nil)
        (fun _ hp => notMem_of_mem_splitOn hp) h

/-- A path that starts with a separator does not depend on the current directory. -/
theorem normalizePath_of_head (h : (trim path).head? = some '/')
    (hlen : byteLen (trim path) < maxFilenameLen) (cwd : Str) :
    normalizePath path cwd = .ok (rendered (components (trim path))) := by
  have hne : trim path ≠ [] := by
    intro hnil
    rw [hnil] at h
    cases h
  have hjoined : joined (trim path) cwd = trim path := by rw [joined, if_pos h]
  unfold normalizePath
  dsimp only
  rw [if_neg hne, absolute_eq, hjoined, if_neg (Nat.not_le.mpr hlen)]
  exact foldlM_splitOn h hlen

/-- A resolved path is resolved to itself, from every current directory, exactly when the part
that became its last component does not end with a blank. -/
theorem normalizePath_fixed_iff (h : normalizePath input cwd = .ok n) :
    (∀ cwd', normalizePath n cwd' = .ok n) ↔ KeepsLast input cwd := by
  have hlen := (normalizePath_spec h).2
  have hcomps := components_component (joined (trim input) cwd)
  have hkeeps : KeepsLast input cwd ↔ ¬ EndsBlank n := by
    rw [normalizePath_ok h, endsBlank_rendered hcomps, KeepsLast]
    simp only [surviving_splitOn, not_exists, not_and]
  have hhead : n.head? = some '/' := by
    rw [normalizePath_ok h]
    rfl
  rw [hkeeps]
  constructor
  · intro hfixed hend
    obtain ⟨hshort, htrim⟩ := byteLen_trim_lt hhead hend
    have hagain := normalizePath_of_head htrim (Nat.lt_trans hshort hlen) []
    rw [hfixed []] at hagain
    have heq : n = rendered (components (trim n)) := Except.ok.inj hagain
    have hle := byteLen_rendered_components_le htrim
    rw [← heq] at hle
    exact absurd hshort (Nat.not_lt.mpr hle)
  · intro hend cwd'
    have htrim := trim_eq_self hhead hend
    have hagain := normalizePath_of_head (by rw [htrim]; exact hhead) (by rw [htrim]; exact hlen)
      cwd'
    rw [hagain, htrim, normalizePath_ok h, components_rendered hcomps]

/-- `a` in the root is resolved to `/a`, which is resolved to itself. -/
theorem plainName_fixed : normalizePath ['a'] ['/'] = .ok ['/', 'a'] ∧
    ∀ cwd', normalizePath ['/', 'a'] cwd' = .ok ['/', 'a'] := by
  have hname : normalizePath ['a'] ['/'] = .ok ['/', 'a'] := by decide
  refine ⟨hname, (normalizePath_fixed_iff hname).mpr ?_⟩
  intro part hpart
  have hlast : surviving 0 ((joined (trim ['a']) ['/']).splitOn '/').reverse = some ['a'] := by
    decide
  rw [hlast] at hpart
  cases hpart
  rintro ⟨c, hc, hblank⟩
  cases hc
  exact absurd hblank (by decide)

/-- `a /.` in the root is resolved to `/a `, which is resolved to `/a`. -/
theorem blankName_shortened : normalizePath ['a', ' ', '/', '.'] ['/'] = .ok ['/', 'a', ' '] ∧
    normalizePath ['/', 'a', ' '] ['/'] = .ok ['/', 'a'] ∧
    ¬ ∀ input cwd n, normalizePath input cwd = .ok n →
      ∀ cwd', normalizePath n cwd' = .ok n := by
  have hfirst : normalizePath ['a', ' ', '/', '.'] ['/'] = .ok ['/', 'a', ' '] := by decide
  have hsecond : normalizePath ['/', 'a', ' '] ['/'] = .ok ['/', 'a'] := by decide
  refine ⟨hfirst, hsecond, fun hfixed => ?_⟩
  have hsame := hfixed _ _ _ hfirst ['/']
  rw [hsecond] at hsame
  exact absurd hsame (by decide)

end Fs

end LatencyOS
