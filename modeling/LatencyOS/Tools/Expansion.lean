import LatencyOS.Tools.Include
import LatencyOS.Lib.Span

/-!
# What the include preprocessor writes

The expansion of a script is stated on its own: well-formed directives are replaced, all
other bytes are copied.  The preprocessor pushes every copied byte as the character with
its code, so it returns the expansion exactly for ASCII texts.
-/

namespace LatencyOS

namespace Include

variable {resolver : List UInt8 → Option (List UInt8)}

/-- A well-formed directive at the start of a text: the keyword, a path in quotes, blanks
around it, and a semicolon if one follows. -/
def IsDirective (s path after : List UInt8) : Prop :=
  ∃ blanks blanks' tail,
    s = keyword ++ (blanks ++ 0x22 :: (path ++ 0x22 :: (blanks' ++ tail))) ∧
    (∀ b ∈ blanks, isBlank b = true) ∧ (∀ b ∈ path, isPathByte b = true) ∧
    (∀ b ∈ blanks', isBlank b = true) ∧
    (tail = 0x3B :: after ∨ tail = after ∧ ∀ b ∈ after.head?, isBlank b = false ∧ b ≠ 0x3B)

/-- `out` is the text with every directive replaced by the newline-terminated expansion of
its file, and with all other bytes copied. -/
inductive Expands (resolver : List UInt8 → Option (List UInt8)) : List UInt8 → List UInt8 → Prop
  | nil : Expands resolver [] []
  | copy {b : UInt8} {rest out : List UInt8}
      (hno : ∀ path after, ¬ IsDirective (b :: rest) path after)
      (hrest : Expands resolver rest out) : Expands resolver (b :: rest) (b :: out)
  | expand {s path after content inner out : List UInt8} (hdir : IsDirective s path after)
      (hcontent : resolver path = some content) (hinner : Expands resolver content inner)
      (hrest : Expands resolver after out) : Expands resolver s (terminated inner ++ out)

/-- What is left behind the closing quote. -/
theorem skipSemicolon_eq_iff {s after : List UInt8} :
    skipSemicolon (s.dropWhile isBlank) = after ↔ ∃ blanks tail, s = blanks ++ tail ∧
      (∀ b ∈ blanks, isBlank b = true) ∧
      (tail = 0x3B :: after ∨ tail = after ∧ ∀ b ∈ after.head?, isBlank b = false ∧ b ≠ 0x3B) := by
  constructor
  · rintro rfl
    obtain ⟨blanks, hs, hblanks, hhead⟩ := dropWhile_eq_iff.mp (Eq.refl (s.dropWhile isBlank))
    refine ⟨blanks, _, hs, hblanks, ?_⟩
    unfold skipSemicolon
    split
    · exact .inl ‹_›
    · next hno =>
      refine .inr ⟨rfl, fun b hb => ⟨hhead b hb, ?_⟩⟩
      rintro rfl
      obtain ⟨rest, hrest⟩ := List.head?_eq_some_iff.mp (Option.mem_def.mp hb)
      exact hno rest hrest
  · rintro ⟨blanks, tail, rfl, hblanks, rfl | ⟨rfl, hhead⟩⟩
    · rw [dropWhile_eq_iff.mpr ⟨blanks, rfl, hblanks, by simp [isBlank]⟩]
      rfl
    · rw [dropWhile_eq_iff.mpr ⟨blanks, rfl, hblanks, fun b hb => (hhead b hb).1⟩]
      unfold skipSemicolon
      split
      · exact absurd rfl (hhead 0x3B rfl).2
      · rfl

theorem quotedPath?_eq_some_iff {s path after : List UInt8} :
    quotedPath? s = some (path, after) ↔ ∃ rest, s = path ++ 0x22 :: rest ∧
      (∀ b ∈ path, isPathByte b = true) ∧ skipSemicolon (rest.dropWhile isBlank) = after := by
  constructor
  · intro h
    unfold quotedPath? at h
    split at h
    · next rest hrest =>
      cases h
      obtain ⟨hs, hpath, -⟩ := span_eq_iff.mp ⟨rfl, hrest⟩
      exact ⟨rest, hs, hpath, rfl⟩
    · cases h
  · rintro ⟨rest, rfl, hpath, rfl⟩
    obtain ⟨htake, hdrop⟩ := span_eq_iff.mpr
      ⟨Eq.refl (path ++ 0x22 :: rest), hpath, by simp [isPathByte]⟩
    simp only [quotedPath?, htake, hdrop]

/-- The scanner finds the well-formed directives. -/
theorem directive?_eq_some_iff {s path after : List UInt8} :
    directive? s = some (path, after) ↔ IsDirective s path after := by
  have hlen : keyword.length = 8 := by decide
  constructor
  · intro h
    unfold directive? at h
    split at h
    · next hkey =>
      obtain ⟨s, rfl⟩ := hkey
      rw [← hlen, List.drop_left] at h
      split at h
      · next rest hrest =>
        obtain ⟨blanks, rfl, hblanks, -⟩ := dropWhile_eq_iff.mp hrest
        obtain ⟨rest', rfl, hpath, hafter⟩ := quotedPath?_eq_some_iff.mp h
        obtain ⟨blanks', tail, rfl, hblanks', htail⟩ := skipSemicolon_eq_iff.mp hafter
        exact ⟨blanks, blanks', tail, rfl, hblanks, hpath, hblanks', htail⟩
      · cases h
    · cases h
  · rintro ⟨blanks, blanks', tail, rfl, hblanks, hpath, hblanks', htail⟩
    rw [directive?, if_pos (List.prefix_append _ _), ← hlen, List.drop_left,
      dropWhile_eq_iff.mpr ⟨blanks, rfl, hblanks, by simp [isBlank]⟩]
    exact quotedPath?_eq_some_iff.mpr
      ⟨_, rfl, hpath, skipSemicolon_eq_iff.mpr ⟨blanks', tail, rfl, hblanks', htail⟩⟩

theorem directive?_eq_none_iff {s : List UInt8} :
    directive? s = none ↔ ∀ path after, ¬ IsDirective s path after := by
  simp only [← directive?_eq_some_iff, Option.eq_none_iff_forall_ne_some, Prod.forall, ne_eq]

/-! ### The pieces again -/

theorem pieces_of_directive {s path after : List UInt8} (h : IsDirective s path after) :
    pieces s = .file path :: pieces after := by
  have hdir := directive?_eq_some_iff.mpr h
  cases s with
  | nil =>
    have hlt := length_directive hdir
    exact absurd hlt (Nat.not_lt_zero _)
  | cons b rest =>
    rw [pieces]
    split
    · next path' after' h' =>
      cases hdir.symm.trans h'
      rfl
    · next h' => cases hdir.symm.trans h'

theorem pieces_of_none {b : UInt8} {rest : List UInt8}
    (h : ∀ path after, ¬ IsDirective (b :: rest) path after) :
    pieces (b :: rest) = .copied b :: pieces rest := by
  have hdir := directive?_eq_none_iff.mpr h
  rw [pieces]
  split
  · next path' after' h' => cases hdir.symm.trans h'
  · rfl

/-- A text has at most one expansion. -/
theorem Expands.unique {s out out' : List UInt8} (h : Expands resolver s out)
    (h' : Expands resolver s out') : out = out' := by
  induction h generalizing out' with
  | nil =>
    cases h' with
    | nil => rfl
    | expand hdir =>
      have hlt := length_directive (directive?_eq_some_iff.mpr hdir)
      exact absurd hlt (Nat.not_lt_zero _)
  | copy hno hrest ih =>
    cases h' with
    | copy _ hrest' => rw [ih hrest']
    | expand hdir => exact absurd hdir (hno _ _)
  | expand hdir hcontent hinner hrest ihinner ihrest =>
    cases h' with
    | nil =>
      have hlt := length_directive (directive?_eq_some_iff.mpr hdir)
      exact absurd hlt (Nat.not_lt_zero _)
    | copy hno => exact absurd hdir (hno _ _)
    | expand hdir' hcontent' hinner' hrest' =>
      have hsame := (directive?_eq_some_iff.mpr hdir).symm.trans (directive?_eq_some_iff.mpr hdir')
      cases hsame
      cases hcontent.symm.trans hcontent'
      rw [ihinner hinner', ihrest hrest']

/-! ### Bytes as characters -/

/-- The second byte of a character from 0x80 on. -/
theorem pushByte_last_ne (b : UInt8) : (0x80 : UInt8) ||| b &&& 0x3F ≠ 0x0A := by
  intro h
  have hbit := congrArg (fun x : UInt8 => x.toBitVec.getLsbD 7) h
  simp at hbit

theorem getLast?_pushByte (b : UInt8) : (pushByte b).getLast? = some 0x0A ↔ b = 0x0A := by
  unfold pushByte
  split
  · simp
  · next hb =>
    refine iff_of_false (fun h => pushByte_last_ne b (Option.some.inj h)) ?_
    rintro rfl
    exact hb (by decide)

theorem pushByte_ne_nil (b : UInt8) : pushByte b ≠ [] := by
  unfold pushByte
  split <;> exact List.cons_ne_nil _ _

/-- Reading bytes as characters keeps the newline at the end of an expansion. -/
theorem terminated_flatMap (e : List UInt8) :
    terminated (e.flatMap pushByte) = (terminated e).flatMap pushByte := by
  have hlast : (e.flatMap pushByte).getLast? = some 0x0A ↔ e.getLast? = some 0x0A := by
    rcases List.eq_nil_or_concat e with rfl | ⟨init, b, rfl⟩
    · rfl
    · rw [List.concat_eq_append, List.flatMap_append, List.flatMap_singleton,
        List.getLast?_append_of_ne_nil _ (pushByte_ne_nil b), getLast?_pushByte,
        List.getLast?_concat, Option.some_inj]
  unfold terminated
  by_cases h : e.getLast? = some 0x0A
  · rw [if_pos h, if_pos (hlast.mpr h)]
  · rw [if_neg h, if_neg (mt hlast.mp h), List.flatMap_append]
    rfl

/-- The loop returns the expansion, if the included files do. -/
theorem exists_expands_of_scan {child : List UInt8 → Except CompileError (List UInt8)}
    (hchild : ∀ path out, child path = .ok out → ∃ content e, resolver path = some content ∧
      Expands resolver content e ∧ out = e.flatMap pushByte) {s out : List UInt8}
    (h : scan child s = .ok out) : ∃ e, Expands resolver s e ∧ out = e.flatMap pushByte := by
  fun_induction scan child s generalizing out with
  | case1 =>
    cases h
    exact ⟨[], .nil, rfl⟩
  | case2 b rest path after hdir ih =>
    cases hc : child path with
    | error err =>
      rw [hc] at h
      cases h
    | ok inner =>
      cases hs : scan child after with
      | error err =>
        rw [hc, hs] at h
        cases h
      | ok tail =>
        rw [hc, hs] at h
        cases h
        obtain ⟨content, e, hcontent, he, rfl⟩ := hchild path inner hc
        obtain ⟨e', he', rfl⟩ := ih hs
        refine ⟨terminated e ++ e', .expand (directive?_eq_some_iff.mp hdir) hcontent he he', ?_⟩
        rw [List.flatMap_append, terminated_flatMap]
  | case3 b rest hdir ih =>
    cases hs : scan child rest with
    | error err =>
      rw [hs] at h
      cases h
    | ok tail =>
      rw [hs] at h
      cases h
      obtain ⟨e, he, rfl⟩ := ih hs
      exact ⟨b :: e, .copy (directive?_eq_none_iff.mp hdir) he, List.flatMap_cons.symm⟩

/-- What the preprocessor returns is the expansion, each of its bytes read as a character. -/
theorem exists_expands {levels : ℕ} {src file out : List UInt8} {callStack : List (List UInt8)}
    (h : preprocessRecursive resolver levels src file callStack = .ok out) :
    ∃ e, Expands resolver src e ∧ out = e.flatMap pushByte := by
  induction levels generalizing src file out callStack with
  | zero => cases h
  | succ levels ih =>
    rw [preprocessRecursive_succ] at h
    refine exists_expands_of_scan (fun path inner hinner => ?_) h
    split at hinner
    · cases hinner
    · split at hinner
      · cases hinner
      · next content hcontent =>
        obtain ⟨e, he, hout⟩ := ih hinner
        exact ⟨content, e, hcontent, he, hout⟩

/-- Reading bytes as characters changes nothing exactly for ASCII. -/
theorem flatMap_pushByte_eq_self_iff (e : List UInt8) :
    e.flatMap pushByte = e ↔ ∀ b ∈ e, b < 0x80 := by
  have hlen : ∀ l : List UInt8, l.length ≤ (l.flatMap pushByte).length := by
    intro l
    induction l with
    | nil => exact Nat.le_refl _
    | cons b l ih =>
      have hpos := List.length_pos_iff.mpr (pushByte_ne_nil b)
      rw [List.flatMap_cons, List.length_append, List.length_cons]
      omega
  induction e with
  | nil => simp
  | cons b e ih =>
    have hcons : (∀ x ∈ b :: e, x < 0x80) ↔ b < 0x80 ∧ e.flatMap pushByte = e :=
      List.forall_mem_cons.trans (and_congr_right fun _ => ih.symm)
    rw [List.flatMap_cons, hcons]
    by_cases hb : b < 0x80
    · rw [pushByte, if_pos hb, List.singleton_append, List.cons_inj_right]
      exact ⟨fun h => ⟨hb, h⟩, fun h => h.2⟩
    · refine iff_of_false (fun h => ?_) fun h => hb h.1
      have hl := congrArg List.length h
      have he := hlen e
      rw [pushByte, if_neg hb, List.length_append, List.length_cons] at hl
      simp only [List.length_cons, List.length_nil] at hl
      omega

/-! ### The bytes that are copied -/

/-- A property of all bytes that are copied from a text and from the files below it. -/
def AllCopied (resolver : List UInt8 → Option (List UInt8)) (P : UInt8 → Prop) (src : List UInt8) :
    Prop :=
  ∀ paths t, IncludeChain resolver src paths t → ∀ b, .copied b ∈ pieces t → P b

variable {P : UInt8 → Prop}

theorem allCopied_iff (src : List UInt8) : AllCopied resolver P src ↔
    (∀ b, .copied b ∈ pieces src → P b) ∧
      ∀ path content, Includes src path → resolver path = some content →
        AllCopied resolver P content := by
  constructor
  · intro h
    exact ⟨h [] src (.here src), fun path content hpath hcontent paths t hchain =>
      h (path :: paths) t (.cons hpath hcontent hchain)⟩
  · rintro ⟨hhere, hbelow⟩ paths t hchain
    cases hchain with
    | here => exact hhere
    | cons hpath hcontent hrest => exact hbelow _ _ hpath hcontent _ _ hrest

theorem forall_mem_terminated (hP : P 0x0A) (e : List UInt8) :
    (∀ b ∈ terminated e, P b) ↔ ∀ b ∈ e, P b := by
  unfold terminated
  split
  · rfl
  · rw [List.forall_mem_append, List.forall_mem_singleton]
    exact and_iff_left hP

/-- The bytes of an expansion are the copied ones and newlines. -/
theorem Expands.forall_mem_iff {src e : List UInt8} (h : Expands resolver src e) (hP : P 0x0A) :
    (∀ b ∈ e, P b) ↔ AllCopied resolver P src := by
  induction h with
  | nil =>
    rw [allCopied_iff]
    simp [pieces, Includes]
  | @copy b rest out hno hrest ih =>
    rw [List.forall_mem_cons, ih, allCopied_iff, allCopied_iff]
    simp only [Includes, pieces_of_none hno, List.mem_cons, Piece.copied.injEq, reduceCtorEq,
      false_or, forall_eq_or_imp, and_assoc]
  | @expand s path after content inner out hdir hcontent hinner hrest ihinner ihrest =>
    rw [List.forall_mem_append, forall_mem_terminated hP, ihinner, ihrest, allCopied_iff after,
      allCopied_iff s]
    simp only [Includes, pieces_of_directive hdir, List.mem_cons, Piece.file.injEq, reduceCtorEq,
      false_or]
    constructor
    · rintro ⟨hinner, hafter, hbelow⟩
      refine ⟨hafter, fun p c hp hc => ?_⟩
      rcases hp with rfl | hp
      · cases hcontent.symm.trans hc
        exact hinner
      · exact hbelow p c hp hc
    · rintro ⟨hafter, hbelow⟩
      exact ⟨hbelow path content (.inl rfl) hcontent, hafter,
        fun p c hp => hbelow p c (.inr hp)⟩

/-- **When include expansion copies text exactly**: if every byte that is copied, from the
script and from the files it includes, is ASCII, and only then. -/
theorem preprocessIncludes_exact_iff {src out : List UInt8}
    (h : preprocessIncludes resolver src = .ok out) :
    Expands resolver src out ↔ ∀ paths t, IncludeChain resolver src paths t →
      ∀ b, .copied b ∈ pieces t → b < 0x80 := by
  obtain ⟨e, he, rfl⟩ := exists_expands h
  have hexact : Expands resolver src (e.flatMap pushByte) ↔ e.flatMap pushByte = e :=
    ⟨fun h' => h'.unique he, fun h' => h'.symm ▸ he⟩
  rw [hexact, flatMap_pushByte_eq_self_iff, he.forall_mem_iff (by decide)]
  rfl

theorem helperScript_expands : Expands oneHelper helperScript (bytes "x\n y") := by
  have hok : preprocessIncludes oneHelper helperScript = .ok (bytes "x\n y") := by decide +kernel
  have hscript : pieces helperScript = [.file (bytes "a"), .copied 0x20, .copied 0x79] := by
    decide +kernel
  have hhelper : pieces (bytes "x\n") = [.copied 0x78, .copied 0x0A] := by decide +kernel
  refine (preprocessIncludes_exact_iff hok).mpr ((allCopied_iff _).mpr ⟨?_, ?_⟩)
  · rw [hscript]
    simp
  · intro path content hpath hcontent
    obtain rfl : path = bytes "a" := by simpa [Includes, hscript] using hpath
    cases hcontent
    refine (allCopied_iff _).mpr ⟨?_, ?_⟩
    · rw [hhelper]
      simp
    · intro path content hpath
      simp [Includes, hhelper] at hpath

/-- A script of one letter with an accent comes back as two characters. -/
theorem accent_changed : ∃ out, preprocessIncludes (fun _ => none) (bytes "é") = .ok out ∧
    ¬ Expands (fun _ => none) (bytes "é") out := by
  have hok : preprocessIncludes (fun _ => none) (bytes "é") = .ok (bytes "Ã©") := by
    decide +kernel
  have hnone : directive? (bytes "é") = none ∧ directive? [0xA9] = none := by decide +kernel
  have hexact : Expands (fun _ => none) (bytes "é") (bytes "é") :=
    .copy (directive?_eq_none_iff.mp hnone.1) (.copy (directive?_eq_none_iff.mp hnone.2) .nil)
  refine ⟨_, hok, fun h => ?_⟩
  exact absurd (h.unique hexact) (by decide +kernel)

end Include

end LatencyOS
