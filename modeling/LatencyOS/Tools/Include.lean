import LatencyOS.Token
import Mathlib

/-!
# The include preprocessor

`preprocess_includes` walks the bytes of a script, replaces every `@include "path";` by the
expansion of the file a resolver returns, and copies all other bytes.  The files on the way
to the current one are on a stack: a path that is already there, a path the resolver does not
know and more than eight levels are errors.

A resolver is a function from paths to texts; paths and texts are UTF-8 bytes.
-/

namespace LatencyOS

namespace Include

/-! ## Directives -/

/-- A blank between the parts of a directive. -/
def isBlank (b : UInt8) : Bool := b == 0x20 || b == 0x09

/-- A byte of a path: not a quote, a newline or a carriage return. -/
def isPathByte (b : UInt8) : Bool := b != 0x22 && b != 0x0A && b != 0x0D

/-- The keyword of a directive. -/
def keyword : List UInt8 := bytes "@include"

/-- Skip an optional `;`. -/
def skipSemicolon : List UInt8 → List UInt8
  | 0x3B :: rest => rest
  | s => s

/-- A path up to its closing quote, and what follows the directive. -/
def quotedPath? (s : List UInt8) : Option (List UInt8 × List UInt8) :=
  match s.dropWhile isPathByte with
  | 0x22 :: rest => some (s.takeWhile isPathByte, skipSemicolon (rest.dropWhile isBlank))
  | _ => none

/-- The directive at the start of a text: its path, and the text behind it. -/
def directive? (s : List UInt8) : Option (List UInt8 × List UInt8) :=
  if keyword <+: s then
    match (s.drop 8).dropWhile isBlank with
    | 0x22 :: rest => quotedPath? rest
    | _ => none
  else none

theorem length_skipSemicolon_le (s : List UInt8) : (skipSemicolon s).length ≤ s.length := by
  unfold skipSemicolon
  split
  · exact Nat.le_succ _
  · exact Nat.le_refl _

theorem length_quotedPath {s path after : List UInt8} (h : quotedPath? s = some (path, after)) :
    after.length ≤ s.length := by
  unfold quotedPath? at h
  split at h
  · next rest heq =>
    cases h
    have h₁ := length_skipSemicolon_le (rest.dropWhile isBlank)
    have h₂ := (List.dropWhile_suffix isBlank (l := rest)).length_le
    have h₃ := (List.dropWhile_suffix isPathByte (l := s)).length_le
    rw [heq, List.length_cons] at h₃
    omega
  · cases h

/-- A directive is not empty. -/
theorem length_directive {s path after : List UInt8} (h : directive? s = some (path, after)) :
    after.length < s.length := by
  unfold directive? at h
  split at h
  · split at h
    · next rest heq =>
      have h₁ := length_quotedPath h
      have h₂ := (List.dropWhile_suffix isBlank (l := s.drop 8)).length_le
      rw [heq, List.length_cons, List.length_drop] at h₂
      omega
    · cases h
  · cases h

/-! ## The preprocessor -/

/-- `result.push(b as char)`: the character with the code of the byte, in UTF-8. -/
def pushByte (b : UInt8) : List UInt8 :=
  if b < 0x80 then [b] else [(0xC0 : UInt8) ||| b >>> 6, (0x80 : UInt8) ||| b &&& 0x3F]

/-- The expansion of a file, with a newline at its end. -/
def terminated (expandedChild : List UInt8) : List UInt8 :=
  if expandedChild.getLast? = some 0x0A then expandedChild else expandedChild ++ [0x0A]

def errMaxIncludeDepth : CompileError :=
  .simple "ERR_MAX_INCLUDE_DEPTH" "Maximum @include depth exceeded (max 8 levels limit reached)"

def errCircularInclude : CompileError :=
  .simple "ERR_CIRCULAR_INCLUDE" "Circular @include dependency detected in script"

def errIncludeNotFound : CompileError :=
  .simple "ERR_INCLUDE_NOT_FOUND" "Included file could not be found or loaded by resolver"

/-- The loop over the bytes of a text, where `child` expands an included path. -/
def scan (child : List UInt8 → Except CompileError (List UInt8)) (s : List UInt8) :
    Except CompileError (List UInt8) :=
  match s with
  | [] => .ok []
  | b :: rest =>
    match _h : directive? (b :: rest) with
    | some (path, after) => do
      let expandedChild ← child path
      let tail ← scan child after
      .ok (terminated expandedChild ++ tail)
    | none => do
      let tail ← scan child rest
      .ok (pushByte b ++ tail)
termination_by s.length
decreasing_by
  · exact length_directive _h
  · exact Nat.lt_succ_self _

/-- `MAX_INCLUDE_DEPTH` -/
def maxIncludeDepth : ℕ := 8

/-- `preprocess_recursive`, with the number of levels that may still be entered. -/
def preprocessRecursive (resolver : List UInt8 → Option (List UInt8)) :
    ℕ → List UInt8 → List UInt8 → List (List UInt8) → Except CompileError (List UInt8)
  | 0, _, _, _ => .error errMaxIncludeDepth
  | levels + 1, src, currentFile, callStack =>
    scan (fun incPath =>
      if incPath ∈ callStack ++ [currentFile] then .error errCircularInclude
      else
        match resolver incPath with
        | none => .error errIncludeNotFound
        | some incContent =>
          preprocessRecursive resolver levels incContent incPath (callStack ++ [currentFile])) src

/-- A level that may be entered scans its text. -/
theorem preprocessRecursive_succ (resolver : List UInt8 → Option (List UInt8)) (levels : ℕ)
    (src currentFile : List UInt8) (callStack : List (List UInt8)) :
    preprocessRecursive resolver (levels + 1) src currentFile callStack =
      scan (fun incPath =>
        if incPath ∈ callStack ++ [currentFile] then .error errCircularInclude
        else
          match resolver incPath with
          | none => .error errIncludeNotFound
          | some incContent =>
            preprocessRecursive resolver levels incContent incPath
              (callStack ++ [currentFile])) src := rfl

/-- The name of the script itself. -/
def rootName : List UInt8 := bytes "<root>"

/-- `preprocess_includes` -/
def preprocessIncludes (resolver : List UInt8 → Option (List UInt8)) (rootSrc : List UInt8) :
    Except CompileError (List UInt8) :=
  preprocessRecursive resolver (maxIncludeDepth + 1) rootSrc rootName []

/-! ## The pieces of a text -/

/-- A text is made of bytes that are copied and of directives. -/
inductive Piece
  | copied (b : UInt8)
  | file (path : List UInt8)
  deriving DecidableEq

/-- The pieces of a text. -/
def pieces (s : List UInt8) : List Piece :=
  match s with
  | [] => []
  | b :: rest =>
    match _h : directive? (b :: rest) with
    | some (path, after) => .file path :: pieces after
    | none => .copied b :: pieces rest
termination_by s.length
decreasing_by
  · exact length_directive _h
  · exact Nat.lt_succ_self _

/-- What the loop does with the pieces. -/
def expandPieces (child : List UInt8 → Except CompileError (List UInt8)) :
    List Piece → Except CompileError (List UInt8)
  | [] => .ok []
  | .copied b :: rest => do
    let tail ← expandPieces child rest
    .ok (pushByte b ++ tail)
  | .file path :: rest => do
    let expandedChild ← child path
    let tail ← expandPieces child rest
    .ok (terminated expandedChild ++ tail)

/-- The loop goes through the pieces. -/
theorem scan_eq (child : List UInt8 → Except CompileError (List UInt8)) (s : List UInt8) :
    scan child s = expandPieces child (pieces s) := by
  fun_induction pieces s with
  | case1 => rw [scan, expandPieces]
  | case2 b rest path after h ih =>
    rw [scan, expandPieces, ← ih]
    split
    · next path' after' h' =>
      cases h.symm.trans h'
      rfl
    · next h' => cases h.symm.trans h'
  | case3 b rest h ih =>
    rw [scan, expandPieces, ← ih]
    split
    · next path' after' h' => cases h.symm.trans h'
    · rfl

/-- The paths a text includes. -/
def Includes (src path : List UInt8) : Prop := .file path ∈ pieces src

/-! ## What the preprocessor accepts -/

/-- The includes `path` of a text lead, one file after the other, to a file with text `t`. -/
inductive IncludeChain (resolver : List UInt8 → Option (List UInt8)) :
    List UInt8 → List (List UInt8) → List UInt8 → Prop
  | here (src : List UInt8) : IncludeChain resolver src [] src
  | cons {src path content t : List UInt8} {paths : List (List UInt8)} (hpath : Includes src path)
      (hcontent : resolver path = some content) (hrest : IncludeChain resolver content paths t) :
      IncludeChain resolver src (path :: paths) t

/-- Every included file resolves, no chain of includes names a path twice, and none is longer
than the limit. -/
structure WellIncluded (resolver : List UInt8 → Option (List UInt8)) (src : List UInt8) : Prop where
  resolves : ∀ paths t, IncludeChain resolver src paths t → ∀ path, Includes t path →
    resolver path ≠ none
  distinct : ∀ paths t, IncludeChain resolver src paths t → paths.Nodup
  short : ∀ paths t, IncludeChain resolver src paths t → paths.length ≤ maxIncludeDepth

variable {resolver : List UInt8 → Option (List UInt8)}

/-- Every path of a chain resolves. -/
theorem IncludeChain.resolves {src t : List UInt8} {paths : List (List UInt8)}
    (h : IncludeChain resolver src paths t) : ∀ path ∈ paths, resolver path ≠ none := by
  induction h with
  | here src => exact fun path hmem => absurd hmem List.not_mem_nil
  | cons hpath hcontent hrest ih =>
    intro p hmem
    rcases List.mem_cons.mp hmem with rfl | hmem
    · rw [hcontent]
      exact Option.some_ne_none _
    · exact ih p hmem

/-- The pieces expand exactly when every included path does. -/
theorem expandPieces_isOk_iff (child : List UInt8 → Except CompileError (List UInt8))
    (ps : List Piece) :
    (∃ out, expandPieces child ps = .ok out) ↔
      ∀ path, .file path ∈ ps → ∃ out, child path = .ok out := by
  induction ps with
  | nil => simp [expandPieces]
  | cons p ps ih =>
    cases p with
    | copied b =>
      have hhead : ∀ path, Piece.file path ∈ Piece.copied b :: ps ↔ Piece.file path ∈ ps := by
        simp
      simp only [hhead, ← ih]
      constructor
      · rintro ⟨out, hout⟩
        cases hrest : expandPieces child ps with
        | error e =>
          simp only [expandPieces, hrest] at hout
          cases hout
        | ok tail => exact ⟨tail, rfl⟩
      · rintro ⟨tail, htail⟩
        exact ⟨_, by simp only [expandPieces, htail]; rfl⟩
    | file path =>
      have hhead : ∀ q, Piece.file q ∈ Piece.file path :: ps ↔ q = path ∨ Piece.file q ∈ ps := by
        simp
      simp only [hhead, forall_eq_or_imp, ← ih]
      constructor
      · rintro ⟨out, hout⟩
        cases hchild : child path with
        | error e =>
          simp only [expandPieces, hchild] at hout
          cases hout
        | ok c =>
          cases hrest : expandPieces child ps with
          | error e =>
            simp only [expandPieces, hchild, hrest] at hout
            cases hout
          | ok tail => exact ⟨⟨c, rfl⟩, tail, rfl⟩
      · rintro ⟨⟨c, hc⟩, tail, htail⟩
        exact ⟨_, by simp only [expandPieces, hc, htail]; rfl⟩

/-- An error of the loop is an error of an included path. -/
theorem expandPieces_error {child : List UInt8 → Except CompileError (List UInt8)} {ps : List Piece}
    {e : CompileError} (h : expandPieces child ps = .error e) :
    ∃ path, child path = .error e := by
  induction ps with
  | nil => cases h
  | cons p ps ih =>
    cases p with
    | copied b =>
      cases hrest : expandPieces child ps with
      | error e' =>
        simp only [expandPieces, hrest] at h
        cases h
        exact ih hrest
      | ok tail =>
        simp only [expandPieces, hrest] at h
        cases h
    | file path =>
      cases hchild : child path with
      | error e' =>
        simp only [expandPieces, hchild] at h
        cases h
        exact ⟨path, hchild⟩
      | ok c =>
        cases hrest : expandPieces child ps with
        | error e' =>
          simp only [expandPieces, hchild, hrest] at h
          cases h
          exact ih hrest
        | ok tail =>
          simp only [expandPieces, hchild, hrest] at h
          cases h

/-- The preprocessor fails with one of its three errors. -/
theorem preprocessRecursive_error {levels : ℕ} {src file : List UInt8}
    {callStack : List (List UInt8)} {e : CompileError}
    (h : preprocessRecursive resolver levels src file callStack = .error e) :
    e = errMaxIncludeDepth ∨ e = errCircularInclude ∨ e = errIncludeNotFound := by
  induction levels generalizing src file callStack with
  | zero =>
    cases h
    exact .inl rfl
  | succ levels ih =>
    rw [preprocessRecursive_succ, scan_eq] at h
    obtain ⟨path, hpath⟩ := expandPieces_error h
    split at hpath
    · cases hpath
      exact .inr (.inl rfl)
    · split at hpath
      · cases hpath
        exact .inr (.inr rfl)
      · exact ih hpath

/-- What a file needs to expand below a stack of files: every chain from it resolves, stays clear
of the stack and of itself, and ends within the levels left. -/
theorem preprocessRecursive_isOk_iff {levels : ℕ} {src file : List UInt8}
    {callStack : List (List UInt8)} (hstack : (callStack ++ [file]).Nodup) :
    (∃ out, preprocessRecursive resolver levels src file callStack = .ok out) ↔
      ∀ paths t, IncludeChain resolver src paths t →
        (∀ path, Includes t path → resolver path ≠ none) ∧
        (callStack ++ [file] ++ paths).Nodup ∧ paths.length < levels := by
  induction levels generalizing src file callStack with
  | zero =>
    refine iff_of_false (fun ⟨out, hout⟩ => ?_) fun h => ?_
    · cases hout
    · exact absurd (h [] src (.here src)).2.2 (Nat.lt_irrefl 0)
  | succ levels ih =>
    rw [preprocessRecursive_succ, scan_eq, expandPieces_isOk_iff]
    constructor
    · intro hchild paths t hchain
      cases hchain with
      | here =>
        refine ⟨fun path hpath hnone => ?_, by rwa [List.append_nil], Nat.succ_pos levels⟩
        obtain ⟨out, hout⟩ := hchild path hpath
        rw [hnone] at hout
        split at hout <;> cases hout
      | @cons _ path content _ paths hpath hcontent hrest =>
        obtain ⟨out, hout⟩ := hchild path hpath
        split at hout
        · cases hout
        · next hnew =>
          rw [hcontent] at hout
          have hstack' : (callStack ++ [file] ++ [path]).Nodup :=
            List.nodup_append_comm.mp (List.nodup_cons.mpr ⟨hnew, hstack⟩)
          obtain ⟨hres, hnodup, hlen⟩ := (ih hstack').mp ⟨out, hout⟩ paths t hrest
          refine ⟨hres, ?_, Nat.succ_lt_succ hlen⟩
          rwa [List.append_assoc (callStack ++ [file]), List.singleton_append] at hnodup
    · intro hchain path hpath
      have hres := (hchain [] src (.here src)).1 path hpath
      obtain ⟨content, hcontent⟩ := Option.ne_none_iff_exists'.mp hres
      obtain ⟨-, hnodup, -⟩ := hchain [path] content (.cons hpath hcontent (.here content))
      have hnew : path ∉ callStack ++ [file] := fun hmem =>
        List.disjoint_of_nodup_append hnodup hmem (List.mem_singleton.mpr rfl)
      rw [if_neg hnew, hcontent]
      refine (ih hnodup).mpr fun paths t hrest => ?_
      obtain ⟨hres, hnodup, hlen⟩ := hchain (path :: paths) t (.cons hpath hcontent hrest)
      refine ⟨hres, ?_, Nat.lt_of_succ_lt_succ hlen⟩
      rwa [List.append_assoc (callStack ++ [file]), List.singleton_append]

/-- **What the preprocessor accepts**: exactly the scripts all of whose includes resolve, without
a repeated path or a chain longer than eight; else it returns one of its three errors. -/
theorem preprocessIncludes_isOk_iff (hroot : resolver rootName = none) (src : List UInt8) :
    ((∃ out, preprocessIncludes resolver src = .ok out) ↔ WellIncluded resolver src) ∧
      ∀ e, preprocessIncludes resolver src = .error e →
        e = errMaxIncludeDepth ∨ e = errCircularInclude ∨ e = errIncludeNotFound := by
  refine ⟨?_, fun e => preprocessRecursive_error⟩
  rw [preprocessIncludes, preprocessRecursive_isOk_iff (List.nodup_singleton _)]
  simp only [List.nil_append, List.singleton_append]
  constructor
  · intro h
    exact ⟨fun paths t hchain => (h paths t hchain).1,
      fun paths t hchain => (List.nodup_cons.mp (h paths t hchain).2.1).2,
      fun paths t hchain => Nat.le_of_lt_succ (h paths t hchain).2.2⟩
  · intro h paths t hchain
    have hclear : rootName ∉ paths := fun hmem => hchain.resolves _ hmem hroot
    exact ⟨h.resolves paths t hchain, List.nodup_cons.mpr ⟨hclear, h.distinct paths t hchain⟩,
      Nat.lt_succ_of_le (h.short paths t hchain)⟩

/-- One file that resolves, with one line of text. -/
def oneHelper (path : List UInt8) : Option (List UInt8) :=
  if path = bytes "a" then some (bytes "x\n") else none

/-- A script that includes it. -/
def helperScript : List UInt8 := bytes "@include \"a\"; y"

theorem helperScript_wellIncluded : WellIncluded oneHelper helperScript := by
  have hok : preprocessIncludes oneHelper helperScript = .ok (bytes "x\n y") := by decide +kernel
  exact (preprocessIncludes_isOk_iff (by decide) helperScript).1.mp ⟨_, hok⟩

end Include

end LatencyOS
