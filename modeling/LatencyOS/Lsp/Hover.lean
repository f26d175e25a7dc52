import LatencyOS.Tools.Fmt

/-!
# Hover

A hover request names a line and a position in it.  The position is used as a number of bytes: two
scans from there find the ends of a word, and the word is sliced out of the line.
-/

namespace LatencyOS

open Format

namespace Lsp

/-! ## `extract_word_at` -/

/-- The bytes of words. -/
def isWordChar (b : UInt8) : Bool :=
  Lexer.isAlpha b || Lexer.isDigit b || b == 0x5F || b == 0x40 || b == 0x24 || b == 0x23

/-- The scan back from a position. -/
def wordStart (bytes : List UInt8) : ℕ → ℕ
  | 0 => 0
  | start + 1 => if isWordChar (bytes.getD start 0) then wordStart bytes start else start + 1

/-- The scan on from a position. -/
def wordEnd (bytes : List UInt8) (character : ℕ) : ℕ :=
  character + ((bytes.drop character).takeWhile isWordChar).length

/-- `extract_word_at` -/
def extractWordAt (line : Str) (character : ℕ) : Except Abort Str :=
  if byteLen line ≤ character then .ok []
  else
    match strSlice line (wordStart (utf8 line) character) (wordEnd (utf8 line) character) with
    | some word => .ok word
    | none => .error .panic

/-! ## `compute_hover` -/

/-- What is known about the intrinsics. -/
def hovers : List (String × String) :=
  [("@tsc", "### `@tsc() -> i64`\n\nReads hardware Timestamp Counter (TSC) cycle count.\n\n" ++
      "- **WCET**: 25 ns\n- **Category**: Hardware Time Intrinsic\n" ++
      "- **Requires**: `@import \"sys\";`"),
    ("@uptime_ns", "### `@uptime_ns() -> i64`\n\nReturns nanoseconds elapsed since OS boot.\n\n" ++
      "- **WCET**: 35 ns\n- **Category**: System Time Intrinsic\n" ++
      "- **Requires**: `@import \"sys\";`"),
    ("@core_id", "### `@core_id() -> i64`\n\nReturns active CPU core index (0..3).\n\n" ++
      "- **WCET**: 15 ns\n- **Category**: Multicore Intrinsic\n" ++
      "- **Requires**: `@import \"sys\";`"),
    ("@contract", "### `@contract: @wcet(<bound>) @budget(<bound>);`\n\n" ++
      "Declares static worst-case execution time (WCET) constraint and dynamic runtime budget."),
    ("@requires", "### `@requires(<expr>)`\n\n" ++
      "Design-by-Contract precondition check. Verified on function entry."),
    ("@ensures", "### `@ensures(<expr>)`\n\nDesign-by-Contract postcondition check. " ++
      "Evaluates `$result` against assertion before return."),
    ("@test", "### `@test \"name\" @budget(<time>) \x7b ... \x7d`\n\n" ++
      "Native unit test declaration with real-time budget guard."),
    ("@println", "### `@println($val: any) -> void`\n\n" ++
      "Outputs string, variable, or literal to serial/screen.\n\n- **WCET**: 5,000 ns"),
    ("@print", "### `@print($val: any) -> void`\n\n" ++
      "Outputs string or variable without newline.\n\n- **WCET**: 5,000 ns"),
    ("@assert", "### `@assert(<condition>)`\n\n" ++
      "Trap CPU if condition is false (`ERR_PX64_ASSERTION_FAILED`).\n\n- **WCET**: 10 ns"),
    ("@send", "### `@send(#handle) -> void`\n\n" ++
      "Linear type consumption. Sends network/hardware packet.\n\n" ++
      "- **Linearity**: Consumes `#handle` exactly once."),
    ("@capture", "### `@capture() -> #handle`\n\n" ++
      "Zero-copy hardware frame capture. Returns linear handle.\n\n" ++
      "- **Linearity**: Must be consumed via `@send` or drop.")]

/-- What is shown for a word. -/
def hoverInfo (word : Str) : Option Str :=
  match hovers.find? fun e => text e.1 == word with
  | some e => some (text e.2)
  | none =>
    if word.head? = some '$' then
      some (text "### Variable `" ++ word ++
        text "`\n\nPulseLang 64-bit integer / fixed-point register.")
    else if word.head? = some '#' then
      some (text "### Linear Hardware Handle `" ++ word ++
        text "`\n\nMust be consumed exactly once without leaks or double-sends.")
    else none

/-- `compute_hover`, with the documents the server holds. -/
def computeHover (documents : Str → Option Str) (uri : Str) (line character : ℕ) :
    Except Abort (Option Str) :=
  match documents uri with
  | none => .ok none
  | some content =>
    match (Fmt.lines content)[line]? with
    | none => .ok none
    | some curLine =>
      if byteLen curLine ≤ character then .ok none
      else (extractWordAt curLine character).map hoverInfo

/-! ## Positions between characters -/

/-- `is_char_boundary` -/
def IsCharBoundary (s : Str) (n : ℕ) : Prop := ∃ u v, s = u ++ v ∧ byteLen u = n

/-- The word is the longest stretch of word characters that touches the position. -/
def IsWordAt (line : Str) (character : ℕ) (word : Str) : Prop :=
  ∃ pre post, line = pre ++ word ++ post ∧
    byteLen pre ≤ character ∧ character ≤ byteLen (pre ++ word) ∧
    (∀ c ∈ word, onAscii isWordChar c = true) ∧
    (∀ c ∈ pre.getLast?, onAscii isWordChar c = false) ∧
    (∀ c ∈ post.head?, onAscii isWordChar c = false)

theorem lt_of_isWordChar (b : UInt8) (h : isWordChar b = true) : b < 0x80 := by
  have hall : ∀ n : Fin 256, isWordChar (UInt8.ofNat n) = true → UInt8.ofNat n < 0x80 := by
    decide +kernel
  have hb := hall ⟨b.toNat, b.toNat_lt⟩
  rw [UInt8.ofNat_toNat] at hb
  exact hb h

theorem utf8_takeWhile (s : Str) :
    (utf8 s).takeWhile isWordChar = utf8 (s.takeWhile (onAscii isWordChar)) := by
  have hsplit : (utf8 s).takeWhile isWordChar ++ (utf8 s).dropWhile isWordChar =
      utf8 (s.takeWhile (onAscii isWordChar)) ++ utf8 (s.dropWhile (onAscii isWordChar)) := by
    rw [List.takeWhile_append_dropWhile, ← utf8_append, List.takeWhile_append_dropWhile]
  rw [utf8_dropWhile lt_of_isWordChar] at hsplit
  exact List.append_cancel_right hsplit

/-- No byte of a character outside ASCII is a word byte. -/
theorem isWordChar_of_mem {c : Char} (hc : 128 ≤ c.toNat) {b : UInt8}
    (hb : b ∈ String.utf8EncodeChar c) : isWordChar b = false := by
  rw [Bool.eq_false_iff]
  intro h
  have hlow := UInt8.lt_iff_toNat_lt.mp (lt_of_isWordChar b h)
  have hval : (0x80 : UInt8).toNat = 128 := rfl
  rcases utf8EncodeChar_cases c with ⟨hc', -⟩ | ⟨-, first, cont, hbytes, hfirst, -, hcont⟩
  · omega
  · rw [hbytes, List.mem_cons] at hb
    rcases hb with rfl | hb
    · have hge := UInt8.le_iff_toNat_le.mp hfirst
      have hval' : (0xC0 : UInt8).toNat = 192 := rfl
      omega
    · have hin := hcont b hb
      rw [isContinuation, Bool.and_eq_true, decide_eq_true_iff] at hin
      have hge := UInt8.le_iff_toNat_le.mp hin.1
      omega

/-- The byte in front of a position behind a character is its last. -/
theorem getD_append_byte (u : Str) (c : Char) (r : List UInt8) {k : ℕ} (hk : k < c.utf8Size) :
    (utf8 u ++ (String.utf8EncodeChar c ++ r)).getD (byteLen u + k) 0 ∈
      String.utf8EncodeChar c := by
  have hlen : k < (String.utf8EncodeChar c).length := by rwa [String.length_utf8EncodeChar]
  have hindex : (utf8 u ++ (String.utf8EncodeChar c ++ r))[byteLen u + k]? =
      some (String.utf8EncodeChar c)[k] := by
    rw [byteLen, List.getElem?_append_right (Nat.le_add_right _ _), Nat.add_sub_cancel_left,
      List.getElem?_append_left hlen, List.getElem?_eq_getElem hlen]
  rw [List.getD_eq_getElem?_getD, hindex]
  exact List.getElem_mem hlen

/-- Between characters, the scan back passes whole word characters. -/
theorem wordStart_boundary (u : Str) (r : List UInt8) :
    wordStart (utf8 u ++ r) (byteLen u) = byteLen (u.rdropWhile (onAscii isWordChar)) := by
  induction u using List.reverseRecOn generalizing r with
  | nil => rfl
  | append_singleton u c ih =>
    have hbytes : utf8 (u ++ [c]) ++ r = utf8 u ++ (String.utf8EncodeChar c ++ r) := by
      rw [utf8_append, List.append_assoc]
      simp
    have hsize : byteLen (u ++ [c]) = byteLen u + c.utf8Size := by
      rw [byteLen_append, byteLen_cons, byteLen_nil, Nat.add_zero]
    have hpos := c.utf8Size_pos
    rw [hbytes, List.rdropWhile_concat]
    by_cases hword : onAscii isWordChar c = true
    · -- a word character is one byte
      rw [if_pos hword]
      rw [onAscii, Bool.and_eq_true, decide_eq_true_iff] at hword
      rcases utf8EncodeChar_cases c with ⟨-, hone⟩ | ⟨hc, -⟩
      · have hlen : c.utf8Size = 1 := by
          rw [← String.length_utf8EncodeChar, hone]
          rfl
        have hlast : (utf8 u ++ (String.utf8EncodeChar c ++ r)).getD (byteLen u) 0 =
            UInt8.ofNat c.toNat := by
          have hmem := getD_append_byte u c r (k := 0) hpos
          rw [Nat.add_zero, hone, List.mem_singleton] at hmem
          rw [hone]
          exact hmem
        rw [hsize, hlen, wordStart, hlast, if_pos hword.2, ih]
      · omega
    · rw [if_neg hword]
      obtain ⟨k, hk⟩ : ∃ k, c.utf8Size = k + 1 := ⟨c.utf8Size - 1, by omega⟩
      have hmem := getD_append_byte u c r (k := k) (by omega)
      have hlast : isWordChar ((utf8 u ++ (String.utf8EncodeChar c ++ r)).getD (byteLen u + k) 0) =
          false := by
        rcases utf8EncodeChar_cases c with ⟨hc, hone⟩ | ⟨hc, -⟩
        · rw [hone, List.mem_singleton] at hmem
          rw [onAscii_of_lt _ hc] at hword
          rw [hone, hmem]
          exact Bool.eq_false_iff.mpr hword
        · exact isWordChar_of_mem hc hmem
      rw [hsize, hk, ← Nat.add_assoc, wordStart, hlast]
      rfl

/-- A position in a string is in front of a character or inside one. -/
theorem exists_char_at {s : Str} {n : ℕ} (h : n < byteLen s) :
    ∃ u c v, s = u ++ c :: v ∧ byteLen u ≤ n ∧ n < byteLen u + c.utf8Size := by
  induction s generalizing n with
  | nil => simp at h
  | cons c s ih =>
    rw [byteLen_cons] at h
    by_cases hn : n < c.utf8Size
    · exact ⟨[], c, s, rfl, Nat.zero_le n, by simpa using hn⟩
    · obtain ⟨u, d, v, rfl, hle, hlt⟩ := ih (n := n - c.utf8Size) (by omega)
      refine ⟨c :: u, d, v, rfl, ?_, ?_⟩
      · rw [byteLen_cons]
        omega
      · rw [byteLen_cons]
        omega

/-- Inside a character, the scan back does not move. -/
theorem wordStart_inside {s : Str} {n : ℕ} (h : n < byteLen s) (hinside : ¬ IsCharBoundary s n) :
    wordStart (utf8 s) n = n := by
  obtain ⟨u, c, v, rfl, hle, hlt⟩ := exists_char_at h
  have hne : byteLen u ≠ n := fun heq => hinside ⟨u, c :: v, rfl, heq⟩
  obtain ⟨k, rfl⟩ : ∃ k, n = byteLen u + k + 1 := ⟨n - byteLen u - 1, by omega⟩
  have hc : 128 ≤ c.toNat := by
    rcases utf8EncodeChar_cases c with ⟨-, hone⟩ | ⟨hc, -⟩
    · have hlen : c.utf8Size = 1 := by
        rw [← String.length_utf8EncodeChar, hone]
        rfl
      omega
    · exact hc
  have hmem := getD_append_byte u c (utf8 v) (k := k) (by omega)
  have hbytes : utf8 (u ++ c :: v) = utf8 u ++ (String.utf8EncodeChar c ++ utf8 v) := by
    rw [utf8_append, utf8_cons]
  rw [hbytes, wordStart, isWordChar_of_mem hc hmem]
  rfl

/-! ## What a hover shows -/

/-- Between characters, the word at the position is returned. -/
theorem extractWordAt_boundary {line : Str} {character : ℕ} (h : character < byteLen line)
    (hboundary : IsCharBoundary line character) :
    ∃ word, extractWordAt line character = .ok word ∧ IsWordAt line character word := by
  obtain ⟨u, v, rfl, rfl⟩ := hboundary
  let p := onAscii isWordChar
  have hu : u.rdropWhile p ++ u.rtakeWhile p = u := List.rdropWhile_append_rtakeWhile
  have hv : v.takeWhile p ++ v.dropWhile p = v := List.takeWhile_append_dropWhile
  have hstart : wordStart (utf8 (u ++ v)) (byteLen u) = byteLen (u.rdropWhile p) := by
    rw [utf8_append, wordStart_boundary]
  have hdrop : (utf8 (u ++ v)).drop (byteLen u) = utf8 v := by
    rw [utf8_append, byteLen, List.drop_left]
  have hend : wordEnd (utf8 (u ++ v)) (byteLen u) =
      byteLen (u.rdropWhile p ++ (u.rtakeWhile p ++ v.takeWhile p)) := by
    rw [← List.append_assoc, hu, byteLen_append, wordEnd, hdrop, utf8_takeWhile]
    rfl
  have hline : u ++ v = u.rdropWhile p ++ (u.rtakeWhile p ++ v.takeWhile p) ++ v.dropWhile p := by
    rw [List.append_assoc, List.append_assoc, hv, ← List.append_assoc, hu]
  have hslice : strSlice (u ++ v) (wordStart (utf8 (u ++ v)) (byteLen u))
      (wordEnd (utf8 (u ++ v)) (byteLen u)) = some (u.rtakeWhile p ++ v.takeWhile p) :=
    strSlice_eq_some_iff.mpr ⟨_, _, hline, hstart.symm, hend.symm⟩
  refine ⟨u.rtakeWhile p ++ v.takeWhile p, ?_, ?_⟩
  · rw [extractWordAt, if_neg (Nat.not_le.mpr h), hslice]
  · refine ⟨_, _, hline, ?_, ?_, ?_, ?_, ?_⟩
    · have hle := congrArg byteLen hu
      rw [byteLen_append] at hle
      omega
    · rw [← List.append_assoc, hu, byteLen_append]
      omega
    · intro c hc
      rcases List.mem_append.mp hc with hc | hc
      · exact List.mem_rtakeWhile_imp hc
      · exact List.mem_takeWhile_imp hc
    · intro c hc
      have hne : u.rdropWhile p ≠ [] := by
        intro hnil
        rw [hnil] at hc
        cases hc
      rw [List.getLast?_eq_getLast_of_ne_nil hne, Option.mem_some] at hc
      subst hc
      exact Bool.eq_false_iff.mpr (List.rdropWhile_last_not p u hne)
    · intro c hc
      have hne : v.dropWhile p ≠ [] := by
        intro hnil
        rw [hnil] at hc
        cases hc
      rw [List.head?_eq_some_head hne, Option.mem_some] at hc
      subst hc
      exact List.head_dropWhile_not p hne

/-- Inside a character there is nothing to slice. -/
theorem extractWordAt_inside {line : Str} {character : ℕ} (h : character < byteLen line)
    (hinside : ¬ IsCharBoundary line character) : extractWordAt line character = .error .panic := by
  have hslice : strSlice line (wordStart (utf8 line) character)
      (wordEnd (utf8 line) character) = none := by
    rw [wordStart_inside h hinside, Option.eq_none_iff_forall_ne_some]
    intro word hword
    obtain ⟨u, v, hline, hlen, -⟩ := strSlice_eq_some_iff.mp hword
    exact hinside ⟨u, word ++ v, by rw [hline, List.append_assoc], hlen⟩
  rw [extractWordAt, if_neg (Nat.not_le.mpr h), hslice]

/-- The hover returns, and where it looks at a word, that is the word at the position. -/
def HoversSafely (documents : Str → Option Str) (uri : Str) (line character : ℕ) : Prop :=
  (∃ info, computeHover documents uri line character = .ok info) ∧
    ∀ content curLine, documents uri = some content → (Fmt.lines content)[line]? = some curLine →
      character < byteLen curLine →
        ∃ word, extractWordAt curLine character = .ok word ∧ IsWordAt curLine character word

/-- **A hover is safe** if and only if its position, when it is in the line, is not inside a
character. -/
theorem hoversSafely_iff (documents : Str → Option Str) (uri : Str) (line character : ℕ) :
    HoversSafely documents uri line character ↔
      ∀ content curLine, documents uri = some content →
        (Fmt.lines content)[line]? = some curLine → character < byteLen curLine →
          IsCharBoundary curLine character := by
  constructor
  · intro h content curLine hdoc hline hlt
    by_contra hinside
    obtain ⟨word, hword, -⟩ := h.2 content curLine hdoc hline hlt
    rw [extractWordAt_inside hlt hinside] at hword
    cases hword
  · intro h
    refine ⟨?_, fun content curLine hdoc hline hlt =>
      extractWordAt_boundary hlt (h content curLine hdoc hline hlt)⟩
    unfold computeHover
    cases hdoc : documents uri with
    | none => exact ⟨none, rfl⟩
    | some content =>
      dsimp only
      cases hline : (Fmt.lines content)[line]? with
      | none => exact ⟨none, rfl⟩
      | some curLine =>
        dsimp only
        by_cases hlt : byteLen curLine ≤ character
        · exact ⟨none, if_pos hlt⟩
        · have hpos := Nat.not_le.mp hlt
          obtain ⟨word, hword, -⟩ :=
            extractWordAt_boundary hpos (h content curLine hdoc hline hpos)
          exact ⟨hoverInfo word, by rw [if_neg hlt, hword]; rfl⟩

/-- A document of one letter of two bytes, and the position inside it. -/
theorem insideLetter_panics :
    ¬ ∀ (documents : Str → Option Str) (uri : Str) (line character : ℕ),
      HoversSafely documents uri line character := by
  intro h
  obtain ⟨word, hword, -⟩ := (h (fun _ => some ['é']) [] 0 1).2 ['é'] ['é'] rfl (by decide +kernel)
    (by decide +kernel)
  have hinside : ¬ IsCharBoundary ['é'] 1 := by
    rintro ⟨u, v, huv, hlen⟩
    cases u with
    | nil => cases hlen
    | cons c u =>
      obtain ⟨rfl, -⟩ := List.cons.inj huv
      rw [byteLen_cons] at hlen
      have hsize : ('é' : Char).utf8Size = 2 := by decide +kernel
      omega
  rw [extractWordAt_inside (by decide +kernel) hinside] at hword
  cases hword

end Lsp

end LatencyOS
