import LatencyOS.Compiler.Partition
import LatencyOS.Tools.Fmt

/-!
# Semantic tokens

The highlighting of a document is a list of numbers, five for each token the server has a type for:
how many lines and columns it is behind the one before, its length, its type and no modifiers.  The
numbers are of 32 bits.
-/

namespace LatencyOS

/-! ## Positions never go back -/

theorem lineScan_append (a b : List UInt8) (line lineStart i : ℕ) :
    lineScan (a ++ b) line lineStart i =
      lineScan b (lineScan a line lineStart i).1 (lineScan a line lineStart i).2
        (i + a.length) := by
  induction a generalizing line lineStart i with
  | nil => rfl
  | cons x a ih =>
    have hi : i + 1 + a.length = i + (x :: a).length := by
      rw [List.length_cons]
      omega
    rw [List.cons_append, lineScan, lineScan]
    split
    · rw [ih, hi]
    · rw [ih, hi]

/-- A scan counts lines up, and a line that does not change keeps its start. -/
theorem lineScan_mono (l : List UInt8) (line lineStart i : ℕ) :
    line < (lineScan l line lineStart i).1 ∨ lineScan l line lineStart i = (line, lineStart) := by
  induction l generalizing line lineStart i with
  | nil => exact .inr rfl
  | cons x l ih =>
    rw [lineScan]
    split
    · rcases ih (line + 1) (i + 1) (i + 1) with h | h
      · exact .inl (Nat.lt_of_succ_lt h)
      · rw [h]
        exact .inl (Nat.lt_succ_self line)
    · exact ih line lineStart (i + 1)

/-- A later byte is on a later line, or on the same line in a later column. -/
theorem getLineAndCol_mono {src : List UInt8} {p q : ℕ} (h : p ≤ q) (hq : q ≤ src.length) :
    (getLineAndCol src p).1 < (getLineAndCol src q).1 ∨
      (getLineAndCol src p).1 = (getLineAndCol src q).1 ∧
        (getLineAndCol src p).2 ≤ (getLineAndCol src q).2 := by
  have hsplit : src.take q = src.take p ++ (src.take q).drop p := by
    have htake : (src.take q).take p = src.take p := by rw [List.take_take, Nat.min_eq_left h]
    rw [← htake, List.take_append_drop]
  have hscan := lineScan_append (src.take p) ((src.take q).drop p) 1 0 0
  rw [← hsplit] at hscan
  simp only [getLineAndCol, Nat.min_eq_left hq, Nat.min_eq_left (Nat.le_trans h hq), hscan]
  rcases lineScan_mono ((src.take q).drop p) (lineScan (src.take p) 1 0 0).1
    (lineScan (src.take p) 1 0 0).2 (0 + (src.take p).length) with hlt | heq
  · exact .inl hlt
  · rw [heq]
    exact .inr ⟨rfl, by omega⟩

theorem lineScan_pos (l : List UInt8) (line lineStart i : ℕ) :
    line ≤ (lineScan l line lineStart i).1 := by
  rcases lineScan_mono l line lineStart i with h | h
  · exact Nat.le_of_lt h
  · rw [h]

namespace Lexer

/-- Tokens in the order of their positions from one on; all but the end marker have bytes. -/
inductive Ascending (src : List UInt8) : ℕ → List Token → Prop
  | nil {p : ℕ} : Ascending src p []
  | cons {p : ℕ} {t : Token} {ts : List Token} (hle : p ≤ t.start) (hin : t.start ≤ src.length)
      (hpos : (t.line, t.col) = getLineAndCol src t.start) (hlen : t.kind = .eof ∨ 0 < t.len)
      (hrest : Ascending src t.start ts) : Ascending src p (t :: ts)

theorem startsToken_skipTrivia {l : List UInt8} (hne : skipTrivia l.length l ≠ []) :
    StartsToken (skipTrivia l.length l) := by
  rcases skipTrivia_cases (Nat.le_refl l.length) with
    ⟨-, -, -, hstart⟩ | ⟨-, -, -, -, -, hend | ⟨-, last, -, hlast, hstart⟩⟩
  · exact hstart
  · exact absurd hend hne
  · rwa [hlast]

theorem length_token_lt {checks : Bool} {l rest : List UInt8} {k : Option TokenKind}
    (hne : skipTrivia l.length l ≠ [])
    (h : token checks (skipTrivia l.length l) = .ok (k, rest)) :
    rest.length < (skipTrivia l.length l).length := by
  obtain ⟨span, hspan, -⟩ := tokenSpan_of_token h hne (startsToken_skipTrivia hne)
  have hlen := hspan.length_eq
  omega

theorem Ascending.mono {src : List UInt8} {p q : ℕ} {ts : List Token} (h : Ascending src q ts)
    (hpq : p ≤ q) : Ascending src p ts := by
  cases h with
  | nil => exact .nil
  | cons hle hin hpos hlen hrest => exact .cons (Nat.le_trans hpq hle) hin hpos hlen hrest

/-- The lexer's tokens ascend. -/
theorem Lexes.ascending {src rest : List UInt8} {checks : Bool} {ts : List Token}
    (h : Lexes src checks rest ts) (hrest : rest.length ≤ src.length) :
    Ascending src (src.length - rest.length) ts := by
  induction h with
  | done hend =>
    refine .cons ?_ ?_ rfl (.inl rfl) .nil
    · exact Nat.sub_le_sub_left (Nat.zero_le _) _
    · exact Nat.sub_le _ _
  | @skip rest rest' ts hne htoken _ ih =>
    have hlt := length_token_lt hne htoken
    have hle := length_skipTrivia_le rest.length rest
    exact (ih (by omega)).mono (by omega)
  | @take rest rest' ts kind hne htoken _ ih =>
    have hlt := length_token_lt hne htoken
    have hle := length_skipTrivia_le rest.length rest
    refine .cons ?_ (Nat.sub_le _ _) rfl (.inr ?_) ?_
    · exact Nat.sub_le_sub_left hle _
    · exact Nat.sub_pos_of_lt hlt
    · refine (ih (by omega)).mono ?_
      exact Nat.sub_le_sub_left (Nat.le_of_lt hlt) _

end Lexer

namespace Lsp

open Format

/-! ## `compute_semantic_tokens` -/

/-- The type of a token in the legend, if it has one. -/
def semanticType : TokenKind → Option ℕ
  | .let | .mut | .match | .if | .else | .while | .within | .for | .in | .fn | .struct | .const
  | .enum | .return | .drop => some 0
  | .varIdent => some 1
  | .hardwareIdent => some 2
  | .fixed | .i64 | .u8 | .u16 | .u32 | .u64 => some 3
  | .ident => some 4
  | .atContract | .atPipeline | .atBudget | .atWcet | .atWithin | .atWhile | .atFor | .atLoop
  | .atOnVblank | .atAssert | .atRequires | .atEnsures | .atInvariant | .atPoolSize | .atTest
  | .atImport | .intrinsicIdent => some 5
  | .number _ | .floatLit _ _ | .timeLiteral _ => some 6
  | .stringLit => some 7
  | .colonEq | .plusEq | .minusEq | .pipe | .eqEq | .notEq | .ltEq | .gtEq | .and | .or => some 8
  | _ => none

/-- `as u32` -/
def asU32 (n : ℕ) : ℕ := n % 2 ^ 32

/-- The numbers for the tokens behind one that starts at `prevLine` and `prevCol`. -/
def encodeTokens (prevLine prevCol : ℕ) : List Token → List ℕ
  | [] => []
  | tok :: toks =>
    if tok.kind = .eof ∨ tok.len = 0 then encodeTokens prevLine prevCol toks
    else
      match semanticType tok.kind with
      | none => encodeTokens prevLine prevCol toks
      | some tokType =>
        let curLine := asU32 (tok.line - 1)
        let curCol := asU32 (tok.col - 1)
        let deltaLine := curLine - prevLine
        let deltaCol := if deltaLine = 0 then curCol - prevCol else curCol
        deltaLine :: deltaCol :: asU32 tok.len :: tokType :: 0 :: encodeTokens curLine curCol toks

/-- The number of tokens the server lexes at most. -/
def semanticTokenRoom : ℕ := 4096

/-- The numbers for a document; none for one that does not tokenize. -/
def semanticData (checks : Bool) (content : Str) : Except Abort (List ℕ) :=
  match Lexer.tokenize (utf8 content) checks semanticTokenRoom with
  | .ok toks => .ok (encodeTokens 0 0 toks)
  | .error (.error _) => .ok []
  | .error a => .error a

/-- `compute_semantic_tokens`, with the documents the server holds. -/
def computeSemanticTokens (checks : Bool) (documents : Str → Option Str) (uri : Str) :
    Except Abort Str :=
  match documents uri with
  | none => .ok []
  | some content =>
    (semanticData checks content).map fun data => [','].intercalate (data.map decimalText)

/-! ## What an editor reads -/

/-- The line, column, length and type of a token, lines and columns from one on. -/
structure SemanticToken where
  line : ℕ
  col : ℕ
  len : ℕ
  tokenType : ℕ
  deriving DecidableEq

/-- The tokens an editor reads off the numbers, behind one that starts at `line` and `col`. -/
def decodeTokens (line col : ℕ) : List ℕ → Option (List SemanticToken)
  | [] => some []
  | deltaLine :: deltaCol :: len :: tokType :: _ :: data =>
    let line' := line + deltaLine
    let col' := if deltaLine = 0 then col + deltaCol else deltaCol
    (decodeTokens line' col' data).map fun toks => ⟨line' + 1, col' + 1, len, tokType⟩ :: toks
  | _ => none

/-- The tokens of the lexer that have a type. -/
def classified (toks : List Token) : List SemanticToken :=
  toks.filterMap fun tok =>
    (semanticType tok.kind).map fun tokType => ⟨tok.line, tok.col, tok.len, tokType⟩

/-- The numbers of a token fit 32 bits. -/
def SemanticToken.Fits (t : SemanticToken) : Prop :=
  t.line - 1 < 2 ^ 32 ∧ t.col - 1 < 2 ^ 32 ∧ t.len < 2 ^ 32

theorem asU32_lt (n : ℕ) : asU32 n < 2 ^ 32 := Nat.mod_lt n (by decide)

theorem asU32_of_lt {n : ℕ} (h : n < 2 ^ 32) : asU32 n = n := Nat.mod_eq_of_lt h

/-- A position behind another is read back if and only if it fits. -/
theorem delta_iff {line col : ℕ} (line' col' : ℕ) (hline : line < 2 ^ 32) (hcol : col < 2 ^ 32)
    (hbehind : line < line' ∨ line = line' ∧ col ≤ col') :
    let deltaLine := asU32 line' - line
    let deltaCol := if deltaLine = 0 then asU32 col' - col else asU32 col'
    line + deltaLine = line' ∧ (if deltaLine = 0 then col + deltaCol else deltaCol) = col' ↔
      line' < 2 ^ 32 ∧ col' < 2 ^ 32 := by
  have hlow := asU32_lt line'
  have hlow' := asU32_lt col'
  dsimp only
  constructor
  · rintro ⟨hl, hc⟩
    have hfits : line' < 2 ^ 32 := by omega
    refine ⟨hfits, ?_⟩
    split at hc <;> omega
  · rintro ⟨hl, hc⟩
    rw [asU32_of_lt hl, asU32_of_lt hc]
    refine ⟨by omega, ?_⟩
    by_cases hsame : line' - line = 0
    · rw [if_pos hsame, if_pos hsame]
      omega
    · rw [if_neg hsame, if_neg hsame]

/-- Decoding what was encoded behind a position gives the tokens back if and only if they fit. -/
theorem decode_encode_iff {src : List UInt8} {toks : List Token} {p : ℕ}
    (h : Lexer.Ascending src p toks)
    (hline : (getLineAndCol src p).1 - 1 < 2 ^ 32) (hcol : (getLineAndCol src p).2 - 1 < 2 ^ 32) :
    decodeTokens ((getLineAndCol src p).1 - 1) ((getLineAndCol src p).2 - 1)
        (encodeTokens ((getLineAndCol src p).1 - 1) ((getLineAndCol src p).2 - 1) toks) =
      some (classified toks) ↔ ∀ t ∈ classified toks, t.Fits := by
  induction toks generalizing p with
  | nil => simp [classified, encodeTokens, decodeTokens]
  | cons tok toks ih =>
    cases h with
    | cons hle hin hpos hlen hrest =>
      cases htype : semanticType tok.kind with
      | none =>
        have hcls : classified (tok :: toks) = classified toks := by
          simp [classified, htype]
        have henc : ∀ line col, encodeTokens line col (tok :: toks) =
            encodeTokens line col toks := by
          intro line col
          rw [encodeTokens, htype]
          split <;> rfl
        rw [hcls, henc]
        exact ih (hrest.mono hle) hline hcol
      | some tokType =>
        have hemitted : ¬ (tok.kind = .eof ∨ tok.len = 0) := by
          intro hskip
          rcases hlen with heof | hlen
          · rw [heof] at htype
            cases htype
          · rcases hskip with heof | hzero
            · rw [heof] at htype
              cases htype
            · omega
        have hcls : classified (tok :: toks) =
            ⟨tok.line, tok.col, tok.len, tokType⟩ :: classified toks := by
          simp [classified, htype]
        have hmono := getLineAndCol_mono hle hin
        have hone : 1 ≤ (getLineAndCol src p).1 := lineScan_pos _ _ _ _
        have hone' : 1 ≤ (getLineAndCol src p).2 := Nat.le_add_left _ _
        have hcolpos : 1 ≤ (getLineAndCol src tok.start).2 := Nat.le_add_left _ _
        rw [← hpos] at hmono hcolpos
        dsimp only at hmono hcolpos
        have hdelta := delta_iff (tok.line - 1) (tok.col - 1) hline hcol (by omega)
        dsimp only at hdelta
        rw [hcls, encodeTokens, if_neg hemitted, htype, List.forall_mem_cons]
        simp only [decodeTokens]
        by_cases hfits : tok.line - 1 < 2 ^ 32 ∧ tok.col - 1 < 2 ^ 32
        · obtain ⟨hsameLine, hsameCol⟩ := hdelta.mpr hfits
          have hnext := ih hrest (by rw [← hpos]; exact hfits.1) (by rw [← hpos]; exact hfits.2)
          rw [← hpos] at hnext
          rw [hsameLine, hsameCol, asU32_of_lt hfits.1, asU32_of_lt hfits.2, ← hnext,
            Option.map_eq_some_iff]
          constructor
          · rintro ⟨rest, hrest, heq⟩
            obtain ⟨hhead, rfl⟩ := List.cons.inj heq
            refine ⟨⟨hfits.1, hfits.2, ?_⟩, hrest⟩
            have hl : asU32 tok.len = tok.len := congrArg SemanticToken.len hhead
            rw [← hl]
            exact asU32_lt _
          · rintro ⟨hhead, hrest⟩
            refine ⟨_, hrest, ?_⟩
            have hl : tok.line - 1 + 1 = tok.line := by omega
            have hc : tok.col - 1 + 1 = tok.col := by omega
            rw [hl, hc, asU32_of_lt hhead.2.2]
        · refine iff_of_false ?_ fun hall => hfits ⟨hall.1.1, hall.1.2.1⟩
          intro hdecode
          obtain ⟨rest, -, heq⟩ := Option.map_eq_some_iff.mp hdecode
          have hhead := (List.cons.inj heq).1
          have hl := congrArg SemanticToken.line hhead
          have hc := congrArg SemanticToken.col hhead
          dsimp only at hl hc
          exact hfits (hdelta.mp ⟨by omega, by omega⟩)

/-- A document's highlighting gives back the tokens of the lexer. -/
def ReadsBack (checks : Bool) (content : Str) : Prop :=
  ∀ toks, Lexer.tokenize (utf8 content) checks semanticTokenRoom = .ok toks →
    ∃ data, semanticData checks content = .ok data ∧
      decodeTokens 0 0 data = some (classified toks)

theorem fits_iff_of_tokenize {checks : Bool} {content : Str} {toks : List Token}
    (h : Lexer.tokenize (utf8 content) checks semanticTokenRoom = .ok toks) :
    (∃ data, semanticData checks content = .ok data ∧
        decodeTokens 0 0 data = some (classified toks)) ↔ ∀ t ∈ classified toks, t.Fits := by
  have hasc := (Lexer.lexes_of_tokenize h).ascending (Nat.le_refl _)
  rw [Nat.sub_self] at hasc
  have hstart : getLineAndCol (utf8 content) 0 = (1, 1) := by simp [getLineAndCol, lineScan]
  have hiff := decode_encode_iff hasc (by rw [hstart]; decide) (by rw [hstart]; decide)
  rw [hstart] at hiff
  have hdata : semanticData checks content = .ok (encodeTokens 0 0 toks) := by
    rw [semanticData, h]
  rw [hdata, ← hiff]
  constructor
  · rintro ⟨data, heq, hdecode⟩
    cases heq
    exact hdecode
  · intro hdecode
    exact ⟨_, rfl, hdecode⟩

/-- **The highlighting of a document is lossless** if and only if the lines, columns and lengths of
its tokens fit 32 bits. -/
theorem readsBack_iff (checks : Bool) (content : Str) :
    ReadsBack checks content ↔
      ∀ toks, Lexer.tokenize (utf8 content) checks semanticTokenRoom = .ok toks →
        ∀ t ∈ classified toks, t.Fits :=
  forall_congr' fun _ => forall_congr' fun htoks => fits_iff_of_tokenize htoks

/-! ## A document of many lines -/

theorem utf8_lines (n : ℕ) :
    utf8 (List.replicate n '\n' ++ ['x']) = List.replicate n 0x0A ++ [0x78] := by
  rw [utf8_append]
  congr 1
  induction n with
  | zero => rfl
  | succ n ih =>
    rw [List.replicate_succ, utf8_cons, ih, List.replicate_succ]
    rfl

theorem skipTrivia_lines (n k : ℕ) (l : List UInt8) :
    Lexer.skipTrivia (n + k) (List.replicate n 0x0A ++ l) = Lexer.skipTrivia k l := by
  induction n with
  | zero => simp
  | succ n ih =>
    rw [Nat.succ_add, List.replicate_succ, List.cons_append, Lexer.skipTrivia, if_pos (by simp), ih]

theorem lineScan_lines (n line lineStart i : ℕ) :
    lineScan (List.replicate (n + 1) 0x0A) line lineStart i = (line + (n + 1), i + (n + 1)) := by
  induction n generalizing line lineStart i with
  | zero => rfl
  | succ n ih =>
    rw [List.replicate_succ, lineScan, if_pos rfl, ih]
    congr 1 <;> omega

/-- Behind empty lines, a name is read in the line after them. -/
theorem tokenize_lines (checks : Bool) (n : ℕ) :
    ∃ toks, Lexer.tokenize (utf8 (List.replicate (n + 1) '\n' ++ ['x'])) checks
        semanticTokenRoom = .ok toks ∧ ⟨n + 2, 1, 1, 4⟩ ∈ classified toks := by
  have hlen : (List.replicate (n + 1) (0x0A : UInt8) ++ [0x78]).length = n + 1 + 1 := by simp
  have hskip : Lexer.skipTrivia (List.replicate (n + 1) (0x0A : UInt8) ++ [0x78]).length
      (List.replicate (n + 1) 0x0A ++ [0x78]) = [0x78] := by
    rw [hlen, skipTrivia_lines]
    rfl
  have hpos : getLineAndCol (List.replicate (n + 1) 0x0A ++ [0x78]) (n + 1) = (n + 2, 1) := by
    have htake : (List.replicate (n + 1) (0x0A : UInt8) ++ [0x78]).take (n + 1) =
        List.replicate (n + 1) 0x0A := List.take_left' (by simp)
    rw [getLineAndCol, hlen, Nat.min_eq_left (Nat.le_succ _), htake, lineScan_lines]
    simp only [Prod.mk.injEq]
    constructor <;> omega
  have htoken : Lexer.token checks [0x78] = .ok (some .ident, []) := rfl
  rw [utf8_lines]
  refine ⟨_, Lexer.tokenize_of_single (by decide) hskip (List.cons_ne_nil _ _) htoken, ?_⟩
  have hstart : (List.replicate (n + 1) (0x0A : UInt8) ++ [0x78]).length -
      ([0x78] : List UInt8).length = n + 1 := by
    rw [hlen]
    rfl
  have htok : Lexer.tokenAt (List.replicate (n + 1) 0x0A ++ [0x78]) .ident [0x78] [] =
      ⟨.ident, n + 1, 1, n + 2, 1⟩ := by
    rw [Lexer.tokenAt, hstart, hpos]
    rfl
  rw [htok, classified]
  exact List.mem_filterMap.mpr ⟨_, List.mem_cons_self, rfl⟩

/-- A name behind `2 ^ 32` empty lines is shown in the first line. -/
theorem manyLines_lossy : ¬ ∀ (checks : Bool) (content : Str), ReadsBack checks content := by
  intro h
  obtain ⟨toks, htoks, hmem⟩ := tokenize_lines true (2 ^ 32 - 1)
  have hfits := (fits_iff_of_tokenize htoks).mp (h true _ toks htoks)
  exact absurd (hfits _ hmem).1 (by decide)

end Lsp

end LatencyOS
