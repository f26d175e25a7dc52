import LatencyOS.Compiler.State

/-!
# The lexer

Bytes to tokens.  Bytes that start no token are skipped without a diagnostic, and an
unclosed comment ends one byte before the end of the source.
-/

namespace LatencyOS

namespace Lexer

/-- The rest of the source after a block comment's opening. -/
def skipBlockComment : List UInt8 → List UInt8
  | a :: b :: rest =>
    if a = 0x2A ∧ b = 0x2F then rest else skipBlockComment (b :: rest)
  | rest => rest

/-- `skip_whitespace_and_comments`, bounded by the number of bytes. -/
def skipTrivia : ℕ → List UInt8 → List UInt8
  | 0, rest => rest
  | _, [] => []
  | n + 1, b :: rest =>
    if b = 0x20 ∨ b = 0x09 ∨ b = 0x0D ∨ b = 0x0A then skipTrivia n rest
    else if b = 0x2F ∧ rest.head? = some 0x2F then
      skipTrivia n (rest.dropWhile (· != 0x0A))
    else if b = 0x2F ∧ rest.head? = some 0x2A then
      skipTrivia n (skipBlockComment (rest.drop 1))
    else b :: rest

def isDigit (b : UInt8) : Bool := 0x30 ≤ b && b ≤ 0x39

def isAlpha (b : UInt8) : Bool := (0x61 ≤ b && b ≤ 0x7A) || (0x41 ≤ b && b ≤ 0x5A)

/-- Whether a byte continues a variable name. -/
def isWord (b : UInt8) : Bool := isAlpha b || isDigit b || b == 0x5F

/-- Whether a byte continues an identifier or intrinsic name. -/
def isDottedWord (b : UInt8) : Bool := isWord b || b == 0x2E

/-- The value of a hexadecimal digit. -/
def hexValue (b : UInt8) : Option ℕ :=
  if isDigit b then some (b.toNat - 0x30)
  else if 0x61 ≤ b && b ≤ 0x66 then some (b.toNat - 0x61 + 10)
  else if 0x41 ≤ b && b ≤ 0x46 then some (b.toNat - 0x41 + 10)
  else none

/-- A hexadecimal number; digits past the sixteenth push out the first. -/
def hexNumber (digits : List UInt8) : Word64 :=
  digits.foldl (fun num b => num <<< 4 ||| BitVec.ofNat 64 ((hexValue b).getD 0)) 0#64

/-- A decimal number, wrapping. -/
def decNumber (digits : List UInt8) : Word64 :=
  digits.foldl (fun num b => num * 10#64 + BitVec.ofNat 64 (b.toNat - 0x30)) 0#64

/-- `i64::saturating_mul` by ten and `saturating_add` of a digit. -/
def appendDigit (v : Int) (b : UInt8) : Int :=
  let sat := fun (x : Int) => max (-2 ^ 63) (min x (2 ^ 63 - 1))
  sat (sat (v * 10) + (b.toNat - 0x30 : ℕ))

/-- A decimal fraction: its digits as one number and how many follow the point. -/
def fraction (num : Word64) (digits : List UInt8) : TokenKind :=
  .floatLit (BitVec.ofInt 64 (digits.foldl appendDigit num.toInt)) (min digits.length 255)

/-- The unit suffixes of time literals, longest first, and their length in nanoseconds. -/
def timeUnits : List (List UInt8 × ℕ) :=
  [(bytes "ns", 1), (bytes "us", 1000), (bytes "ms", 1000000), (bytes "s", 1000000000)]

/-- What follows the digits of a decimal number. -/
def numberRest (checks : Bool) (num : Word64) (rest : List UInt8) :
    Except Abort (TokenKind × List UInt8) :=
  if rest.head? = some 0x2E ∧ (rest.drop 1).head?.any isDigit then
    let digits := (rest.drop 1).takeWhile isDigit
    .ok (fraction num digits, rest.drop (1 + digits.length))
  else
    match timeUnits.find? fun u => u.1.isPrefixOf rest with
    | some u =>
      -- the product is checked arithmetic on unsigned words
      if checks ∧ 2 ^ 64 ≤ num.toNat * u.2 then .error .panic
      else .ok (.timeLiteral (num * BitVec.ofNat 64 u.2), rest.drop u.1.length)
    | none => .ok (.number num, rest)

/-- A number, from its first digit on. -/
def number (checks : Bool) (l : List UInt8) : Except Abort (TokenKind × List UInt8) :=
  if l.head? = some 0x30 ∧ ((l.drop 1).head? = some 0x78 ∨ (l.drop 1).head? = some 0x58) then
    let digits := (l.drop 2).takeWhile fun b => (hexValue b).isSome
    .ok (.number (hexNumber digits), l.drop (2 + digits.length))
  else
    let digits := l.takeWhile isDigit
    numberRest checks (decNumber digits) (l.drop digits.length)

/-- The directives; every other name after `@` is an intrinsic. -/
def directives : List (String × TokenKind) :=
  [("contract", .atContract), ("pipeline", .atPipeline), ("budget", .atBudget),
    ("wcet", .atWcet), ("within", .atWithin), ("while", .atWhile), ("for", .atFor),
    ("assert", .atAssert), ("requires", .atRequires), ("ensures", .atEnsures),
    ("invariant", .atInvariant), ("loop", .atLoop), ("on_vblank", .atOnVblank),
    ("pool_size", .atPoolSize), ("test", .atTest), ("import", .atImport)]

/-- The keywords; every other name is an identifier. -/
def keywords : List (String × TokenKind) :=
  [("let", .let), ("mut", .mut), ("match", .match), ("if", .if), ("else", .else),
    ("while", .while), ("for", .for), ("in", .in), ("within", .within), ("or", .or),
    ("drop", .drop), ("pipeline", .pipeline), ("task", .task), ("stage", .stage),
    ("core", .core), ("zero_copy", .zeroCopy), ("hardware", .hardware), ("input", .input),
    ("output", .output), ("on", .on), ("emit", .emit), ("return", .return),
    ("budget", .budget), ("fn", .fn), ("struct", .struct), ("const", .const),
    ("enum", .enum), ("fixed", .fixed), ("i64", .i64), ("u8", .u8), ("u16", .u16),
    ("u32", .u32), ("u64", .u64), ("_", .underscore)]

/-- The kind a table gives a name. -/
def lookupKind (table : List (String × TokenKind)) (name : List UInt8) (default : TokenKind) :
    TokenKind :=
  ((table.find? fun e => bytes e.1 == name).map (·.2)).getD default

/-- The operators and punctuation, two-byte ones first. -/
def operators : List (String × TokenKind) :=
  [("..", .dotDot), (":=", .colonEq), ("::", .colonColon), ("+=", .plusEq), ("-=", .minusEq),
    ("->", .arrow), ("|>", .pipe), ("||", .orOp), ("==", .eqEq), ("=>", .fatArrow),
    ("!=", .notEq), ("<<", .shl), ("<=", .ltEq), (">>", .shr), (">=", .gtEq), ("&&", .and),
    ("(", .lParen), (")", .rParen), ("\x7b", .lBrace), ("\x7d", .rBrace), (";", .semi),
    (",", .comma), (".", .dot), ("?", .question), (":", .colon), ("+", .plus), ("-", .minus),
    ("*", .star), ("/", .slash), ("%", .percent), ("[", .lBracket), ("]", .rBracket),
    ("^", .caret), ("|", .pipeSingle), ("=", .eq), ("!", .exclamation), ("<", .lt), (">", .gt),
    ("&", .amp)]

/-- The token at the start of a source, and the rest; no kind for a byte that is skipped. -/
def token (checks : Bool) (l : List UInt8) : Except Abort (Option TokenKind × List UInt8) :=
  match l with
  | [] => .ok (none, [])
  | b :: rest =>
    if b = 0x22 then
      let inner := rest.takeWhile (· != 0x22)
      .ok (some .stringLit, rest.drop (inner.length + 1))
    else if isDigit b then (number checks l).map fun r => (some r.1, r.2)
    else if b = 0x24 then .ok (some .varIdent, rest.dropWhile isWord)
    else if b = 0x23 then .ok (some .hardwareIdent, rest.dropWhile isWord)
    else if b = 0x40 then
      .ok (some (lookupKind directives (rest.takeWhile isDottedWord) .intrinsicIdent),
        rest.dropWhile isDottedWord)
    else if isAlpha b || b == 0x5F then
      .ok (some (lookupKind keywords (l.takeWhile isDottedWord) .ident),
        l.dropWhile isDottedWord)
    else
      match operators.find? fun e => (bytes e.1).isPrefixOf l with
      | some e => .ok (some e.2, l.drop (bytes e.1).length)
      | none => .ok (none, rest)

/-- A token of a kind between two suffixes of the source. -/
def tokenAt (src : List UInt8) (kind : TokenKind) (rest rest' : List UInt8) : Token :=
  let start := src.length - rest.length
  let pos := getLineAndCol src start
  ⟨kind, start, rest.length - rest'.length, pos.1, pos.2⟩

/-- The tokens up to the end of the source or of the buffer, and what is left. -/
def scan (src : List UInt8) (checks : Bool) (room : ℕ) :
    ℕ → List UInt8 → List Token → Except Abort (List Token × List UInt8)
  | 0, rest, toks => .ok (toks, rest)
  | n + 1, rest, toks =>
    if rest = [] ∨ room ≤ toks.length + 1 then .ok (toks, rest)
    else
      let rest := skipTrivia rest.length rest
      if rest = [] then .ok (toks, rest)
      else
        match token checks rest with
        | .error e => .error e
        | .ok (none, rest') => scan src checks room n rest' toks
        | .ok (some kind, rest') =>
          scan src checks room n rest' (toks ++ [tokenAt src kind rest rest'])

/-- `tokenize`: the tokens of a source, the last one the end marker. -/
def tokenize (src : List UInt8) (checks : Bool) (room : ℕ) : Except Abort (List Token) :=
  if room = 0 then
    .error (.error (.simple "ERR_TOKEN_BUFFER_EMPTY" "Supplied token slice has 0 capacity"))
  else
    match scan src checks room (src.length + 1) src [] with
    | .error e => .error e
    | .ok (toks, rest) =>
      let rest := skipTrivia rest.length rest
      let tok := tokenAt src .eof rest rest
      if rest ≠ [] then
        .error (.error
          { code := "ERR_MAX_TOKENS_EXCEEDED"
            message := "Source script exceeds maximum tokens capacity"
            line := tok.line
            col := tok.col
            byteOffset := tok.start
            tokenKind := .eof
            tokenLen := 0
            expected := "Script with fewer tokens or split into smaller functions/modules"
            stage := "Lexer -> Tokenization"
            suggestion := "Reduce code size or split logic into modules" })
      else .ok (toks ++ [tok])

/-! ## Sources of one token -/

variable {src rest : List UInt8} {checks : Bool} {room : ℕ}

/-- A source that is one token, behind what the lexer skips. -/
theorem tokenize_of_single {kind : TokenKind} (hroom : 2 ≤ room)
    (hskip : skipTrivia src.length src = rest) (hne : rest ≠ [])
    (htoken : token checks rest = .ok (some kind, [])) :
    tokenize src checks room = .ok [tokenAt src kind rest [], tokenAt src .eof [] []] := by
  cases src with
  | nil => exact absurd hskip.symm hne
  | cons b l =>
    have hscan : scan (b :: l) checks room ((b :: l).length + 1) (b :: l) [] =
        .ok ([tokenAt (b :: l) kind rest []], []) := by
      rw [scan, if_neg (by simp; omega), hskip]
      simp only [hne, if_false, htoken, List.nil_append]
      rw [List.length_cons, scan, if_pos (.inl rfl)]
    rw [tokenize, if_neg (by omega), hscan]
    rfl

/-- A source whose first token stops the lexer. -/
theorem tokenize_of_abort {a : Abort} (hroom : 2 ≤ room)
    (hskip : skipTrivia src.length src = rest) (hne : rest ≠ [])
    (htoken : token checks rest = .error a) : tokenize src checks room = .error a := by
  cases src with
  | nil => exact absurd hskip.symm hne
  | cons b l =>
    have hscan : scan (b :: l) checks room ((b :: l).length + 1) (b :: l) [] = .error a := by
      rw [scan, if_neg (by simp; omega), hskip]
      simp only [hne, if_false, htoken]
    rw [tokenize, if_neg (by omega), hscan]

end Lexer

end LatencyOS
