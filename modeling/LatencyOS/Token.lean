import LatencyOS.Isa

/-!
# Tokens, source positions and diagnostics
-/

namespace LatencyOS

/-- The bytes of a text. -/
def bytes (s : String) : List UInt8 := s.toUTF8.data.toList

/-- The kinds of token of PulseLang. -/
inductive TokenKind
  | let | mut | match | if | else | while | within | or | drop
  | pipeline | task | stage | core | zeroCopy | hardware | input | output | on | emit
  | return | budget | for | in | fn | struct | const | enum | fixed
  | i64 | u8 | u16 | u32 | u64
  | atContract | atPipeline | atBudget | atWcet | atWithin | atWhile | atFor | atLoop
  | atOnVblank | atAssert | atRequires | atEnsures | atInvariant | atPoolSize | atTest | atImport
  | ident | varIdent | hardwareIdent | intrinsicIdent
  | number (n : Word64)
  | floatLit (scaledVal : Word64) (fracDigits : ℕ)
  | timeLiteral (ns : Word64)
  | stringLit
  | colonEq | plusEq | minusEq | question | pipe | pipeSingle
  | plus | minus | star | slash | percent
  | eq | eqEq | notEq | lt | ltEq | shl | gt | gtEq | shr
  | and | amp | caret | orOp
  | semi | colon | colonColon | comma | dot | dotDot | arrow | fatArrow | underscore
  | lParen | rParen | lBrace | rBrace | lBracket | rBracket | exclamation
  | eof
  deriving DecidableEq, Repr

/-- A token with the span of source it covers. -/
structure Token where
  kind : TokenKind
  start : ℕ
  len : ℕ
  line : ℕ
  col : ℕ
  deriving DecidableEq, Repr

/-- What the token buffer yields past its end. -/
def Token.empty : Token := ⟨.eof, 0, 0, 1, 1⟩

/-- The scan behind `getLineAndCol`: current line, start of that line, position. -/
def lineScan : List UInt8 → ℕ → ℕ → ℕ → ℕ × ℕ
  | [], line, lineStart, _ => (line, lineStart)
  | b :: rest, line, lineStart, i =>
    if b = 0x0A then lineScan rest (line + 1) (i + 1) (i + 1)
    else lineScan rest line lineStart (i + 1)

/-- The 1-based line and column of a byte position. -/
def getLineAndCol (src : List UInt8) (pos : ℕ) : ℕ × ℕ :=
  let limit := min pos src.length
  let (line, lineStart) := lineScan (src.take limit) 1 0 0
  (line, limit - lineStart + 1)

/-- A compiler or runtime diagnostic. -/
structure CompileError where
  code : String
  message : String
  line : ℕ
  col : ℕ
  byteOffset : ℕ
  tokenKind : TokenKind
  tokenLen : ℕ
  expected : String
  stage : String
  suggestion : String
  deriving DecidableEq, Repr

/-- A diagnostic without a source position. -/
def CompileError.simple (code message : String) : CompileError where
  code := code
  message := message
  line := 1
  col := 1
  byteOffset := 0
  tokenKind := .eof
  tokenLen := 0
  expected := "Valid bytecode or script syntax"
  stage := "Execution / Validation"
  suggestion := "Check file format and integrity"

@[simp] theorem CompileError.simple_code (code message : String) :
    (CompileError.simple code message).code = code := rfl

end LatencyOS
