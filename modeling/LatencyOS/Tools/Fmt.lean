import LatencyOS.Compiler.Lexer
import LatencyOS.Lib.Str
import LatencyOS.Lib.Slice

/-!
# The formatter

`format_source` checks the delimiters with the tokens of the lexer and then formats line by
line: a line is split into code and comment, the code into tokens of its own, and the tokens
are joined again.  Every slice of a line is taken between two byte positions, and one that
does not lie between characters panics.
-/

namespace LatencyOS.Fmt

open Format
open Lexer (isDigit isAlpha isDottedWord hexValue)

inductive TokenCategory
  | identOrLiteral | colon | colonColon | comma | semi | dot | dotDot
  | lParen | rParen | lBracket | rBracket | lBrace | rBrace
  | binaryOp | unaryMinus | exclamation | question
  deriving DecidableEq, Repr

structure LineToken where
  text : Str
  category : TokenCategory
  deriving DecidableEq

/-- The slice of a line between two positions, given by the bytes behind them. -/
def sliceOf (line : Str) (rest rest' : List UInt8) : Except Abort Str :=
  match strSlice line (byteLen line - rest.length) (byteLen line - rest'.length) with
  | some s => .ok s
  | none => .error .panic

/-! ## Lines to tokens -/

/-- The state of `tokenize_line`. -/
structure LineScan where
  tokens : List LineToken
  afterFixed : Bool
  inFixedLt : Bool

def LineScan.push (st : LineScan) (text : Str) (category : TokenCategory) : LineScan :=
  { st with tokens := st.tokens ++ [⟨text, category⟩] }

/-- A string from behind its opening quote; a backslash skips two bytes. -/
def stringRest : List UInt8 → List UInt8
  | [] => []
  | b :: rest =>
    if b = 0x22 then rest
    else if b = 0x5C then
      match rest with
      | [] => []
      | _ :: rest => stringRest rest
    else stringRest rest

/-- The digits and the fraction of a decimal number. -/
def decimalRest (l : List UInt8) : List UInt8 :=
  let rest := l.dropWhile isDigit
  if rest.head? = some 0x2E ∧ (rest.drop 1).head?.any isDigit then
    (rest.drop 1).dropWhile isDigit
  else rest

/-- The unit behind a decimal number. -/
def unitRest (line : Str) (rest : List UInt8) : Except Abort (List UInt8) :=
  let single := if rest.head? = some 0x73 then rest.drop 1 else rest
  if 2 ≤ rest.length then do
    let unit ← sliceOf line rest (rest.drop 2)
    return if unit = text "ns" ∨ unit = text "us" ∨ unit = text "ms" then rest.drop 2 else single
  else .ok single

/-- A number, from its first digit on. -/
def numberRest (line : Str) (l : List UInt8) : Except Abort (List UInt8) :=
  if l.head? = some 0x30 ∧ ((l.drop 1).head? = some 0x78 ∨ (l.drop 1).head? = some 0x58) then
    .ok ((l.drop 2).dropWhile fun b => (hexValue b).isSome)
  else unitRest line (decimalRest l)

/-- The operators and punctuation, two-byte ones first. -/
def operators : List (String × TokenCategory) :=
  [(":=", .binaryOp), ("::", .colonColon), ("..", .dotDot), ("!=", .binaryOp), ("==", .binaryOp),
    ("=>", .binaryOp), ("+=", .binaryOp), ("-=", .binaryOp), ("->", .binaryOp), ("&&", .binaryOp),
    ("||", .binaryOp), ("|>", .binaryOp), ("<<", .binaryOp), ("<=", .binaryOp), (">>", .binaryOp),
    (">=", .binaryOp), (":", .colon), (";", .semi), (",", .comma), (".", .dot), ("(", .lParen),
    (")", .rParen), ("[", .lBracket), ("]", .rBracket), ("\x7b", .lBrace), ("\x7d", .rBrace),
    ("!", .exclamation), ("?", .question), ("=", .binaryOp), ("+", .binaryOp), ("-", .binaryOp),
    ("*", .binaryOp), ("/", .binaryOp), ("%", .binaryOp), ("^", .binaryOp), ("&", .binaryOp),
    ("|", .binaryOp), ("<", .binaryOp), (">", .binaryOp)]

/-- Whether a minus behind these tokens is a sign. -/
def isUnary (tokens : List LineToken) : Bool :=
  match tokens.getLast? with
  | none => true
  | some prev =>
    match prev.category with
    | .binaryOp | .unaryMinus | .lParen | .lBracket | .comma | .colon | .semi => true
    | .identOrLiteral => prev.text == text "return" || prev.text == text "in"
    | _ => false

/-- The operator at the start of the bytes: its length and category. -/
def operator? (st : LineScan) (l : List UInt8) : Option (ℕ × TokenCategory) :=
  if (l.head? = some 0x3C ∧ st.afterFixed) ∨ (l.head? = some 0x3E ∧ st.inFixedLt) then
    some (1, .binaryOp)
  else
    (operators.find? fun e => (bytes e.1).isPrefixOf l).map fun e =>
      ((bytes e.1).length, if e.1 = "-" ∧ isUnary st.tokens then .unaryMinus else e.2)

/-- What an operator does to the flags for `fixed<16>`. -/
def LineScan.flagged (st : LineScan) (b : UInt8) : LineScan :=
  if b = 0x3C ∧ st.afterFixed then { st with afterFixed := false, inFixedLt := true }
  else if b = 0x3E ∧ st.inFixedLt then { st with inFixedLt := false }
  else st

/-- One turn of the loop of `tokenize_line`, at a byte and those behind it. -/
def lineStep (line : Str) (st : LineScan) (b : UInt8) (rest : List UInt8) :
    Except Abort (LineScan × List UInt8) :=
  let l := b :: rest
  if b = 0x20 ∨ b = 0x09 ∨ b = 0x0D then .ok (st, rest)
  else if b = 0x22 then do
    let rest' := stringRest rest
    let t ← sliceOf line l rest'
    return (st.push t .identOrLiteral, rest')
  else if b = 0x24 ∨ b = 0x23 ∨ b = 0x40 then do
    let rest' := rest.dropWhile isDottedWord
    let t ← sliceOf line l rest'
    return (st.push t .identOrLiteral, rest')
  else if isDigit b then do
    let rest' ← numberRest line l
    let t ← sliceOf line l rest'
    return (st.push t .identOrLiteral, rest')
  else if isAlpha b || b == 0x5F then do
    let rest' := l.dropWhile isDottedWord
    let word ← sliceOf line l rest'
    return ({ st.push word .identOrLiteral with afterFixed := word = text "fixed" }, rest')
  else
    match operator? st l with
    | some (n, category) => do
      let t ← sliceOf line l (l.drop n)
      return ((st.push t category).flagged b, l.drop n)
    | none => .ok (st, rest)

/-- The loop of `tokenize_line`, bounded by the number of bytes. -/
def lineLoop (line : Str) : ℕ → LineScan → List UInt8 → Except Abort (List LineToken)
  | 0, st, _ => .ok st.tokens
  | _, st, [] => .ok st.tokens
  | n + 1, st, b :: rest => do
    let r ← lineStep line st b rest
    lineLoop line n r.1 r.2

/-- `tokenize_line` -/
def tokenizeLine (line : Str) : Except Abort (List LineToken) :=
  lineLoop line (byteLen line) ⟨[], false, false⟩ (utf8 line)

/-! ## Tokens to lines -/

/-- The keywords with a space before a parenthesis. -/
def spacedKeywords : List Str :=
  [text "if", text "while", text "match", text "for", text "return", text "in"]

/-- `is_space_needed` -/
def isSpaceNeeded (prev curr : LineToken) (hasFixedLt : Bool) : Bool :=
  if curr.category = .semi ∨ curr.category = .comma then false
  else if curr.category = .colon then false
  else if curr.category = .dot ∨ prev.category = .dot then false
  else if curr.category = .dotDot ∨ prev.category = .dotDot then false
  else if curr.category = .colonColon ∨ prev.category = .colonColon then false
  else if curr.category = .question then false
  else if prev.category = .exclamation then false
  else if prev.category = .colon then true
  else if prev.category = .semi then true
  else if prev.category = .comma then true
  else if curr.category = .rParen then false
  else if prev.category = .lParen then false
  else if curr.category = .rBracket then false
  else if prev.category = .lBracket then false
  else if curr.category = .lParen then
    if prev.category = .identOrLiteral then spacedKeywords.contains prev.text
    else if prev.category = .binaryOp then true
    else if prev.category = .lParen ∨ prev.category = .lBracket then false
    else true
  else if curr.category = .lBracket then
    if prev.category = .identOrLiteral then prev.text == text "return" || prev.text == text "in"
    else if prev.category = .rParen ∨ prev.category = .rBracket then false
    else true
  else if curr.text = text "<" ∧ prev.text = text "fixed" then false
  else if prev.text = text "<" ∧ hasFixedLt then false
  else if curr.text = text ">" ∧ hasFixedLt then false
  else if curr.category = .unaryMinus then
    if prev.category = .lParen ∨ prev.category = .lBracket then false else true
  else if prev.category = .unaryMinus then false
  else if curr.category = .binaryOp ∨ prev.category = .binaryOp then true
  else if curr.category = .lBrace then true
  else if prev.category = .lBrace then true
  else if curr.category = .rBrace then true
  else if prev.category = .rBrace then
    if curr.category = .semi ∨ curr.category = .comma then false else true
  else true

/-- The loop of `format_tokens` behind a token. -/
def formatFrom (out : Str) (inFixed : Bool) : Option LineToken → List LineToken → Str
  | _, [] => out
  | prev, curr :: tokens =>
    let inFixed := inFixed || (curr.text == text "<" && prev.any (·.text == text "fixed"))
    let spaced := prev.any fun p => isSpaceNeeded p curr inFixed && out.getLast? != some ' '
    let out := out ++ (if spaced then [' '] else []) ++ curr.text
    formatFrom out (inFixed && curr.text != text ">") (some curr) tokens

/-- `format_tokens` -/
def formatTokens (tokens : List LineToken) : Str := formatFrom [] false none tokens

/-! ## Comments and delimiters of a line -/

/-- The bytes from a comment on, if there is one; `in_str` as the scan goes. -/
def commentRest : Bool → List UInt8 → Option (List UInt8)
  | _, [] => none
  | inStr, b :: rest =>
    if b = 0x5C ∧ inStr then
      match rest with
      | [] => none
      | _ :: rest => commentRest inStr rest
    else if b = 0x22 then commentRest (!inStr) rest
    else if b = 0x2F ∧ inStr = false ∧ rest.head? = some 0x2F then some (b :: rest)
    else commentRest inStr rest

/-- `split_line_comment` -/
def splitLineComment (line : Str) : Except Abort (Str × Option Str) :=
  match commentRest false (utf8 line) with
  | some rest => do
    let code ← sliceOf line (utf8 line) rest
    let comment ← sliceOf line rest []
    return (code, some comment)
  | none => .ok (line, none)

/-- `count_braces` and `count_brackets`: the delimiters outside strings. -/
def countDelimiters (opening closing : UInt8) : Bool → List UInt8 → ℕ × ℕ
  | _, [] => (0, 0)
  | inStr, b :: rest =>
    if b = 0x5C ∧ inStr then
      match rest with
      | [] => (0, 0)
      | _ :: rest => countDelimiters opening closing inStr rest
    else if b = 0x22 then countDelimiters opening closing (!inStr) rest
    else
      let (opened, closed) := countDelimiters opening closing inStr rest
      if b = opening ∧ inStr = false then (opened + 1, closed)
      else if b = closing ∧ inStr = false then (opened, closed + 1)
      else (opened, closed)

/-! ## Validation -/

/-- The delimiters that are open. -/
structure Delimiters where
  brace : ℤ
  paren : ℤ
  bracket : ℤ

/-- A diagnostic of the validation at a token. -/
def validationError (tok : Token) (code message expected suggestion : String) : CompileError where
  code := code
  message := message
  line := tok.line
  col := tok.col
  byteOffset := tok.start
  tokenKind := tok.kind
  tokenLen := tok.len
  expected := expected
  stage := "Formatter -> Validation"
  suggestion := suggestion

def errUnclosedString (tok : Token) : CompileError :=
  validationError tok "ERR_UNCLOSED_STRING" "Unclosed string literal in source script"
    "Closing quote '\"'" "Add closing quote '\"' to terminate string literal"

/-- The check of a string literal: its first and last byte are quotes. -/
def checkString (src : List UInt8) (tok : Token) : Except Abort Unit :=
  if tok.len < 2 then .error (.error (errUnclosedString tok))
  else
    match src[tok.start]? with
    | none => .error .panic
    | some first =>
      if first ≠ 0x22 then .error (.error (errUnclosedString tok))
      else
        match src[tok.start + tok.len - 1]? with
        | none => .error .panic
        | some last => if last ≠ 0x22 then .error (.error (errUnclosedString tok)) else .ok ()

/-- The check of a token. -/
def checkToken (src : List UInt8) (d : Delimiters) (tok : Token) : Except Abort Delimiters :=
  match tok.kind with
  | .lBrace => .ok { d with brace := d.brace + 1 }
  | .rBrace =>
    if d.brace - 1 < 0 then
      .error (.error (validationError tok "ERR_UNMATCHED_BRACE"
        "Unexpected closing brace '\x7d' without matching '\x7b'" "Matching opening brace '\x7b'"
        "Remove redundant '\x7d' or add opening '\x7b'"))
    else .ok { d with brace := d.brace - 1 }
  | .lParen => .ok { d with paren := d.paren + 1 }
  | .rParen =>
    if d.paren - 1 < 0 then
      .error (.error (validationError tok "ERR_UNMATCHED_PAREN"
        "Unexpected closing parenthesis ')' without matching '('"
        "Matching opening parenthesis '('" "Remove redundant ')' or add opening '('"))
    else .ok { d with paren := d.paren - 1 }
  | .lBracket => .ok { d with bracket := d.bracket + 1 }
  | .rBracket =>
    if d.bracket - 1 < 0 then
      .error (.error (validationError tok "ERR_UNMATCHED_BRACKET"
        "Unexpected closing bracket ']' without matching '['" "Matching opening bracket '['"
        "Remove redundant ']' or add opening '['"))
    else .ok { d with bracket := d.bracket - 1 }
  | .stringLit => (checkString src tok).map fun _ => d
  | _ => .ok d

/-- The first step of `format_source`. -/
def validate (src : List UInt8) (tokens : List Token) : Except Abort Unit := do
  let d ← tokens.foldlM (checkToken src) ⟨0, 0, 0⟩
  if d.brace ≠ 0 then
    .error (.error (.simple "ERR_UNCLOSED_BRACE"
      "Unclosed opening brace '\x7b' in source script"))
  else if d.paren ≠ 0 then
    .error (.error (.simple "ERR_UNCLOSED_PAREN"
      "Unclosed opening parenthesis '(' in source script"))
  else if d.bracket ≠ 0 then
    .error (.error (.simple "ERR_UNCLOSED_BRACKET"
      "Unclosed opening bracket '[' in source script"))
  else .ok ()

/-! ## Sources -/

/-- One carriage return off the end. -/
def stripReturn (line : Str) : Str := if line.getLast? = some '\r' then line.dropLast else line

/-- `str::lines`: a carriage return belongs to the newline behind it, and what follows the
last newline is a line if it is not empty. -/
def lines (s : Str) : List Str :=
  let pieces := s.splitOn '\n'
  pieces.dropLast.map stripReturn ++ pieces.getLast?.toList.filter (· ≠ [])

/-- What `format_source` keeps from line to line. -/
structure Output where
  out : Str
  depth : ℕ
  lastWasEmpty : Bool

def indentation (depth : ℕ) : Str := List.replicate (depth * 4) ' '

/-- Whether a line starts with a contract clause. -/
def isContractClause (code : Str) : Bool :=
  [text "@wcet(", text "@requires(", text "@ensures(", text "@invariant("].any fun clause =>
    clause.isPrefixOf code

/-- The format of one line. -/
def formatLine (o : Output) (rawLine : Str) : Except Abort Output := do
  let (codePart, commentOpt) ← splitLineComment rawLine
  let code := trim codePart
  let comment := commentOpt.map trim
  if code = [] then
    match comment with
    | none =>
      .ok (if o.lastWasEmpty then o
        else { o with out := o.out ++ ['\n'], lastWasEmpty := true })
    | some c =>
      .ok { o with out := o.out ++ indentation o.depth ++ c ++ ['\n'], lastWasEmpty := false }
  else do
    let (openBraces, closeBraces) := countDelimiters 0x7B 0x7D false (utf8 code)
    let (openBrackets, closeBrackets) := countDelimiters 0x5B 0x5D false (utf8 code)
    let lineDepth :=
      if code.head? = some '}' ∨ code.head? = some ']' then o.depth - 1
      else if isContractClause code then o.depth + 1
      else o.depth
    let lineTokens ← tokenizeLine code
    let trailing := (comment.map fun c => ' ' :: c).getD []
    .ok
      { out := o.out ++ indentation lineDepth ++ formatTokens lineTokens ++ trailing ++ ['\n']
        depth := o.depth - closeBraces - closeBrackets + openBraces + openBrackets
        lastWasEmpty := false }

/-- `format_source` -/
def formatSource (checks : Bool) (src : Str) : Except Abort Str :=
  if trim src = [] then .ok []
  else do
    let tokens ← Lexer.tokenize (utf8 src) checks maxTokens
    validate (utf8 src) tokens
    let o ← (lines src).foldlM formatLine ⟨[], 0, true⟩
    return if o.out.getLast? = some '\n' then o.out else o.out ++ ['\n']

end LatencyOS.Fmt
