import LatencyOS.Lsp.Emitted
import LatencyOS.System.Roundtrip
import Mathlib

/-!
# Editor diagnostics

The language server compiles a document into a buffer of 1024 bytes, `compile` into the
largest one.  They agree exactly on the documents whose container fits the small one.
-/

namespace LatencyOS

open Format Json

/-! ## Categories -/

namespace CompileError

/-- `contains`. -/
def codeContains (e : CompileError) (pat : String) : Bool := decide (text pat <:+: text e.code)

/-- `starts_with`. -/
def codeStartsWith (e : CompileError) (pat : String) : Bool := decide (text pat <+: text e.code)

/-- `is_runtime` -/
def isRuntime (e : CompileError) : Bool :=
  e.codeStartsWith "ERR_PX64_" || e.codeStartsWith "ERR_BINARY_" || e.codeStartsWith "ERR_VM_"

/-- The semantic category of a diagnostic. -/
def category (e : CompileError) : String :=
  if e.codeContains "SYNTAX" || e.codeContains "TOKEN" || e.codeContains "UNEXPECTED" then "syntax"
  else if e.codeContains "TYPE" || e.codeContains "MUTABILITY" then "type"
  else if e.codeContains "LINEAR" then "linear_ownership"
  else if e.codeContains "WCET" || e.codeContains "BUDGET" || e.codeContains "TIMEOUT" then "wcet"
  else if e.isRuntime then "runtime"
  else "semantic"

/-- How a diagnostic may be repaired. -/
def repairability (e : CompileError) : String :=
  if e.code = "ERR_RUNTIME_NOT_IMPORTED" ∨ e.code = "ERR_MISSING_CONTRACT" then "safe_patch"
  else if e.code = "ERR_LINEAR_UNCONSUMED_HANDLE" ∨ e.code = "ERR_LINEAR_DOUBLE_SEND" ∨
      e.code = "ERR_UNBOUNDED_LOOP" then "requires_decision"
  else "suggestion"

end CompileError

/-! ## Diagnostics -/

/-- What `format_lsp_diagnostic` writes: a range counted from zero, the code and the texts. -/
structure LspDiagnostic where
  line : ℕ
  character : ℕ
  endCharacter : ℕ
  code : String
  message : Str
  category : String
  repairability : String
  hint : String

/-- The message shown in the editor. -/
def diagnosticMessage (err : CompileError) : Str :=
  text "[" ++ text err.code ++ text "] (" ++ text err.category ++ text ") " ++ text err.message ++
    text "\nStage: " ++ text err.stage ++ text "\nAI Repair Hint: " ++ text err.suggestion

/-- The contents of `format_lsp_diagnostic`. -/
def lspDiagnostic (err : CompileError) : LspDiagnostic where
  line := err.line - 1
  character := err.col - 1
  endCharacter := err.col - 1 + max err.tokenLen 1
  code := err.code
  message := diagnosticMessage err
  category := err.category
  repairability := err.repairability
  hint := err.suggestion

/-- A position in a document. -/
def positionJson (line character : ℕ) : Str :=
  object [("line", decimalText line), ("character", decimalText character)]

/-- The text of a diagnostic. -/
def LspDiagnostic.toJson (d : LspDiagnostic) : Str :=
  object [
    ("range", object [
      ("start", positionJson d.line d.character),
      ("end", positionJson d.line d.endCharacter)]),
    ("severity", decimalText 1),
    ("code", literal d.code),
    ("source", literal "pulc"),
    ("message", escaped d.message),
    ("data", object [
      ("category", literal d.category),
      ("repairability", literal d.repairability),
      ("ai_repair_hint", escaped (text d.hint))])]

/-- `format_lsp_diagnostic` -/
def formatLspDiagnostic (err : CompileError) : Str := (lspDiagnostic err).toJson

/-- The room of the buffer `publish_diagnostics` compiles into. -/
def diagnosticsRoom : ℕ := 1024

/-- The diagnostics of a document. -/
def documentDiagnostics (checks : Bool) (fuel : ℕ) (doc : Str) :
    Except Abort (List LspDiagnostic) :=
  match compilePulseToBinary checks fuel (utf8 doc) diagnosticsRoom with
  | .ok _ => .ok []
  | .error (.error err) => .ok [lspDiagnostic err]
  | .error a => .error a

/-- The notification for a document. -/
def diagnosticsNotification (uri : Str) (diags : List Str) : Str :=
  object [
    ("jsonrpc", literal "2.0"),
    ("method", literal "textDocument/publishDiagnostics"),
    ("params", object [("uri", escaped uri), ("diagnostics", array diags)])]

/-- `publish_diagnostics` for one of the open documents. -/
def publishDiagnostics (checks : Bool) (fuel : ℕ) (documents : Str → Option Str) (uri : Str) :
    Except Abort (Option Str) :=
  match documents uri with
  | none => .ok none
  | some doc =>
    (documentDiagnostics checks fuel doc).map fun diags =>
      some (diagnosticsNotification uri (diags.map LspDiagnostic.toJson))

/-! ## Against the compiler -/

/-- The room of the buffer `compile` allocates. -/
def compileRoom : ℕ := px64HeaderSize + maxBytecodeSize + maxStringPool + maxConstPool * 8

/-- `compile` -/
def compileText (checks : Bool) (fuel : ℕ) (src : Str) : Except Abort (List UInt8) :=
  compilePulseToBinary checks fuel (utf8 src) compileRoom

/-- What the server publishes for a document that was opened as `uri` reports what `compile`
returns: nothing when it succeeds, else its error code at its position. -/
structure DiagnosticsAgree (checks : Bool) (fuel : ℕ) (documents : Str → Option Str)
    (uri doc : Str) : Prop where
  success : ∀ bin, compileText checks fuel doc = .ok bin →
    publishDiagnostics checks fuel (Function.update documents uri (some doc)) uri =
      .ok (some (diagnosticsNotification uri []))
  failure : ∀ err, compileText checks fuel doc = .error (.error err) → ∃ d : LspDiagnostic,
    publishDiagnostics checks fuel (Function.update documents uri (some doc)) uri =
      .ok (some (diagnosticsNotification uri [d.toJson])) ∧
      d.code = err.code ∧ d.line = err.line - 1 ∧ d.character = err.col - 1
  abort : ∀ a, compileText checks fuel doc = .error a → (∀ err, a ≠ .error err) →
    publishDiagnostics checks fuel (Function.update documents uri (some doc)) uri = .error a

/-- What is published for an open document. -/
theorem publishDiagnostics_update (checks : Bool) (fuel : ℕ) (documents : Str → Option Str)
    (uri doc : Str) :
    publishDiagnostics checks fuel (Function.update documents uri (some doc)) uri =
      (documentDiagnostics checks fuel doc).map fun diags =>
        some (diagnosticsNotification uri (diags.map LspDiagnostic.toJson)) := by
  simp only [publishDiagnostics, Function.update_self]

/-- A notification with a diagnostic is not the empty one. -/
theorem diagnosticsNotification_ne (uri : Str) (d : LspDiagnostic) :
    diagnosticsNotification uri [d.toJson] ≠ diagnosticsNotification uri [] := by
  intro h
  have hempty : d.toJson = [] := by
    have hlen := congrArg List.length h
    simpa [diagnosticsNotification, object, array, commaSep, member, List.intercalate] using hlen
  cases hempty

/-- Every compiled program fits the buffer of `compile`. -/
theorem length_toBinary_le {checks : Bool} {fuel : ℕ} {src : List UInt8} {p : Program}
    (h : compileSource checks fuel src = .ok p) : p.toBinary.length ≤ compileRoom := by
  obtain ⟨hcode, hstr, hpool⟩ := withinLimits_of_compileSource h
  rw [Program.length_toBinary, compileRoom]
  omega

/-- What `compile` returns is the container of the compiled program. -/
theorem compileText_eq (checks : Bool) (fuel : ℕ) (src : Str) :
    compileText checks fuel src =
      (compileSource checks fuel (utf8 src)).map Program.toBinary := by
  cases h : compileSource checks fuel (utf8 src) with
  | error a =>
    rw [compileText, compilePulseToBinary, h]
    rfl
  | ok p =>
    rw [compileText, compilePulseToBinary_eq h, if_neg (Nat.not_lt.mpr (length_toBinary_le h))]
    rfl

/-- **When the editor agrees with the compiler**: exactly when the document fails to compile or
its container fits the buffer of the language server. -/
theorem diagnosticsAgree_iff (checks : Bool) (fuel : ℕ) (documents : Str → Option Str)
    (uri doc : Str) :
    DiagnosticsAgree checks fuel documents uri doc ↔
      ∀ p, compileSource checks fuel (utf8 doc) = .ok p →
        p.toBinary.length ≤ diagnosticsRoom := by
  cases h : compileSource checks fuel (utf8 doc) with
  | error a =>
    have hcompile : compileText checks fuel doc = .error a := by
      rw [compileText_eq, h]
      rfl
    have hsmall : compilePulseToBinary checks fuel (utf8 doc) diagnosticsRoom = .error a := by
      rw [compilePulseToBinary, h]
      rfl
    refine iff_of_true ⟨fun bin hbin => ?_, fun err herr => ?_, ?_⟩ fun p hp => by cases hp
    · rw [hcompile] at hbin
      cases hbin
    · rw [hcompile] at herr
      cases herr
      refine ⟨lspDiagnostic err, ?_, rfl, rfl, rfl⟩
      rw [publishDiagnostics_update, documentDiagnostics, hsmall]
      rfl
    · intro b hb hother
      rw [hcompile] at hb
      cases hb
      rw [publishDiagnostics_update, documentDiagnostics, hsmall]
      cases a with
      | error err => exact absurd rfl (hother err)
      | panic => rfl
      | fuel => rfl
  | ok p =>
    have hcompile : compileText checks fuel doc = .ok p.toBinary := by
      rw [compileText_eq, h]
      rfl
    have hsmall := compilePulseToBinary_eq h diagnosticsRoom
    constructor
    · rintro hagree q hq
      cases hq
      by_contra hlarge
      have hnone := hagree.success _ hcompile
      rw [publishDiagnostics_update, documentDiagnostics, hsmall,
        if_pos (Nat.not_le.mp hlarge)] at hnone
      exact diagnosticsNotification_ne _ _ (Option.some.inj (Except.ok.inj hnone))
    · intro hfits
      refine ⟨fun _ _ => ?_, fun err herr => ?_, fun a ha _ => ?_⟩
      · rw [publishDiagnostics_update, documentDiagnostics, hsmall,
          if_neg (Nat.not_lt.mpr (hfits p rfl))]
        rfl
      · rw [hcompile] at herr
        cases herr
      · rw [hcompile] at ha
        cases ha

/-- Two string literals and a table: 16 bytes of code, 512 of strings and 62 constants. -/
def largeDocument : Str :=
  text "const T: [i64; 61] = [" ++ (List.replicate 60 (text "1,")).flatten ++ text "1]; \"" ++
    List.replicate 256 'a' ++ text "\"; \"" ++ List.replicate 256 'b' ++ text "\";"

/-- A document that compiles is reported as an overflow of the output buffer. -/
theorem largeDocument_reported :
    (∃ bin, compileText true 80 largeDocument = .ok bin) ∧
      ¬ DiagnosticsAgree true 80 (fun _ => none) (text "file:///large.pulse") largeDocument := by
  have hsize : (compileSource true 80 (utf8 largeDocument)).map (·.toBinary.length) =
      .ok 1040 := by decide +kernel
  cases h : compileSource true 80 (utf8 largeDocument) with
  | error a =>
    rw [h] at hsize
    cases hsize
  | ok p =>
    rw [h] at hsize
    have hlen : p.toBinary.length = 1040 := Except.ok.inj hsize
    have hcompile : compileText true 80 largeDocument = .ok p.toBinary := by
      rw [compileText_eq, h]
      rfl
    refine ⟨⟨_, hcompile⟩, fun hagree => ?_⟩
    have hnone := hagree.success _ hcompile
    rw [publishDiagnostics_update, documentDiagnostics, compilePulseToBinary_eq h,
      if_pos (by rw [hlen]; decide)] at hnone
    exact diagnosticsNotification_ne _ _ (Option.some.inj (Except.ok.inj hnone))

end LatencyOS
