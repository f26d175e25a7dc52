import LatencyOS.Lsp.Diagnostics
import LatencyOS.Lsp.Hover
import LatencyOS.Lsp.Reader
import LatencyOS.Lsp.SemanticTokens
import LatencyOS.Tools.Reports

/-!
# The language server

`handle_request` reads a request, keeps the open documents and answers with a text that is put
together from format strings.  Here the answer is the `Doc` of these format strings, and its
text is what is sent.
-/

namespace LatencyOS.Lsp

open Format Json

/-! ## Requests -/

/-- What the server does with floating-point numbers. -/
structure Floats (F : Type) where
  /-- `parse::<f64>` -/
  parse : Str → Option F
  /-- `as u64` -/
  toU64 : F → ℕ
  /-- `{}` -/
  display : F → FloatText

/-- The order in which a `HashMap` is gone through. -/
structure HashOrder where
  order : List (Str × Doc) → List (Str × Doc)
  perm : ∀ l, (order l).Perm l

variable {F : Type}

/-- `as_str` -/
def asStr : JsonValue F → Option Str
  | .string s => some s
  | _ => none

/-- `as_u64` -/
def asU64 (floats : Floats F) : JsonValue F → Option ℕ
  | .number x => some (floats.toU64 x)
  | _ => none

/-- `as_array` -/
def asArray : JsonValue F → Option (List (JsonValue F))
  | .array items => some items
  | _ => none

/-- `get` -/
def get (v : JsonValue F) (key : String) : Option (JsonValue F) :=
  match v with
  | .object map => (map.find? fun m => m.1 == text key).map (·.2)
  | _ => none

/-- `parse_json_obj` -/
def parseJsonObj (floats : Floats F) (s : Str) : Option (JsonValue F) :=
  match parseJsonValue floats.parse (trim s) with
  | some (.object map) => some (.object map)
  | _ => none

/-- What `handle_request` takes out of a request before it acts on it. -/
inductive Request (F : Type)
  | capabilities (id : JsonValue F)
  | shutdown (id : Option (JsonValue F))
  /-- `didOpen`, and `didChange` with a last change. -/
  | edited (uri content : Str)
  | didSave (uri : Str)
  | hover (id : JsonValue F) (uri : Str) (line character : ℕ)
  | completion (id : JsonValue F)
  | codeAction (id : JsonValue F) (uri : Str)
  | formatting (id : JsonValue F) (uri : Str)
  | semanticTokens (id : JsonValue F) (uri : Str)
  | unknown (id : JsonValue F) (method : Str)

/-- The document a request is about. -/
def documentUri (req : JsonValue F) : Option Str := do
  let params ← get req "params"
  let doc ← get params "textDocument"
  asStr (← get doc "uri")

/-- The dispatch of `handle_request`; a request without a part that is needed has no answer. -/
def request? (floats : Floats F) (requestJson : Str) : Option (Request F) := do
  let req ← parseJsonObj floats requestJson
  let method ← asStr (← get req "method")
  let id := get req "id"
  if method = text "initialize" then
    return .capabilities (← id)
  else if method = text "initialized" then
    none
  else if method = text "shutdown" then
    return .shutdown id
  else if method = text "exit" then
    none
  else if method = text "textDocument/didOpen" then
    let uri ← documentUri req
    let doc ← get (← get req "params") "textDocument"
    return .edited uri (← asStr (← get doc "text"))
  else if method = text "textDocument/didChange" then
    let uri ← documentUri req
    let changes ← asArray (← get (← get req "params") "contentChanges")
    let lastChange ← changes.getLast?
    return .edited uri (← asStr (← get lastChange "text"))
  else if method = text "textDocument/didSave" then
    return .didSave (← documentUri req)
  else if method = text "textDocument/hover" then
    let id ← id
    let uri ← documentUri req
    let pos ← get (← get req "params") "position"
    let line ← asU64 floats (← get pos "line")
    let character ← asU64 floats (← get pos "character")
    return .hover id uri line character
  else if method = text "textDocument/completion" then
    return .completion (← id)
  else if method = text "textDocument/codeAction" then
    return .codeAction (← id) (← documentUri req)
  else if method = text "textDocument/formatting" then
    return .formatting (← id) (← documentUri req)
  else if method = text "textDocument/semanticTokens/full" then
    return .semanticTokens (← id) (← documentUri req)
  else
    return .unknown (← id) method

/-! ## Answers -/

mutual

/-- `to_json_string` -/
def idDoc (floats : Floats F) (hash : HashOrder) : JsonValue F → Doc
  | .null => .null
  | .bool b => .bool b
  | .number x => .number (floats.display x)
  | .string s => .escaped s
  | .array items => .array (idItems floats hash items)
  | .object map => .object (hash.order (idMembers floats hash map))

def idItems (floats : Floats F) (hash : HashOrder) : List (JsonValue F) → List Doc
  | [] => []
  | v :: rest => idDoc floats hash v :: idItems floats hash rest

def idMembers (floats : Floats F) (hash : HashOrder) :
    List (Str × JsonValue F) → List (Str × Doc)
  | [] => []
  | (key, v) :: rest => (key, idDoc floats hash v) :: idMembers floats hash rest

end

/-- A response. -/
def response (id result : Doc) : Doc :=
  .fields [("jsonrpc", .literal "2.0"), ("id", id), ("result", result)]

/-- The answer to a method the server does not know. -/
def methodNotFound (id : Doc) (method : Str) : Doc :=
  .fields [
    ("jsonrpc", .literal "2.0"),
    ("id", id),
    ("error", .fields [
      ("code", .number (.decimal { NumberText.ofNat 32601 with negative := true })),
      ("message", .bare (text "Method not found: " ++ method))])]

/-- What the server can do. -/
def capabilities : Doc :=
  .fields [("capabilities", .fields [
    ("textDocumentSync", .nat 1),
    ("hoverProvider", .bool true),
    ("completionProvider", .fields [
      ("resolveProvider", .bool false),
      ("triggerCharacters", .array (["@", "$", "#", ":"].map Doc.literal))]),
    ("codeActionProvider", .bool true),
    ("documentFormattingProvider", .bool true),
    ("semanticTokensProvider", .fields [
      ("legend", .fields [
        ("tokenTypes", .array (["keyword", "variable", "parameter", "type", "function",
          "macro", "number", "string", "operator", "comment"].map Doc.literal)),
        ("tokenModifiers", .array (["declaration", "readonly"].map Doc.literal))]),
      ("full", .bool true)])])]

/-- A position in a document. -/
def position (line character : ℕ) : Doc :=
  .fields [("line", .nat line), ("character", .nat character)]

def range (start stop : Doc) : Doc := .fields [("start", start), ("end", stop)]

/-- The format string of a diagnostic. -/
def diagnostic (d : LspDiagnostic) : Doc :=
  .fields [
    ("range", range (position d.line d.character) (position d.line d.endCharacter)),
    ("severity", .nat 1),
    ("code", .literal d.code),
    ("source", .literal "pulc"),
    ("message", .escaped d.message),
    ("data", .fields [
      ("category", .literal d.category),
      ("repairability", .literal d.repairability),
      ("ai_repair_hint", .escaped (text d.hint))])]

/-- The format string of the notification about a document. -/
def notification (uri : Str) (diags : List LspDiagnostic) : Doc :=
  .fields [
    ("jsonrpc", .literal "2.0"),
    ("method", .literal "textDocument/publishDiagnostics"),
    ("params", .fields [
      ("uri", .escaped uri),
      ("diagnostics", .array (diags.map diagnostic))])]

/-- The markdown of a hover, or `null`. -/
def hoverResult (info : Option Str) : Doc :=
  .orNull (info.map fun info =>
    .fields [("contents", .fields [("kind", .literal "markdown"), ("value", .escaped info)])])

/-- The label, kind, detail and inserted text of the completions. -/
def completions : List (String × ℕ × String × String) :=
  [("@contract", 15, "Static WCET and Dynamic Budget Contract",
      "@contract: @wcet($\x7b1:100us\x7d) @budget($\x7b2:500us\x7d);"),
    ("@test", 15, "Native Test Block with Budget",
      "@test \"$\x7b1:test name\x7d\" @budget($\x7b2:50us\x7d) \x7b\n    $0\n\x7d"),
    ("@requires", 15, "Precondition Contract", "@requires($\x7b1:$arg >= 0\x7d)"),
    ("@ensures", 15, "Postcondition Contract", "@ensures($\x7b1:$result >= 0\x7d)"),
    ("@import", 15, "Runtime Module Import",
      "@import \"$\x7b1|core,math,sys,net,vram,gpu,all,tiny|\x7d\";"),
    ("@tsc", 3, "Read Timestamp Counter (25ns WCET)", "@tsc()"),
    ("@uptime_ns", 3, "Read System Uptime in ns (35ns WCET)", "@uptime_ns()"),
    ("@core_id", 3, "Read Core ID (15ns WCET)", "@core_id()"),
    ("@println", 3, "Print Line to Output Console", "@println($\x7b1:$val\x7d);"),
    ("@print", 3, "Print to Output Console", "@print($\x7b1:$val\x7d);"),
    ("@assert", 3, "Assert Condition", "@assert($\x7b1:condition\x7d);"),
    ("@capture", 3, "Capture Linear Hardware Frame", "@capture()"),
    ("@send", 3, "Consume and Send Linear Handle", "@send($\x7b1:#handle\x7d);"),
    ("fn", 14, "Function Declaration",
      "fn $\x7b1:name\x7d($\x7b2:$arg: i64\x7d) -> $\x7b3:i64\x7d \x7b\n    $0\n\x7d"),
    ("let", 14, "Immutable Variable Binding", "let $$\x7b1:x\x7d = $\x7b2:0\x7d;"),
    ("let mut", 14, "Mutable Variable Binding", "let mut $$\x7b1:x\x7d = $\x7b2:0\x7d;"),
    ("match", 14, "Exhaustive Pattern Matching",
      "match $\x7b1:$expr\x7d \x7b\n    $\x7b2:Pattern\x7d => $\x7b3:expr\x7d,\n\x7d")]

/-- A new line and the indentation of the literal behind it. -/
def newline (indent : ℕ) : Blank :=
  ⟨'\n' :: List.replicate indent ' ', by
    intro c hc
    rcases List.mem_cons.mp hc with rfl | hc
    · rfl
    · rw [List.eq_of_mem_replicate hc]
      rfl⟩

def completion (c : String × ℕ × String × String) : Doc :=
  .fields [
    ("label", .literal c.1),
    ("kind", .nat c.2.1),
    ("detail", .literal c.2.2.1),
    ("insertText", .escaped (text c.2.2.2))]

/-- `compute_completions`: one line for each, and the bracket on a line of its own. -/
def computeCompletions : Doc :=
  .array (completions.dropLast.map (fun c => .padded (newline 12) (completion c) .empty) ++
    completions.getLast?.toList.map fun c => .padded (newline 12) (completion c) (newline 8))

/-- An edit that inserts a line at the start of a document. -/
def insertion (title : String) (uri : Str) (line : String) : Doc :=
  .fields [
    ("title", .escaped (text title)),
    ("kind", .literal "quickfix"),
    ("edit", .fields [("changes", .object [(uri, .array [.fields [
      ("range", range (position 0 0) (position 0 0)),
      ("newText", .escaped (text line))]])])])]

/-- Missing `@contract` -/
def MissingContract (content : Str) : Prop := ¬ text "@contract:" <:+: content

/-- Missing `@import`, if the time is asked for. -/
def MissingImport (content : Str) : Prop :=
  (text "@tsc" <:+: content ∨ text "@uptime_ns" <:+: content) ∧ ¬ text "@import" <:+: content

instance (content : Str) : Decidable (MissingContract content) := inferInstanceAs (Decidable (¬ _))

instance (content : Str) : Decidable (MissingImport content) :=
  inferInstanceAs (Decidable ((_ ∨ _) ∧ ¬ _))

/-- `compute_code_actions` -/
def computeCodeActions (documents : Str → Option Str) (uri : Str) : Doc :=
  match documents uri with
  | none => .array []
  | some content =>
    .array (
      (if MissingContract content then
        [insertion "Add @contract WCET & Budget annotation" uri
          "@contract: @wcet(100us) @budget(500us);\n"] else []) ++
      (if MissingImport content then
        [insertion "Add @import \"sys\"; for time intrinsics" uri "@import \"sys\";\n"] else []))

/-- `compute_formatting` -/
def computeFormatting (checks : Bool) (documents : Str → Option Str) (uri : Str) :
    Except Abort Doc :=
  match documents uri with
  | none => .ok (.array [])
  | some content =>
    match Fmt.formatSource checks content with
    | .error (.error _) => .ok (.array [])
    | .error a => .error a
    | .ok formatted =>
      if formatted = content then .ok (.array [])
      else .ok (.array [.fields [
        ("range", range (position 0 0) (position ((Fmt.lines content).length + 1) 0)),
        ("newText", .escaped formatted)]])

/-- The numbers of the semantic tokens of an open document. -/
def semanticNumbers (checks : Bool) (documents : Str → Option Str) (uri : Str) :
    Except Abort Doc :=
  match documents uri with
  | none => .ok (.array [])
  | some content => (semanticData checks content).map fun data => .array (data.map Doc.nat)

/-! ## The server -/

structure LspServer where
  documents : Str → Option Str
  shutdownRequested : Bool

namespace LspServer

variable (floats : Floats F) (hash : HashOrder) (checks : Bool) (fuel : ℕ)

/-- `publish_diagnostics`, as the parts of its format strings. -/
def published (server : LspServer) (uri : Str) : Except Abort (Option Doc) :=
  match server.documents uri with
  | none => .ok none
  | some content =>
    (documentDiagnostics checks fuel content).map fun diags => some (notification uri diags)

/-- What a request is answered with, and the server behind it. -/
def answer (server : LspServer) : Request F → Except Abort (Option Doc × LspServer)
  | .capabilities id => .ok (some (response (idDoc floats hash id) capabilities), server)
  | .shutdown id =>
    .ok (id.map fun id => response (idDoc floats hash id) .null,
      { server with shutdownRequested := true })
  | .edited uri content =>
    let server := { server with documents := Function.update server.documents uri (some content) }
    (server.published checks fuel uri).map fun d => (d, server)
  | .didSave uri => (server.published checks fuel uri).map fun d => (d, server)
  | .hover id uri line character =>
    (computeHover server.documents uri line character).map fun info =>
      (some (response (idDoc floats hash id) (hoverResult info)), server)
  | .completion id => .ok (some (response (idDoc floats hash id) computeCompletions), server)
  | .codeAction id uri =>
    .ok (some (response (idDoc floats hash id) (computeCodeActions server.documents uri)), server)
  | .formatting id uri =>
    (computeFormatting checks server.documents uri).map fun edits =>
      (some (response (idDoc floats hash id) edits), server)
  | .semanticTokens id uri =>
    (semanticNumbers checks server.documents uri).map fun data =>
      (some (response (idDoc floats hash id) (.fields [("data", data)])), server)
  | .unknown id method => .ok (some (methodNotFound (idDoc floats hash id) method), server)

/-- The parts of what `handle_request` returns. -/
def handleDoc (server : LspServer) (requestJson : Str) :
    Except Abort (Option Doc × LspServer) :=
  match request? floats requestJson with
  | none => .ok (none, server)
  | some request => server.answer floats hash checks fuel request

/-- `handle_request` -/
def handleRequest (server : LspServer) (requestJson : Str) :
    Except Abort (Option Str × LspServer) :=
  (server.handleDoc floats hash checks fuel requestJson).map fun r => (r.1.map Doc.text, r.2)

end LspServer

/-! ## When the answers are well formed -/

mutual

/-- Every string can do with the escapes it gets, and every number is finite. -/
def IdClear (floats : Floats F) : JsonValue F → Prop
  | .null => True
  | .bool _ => True
  | .number x => (floats.display x).Finite
  | .string s => ClearString s
  | .array items => IdsClear floats items
  | .object map => MapClear floats map

def IdsClear (floats : Floats F) : List (JsonValue F) → Prop
  | [] => True
  | v :: rest => IdClear floats v ∧ IdsClear floats rest

def MapClear (floats : Floats F) : List (Str × JsonValue F) → Prop
  | [] => True
  | (key, v) :: rest => ClearString key ∧ IdClear floats v ∧ MapClear floats rest

end

/-- The texts of a diagnostic: its code is not escaped. -/
structure ErrorClear (err : CompileError) : Prop where
  code : PlainString (text err.code)
  message : ClearString (text err.message)
  stage : ClearString (text err.stage)
  suggestion : ClearString (text err.suggestion)

/-- What is published for a document is well formed. -/
def DocumentClear (checks : Bool) (fuel : ℕ) (uri content : Str) : Prop :=
  ClearString uri ∧ ∀ err, compilePulseToBinary checks fuel (utf8 content) diagnosticsRoom =
    .error (.error err) → ErrorClear err

/-- What a request makes the server write can do with the escapes it gets. -/
def Request.Clear (floats : Floats F) (checks : Bool) (fuel : ℕ) (documents : Str → Option Str) :
    Request F → Prop
  | .capabilities id => IdClear floats id
  | .shutdown id => ∀ v ∈ id, IdClear floats v
  | .edited uri content => DocumentClear checks fuel uri content
  | .didSave uri => ∀ content ∈ documents uri, DocumentClear checks fuel uri content
  | .hover id _ _ _ => IdClear floats id
  | .completion id => IdClear floats id
  | .codeAction id uri => IdClear floats id ∧ ∀ content ∈ documents uri,
      MissingContract content ∨ MissingImport content → ClearString uri
  | .formatting id uri => IdClear floats id ∧ ∀ content ∈ documents uri, ∀ formatted,
      Fmt.formatSource checks content = .ok formatted → formatted ≠ content →
        ClearString formatted
  | .semanticTokens id _ => IdClear floats id
  | .unknown id method => IdClear floats id ∧ PlainString method

mutual

theorem clear_idDoc (floats : Floats F) (hash : HashOrder) :
    (v : JsonValue F) → ((idDoc floats hash v).Clear ↔ IdClear floats v)
  | .null => Iff.rfl
  | .bool _ => Iff.rfl
  | .number _ => Iff.rfl
  | .string _ => Iff.rfl
  | .array items => clear_idItems floats hash items
  | .object map => by
    rw [idDoc, Doc.Clear, IdClear, ← clear_idMembers floats hash map, clearMembers_iff,
      clearMembers_iff]
    exact forall_congr' fun m => by rw [(hash.perm _).mem_iff]

theorem clear_idItems (floats : Floats F) (hash : HashOrder) :
    (items : List (JsonValue F)) → (ClearItems (idItems floats hash items) ↔ IdsClear floats items)
  | [] => Iff.rfl
  | v :: rest => and_congr (clear_idDoc floats hash v) (clear_idItems floats hash rest)

theorem clear_idMembers (floats : Floats F) (hash : HashOrder) :
    (map : List (Str × JsonValue F)) →
      (ClearMembers (idMembers floats hash map) ↔ MapClear floats map)
  | [] => Iff.rfl
  | (_, v) :: rest =>
    and_congr_right fun _ =>
      and_congr (clear_idDoc floats hash v) (clear_idMembers floats hash rest)

end

theorem clear_response (id result : Doc) :
    (response id result).Clear ↔ id.Clear ∧ result.Clear := by
  simp +decide [response]

theorem clear_methodNotFound (id : Doc) (method : Str) :
    (methodNotFound id method).Clear ↔ id.Clear ∧ PlainString method := by
  simp +decide [methodNotFound, plainString_append]

theorem clear_capabilities : capabilities.Clear := by
  simp +decide [capabilities]

@[simp] theorem clear_position (line character : ℕ) : (position line character).Clear := by
  simp +decide [position]

@[simp] theorem clear_range (start stop : Doc) :
    (range start stop).Clear ↔ start.Clear ∧ stop.Clear := by
  simp +decide [range]

/-! ### Diagnostics -/

theorem clearString_diagnosticMessage (err : CompileError) :
    ClearString (diagnosticMessage err) ↔ ClearString (text err.code) ∧
      ClearString (text err.message) ∧ ClearString (text err.stage) ∧
        ClearString (text err.suggestion) := by
  have hcategory := err.plain_category.clear
  simp +decide [diagnosticMessage, clearString_append, hcategory]

theorem clear_diagnostic (err : CompileError) :
    (diagnostic (lspDiagnostic err)).Clear ↔ ErrorClear err := by
  have hparts : (diagnostic (lspDiagnostic err)).Clear ↔ PlainString (text err.code) ∧
      ClearString (diagnosticMessage err) ∧ ClearString (text err.suggestion) := by
    simp +decide [diagnostic, lspDiagnostic]
  rw [hparts, clearString_diagnosticMessage]
  constructor
  · rintro ⟨hcode, ⟨-, hmessage, hstage, -⟩, hsuggestion⟩
    exact ⟨hcode, hmessage, hstage, hsuggestion⟩
  · intro h
    exact ⟨h.code, ⟨h.code.clear, h.message, h.stage, h.suggestion⟩, h.suggestion⟩

theorem clear_notification (uri : Str) (diags : List LspDiagnostic) :
    (notification uri diags).Clear ↔ ClearString uri ∧ ∀ d ∈ diags, (diagnostic d).Clear := by
  simp +decide [notification]

/-! ### Hovers -/

theorem le_of_isWordChar {c : Char} (h : isWordChar (UInt8.ofNat c.toNat) = true)
    (hc : c.toNat < 128) : 0x20 ≤ c.toNat := by
  have hall : ∀ n < 128, isWordChar (UInt8.ofNat n) = true → 0x20 ≤ n := by decide +kernel
  exact hall c.toNat hc h

/-- The word at a position has word characters only. -/
theorem clearString_extractWordAt {line word : Str} {character : ℕ}
    (h : extractWordAt line character = .ok word) : ClearString word := by
  by_cases hlt : character < byteLen line
  · by_cases hboundary : IsCharBoundary line character
    · obtain ⟨word', hword, -, -, -, -, -, hchars, -⟩ := extractWordAt_boundary hlt hboundary
      rw [hword] at h
      cases h
      intro c hc
      obtain ⟨hascii, hbyte⟩ := Bool.and_eq_true_iff.mp (hchars c hc)
      exact .inr (.inr (.inr (le_of_isWordChar hbyte (of_decide_eq_true hascii))))
    · rw [extractWordAt_inside hlt hboundary] at h
      cases h
  · rw [extractWordAt, if_pos (Nat.not_lt.mp hlt)] at h
    cases h
    exact List.forall_mem_nil _

theorem clearString_hoverInfo {word info : Str} (hword : ClearString word)
    (h : hoverInfo word = some info) : ClearString info := by
  have hall : ∀ e ∈ hovers, ClearString (text e.2) := by
    simp only [hovers, List.forall_mem_cons, List.mem_nil_iff, false_implies, implies_true,
      and_true, clearString_text_append]
    repeat' apply And.intro
    all_goals exact clearString_literal (by decide +kernel)
  unfold hoverInfo at h
  split at h
  · next e he =>
    cases h
    exact hall e (List.mem_of_find?_eq_some he)
  · split at h
    · cases h
      simp +decide [clearString_append, hword]
    · split at h
      · cases h
        simp +decide [clearString_append, hword]
      · cases h

theorem clear_hoverResult {documents : Str → Option Str} {uri : Str} {line character : ℕ}
    {info : Option Str} (h : computeHover documents uri line character = .ok info) :
    (hoverResult info).Clear := by
  cases info with
  | none => trivial
  | some info =>
    have hinfo : ClearString info := by
      unfold computeHover at h
      split at h
      · cases h
      · split at h
        · cases h
        · split at h
          · cases h
          · next curLine _ _ =>
            cases hword : extractWordAt curLine character with
            | error a =>
              rw [hword] at h
              cases h
            | ok word =>
              rw [hword] at h
              exact clearString_hoverInfo (clearString_extractWordAt hword) (Except.ok.inj h)
    simp +decide [hoverResult, hinfo]

/-! ### The other results -/

theorem clear_completion (c : String × ℕ × String × String) :
    (completion c).Clear ↔
      PlainString (text c.1) ∧ PlainString (text c.2.2.1) ∧ ClearString (text c.2.2.2) := by
  simp +decide [completion]

theorem clear_computeCompletions : computeCompletions.Clear := by
  have hall : ∀ c ∈ completions, PlainString (text c.1) ∧ PlainString (text c.2.2.1) ∧
      ClearString (text c.2.2.2) := by
    simp only [completions, List.forall_mem_cons]
    repeat'
      refine And.intro ⟨plainString_literal ?_, plainString_literal ?_, clearString_literal ?_⟩ ?_
    all_goals decide +kernel
  rw [computeCompletions, Doc.clear_array]
  intro d hd
  rcases List.mem_append.mp hd with hd | hd
  · obtain ⟨c, hc, rfl⟩ := List.mem_map.mp hd
    exact (clear_completion c).mpr (hall c (List.mem_of_mem_dropLast hc))
  · obtain ⟨c, hc, rfl⟩ := List.mem_map.mp hd
    exact (clear_completion c).mpr (hall c (List.mem_of_getLast? (Option.mem_toList.mp hc)))

theorem clear_insertion (title : String) (uri : Str) (line : String) :
    (insertion title uri line).Clear ↔
      ClearString (text title) ∧ ClearString uri ∧ ClearString (text line) := by
  simp +decide [insertion]

theorem clear_computeCodeActions (documents : Str → Option Str) (uri : Str) :
    (computeCodeActions documents uri).Clear ↔ ∀ content ∈ documents uri,
      MissingContract content ∨ MissingImport content → ClearString uri := by
  unfold computeCodeActions
  cases documents uri with
  | none => simp
  | some content =>
    by_cases hcontract : MissingContract content <;> by_cases himport : MissingImport content <;>
      simp +decide [hcontract, himport, clear_insertion]

theorem clear_computeFormatting {checks : Bool} {documents : Str → Option Str} {uri : Str}
    {edits : Doc} (h : computeFormatting checks documents uri = .ok edits) :
    edits.Clear ↔ ∀ content ∈ documents uri, ∀ formatted,
      Fmt.formatSource checks content = .ok formatted → formatted ≠ content →
        ClearString formatted := by
  unfold computeFormatting at h
  cases hdoc : documents uri with
  | none =>
    rw [hdoc] at h
    cases h
    simp
  | some content =>
    rw [hdoc] at h
    dsimp only at h
    simp only [Option.mem_some_iff, forall_eq']
    cases hformat : Fmt.formatSource checks content with
    | error a =>
      rw [hformat] at h
      cases a <;> cases h
      simp
    | ok formatted =>
      rw [hformat] at h
      dsimp only at h
      by_cases hsame : formatted = content
      · rw [if_pos hsame] at h
        cases h
        simp [hsame]
      · rw [if_neg hsame] at h
        cases h
        simp +decide [hsame]

theorem clear_semanticNumbers {checks : Bool} {documents : Str → Option Str} {uri : Str}
    {data : Doc} (h : semanticNumbers checks documents uri = .ok data) : data.Clear := by
  unfold semanticNumbers at h
  split at h
  · cases h
    simp
  · next content _ =>
    cases hdata : semanticData checks content with
    | error a =>
      rw [hdata] at h
      cases h
    | ok numbers =>
      rw [hdata] at h
      cases h
      simp

/-! ### Answers -/

section

variable (floats : Floats F) (hash : HashOrder) (checks : Bool) (fuel : ℕ)

theorem text_position (line character : ℕ) :
    (position line character).text = positionJson line character := by
  rw [position, Doc.text_fields (by simp +decide)]
  simp only [List.map_cons, List.map_nil, Doc.text_nat, positionJson]

/-- The format string of a diagnostic writes what `format_lsp_diagnostic` returns. -/
theorem text_diagnostic (d : LspDiagnostic) : (diagnostic d).text = d.toJson := by
  have hrange (start stop : Doc) :
      (range start stop).text = object [("start", start.text), ("end", stop.text)] := by
    rw [range, Doc.text_fields (by simp +decide)]
    rfl
  rw [diagnostic, Doc.text_fields (by simp +decide)]
  simp only [List.map_cons, List.map_nil, hrange, text_position, Doc.text_nat, Doc.text_literal,
    Doc.text_escaped, LspDiagnostic.toJson]
  rw [Doc.text_fields (by simp +decide)]
  rfl

/-- The format string of a notification writes what `publish_diagnostics` returns. -/
theorem text_notification (uri : Str) (diags : List LspDiagnostic) :
    (notification uri diags).text =
      diagnosticsNotification uri (diags.map LspDiagnostic.toJson) := by
  have hdiags : (diags.map diagnostic).map Doc.text = diags.map LspDiagnostic.toJson := by
    rw [List.map_map]
    exact List.map_congr_left fun d _ => text_diagnostic d
  rw [notification, Doc.text_fields (by simp +decide)]
  simp only [List.map_cons, List.map_nil, Doc.text_literal]
  rw [Doc.text_fields (by simp +decide)]
  simp only [List.map_cons, List.map_nil, Doc.text_escaped, Doc.text_array, hdiags,
    diagnosticsNotification]

theorem publishDiagnostics_eq (server : LspServer) (uri : Str) :
    publishDiagnostics checks fuel server.documents uri =
      (server.published checks fuel uri).map fun d => d.map Doc.text := by
  unfold publishDiagnostics LspServer.published
  cases server.documents uri with
  | none => rfl
  | some content =>
    cases hdiags : documentDiagnostics checks fuel content with
    | error a => simp only [hdiags]; rfl
    | ok diags =>
      simp only [hdiags]
      exact congrArg (fun t => Except.ok (some t)) (text_notification uri diags).symm

/-- What is published about a document. -/
theorem clear_published {server : LspServer} {uri : Str} {d : Doc}
    (h : server.published checks fuel uri = .ok (some d)) :
    ∃ content, server.documents uri = some content ∧
      (d.Clear ↔ DocumentClear checks fuel uri content) := by
  unfold LspServer.published at h
  cases hdoc : server.documents uri with
  | none =>
    rw [hdoc] at h
    cases h
  | some content =>
    rw [hdoc] at h
    refine ⟨content, rfl, ?_⟩
    unfold documentDiagnostics at h
    cases hcompile : compilePulseToBinary checks fuel (utf8 content) diagnosticsRoom with
    | ok bin =>
      simp only [hcompile] at h
      cases h
      rw [clear_notification, DocumentClear, hcompile]
      simp
    | error a =>
      cases a with
      | error err =>
        simp only [hcompile] at h
        cases h
        rw [clear_notification, DocumentClear, hcompile]
        simp [clear_diagnostic]
      | panic =>
        simp only [hcompile] at h
        cases h
      | fuel =>
        simp only [hcompile] at h
        cases h

/-- What is answered is what is published. -/
theorem published_of_map {r : Except Abort (Option Doc)} {s s' : LspServer} {d : Doc}
    (h : (r.map fun d => (d, s)) = .ok (some d, s')) : r = .ok (some d) := by
  cases r with
  | error a => cases h
  | ok o =>
    cases h
    rfl

/-- An answer is clear if and only if the request and the documents are. -/
theorem clear_answer {server server' : LspServer} {request : Request F} {d : Doc}
    (h : server.answer floats hash checks fuel request = .ok (some d, server')) :
    d.Clear ↔ request.Clear floats checks fuel server.documents := by
  have hresponse : ∀ (id : JsonValue F) (result : Doc),
      (response (idDoc floats hash id) result).Clear ↔ IdClear floats id ∧ result.Clear := by
    intro id result
    rw [clear_response, clear_idDoc]
  cases request with
  | capabilities id =>
    cases h
    rw [hresponse, Request.Clear, and_iff_left clear_capabilities]
  | shutdown id =>
    cases id with
    | none => cases h
    | some id =>
      cases h
      rw [hresponse, Request.Clear]
      simp
  | edited uri content =>
    rw [LspServer.answer] at h
    obtain ⟨content', hdoc, hclear⟩ := clear_published checks fuel (published_of_map h)
    have hcontent : some content = some content' := (Function.update_self uri _ _).symm.trans hdoc
    cases hcontent
    exact hclear
  | didSave uri =>
    obtain ⟨content, hdoc, hclear⟩ := clear_published checks fuel (published_of_map h)
    rw [hclear, Request.Clear, hdoc]
    simp
  | hover id uri line character =>
    rw [LspServer.answer] at h
    cases hinfo : computeHover server.documents uri line character with
    | error a =>
      rw [hinfo] at h
      cases h
    | ok info =>
      rw [hinfo] at h
      cases h
      rw [hresponse, Request.Clear, and_iff_left (clear_hoverResult hinfo)]
  | completion id =>
    cases h
    rw [hresponse, Request.Clear, and_iff_left clear_computeCompletions]
  | codeAction id uri =>
    cases h
    rw [hresponse, Request.Clear, clear_computeCodeActions]
  | formatting id uri =>
    rw [LspServer.answer] at h
    cases hedits : computeFormatting checks server.documents uri with
    | error a =>
      rw [hedits] at h
      cases h
    | ok edits =>
      rw [hedits] at h
      cases h
      rw [hresponse, Request.Clear, clear_computeFormatting hedits]
  | semanticTokens id uri =>
    rw [LspServer.answer] at h
    cases hdata : semanticNumbers checks server.documents uri with
    | error a =>
      rw [hdata] at h
      cases h
    | ok data =>
      rw [hdata] at h
      cases h
      have hclear : (Doc.fields [("data", data)]).Clear := by
        simp +decide [clear_semanticNumbers hdata]
      rw [hresponse, Request.Clear, and_iff_left hclear]
  | unknown id method =>
    cases h
    rw [clear_methodNotFound, clear_idDoc, Request.Clear]

/-- What `handle_request` returns is the text of its parts. -/
theorem handleRequest_eq_ok {server server' : LspServer} {requestJson s : Str}
    (h : server.handleRequest floats hash checks fuel requestJson = .ok (some s, server')) :
    ∃ d, server.handleDoc floats hash checks fuel requestJson = .ok (some d, server') ∧
      d.text = s := by
  unfold LspServer.handleRequest at h
  cases hdoc : server.handleDoc floats hash checks fuel requestJson with
  | error a =>
    rw [hdoc] at h
    cases h
  | ok r =>
    obtain ⟨answer, after⟩ := r
    rw [hdoc] at h
    cases answer with
    | none => cases h
    | some d =>
      cases h
      exact ⟨d, rfl, rfl⟩

theorem clear_handleDoc {server server' : LspServer} {requestJson : Str} {d : Doc}
    (h : server.handleDoc floats hash checks fuel requestJson = .ok (some d, server')) :
    d.Clear ↔ ∀ request ∈ request? floats requestJson,
      request.Clear floats checks fuel server.documents := by
  unfold LspServer.handleDoc at h
  cases hrequest : request? floats requestJson with
  | none =>
    rw [hrequest] at h
    cases h
  | some request =>
    rw [hrequest] at h
    rw [clear_answer floats hash checks fuel h]
    simp

/-- **When the emitted JSON is well formed**: a report when its strings have no other control
characters than line ends and tabs, and the two of the IR that are not escaped have nothing to
escape; an answer of the server when this holds of what the request makes it write, and the
numbers of the id are finite. -/
theorem emittedJson_iff :
    (∀ (e : CompileError) (filename : Str),
      WellFormed (e.formatJson filename) (e.report filename).value ↔
        ClearString filename ∧ AllClear e.strings) ∧
    (∀ ir : IntentIr, WellFormed ir.toJson ir.doc.value ↔
      PlainString ir.version ∧ AllClear ir.strings ∧ PlainString ir.verification.status) ∧
    (∀ r : SemanticDiffReport, WellFormed r.toJson r.doc.value ↔ AllClear r.strings) ∧
    (∀ r : InspectReport, WellFormed r.toJson r.doc.value ↔ AllClear r.strings) ∧
    (∀ r : WhyReport, WellFormed r.toJson r.doc.value ↔ AllClear r.strings) ∧
    ∀ (server server' : LspServer) (requestJson s : Str),
      server.handleRequest floats hash checks fuel requestJson = .ok (some s, server') →
        ∃ d, server.handleDoc floats hash checks fuel requestJson = .ok (some d, server') ∧
          d.text = s ∧ (WellFormed s d.value ↔ ∀ request ∈ request? floats requestJson,
            request.Clear floats checks fuel server.documents) := by
  refine ⟨fun e filename => (e.report filename).wellFormed_iff.trans (e.clear_iff filename),
    fun ir => ir.doc.wellFormed_iff.trans ir.clear_iff,
    fun r => r.doc.wellFormed_iff.trans r.clear_iff,
    fun r => r.doc.wellFormed_iff.trans r.clear_iff,
    fun r => r.doc.wellFormed_iff.trans r.clear_iff, ?_⟩
  intro server server' requestJson s h
  obtain ⟨d, hdoc, rfl⟩ := handleRequest_eq_ok floats hash checks fuel h
  exact ⟨d, hdoc, rfl, d.wellFormed_iff.trans (clear_handleDoc floats hash checks fuel hdoc)⟩

end

/-! ## Two requests -/

/-- Floating-point numbers for texts without any. -/
def noFloats : Floats Unit := ⟨fun _ => none, fun _ => 0, fun _ => .nan⟩

def inOrder : HashOrder := ⟨id, List.Perm.refl⟩

def newServer : LspServer := ⟨fun _ => none, false⟩

/-- `\x7b"method":"shutdown","id":null\x7d` -/
def shutdownRequest : Str := text "\x7b\"method\":\"shutdown\",\"id\":null\x7d"

def isNullShutdown : Option (Request Unit) → Bool
  | some (.shutdown (some .null)) => true
  | _ => false

theorem eq_of_isNullShutdown {o : Option (Request Unit)} (h : isNullShutdown o = true) :
    o = some (.shutdown (some .null)) := by
  unfold isNullShutdown at h
  split at h
  · rfl
  · cases h

theorem request?_shutdownRequest :
    request? noFloats shutdownRequest = some (.shutdown (some .null)) :=
  eq_of_isNullShutdown (by decide +kernel)

/-- What the server with the new state returns for it. -/
theorem handleDoc_shutdownRequest :
    newServer.handleDoc noFloats inOrder true 0 shutdownRequest =
      .ok (some (response .null .null), { newServer with shutdownRequested := true }) := by
  rw [LspServer.handleDoc, request?_shutdownRequest]
  rfl

theorem emittedJson_shutdown : WellFormed (response .null .null).text
    (response .null .null).value := by
  have hanswer : newServer.handleRequest noFloats inOrder true 0 shutdownRequest =
      .ok (some (response .null .null).text, { newServer with shutdownRequested := true }) := by
    rw [LspServer.handleRequest, handleDoc_shutdownRequest]
    rfl
  obtain ⟨d, hdoc, -, hiff⟩ :=
    (emittedJson_iff noFloats inOrder true 0).2.2.2.2.2 _ _ _ _ hanswer
  rw [handleDoc_shutdownRequest] at hdoc
  cases hdoc
  refine hiff.mpr fun request hrequest => ?_
  rw [request?_shutdownRequest] at hrequest
  cases hrequest
  rintro v hv
  cases hv
  trivial

end LatencyOS.Lsp
