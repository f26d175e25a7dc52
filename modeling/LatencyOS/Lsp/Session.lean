import LatencyOS.Fs.PathBuffer
import LatencyOS.Fs.LatencyFs
import LatencyOS.Lib.Slice
import LatencyOS.Lsp.ReaderTrees
import LatencyOS.Lsp.Server

/-!
# Messages and sessions

A message goes over the line behind a header with its number of bytes.  The server reads messages
until the input ends or one cannot be read, and writes the answer to each before it reads the next.
What is written is read back, so that a client gets the answers in the order of its requests; and
each answer depends on the earlier requests only through the last text of every document.
-/

namespace LatencyOS.Lsp

open Format

/-! ## Messages -/

/-- `trim_end` -/
def trimEnd (s : Str) : Str := s.rdropWhile isWhitespace

/-- What is left of the input once a line is read, with the line and its line feed. -/
def splitLine (input : List UInt8) : List UInt8 × List UInt8 :=
  let line := input.takeWhile (· != 0x0A)
  match input.dropWhile (· != 0x0A) with
  | [] => (line, [])
  | b :: rest => (line ++ [b], rest)

/-- The number in a `Content-Length` header, if the line is one and has one. -/
def headerLength (trimmed : Str) : Option ℕ :=
  if (text "Content-Length:").isPrefixOf trimmed then
    Vfs.parseUsize (trim (trimmed.drop (text "Content-Length:").length))
  else none

/-- How the reading of a header ends: the input ends in it, a line is no text, or its last number
and what follows the header. -/
inductive HeaderEnd
  | eof
  | failed
  | body (contentLength : Option ℕ) (rest : List UInt8)

theorem length_splitLine (input : List UInt8) :
    (splitLine input).1.length + (splitLine input).2.length = input.length := by
  have hsum := congrArg List.length (List.takeWhile_append_dropWhile (p := (· != (0x0A : UInt8)))
    (l := input))
  rw [List.length_append] at hsum
  unfold splitLine
  dsimp only
  split
  · next hnil =>
    rw [hnil] at hsum
    exact hsum
  · next b rest hcons =>
    rw [hcons, List.length_cons] at hsum
    simp only [List.length_append, List.length_singleton]
    omega

/-- The loop of `read_message` over the lines of the header. -/
def readHeaders (contentLength : Option ℕ) (input : List UInt8) : HeaderEnd :=
  if _hline : (splitLine input).1 = [] then .eof
  else
    match Fs.fromUtf8 (splitLine input).1 with
    | none => .failed
    | some line =>
      let trimmed := trimEnd line
      if trimmed = [] then .body contentLength (splitLine input).2
      else readHeaders ((headerLength trimmed).or contentLength) (splitLine input).2
termination_by input.length
decreasing_by
  have hsum := length_splitLine input
  have hpos := List.length_pos_iff.mpr _hline
  omega

/-- What `read_message` returns, with the input behind the message. -/
inductive ReadResult
  | eof
  | failed
  | message (msg : Str) (rest : List UInt8)

/-- `read_message` -/
def readMessage (input : List UInt8) : ReadResult :=
  match readHeaders none input with
  | .eof => .eof
  | .failed => .failed
  | .body none _ => .failed
  | .body (some len) rest =>
    if rest.length < len then .failed
    else
      match Fs.fromUtf8 (rest.take len) with
      | none => .failed
      | some msg => .message msg (rest.drop len)

/-- The header `write_message` writes. -/
def header (body : Str) : Str := text "Content-Length: " ++ decimalText (byteLen body)

/-- `write_message`: the bytes that are written. -/
def writeMessage (body : Str) : List UInt8 :=
  utf8 (header body ++ text "\r\n\r\n") ++ utf8 body

/-- A message as a client may write it, with more headers. -/
def frame (headers : List Str) (body : Str) : List UInt8 :=
  utf8 (headers.flatMap fun h => h ++ text "\r\n") ++ utf8 (text "\r\n") ++ utf8 body

theorem writeMessage_eq_frame (body : Str) : writeMessage body = frame [header body] body := by
  simp only [writeMessage, frame, List.flatMap_cons, List.flatMap_nil, List.append_nil,
    utf8_append, List.append_assoc]
  rfl

/-! ## Reading what was written -/

variable {line : Str} {headers : List Str} {body msg : Str} {input rest : List UInt8}
  {len : Option ℕ}

/-- A line feed is a byte of its own. -/
theorem lineFeed_mem_utf8 {s : Str} (h : 0x0A ∈ utf8 s) : '\n' ∈ s := by
  obtain ⟨c, hc, hb⟩ := List.mem_flatMap.mp h
  rcases utf8EncodeChar_cases c with ⟨hlt, heq⟩ | ⟨-, b, cont, heq, hb₀, -, hcont⟩
  · rw [heq, List.mem_singleton] at hb
    rwa [← (ofNat_toNat_inj (c := '\n') (by decide) hlt).mp hb] at hc
  · rw [heq, List.mem_cons] at hb
    rcases hb with rfl | hb
    · exact absurd hb₀ (by decide)
    · exact absurd (hcont _ hb) (by decide)

theorem splitLine_line {bytes : List UInt8} (h : 0x0A ∉ bytes) (rest : List UInt8) :
    splitLine (bytes ++ 0x0A :: rest) = (bytes ++ [0x0A], rest) := by
  have hpass : ∀ b ∈ bytes, (b != 0x0A) = true := by
    intro b hb
    rw [bne_iff_ne]
    rintro rfl
    exact h hb
  have hstop : ((0x0A : UInt8) != 0x0A) = false := by decide
  simp only [splitLine, List.takeWhile_append_of_pos hpass, List.dropWhile_append_of_pos hpass,
    List.takeWhile_cons, List.dropWhile_cons, hstop, Bool.false_eq_true, if_false,
    List.append_nil]

/-- A line with its end. -/
theorem splitLine_text (h : '\n' ∉ line) (rest : List UInt8) :
    splitLine (utf8 (line ++ text "\r\n") ++ rest) = (utf8 (line ++ text "\r\n"), rest) := by
  have hend : utf8 (line ++ text "\r\n") = utf8 (line ++ ['\r']) ++ [0x0A] := by
    rw [utf8_append, utf8_append, List.append_assoc]
    rfl
  have hbytes : 0x0A ∉ utf8 (line ++ ['\r']) := by
    intro hmem
    rcases List.mem_append.mp (lineFeed_mem_utf8 hmem) with hline | hline
    · exact h hline
    · simp at hline
  rw [hend, List.append_assoc, List.singleton_append, splitLine_line hbytes]

theorem trimEnd_line (line : Str) : trimEnd (line ++ text "\r\n") = trimEnd line :=
  rdropWhile_append_of_pos line (List.all_eq_true.mp (by decide))

theorem trimEnd_eq_nil (h : ∀ c ∈ line, isWhitespace c = true) : trimEnd line = [] := by
  rw [trimEnd, List.rdropWhile_eq_nil_iff]
  exact h

/-- One turn of the loop over the header. -/
theorem readHeaders_line (hline : '\n' ∉ line) (len : Option ℕ) (rest : List UInt8) :
    readHeaders len (utf8 (line ++ text "\r\n") ++ rest) =
      if trimEnd line = [] then .body len rest
      else readHeaders ((headerLength (trimEnd line)).or len) rest := by
  have hne : utf8 (line ++ text "\r\n") ≠ [] := by
    rw [utf8_append]
    exact List.append_ne_nil_of_right_ne_nil _ (by decide)
  rw [readHeaders, splitLine_text hline]
  dsimp only
  rw [dif_neg hne, Fs.fromUtf8_utf8]
  dsimp only
  rw [trimEnd_line]

/-- The last number in some headers. -/
def contentLength (headers : List Str) (len : Option ℕ) : Option ℕ :=
  headers.foldl (fun len h => (headerLength (trimEnd h)).or len) len

/-- Headers of one line each, none of them blank. -/
def HeaderLines (headers : List Str) : Prop := ∀ h ∈ headers, '\n' ∉ h ∧ trimEnd h ≠ []

/-- The header of a frame is read to its end. -/
theorem readHeaders_frame (h : HeaderLines headers) (len : Option ℕ) (rest : List UInt8) :
    readHeaders len (utf8 (headers.flatMap fun h => h ++ text "\r\n") ++
      (utf8 (text "\r\n") ++ rest)) = .body (contentLength headers len) rest := by
  induction headers generalizing len with
  | nil =>
    rw [List.flatMap_nil, utf8_nil, List.nil_append]
    have hempty : '\n' ∉ ([] : Str) := by simp
    exact (readHeaders_line hempty len rest).trans (if_pos (trimEnd_eq_nil (by simp)))
  | cons line headers ih =>
    obtain ⟨hline, hblank⟩ := h line List.mem_cons_self
    rw [List.flatMap_cons, utf8_append, List.append_assoc, readHeaders_line hline, if_neg hblank,
      ih fun h' hmem => h h' (List.mem_cons_of_mem line hmem)]
    rfl

/-- A frame is read back, whatever comes behind it. -/
theorem readMessage_frame (h : HeaderLines headers)
    (hlen : contentLength headers none = some (byteLen body)) (rest : List UInt8) :
    readMessage (frame headers body ++ rest) = .message body rest := by
  have hbytes : (utf8 body ++ rest).length = byteLen body + rest.length := List.length_append
  have htake : (utf8 body ++ rest).take (byteLen body) = utf8 body := List.take_left
  have hdrop : (utf8 body ++ rest).drop (byteLen body) = rest := List.drop_left
  rw [readMessage, frame, List.append_assoc, List.append_assoc, readHeaders_frame h, hlen]
  dsimp only
  rw [if_neg (by omega), htake, hdrop, Fs.fromUtf8_utf8]

theorem parseUsize_decimalText {n : ℕ} (h : n < 2 ^ 64) :
    Vfs.parseUsize (decimalText n) = some n := by
  have hdigits : ∀ c ∈ decimalText n, c.isDigit = true :=
    fun c hc => Nat.isDigit_of_mem_toDigits (by decide) (by decide) hc
  have hne : decimalText n ≠ [] := Nat.toDigits_ne_nil
  have hplus : (decimalText n).head? ≠ some '+' := by
    intro hhead
    exact absurd (hdigits '+' (List.mem_of_mem_head? hhead)) (by decide)
  have hvalue : (decimalText n).foldl (fun n c => 10 * n + (c.toNat - 48)) 0 = n :=
    Nat.ofDigitChars_ten_toDigits
  rw [Vfs.parseUsize, if_neg hplus]
  dsimp only
  rw [if_neg (by simp [hne, List.all_eq_true.mpr hdigits]), hvalue, if_pos h]

/-- A number ends and starts with digits. -/
theorem decimalText_ends (n : ℕ) : ∃ c d, (decimalText n).head? = some c ∧
    (decimalText n).getLast? = some d ∧ isWhitespace c = false ∧ isWhitespace d = false := by
  have hdigits : ∀ c ∈ decimalText n, isWhitespace c = false := fun c hc =>
    Json.not_isWhitespace_of_digit (Nat.isDigit_of_mem_toDigits (by decide) (by decide) hc)
  have hne : decimalText n ≠ [] := Nat.toDigits_ne_nil
  exact ⟨_, _, List.head?_eq_some_head hne, List.getLast?_eq_some_getLast hne,
    hdigits _ (List.head_mem hne), hdigits _ (List.getLast_mem hne)⟩

theorem trimEnd_header (body : Str) : trimEnd (header body) = header body := by
  obtain ⟨c, d, -, hlast, -, hd⟩ := decimalText_ends (byteLen body)
  rw [trimEnd, List.rdropWhile_eq_self_iff]
  intro hne
  have hend : (header body).getLast hne = d := by
    refine Option.some.inj ?_
    rw [← List.getLast?_eq_some_getLast hne, header, List.getLast?_append, hlast]
    rfl
  rw [hend, hd]
  exact Bool.false_ne_true

/-- The header that is written has the number of bytes. -/
theorem headerLength_header (h : byteLen body < 2 ^ 64) :
    headerLength (header body) = some (byteLen body) := by
  obtain ⟨c, d, hhead, hlast, hc, hd⟩ := decimalText_ends (byteLen body)
  have hsplit : header body =
      text "Content-Length:" ++ ([' '] ++ decimalText (byteLen body)) := rfl
  have hblank : trim ([' '] ++ decimalText (byteLen body)) = decimalText (byteLen body) := by
    have hsurround := trim_surround (a := [' ']) (b := []) (List.all_eq_true.mp (by decide))
      (decimalText (byteLen body)) (by simp)
    rw [List.append_nil] at hsurround
    rw [hsurround, trim_eq_self hhead hlast hc hd]
  have hprefix : (text "Content-Length:").isPrefixOf (header body) = true := by
    rw [hsplit, List.isPrefixOf_iff_prefix]
    exact List.prefix_append _ _
  rw [headerLength, if_pos hprefix, hsplit, List.drop_left, hblank, parseUsize_decimalText h]

theorem headerLines_header (body : Str) : HeaderLines [header body] := by
  intro h hmem
  rw [List.mem_singleton] at hmem
  subst hmem
  refine ⟨fun hline => ?_, ?_⟩
  · rcases List.mem_append.mp hline with hline | hline
    · simp [text] at hline
    · have hdigit := Nat.isDigit_of_mem_toDigits (by decide) (by decide) hline
      exact absurd hdigit (by decide)
  · rw [trimEnd_header, header]
    exact List.append_ne_nil_of_left_ne_nil (by decide) _

/-- What was written is read back. -/
theorem readMessage_writeMessage (h : byteLen body < 2 ^ 64) (rest : List UInt8) :
    readMessage (writeMessage body ++ rest) = .message body rest := by
  rw [writeMessage_eq_frame]
  refine readMessage_frame (headerLines_header body) ?_ rest
  rw [contentLength, List.foldl_cons, List.foldl_nil, trimEnd_header, headerLength_header h]
  rfl

/-! ## The loop of the server -/

/-- A message takes bytes from the input. -/
theorem length_readHeaders {len len' : Option ℕ} :
    readHeaders len input = .body len' rest → rest.length < input.length := by
  fun_induction readHeaders len input with
  | case1 len input hline => exact fun h => by cases h
  | case2 len input hline hbad => exact fun h => by cases h
  | case3 len input hline line hok trimmed hblank =>
    intro h
    cases h
    have hsum := length_splitLine input
    have hpos := List.length_pos_iff.mpr hline
    omega
  | case4 len input hline line hok trimmed hblank ih =>
    intro h
    have hsum := length_splitLine input
    have hpos := List.length_pos_iff.mpr hline
    have hrest := ih h
    omega

theorem length_readMessage (h : readMessage input = .message msg rest) :
    rest.length < input.length := by
  unfold readMessage at h
  split at h
  · cases h
  · cases h
  · cases h
  · next len rest' hheader =>
    have hlt := length_readHeaders hheader
    split at h
    · cases h
    · split at h
      · cases h
      · cases h
        rw [List.length_drop]
        omega

theorem readMessage_nil : readMessage [] = .eof := by
  rw [readMessage, readHeaders]
  rfl

section

variable {F : Type} (floats : Floats F) (hash : HashOrder) (checks : Bool) (fuel : ℕ)

/-- The loop of the language server: what it writes, and what it ends with if it does not come to
the end of the input. -/
def serve (server : LspServer) (input : List UInt8) : List UInt8 × Option Abort :=
  match _hread : readMessage input with
  | .eof => ([], none)
  | .failed => ([], none)
  | .message msg rest =>
    match server.handleRequest floats hash checks fuel msg with
    | .error a => ([], some a)
    | .ok (resp, server) =>
      let r := serve server rest
      (resp.elim [] writeMessage ++ r.1, r.2)
termination_by input.length
decreasing_by exact length_readMessage _hread

/-- The answers to some requests, in order, up to one at which the server ends. -/
def answers (server : LspServer) : List Str → List Str × Option Abort
  | [] => ([], none)
  | request :: requests =>
    match server.handleRequest floats hash checks fuel request with
    | .error a => ([], some a)
    | .ok (resp, server) =>
      let r := answers server requests
      (resp.toList ++ r.1, r.2)

variable {floats hash checks fuel} {server : LspServer} {requests : List Str}

/-- One turn of the loop. -/
theorem serve_message (h : readMessage input = .message msg rest) :
    serve floats hash checks fuel server input =
      match server.handleRequest floats hash checks fuel msg with
      | .error a => ([], some a)
      | .ok (resp, server) =>
        let r := serve floats hash checks fuel server rest
        (resp.elim [] writeMessage ++ r.1, r.2) := by
  rw [serve]
  split
  · next heof =>
    rw [h] at heof
    cases heof
  · next hfailed =>
    rw [h] at hfailed
    cases hfailed
  · next msg' rest' hmessage =>
    rw [h] at hmessage
    cases hmessage
    rfl

/-- A request with the headers a client puts in front of it. -/
structure Framed where
  headers : List Str
  body : Str
  lines : HeaderLines headers
  length : contentLength headers none = some (byteLen body)

/-- The bytes of some framed requests. -/
def stream (requests : List Framed) : List UInt8 :=
  requests.flatMap fun r => frame r.headers r.body

/-- The input ends behind the last request. -/
theorem serve_nil : serve floats hash checks fuel server [] = ([], none) := by
  rw [serve]
  split
  · rfl
  · rfl
  · next hmessage =>
    rw [readMessage_nil] at hmessage
    cases hmessage

/-- The server answers the requests of a stream in order. -/
theorem serve_stream (requests : List Framed) (server : LspServer) :
    serve floats hash checks fuel server (stream requests) =
      (((answers floats hash checks fuel server (requests.map Framed.body)).1).flatMap writeMessage,
        (answers floats hash checks fuel server (requests.map Framed.body)).2) := by
  induction requests generalizing server with
  | nil => exact serve_nil
  | cons r requests ih =>
    rw [stream, List.flatMap_cons, serve_message (readMessage_frame r.lines r.length _),
      List.map_cons, answers]
    cases server.handleRequest floats hash checks fuel r.body with
    | error a => rfl
    | ok p =>
      obtain ⟨resp, server'⟩ := p
      dsimp only
      rw [← stream, ih server']
      cases resp with
      | none => rfl
      | some s => rw [Option.toList_some, List.singleton_append, List.flatMap_cons]; rfl

end

/-- The messages of an input, as a client reads them. -/
def readAll (input : List UInt8) : List Str :=
  match _hread : readMessage input with
  | .eof => []
  | .failed => []
  | .message msg rest => msg :: readAll rest
termination_by input.length
decreasing_by exact length_readMessage _hread

theorem readAll_message (h : readMessage input = .message msg rest) :
    readAll input = msg :: readAll rest := by
  rw [readAll]
  split
  · next heof =>
    rw [h] at heof
    cases heof
  · next hfailed =>
    rw [h] at hfailed
    cases hfailed
  · next msg' rest' hmessage =>
    rw [h] at hmessage
    cases hmessage
    rfl

/-- Messages that were written are read back in order. -/
theorem readAll_flatMap {msgs : List Str} (h : ∀ m ∈ msgs, byteLen m < 2 ^ 64) :
    readAll (msgs.flatMap writeMessage) = msgs := by
  induction msgs with
  | nil =>
    rw [List.flatMap_nil, readAll]
    split
    · rfl
    · rfl
    · next hmessage =>
      rw [readMessage_nil] at hmessage
      cases hmessage
  | cons m msgs ih =>
    rw [List.flatMap_cons, readAll_message (readMessage_writeMessage (h m List.mem_cons_self) _),
      ih fun m' hm' => h m' (List.mem_cons_of_mem m hm')]

/-! ## The documents -/

section

variable {F : Type} (floats : Floats F) (hash : HashOrder) (checks : Bool) (fuel : ℕ)

/-- What a request changes in the server. -/
def Request.apply (server : LspServer) : Request F → LspServer
  | .edited uri content =>
    { server with documents := Function.update server.documents uri (some content) }
  | .shutdown _ => { server with shutdownRequested := true }
  | _ => server

/-- The text of a document after some requests: that of the last one that edits it. -/
def lastText (requests : List Str) (uri : Str) : Option Str :=
  requests.reverse.findSome? fun request =>
    match request? floats request with
    | some (.edited uri' content) => if uri' = uri then some content else none
    | _ => none

/-- The answer to a request after others, by the last texts of the documents alone. -/
def answerAt (before : List Str) (request : Str) : Except Abort (Option Str) :=
  (LspServer.handleRequest floats hash checks fuel ⟨lastText floats before, false⟩ request).map
    (·.1)

/-- The answers to some requests after others. -/
def answersAfter (before : List Str) : List Str → List Str × Option Abort
  | [] => ([], none)
  | request :: requests =>
    match answerAt floats hash checks fuel before request with
    | .error a => ([], some a)
    | .ok resp =>
      let r := answersAfter (before ++ [request]) requests
      (resp.toList ++ r.1, r.2)

variable {floats hash checks fuel} {server : LspServer}

/-- What a server answers does not depend on whether it was asked to shut down. -/
theorem answer_documents (request : Request F) :
    server.answer floats hash checks fuel request =
      ((LspServer.answer floats hash checks fuel ⟨server.documents, false⟩ request).map
        fun r => (r.1, request.apply server)) := by
  have hmap : ∀ {α β γ : Type} (e : Except Abort α) (f : α → β) (g : β → γ),
      (e.map f).map g = e.map fun x => g (f x) := fun e f g => by cases e <;> rfl
  cases request with
  | capabilities id => rfl
  | shutdown id => rfl
  | edited uri content => simp only [LspServer.answer, hmap]; rfl
  | didSave uri => simp only [LspServer.answer, hmap]; rfl
  | hover id uri line character => simp only [LspServer.answer, hmap]; rfl
  | completion id => rfl
  | codeAction id uri => rfl
  | formatting id uri => simp only [LspServer.answer, hmap]; rfl
  | semanticTokens id uri => simp only [LspServer.answer, hmap]; rfl
  | unknown id method => rfl

/-- The last texts after one request more. -/
theorem lastText_concat (before : List Str) (request : Str) (shutdown : Bool) :
    lastText floats (before ++ [request]) = ((request? floats request).elim
      (⟨lastText floats before, shutdown⟩ : LspServer)
        (Request.apply ⟨lastText floats before, shutdown⟩)).documents := by
  funext uri
  rw [lastText, List.reverse_append, List.reverse_singleton, List.singleton_append,
    List.findSome?_cons]
  cases hreq : request? floats request with
  | none => rfl
  | some r =>
    cases r with
    | edited uri' content =>
      simp only [Option.elim_some, Request.apply, Function.update_apply]
      by_cases huri : uri' = uri
      · rw [if_pos huri, if_pos huri.symm]
      · rw [if_neg huri, if_neg fun h => huri h.symm]
        rfl
    | _ => rfl

/-- A request is answered by the last texts, and its own text is added to them. -/
theorem handleRequest_lastText (before : List Str) (shutdown : Bool) (request : Str) :
    ∃ shutdown', LspServer.handleRequest floats hash checks fuel
        ⟨lastText floats before, shutdown⟩ request =
      (answerAt floats hash checks fuel before request).map fun resp =>
        (resp, ⟨lastText floats (before ++ [request]), shutdown'⟩) := by
  rw [lastText_concat before request shutdown]
  cases hreq : request? floats request with
  | none =>
    refine ⟨shutdown, ?_⟩
    simp only [answerAt, LspServer.handleRequest, LspServer.handleDoc, hreq]
    rfl
  | some r =>
    refine ⟨(r.apply ⟨lastText floats before, shutdown⟩).shutdownRequested, ?_⟩
    simp only [answerAt, LspServer.handleRequest, LspServer.handleDoc, hreq, Option.elim_some]
    rw [answer_documents]
    cases LspServer.answer floats hash checks fuel ⟨lastText floats before, false⟩ r <;> rfl

/-- The server with the last texts answers as by them alone. -/
theorem answers_lastText (before requests : List Str) (shutdown : Bool) :
    answers floats hash checks fuel ⟨lastText floats before, shutdown⟩ requests =
      answersAfter floats hash checks fuel before requests := by
  induction requests generalizing before shutdown with
  | nil => rfl
  | cons request requests ih =>
    obtain ⟨shutdown', hstep⟩ :=
      @handleRequest_lastText F floats hash checks fuel before shutdown request
    rw [answers, answersAfter, hstep]
    cases answerAt floats hash checks fuel before request with
    | error a => rfl
    | ok resp =>
      have hrest := ih (before ++ [request]) shutdown'
      simp only [Except.map]
      rw [hrest]

/-- A session: a client that sends requests, with any headers, reads back the answers to them in
their order, and each is the answer by the last texts of the documents before it. -/
theorem serve_session (requests : List Framed)
    (hlen : ∀ m ∈ (answersAfter floats hash checks fuel [] (requests.map Framed.body)).1,
      byteLen m < 2 ^ 64) :
    readAll (serve floats hash checks fuel newServer (stream requests)).1 =
        (answersAfter floats hash checks fuel [] (requests.map Framed.body)).1 ∧
      (serve floats hash checks fuel newServer (stream requests)).2 =
        (answersAfter floats hash checks fuel [] (requests.map Framed.body)).2 := by
  have hnew : newServer = ⟨lastText floats [], false⟩ := rfl
  rw [serve_stream, hnew, answers_lastText]
  exact ⟨readAll_flatMap hlen, rfl⟩

end

/-- A request behind two headers. -/
def shutdownFramed : Framed where
  headers := [text "Content-Length: 31", text "Content-Type: text/json"]
  body := shutdownRequest
  lines := by
    have hlines : ([text "Content-Length: 31", text "Content-Type: text/json"].all fun h =>
      decide ('\n' ∉ h) && trimEnd h != []) = true := by decide +kernel
    intro h hmem
    simpa using List.all_eq_true.mp hlines h hmem
  length := by decide +kernel

theorem shutdownFramed_session :
    readAll (serve noFloats inOrder true 0 newServer (stream [shutdownFramed])).1 =
      [(response .null .null).text] := by
  have hanswer : answersAfter noFloats inOrder true 0 [] [shutdownRequest] =
      ([(response .null .null).text], none) := by
    have hhandle := handleDoc_shutdownRequest
    have hnew : newServer = ⟨lastText noFloats [], false⟩ := rfl
    rw [hnew] at hhandle
    rw [answersAfter, answerAt, LspServer.handleRequest, hhandle]
    rfl
  have hsession := @serve_session _ noFloats inOrder true 0 [shutdownFramed] (by
      rw [List.map_singleton, show shutdownFramed.body = shutdownRequest from rfl, hanswer]
      intro m hm
      rw [List.mem_singleton] at hm
      subst hm
      decide +kernel)
  rw [List.map_singleton, show shutdownFramed.body = shutdownRequest from rfl, hanswer] at hsession
  exact hsession.1

end LatencyOS.Lsp
