import LatencyOS.Fs.PathBuffer
import LatencyOS.Lib.Cells
import LatencyOS.Shell.Line

/-!
# The line editor of the shell

`poll_shell` of `shell.rs` takes the bytes that have come in and edits a line in a fixed buffer.
Every access of the buffer and of the history checks its index, as the program does: an index out of
bounds has no outcome.  What is printed is left out, but for the slice of the buffer that a redraw
prints.  The commands read no input, so that only their texts are kept.
-/

namespace LatencyOS.Shell

open Cells

/-- The state of the line editor, and the texts passed to `execute_command`. -/
structure ShellState where
  lineBuf : ℕ → UInt8
  lineLen : ℕ
  cursorPos : ℕ
  escState : EscapeState
  history : ℕ → ℕ → UInt8
  historyLens : ℕ → ℕ
  historyCount : ℕ
  historyIdx : ℕ
  promptShown : Bool
  lastWasCr : Bool
  needsRedraw : Bool
  executed : List Str

namespace ShellState

def start : ShellState where
  lineBuf := fun _ => 0
  lineLen := 0
  cursorPos := 0
  escState := .normal
  history := fun _ _ => 0
  historyLens := fun _ => 0
  historyCount := 0
  historyIdx := 0
  promptShown := false
  lastWasCr := false
  needsRedraw := false
  executed := []

variable (s : ShellState)

/-- `print_prompt` -/
def printPrompt : ShellState := { s with promptShown := true, escState := .normal }

/-- `redraw_line` prints the line as one slice of the buffer. -/
def redrawLine : Option ShellState := if s.lineLen ≤ maxLineLen then some s else none

/-- `if needs_redraw` -/
def redrawIfNeeded : Option ShellState :=
  if s.needsRedraw then ({ s with needsRedraw := false } : ShellState).redrawLine else some s

/-! ## History -/

/-- `save_to_history` -/
def saveToHistory (line : List UInt8) : Option ShellState :=
  if line = [] then some s
  else do
    let slot := s.historyCount % historySize
    let len := min line.length maxLineLen
    let row ← read historySize s.history slot
    let row ← copy maxLineLen row 0 (line.take len)
    let history ← write historySize s.history slot row
    let historyLens ← write historySize s.historyLens slot len
    some { s with
      history := history
      historyLens := historyLens
      historyCount := s.historyCount + 1
      historyIdx := s.historyCount + 1 }

/-- The line of a history slot is copied to the buffer. -/
def recallSlot (idx : ℕ) : Option ShellState := do
  let slot := idx % historySize
  let len ← read historySize s.historyLens slot
  let row ← read historySize s.history slot
  let lineBuf ← copy maxLineLen s.lineBuf 0 (slice row 0 len)
  some { s with
    lineBuf := lineBuf
    lineLen := len
    cursorPos := len
    historyIdx := idx
    needsRedraw := true }

/-- The Up key. -/
def recallUp : Option ShellState :=
  if 0 < s.historyCount ∧ 0 < s.historyIdx then s.recallSlot (s.historyIdx - 1) else some s

/-- The Down key. -/
def recallDown : Option ShellState :=
  if s.historyIdx + 1 < s.historyCount then s.recallSlot (s.historyIdx + 1)
  else
    some { s with
      historyIdx := s.historyCount
      lineLen := 0
      cursorPos := 0
      needsRedraw := true }

/-! ## Moving -/

/-- `move_word_left` -/
def moveWordLeft : Option ShellState :=
  if s.cursorPos = 0 then some s
  else do
    let pos ← scanBack maxLineLen (! isBlank ·) s.lineBuf s.cursorPos
    let pos ← scanBack maxLineLen isBlank s.lineBuf pos
    ({ s with cursorPos := pos } : ShellState).redrawLine

/-- `move_word_right` -/
def moveWordRight : Option ShellState :=
  if s.cursorPos ≥ s.lineLen then some s
  else do
    let pos ← scanTo maxLineLen isBlank s.lineBuf (s.lineLen - s.cursorPos) s.cursorPos
    let pos ← scanTo maxLineLen (! isBlank ·) s.lineBuf (s.lineLen - pos) pos
    ({ s with cursorPos := pos } : ShellState).redrawLine

def moveRight : ShellState :=
  if s.cursorPos < s.lineLen then { s with cursorPos := s.cursorPos + 1, needsRedraw := true }
  else s

def moveLeft : ShellState :=
  if 0 < s.cursorPos then { s with cursorPos := s.cursorPos - 1, needsRedraw := true }
  else s

def home : ShellState := { s with cursorPos := 0, needsRedraw := true }

def lineEnd : ShellState := { s with cursorPos := s.lineLen, needsRedraw := true }

/-! ## Editing -/

/-- The Backspace key. -/
def backspace : Option ShellState :=
  if 0 < s.cursorPos ∧ s.cursorPos ≤ s.lineLen ∧ 0 < s.lineLen then do
    let lineBuf ← shiftDown maxLineLen 1 (s.lineLen - 1 - (s.cursorPos - 1)) (s.cursorPos - 1)
      s.lineBuf
    some { s with
      lineBuf := lineBuf
      lineLen := s.lineLen - 1
      cursorPos := s.cursorPos - 1
      needsRedraw := true }
  else some s

/-- The Delete key. -/
def deleteUnderCursor : Option ShellState :=
  if s.cursorPos < s.lineLen ∧ 0 < s.lineLen then do
    let lineBuf ← shiftDown maxLineLen 1 (s.lineLen - 1 - s.cursorPos) s.cursorPos s.lineBuf
    some { s with lineBuf := lineBuf, lineLen := s.lineLen - 1, needsRedraw := true }
  else some s

/-- A printable character. -/
def insertChar (b : UInt8) : Option ShellState :=
  if s.lineLen < maxLineLen - 1 then
    if s.cursorPos = s.lineLen then do
      let lineBuf ← write maxLineLen s.lineBuf s.cursorPos b
      some { s with lineBuf := lineBuf, lineLen := s.lineLen + 1, cursorPos := s.cursorPos + 1 }
    else do
      let lineBuf ← shiftUp maxLineLen 1 s.cursorPos (s.lineLen - s.cursorPos) s.lineBuf
      let lineBuf ← write maxLineLen lineBuf s.cursorPos b
      some { s with
        lineBuf := lineBuf
        lineLen := s.lineLen + 1
        cursorPos := s.cursorPos + 1
        needsRedraw := true }
  else some s

/-- The line is cleared. -/
def clear : ShellState := { s with lineLen := 0, cursorPos := 0 }

/-- A carriage return or a newline that counts: the line is saved, copied and executed. -/
def endLine : Option ShellState := do
  let s ← s.redrawIfNeeded
  let len := min s.lineLen maxLineLen
  let line := slice s.lineBuf 0 len
  if 0 < len then
    let s ← s.saveToHistory line
    match Fs.fromUtf8 line with
    | some cmd =>
      some ({ s.clear with executed := s.executed ++ [trim cmd] } : ShellState).printPrompt
    | none => some s.clear.printPrompt
  else some s.clear.printPrompt

/-- A newline behind a carriage return does not count. -/
def newline : Option ShellState := if s.lastWasCr then some s else s.endLine

/-! ## Bytes -/

/-- A byte outside of escape sequences. -/
def normalByte (b : UInt8) : Option ShellState :=
  if b = 0x1B then some { s with escState := .esc, lastWasCr := false }
  else if b = 0x0D then ({ s with lastWasCr := true } : ShellState).endLine
  else if b = 0x0A then do
    let s ← s.newline
    some { s with lastWasCr := false }
  else if b = 0x08 ∨ b = 0x7F then ({ s with lastWasCr := false } : ShellState).backspace
  else if b = 0x03 then do
    let s ← ({ s with lastWasCr := false } : ShellState).redrawIfNeeded
    some s.clear.printPrompt
  else if b = 0x0C then some { s with lastWasCr := false, needsRedraw := true }
  else if b = 0x09 then some { s with lastWasCr := false }
  else if 0x20 ≤ b ∧ b ≤ 0x7E then ({ s with lastWasCr := false } : ShellState).insertChar b
  else some { s with lastWasCr := false }

/-- A byte behind `ESC`. -/
def escByte (b : UInt8) : ShellState :=
  if b = 0x5B then { s with escState := .csiStart }
  else if b = 0x4F then { s with escState := .ss3 }
  else { s with escState := .normal }

/-- What a byte behind `ESC O` does. -/
def ss3End (b : UInt8) : Option ShellState :=
  if b = 0x41 then s.recallUp
  else if b = 0x42 then s.recallDown
  else if b = 0x43 then some s.moveRight
  else if b = 0x44 then some s.moveLeft
  else if b = 0x48 then some s.home
  else if b = 0x46 then some s.lineEnd
  else some s

/-- A byte behind `ESC O`. -/
def ss3Byte (b : UInt8) : Option ShellState := do
  let s ← s.ss3End b
  some { s with escState := .normal }

/-- A byte that ends a sequence behind `ESC [`. -/
def csiEnd (params : List ℕ) (b : UInt8) : Option ShellState :=
  if b = 0x41 then s.recallUp
  else if b = 0x42 then s.recallDown
  else if b = 0x43 then if isCtrl params then s.moveWordRight else some s.moveRight
  else if b = 0x44 then if isCtrl params then s.moveWordLeft else some s.moveLeft
  else if b = 0x48 then some s.home
  else if b = 0x46 then some s.lineEnd
  else if b = 0x7E then
    if params.getD 0 0 = 3 then s.deleteUnderCursor
    else if params.getD 0 0 = 1 ∨ params.getD 0 0 = 7 then some s.home
    else if params.getD 0 0 = 4 ∨ params.getD 0 0 = 8 then some s.lineEnd
    else some s
  else if b = 0x50 then s.deleteUnderCursor
  else some s

/-- A byte behind `ESC [`. -/
def csiByte (params : List ℕ) (paramCount : ℕ) (b : UInt8) : Option ShellState :=
  if 0x30 ≤ b ∧ b ≤ 0x39 then
    some { s with escState := .csi (pushDigit params paramCount b) paramCount }
  else if b = 0x3B then
    some { s with
      escState := .csi params (if paramCount < 3 then paramCount + 1 else paramCount) }
  else do
    let s ← s.csiEnd params b
    some { s with escState := .normal }

/-- A turn of the loop of `poll_shell`. -/
def byteStep (b : UInt8) : Option ShellState :=
  match s.escState with
  | .normal => s.normalByte b
  | .esc => some (s.escByte b)
  | .ss3 => s.ss3Byte b
  | .csi params paramCount => s.csiByte params paramCount b

/-- The loop of `poll_shell` over the bytes that have come in. -/
def byteSteps : List UInt8 → ShellState → Option ShellState
  | [], s => some s
  | b :: bytes, s => do
    let s ← s.byteStep b
    byteSteps bytes s

/-- What `poll_shell` does before its loop. -/
def beginPoll : ShellState :=
  let s := { s with needsRedraw := false }
  if s.promptShown then s else s.printPrompt

/-- `poll_shell`, with the bytes that have come in. -/
def pollShell (bytes : List UInt8) : Option ShellState := do
  let s ← byteSteps bytes s.beginPoll
  s.redrawIfNeeded

/-- One poll after another. -/
def polls : List (List UInt8) → ShellState → Option ShellState
  | [], s => some s
  | bytes :: batches, s => do
    let s ← s.pollShell bytes
    polls batches s

end ShellState

end LatencyOS.Shell
