import LatencyOS.Lib.Cells
import Mathlib.Data.List.DropRight
import Mathlib.Logic.Function.Iterate

/-!
# The editor of the kernel

`PulseEditor` of `editor.rs`: the text stands in the first `buf_len` cells of a fixed buffer.
Every operation checks the indices it uses, as the program does: an index outside the buffer has
no outcome.  The file name, the status line and what is printed are left out.
-/

namespace LatencyOS.Editor

/-!
## A text with a cursor

What the editor is for: a text, cut in two at the cursor, and the commands on it.  A line ends
with a newline, a word with a blank.
-/

/-- The largest text. -/
def maxEditorBuf : ℕ := 4096

/-- What a key does to the text. -/
inductive Command where
  | insertChar (c : UInt8)
  | tab
  | backspace
  | delete
  | cutLine
  | clear
  | left
  | right
  | wordLeft
  | wordRight
  | up (times : ℕ)
  | down (times : ℕ)
  | home
  | lineEnd
  | save
  | run
  | skip

def isNewline (c : UInt8) : Bool := c == 0x0A

/-- A blank, a tab or a newline. -/
def isBlank (c : UInt8) : Bool := c == 0x20 || c == 0x09 || c == 0x0A

/-- A text, cut at the cursor. -/
@[ext] structure Text where
  before : List UInt8
  after : List UInt8

namespace Text

variable (t : Text)

def length : ℕ := t.before.length + t.after.length

/-- The same text with the cursor at a position. -/
def seek (pos : ℕ) : Text :=
  ⟨(t.before ++ t.after).take pos, (t.before ++ t.after).drop pos⟩

/-- A text is inserted at the cursor, if it fits. -/
def insert (s : List UInt8) : Text :=
  if t.length + s.length ≤ maxEditorBuf then ⟨t.before ++ s, t.after⟩ else t

/-- The text before the line of the cursor. -/
def above : List UInt8 := t.before.rdropWhile (! isNewline ·)

/-- The column of the cursor in its line. -/
def col : ℕ := t.before.length - t.above.length

/-- The same column of the line above, or its end. -/
def up : Text :=
  match t.above with
  | [] => t
  | _ :: _ =>
    let prev := t.above.dropLast
    let start := (prev.rdropWhile (! isNewline ·)).length
    t.seek (start + min t.col (prev.length - start))

/-- The same column of the line below, or its end. -/
def down : Text :=
  match t.after.dropWhile (! isNewline ·) with
  | [] => t
  | _ :: below =>
    let start := t.before.length + (t.after.takeWhile (! isNewline ·)).length + 1
    t.seek (start + min t.col (below.takeWhile (! isNewline ·)).length)

def exec : Command → Text
  | .insertChar c => t.insert [c]
  | .tab => t.insert [0x20, 0x20, 0x20, 0x20]
  | .backspace => ⟨t.before.dropLast, t.after⟩
  | .delete => ⟨t.before, t.after.tail⟩
  | .cutLine => ⟨t.above, (t.after.dropWhile (! isNewline ·)).tail⟩
  | .clear => ⟨[], []⟩
  | .left => t.seek (t.before.length - 1)
  | .right => t.seek (min (t.before.length + 1) t.length)
  | .wordLeft => t.seek ((t.before.rdropWhile isBlank).rdropWhile (! isBlank ·)).length
  | .wordRight =>
    let rest := t.after.dropWhile (! isBlank ·)
    t.seek (t.length - (rest.dropWhile isBlank).length)
  | .up times => Nat.iterate up times t
  | .down times => Nat.iterate down times t
  | .home => t.seek t.above.length
  | .lineEnd => t.seek (t.before.length + (t.after.takeWhile (! isNewline ·)).length)
  | .save | .run | .skip => t

end Text

open Cells

/-- The state of the editor. -/
structure PulseEditor where
  buffer : ℕ → UInt8
  bufLen : ℕ
  cursor : ℕ
  topLine : ℕ

namespace PulseEditor

variable (e : PulseEditor)

/-- `load_file`: the contents of the file, if there is one, cut to the size of the buffer. -/
def loadFile (data : Option (List UInt8)) : Option PulseEditor :=
  match data with
  | none => some { e with bufLen := 0, cursor := 0, topLine := 1 }
  | some data => do
    let len := min data.length maxEditorBuf
    let buffer ← copy maxEditorBuf e.buffer 0 (data.take len)
    some ⟨buffer, len, 0, 1⟩

/-- `save_file` and `run_code` read the text as one slice of the buffer. -/
def bytes : Option (List UInt8) :=
  if e.bufLen ≤ maxEditorBuf then some (slice e.buffer 0 e.bufLen) else none

/-- The cells from the cursor on, if any, move up. -/
def makeRoom (len : ℕ) : Option (ℕ → UInt8) :=
  if e.cursor = e.bufLen then some e.buffer
  else shiftUp maxEditorBuf len e.cursor (e.bufLen - e.cursor) e.buffer

/-- The bytes are put at the cursor. -/
def insertAtCursor (s : List UInt8) : Option PulseEditor := do
  let buffer ← e.makeRoom s.length
  let buffer ← copy maxEditorBuf buffer e.cursor s
  some { e with buffer, cursor := e.cursor + s.length, bufLen := e.bufLen + s.length }

/-- `insert_char` -/
def insertChar (c : UInt8) : Option PulseEditor :=
  if e.bufLen < maxEditorBuf - 1 then e.insertAtCursor [c] else some e

/-- `insert_str` -/
def insertStr (s : List UInt8) : Option PulseEditor :=
  if e.bufLen + s.length ≤ maxEditorBuf then e.insertAtCursor s else some e

/-- `count` cells from `start` on are removed. -/
def remove (start count : ℕ) : Option PulseEditor := do
  let buffer ← shiftDown maxEditorBuf count (e.bufLen - count - start) start e.buffer
  some { e with buffer, bufLen := e.bufLen - count }

/-- `delete_char_backspace` -/
def deleteCharBackspace : Option PulseEditor :=
  if e.cursor > 0 then remove { e with cursor := e.cursor - 1 } (e.cursor - 1) 1 else some e

/-- `delete_char_under_cursor` -/
def deleteCharUnderCursor : Option PulseEditor :=
  if e.cursor < e.bufLen then e.remove e.cursor 1 else some e

/-- `move_word_left` -/
def moveWordLeft : Option PulseEditor :=
  if e.cursor = 0 then some e
  else do
    let pos ← scanBack maxEditorBuf (! isBlank ·) e.buffer e.cursor
    let pos ← scanBack maxEditorBuf isBlank e.buffer pos
    some { e with cursor := pos }

/-- `move_word_right` -/
def moveWordRight : Option PulseEditor :=
  if e.cursor ≥ e.bufLen then some e
  else do
    let pos ← scanTo maxEditorBuf isBlank e.buffer (e.bufLen - e.cursor) e.cursor
    let pos ← scanTo maxEditorBuf (! isBlank ·) e.buffer (e.bufLen - pos) pos
    some { e with cursor := pos }

/-- The start of the line of the cursor, as `get_current_line_start_and_col` finds it; the column
is the distance to it. -/
def getCurrentLineStart : Option ℕ := scanBack maxEditorBuf isNewline e.buffer e.cursor

/-- `move_cursor_up` -/
def moveCursorUp : Option PulseEditor := do
  let curLineStart ← e.getCurrentLineStart
  let col := e.cursor - curLineStart
  if curLineStart > 0 then
    let prevLineEnd := curLineStart - 1
    let prevLineStart ← scanBack maxEditorBuf isNewline e.buffer prevLineEnd
    let prevLineLen := prevLineEnd - prevLineStart
    some { e with cursor := prevLineStart + min col prevLineLen }
  else some e

/-- `move_cursor_down`: without a newline after the cursor there is no next line. -/
def moveCursorDown : Option PulseEditor := do
  let curLineStart ← e.getCurrentLineStart
  let col := e.cursor - curLineStart
  let newline ← scanTo maxEditorBuf isNewline e.buffer (e.bufLen - e.cursor) e.cursor
  if newline < e.bufLen then
    let start := newline + 1
    let lineEnd ← scanTo maxEditorBuf isNewline e.buffer (e.bufLen - start) start
    let nextLineLen := lineEnd - start
    some { e with cursor := start + min col nextLineLen }
  else some e

/-- An operation that is made several times. -/
def repeated (f : PulseEditor → Option PulseEditor) : ℕ → PulseEditor → Option PulseEditor
  | 0, e => some e
  | n + 1, e => (f e).bind (repeated f n)

/-- Ctrl+K: the line of the cursor is cut, with its newline. -/
def cutLine : Option PulseEditor := do
  let start ← e.getCurrentLineStart
  let newline ← scanTo maxEditorBuf isNewline e.buffer (e.bufLen - start) start
  let lineEnd := if newline < e.bufLen then newline + 1 else newline
  let count := lineEnd - start
  if count > 0 then remove { e with cursor := start } start count else some e

/-- The Home key. -/
def home : Option PulseEditor := do
  let start ← e.getCurrentLineStart
  some { e with cursor := start }

/-- The End key. -/
def moveEnd : Option PulseEditor := do
  let start ← e.getCurrentLineStart
  let lineEnd ← scanTo maxEditorBuf isNewline e.buffer (e.bufLen - start) start
  some { e with cursor := lineEnd }

end PulseEditor

end LatencyOS.Editor
