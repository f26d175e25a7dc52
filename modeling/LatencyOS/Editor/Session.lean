import LatencyOS.Editor.Screen
import LatencyOS.Lib.Trace

/-!
# A session with the editor

`start_editor` loads a file and reads bytes from the serial line: text, control keys and escape
sequences.  When no byte waits, the screen is brought up to date.
-/

namespace LatencyOS.Editor

open Cells

/-! ## Keys -/

/-- `EditorEscState` -/
inductive EscState where
  | normal
  | esc
  | ss3
  | csi (params : ℕ → ℕ) (paramCount : ℕ)

/-- What the reading of bytes remembers. -/
structure Keys where
  escState : EscState := .normal
  lastWasCr : Bool := false
  isRunning : Bool := true

/-- Which part of the screen is out of date after a key. -/
inductive Change where
  | none
  | whole
  | line
  | cursor

/-- What a byte leads to. -/
structure Reaction where
  command : Command
  change : Change
  keys : Keys

/-- A printable ASCII character. -/
def isPrintable (b : UInt8) : Bool := 0x20 ≤ b && b ≤ 0x7E

namespace Keys

variable (k : Keys) (b : UInt8)

/-- A byte outside of escape sequences. -/
def normalKey : Reaction :=
  if b = 0x1B then ⟨.skip, .none, { k with escState := .esc }⟩
  else if b = 0x11 then ⟨.skip, .none, { k with isRunning := false }⟩
  else if b = 0x13 then ⟨.save, .whole, k⟩
  else if b = 0x12 then ⟨.run, .whole, k⟩
  else if b = 0x18 then ⟨.save, .none, { k with isRunning := false }⟩
  else if b = 0x0C then ⟨.skip, .whole, k⟩
  else if b = 0x19 then ⟨.up 20, .whole, k⟩
  else if b = 0x16 then ⟨.down 20, .whole, k⟩
  else if b = 0x0B then ⟨.cutLine, .whole, k⟩
  else if b = 0x15 then ⟨.skip, .whole, k⟩
  else if b = 0x09 then ⟨.tab, .line, { k with lastWasCr := false }⟩
  else if b = 0x08 ∨ b = 0x7F then ⟨.backspace, .whole, { k with lastWasCr := false }⟩
  else if b = 0x0D then ⟨.insertChar 0x0A, .whole, { k with lastWasCr := true }⟩
  else if b = 0x0A then
    if k.lastWasCr then ⟨.skip, .none, { k with lastWasCr := false }⟩
    else ⟨.insertChar 0x0A, .whole, { k with lastWasCr := false }⟩
  else if isPrintable b then ⟨.insertChar b, .line, { k with lastWasCr := false }⟩
  else ⟨.skip, .none, { k with lastWasCr := false }⟩

/-- A byte after an escape. -/
def escKey : Reaction :=
  if b = 0x5B then ⟨.skip, .none, { k with escState := .csi (fun _ => 0) 0 }⟩
  else if b = 0x4F then ⟨.skip, .none, { k with escState := .ss3 }⟩
  else if b = 0x73 ∨ b = 0x53 then ⟨.save, .whole, { k with escState := .normal }⟩
  else if b = 0x72 ∨ b = 0x52 then ⟨.run, .whole, { k with escState := .normal }⟩
  else if b = 0x71 ∨ b = 0x51 then ⟨.skip, .none, { k with isRunning := false }⟩
  else if b = 0x63 ∨ b = 0x43 then ⟨.clear, .whole, { k with escState := .normal }⟩
  else if isPrintable b then ⟨.insertChar b, .line, { k with escState := .normal }⟩
  else ⟨.skip, .none, { k with escState := .normal }⟩

/-- A byte after an escape and `O`. -/
def ss3Key : Reaction :=
  let k : Keys := { k with escState := .normal }
  if b = 0x41 then ⟨.up 1, .cursor, k⟩
  else if b = 0x42 then ⟨.down 1, .cursor, k⟩
  else if b = 0x43 then ⟨.right, .cursor, k⟩
  else if b = 0x44 then ⟨.left, .cursor, k⟩
  else if b = 0x48 then ⟨.home, .cursor, k⟩
  else if b = 0x46 then ⟨.lineEnd, .cursor, k⟩
  else if b = 0x51 then ⟨.save, .whole, k⟩
  else if b = 0x52 then ⟨.skip, .whole, k⟩
  else ⟨.skip, .none, k⟩

/-- A digit is appended to a parameter of 16 bits. -/
def pushDigit (param : ℕ) : ℕ := min (min (param * 10) 65535 + (b.toNat - 0x30)) 65535

/-- A sequence that ends with a tilde. -/
def tildeKey (param : ℕ) : Reaction :=
  let k : Keys := { k with escState := .normal }
  if param = 12 then ⟨.save, .whole, k⟩
  else if param = 15 then ⟨.run, .whole, k⟩
  else if param = 21 then ⟨.skip, .none, { k with isRunning := false }⟩
  else if param = 3 then ⟨.delete, .whole, k⟩
  else if param = 1 ∨ param = 7 then ⟨.home, .cursor, k⟩
  else if param = 4 ∨ param = 8 then ⟨.lineEnd, .cursor, k⟩
  else if param = 5 then ⟨.up 20, .whole, k⟩
  else if param = 6 then ⟨.down 20, .whole, k⟩
  else if param = 200 ∨ param = 201 then ⟨.skip, .whole, k⟩
  else ⟨.skip, .none, k⟩

/-- A byte after an escape and a bracket. -/
def csiKey (params : ℕ → ℕ) (paramCount : ℕ) : Reaction :=
  let done : Keys := { k with escState := .normal }
  let isCtrl := params 0 = 1 ∧ params 1 = 5
  if 0x30 ≤ b ∧ b ≤ 0x39 then
    let params := if paramCount < 4 then
        Function.update params paramCount (pushDigit b (params paramCount))
      else params
    ⟨.skip, .none, { k with escState := .csi params paramCount }⟩
  else if b = 0x3B then
    ⟨.skip, .none,
      { k with escState := .csi params (if paramCount < 3 then paramCount + 1 else paramCount) }⟩
  else if b = 0x41 then ⟨.up (if isCtrl then 5 else 1), .cursor, done⟩
  else if b = 0x42 then ⟨.down (if isCtrl then 5 else 1), .cursor, done⟩
  else if b = 0x43 then ⟨if isCtrl then .wordRight else .right, .cursor, done⟩
  else if b = 0x44 then ⟨if isCtrl then .wordLeft else .left, .cursor, done⟩
  else if b = 0x48 then ⟨.home, .cursor, done⟩
  else if b = 0x46 then ⟨.lineEnd, .cursor, done⟩
  else if b = 0x7E then tildeKey k (params 0)
  else if b = 0x50 then ⟨.delete, .whole, done⟩
  else ⟨.skip, .none, done⟩

/-- A byte, in the state of the escape sequence. -/
def react : Reaction :=
  match k.escState with
  | .normal => k.normalKey b
  | .esc => k.escKey b
  | .ss3 => k.ss3Key b
  | .csi params paramCount => k.csiKey b params paramCount

end Keys

/-! ## Sessions -/

namespace PulseEditor

/-- What a key does to the editor. -/
def exec (e : PulseEditor) : Command → Option PulseEditor
  | .insertChar c => e.insertChar c
  | .tab => e.insertStr [0x20, 0x20, 0x20, 0x20]
  | .backspace => e.deleteCharBackspace
  | .delete => e.deleteCharUnderCursor
  | .cutLine => e.cutLine
  | .clear => some { e with bufLen := 0, cursor := 0 }
  | .left => some (if e.cursor > 0 then { e with cursor := e.cursor - 1 } else e)
  | .right => some (if e.cursor < e.bufLen then { e with cursor := e.cursor + 1 } else e)
  | .wordLeft => e.moveWordLeft
  | .wordRight => e.moveWordRight
  | .up times => repeated moveCursorUp times e
  | .down times => repeated moveCursorDown times e
  | .home => e.home
  | .lineEnd => e.moveEnd
  | .save => e.bytes.map fun _ => e
  | .run => e.bytes.bind fun _ => e.redraw
  | .skip => some e

end PulseEditor

/-- The state of `start_editor`. -/
structure Session where
  keys : Keys
  editor : PulseEditor
  structureChanged : Bool
  lineChanged : Bool
  cursorOnly : Bool

/-- A byte comes in, or none waits. -/
inductive Event where
  | byte (b : UInt8)
  | drained

namespace Session

/-- `start_editor`, up to its loop. -/
def start (prev : PulseEditor) (file : Option (List UInt8)) : Option Session := do
  let editor ← prev.loadFile file
  let editor ← editor.redraw
  some ⟨{}, editor, false, false, false⟩

variable (s : Session)

/-- The screen is brought up to date. -/
def refresh : Option PulseEditor :=
  if s.structureChanged then s.editor.redraw
  else if s.lineChanged then s.editor.redrawCurrentLine
  else if s.cursorOnly then s.editor.updateCursorOnly
  else some s.editor

/-- The loop of `start_editor`: a byte is read while the editor runs. -/
def step : Event → Option Session
  | .byte b =>
    if s.keys.isRunning then do
      let r := s.keys.react b
      let editor ← s.editor.exec r.command
      some
        { keys := r.keys
          editor := editor
          structureChanged := s.structureChanged || r.change matches .whole
          lineChanged := s.lineChanged || r.change matches .line
          cursorOnly := s.cursorOnly || r.change matches .cursor }
    else some s
  | .drained =>
    if s.keys.isRunning then do
      let editor ← s.refresh
      some ⟨s.keys, editor, false, false, false⟩
    else some s

end Session

/-! ## The text of a session -/

/-- A text and the keys that change it. -/
structure Writer where
  keys : Keys
  text : Text

def Writer.step (w : Writer) : Event → Writer
  | .byte b =>
    if w.keys.isRunning then ⟨(w.keys.react b).keys, w.text.exec (w.keys.react b).command⟩ else w
  | .drained => w

/-- A file in the editor: the first part of it that fits, after the cursor. -/
def Writer.load (file : Option (List UInt8)) : Writer :=
  ⟨{}, [], (file.getD []).take maxEditorBuf⟩

namespace PulseEditor

variable {e : PulseEditor}

/-- A character is inserted with more than one cell left, or with none. -/
def Fits (e : PulseEditor) : Command → Prop
  | .insertChar _ => e.bufLen ≠ maxEditorBuf - 1
  | _ => True

theorem bytes_eq (h : e.Bounded) : e.bytes = some (slice e.buffer 0 e.bufLen) := if_pos h.bufLen

/-- An operation that does what its command does, on a text that fits. -/
theorem Reaches.fits {o : Option PulseEditor} {t : Text} {P : Prop} (h : Reaches o t) (hP : P) :
    ∃ e', o = some e' ∧ e'.Bounded ∧ (e'.text = t ↔ P) := by
  obtain ⟨e', he', hbounded, htext⟩ := h
  exact ⟨e', he', hbounded, iff_of_true htext hP⟩

theorem Bounded.drawn (h : e.Bounded) {o : Option PulseEditor}
    (ho : ∃ top, o = some { e with topLine := top }) : Reaches o e.text := by
  obtain ⟨top, htop⟩ := ho
  exact ⟨_, htop, h.withTop top, rfl⟩

theorem left_spec (h : e.Bounded) : Reaches (e.exec .left) (e.text.exec .left) := by
  have hcursor := h.cursor
  rw [exec, Text.exec, Bounded.length_before]
  split
  · exact h.seek (by omega)
  · rw [show e.cursor - 1 = e.cursor by omega, Bounded.seek_self]
    exact h.self

theorem right_spec (h : e.Bounded) : Reaches (e.exec .right) (e.text.exec .right) := by
  have hcursor := h.cursor
  rw [exec, Text.exec, Bounded.length_before, h.length_text]
  split
  case isTrue hlt =>
    rw [Nat.min_eq_left hlt]
    exact h.seek hlt
  case isFalse hge =>
    rw [show min (e.cursor + 1) e.bufLen = e.cursor by omega, Bounded.seek_self]
    exact h.self

/-- Every key stays within the buffer; it does what its command says exactly when no character is
put into the last cell. -/
theorem exec_spec (h : e.Bounded) (c : Command) :
    ∃ e', e.exec c = some e' ∧ e'.Bounded ∧ (e'.text = e.text.exec c ↔ e.Fits c) := by
  cases c with
  | insertChar c => exact insertChar_spec h c
  | tab => exact (insertStr_spec h (List.length_pos_of_ne_nil (List.cons_ne_nil _ _))).fits trivial
  | backspace => exact (deleteCharBackspace_spec h).fits trivial
  | delete => exact (deleteCharUnderCursor_spec h).fits trivial
  | cutLine => exact (cutLine_spec h).fits trivial
  | clear => exact ⟨_, rfl, ⟨Nat.le_refl 0, Nat.zero_le _⟩, iff_of_true rfl trivial⟩
  | left => exact (left_spec h).fits trivial
  | right => exact (right_spec h).fits trivial
  | wordLeft => exact (moveWordLeft_spec h).fits trivial
  | wordRight => exact (moveWordRight_spec h).fits trivial
  | up times => exact (repeated_spec (fun _ => moveCursorUp_spec) times h).fits trivial
  | down times => exact (repeated_spec (fun _ => moveCursorDown_spec) times h).fits trivial
  | home => exact (home_spec h).fits trivial
  | lineEnd => exact (moveEnd_spec h).fits trivial
  | save =>
    rw [exec, bytes_eq h]
    exact h.self.fits trivial
  | run =>
    rw [exec, bytes_eq h]
    exact (h.drawn (redraw_spec h)).fits trivial
  | skip => exact h.self.fits trivial

/-- A file is loaded within the buffer: its first part, after the cursor. -/
theorem loadFile_spec (prev : PulseEditor) (file : Option (List UInt8)) :
    Reaches (prev.loadFile file) ⟨[], (file.getD []).take maxEditorBuf⟩ := by
  cases file with
  | none => exact ⟨_, rfl, ⟨Nat.le_refl 0, Nat.zero_le _⟩, rfl⟩
  | some data =>
    have hlength : (data.take (min data.length maxEditorBuf)).length =
        min data.length maxEditorBuf := by
      rw [List.length_take, Nat.min_eq_left (Nat.min_le_left _ _)]
    obtain ⟨b, hb, hcopied, -⟩ := copy_spec (b := prev.buffer) (i := 0)
      (show 0 + (data.take (min data.length maxEditorBuf)).length ≤ maxEditorBuf by omega)
    refine ⟨⟨b, min data.length maxEditorBuf, 0, 1⟩, ?_,
      ⟨Nat.zero_le _, Nat.min_le_right _ _⟩, ?_⟩
    · rw [loadFile, hb]
      rfl
    · rw [hlength] at hcopied
      rw [text, Nat.sub_zero, hcopied, Nat.min_comm, ← List.take_eq_take_min]
      rfl

end PulseEditor

namespace Session

variable {s : Session}

/-- The text of the session. -/
def writer (s : Session) : Writer := ⟨s.keys, s.editor.text⟩

/-- No character goes into the last cell of the buffer. -/
def SparesLast (s : Session) : Event → Prop
  | .byte b => s.keys.isRunning = true → s.editor.Fits (s.keys.react b).command
  | .drained => True

theorem refresh_spec (h : s.editor.Bounded) : PulseEditor.Reaches s.refresh s.editor.text := by
  rw [refresh]
  split
  · exact h.drawn (PulseEditor.redraw_spec h)
  · split
    · exact h.drawn (PulseEditor.redrawCurrentLine_spec h)
    · split
      · exact h.drawn (PulseEditor.updateCursorOnly_spec h)
      · exact h.self

/-- After quitting nothing changes. -/
theorem step_of_stopped (hstop : s.keys.isRunning = false) (e : Event) :
    s.step e = some s ∧ s.writer.step e = s.writer ∧ s.SparesLast e := by
  cases e with
  | byte b => simp [step, Writer.step, writer, SparesLast, hstop]
  | drained => simp [step, Writer.step, SparesLast, hstop]

/-- A step stays within the buffer; it does what its command says exactly when no character goes
into the last cell. -/
theorem step_spec (h : s.editor.Bounded) (e : Event) :
    ∃ s', s.step e = some s' ∧ s'.editor.Bounded ∧
      (s'.writer = s.writer.step e ↔ s.SparesLast e) := by
  cases hrun : s.keys.isRunning with
  | false =>
    obtain ⟨hstep, hsame, hspares⟩ := step_of_stopped hrun e
    exact ⟨s, hstep, h, iff_of_true hsame.symm hspares⟩
  | true =>
    cases e with
    | byte b =>
      obtain ⟨e', he', hbounded, htext⟩ := PulseEditor.exec_spec h (s.keys.react b).command
      refine ⟨_, by rw [step, if_pos hrun]; dsimp only; rw [he']; rfl, hbounded, ?_⟩
      rw [SparesLast, ← htext, Writer.step, writer, writer, if_pos hrun, Writer.mk.injEq]
      simp only [true_and, hrun, forall_const]
    | drained =>
      obtain ⟨e', he', hbounded, htext⟩ := refresh_spec h
      refine ⟨_, by rw [step, if_pos hrun, he']; rfl, hbounded, iff_of_true ?_ trivial⟩
      rw [Writer.step, writer, htext, writer]

/-- A file is loaded within the buffer. -/
theorem start_spec (prev : PulseEditor) (file : Option (List UInt8)) :
    ∃ s, start prev file = some s ∧ s.editor.Bounded ∧ s.writer = Writer.load file := by
  obtain ⟨e, he, hbounded, htext⟩ := PulseEditor.loadFile_spec prev file
  obtain ⟨top, htop⟩ := PulseEditor.redraw_spec hbounded
  refine ⟨_, by rw [start, he, Option.bind_eq_bind, Option.bind_some, htop]; rfl,
    hbounded.withTop top, ?_⟩
  rw [writer, Writer.load, ← htext]
  rfl

/-- The session shows the text, after every part of the stream, exactly when no character goes
into the last cell. -/
theorem shows_iff (h : s.editor.Bounded) (es : List Event) :
    (∀ es', es' <+: es →
      (runAll step s es').map writer = some (es'.foldl Writer.step s.writer)) ↔
      AlongRun step SparesLast s es :=
  shows_iff_alongRun (I := fun s => s.editor.Bounded) (fun _ e hs => step_spec hs e) h

/-- For every file and every stream of bytes the editor stays within its buffer.  It is the text
with the same commands, after every part of the stream, exactly when no character is inserted
with one cell of the buffer left. -/
theorem editor_refines_iff (prev : PulseEditor) (file : Option (List UInt8)) :
    ∃ s, start prev file = some s ∧ s.writer = Writer.load file ∧
      (∀ es, ∃ s', runAll step s es = some s' ∧ s'.editor.cursor ≤ s'.editor.bufLen ∧
        s'.editor.bufLen ≤ maxEditorBuf) ∧
      ∀ es, (∀ es', es' <+: es →
        (runAll step s es').map writer = some (es'.foldl Writer.step (Writer.load file))) ↔
        AlongRun step SparesLast s es := by
  obtain ⟨s, hs, hbounded, hload⟩ := start_spec prev file
  refine ⟨s, hs, hload, fun es => ?_, fun es => ?_⟩
  · obtain ⟨s', hs', hbounded'⟩ := runAll_invariant (I := fun s => s.editor.Bounded)
      (P := fun _ _ => True)
      (fun _ e h _ => (step_spec h e).imp fun _ h => ⟨h.1, h.2.1⟩) hbounded
      (alongRun_of_forall fun _ _ => trivial)
    exact ⟨s', hs', hbounded'.cursor, hbounded'.bufLen⟩
  · rw [← hload]
    exact shows_iff hbounded es

/-- With 4095 bytes in the buffer, the 4096th character is not inserted. -/
theorem lastCell_unused :
    ∃ s, start ⟨fun _ => 0, 0, 0, 1⟩ (some (.replicate 4095 0x61)) = some s ∧
      ¬ ∀ es', es' <+: [.byte 0x62] →
        (runAll step s es').map writer =
          some (es'.foldl Writer.step (Writer.load (some (.replicate 4095 0x61)))) := by
  obtain ⟨s, hs, hbounded, hload⟩ := start_spec ⟨fun _ => 0, 0, 0, 1⟩ (some (.replicate 4095 0x61))
  refine ⟨s, hs, ?_⟩
  have hlen : s.editor.bufLen = maxEditorBuf - 1 := by
    rw [← hbounded.length_text]
    have htext : s.editor.text = (Writer.load (some (.replicate 4095 0x61))).text :=
      congrArg Writer.text hload
    rw [htext, Writer.load, Text.length, Option.getD_some, List.length_take,
      List.length_replicate]
    rfl
  have hkeys : s.keys = {} := congrArg Writer.keys hload
  rw [← hload, shows_iff hbounded]
  rintro ⟨hspares, -⟩
  rw [SparesLast, hkeys] at hspares
  exact hspares rfl hlen

end Session

end LatencyOS.Editor
