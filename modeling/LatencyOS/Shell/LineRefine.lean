import LatencyOS.Shell.LineEditor

/-!
# The line editor refines a line

Whatever bytes come in and however they are spread over polls, every index is in bounds, the buffer
holds the line of the session that the same bytes make, and the texts passed to `execute_command`
are those of the lines that were ended.
-/

namespace LatencyOS.Shell

open Cells

/-- What `execute_command` is given of a line. -/
def commandText (l : List UInt8) : Str := trim (l.map fun b => Char.ofNat b.toNat)

theorem utf8_ofNat {b : UInt8} (hb : b < 0x80) : utf8 [Char.ofNat b.toNat] = [b] := by
  have hall : ∀ n < 128, utf8 [Char.ofNat n] = [UInt8.ofNat n] := by decide +kernel
  have hn := hall b.toNat (UInt8.lt_iff_toNat_lt.mp hb)
  rwa [UInt8.ofNat_toNat] at hn

/-- ASCII is read as text. -/
theorem fromUtf8_of_ascii {l : List UInt8} (hl : ∀ b ∈ l, b < 0x80) :
    Fs.fromUtf8 l = some (l.map fun b => Char.ofNat b.toNat) := by
  rw [Fs.fromUtf8_eq_some]
  induction l with
  | nil => rfl
  | cons b l ih =>
    have hrest := ih fun c hc => hl c (List.mem_cons_of_mem b hc)
    have happend := utf8_append [Char.ofNat b.toNat] (l.map fun b => Char.ofNat b.toNat)
    rw [utf8_ofNat (hl b List.mem_cons_self), hrest] at happend
    exact happend

namespace Line
variable (l : Line)

theorem seek_of_length_le {pos : ℕ} (h : l.text.length ≤ pos) :
    l.seek pos = l.seek l.text.length := by
  rw [seek, seek, List.take_of_length_le h, List.drop_of_length_le h, List.take_length,
    List.drop_length]

end Line

namespace ShellState

/-! ## What a state stands for -/

/-- The line in the buffer, cut at the cursor. -/
def line (s : ShellState) : Line :=
  ⟨slice s.lineBuf 0 s.cursorPos, slice s.lineBuf s.cursorPos (s.lineLen - s.cursorPos)⟩

/-- The text of a history slot. -/
def slots (s : ShellState) (j : ℕ) : List UInt8 := slice (s.history j) 0 (s.historyLens j)

def decoder (s : ShellState) : Decoder := ⟨s.escState, s.lastWasCr⟩

/-- The state holds what the session says. -/
structure Holds (s : ShellState) (σ : Session) : Prop where
  promptShown : s.promptShown = true
  cursorPos : s.cursorPos ≤ s.lineLen
  line : s.line = σ.line
  slots : s.slots = σ.slots
  historyCount : s.historyCount = σ.count
  historyIdx : s.historyIdx = σ.idx
  executed : s.executed = σ.ended.map commandText
  decoder : s.decoder = σ.decoder

/-- An operation has an outcome, which holds what the session says. -/
def Reaches (o : Option ShellState) (σ : Session) : Prop := ∃ s', o = some s' ∧ s'.Holds σ

variable {s : ShellState} {σ : Session}

namespace Holds

theorem reaches (h : s.Holds σ) : Reaches (some s) σ := ⟨s, rfl, h⟩

theorem before_eq (h : s.Holds σ) : slice s.lineBuf 0 s.cursorPos = σ.line.before :=
  congrArg Line.before h.line

theorem after_eq (h : s.Holds σ) :
    slice s.lineBuf s.cursorPos (s.lineLen - s.cursorPos) = σ.line.after :=
  congrArg Line.after h.line

theorem text_eq (h : s.Holds σ) : slice s.lineBuf 0 s.lineLen = σ.line.text := by
  have hadd := slice_add s.lineBuf 0 s.cursorPos (s.lineLen - s.cursorPos)
  rwa [Nat.add_sub_cancel' h.cursorPos, Nat.zero_add, h.before_eq, h.after_eq] at hadd

theorem length_before (h : s.Holds σ) : σ.line.before.length = s.cursorPos := by
  rw [← h.before_eq, length_slice]

theorem length_after (h : s.Holds σ) : σ.line.after.length = s.lineLen - s.cursorPos := by
  rw [← h.after_eq, length_slice]

theorem length_text (h : s.Holds σ) : σ.line.text.length = s.lineLen := by
  rw [← h.text_eq, length_slice]

theorem lineLen_lt (h : s.Holds σ) (hv : σ.Valid) : s.lineLen < maxLineLen :=
  h.length_text ▸ hv.line.length

theorem seek_self (h : s.Holds σ) : σ.line.seek s.cursorPos = σ.line := by
  rw [← h.length_before, σ.line.seek_self]

/-- The line is all that an edit changes. -/
theorem edit (h : s.Holds σ) {lineBuf : ℕ → UInt8} {lineLen cursorPos : ℕ} {needsRedraw : Bool}
    {l : Line} (hcursor : cursorPos ≤ lineLen) (hbefore : slice lineBuf 0 cursorPos = l.before)
    (hafter : slice lineBuf cursorPos (lineLen - cursorPos) = l.after) :
    Holds { s with lineBuf, lineLen, cursorPos, needsRedraw } { σ with line := l } :=
  ⟨h.promptShown, hcursor, Line.ext hbefore hafter, h.slots, h.historyCount, h.historyIdx,
    h.executed, h.decoder⟩

theorem seek (h : s.Holds σ) {pos : ℕ} (needsRedraw : Bool) (hpos : pos ≤ s.lineLen) :
    Holds { s with cursorPos := pos, needsRedraw } { σ with line := σ.line.seek pos } := by
  refine h.edit hpos ?_ ?_
  · rw [Line.seek, ← h.text_eq, take_slice hpos]
  · rw [Line.seek, ← h.text_eq, drop_slice hpos, Nat.zero_add]

theorem clear (h : s.Holds σ) : s.clear.Holds { σ with line := .empty } :=
  h.edit (Nat.le_refl 0) rfl rfl

/-- The decoder is not looked at by the rest. -/
theorem decode (h : s.Holds σ) (escState : EscapeState) (lastWasCr : Bool) :
    Holds { s with escState, lastWasCr } { σ with decoder := ⟨escState, lastWasCr⟩ } :=
  ⟨h.promptShown, h.cursorPos, h.line, h.slots, h.historyCount, h.historyIdx, h.executed, rfl⟩

/-- Nor is whether to redraw. -/
theorem redraw (h : s.Holds σ) (needsRedraw : Bool) : Holds { s with needsRedraw } σ :=
  ⟨h.promptShown, h.cursorPos, h.line, h.slots, h.historyCount, h.historyIdx, h.executed, h.decoder⟩

end Holds

/-! ## Redrawing -/

theorem redrawLine_spec (h : s.Holds σ) (hv : σ.Valid) : s.redrawLine = some s :=
  if_pos (Nat.le_of_lt (h.lineLen_lt hv))

theorem redrawIfNeeded_spec (h : s.Holds σ) (hv : σ.Valid) : Reaches s.redrawIfNeeded σ := by
  rw [redrawIfNeeded]
  split
  · have hdone := h.redraw false
    exact ⟨_, redrawLine_spec hdone hv, hdone⟩
  · exact h.reaches

/-! ## Moving -/

theorem moveRight_spec (h : s.Holds σ) :
    s.moveRight.Holds { σ with line := σ.line.seek (σ.line.before.length + 1) } := by
  rw [moveRight, h.length_before]
  split
  case isTrue hlt => exact h.seek _ hlt
  case isFalse hge =>
    have hend : s.cursorPos = s.lineLen := Nat.le_antisymm h.cursorPos (Nat.le_of_not_lt hge)
    have hlen : σ.line.text.length ≤ s.cursorPos + 1 := by
      rw [h.length_text]
      omega
    rw [Line.seek_of_length_le _ hlen, h.length_text, ← hend, h.seek_self]
    exact h

theorem moveLeft_spec (h : s.Holds σ) :
    s.moveLeft.Holds { σ with line := σ.line.seek (σ.line.before.length - 1) } := by
  have hcursor := h.cursorPos
  rw [moveLeft, h.length_before]
  split
  case isTrue => exact h.seek _ (by omega)
  case isFalse hzero =>
    rw [show s.cursorPos - 1 = s.cursorPos by omega, h.seek_self]
    exact h

theorem home_spec (h : s.Holds σ) : s.home.Holds { σ with line := σ.line.seek 0 } :=
  h.seek _ (Nat.zero_le _)

theorem lineEnd_spec (h : s.Holds σ) :
    s.lineEnd.Holds { σ with line := σ.line.seek σ.line.text.length } := by
  rw [h.length_text]
  exact h.seek _ (Nat.le_refl _)

theorem moveWordLeft_spec (h : s.Holds σ) (hv : σ.Valid) :
    Reaches s.moveWordLeft { σ with line := σ.line.wordLeft } := by
  have hcursor := h.cursorPos
  have hlen := h.lineLen_lt hv
  rw [moveWordLeft, Line.wordLeft]
  split
  case isTrue hzero =>
    have hnil : σ.line.before = [] := by rw [← h.before_eq, hzero, slice_zero]
    have hself := h.seek_self
    rw [hzero] at hself
    rw [hnil, List.rdropWhile_nil, List.rdropWhile_nil, List.length_nil, hself]
    exact h.reaches
  case isFalse =>
    have hle := (List.rdropWhile_prefix isBlank σ.line.before).length_le
    have hle' := (List.rdropWhile_prefix (! isBlank ·) (σ.line.before.rdropWhile isBlank)).length_le
    rw [h.length_before] at hle
    rw [Option.bind_eq_bind, ← Option.bind_assoc, scanBack_twice _ (by omega), h.before_eq,
      Option.bind_some]
    have hmoved := h.seek s.needsRedraw (Nat.le_trans hle' (Nat.le_trans hle hcursor))
    exact ⟨_, redrawLine_spec hmoved ⟨(Line.text_seek _ _).symm ▸ hv.line, hv.slots⟩, hmoved⟩

theorem moveWordRight_spec (h : s.Holds σ) (hv : σ.Valid) :
    Reaches s.moveWordRight { σ with line := σ.line.wordRight } := by
  have hlen := h.lineLen_lt hv
  rw [moveWordRight, Line.wordRight, h.length_text]
  split
  case isTrue hge =>
    have hend : s.cursorPos = s.lineLen := Nat.le_antisymm h.cursorPos hge
    have hnil : σ.line.after = [] := by rw [← h.after_eq, hend, Nat.sub_self, slice_zero]
    have hself := h.seek_self
    rw [hend] at hself
    rw [hnil, List.dropWhile_nil, List.dropWhile_nil, List.length_nil, Nat.sub_zero, hself]
    exact h.reaches
  case isFalse =>
    rw [Option.bind_eq_bind, ← Option.bind_assoc, scanTo_twice _ h.cursorPos (by omega), h.after_eq,
      Option.bind_some]
    have hmoved := h.seek s.needsRedraw (Nat.sub_le s.lineLen
      ((σ.line.after.dropWhile (! isBlank ·)).dropWhile isBlank).length)
    exact ⟨_, redrawLine_spec hmoved ⟨(Line.text_seek _ _).symm ▸ hv.line, hv.slots⟩, hmoved⟩

/-! ## Editing -/

theorem backspace_spec (h : s.Holds σ) (hv : σ.Valid) :
    Reaches s.backspace { σ with line := σ.line.deleteLeft } := by
  have hcursor := h.cursorPos
  have hlen := h.lineLen_lt hv
  rw [backspace, Line.deleteLeft]
  split
  case isTrue hpos =>
    obtain ⟨b, hb, hbefore, hafter⟩ := shiftDown_cut (b := s.lineBuf)
      (show s.cursorPos - 1 + 1 ≤ s.lineLen by omega) (show s.lineLen ≤ maxLineLen by omega)
    refine ⟨_, by rw [hb, Option.bind_eq_bind, Option.bind_some], h.edit (by omega) ?_ ?_⟩
    · rw [hbefore, List.dropLast_eq_take, h.length_before, ← h.before_eq, take_slice (by omega)]
    · rw [hafter, Nat.sub_add_cancel hpos.1, h.after_eq]
  case isFalse hzero =>
    have hnil : σ.line.before = [] := by
      rw [← h.before_eq, show s.cursorPos = 0 by omega, slice_zero]
    rw [hnil, List.dropLast_nil, ← hnil]
    exact h.reaches

theorem deleteUnderCursor_spec (h : s.Holds σ) (hv : σ.Valid) :
    Reaches s.deleteUnderCursor { σ with line := σ.line.deleteRight } := by
  have hcursor := h.cursorPos
  have hlen := h.lineLen_lt hv
  rw [deleteUnderCursor, Line.deleteRight]
  split
  case isTrue hlt =>
    obtain ⟨b, hb, hbefore, hafter⟩ := shiftDown_cut (b := s.lineBuf)
      (show s.cursorPos + 1 ≤ s.lineLen by omega) (show s.lineLen ≤ maxLineLen by omega)
    refine ⟨_, by rw [hb, Option.bind_eq_bind, Option.bind_some], h.edit (by omega) ?_ ?_⟩
    · rw [hbefore, h.before_eq]
    · rw [hafter, ← h.after_eq, ← List.drop_one, drop_slice (by omega), Nat.sub_sub]
  case isFalse hge =>
    have hnil : σ.line.after = [] := by
      rw [← h.after_eq, show s.lineLen - s.cursorPos = 0 by omega, slice_zero]
    rw [hnil, List.tail_nil, ← hnil]
    exact h.reaches

theorem insertChar_spec (h : s.Holds σ) (b : UInt8) :
    Reaches (s.insertChar b) { σ with line := σ.line.insert b } := by
  have hcursor := h.cursorPos
  rw [insertChar, Line.insert, h.length_text]
  split
  case isFalse => exact h.reaches
  case isTrue hlt =>
    split
    case isTrue hend =>
      refine ⟨_, by rw [write_eq (by omega), Option.bind_eq_bind, Option.bind_some],
        h.edit (by omega) ?_ ?_⟩
      · rw [slice_succ, Nat.zero_add, Function.update_self, slice_update_of_le (by omega),
          h.before_eq]
      · rw [← h.after_eq, hend, Nat.sub_self, Nat.sub_self, slice_zero, slice_zero]
    case isFalse =>
      obtain ⟨room, hroom, hbefore, hafter⟩ := shiftUp_cut (b := s.lineBuf) Nat.one_pos
        hcursor (show s.lineLen + 1 ≤ maxLineLen by omega)
      refine ⟨_, by rw [hroom, Option.bind_eq_bind, Option.bind_some, write_eq (by omega),
        Option.bind_some], h.edit (by omega) ?_ ?_⟩
      · rw [slice_succ, Nat.zero_add, Function.update_self, slice_update_of_le (by omega), hbefore,
          h.before_eq]
      · rw [Nat.add_sub_add_right, slice_update_of_lt (by omega), hafter, h.after_eq]

/-! ## History -/

theorem recall_spec (h : s.Holds σ) (hv : σ.Valid) (idx : ℕ) :
    Reaches (s.recallSlot idx) (σ.select idx) := by
  have hslot : idx % historySize < historySize := Nat.mod_lt _ (by decide)
  have htext : slice (s.history (idx % historySize)) 0 (s.historyLens (idx % historySize)) =
      σ.slots (idx % historySize) := congrFun h.slots _
  have hlen : (σ.slots (idx % historySize)).length = s.historyLens (idx % historySize) := by
    rw [← htext, length_slice]
  have hlt := (hv.slots (idx % historySize)).length
  obtain ⟨b, hb, -, hcopied, -⟩ := copy_cut (b := s.lineBuf)
    (show 0 + (σ.slots (idx % historySize)).length ≤ maxLineLen by omega)
  rw [hlen] at hcopied
  refine ⟨{ s with
    lineBuf := b
    lineLen := s.historyLens (idx % historySize)
    cursorPos := s.historyLens (idx % historySize)
    historyIdx := idx
    needsRedraw := true }, ?_, ?_⟩
  · rw [ShellState.recallSlot, read_eq hslot, Option.bind_eq_bind, Option.bind_some, read_eq hslot,
      Option.bind_eq_bind, Option.bind_some, htext, hb, Option.bind_some]
  · have hafter : slice b (s.historyLens (idx % historySize))
        (s.historyLens (idx % historySize) - s.historyLens (idx % historySize)) = [] := by
      rw [Nat.sub_self, slice_zero]
    exact ⟨h.promptShown, Nat.le_refl _, Line.ext hcopied hafter, h.slots, h.historyCount, rfl,
      h.executed, h.decoder⟩

theorem recallUp_spec (h : s.Holds σ) (hv : σ.Valid) : Reaches s.recallUp (σ.perform .up) := by
  rw [recallUp, Session.perform, h.historyCount, h.historyIdx]
  split
  · exact recall_spec h hv _
  · exact h.reaches

theorem recallDown_spec (h : s.Holds σ) (hv : σ.Valid) :
    Reaches s.recallDown (σ.perform .down) := by
  rw [recallDown, Session.perform, h.historyCount, h.historyIdx]
  split
  · exact recall_spec h hv _
  · exact ⟨_, rfl, h.promptShown, Nat.le_refl _, rfl, h.slots, rfl, rfl, h.executed, h.decoder⟩

theorem saveToHistory_spec (h : s.Holds σ) (hv : σ.Valid) (hne : σ.line.text ≠ []) :
    Reaches (s.saveToHistory σ.line.text)
      { σ with
        slots := Function.update σ.slots (σ.count % historySize) σ.line.text
        count := σ.count + 1
        idx := σ.count + 1 } := by
  have hslot : σ.count % historySize < historySize := Nat.mod_lt _ (by decide)
  have hlt := hv.line.length
  have hlen : min σ.line.text.length maxLineLen = σ.line.text.length := by omega
  obtain ⟨row, hrow, -, hcopied, -⟩ := copy_cut
    (b := s.history (σ.count % historySize)) (show 0 + σ.line.text.length ≤ maxLineLen by omega)
  refine ⟨{ s with
    history := Function.update s.history (σ.count % historySize) row
    historyLens := Function.update s.historyLens (σ.count % historySize) σ.line.text.length
    historyCount := σ.count + 1
    historyIdx := σ.count + 1 }, ?_, ?_⟩
  · rw [saveToHistory, if_neg hne, h.historyCount, hlen]
    dsimp only
    rw [read_eq hslot, Option.bind_eq_bind, Option.bind_some, List.take_length, hrow,
      Option.bind_some, write_eq hslot, Option.bind_eq_bind, Option.bind_some, write_eq hslot,
      Option.bind_eq_bind, Option.bind_some]
  · refine ⟨h.promptShown, h.cursorPos, h.line, ?_, rfl, rfl, h.executed, h.decoder⟩
    ext1 j
    by_cases hj : j = σ.count % historySize
    · rw [hj]
      simp only [slots, Function.update_self]
      exact hcopied
    · simp only [slots, Function.update_of_ne hj]
      exact congrFun h.slots j

/-! ## Bytes -/

theorem Holds.printPrompt (h : s.Holds σ) (hstate : σ.decoder.escState = .normal) :
    s.printPrompt.Holds σ := by
  refine ⟨rfl, h.cursorPos, h.line, h.slots, h.historyCount, h.historyIdx, h.executed, ?_⟩
  rw [← h.decoder] at hstate ⊢
  exact congrArg (Decoder.mk · s.lastWasCr) hstate.symm

/-- The text of the line is executed if it is not empty. -/
theorem endLine_spec (h : s.Holds σ) (hv : σ.Valid) (hstate : σ.decoder.escState = .normal) :
    Reaches s.endLine (σ.perform .enter) := by
  obtain ⟨s₁, hs₁, h₁⟩ := redrawIfNeeded_spec h hv
  have hlen : min s₁.lineLen maxLineLen = s₁.lineLen := by
    have := h₁.lineLen_lt hv
    omega
  rw [endLine, hs₁, Option.bind_eq_bind, Option.bind_some]
  dsimp only
  rw [hlen, h₁.text_eq, Session.perform, Session.endLine]
  by_cases hnil : σ.line.text = []
  · rw [if_pos hnil, if_neg (by rw [← h₁.length_text, hnil]; decide)]
    exact (h₁.clear.printPrompt hstate).reaches
  · obtain ⟨s₂, hs₂, h₂⟩ := saveToHistory_spec h₁ hv hnil
    rw [if_neg hnil, if_pos (by rw [← h₁.length_text]; exact List.length_pos_of_ne_nil hnil), hs₂,
      Option.bind_some, fromUtf8_of_ascii hv.line.ascii]
    refine Holds.reaches (Holds.printPrompt ⟨h₂.promptShown, Nat.le_refl _, rfl, h₂.slots,
      h₂.historyCount, h₂.historyIdx, ?_, h₂.decoder⟩ hstate)
    dsimp only
    rw [h₂.executed, List.map_append, List.map_singleton]
    rfl

/-- The end of an escape sequence. -/
theorem Reaches.escaped {o : Option ShellState} (h : Reaches o σ) (escState : EscapeState) :
    Reaches (o.bind fun s => some { s with escState := escState })
      { σ with decoder := { σ.decoder with escState := escState } } := by
  obtain ⟨s', rfl, h'⟩ := h
  rw [← h'.decoder]
  exact (h'.decode escState s'.lastWasCr).reaches

theorem Holds.latch (h : s.Holds σ) (hstate : s.escState = .normal) (lastWasCr : Bool) :
    Holds { s with lastWasCr } { σ with decoder := ⟨.normal, lastWasCr⟩ } := by
  rw [← hstate]
  exact h.decode s.escState lastWasCr

/-- A newline ends the line, unless it follows a carriage return. -/
theorem newline_spec (h : s.Holds σ) (hv : σ.Valid) (hstate : s.escState = .normal) :
    Reaches (s.newline.bind fun s => some { s with lastWasCr := false })
      (({ σ with decoder := ⟨.normal, false⟩ } : Session).perform
        (if s.lastWasCr then .nothing else .enter)) := by
  rw [newline]
  cases hlatch : s.lastWasCr with
  | true => exact (h.latch hstate false).reaches
  | false =>
    have hdecoder : σ.decoder = ⟨.normal, false⟩ := by
      rw [← h.decoder, decoder, hstate, hlatch]
    obtain ⟨s', hs', h'⟩ := endLine_spec h hv (by rw [hdecoder])
    have hdecoder' : s'.decoder = ⟨.normal, false⟩ := by
      rw [h'.decoder, σ.decoder_perform, hdecoder]
    have hstate' : s'.escState = .normal := congrArg Decoder.escState hdecoder'
    rw [if_neg Bool.false_ne_true, if_neg Bool.false_ne_true, hs', Session.perform_decoder]
    exact (h'.latch hstate' false).reaches

theorem normalByte_spec (h : s.Holds σ) (hv : σ.Valid) (hstate : s.escState = .normal) (b : UInt8) :
    Reaches (s.normalByte b) (σ.step b) := by
  have hdecoder : σ.decoder = ⟨.normal, s.lastWasCr⟩ := by
    rw [← h.decoder, decoder, hstate]
  rw [normalByte, Session.step, hdecoder]
  dsimp only [Decoder.decode]
  by_cases hesc : b = 0x1B
  · rw [if_pos hesc, if_pos hesc]
    exact (h.decode .esc false).reaches
  rw [if_neg hesc, if_neg hesc, ← Session.perform_decoder, Decoder.plainKey]
  by_cases hcr : b = 0x0D
  · rw [if_pos hcr, if_pos hcr, hcr, beq_self_eq_true]
    exact endLine_spec (h.latch hstate true) ⟨hv.line, hv.slots⟩ rfl
  rw [if_neg hcr, if_neg hcr, beq_false_of_ne hcr]
  by_cases hlf : b = 0x0A
  · rw [if_pos hlf, if_pos hlf]
    exact newline_spec h hv hstate
  rw [if_neg hlf, if_neg hlf]
  -- what remains forgets the carriage return first
  have hquiet := h.latch hstate false
  have hvalid : ({ σ with decoder := ⟨.normal, false⟩ } : Session).Valid := ⟨hv.line, hv.slots⟩
  by_cases hback : b = 0x08 ∨ b = 0x7F
  · rw [if_pos hback, if_pos hback]
    exact backspace_spec hquiet hvalid
  rw [if_neg hback, if_neg hback]
  by_cases hint : b = 0x03
  · obtain ⟨s', hs', h'⟩ := redrawIfNeeded_spec hquiet hvalid
    rw [if_pos hint, if_pos hint, hs']
    exact (h'.clear.printPrompt rfl).reaches
  rw [if_neg hint, if_neg hint]
  by_cases hff : b = 0x0C
  · rw [if_pos hff, if_neg (by rw [hff]; decide)]
    exact (hquiet.redraw true).reaches
  rw [if_neg hff]
  by_cases htab : b = 0x09
  · rw [if_pos htab, if_neg (by rw [htab]; decide)]
    exact hquiet.reaches
  rw [if_neg htab]
  split
  · exact insertChar_spec hquiet b
  · exact hquiet.reaches

theorem escByte_spec (h : s.Holds σ) (hstate : s.escState = .esc) (b : UInt8) :
    (s.escByte b).Holds (σ.step b) := by
  have hdecoder : σ.decoder = ⟨.esc, s.lastWasCr⟩ := by
    rw [← h.decoder, decoder, hstate]
  rw [escByte, Session.step, hdecoder]
  dsimp only [Decoder.decode]
  split
  · exact h.decode .csiStart s.lastWasCr
  · split
    · exact h.decode .ss3 s.lastWasCr
    · exact h.decode .normal s.lastWasCr

theorem ss3End_spec (h : s.Holds σ) (hv : σ.Valid) (b : UInt8) :
    Reaches (s.ss3End b) (σ.perform (Decoder.arrow b)) := by
  rw [ss3End, Decoder.arrow]
  by_cases hup : b = 0x41
  · rw [if_pos hup, if_pos hup]
    exact recallUp_spec h hv
  rw [if_neg hup, if_neg hup]
  by_cases hdown : b = 0x42
  · rw [if_pos hdown, if_pos hdown]
    exact recallDown_spec h hv
  rw [if_neg hdown, if_neg hdown]
  by_cases hright : b = 0x43
  · rw [if_pos hright, if_pos hright]
    exact (moveRight_spec h).reaches
  rw [if_neg hright, if_neg hright]
  by_cases hleft : b = 0x44
  · rw [if_pos hleft, if_pos hleft]
    exact (moveLeft_spec h).reaches
  rw [if_neg hleft, if_neg hleft]
  by_cases hhome : b = 0x48
  · rw [if_pos hhome, if_pos hhome]
    exact (home_spec h).reaches
  rw [if_neg hhome, if_neg hhome]
  split
  · exact (lineEnd_spec h).reaches
  · exact h.reaches

theorem ss3Byte_spec (h : s.Holds σ) (hv : σ.Valid) (hstate : s.escState = .ss3) (b : UInt8) :
    Reaches (s.ss3Byte b) (σ.step b) := by
  have hdecoder : σ.decoder = ⟨.ss3, s.lastWasCr⟩ := by
    rw [← h.decoder, decoder, hstate]
  have hend := (ss3End_spec h hv b).escaped .normal
  rw [σ.decoder_perform, hdecoder] at hend
  rw [Session.step, hdecoder]
  exact hend

/-- Without control the arrows are those behind `ESC O`. -/
theorem csiEnd_eq_ss3End {params : List ℕ} {b : UInt8}
    (hright : ¬ (b = 0x43 ∧ isCtrl params = true)) (hleft : ¬ (b = 0x44 ∧ isCtrl params = true))
    (htilde : b ≠ 0x7E) (hdch : b ≠ 0x50) :
    s.csiEnd params b = s.ss3End b := by
  rw [csiEnd, ss3End, if_neg htilde, if_neg hdch]
  by_cases hctrl : isCtrl params = true
  · have hright' : b ≠ 0x43 := fun hb => hright ⟨hb, hctrl⟩
    have hleft' : b ≠ 0x44 := fun hb => hleft ⟨hb, hctrl⟩
    rw [if_neg hright', if_neg hleft', if_neg hright', if_neg hleft']
  · rw [if_neg hctrl, if_neg hctrl]

theorem csiEnd_tilde_spec (h : s.Holds σ) (hv : σ.Valid) (params : List ℕ) :
    Reaches (s.csiEnd params 0x7E) (σ.perform (Decoder.csiKey params 0x7E)) := by
  change Reaches
    (if params.getD 0 0 = 3 then s.deleteUnderCursor
      else if params.getD 0 0 = 1 ∨ params.getD 0 0 = 7 then some s.home
      else if params.getD 0 0 = 4 ∨ params.getD 0 0 = 8 then some s.lineEnd
      else some s)
    (σ.perform
      (if params.getD 0 0 = 3 then .deleteRight
        else if params.getD 0 0 = 1 ∨ params.getD 0 0 = 7 then .home
        else if params.getD 0 0 = 4 ∨ params.getD 0 0 = 8 then .lineEnd
        else .nothing))
  split
  · exact deleteUnderCursor_spec h hv
  · split
    · exact (home_spec h).reaches
    · split
      · exact (lineEnd_spec h).reaches
      · exact h.reaches

theorem csiEnd_spec (h : s.Holds σ) (hv : σ.Valid) (params : List ℕ) (b : UInt8) :
    Reaches (s.csiEnd params b) (σ.perform (Decoder.csiKey params b)) := by
  by_cases hright : b = 0x43 ∧ isCtrl params = true
  · have hend : s.csiEnd params 0x43 = s.moveWordRight := if_pos hright.2
    rw [Decoder.csiKey, if_pos hright, hright.1, hend]
    exact moveWordRight_spec h hv
  by_cases hleft : b = 0x44 ∧ isCtrl params = true
  · have hend : s.csiEnd params 0x44 = s.moveWordLeft := if_pos hleft.2
    rw [Decoder.csiKey, if_neg hright, if_pos hleft, hleft.1, hend]
    exact moveWordLeft_spec h hv
  by_cases htilde : b = 0x7E
  · rw [htilde]
    exact csiEnd_tilde_spec h hv params
  by_cases hdch : b = 0x50
  · rw [hdch]
    exact deleteUnderCursor_spec h hv
  rw [Decoder.csiKey, if_neg hright, if_neg hleft, if_neg htilde, if_neg hdch,
    csiEnd_eq_ss3End hright hleft htilde hdch]
  exact ss3End_spec h hv b

theorem csiByte_spec (h : s.Holds σ) (hv : σ.Valid) {params : List ℕ} {paramCount : ℕ}
    (hstate : s.escState = .csi params paramCount) (b : UInt8) :
    Reaches (s.csiByte params paramCount b) (σ.step b) := by
  have hdecoder : σ.decoder = ⟨.csi params paramCount, s.lastWasCr⟩ := by
    rw [← h.decoder, decoder, hstate]
  rw [csiByte, Session.step, hdecoder]
  dsimp only [Decoder.decode]
  split
  case isTrue => exact (h.decode _ s.lastWasCr).reaches
  case isFalse =>
    split
    case isTrue => exact (h.decode _ s.lastWasCr).reaches
    case isFalse =>
      have hend := (csiEnd_spec h hv params b).escaped .normal
      rw [σ.decoder_perform, hdecoder] at hend
      exact hend

/-- A turn of the loop does what the session does with the byte. -/
theorem byteStep_spec (h : s.Holds σ) (hv : σ.Valid) (b : UInt8) :
    Reaches (s.byteStep b) (σ.step b) := by
  rw [byteStep]
  cases hstate : s.escState with
  | normal => exact normalByte_spec h hv hstate b
  | esc => exact (escByte_spec h hstate b).reaches
  | ss3 => exact ss3Byte_spec h hv hstate b
  | csi params paramCount => exact csiByte_spec h hv hstate b

/-! ## Runs -/

theorem byteSteps_spec (h : s.Holds σ) (hv : σ.Valid) (bytes : List UInt8) :
    Reaches (byteSteps bytes s) (σ.run bytes) := by
  induction bytes generalizing s σ with
  | nil => exact h.reaches
  | cons b bytes ih =>
    obtain ⟨s', hs', h'⟩ := byteStep_spec h hv b
    rw [byteSteps, hs', Session.run_cons]
    exact ih h' (hv.step b)

/-- A poll starts where the one before it ended. -/
theorem Holds.beginPoll (h : s.Holds σ) : s.beginPoll.Holds σ := by
  have hshown : ({ s with needsRedraw := false } : ShellState).promptShown = true := h.promptShown
  rw [ShellState.beginPoll]
  dsimp only
  rw [if_pos hshown]
  exact h.redraw false

theorem pollShell_spec (h : s.beginPoll.Holds σ) (hv : σ.Valid) (bytes : List UInt8) :
    ∃ s', s.pollShell bytes = some s' ∧ s'.beginPoll.Holds (σ.run bytes) := by
  obtain ⟨s₁, hs₁, h₁⟩ := byteSteps_spec h hv bytes
  obtain ⟨s₂, hs₂, h₂⟩ := redrawIfNeeded_spec h₁ (hv.run bytes)
  refine ⟨s₂, ?_, h₂.beginPoll⟩
  rw [pollShell, hs₁, Option.bind_eq_bind, Option.bind_some, hs₂]

theorem polls_spec (h : s.beginPoll.Holds σ) (hv : σ.Valid) (batches : List (List UInt8)) :
    ∃ s', polls batches s = some s' ∧ s'.beginPoll.Holds (σ.run batches.flatten) := by
  induction batches generalizing s σ with
  | nil => exact ⟨s, rfl, h⟩
  | cons bytes batches ih =>
    obtain ⟨s', hs', h'⟩ := pollShell_spec h hv bytes
    rw [polls, hs', List.flatten_cons, Session.run_append]
    exact ih h' (hv.run bytes)

/-- Between two bytes of a poll that follows others. -/
theorem polls_holds (batches : List (List UInt8)) (bytes : List UInt8) :
    ∃ t s, polls batches start = some t ∧ byteSteps bytes t.beginPoll = some s ∧
      s.Holds (Session.start.run (batches.flatten ++ bytes)) := by
  have hstart : start.beginPoll.Holds Session.start :=
    ⟨rfl, Nat.le_refl _, rfl, rfl, rfl, rfl, rfl, rfl⟩
  obtain ⟨t, ht, hbegin⟩ := polls_spec hstart Session.Valid.start batches
  obtain ⟨s, hs, h⟩ := byteSteps_spec hbegin (Session.Valid.start.run _) bytes
  rw [← Session.run_append] at h
  exact ⟨t, s, ht, hs, h⟩

end ShellState

open ShellState

/-- At every moment of every poll the indices are in bounds, the buffer holds the line of the
session, and the texts passed to `execute_command` are those of the lines ended so far. -/
theorem polls_refine (batches : List (List UInt8)) (bytes : List UInt8) :
    ∃ t s, polls batches start = some t ∧ byteSteps bytes t.beginPoll = some s ∧
      s.cursorPos ≤ s.lineLen ∧ s.lineLen ≤ maxLineLen - 1 ∧
      s.line = (Session.start.run (batches.flatten ++ bytes)).line ∧
      s.executed = (Session.start.run (batches.flatten ++ bytes)).ended.map commandText := by
  obtain ⟨t, s, ht, hs, h⟩ := polls_holds batches bytes
  have hlen := h.lineLen_lt (Session.Valid.start.run _)
  exact ⟨t, s, ht, hs, h.cursorPos, Nat.le_sub_one_of_lt hlen, h.line, h.executed⟩

/-- The text of a line in front of which there is a blank is not the line. -/
theorem blankInFront_trimmed :
    ¬ ∀ t, polls [[0x20, 0x61, 0x0D]] start = some t →
      t.executed =
        (Session.start.run [0x20, 0x61, 0x0D]).ended.map
          (List.map fun b => Char.ofNat b.toNat) := by
  intro hall
  obtain ⟨t, s, ht, hs, h⟩ := polls_holds [[0x20, 0x61, 0x0D]] []
  have hbegin : t.executed = s.executed := by
    rw [← Option.some.inj hs, beginPoll]
    dsimp only
    split <;> rfl
  have hexecuted := hbegin.symm.trans (hall t ht)
  rw [h.executed] at hexecuted
  revert hexecuted
  decide +kernel

end LatencyOS.Shell
