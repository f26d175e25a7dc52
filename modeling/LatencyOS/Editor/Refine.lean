import LatencyOS.Editor.PulseEditor

/-!
# The editor holds a text

Every operation of the editor stays within the buffer and does to the text what its command does,
but for `insert_char` when one cell is left.
-/

namespace LatencyOS.Editor

open Cells

namespace PulseEditor

/-- The cursor stands in the text and the text in the buffer. -/
structure Bounded (e : PulseEditor) : Prop where
  cursor : e.cursor ≤ e.bufLen
  bufLen : e.bufLen ≤ maxEditorBuf

/-- The text in the buffer, cut at the cursor. -/
def text (e : PulseEditor) : Text :=
  ⟨slice e.buffer 0 e.cursor, slice e.buffer e.cursor (e.bufLen - e.cursor)⟩

/-- An operation has an outcome, within the bounds, with this text. -/
def Reaches (o : Option PulseEditor) (t : Text) : Prop :=
  ∃ e', o = some e' ∧ e'.Bounded ∧ e'.text = t

variable {e : PulseEditor}

namespace Bounded

theorem append_text (h : e.Bounded) :
    e.text.before ++ e.text.after = slice e.buffer 0 e.bufLen := by
  have := slice_add e.buffer 0 e.cursor (e.bufLen - e.cursor)
  rw [Nat.add_sub_cancel' h.cursor, Nat.zero_add] at this
  exact this.symm

theorem length_text (h : e.Bounded) : e.text.length = e.bufLen := by
  rw [Text.length, ← List.length_append, h.append_text, length_slice]

theorem length_before (e : PulseEditor) : e.text.before.length = e.cursor := length_slice ..

theorem length_after (e : PulseEditor) : e.text.after.length = e.bufLen - e.cursor :=
  length_slice ..

/-- Moving the cursor does not change the text. -/
theorem seek (h : e.Bounded) {pos : ℕ} (hpos : pos ≤ e.bufLen) :
    Reaches (some { e with cursor := pos }) (e.text.seek pos) := by
  refine ⟨_, rfl, ⟨hpos, h.bufLen⟩, ?_⟩
  rw [Text.seek, h.append_text, take_slice hpos, drop_slice hpos, Nat.zero_add, text]

theorem self (h : e.Bounded) : Reaches (some e) e.text := ⟨e, rfl, h, rfl⟩

theorem seek_self (e : PulseEditor) : e.text.seek e.cursor = e.text := by
  rw [Text.seek, ← length_before e, List.take_left, List.drop_left]

end Bounded

/-! ## Inserting -/

theorem makeRoom_spec (h : e.Bounded) {len : ℕ} (hlen : 0 < len)
    (hfit : e.bufLen + len ≤ maxEditorBuf) :
    ∃ b, e.makeRoom len = some b ∧ slice b 0 e.cursor = slice e.buffer 0 e.cursor ∧
      slice b (e.cursor + len) (e.bufLen - e.cursor) =
        slice e.buffer e.cursor (e.bufLen - e.cursor) := by
  rw [makeRoom]
  split
  case isTrue heq => exact ⟨_, rfl, rfl, by rw [heq, Nat.sub_self, slice_zero, slice_zero]⟩
  case isFalse => exact shiftUp_cut hlen h.cursor hfit

theorem insertAtCursor_spec (h : e.Bounded) {s : List UInt8} (hs : 0 < s.length)
    (hfit : e.bufLen + s.length ≤ maxEditorBuf) :
    Reaches (e.insertAtCursor s) ⟨e.text.before ++ s, e.text.after⟩ := by
  have hcursor := h.cursor
  obtain ⟨b, hb, hbefore, hafter⟩ := makeRoom_spec h hs hfit
  obtain ⟨b', hb', hbefore', hcopied, hafter'⟩ := copy_cut (b := b)
    (show e.cursor + s.length ≤ maxEditorBuf by omega)
  refine ⟨⟨b', e.bufLen + s.length, e.cursor + s.length, e.topLine⟩, ?_, ⟨?_, hfit⟩, ?_⟩
  · rw [insertAtCursor, Option.bind_eq_bind, hb, Option.bind_some, hb', Option.bind_some]
  · exact Nat.add_le_add_right hcursor _
  · apply Text.ext
    · change slice b' 0 (e.cursor + s.length) = slice e.buffer 0 e.cursor ++ s
      rw [slice_add, Nat.zero_add, hcopied, hbefore', hbefore]
    · change slice b' (e.cursor + s.length) (e.bufLen + s.length - (e.cursor + s.length)) =
        slice e.buffer e.cursor (e.bufLen - e.cursor)
      rw [Nat.add_sub_add_right, hafter', hafter]

theorem insertStr_spec (h : e.Bounded) {s : List UInt8} (hs : 0 < s.length) :
    Reaches (e.insertStr s) (e.text.insert s) := by
  rw [insertStr, Text.insert, h.length_text]
  split
  case isTrue hfit => exact insertAtCursor_spec h hs hfit
  case isFalse => exact h.self

/-- A character is inserted as its command says, but for the last cell of the buffer. -/
theorem insertChar_spec (h : e.Bounded) (c : UInt8) :
    ∃ e', e.insertChar c = some e' ∧ e'.Bounded ∧
      (e'.text = e.text.exec (.insertChar c) ↔ e.bufLen ≠ maxEditorBuf - 1) := by
  rw [insertChar, Text.exec, Text.insert, h.length_text, List.length_singleton]
  split
  case isTrue hlt =>
    obtain ⟨e', he', hbounded, htext⟩ := insertAtCursor_spec h (s := [c]) Nat.one_pos
      (show e.bufLen + 1 ≤ maxEditorBuf by omega)
    rw [if_pos (by omega)]
    exact ⟨e', he', hbounded, iff_of_true htext (Nat.ne_of_lt hlt)⟩
  case isFalse hge =>
    refine ⟨e, rfl, h, ?_⟩
    by_cases hlast : e.bufLen = maxEditorBuf - 1
    · rw [if_pos (by rw [hlast]; decide)]
      refine iff_of_false (fun heq => ?_) (not_not_intro hlast)
      have := congrArg (fun t => t.before.length) heq
      simp at this
    · have hfull : ¬ e.bufLen + 1 ≤ maxEditorBuf := by
        unfold maxEditorBuf at *
        omega
      rw [if_neg hfull]
      exact iff_of_true rfl hlast

/-! ## Removing -/

/-- The text without the `count` cells from `start` on, with the cursor there. -/
theorem remove_spec (h : e.Bounded) (start count : ℕ) (hcount : start + count ≤ e.bufLen) :
    Reaches (remove { e with cursor := start } start count)
      ⟨slice e.buffer 0 start, slice e.buffer (start + count) (e.bufLen - (start + count))⟩ := by
  obtain ⟨b, hb, hbefore, hafter⟩ := shiftDown_cut (b := e.buffer) hcount h.bufLen
  refine ⟨⟨b, e.bufLen - count, start, e.topLine⟩, ?_, ⟨?_, ?_⟩, Text.ext hbefore hafter⟩
  · rw [remove, Option.bind_eq_bind, hb, Option.bind_some]
  · exact Nat.le_sub_of_add_le hcount
  · exact Nat.le_trans (Nat.sub_le _ _) h.bufLen

theorem deleteCharBackspace_spec (h : e.Bounded) :
    Reaches e.deleteCharBackspace (e.text.exec .backspace) := by
  have hcursor := h.cursor
  rw [deleteCharBackspace, Text.exec]
  split
  case isTrue hpos =>
    have hremove := remove_spec h (e.cursor - 1) 1 (by omega)
    rw [Nat.sub_add_cancel hpos, ← take_slice (n := e.cursor) (Nat.sub_le _ _)] at hremove
    rw [List.dropLast_eq_take, Bounded.length_before]
    exact hremove
  case isFalse hzero =>
    have hnil : e.text.before = [] := by
      rw [text, show e.cursor = 0 by omega]
      rfl
    rw [hnil, List.dropLast_nil, ← hnil]
    exact h.self

theorem deleteCharUnderCursor_spec (h : e.Bounded) :
    Reaches e.deleteCharUnderCursor (e.text.exec .delete) := by
  have hcursor := h.cursor
  rw [deleteCharUnderCursor, Text.exec]
  split
  case isTrue hlt =>
    have hremove := remove_spec h e.cursor 1 hlt
    rw [← Nat.sub_sub, ← drop_slice (by omega), List.drop_one] at hremove
    exact hremove
  case isFalse hge =>
    have hnil : e.text.after = [] := by
      rw [text, show e.bufLen - e.cursor = 0 by omega]
      rfl
    rw [hnil, List.tail_nil, ← hnil]
    exact h.self

/-! ## The line of the cursor -/

theorem getCurrentLineStart_eq (h : e.Bounded) :
    e.getCurrentLineStart = some e.text.above.length :=
  scanBack_spec isNewline (Nat.le_trans h.cursor h.bufLen)

theorem length_above_le (e : PulseEditor) : e.text.above.length ≤ e.cursor := by
  have hprefix : e.text.above <+: e.text.before := List.rdropWhile_prefix _ _
  have hle := hprefix.length_le
  rwa [Bounded.length_before] at hle

theorem slice_above (e : PulseEditor) : slice e.buffer 0 e.text.above.length = e.text.above :=
  slice_of_prefix (List.rdropWhile_prefix (! isNewline ·) e.text.before)

/-- Looking on from a position after the cursor. -/
theorem scanTo_after (h : e.Bounded) (stop : UInt8 → Bool) {m : ℕ}
    (hm : m ≤ e.text.after.length) :
    scanTo maxEditorBuf stop e.buffer (e.bufLen - (e.cursor + m)) (e.cursor + m) =
      some (e.cursor + m + ((e.text.after.drop m).takeWhile (! stop ·)).length) := by
  have hcursor := h.cursor
  have hlen := h.bufLen
  rw [Bounded.length_after] at hm
  rw [scanTo_spec stop (by omega), text, drop_slice hm, Nat.sub_sub]

/-- The end of the line of the cursor, looked for from its start. -/
theorem scanTo_line (h : e.Bounded) :
    scanTo maxEditorBuf isNewline e.buffer (e.bufLen - e.text.above.length) e.text.above.length =
      some (e.cursor + (e.text.after.takeWhile (! isNewline ·)).length) := by
  have hle := length_above_le e
  have hcursor := h.cursor
  have hlen := h.bufLen
  have hbefore : e.text.above ++ e.text.before.rtakeWhile (! isNewline ·) = e.text.before :=
    List.rdropWhile_append_rtakeWhile
  have hsplit : slice e.buffer e.text.above.length (e.bufLen - e.text.above.length) =
      e.text.before.rtakeWhile (! isNewline ·) ++ e.text.after := by
    have happend := h.append_text
    rw [← hbefore, List.append_assoc] at happend
    have hdrop := congrArg (List.drop e.text.above.length) happend
    rw [List.drop_left, drop_slice (by omega), Nat.zero_add] at hdrop
    exact hdrop.symm
  have hlength := congrArg List.length hbefore
  rw [List.length_append, Bounded.length_before] at hlength
  rw [scanTo_spec isNewline (by omega), hsplit, List.takeWhile_append_of_pos, List.length_append,
    ← Nat.add_assoc, hlength]
  exact fun c hc => List.mem_rtakeWhile_imp (p := (! isNewline ·)) hc

/-- What stands after a position after the cursor. -/
theorem slice_after {m : ℕ} (hm : m ≤ e.text.after.length) :
    slice e.buffer (e.cursor + m) (e.bufLen - (e.cursor + m)) = e.text.after.drop m := by
  rw [Bounded.length_after] at hm
  rw [text, drop_slice hm, Nat.sub_sub]

theorem cutLine_spec (h : e.Bounded) : Reaches e.cutLine (e.text.exec .cutLine) := by
  have hle := length_above_le e
  have hcursor := h.cursor
  have hafter := Bounded.length_after e
  have hsum := length_takeWhile_add (! isNewline ·) e.text.after
  have hdrop := drop_length_takeWhile (! isNewline ·) e.text.after
  rw [cutLine, getCurrentLineStart_eq h, Option.bind_eq_bind, Option.bind_some, scanTo_line h,
    Option.bind_some, Text.exec]
  generalize (e.text.after.takeWhile (! isNewline ·)).length = w at *
  -- the line ends at the end of the text, or with a newline that is cut too
  cases hrest : e.text.after.dropWhile (! isNewline ·) with
  | nil =>
    rw [hrest, List.length_nil] at hsum
    rw [if_neg (show ¬ e.cursor + w < e.bufLen by omega)]
    dsimp only
    split
    case isTrue hcount =>
      have hremove := remove_spec h e.text.above.length (e.cursor + w - e.text.above.length)
        (by omega)
      rw [Nat.add_sub_cancel' (show _ ≤ e.cursor + w by omega), slice_above,
        slice_after (by omega), hdrop, hrest] at hremove
      exact hremove
    case isFalse hcount =>
      refine ⟨e, rfl, h, Text.ext ?_ ?_⟩
      · have hcol : e.text.above.length = e.cursor := by omega
        have habove := slice_above e
        rw [hcol] at habove
        exact habove
      · rw [List.tail_nil, List.eq_nil_iff_length_eq_zero]
        omega
  | cons x rest =>
    rw [hrest, List.length_cons] at hsum
    rw [if_pos (show e.cursor + w < e.bufLen by omega)]
    dsimp only
    rw [if_pos (by omega)]
    have hremove := remove_spec h e.text.above.length (e.cursor + w + 1 - e.text.above.length)
      (by omega)
    rw [Nat.add_sub_cancel' (show _ ≤ e.cursor + w + 1 by omega), slice_above, Nat.add_assoc,
      slice_after (by omega), ← List.tail_drop, hdrop, hrest] at hremove
    exact hremove

theorem home_spec (h : e.Bounded) : Reaches e.home (e.text.exec .home) := by
  rw [home, getCurrentLineStart_eq h, Option.bind_eq_bind, Option.bind_some]
  exact h.seek (Nat.le_trans (length_above_le e) h.cursor)

theorem moveEnd_spec (h : e.Bounded) : Reaches e.moveEnd (e.text.exec .lineEnd) := by
  have hcursor := h.cursor
  have hsum := length_takeWhile_add (! isNewline ·) e.text.after
  rw [Bounded.length_after] at hsum
  rw [moveEnd, getCurrentLineStart_eq h, Option.bind_eq_bind, Option.bind_some, scanTo_line h,
    Option.bind_some, Text.exec, Bounded.length_before]
  exact h.seek (by omega)

/-! ## Moving -/

theorem moveWordLeft_spec (h : e.Bounded) : Reaches e.moveWordLeft (e.text.exec .wordLeft) := by
  have hcursor := h.cursor
  have hlen := h.bufLen
  rw [moveWordLeft, Text.exec]
  split
  case isTrue hzero =>
    have hnil : e.text.before = [] := by
      rw [text, hzero]
      rfl
    have hself := Bounded.seek_self e
    rw [hzero] at hself
    rw [hnil, List.rdropWhile_nil, List.rdropWhile_nil, List.length_nil, hself]
    exact h.self
  case isFalse =>
    have hle := (List.rdropWhile_prefix isBlank e.text.before).length_le
    have hle' := (List.rdropWhile_prefix (! isBlank ·) (e.text.before.rdropWhile isBlank)).length_le
    rw [Bounded.length_before] at hle
    rw [Option.bind_eq_bind, ← Option.bind_assoc, scanBack_twice _ (by omega),
      Option.bind_some]
    exact h.seek (Nat.le_trans hle' (Nat.le_trans hle hcursor))

theorem moveWordRight_spec (h : e.Bounded) : Reaches e.moveWordRight (e.text.exec .wordRight) := by
  have hcursor := h.cursor
  rw [moveWordRight, Text.exec, h.length_text]
  split
  case isTrue hend =>
    have hnil : e.text.after = [] := by
      rw [text, show e.bufLen - e.cursor = 0 by omega]
      rfl
    have hself := Bounded.seek_self e
    rw [show e.cursor = e.bufLen by omega] at hself
    rw [hnil, List.dropWhile_nil, List.dropWhile_nil, List.length_nil, Nat.sub_zero, hself]
    exact h.self
  case isFalse =>
    rw [Option.bind_eq_bind, ← Option.bind_assoc,
      scanTo_twice _ hcursor h.bufLen, Option.bind_some]
    exact h.seek (Nat.sub_le _ _)

theorem moveCursorUp_spec (h : e.Bounded) : Reaches e.moveCursorUp e.text.up := by
  have hcursor := h.cursor
  have hlen := h.bufLen
  have hle := length_above_le e
  rw [moveCursorUp, getCurrentLineStart_eq h, Option.bind_eq_bind, Option.bind_some, Text.up]
  cases habove : e.text.above with
  | nil => exact h.self
  | cons x xs =>
    have hlength : (x :: xs).length - 1 = (x :: xs).dropLast.length := by rw [List.length_dropLast]
    have hprefix : (x :: xs).dropLast <+: e.text.before :=
      (List.dropLast_prefix _).trans (habove ▸ List.rdropWhile_prefix _ _)
    have hbound := hprefix.length_le
    rw [Bounded.length_before] at hbound
    have hstart := List.rdropWhile_prefix (! isNewline ·) (x :: xs).dropLast
    have hline := hstart.length_le
    rw [if_pos (List.length_pos_of_ne_nil (List.cons_ne_nil x xs)), hlength]
    dsimp only
    rw [scanBack_spec isNewline (by omega), slice_of_prefix hprefix, Option.bind_some, Text.col,
      Bounded.length_before, habove]
    exact h.seek (by omega)

theorem moveCursorDown_spec (h : e.Bounded) : Reaches e.moveCursorDown e.text.down := by
  have hcursor := h.cursor
  have hafter := Bounded.length_after e
  have hsum := length_takeWhile_add (! isNewline ·) e.text.after
  have hdrop := drop_length_takeWhile (! isNewline ·) e.text.after
  have hfirst := scanTo_after h isNewline (Nat.zero_le _)
  rw [Nat.add_zero, List.drop_zero] at hfirst
  rw [moveCursorDown, getCurrentLineStart_eq h, Option.bind_eq_bind, Option.bind_some]
  dsimp only
  rw [hfirst, Option.bind_some, Text.down, Text.col, Bounded.length_before]
  generalize (e.text.after.takeWhile (! isNewline ·)).length = w at *
  cases hrest : e.text.after.dropWhile (! isNewline ·) with
  | nil =>
    rw [hrest, List.length_nil] at hsum
    rw [if_neg (by omega)]
    exact h.self
  | cons x below =>
    rw [hrest, List.length_cons] at hsum
    have hnext := scanTo_after h isNewline (m := w + 1) (by omega)
    rw [← List.tail_drop, hdrop, hrest, List.tail_cons, ← Nat.add_assoc] at hnext
    have hline := length_takeWhile_add (! isNewline ·) below
    rw [if_pos (by omega), hnext, Option.bind_some, Nat.add_sub_cancel_left]
    exact h.seek (by omega)

/-- An operation made several times does what its command does as often. -/
theorem repeated_spec {f : PulseEditor → Option PulseEditor} {g : Text → Text}
    (hf : ∀ e : PulseEditor, e.Bounded → Reaches (f e) (g e.text)) (n : ℕ) (h : e.Bounded) :
    Reaches (repeated f n e) (Nat.iterate g n e.text) := by
  induction n generalizing e with
  | zero => exact h.self
  | succ n ih =>
    obtain ⟨e', he', hbounded, htext⟩ := hf e h
    rw [repeated, he', Option.bind_some, Function.iterate_succ_apply, ← htext]
    exact ih hbounded

end PulseEditor

end LatencyOS.Editor
