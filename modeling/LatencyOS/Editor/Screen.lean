import LatencyOS.Editor.Refine

/-!
# Drawing the text

The three ways `editor.rs` brings the screen up to date.  They look at the buffer through the
lexical marks of the language; what they print is left out, and every index they use is checked.
They change the first line of the screen and nothing else.
-/

namespace LatencyOS.Editor

open Cells

namespace PulseEditor

variable (e : PulseEditor)

/-- One turn of the loop of `get_row_col`. -/
def advance (b : UInt8) (rowCol : ℕ × ℕ) : ℕ × ℕ :=
  if isNewline b then (rowCol.1 + 1, 1)
  else if b == 0x09 then (rowCol.1, rowCol.2 + 4)
  else (rowCol.1, rowCol.2 + 1)

def rowColFrom (buffer : ℕ → UInt8) : ℕ → ℕ → ℕ × ℕ → Option (ℕ × ℕ)
  | 0, _, rowCol => some rowCol
  | n + 1, i, rowCol => do
    let b ← read maxEditorBuf buffer i
    rowColFrom buffer n (i + 1) (advance b rowCol)

/-- `get_row_col` -/
def getRowCol : Option (ℕ × ℕ) := rowColFrom e.buffer e.cursor 0 (1, 1)

/-- The first line of the screen with which a row is on it. -/
def newTop (row : ℕ) : ℕ :=
  let top := if e.topLine = 0 then 1 else e.topLine
  if row < top then row else if row ≥ top + 21 then row - 21 + 1 else top

/-- `adjust_scroll`: whether the first line of the screen changes, and the editor with it. -/
def adjustScroll : Option (Bool × PulseEditor) := do
  let (row, _) ← e.getRowCol
  some (e.newTop row != e.topLine, { e with topLine := e.newTop row })

/-- The row of the screen of a line: the difference is one of unsigned numbers. -/
def screenRow (row : ℕ) : Option ℕ := if e.topLine ≤ row then some (row - e.topLine + 2) else none

/-- A slice of the buffer. -/
def sliceTo (i stop : ℕ) : Option (List UInt8) :=
  if i ≤ stop ∧ stop ≤ maxEditorBuf then some (slice e.buffer i (stop - i)) else none

def isDigit (c : UInt8) : Bool := 0x30 ≤ c && c ≤ 0x39

def isAlphanumeric (c : UInt8) : Bool :=
  isDigit c || (0x41 ≤ c && c ≤ 0x5A) || (0x61 ≤ c && c ≤ 0x7A)

/-- `get_word_len` -/
def getWordLen (pos : ℕ) : Option ℕ := do
  let stop ← scanTo maxEditorBuf (fun c => ! (isAlphanumeric c || c == 0x2E || c == 0x5F)) e.buffer
    (e.bufLen - pos) pos
  let len := stop - pos
  some (if len = 0 ∧ pos < e.bufLen then 1 else len)

/-- `get_time_literal_len` -/
def getTimeLiteralLen (pos : ℕ) : Option ℕ := do
  let stop ← scanTo maxEditorBuf (! isAlphanumeric ·) e.buffer (e.bufLen - pos) pos
  some (stop - pos)

/-- The condition holds and the byte after an index, within a limit, is this one. -/
def followedBy (cond : Bool) (lim i : ℕ) (c : UInt8) : Option Bool :=
  if cond ∧ i + 1 < lim then (read maxEditorBuf e.buffer (i + 1)).map (· == c) else some false

/-- The last two bytes of a literal that is long enough to have a unit. -/
def unitOf (i stop : ℕ) : Option (List UInt8) :=
  if stop - i > 2 then e.sliceTo (stop - 2) stop else some []

/-- Where the drawing stands: the next index, within a comment, within a string. -/
structure Pen where
  i : ℕ
  inComment : Bool
  inString : Bool

/-- A word, an operator, a number or a single byte `b`, outside comments and strings; what is
printed of it ends at `clip`. -/
def drawMark (lim : ℕ) (clip : ℕ → ℕ) (b : UInt8) (i : ℕ) : Option ℕ :=
  if b == 0x40 || b == 0x24 || b == 0x23 then do
    let len ← e.getWordLen i
    let _ ← e.sliceTo i (clip (i + len))
    some (i + len)
  else do
    let assign ← e.followedBy (b == 0x3A || b == 0x2B || b == 0x2D) lim i 0x3D
    let pipe ← e.followedBy (b == 0x7C) lim i 0x3E
    if assign || pipe then some (i + 2)
    else if isDigit b then do
      let len ← e.getTimeLiteralLen i
      let stop := clip (i + len)
      let _ ← e.unitOf i stop
      let _ ← e.sliceTo i stop
      some stop
    else some (i + 1)

/-- The next mark of the text before the limit `lim`. -/
def drawToken (lim : ℕ) (clip : ℕ → ℕ) (p : Pen) : Option Pen := do
  let b ← read maxEditorBuf e.buffer p.i
  if b == 0x09 then some { p with i := p.i + 1 }
  else do
    let slashes ← e.followedBy (! p.inString && b == 0x2F) lim p.i 0x2F
    let inComment := p.inComment || slashes
    if ! inComment && b == 0x22 then some ⟨p.i + 1, inComment, ! p.inString⟩
    else if inComment || p.inString then some ⟨p.i + 1, inComment, p.inString⟩
    else (e.drawMark lim clip b p.i).map fun i => ⟨i, inComment, p.inString⟩

/-- The loop of `redraw_current_line` up to the end of the line, with `fuel` turns at most. -/
def drawLine (lineEnd : ℕ) : ℕ → Pen → Option Unit
  | fuel, p =>
    if p.i < lineEnd then
      match fuel with
      | 0 => none
      | fuel + 1 => do
        let p ← e.drawToken lineEnd (min · lineEnd) p
        drawLine lineEnd fuel p
    else some ()

/-- The loop of `redraw` from a row of the screen on, with `fuel` turns at most. -/
def drawScreen : ℕ → ℕ → Pen → Option Unit
  | fuel, row, p =>
    if p.i < e.bufLen then
      match fuel with
      | 0 => none
      | fuel + 1 => do
        let b ← read maxEditorBuf e.buffer p.i
        if isNewline b then
          if row + 1 ≤ 22 then drawScreen fuel (row + 1) ⟨p.i + 1, false, false⟩ else some ()
        else if row > 22 then some ()
        else
          let p ← e.drawToken e.bufLen id p
          drawScreen fuel row p
    else some ()

/-- The first index of the line at the top of the screen. -/
def topIndex : ℕ → ℕ → ℕ → Option ℕ
  | 0, _, i => some i
  | n + 1, line, i =>
    if line < e.topLine then do
      let b ← read maxEditorBuf e.buffer i
      topIndex n (if isNewline b then line + 1 else line) (i + 1)
    else some i

/-- `redraw` -/
def redraw : Option PulseEditor := do
  let (_, e) ← e.adjustScroll
  let (row, _) ← e.getRowCol
  let start ← e.topIndex e.bufLen 1 0
  e.drawScreen e.bufLen 2 ⟨start, false, false⟩
  let _ ← e.screenRow row
  some e

/-- `redraw_current_line` -/
def redrawCurrentLine : Option PulseEditor := do
  let (scrolled, e) ← e.adjustScroll
  if scrolled then e.redraw
  else
    let (row, _) ← e.getRowCol
    let lineStart ← e.getCurrentLineStart
    if row ≥ e.topLine ∧ row < e.topLine + 21 then
      let lineEnd ← scanTo maxEditorBuf isNewline e.buffer (e.bufLen - lineStart) lineStart
      e.drawLine lineEnd e.bufLen ⟨lineStart, false, false⟩
      some e
    else e.redraw

/-- `update_cursor_only` -/
def updateCursorOnly : Option PulseEditor := do
  let (scrolled, e) ← e.adjustScroll
  if scrolled then e.redraw
  else
    let (row, _) ← e.getRowCol
    let _ ← e.screenRow row
    some e

/-! ## Every index is within the buffer -/

variable {e}

theorem rowColFrom_spec {n i : ℕ} (h : i + n ≤ maxEditorBuf) (b : ℕ → UInt8) (rowCol : ℕ × ℕ) :
    ∃ rowCol', rowColFrom b n i rowCol = some rowCol' := by
  induction n generalizing i rowCol with
  | zero => exact ⟨rowCol, rfl⟩
  | succ n ih =>
    rw [rowColFrom, read_eq (by omega)]
    exact ih (by omega) _

theorem getRowCol_spec (h : e.Bounded) : ∃ rowCol, e.getRowCol = some rowCol := by
  have hle := Nat.le_trans h.cursor h.bufLen
  exact rowColFrom_spec (by omega) _ _

theorem Bounded.withTop (h : e.Bounded) (top : ℕ) : Bounded { e with topLine := top } :=
  ⟨h.cursor, h.bufLen⟩

/-- After scrolling the line of the cursor is not above the screen. -/
theorem adjustScroll_spec (h : e.Bounded) :
    ∃ scrolled top rowCol, e.adjustScroll = some (scrolled, { e with topLine := top }) ∧
      getRowCol { e with topLine := top } = some rowCol ∧ top ≤ rowCol.1 := by
  obtain ⟨rowCol, hrow⟩ := getRowCol_spec h
  refine ⟨_, e.newTop rowCol.1, rowCol, by rw [adjustScroll, hrow]; rfl, hrow, ?_⟩
  rw [newTop]
  generalize (if e.topLine = 0 then 1 else e.topLine) = top
  split
  · exact Nat.le_refl _
  · split <;> omega

theorem topIndex_spec {n i : ℕ} (h : i + n ≤ maxEditorBuf) (line : ℕ) :
    ∃ j, e.topIndex n line i = some j := by
  induction n generalizing i line with
  | zero => exact ⟨i, rfl⟩
  | succ n ih =>
    rw [topIndex]
    split
    · rw [read_eq (by omega)]
      exact ih (by omega) _
    · exact ⟨i, rfl⟩

theorem followedBy_spec (h : e.Bounded) {lim : ℕ} (hlim : lim ≤ e.bufLen) (cond : Bool) (i : ℕ)
    (c : UInt8) : ∃ r, e.followedBy cond lim i c = some r := by
  have hlen := h.bufLen
  rw [followedBy]
  split
  · rw [read_eq (by omega)]
    exact ⟨_, rfl⟩
  · exact ⟨_, rfl⟩

theorem sliceTo_spec {i stop : ℕ} (hle : i ≤ stop) (h : stop ≤ maxEditorBuf) :
    ∃ xs, e.sliceTo i stop = some xs := ⟨_, if_pos ⟨hle, h⟩⟩

/-- Looking on from an index of the text stays in the text. -/
theorem scanTo_bound (h : e.Bounded) (stop : UInt8 → Bool) {i : ℕ} (hi : i ≤ e.bufLen) :
    ∃ j, scanTo maxEditorBuf stop e.buffer (e.bufLen - i) i = some j ∧ i ≤ j ∧ j ≤ e.bufLen := by
  have hlen := h.bufLen
  have hle := (List.takeWhile_prefix (l := slice e.buffer i (e.bufLen - i)) (! stop ·)).length_le
  rw [length_slice] at hle
  exact ⟨_, scanTo_spec stop (by omega), by omega, by omega⟩

theorem getWordLen_spec (h : e.Bounded) {i : ℕ} (hi : i < e.bufLen) :
    ∃ len, e.getWordLen i = some len ∧ 0 < len ∧ i + len ≤ e.bufLen := by
  obtain ⟨j, hj, hle, hbound⟩ :=
    scanTo_bound h (fun c => ! (isAlphanumeric c || c == 0x2E || c == 0x5F)) (Nat.le_of_lt hi)
  refine ⟨_, by rw [getWordLen, hj]; rfl, ?_, ?_⟩
  all_goals split <;> omega

theorem getTimeLiteralLen_spec (h : e.Bounded) {i : ℕ} (hi : i < e.bufLen)
    (hdigit : isDigit (e.buffer i) = true) :
    ∃ len, e.getTimeLiteralLen i = some len ∧ 0 < len ∧ i + len ≤ e.bufLen := by
  obtain ⟨n, hn⟩ : ∃ n, e.bufLen - i = n + 1 := ⟨e.bufLen - i - 1, by omega⟩
  obtain ⟨j, hj, hle, hbound⟩ := scanTo_bound h (! isAlphanumeric ·) (i := i + 1) hi
  have hlen := h.bufLen
  have hfirst : scanTo maxEditorBuf (! isAlphanumeric ·) e.buffer (e.bufLen - i) i = some j := by
    rw [hn, scanTo, read_eq (by omega), Option.bind_eq_bind, Option.bind_some, ← hj]
    simp [isAlphanumeric, hdigit, show e.bufLen - (i + 1) = n by omega]
  exact ⟨j - i, by rw [getTimeLiteralLen, hfirst]; rfl, by omega, by omega⟩

theorem unitOf_spec {i stop : ℕ} (h : stop ≤ maxEditorBuf) : ∃ xs, e.unitOf i stop = some xs := by
  rw [unitOf]
  split
  · exact sliceTo_spec (Nat.sub_le _ _) h
  · exact ⟨[], rfl⟩

theorem drawMark_spec (h : e.Bounded) {lim : ℕ} (hlim : lim ≤ e.bufLen) {clip : ℕ → ℕ} {i : ℕ}
    (hi : i < lim) (hclip : ∀ j, i < j → j ≤ e.bufLen → i < clip j ∧ clip j ≤ j) :
    ∃ i', e.drawMark lim clip (e.buffer i) i = some i' ∧ i < i' := by
  have hlen := h.bufLen
  rw [drawMark]
  split
  · obtain ⟨len, hword, hpos, hle⟩ := getWordLen_spec h (show i < e.bufLen by omega)
    obtain ⟨hlt, hstop⟩ := hclip (i + len) (by omega) hle
    obtain ⟨xs, hslice⟩ := sliceTo_spec (e := e) (Nat.le_of_lt hlt) (by omega)
    refine ⟨i + len, ?_, by omega⟩
    simp only [hword, hslice, Option.bind_eq_bind, Option.bind_some]
  · obtain ⟨assign, hassign⟩ := followedBy_spec h hlim
      (e.buffer i == 0x3A || e.buffer i == 0x2B || e.buffer i == 0x2D) i 0x3D
    obtain ⟨pipe, hpipe⟩ := followedBy_spec h hlim (e.buffer i == 0x7C) i 0x3E
    rw [hassign, Option.bind_eq_bind, Option.bind_some, hpipe, Option.bind_some]
    split
    · exact ⟨i + 2, rfl, by omega⟩
    · split
      case isTrue hdigit =>
        obtain ⟨len, htime, hpos, hle⟩ := getTimeLiteralLen_spec h (by omega) hdigit
        obtain ⟨hlt, hstop⟩ := hclip (i + len) (by omega) hle
        obtain ⟨xs, hslice⟩ := sliceTo_spec (e := e) (Nat.le_of_lt hlt) (by omega)
        obtain ⟨ys, hunit⟩ := unitOf_spec (e := e) (i := i) (show clip (i + len) ≤ _ by omega)
        refine ⟨clip (i + len), ?_, hlt⟩
        simp only [htime, hunit, hslice, Option.bind_eq_bind, Option.bind_some]
      case isFalse => exact ⟨i + 1, rfl, Nat.lt_succ_self i⟩

/-- A mark is drawn within the buffer, and the pen moves on. -/
theorem drawToken_spec (h : e.Bounded) {lim : ℕ} (hlim : lim ≤ e.bufLen) (clip : ℕ → ℕ) {p : Pen}
    (hi : p.i < lim) (hclip : ∀ j, p.i < j → j ≤ e.bufLen → p.i < clip j ∧ clip j ≤ j) :
    ∃ p', e.drawToken lim clip p = some p' ∧ p.i < p'.i := by
  have hlen := h.bufLen
  obtain ⟨slashes, hslashes⟩ :=
    followedBy_spec h hlim (! p.inString && e.buffer p.i == 0x2F) p.i 0x2F
  rw [drawToken, read_eq (by omega), Option.bind_eq_bind, Option.bind_some]
  split
  · exact ⟨_, rfl, Nat.lt_succ_self _⟩
  · simp only [hslashes, Option.bind_eq_bind, Option.bind_some]
    split
    · exact ⟨_, rfl, Nat.lt_succ_self _⟩
    · split
      · exact ⟨_, rfl, Nat.lt_succ_self _⟩
      · obtain ⟨i', hmark, hlt⟩ := drawMark_spec h hlim hi hclip
        rw [hmark]
        exact ⟨_, rfl, hlt⟩

theorem drawLine_spec (h : e.Bounded) {lineEnd : ℕ} (hend : lineEnd ≤ e.bufLen) {fuel : ℕ} {p : Pen}
    (hfuel : lineEnd ≤ p.i + fuel) : e.drawLine lineEnd fuel p = some () := by
  induction fuel generalizing p with
  | zero => rw [drawLine, if_neg (by omega)]
  | succ fuel ih =>
    rw [drawLine]
    split
    case isTrue hi =>
      obtain ⟨p', hp', hlt⟩ := drawToken_spec h hend (min · lineEnd) hi
        fun j hj _ => ⟨Nat.lt_min.mpr ⟨hj, hi⟩, Nat.min_le_left _ _⟩
      rw [hp', Option.bind_eq_bind, Option.bind_some]
      exact ih (by omega)
    case isFalse => rfl

theorem drawScreen_spec (h : e.Bounded) {fuel : ℕ} (row : ℕ) {p : Pen}
    (hfuel : e.bufLen ≤ p.i + fuel) : e.drawScreen fuel row p = some () := by
  have hlen := h.bufLen
  induction fuel generalizing row p with
  | zero => rw [drawScreen, if_neg (by omega)]
  | succ fuel ih =>
    rw [drawScreen]
    split
    case isTrue hi =>
      rw [read_eq (by omega), Option.bind_eq_bind, Option.bind_some]
      split
      · split
        · exact ih _ (by dsimp only; omega)
        · rfl
      · split
        · rfl
        · obtain ⟨p', hp', hlt⟩ := drawToken_spec h (Nat.le_refl _) id hi
            fun j hj _ => ⟨hj, Nat.le_refl j⟩
          rw [hp', Option.bind_eq_bind, Option.bind_some]
          exact ih _ (by omega)
    case isFalse => rfl

/-- The screen is drawn, and only its first line changes. -/
theorem redraw_spec (h : e.Bounded) : ∃ top, e.redraw = some { e with topLine := top } := by
  obtain ⟨scrolled, top, rowCol, hscroll, hrow, hle⟩ := adjustScroll_spec h
  have htop := h.withTop top
  have hlen := h.bufLen
  obtain ⟨start, hstart⟩ := topIndex_spec (e := { e with topLine := top }) (i := 0)
    (n := e.bufLen) (by omega) 1
  refine ⟨top, ?_⟩
  have hdraw : drawScreen { e with topLine := top } e.bufLen 2 ⟨start, false, false⟩ = some () :=
    drawScreen_spec htop 2 (Nat.le_add_left _ _)
  simp only [redraw, hscroll, hrow, hstart, hdraw, screenRow, if_pos hle, Option.bind_eq_bind,
    Option.bind_some]

theorem redrawCurrentLine_spec (h : e.Bounded) :
    ∃ top, e.redrawCurrentLine = some { e with topLine := top } := by
  obtain ⟨scrolled, top, rowCol, hscroll, hrow, hle⟩ := adjustScroll_spec h
  have htop := h.withTop top
  obtain ⟨top', hredraw⟩ := redraw_spec htop
  have hstart := getCurrentLineStart_eq htop
  have habove := Nat.le_trans (length_above_le { e with topLine := top }) h.cursor
  obtain ⟨lineEnd, hend, -, hbound⟩ := scanTo_bound htop isNewline habove
  have hdraw : drawLine { e with topLine := top } lineEnd e.bufLen
      ⟨(text { e with topLine := top }).above.length, false, false⟩ = some () :=
    drawLine_spec htop hbound (Nat.le_trans hbound (Nat.le_add_left _ _))
  rw [redrawCurrentLine, hscroll, Option.bind_eq_bind, Option.bind_some]
  cases scrolled with
  | true => exact ⟨top', hredraw⟩
  | false =>
    simp only [Bool.false_eq_true, if_false, hrow, hstart, hend, hdraw, Option.bind_eq_bind,
      Option.bind_some]
    split
    · exact ⟨top, rfl⟩
    · exact ⟨top', hredraw⟩

theorem updateCursorOnly_spec (h : e.Bounded) :
    ∃ top, e.updateCursorOnly = some { e with topLine := top } := by
  obtain ⟨scrolled, top, rowCol, hscroll, hrow, hle⟩ := adjustScroll_spec h
  obtain ⟨top', hredraw⟩ := redraw_spec (h.withTop top)
  rw [updateCursorOnly, hscroll, Option.bind_eq_bind, Option.bind_some]
  cases scrolled with
  | true => exact ⟨top', hredraw⟩
  | false =>
    refine ⟨top, ?_⟩
    simp only [Bool.false_eq_true, if_false, hrow, screenRow, if_pos hle, Option.bind_eq_bind,
      Option.bind_some]

end PulseEditor

end LatencyOS.Editor
