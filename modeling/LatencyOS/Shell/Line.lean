import Mathlib.Data.List.DropRight
import Mathlib.Logic.Function.Basic

/-!
# A line with a cursor

What the line editor of the shell is for: a line, cut in two at the cursor, the keys that edit it,
and the lines ended so far.  Bytes are decoded to keys on their own, by a machine that follows
escape sequences and remembers a carriage return.
-/

namespace LatencyOS.Shell

/-- `MAX_LINE_LEN` -/
def maxLineLen : ℕ := 128

/-- `HISTORY_SIZE` -/
def historySize : ℕ := 8

/-! ## Keys -/

/-- Where the decoder stands in an escape sequence. -/
inductive EscapeState
  | normal
  | esc
  | ss3
  | csi (params : List ℕ) (paramCount : ℕ)
  deriving DecidableEq

/-- A sequence that starts with `ESC [`. -/
def EscapeState.csiStart : EscapeState := .csi [0, 0, 0, 0] 0

/-- `saturating_mul` by ten and `saturating_add` of a digit, in 16 bits. -/
def saturatingDigit (param : ℕ) (b : UInt8) : ℕ :=
  min (min (param * 10) 65535 + (b.toNat - 0x30)) 65535

/-- The parameters behind a digit. -/
def pushDigit (params : List ℕ) (paramCount : ℕ) (b : UInt8) : List ℕ :=
  if paramCount < 4 then params.set paramCount (saturatingDigit (params.getD paramCount 0) b)
  else params

/-- `ESC [ 1 ; 5` is held control. -/
def isCtrl (params : List ℕ) : Bool := params.getD 0 0 == 1 && params.getD 1 0 == 5

/-- What bytes are decoded to. -/
inductive Key
  | insert (c : UInt8)
  | deleteLeft
  | deleteRight
  | left
  | right
  | wordLeft
  | wordRight
  | home
  | lineEnd
  | up
  | down
  | enter
  | interrupt
  | nothing
  deriving DecidableEq

/-- The decoder: its place in an escape sequence, and whether a carriage return was the last. -/
structure Decoder where
  escState : EscapeState
  lastWasCr : Bool
  deriving DecidableEq

namespace Decoder
variable (d : Decoder)

/-- The arrow and position keys that both kinds of sequences share. -/
def arrow (b : UInt8) : Key :=
  if b = 0x41 then .up
  else if b = 0x42 then .down
  else if b = 0x43 then .right
  else if b = 0x44 then .left
  else if b = 0x48 then .home
  else if b = 0x46 then .lineEnd
  else .nothing

/-- The key that ends a sequence with parameters. -/
def csiKey (params : List ℕ) (b : UInt8) : Key :=
  if b = 0x43 ∧ isCtrl params = true then .wordRight
  else if b = 0x44 ∧ isCtrl params = true then .wordLeft
  else if b = 0x7E then
    if params.getD 0 0 = 3 then .deleteRight
    else if params.getD 0 0 = 1 ∨ params.getD 0 0 = 7 then .home
    else if params.getD 0 0 = 4 ∨ params.getD 0 0 = 8 then .lineEnd
    else .nothing
  else if b = 0x50 then .deleteRight
  else arrow b

/-- The key of a byte outside of sequences.  A newline behind a carriage return is none. -/
def plainKey (b : UInt8) : Key :=
  if b = 0x0D then .enter
  else if b = 0x0A then if d.lastWasCr then .nothing else .enter
  else if b = 0x08 ∨ b = 0x7F then .deleteLeft
  else if b = 0x03 then .interrupt
  else if 0x20 ≤ b ∧ b ≤ 0x7E then .insert b
  else .nothing

/-- A byte is decoded. -/
def decode (b : UInt8) : Key × Decoder :=
  match d.escState with
  | .normal =>
    if b = 0x1B then (.nothing, ⟨.esc, false⟩)
    else (d.plainKey b, ⟨.normal, b == 0x0D⟩)
  | .esc =>
    if b = 0x5B then (.nothing, { d with escState := .csiStart })
    else if b = 0x4F then (.nothing, { d with escState := .ss3 })
    else (.nothing, { d with escState := .normal })
  | .ss3 => (arrow b, { d with escState := .normal })
  | .csi params paramCount =>
    if 0x30 ≤ b ∧ b ≤ 0x39 then
      (.nothing, { d with escState := .csi (pushDigit params paramCount b) paramCount })
    else if b = 0x3B then
      (.nothing,
        { d with escState := .csi params (if paramCount < 3 then paramCount + 1 else paramCount) })
    else (csiKey params b, { d with escState := .normal })

/-! Only a printable byte outside of sequences is inserted. -/

variable {b c : UInt8}

theorem arrow_ne_insert : arrow b ≠ .insert c := by
  rw [arrow]
  repeat' split
  all_goals exact nofun

theorem csiKey_ne_insert {params : List ℕ} : csiKey params b ≠ .insert c := by
  rw [csiKey]
  repeat' split
  all_goals first | exact arrow_ne_insert | exact nofun

theorem plainKey_insert {d : Decoder} (h : d.plainKey b = .insert c) : c < 0x80 := by
  rw [plainKey] at h
  split_ifs at h with _ _ _ _ _ hb
  rw [← Key.insert.inj h]
  exact UInt8.lt_of_le_of_lt hb.2 (by decide)

theorem decode_insert {d : Decoder} (h : (d.decode b).1 = .insert c) : c < 0x80 := by
  obtain ⟨escState, lastWasCr⟩ := d
  cases escState with
  | normal =>
    dsimp only [decode] at h
    split_ifs at h
    exact plainKey_insert h
  | esc =>
    dsimp only [decode] at h
    split_ifs at h
  | ss3 => exact absurd h arrow_ne_insert
  | csi params paramCount =>
    dsimp only [decode] at h
    split_ifs at h
    exact absurd h csiKey_ne_insert

end Decoder

/-! ## Lines -/

/-- A line, cut at the cursor. -/
@[ext] structure Line where
  before : List UInt8
  after : List UInt8
  deriving DecidableEq

def isBlank (c : UInt8) : Bool := c == 0x20

namespace Line
variable (l : Line)

def text : List UInt8 := l.before ++ l.after

/-- The same line with the cursor at a position. -/
def seek (pos : ℕ) : Line := ⟨l.text.take pos, l.text.drop pos⟩

/-- A character is inserted at the cursor, unless the line is full. -/
def insert (c : UInt8) : Line :=
  if l.text.length < maxLineLen - 1 then ⟨l.before ++ [c], l.after⟩ else l

def deleteLeft : Line := ⟨l.before.dropLast, l.after⟩

def deleteRight : Line := ⟨l.before, l.after.tail⟩

/-- Blanks, then the word in front of them. -/
def wordLeft : Line := l.seek ((l.before.rdropWhile isBlank).rdropWhile (! isBlank ·)).length

/-- The rest of a word, then the blanks behind it. -/
def wordRight : Line :=
  l.seek (l.text.length - ((l.after.dropWhile (! isBlank ·)).dropWhile isBlank).length)

def empty : Line := ⟨[], []⟩

/-- What a key does to the line alone. -/
def edit : Key → Line
  | .insert c => l.insert c
  | .deleteLeft => l.deleteLeft
  | .deleteRight => l.deleteRight
  | .left => l.seek (l.before.length - 1)
  | .right => l.seek (l.before.length + 1)
  | .wordLeft => l.wordLeft
  | .wordRight => l.wordRight
  | .home => l.seek 0
  | .lineEnd => l.seek l.text.length
  | .interrupt => empty
  | .up | .down | .enter | .nothing => l

/-- A line with the cursor at its end. -/
def recalled (s : List UInt8) : Line := ⟨s, []⟩

@[simp] theorem text_seek (pos : ℕ) : (l.seek pos).text = l.text := List.take_append_drop ..

theorem seek_self : l.seek l.before.length = l := by
  apply Line.ext
  · exact List.take_left
  · exact List.drop_left

@[simp] theorem text_empty : empty.text = [] := rfl

@[simp] theorem text_recalled (s : List UInt8) : (recalled s).text = s := List.append_nil s

theorem deleteLeft_sublist : l.deleteLeft.text.Sublist l.text :=
  (List.dropLast_sublist l.before).append_right l.after

theorem deleteRight_sublist : l.deleteRight.text.Sublist l.text :=
  (List.tail_sublist l.after).append_left l.before

end Line

/-- What a line can hold: ASCII, and one less than the buffer has cells. -/
structure IsLine (s : List UInt8) : Prop where
  length : s.length < maxLineLen
  ascii : ∀ c ∈ s, c < 0x80

namespace IsLine

theorem nil : IsLine [] := ⟨by decide, fun _ h => absurd h (List.not_mem_nil)⟩

theorem of_sublist {s t : List UInt8} (hst : s.Sublist t) (ht : IsLine t) : IsLine s where
  length := Nat.lt_of_le_of_lt hst.length_le ht.length
  ascii := fun c hc => ht.ascii c (hst.mem hc)

theorem insert {l : Line} (h : IsLine l.text) {c : UInt8} (hc : c < 0x80) :
    IsLine (l.insert c).text := by
  rw [Line.insert]
  split
  case isTrue hlt =>
    have hperm : (Line.mk (l.before ++ [c]) l.after).text.Perm (c :: l.text) := by
      rw [Line.text, Line.text, List.append_assoc]
      exact List.perm_middle
    refine ⟨?_, fun b hb => ?_⟩
    · rw [hperm.length_eq, List.length_cons]
      omega
    · rcases List.mem_cons.mp (hperm.mem_iff.mp hb) with rfl | hmem
      · exact hc
      · exact h.ascii b hmem
  case isFalse => exact h

end IsLine

/-! ## Sessions -/

/-- The line, the texts of the history slots with the two counters, and the lines ended so far. -/
structure Session where
  line : Line
  slots : ℕ → List UInt8
  count : ℕ
  idx : ℕ
  ended : List (List UInt8)
  decoder : Decoder

namespace Session
variable (s : Session)

def start : Session := ⟨.empty, fun _ => [], 0, 0, [], ⟨.normal, false⟩⟩

/-- The line is replaced by the text of the slot that an index selects. -/
def select (idx : ℕ) : Session :=
  { s with idx := idx, line := .recalled (s.slots (idx % historySize)) }

/-- The line is ended; an empty one is not a command. -/
def endLine : Session :=
  if s.line.text = [] then { s with line := .empty }
  else
    { s with
      line := .empty
      slots := Function.update s.slots (s.count % historySize) s.line.text
      count := s.count + 1
      idx := s.count + 1
      ended := s.ended ++ [s.line.text] }

/-- What a key does. -/
def perform : Key → Session
  | .up => if 0 < s.count ∧ 0 < s.idx then s.select (s.idx - 1) else s
  | .down => if s.idx + 1 < s.count then s.select (s.idx + 1) else
      { s with idx := s.count, line := .empty }
  | .enter => s.endLine
  | k => { s with line := s.line.edit k }

/-- A byte is decoded, and its key performed. -/
def step (b : UInt8) : Session :=
  { s.perform (s.decoder.decode b).1 with decoder := (s.decoder.decode b).2 }

def run (bytes : List UInt8) : Session := bytes.foldl step s

theorem run_cons (b : UInt8) (bytes : List UInt8) : s.run (b :: bytes) = (s.step b).run bytes := rfl

theorem run_append (bytes bytes' : List UInt8) :
    s.run (bytes ++ bytes') = (s.run bytes).run bytes' :=
  List.foldl_append

/-- A key leaves the decoder alone, and does not look at it. -/
theorem perform_decoder (k : Key) (d : Decoder) :
    ({ s with decoder := d } : Session).perform k = { s.perform k with decoder := d } := by
  cases k <;> simp only [perform, endLine, select] <;> split <;> rfl

theorem decoder_perform (k : Key) : (s.perform k).decoder = s.decoder :=
  (congrArg decoder (s.perform_decoder k s.decoder) :)

/-- The line and the history hold lines. -/
structure Valid : Prop where
  line : IsLine s.line.text
  slots : ∀ j, IsLine (s.slots j)

variable {s}

namespace Valid

theorem start : Session.start.Valid := ⟨IsLine.nil, fun _ => IsLine.nil⟩

theorem seek (h : s.Valid) (pos : ℕ) : ({ s with line := s.line.seek pos } : Session).Valid :=
  ⟨(s.line.text_seek pos).symm ▸ h.line, h.slots⟩

theorem select (h : s.Valid) (idx : ℕ) : (s.select idx).Valid :=
  ⟨(Line.text_recalled _).symm ▸ h.slots _, h.slots⟩

theorem endLine (h : s.Valid) : s.endLine.Valid := by
  rw [Session.endLine]
  split
  case isTrue => exact ⟨IsLine.nil, h.slots⟩
  case isFalse =>
    refine ⟨IsLine.nil, fun j => ?_⟩
    by_cases hj : j = s.count % historySize
    · rw [hj]
      dsimp only
      rw [Function.update_self]
      exact h.line
    · dsimp only
      rw [Function.update_of_ne hj]
      exact h.slots j

theorem perform (h : s.Valid) {k : Key} (hk : ∀ c, k = .insert c → c < 0x80) :
    (s.perform k).Valid := by
  cases k with
  | insert c => exact ⟨h.line.insert (hk c rfl), h.slots⟩
  | deleteLeft => exact ⟨h.line.of_sublist s.line.deleteLeft_sublist, h.slots⟩
  | deleteRight => exact ⟨h.line.of_sublist s.line.deleteRight_sublist, h.slots⟩
  | left | right | wordLeft | wordRight | home | lineEnd => exact h.seek _
  | up =>
    rw [Session.perform]
    split
    · exact h.select _
    · exact h
  | down =>
    rw [Session.perform]
    split
    · exact h.select _
    · exact ⟨IsLine.nil, h.slots⟩
  | enter => exact h.endLine
  | interrupt => exact ⟨IsLine.nil, h.slots⟩
  | nothing => exact h

theorem step (h : s.Valid) (b : UInt8) : (s.step b).Valid := by
  have hperform := h.perform fun _ => Decoder.decode_insert (d := s.decoder) (b := b)
  exact ⟨hperform.line, hperform.slots⟩

theorem run (h : s.Valid) (bytes : List UInt8) : (s.run bytes).Valid := by
  induction bytes generalizing s with
  | nil => exact h
  | cons b bytes ih => exact ih (h.step b)

end Valid

end Session

end LatencyOS.Shell
