import LatencyOS.Lib.Ring
import LatencyOS.Shell.LineRefine

/-!
# Recalling lines

The history is for going back to the lines executed before, one with each Up, as far as the last
eight of them, and forward again with Down.  The editor does so, but with more than eight lines it
does not stop at the oldest one that it keeps.
-/

namespace LatencyOS.Shell

/-- The line, the lines executed so far, and how many of them Up has gone back. -/
structure Recall where
  line : Line
  saved : List (List UInt8)
  depth : ℕ
  decoder : Decoder

namespace Recall
variable (r : Recall)

def start : Recall := ⟨.empty, [], 0, ⟨.normal, false⟩⟩

/-- How far Up goes back. -/
def retained : ℕ := min historySize r.saved.length

/-- The line executed that many lines ago, or none. -/
def shown (saved : List (List UInt8)) : ℕ → Line
  | 0 => .empty
  | k + 1 => .recalled (saved.reverse.getD k [])

/-- The line shown is the one that many lines back. -/
def goTo (depth : ℕ) : Recall := { r with depth := depth, line := shown r.saved depth }

/-- What a key does. -/
def perform : Key → Recall
  | .up => if r.depth < r.retained then r.goTo (r.depth + 1) else r
  | .down => r.goTo (r.depth - 1)
  | .enter =>
    if r.line.text = [] then { r with line := .empty }
    else { r with line := .empty, saved := r.saved ++ [r.line.text], depth := 0 }
  | k => { r with line := r.line.edit k }

def step (b : UInt8) : Recall :=
  { r.perform (r.decoder.decode b).1 with decoder := (r.decoder.decode b).2 }

def run (bytes : List UInt8) : Recall := bytes.foldl step r

/-- Up is pressed at the oldest line that is kept, and there were older ones. -/
def Overruns (b : UInt8) : Prop :=
  (r.decoder.decode b).1 = .up ∧ r.depth = historySize ∧ historySize < r.saved.length

instance (b : UInt8) : Decidable (r.Overruns b) := inferInstanceAs (Decidable (_ ∧ _ ∧ _))

/-- No byte of a run is such an Up. -/
def Within (r : Recall) : List UInt8 → Prop
  | [] => True
  | b :: bytes => ¬ r.Overruns b ∧ (r.step b).Within bytes

instance Within.decidable (r : Recall) : (bytes : List UInt8) → Decidable (r.Within bytes)
  | [] => inferInstanceAs (Decidable True)
  | b :: bytes =>
    have := Within.decidable (r.step b) bytes
    inferInstanceAs (Decidable (_ ∧ _))

/-! ## A stack of lines -/

/-- As many Ups in a row. -/
def ups (r : Recall) : ℕ → Recall
  | 0 => r
  | k + 1 => (ups r k).perform .up

variable {r}

/-- Each Up goes one line back, and those behind the oldest line that is kept change nothing. -/
theorem ups_succ (h : r.depth = 0) (hsaved : r.saved ≠ []) (k : ℕ) :
    r.ups (k + 1) = r.goTo (min (k + 1) r.retained) := by
  have hpos : 0 < r.retained :=
    Nat.lt_min.mpr ⟨by decide, List.length_pos_of_ne_nil hsaved⟩
  induction k with
  | zero =>
    rw [ups, ups, perform, if_pos (by omega), h, Nat.min_eq_left hpos]
  | succ k ih =>
    rw [ups, ih, perform]
    change (if min (k + 1) r.retained < r.retained then r.goTo (min (k + 1) r.retained + 1)
      else r.goTo (min (k + 1) r.retained)) = _
    split
    case isTrue hlt => rw [show min (k + 1) r.retained + 1 = min (k + 1 + 1) r.retained by omega]
    case isFalse hge => rw [show min (k + 1) r.retained = min (k + 1 + 1) r.retained by omega]

end Recall

/-! ## The editor recalls lines -/

/-- The session holds the lines that are recalled. -/
structure Session.Recalls (σ : Session) (r : Recall) : Prop where
  line : σ.line = r.line
  slots : Recent.Holds historySize σ.slots r.saved
  count : σ.count = r.saved.length
  depth : r.depth ≤ r.retained
  idx : σ.idx = r.saved.length - r.depth
  decoder : σ.decoder = r.decoder

namespace Session.Recalls

variable {σ : Session} {r : Recall}

theorem start : Session.start.Recalls Recall.start :=
  ⟨rfl, Recent.Holds.nil _ _, rfl, Nat.zero_le _, rfl, rfl⟩

/-- The slot of a line that is kept is selected. -/
theorem select (h : σ.Recalls r) {k : ℕ} (hk : k < r.retained) :
    (σ.select (r.saved.length - (k + 1))).Recalls (r.goTo (k + 1)) := by
  refine ⟨?_, h.slots, h.count, hk, rfl, h.decoder⟩
  have hslot := h.slots k hk
  change Line.recalled _ = Line.recalled (r.saved.reverse.getD k [])
  rw [List.getD_eq_getElem?_getD, hslot, Option.getD_some]

theorem up (h : σ.Recalls r) (hk : ¬ (r.depth = historySize ∧ historySize < r.saved.length)) :
    (σ.perform .up).Recalls (r.perform .up) := by
  have hdepth := h.depth
  have hretained : r.retained = min historySize r.saved.length := rfl
  rw [Session.perform, Recall.perform, h.count, h.idx]
  by_cases hlt : r.depth < r.retained
  · rw [if_pos hlt, if_pos (by omega), Nat.sub_sub]
    exact h.select hlt
  · rw [if_neg hlt, if_neg (by omega)]
    exact h

/-- One line further back than the history goes, the newest line is shown. -/
theorem up_of_overrun (h : σ.Recalls r) (hdepth : r.depth = historySize)
    (hsaved : historySize < r.saved.length) :
    (σ.perform .up).line = Recall.shown r.saved 1 := by
  have hsize : historySize = 8 := rfl
  have hnewest := h.slots 0 (Nat.lt_min.mpr ⟨by decide, by omega⟩)
  have hslot : (r.saved.length - historySize - 1) % historySize =
      (r.saved.length - (0 + 1)) % historySize := by
    rw [hsize] at hsaved ⊢
    omega
  rw [Session.perform, h.count, h.idx, hdepth, if_pos (by omega)]
  change Line.recalled _ = Line.recalled (r.saved.reverse.getD 0 [])
  rw [hslot, List.getD_eq_getElem?_getD, hnewest, Option.getD_some]

theorem down (h : σ.Recalls r) : (σ.perform .down).Recalls (r.perform .down) := by
  have hdepth := h.depth
  have hretained : r.retained = min historySize r.saved.length := rfl
  rw [Session.perform, Recall.perform, h.count, h.idx]
  rcases hr : r.depth with _ | _ | k
  · rw [if_neg (by omega)]
    exact ⟨rfl, h.slots, rfl, Nat.zero_le _, rfl, h.decoder⟩
  · rw [if_neg (by omega)]
    exact ⟨rfl, h.slots, rfl, Nat.zero_le _, rfl, h.decoder⟩
  · rw [if_pos (by omega),
      show r.saved.length - (k + 1 + 1) + 1 = r.saved.length - (k + 1) by omega]
    exact h.select (by omega)

theorem enter (h : σ.Recalls r) : (σ.perform .enter).Recalls (r.perform .enter) := by
  rw [Session.perform, Recall.perform, Session.endLine, h.line]
  split
  · exact ⟨rfl, h.slots, h.count, h.depth, h.idx, h.decoder⟩
  · have hlength : (r.saved ++ [r.line.text]).length = r.saved.length + 1 := List.length_append
    refine ⟨rfl, ?_, ?_, Nat.zero_le _, ?_, h.decoder⟩
    · rw [h.count]
      exact h.slots.push _
    · rw [hlength, ← h.count]
    · rw [Nat.sub_zero, hlength, ← h.count]

theorem edit (h : σ.Recalls r) (k : Key) :
    Recalls { σ with line := σ.line.edit k } { r with line := r.line.edit k } :=
  ⟨congrArg (fun l => l.edit k) h.line, h.slots, h.count, h.depth, h.idx, h.decoder⟩

theorem perform (h : σ.Recalls r) {k : Key}
    (hk : ¬ (k = .up ∧ r.depth = historySize ∧ historySize < r.saved.length)) :
    (σ.perform k).Recalls (r.perform k) := by
  cases k with
  | up => exact h.up fun hover => hk ⟨rfl, hover⟩
  | down => exact h.down
  | enter => exact h.enter
  | _ => exact h.edit _

theorem step (h : σ.Recalls r) {b : UInt8} (hb : ¬ r.Overruns b) :
    (σ.step b).Recalls (r.step b) := by
  have hperform := h.perform hb
  rw [Session.step, Recall.step, h.decoder]
  exact ⟨hperform.line, hperform.slots, hperform.count, hperform.depth, hperform.idx, rfl⟩

theorem run (h : σ.Recalls r) {bytes : List UInt8} (hbytes : r.Within bytes) :
    (σ.run bytes).Recalls (r.run bytes) := by
  induction bytes generalizing σ r with
  | nil => exact h
  | cons b bytes ih => exact ih (h.step hbytes.1) hbytes.2

end Session.Recalls

open ShellState

/-- As long as Up is not pressed at the oldest of the eight lines that are kept when there were
more, every moment shows the line that Up and Down lead to. -/
theorem polls_recall (batches : List (List UInt8)) (bytes : List UInt8)
    (h : Recall.start.Within (batches.flatten ++ bytes)) :
    ∃ t s, polls batches start = some t ∧ byteSteps bytes t.beginPoll = some s ∧
      s.line = (Recall.start.run (batches.flatten ++ bytes)).line := by
  obtain ⟨t, s, ht, hs, hholds⟩ := polls_holds batches bytes
  exact ⟨t, s, ht, hs, hholds.line.trans (Session.Recalls.start.run h).line⟩

/-- A line is executed and recalled. -/
theorem polls_recall_one : ∃ t s, polls [[0x61, 0x0D]] start = some t ∧
    byteSteps [0x1B, 0x4F, 0x41] t.beginPoll = some s ∧
      s.line = (Recall.start.run [0x61, 0x0D, 0x1B, 0x4F, 0x41]).line :=
  polls_recall [[0x61, 0x0D]] [0x1B, 0x4F, 0x41] (by decide)

/-- Nine lines of a letter each, and Up nine times. -/
def nineLines : List UInt8 :=
  (List.range 9).flatMap (fun i => [0x61 + UInt8.ofNat i, 0x0D]) ++
    (List.replicate 9 [0x1B, 0x5B, 0x41]).flatten

/-- The ninth Up shows the newest line again. -/
theorem nineLines_wrap :
    ¬ ∀ bytes, ∃ t s, polls [] start = some t ∧ byteSteps bytes t.beginPoll = some s ∧
      s.line = (Recall.start.run bytes).line := by
  intro hall
  obtain ⟨t, s, ht, hs, hline⟩ := hall nineLines
  obtain ⟨t', s', ht', hs', h⟩ := polls_holds [] nineLines
  obtain rfl : t = t' := Option.some.inj (ht.symm.trans ht')
  obtain rfl : s = s' := Option.some.inj (hs.symm.trans hs')
  have hlines := h.line.symm.trans hline
  revert hlines
  decide +kernel

end LatencyOS.Shell
