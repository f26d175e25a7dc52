import LatencyOS.Lib.Trace
import Mathlib.Data.List.Induction

/-!
# The congestion controller

The rate at which frames are sent, in percent, is lowered and raised by `on_ack_received` and
set by the native `@rate`.  The language's specification gives it the range from 10 to 100.
-/

namespace LatencyOS.Net

def congestionThresholdNs : UInt64 := 200000

/-- `tsc_to_ns`: the division is made on 128 bits and cut to 64. -/
def tscToNs (tscCycles freqHz : UInt64) : UInt64 :=
  if freqHz = 0 then 0
  else UInt64.ofNat (tscCycles.toNat * 1000000000 / freqHz.toNat)

/-- The statics of the controller. -/
structure Congestion where
  minRttNs : UInt64 := 50000
  lastRttNs : UInt64 := 50000
  deltaDelayNs : UInt64 := 0
  ratePct : UInt8 := 100
  consecutiveGoodFrames : UInt32 := 0
  totalAcksReceived : UInt64 := 0

namespace Congestion

variable (c : Congestion)

/-- The rate is lowered to 80 percent of itself, but not below 20. -/
def decrease (rate : UInt8) : UInt8 := max 20 (rate.toUInt32 * 80 / 100).toUInt8

def saturatingAdd (a b : UInt8) : UInt8 := if a.toNat + b.toNat < 256 then a + b else 255

/-- The rate is raised by 5, but not above 100. -/
def increase (rate : UInt8) : UInt8 := min 100 (saturatingAdd rate 5)

/-- The round-trip times, after an acknowledgement with this one. -/
def measure (rttNs : UInt64) : Congestion :=
  let minRtt := if rttNs < c.minRttNs ∨ c.minRttNs = 0 then rttNs else c.minRttNs
  { c with
    lastRttNs := rttNs
    totalAcksReceived := c.totalAcksReceived + 1
    minRttNs := minRtt
    deltaDelayNs := if minRtt ≤ rttNs then rttNs - minRtt else 0 }

/-- The rate, after the round-trip times. -/
def adapt : Congestion :=
  if c.deltaDelayNs > congestionThresholdNs then
    { c with ratePct := decrease c.ratePct, consecutiveGoodFrames := 0 }
  else if c.consecutiveGoodFrames + 1 ≥ 4 then
    { c with ratePct := increase c.ratePct, consecutiveGoodFrames := 0 }
  else { c with consecutiveGoodFrames := c.consecutiveGoodFrames + 1 }

/-- `on_ack_received`, at a time of the counter. -/
def onAckReceived (nowTsc tPktTx freqHz : UInt64) : Congestion :=
  if nowTsc < tPktTx then c else (c.measure (tscToNs (nowTsc - tPktTx) freqHz)).adapt

/-- The native `@rate`: the low byte of its argument is stored. -/
def setRate (arg : BitVec 64) : Congestion := { c with ratePct := ⟨arg.setWidth 8⟩ }

/-- What changes the rate. -/
inductive Event where
  | ack (nowTsc tPktTx freqHz : UInt64)
  | rate (arg : BitVec 64)

def step : Event → Congestion
  | .ack nowTsc tPktTx freqHz => c.onAckReceived nowTsc tPktTx freqHz
  | .rate arg => c.setRate arg

/-! ## The range of the rate -/

/-- The range the specification of `@rate` gives. -/
def Legal (rate : UInt8) : Prop := 10 ≤ rate ∧ rate ≤ 100

instance (rate : UInt8) : Decidable (Legal rate) := inferInstanceAs (Decidable (_ ∧ _))

theorem legal_iff_toNat (rate : UInt8) : Legal rate ↔ 10 ≤ rate.toNat ∧ rate.toNat ≤ 100 := by
  rw [Legal, UInt8.le_iff_toNat_le, UInt8.le_iff_toNat_le]
  rfl

theorem legal_decrease {rate : UInt8} (h : Legal rate) : Legal (decrease rate) := by
  rw [legal_iff_toNat] at *
  have hcut : (rate.toUInt32 * 80 / 100).toUInt8.toNat = rate.toNat * 80 / 100 := by
    rw [UInt32.toNat_toUInt8, UInt32.toNat_div, UInt32.toNat_mul, UInt8.toNat_toUInt32]
    change rate.toNat * 80 % 2 ^ 32 / 100 % 2 ^ 8 = _
    rw [Nat.mod_eq_of_lt (show rate.toNat * 80 < 2 ^ 32 by omega)]
    omega
  change 10 ≤ (if 20 ≤ _ then _ else 20 : UInt8).toNat ∧
    (if 20 ≤ _ then _ else 20 : UInt8).toNat ≤ 100
  split
  · rw [hcut]
    rename_i hle
    rw [UInt8.le_iff_toNat_le, hcut] at hle
    change 20 ≤ _ at hle
    omega
  · decide

theorem legal_increase {rate : UInt8} (h : Legal rate) : Legal (increase rate) := by
  rw [legal_iff_toNat] at *
  have hsum : (saturatingAdd rate 5).toNat = rate.toNat + 5 := by
    have hlt : rate.toNat + (5 : UInt8).toNat < 256 := by
      change rate.toNat + 5 < 256
      omega
    rw [saturatingAdd, if_pos hlt, UInt8.toNat_add]
    change (rate.toNat + 5) % 256 = _
    omega
  change 10 ≤ (if 100 ≤ _ then 100 else _ : UInt8).toNat ∧
    (if 100 ≤ _ then 100 else _ : UInt8).toNat ≤ 100
  split
  · decide
  · rename_i hlt
    rw [UInt8.le_iff_toNat_le, hsum] at hlt
    rw [hsum]
    change ¬ 100 ≤ _ at hlt
    omega

variable {c}

theorem legal_onAckReceived (h : Legal c.ratePct) (nowTsc tPktTx freqHz : UInt64) :
    Legal (c.onAckReceived nowTsc tPktTx freqHz).ratePct := by
  rw [onAckReceived]
  split
  · exact h
  · rw [adapt]
    split
    · exact legal_decrease h
    · split
      · exact legal_increase h
      · exact h

/-- Every argument of `@rate` has its low byte in the range. -/
def InRange : Event → Prop
  | .ack .. => True
  | .rate arg => Legal ⟨arg.setWidth 8⟩

theorem legal_step_iff (h : Legal c.ratePct) (e : Event) :
    Legal (c.step e).ratePct ↔ InRange e := by
  cases e with
  | ack nowTsc tPktTx freqHz => exact iff_true_intro (legal_onAckReceived h nowTsc tPktTx freqHz)
  | rate arg => rfl

/-- The rate stays in its range in every state of a run exactly when every `@rate` of the run has
an argument whose low byte is in the range. -/
theorem legal_run_iff (es : List Event) :
    AlongFold step (fun c e => Legal (c.step e).ratePct) {} es ↔ ∀ e ∈ es, InRange e := by
  rw [alongFold_congr (I := fun c => Legal c.ratePct) (fun _ e h => legal_step_iff h e)
    (fun _ e h hrange => (legal_step_iff h e).mpr hrange) (by decide)]
  exact alongFold_forall

/-- A script sets the rate to zero. -/
theorem rateZero_illegal :
    ¬ AlongFold step (fun c e => Legal (c.step e).ratePct) {} [.rate 0] := by
  decide

end Congestion

namespace Congestion

/-!
## The smallest round-trip time

`MIN_RTT_NS` starts with a baseline and is lowered by acknowledgements.  The controller takes zero
for "not measured yet", although an acknowledgement can measure it.
-/

/-- An acknowledgement, with the counter and its frequency when it comes in. -/
structure Ack where
  nowTsc : UInt64
  tPktTx : UInt64
  freqHz : UInt64

/-- The round-trip time it measures. -/
def Ack.rttNs (a : Ack) : UInt64 := tscToNs (a.nowTsc - a.tPktTx) a.freqHz

/-- An acknowledgement that is not from the future. -/
def Ack.Accepted (a : Ack) : Prop := a.tPktTx ≤ a.nowTsc

instance (a : Ack) : Decidable a.Accepted := inferInstanceAs (Decidable (_ ≤ _))

/-- The controller after some acknowledgements. -/
def receive (c : Congestion) (acks : List Ack) : Congestion :=
  acks.foldl (fun c a => c.onAckReceived a.nowTsc a.tPktTx a.freqHz) c

/-- The smaller one of two times. -/
def smaller (m r : UInt64) : UInt64 := if r < m then r else m

/-- The smallest round-trip time of some acknowledgements and of the baseline. -/
def smallest (acks : List Ack) : UInt64 := acks.foldl (fun m a => smaller m a.rttNs) 50000

/-- Every acknowledgement leaves `MIN_RTT_NS` no larger, and at the smallest time so far. -/
def KeepsMinimum (acks : List Ack) : Prop :=
  ∀ before a, before ++ [a] <+: acks →
    (receive {} (before ++ [a])).minRttNs ≤ (receive {} before).minRttNs ∧
      (receive {} (before ++ [a])).minRttNs = smallest (before ++ [a])

/-- No time above zero follows a time of zero. -/
def ZeroLast (acks : List Ack) : Prop := acks.Pairwise fun a b => a.rttNs = 0 → b.rttNs = 0

variable {c : Congestion} {acks : List Ack} {a : Ack}

/-- What an acknowledgement does to the smallest time. -/
theorem minRttNs_onAckReceived (ha : a.Accepted) :
    (c.onAckReceived a.nowTsc a.tPktTx a.freqHz).minRttNs =
      if a.rttNs < c.minRttNs ∨ c.minRttNs = 0 then a.rttNs else c.minRttNs := by
  have hnow : ¬ a.nowTsc < a.tPktTx := UInt64.not_lt.mpr ha
  rw [onAckReceived, if_neg hnow, adapt]
  split
  · rfl
  · split <;> rfl

/-- The rule of the controller gives the smaller one of two times, except that it replaces zero. -/
theorem lowered_iff (m r : UInt64) :
    ((if r < m ∨ m = 0 then r else m) ≤ m ∧ (if r < m ∨ m = 0 then r else m) = smaller m r) ↔
      (m = 0 → r = 0) := by
  by_cases hm : m = 0
  · subst hm
    simp only [or_true, if_true, forall_const]
    constructor
    · rintro ⟨hle, -⟩
      exact UInt64.le_zero_iff.mp hle
    · rintro rfl
      exact ⟨UInt64.le_refl 0, rfl⟩
  · simp only [hm, or_false, false_implies, iff_true]
    refine ⟨?_, rfl⟩
    split
    · next hlt => exact UInt64.le_of_lt hlt
    · exact UInt64.le_refl m

theorem smaller_eq_zero_iff (m r : UInt64) : smaller m r = 0 ↔ m = 0 ∨ r = 0 := by
  rw [smaller]
  split
  · next hlt =>
    refine ⟨.inr, fun h => h.resolve_left fun hm => ?_⟩
    rw [hm] at hlt
    exact UInt64.not_lt_zero hlt
  · next hge =>
    refine ⟨.inl, fun h => h.elim id fun hr => ?_⟩
    rw [hr] at hge
    exact UInt64.le_zero_iff.mp (UInt64.not_lt.mp hge)

theorem smallest_append : smallest (acks ++ [a]) = smaller (smallest acks) a.rttNs := by
  rw [smallest, List.foldl_append]
  rfl

/-- The smallest time is zero exactly when one of the times is. -/
theorem smallest_eq_zero_iff : smallest acks = 0 ↔ ∃ a ∈ acks, a.rttNs = 0 := by
  induction acks using List.reverseRecOn with
  | nil => simp [smallest]
  | append_singleton acks a ih =>
    rw [smallest_append, smaller_eq_zero_iff, ih]
    simp only [List.mem_append, List.mem_singleton, or_and_right, exists_or, exists_eq_left]

theorem receive_append : receive c (acks ++ [a]) =
    (receive c acks).onAckReceived a.nowTsc a.tPktTx a.freqHz := by
  rw [receive, List.foldl_append]
  rfl

theorem zeroLast_append : ZeroLast (acks ++ [a]) ↔
    ZeroLast acks ∧ (smallest acks = 0 → a.rttNs = 0) := by
  rw [ZeroLast, List.pairwise_append, smallest_eq_zero_iff]
  simp [ZeroLast]

theorem keepsMinimum_append : KeepsMinimum (acks ++ [a]) ↔ KeepsMinimum acks ∧
    (receive {} (acks ++ [a])).minRttNs ≤ (receive {} acks).minRttNs ∧
      (receive {} (acks ++ [a])).minRttNs = smallest (acks ++ [a]) := by
  constructor
  · intro h
    exact ⟨fun before b hb => h before b (hb.trans (List.prefix_append _ _)),
      h acks a (List.prefix_refl _)⟩
  · rintro ⟨h, hlast⟩ before b hb
    rcases List.prefix_concat_iff.mp hb with heq | hprefix
    · obtain ⟨rfl, hba⟩ := List.append_inj' heq rfl
      cases hba
      exact hlast
    · exact h before b hprefix

/-- Of the controller's start, and then after every acknowledgement. -/
theorem KeepsMinimum.minRttNs (h : KeepsMinimum acks) :
    (receive {} acks).minRttNs = smallest acks := by
  rcases List.eq_nil_or_concat acks with rfl | ⟨before, a, hacks⟩
  · rfl
  · rw [List.concat_eq_append] at hacks
    subst hacks
    exact (keepsMinimum_append.mp h).2.2

/-- The smallest time is kept exactly when no time above zero follows a time of zero. -/
theorem keepsMinimum_iff (acks : List Ack) (haccepted : ∀ a ∈ acks, a.Accepted) :
    KeepsMinimum acks ↔ ZeroLast acks := by
  induction acks using List.reverseRecOn with
  | nil =>
    refine iff_of_true (fun before a hprefix => ?_) List.Pairwise.nil
    exact absurd (List.prefix_nil.mp hprefix) (by simp)
  | append_singleton acks a ih =>
    have ha : a.Accepted := haccepted a (by simp)
    rw [keepsMinimum_append, zeroLast_append,
      ih fun b hb => haccepted b (List.mem_append_left _ hb)]
    refine and_congr_right fun hzero => ?_
    have hmin : (receive {} acks).minRttNs = smallest acks :=
      KeepsMinimum.minRttNs ((ih fun b hb => haccepted b (List.mem_append_left _ hb)).mpr hzero)
    rw [receive_append, minRttNs_onAckReceived ha, hmin, smallest_append]
    exact lowered_iff _ _

/-- Two times above zero and one of zero. -/
theorem falling_keepsMinimum :
    KeepsMinimum [⟨60, 0, 1000000000⟩, ⟨90, 50, 1000000000⟩, ⟨99, 99, 1000000000⟩] ↔
      ZeroLast [⟨60, 0, 1000000000⟩, ⟨90, 50, 1000000000⟩, ⟨99, 99, 1000000000⟩] :=
  keepsMinimum_iff _ (by decide)

/-- A time of zero is forgotten. -/
theorem zero_forgotten : ¬ ∀ acks : List Ack, (∀ a ∈ acks, a.Accepted) → KeepsMinimum acks := by
  intro h
  have haccepted : ∀ a ∈ ([⟨99, 99, 1000000000⟩, ⟨90, 50, 1000000000⟩] : List Ack), a.Accepted := by
    decide
  have hkeeps := h _ haccepted [⟨99, 99, 1000000000⟩] ⟨90, 50, 1000000000⟩ (List.prefix_refl _)
  exact absurd hkeeps.1 (by decide)

end Congestion

end LatencyOS.Net
