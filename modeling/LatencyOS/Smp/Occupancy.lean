import LatencyOS.Smp.RingBuffer

/-!
# How much a ring holds

`is_empty`, `is_full` and `len` observe the two counters of a ring.  The first two treat the
counters as `push` and `pop` do; `len` compares them as numbers, which is the difference only as
long as the head has wrapped no more often than the tail.
-/

namespace LatencyOS

namespace Smp

variable {T : Type}

/-- `is_empty`. -/
def isEmpty (r : SpscRingBuffer T) : Bool := r.tail == r.head

/-- `is_full`. -/
def isFull (cap : ℕ) (r : SpscRingBuffer T) : Bool :=
  decide (cap ≤ wrappingSub usizeSize r.head r.tail)

/-- `len`. -/
def len (cap : ℕ) (r : SpscRingBuffer T) : ℕ :=
  if r.head ≥ r.tail then
    let diff := r.head - r.tail
    if diff ≤ cap then diff else cap
  else 0

namespace SpscState

variable {cap : ℕ} {s : SpscState T} {q : List T}

/-- No `push` and no `pop` is in progress. -/
def Quiescent (s : SpscState T) : Prop := s.producer = .idle ∧ s.consumer = .idle

/-- How many items were pushed and not yet popped. -/
def stored (s : SpscState T) : ℕ := s.pushed.length - s.popped.length

/-- The observers agree with what was pushed and popped. -/
structure Observed (cap : ℕ) (s : SpscState T) : Prop where
  len : len cap s.ring = s.stored
  isEmpty : isEmpty s.ring = true ↔ s.stored = 0
  isFull : isFull cap s.ring = true ↔ s.stored = cap

/-- The counters of both ends have wrapped equally often. -/
def SameLap (s : SpscState T) : Prop :=
  s.pushed.length / usizeSize = s.popped.length / usizeSize

theorem Inv.stored (h : Inv cap s q) : s.stored = q.length := by
  rw [SpscState.stored, h.split, List.length_append, Nat.add_sub_cancel_left]

theorem Inv.isEmpty_iff (hs : Ring.Sizes cap usizeSize) (h : Inv cap s q) :
    isEmpty s.ring = true ↔ s.stored = 0 := by
  rw [isEmpty, beq_iff_eq, h.holds.tail_eq_head_iff hs, h.stored, List.length_eq_zero_iff]

theorem Inv.isFull_iff (hs : Ring.Sizes cap usizeSize) (h : Inv cap s q) :
    isFull cap s.ring = true ↔ s.stored = cap := by
  have hlen := h.holds.len
  rw [isFull, decide_eq_true_iff, h.holds.wrappingSub_eq hs, h.stored]
  omega

/-- Two numbers less than `w` apart leave remainders in their order exactly on the same lap. -/
theorem mod_le_mod_iff {w a n : ℕ} (hn : 0 < n) (hlt : n < w) :
    a % w ≤ (a + n) % w ↔ (a + n) / w = a / w := by
  have hw : 0 < w := by omega
  have ha := Nat.mod_lt a hw
  have hdiv := Nat.div_add_mod a w
  have hdiv' := Nat.div_add_mod (a + n) w
  have hmod' := Nat.mod_lt (a + n) hw
  constructor
  · intro hle
    have hge : a / w ≤ (a + n) / w := Nat.div_le_div_right (Nat.le_add_right a n)
    refine Nat.le_antisymm (Nat.not_lt.mp fun hmore => ?_) hge
    -- another lap would take more than `n`
    have hlap : w * (a / w) + w ≤ w * ((a + n) / w) := by
      rw [← Nat.mul_succ]
      exact Nat.mul_le_mul_left w hmore
    omega
  · intro heq
    rw [heq] at hdiv'
    omega

/-- The length is right exactly when both counters are on the same lap. -/
theorem Inv.len_iff (hs : Ring.Sizes cap usizeSize) (h : Inv cap s q) :
    len cap s.ring = s.stored ↔ s.SameLap := by
  have hcap := h.holds.len
  have hlt := hs.lt
  have hpushed : s.pushed.length = s.popped.length + q.length := by
    rw [h.split, List.length_append]
  rw [len, h.holds.head, h.holds.tail, h.stored, SameLap, hpushed]
  rcases Nat.eq_zero_or_pos q.length with hzero | hpos
  · simp [hzero]
  · have hiff := mod_le_mod_iff (a := s.popped.length) hpos (Nat.lt_of_le_of_lt hcap hlt)
    rw [← hiff]
    have hw : 0 < usizeSize := Nat.two_pow_pos 64
    have hdiv := Nat.div_add_mod s.popped.length usizeSize
    have hdiv' := Nat.div_add_mod (s.popped.length + q.length) usizeSize
    by_cases hle : s.popped.length % usizeSize ≤ (s.popped.length + q.length) % usizeSize
    · have hlap := hiff.mp hle
      rw [hlap] at hdiv'
      have hdiff : (s.popped.length + q.length) % usizeSize - s.popped.length % usizeSize =
          q.length := by omega
      rw [if_pos hle, hdiff, if_pos hcap]
      exact iff_of_true rfl hle
    · rw [if_neg hle]
      exact iff_of_false (by omega) hle

/-- In every reachable state of a ring whose capacity is a power of two, so in every quiescent one,
the observers are right exactly when both counters are on the same lap. -/
theorem observed_iff (k : Fin 64) (defaultVal : T) (acts : List (SpscAct T)) :
    Observed (2 ^ k.val) ((new defaultVal).run (2 ^ k.val) acts) ↔
      ((new defaultVal).run (2 ^ k.val) acts).SameLap := by
  have hs := sizes_two_pow k
  obtain ⟨q, h⟩ := inv_run hs (inv_new _ defaultVal) acts
  rw [← h.len_iff hs]
  exact ⟨fun hobs => hobs.len, fun hlen => ⟨hlen, h.isEmpty_iff hs, h.isFull_iff hs⟩⟩

/-! ## A lap ahead -/

/-- A whole `push` into a ring with room. -/
theorem run_push (hp : s.producer = .idle)
    (hroom : ¬ cap ≤ wrappingSub usizeSize s.ring.head s.ring.tail) (item : T) :
    s.run cap (List.replicate 4 (.producer item)) =
      { s with
        ring := ⟨Function.update s.ring.buffer (s.ring.head % cap) item,
          (s.ring.head + 1) % usizeSize, s.ring.tail⟩
        pushed := s.pushed ++ [item] } := by
  obtain ⟨ring, producer, consumer, pushed, popped⟩ := s
  cases hp
  simp [run, List.replicate, step, push, if_neg hroom, PushState.adds]

/-- A whole `pop` from a ring that is not empty. -/
theorem run_pop (hc : s.consumer = .idle) (hne : s.ring.tail ≠ s.ring.head) :
    s.run cap (List.replicate 4 .consumer) =
      { s with
        ring := { s.ring with tail := (s.ring.tail + 1) % usizeSize }
        popped := s.popped ++ [s.ring.buffer (s.ring.tail % cap)] } := by
  obtain ⟨ring, producer, consumer, pushed, popped⟩ := s
  cases hc
  simp [run, List.replicate, step, pop, if_neg hne, taken]

theorem run_append (acts acts' : List (SpscAct T)) :
    s.run cap (acts ++ acts') = (s.run cap acts).run cap acts' := List.foldl_append

/-- An item is pushed and popped, a number of times. -/
def turns : ℕ → List (SpscAct Unit)
  | 0 => []
  | n + 1 => turns n ++ (List.replicate 4 (.producer ()) ++ List.replicate 4 .consumer)

/-- The state after `n` items went through a ring of one cell. -/
structure Passed (n : ℕ) (s : SpscState Unit) : Prop where
  quiescent : s.Quiescent
  head : s.ring.head = n % usizeSize
  tail : s.ring.tail = n % usizeSize
  pushed : s.pushed.length = n
  popped : s.popped.length = n

theorem Passed.room {n : ℕ} {s : SpscState Unit} (h : Passed n s) :
    ¬ 1 ≤ wrappingSub usizeSize s.ring.head s.ring.tail := by
  rw [wrappingSub, h.head, h.tail, Nat.add_sub_cancel_left, Nat.mod_self]
  exact Nat.not_succ_le_zero 0

theorem passed_turns (n : ℕ) : Passed n ((new ()).run 1 (turns n)) := by
  induction n with
  | zero => exact ⟨⟨rfl, rfl⟩, rfl, rfl, rfl, rfl⟩
  | succ n ih =>
    have hw : 1 < usizeSize := by decide
    have hlt := Nat.mod_lt n (Nat.lt_trans Nat.zero_lt_one hw)
    have hne : n % usizeSize ≠ (n % usizeSize + 1) % usizeSize := by
      intro heq
      rcases Nat.lt_or_ge (n % usizeSize + 1) usizeSize with hsum | hsum
      · rw [Nat.mod_eq_of_lt hsum] at heq
        omega
      · rw [show n % usizeSize + 1 = usizeSize by omega, Nat.mod_self] at heq
        omega
    rw [turns, run_append, run_append]
    generalize (new ()).run 1 (turns n) = s at *
    rw [run_push ih.quiescent.1 ih.room]
    have hpop := @run_pop Unit 1 { s with
      ring := ⟨Function.update s.ring.buffer (s.ring.head % 1) (), (s.ring.head + 1) % usizeSize,
        s.ring.tail⟩
      pushed := s.pushed ++ [()] } ih.quiescent.2 (by
        dsimp only
        rw [ih.head, ih.tail]
        exact hne)
    rw [hpop]
    refine ⟨ih.quiescent, ?_, ?_, ?_, ?_⟩
    · dsimp only
      rw [ih.head, Nat.mod_add_mod]
    · dsimp only
      rw [ih.tail, Nat.mod_add_mod]
    · dsimp only
      rw [List.length_append, ih.pushed]
      rfl
    · dsimp only
      rw [List.length_append, ih.popped]
      rfl

/-- The counter of the head wraps with the item numbered `2 ^ 64`: the ring holds it, and its
length is given as zero. -/
theorem wrappedHead_miscounted : ¬ ∀ (k : Fin 64) (acts : List (SpscAct Unit)),
    ((new ()).run (2 ^ k.val) acts).Quiescent →
      Observed (2 ^ k.val) ((new ()).run (2 ^ k.val) acts) := by
  intro h
  obtain ⟨n, hn⟩ : ∃ n, usizeSize = n + 1 :=
    ⟨usizeSize - 1, (Nat.sub_add_cancel (Nat.one_le_two_pow)).symm⟩
  have hpassed := passed_turns n
  have hrun := h 0 (turns n ++ List.replicate 4 (.producer ()))
  have hcap : 2 ^ (0 : Fin 64).val = 1 := rfl
  rw [hcap, run_append] at hrun
  generalize (new ()).run 1 (turns n) = s at hpassed hrun
  rw [run_push hpassed.quiescent.1 hpassed.room] at hrun
  have hlen := (hrun hpassed.quiescent).len
  have hw : 1 < usizeSize := by decide
  have hlast : n % usizeSize = n := Nat.mod_eq_of_lt (by omega)
  rw [len, SpscState.stored] at hlen
  dsimp only at hlen
  rw [hpassed.head, hpassed.tail, hlast, ← hn, Nat.mod_self, if_neg (by omega),
    List.length_append, hpassed.pushed, hpassed.popped, Nat.add_sub_cancel_left] at hlen
  cases hlen

end SpscState

end Smp

end LatencyOS
