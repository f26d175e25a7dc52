import LatencyOS.Lib.Ring

/-!
# The ring buffer between two cores

`SpscRingBuffer` is a lock-free queue for one producer and one consumer.  A `push` and a `pop` are
four accesses of shared memory each: a load of the own counter, a load of the other side's, an
access of a cell, and a store of the own counter.  The two sides interleave at these accesses.
Whatever the order, the ring stays a queue.
-/

namespace LatencyOS

namespace Smp

/-- The number of values of a `usize`. -/
def usizeSize : ℕ := 2 ^ 64

/-- The ring buffer of the source, for items of any type. -/
abbrev SpscRingBuffer (T : Type) := Ring T

/-- `new`. -/
def SpscRingBuffer.new {T : Type} (defaultVal : T) : SpscRingBuffer T := ⟨fun _ => defaultVal, 0, 0⟩

/-- Where a core stands in a `push`. -/
inductive PushState (T : Type)
  | idle
  | loadedHead (item : T) (head : ℕ)
  | notFull (item : T) (head : ℕ)
  | written (item : T) (head : ℕ)
  deriving DecidableEq

/-- Where a core stands in a `pop`. -/
inductive PopState (T : Type)
  | idle
  | loadedTail (tail : ℕ)
  | notEmpty (tail : ℕ)
  | read (tail : ℕ) (item : T)
  deriving DecidableEq

variable {T : Type} (cap : ℕ)

/-- One access of a `push`: where the core stands after it, the ring, and whether the call returned
`Ok`, if it returned. -/
def push (item : T) : PushState T → SpscRingBuffer T → PushState T × SpscRingBuffer T × Option Bool
  | .idle, r => (.loadedHead item r.head, r, none)
  | .loadedHead item head, r =>
    if cap ≤ wrappingSub usizeSize head r.tail then (.idle, r, some false)
    else (.notFull item head, r, none)
  | .notFull item head, r =>
    (.written item head, { r with buffer := Function.update r.buffer (head % cap) item }, none)
  | .written _ head, r => (.idle, { r with head := (head + 1) % usizeSize }, some true)

/-- One access of a `pop`: where the core stands after it, the ring, and what the call returned, if
it returned. -/
def pop : PopState T → SpscRingBuffer T → PopState T × SpscRingBuffer T × Option (Option T)
  | .idle, r => (.loadedTail r.tail, r, none)
  | .loadedTail tail, r =>
    if tail = r.head then (.idle, r, some none) else (.notEmpty tail, r, none)
  | .notEmpty tail, r => (.read tail (r.buffer (tail % cap)), r, none)
  | .read tail item, r => (.idle, { r with tail := (tail + 1) % usizeSize }, some (some item))

/-! ## What a core in the middle of a call knows -/

variable {cap} {r r' : SpscRingBuffer T} {out : ℕ} {q : List T}

/-- A call that returns leaves the core outside of the ring. -/
theorem push_idle {item : T} {p : PushState T} {b : Bool}
    (h : (push cap item p r).2.2 = some b) : (push cap item p r).1 = .idle := by
  cases p with
  | idle => cases h
  | loadedHead x head =>
    simp only [push] at h ⊢
    split at h
    · next hfull => rw [if_pos hfull]
    · cases h
  | notFull x head => cases h
  | written x head => rfl

theorem pop_idle {p : PopState T} {x : Option T}
    (h : (pop cap p r).2.2 = some x) : (pop cap p r).1 = .idle := by
  cases p with
  | idle => cases h
  | loadedTail tail =>
    simp only [pop] at h ⊢
    split at h
    · next hempty => rw [if_pos hempty]
    · cases h
  | notEmpty tail => cases h
  | read tail item => rfl

/-- What holds of a `push` while the ring holds a queue. -/
def PushState.Ok (cap : ℕ) (p : PushState T) (r : SpscRingBuffer T) (q : List T) : Prop :=
  match p with
  | .idle => True
  | .loadedHead _ head => head = r.head
  | .notFull _ head => head = r.head ∧ q.length < cap
  | .written item head => head = r.head ∧ q.length < cap ∧ r.buffer (head % cap) = item

/-- What holds of a `pop` while the ring holds a queue. -/
def PopState.Ok (p : PopState T) (r : SpscRingBuffer T) (q : List T) : Prop :=
  match p with
  | .idle => True
  | .loadedTail tail => tail = r.tail
  | .notEmpty tail => tail = r.tail ∧ q ≠ []
  | .read tail item => tail = r.tail ∧ q.head? = some item

/-- The item a finished `push` adds. -/
def PushState.adds (p : PushState T) (result : Option Bool) : List T :=
  match p, result with
  | .written item _, some true => [item]
  | _, _ => []

/-- What an access of a `push` does: the queue gains the item when the call succeeds, the call
fails only on a full queue, and no `pop` notices. -/
structure PushSpec (cap : ℕ) (p : PushState T) (r : SpscRingBuffer T) (out : ℕ) (q : List T)
    (p' : PushState T) (r' : SpscRingBuffer T) (result : Option Bool) (q' : List T) : Prop where
  back : q' = q ++ p.adds result
  holds : r'.Holds cap usizeSize out q'
  own : p'.Ok cap r' q'
  others : ∀ c : PopState T, c.Ok r q → c.Ok r' q'
  full : result = some false → q.length = cap

theorem push_spec (hs : Ring.Sizes cap usizeSize) (h : r.Holds cap usizeSize out q)
    {p : PushState T} (hp : p.Ok cap r q) (item : T) :
    ∃ q', PushSpec cap p r out q (push cap item p r).1 (push cap item p r).2.1
      (push cap item p r).2.2 q' := by
  cases p with
  | idle => exact ⟨q, (List.append_nil q).symm, h, rfl, fun _ hc => hc, nofun⟩
  | loadedHead item head =>
    have hhead : head = r.head := hp
    subst hhead
    simp only [push, h.wrappingSub_eq hs]
    split
    · next hfull =>
      refine ⟨q, (List.append_nil q).symm, h, trivial, fun _ hc => hc, fun _ => ?_⟩
      exact Nat.le_antisymm h.len hfull
    · next hroom =>
      exact ⟨q, (List.append_nil q).symm, h, ⟨rfl, Nat.not_le.mp hroom⟩, fun _ hc => hc, nofun⟩
  | notFull item head =>
    obtain ⟨rfl, hroom⟩ := hp
    refine ⟨q, (List.append_nil q).symm, h.write hs hroom item,
      ⟨rfl, hroom, Function.update_self _ _ _⟩, fun c hc => ?_, nofun⟩
    cases c <;> exact hc
  | written item head =>
    obtain ⟨rfl, hroom, hcell⟩ := hp
    refine ⟨q ++ [item], rfl, h.push hs hroom hcell, trivial, fun c hc => ?_, nofun⟩
    cases c with
    | idle => trivial
    | loadedTail tail => exact hc
    | notEmpty tail => exact ⟨hc.1, List.append_ne_nil_of_left_ne_nil hc.2 _⟩
    | read tail item' =>
      refine ⟨hc.1, ?_⟩
      rw [List.head?_append, hc.2]
      rfl

/-- A `push` is one of an item. -/
def PushState.Carries (p : PushState T) (item : T) : Prop :=
  match p with
  | .idle => True
  | .loadedHead x _ | .notFull x _ | .written x _ => x = item

theorem carries_push {p : PushState T} {item : T} (h : p.Carries item) :
    (push cap item p r).1.Carries item := by
  cases p with
  | idle => rfl
  | loadedHead x head =>
    simp only [push]
    split
    · trivial
    · exact h
  | notFull x head => exact h
  | written x head => trivial

/-- A `push` adds its item exactly when it succeeds. -/
theorem adds_push {p : PushState T} {item : T} (h : p.Carries item) :
    p.adds (push cap item p r).2.2 =
      if (push cap item p r).2.2 = some true then [item] else [] := by
  cases p with
  | idle => rfl
  | loadedHead x head =>
    simp only [push]
    split <;> rfl
  | notFull x head => rfl
  | written x head =>
    have hx : x = item := h
    rw [hx]
    rfl

/-- The items a finished `pop` takes. -/
def taken (result : Option (Option T)) : List T := (result.bind id).toList

/-- What an access of a `pop` does: the call takes the first item, and no `push` notices. -/
structure PopSpec (cap : ℕ) (r : SpscRingBuffer T) (out : ℕ) (q : List T) (p' : PopState T)
    (r' : SpscRingBuffer T) (result : Option (Option T)) (q' : List T) : Prop where
  front : q = taken result ++ q'
  holds : r'.Holds cap usizeSize (out + (taken result).length) q'
  own : p'.Ok r' q'
  others : ∀ p : PushState T, p.Ok cap r q → p.Ok cap r' q'
  empty : result = some none → q = []

theorem pop_spec (hs : Ring.Sizes cap usizeSize) (h : r.Holds cap usizeSize out q)
    {p : PopState T} (hp : p.Ok r q) :
    ∃ q', PopSpec cap r out q (pop cap p r).1 (pop cap p r).2.1 (pop cap p r).2.2 q' := by
  cases p with
  | idle => exact ⟨q, rfl, h, rfl, fun _ hc => hc, nofun⟩
  | loadedTail tail =>
    have htail : tail = r.tail := hp
    subst htail
    simp only [pop]
    split
    · next heq =>
      exact ⟨q, rfl, h, trivial, fun _ hc => hc, fun _ => (h.tail_eq_head_iff hs).mp heq⟩
    · next hne =>
      exact ⟨q, rfl, h, ⟨rfl, mt (h.tail_eq_head_iff hs).mpr hne⟩, fun _ hc => hc, nofun⟩
  | notEmpty tail =>
    obtain ⟨rfl, hne⟩ := hp
    obtain ⟨x, q', rfl⟩ := List.exists_cons_of_ne_nil hne
    refine ⟨x :: q', rfl, h, ⟨rfl, ?_⟩, fun _ hc => hc, nofun⟩
    rw [h.front hs]
    rfl
  | read tail item =>
    obtain ⟨rfl, hfront⟩ := hp
    obtain ⟨q', rfl⟩ := List.head?_eq_some_iff.mp hfront
    refine ⟨q', rfl, h.pop, trivial, fun p hc => ?_, nofun⟩
    cases p with
    | idle => trivial
    | loadedHead _ head => exact hc
    | notFull _ head => exact ⟨hc.1, Nat.lt_of_succ_lt hc.2⟩
    | written _ head => exact ⟨hc.1, Nat.lt_of_succ_lt hc.2.1, hc.2.2⟩

/-! ## One producer and one consumer -/

/-- The ring, where its two cores stand, and what was pushed and popped so far. -/
structure SpscState (T : Type) where
  ring : SpscRingBuffer T
  producer : PushState T
  consumer : PopState T
  pushed : List T
  popped : List T

/-- Which core makes the next access.  The item is pushed if the producer starts a new `push`. -/
inductive SpscAct (T : Type)
  | producer (item : T)
  | consumer

namespace SpscState

/-- An empty ring and two cores outside of it. -/
def new (defaultVal : T) : SpscState T := ⟨SpscRingBuffer.new defaultVal, .idle, .idle, [], []⟩

def step (cap : ℕ) (s : SpscState T) : SpscAct T → SpscState T
  | .producer item =>
    let r := push cap item s.producer s.ring
    { s with producer := r.1, ring := r.2.1, pushed := s.pushed ++ s.producer.adds r.2.2 }
  | .consumer =>
    let r := pop cap s.consumer s.ring
    { s with consumer := r.1, ring := r.2.1, popped := s.popped ++ taken r.2.2 }

/-- The state after some accesses. -/
def run (cap : ℕ) (s : SpscState T) (acts : List (SpscAct T)) : SpscState T :=
  acts.foldl (step cap) s

/-- The ring behaves as a bounded queue. -/
structure Fifo (cap : ℕ) (s : SpscState T) : Prop where
  /-- What was popped is what was pushed, from the first item on. -/
  order : s.popped <+: s.pushed
  /-- At most `cap` items are stored. -/
  stored : s.pushed.length ≤ s.popped.length + cap
  /-- A `push` that fails with its next access finds `cap` items. -/
  full : ∀ item, (push cap item s.producer s.ring).2.2 = some false →
    s.pushed.length = s.popped.length + cap
  /-- The producer and the consumer are never at the same cell. -/
  apart : ∀ item head tail, s.producer = .notFull item head → s.consumer = .notEmpty tail →
    head % cap ≠ tail % cap

/-- The ring holds what was pushed and not popped, and both cores know it. -/
structure Inv (cap : ℕ) (s : SpscState T) (q : List T) : Prop where
  split : s.pushed = s.popped ++ q
  holds : s.ring.Holds cap usizeSize s.popped.length q
  producer : s.producer.Ok cap s.ring q
  consumer : s.consumer.Ok s.ring q

variable {s : SpscState T}

theorem inv_step (hs : Ring.Sizes cap usizeSize) (h : Inv cap s q) (act : SpscAct T) :
    ∃ q', Inv cap (s.step cap act) q' := by
  cases act with
  | producer item =>
    obtain ⟨q', hspec⟩ := push_spec hs h.holds h.producer item
    refine ⟨q', ?_, hspec.holds, hspec.own, hspec.others _ h.consumer⟩
    change s.pushed ++ _ = s.popped ++ q'
    rw [hspec.back, ← List.append_assoc, ← h.split]
  | consumer =>
    obtain ⟨q', hspec⟩ := pop_spec hs h.holds h.consumer
    refine ⟨q', ?_, ?_, hspec.others _ h.producer, hspec.own⟩
    · have hsplit := h.split
      rw [hspec.front, ← List.append_assoc] at hsplit
      exact hsplit
    · have hholds := hspec.holds
      rw [← List.length_append] at hholds
      exact hholds

theorem inv_run (hs : Ring.Sizes cap usizeSize) (h : Inv cap s q) (acts : List (SpscAct T)) :
    ∃ q', Inv cap (s.run cap acts) q' := by
  induction acts generalizing s q with
  | nil => exact ⟨q, h⟩
  | cons act acts ih =>
    obtain ⟨q', h'⟩ := inv_step hs h act
    exact ih h'

/-- The cell behind the queue and the first cell of the queue are different ones. -/
theorem Inv.apart (hs : Ring.Sizes cap usizeSize) (h : Inv cap s q) {item : T} {head tail : ℕ}
    (hp : s.producer = .notFull item head) (hc : s.consumer = .notEmpty tail) :
    head % cap ≠ tail % cap := by
  have hprod := h.producer
  have hcons := h.consumer
  rw [hp] at hprod
  rw [hc] at hcons
  obtain ⟨rfl, hroom⟩ := hprod
  obtain ⟨rfl, hne⟩ := hcons
  have hpos : 0 < q.length := List.length_pos_iff.mpr hne
  rw [h.holds.head, h.holds.tail, hs.mod_mod, hs.mod_mod]
  intro heq
  have hdvd := Nat.dvd_of_mod_eq_zero (Nat.sub_mod_eq_zero_of_mod_eq heq)
  rw [Nat.add_sub_cancel_left] at hdvd
  have hle := Nat.le_of_dvd hpos hdvd
  omega

theorem Inv.fifo (hs : Ring.Sizes cap usizeSize) (h : Inv cap s q) : Fifo cap s where
  order := ⟨q, h.split.symm⟩
  stored := by
    rw [h.split, List.length_append]
    exact Nat.add_le_add_left h.holds.len _
  full := by
    intro item hfail
    obtain ⟨q', hspec⟩ := push_spec hs h.holds h.producer item
    rw [h.split, List.length_append, hspec.full hfail]
  apart := fun _ _ _ hp hc => h.apart hs hp hc

theorem inv_new (cap : ℕ) (defaultVal : T) : Inv cap (new defaultVal) [] :=
  ⟨rfl, Ring.holds_nil defaultVal, trivial, trivial⟩

theorem sizes_two_pow (k : Fin 64) : Ring.Sizes (2 ^ k.val) usizeSize where
  pos := Nat.two_pow_pos _
  lt := Nat.pow_lt_pow_right (by decide) k.isLt
  dvd := Nat.pow_dvd_pow 2 (Nat.le_of_lt k.isLt)

/-- With any capacity that is a power of two, for any items and in any order of the accesses, the
ring behaves as a bounded queue; the counters may wrap any number of times. -/
theorem run_fifo (k : Fin 64) (defaultVal : T) (acts : List (SpscAct T)) :
    Fifo (2 ^ k.val) ((new defaultVal).run (2 ^ k.val) acts) := by
  obtain ⟨q, h⟩ := inv_run (sizes_two_pow k) (inv_new _ defaultVal) acts
  exact h.fifo (sizes_two_pow k)

end SpscState

end Smp

end LatencyOS
