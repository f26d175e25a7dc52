import Mathlib.Algebra.Ring.Int.Defs
import Mathlib.Algebra.Ring.Nat
import Mathlib.Data.Nat.Init
import Mathlib.Data.Nat.ModEq
import Mathlib.Logic.Function.Basic

/-!
# Rings with free-running counters

A ring holds a queue in `cap` cells.  The counters of the two ends run freely modulo `w`, a
multiple of `cap`; the queue starts at the cell the one points to and its length is their
difference.  `Ring.Holds` relates a ring to the queue it holds and to the number of items that
have left it.
-/

namespace LatencyOS

/-- The cells of a ring and its counters: `head` counts what came in, `tail` what went out. -/
structure Ring (α : Type) where
  buffer : ℕ → α
  head : ℕ
  tail : ℕ

/-- The difference of two counters modulo `w`. -/
def wrappingSub (w a b : ℕ) : ℕ := (a + w - b) % w

namespace Ring

variable {α : Type} {cap w : ℕ}

/-- A ring holds a queue, after `out` items have left it. -/
structure Holds (cap w : ℕ) (r : Ring α) (out : ℕ) (q : List α) : Prop where
  tail : r.tail = out % w
  head : r.head = (out + q.length) % w
  len : q.length ≤ cap
  cells : ∀ i x, q[i]? = some x → r.buffer ((out + i) % cap) = x

/-- The sizes a ring can have. -/
structure Sizes (cap w : ℕ) : Prop where
  pos : 0 < cap
  lt : cap < w
  dvd : cap ∣ w

variable {r : Ring α} {out : ℕ} {q : List α} {x : α}

theorem Sizes.mod_mod (h : Sizes cap w) (n : ℕ) : n % w % cap = n % cap :=
  Nat.mod_mod_of_dvd n h.dvd

theorem holds_nil (d : α) : Holds cap w ⟨fun _ => d, 0, 0⟩ 0 [] :=
  ⟨(Nat.zero_mod w).symm, (Nat.zero_mod w).symm, Nat.zero_le _, fun _ _ h => nomatch h⟩

namespace Holds

/-- The counters differ by the length. -/
theorem wrappingSub_eq (hs : Sizes cap w) (h : Holds cap w r out q) :
    wrappingSub w r.head r.tail = q.length := by
  have hlen := h.len
  have hlt := hs.lt
  have hw : 0 < w := Nat.lt_of_le_of_lt (Nat.zero_le _) hs.lt
  have htail : out % w < w := Nat.mod_lt _ hw
  rw [wrappingSub, h.head, h.tail, Nat.add_mod out]
  rw [Nat.mod_eq_of_lt (Nat.lt_of_le_of_lt hlen hlt)]
  rcases Nat.lt_or_ge (out % w + q.length) w with hsum | hsum
  · rw [Nat.mod_eq_of_lt hsum, show out % w + q.length + w - out % w = q.length + w by omega,
      Nat.add_mod_right, Nat.mod_eq_of_lt (by omega)]
  · rw [Nat.mod_eq_sub_mod hsum, Nat.mod_eq_of_lt (show out % w + q.length - w < w by omega),
      show out % w + q.length - w + w - out % w = q.length by omega, Nat.mod_eq_of_lt (by omega)]

/-- The counters agree exactly when the queue is empty. -/
theorem tail_eq_head_iff (hs : Sizes cap w) (h : Holds cap w r out q) :
    r.tail = r.head ↔ q = [] := by
  have hsub := h.wrappingSub_eq hs
  have hw : 0 < w := Nat.lt_of_le_of_lt (Nat.zero_le _) hs.lt
  have htail : r.tail < w := by
    rw [h.tail]
    exact Nat.mod_lt _ hw
  constructor
  · intro heq
    rw [wrappingSub, ← heq, Nat.add_sub_cancel_left, Nat.mod_self] at hsub
    exact List.eq_nil_of_length_eq_zero hsub.symm
  · rintro rfl
    rw [h.tail, h.head]
    rfl

/-- The cell behind the queue is not one of the queue. -/
theorem write (hs : Sizes cap w) (h : Holds cap w r out q) (hroom : q.length < cap) (x : α) :
    Holds cap w { r with buffer := Function.update r.buffer (r.head % cap) x } out q := by
  refine ⟨h.tail, h.head, h.len, fun i y hi => ?_⟩
  have hlt : i < q.length := (List.getElem?_eq_some_iff.mp hi).1
  have hne : (out + i) % cap ≠ r.head % cap := by
    rw [h.head, hs.mod_mod]
    intro heq
    have hdvd := Nat.dvd_of_mod_eq_zero (Nat.sub_mod_eq_zero_of_mod_eq heq.symm)
    have hle := Nat.le_of_dvd (by omega) hdvd
    omega
  change Function.update r.buffer (r.head % cap) x ((out + i) % cap) = y
  rw [Function.update_of_ne hne]
  exact h.cells i y hi

/-- An item in the cell behind the queue comes in. -/
theorem push (hs : Sizes cap w) (h : Holds cap w r out q) (hroom : q.length < cap)
    (hcell : r.buffer (r.head % cap) = x) :
    Holds cap w { r with head := (r.head + 1) % w } out (q ++ [x]) := by
  refine ⟨h.tail, ?_, ?_, fun i y hi => ?_⟩
  · change (r.head + 1) % w = _
    rw [h.head, Nat.mod_add_mod, List.length_append, List.length_singleton, Nat.add_assoc]
  · rw [List.length_append, List.length_singleton]
    exact hroom
  · rcases Nat.lt_or_ge i q.length with hlt | hge
    · rw [List.getElem?_append_left hlt] at hi
      exact h.cells i y hi
    · rw [List.getElem?_append_right hge] at hi
      obtain ⟨hzero, hx⟩ := List.getElem?_eq_some_iff.mp hi
      have hi' : i = q.length := by
        rw [List.length_singleton] at hzero
        omega
      subst hi'
      simp only [Nat.sub_self, List.getElem_cons_zero] at hx
      change r.buffer ((out + q.length) % cap) = y
      rw [← hs.mod_mod, ← h.head, hcell, hx]

/-- The first item stands in the cell the tail points to. -/
theorem front (hs : Sizes cap w) (h : Holds cap w r out (x :: q)) :
    r.buffer (r.tail % cap) = x := by
  rw [h.tail, hs.mod_mod]
  exact h.cells 0 x rfl

/-- The first item goes out. -/
theorem pop (h : Holds cap w r out (x :: q)) :
    Holds cap w { r with tail := (r.tail + 1) % w } (out + 1) q := by
  refine ⟨?_, ?_, ?_, fun i y hi => ?_⟩
  · change (r.tail + 1) % w = _
    rw [h.tail, Nat.mod_add_mod]
  · change r.head = _
    rw [h.head, List.length_cons, Nat.add_assoc, Nat.add_comm q.length]
  · have := h.len
    rw [List.length_cons] at this
    omega
  · change r.buffer ((out + 1 + i) % cap) = y
    rw [Nat.add_assoc, Nat.add_comm 1 i]
    exact h.cells (i + 1) y hi

end Holds

/-! ## Windows -/

/-- The first `n` cells from a cell on. -/
def window (cap start : ℕ) : ℕ → List ℕ
  | 0 => []
  | n + 1 => start % cap :: window cap (start + 1) n

variable {start n i : ℕ}

theorem mem_window : i ∈ window cap start n ↔ ∃ k < n, i = (start + k) % cap := by
  induction n generalizing start with
  | zero => simp [window]
  | succ n ih =>
    rw [window, List.mem_cons, ih]
    constructor
    · rintro (rfl | ⟨k, hk, rfl⟩)
      · exact ⟨0, Nat.succ_pos n, rfl⟩
      · exact ⟨k + 1, Nat.succ_lt_succ hk, by rw [Nat.add_right_comm, Nat.add_assoc]⟩
    · rintro ⟨_ | k, hk, rfl⟩
      · exact .inl rfl
      · refine .inr ⟨k, Nat.lt_of_succ_lt_succ hk, ?_⟩
        rw [Nat.add_right_comm, Nat.add_assoc]

theorem window_succ (cap start n : ℕ) :
    window cap start (n + 1) = window cap start n ++ [(start + n) % cap] := by
  induction n generalizing start with
  | zero => rfl
  | succ n ih =>
    rw [window, ih, window, List.cons_append, Nat.add_right_comm, Nat.add_assoc]

theorem window_mod (cap start n : ℕ) : window cap (start % cap) n = window cap start n := by
  induction n generalizing start with
  | zero => rfl
  | succ n ih => rw [window, window, Nat.mod_mod, ← ih, Nat.mod_add_mod, ih]

/-- A window of at most all cells leads to a cell outside of it, or holds all of them. -/
theorem end_mem_window_iff (hn : n ≤ cap) : (start + n) % cap ∈ window cap start n ↔
    n = cap ∧ 0 < cap := by
  rw [mem_window]
  constructor
  · rintro ⟨k, hk, heq⟩
    have hdvd : (start + n) ≡ (start + k) [MOD cap] := heq
    have hsub : cap ∣ n - k := by
      have := (Nat.modEq_iff_dvd' (by omega)).mp hdvd.symm
      rwa [Nat.add_sub_add_left] at this
    have := Nat.le_of_dvd (by omega) hsub
    omega
  · rintro ⟨rfl, hpos⟩
    exact ⟨0, hpos, by rw [Nat.add_mod_right, Nat.add_zero]⟩

/-- The cells after a cell come back to it only after all of them. -/
theorem not_mem_window_succ (hn : n < cap) : start % cap ∉ window cap (start + 1) n := by
  rw [mem_window]
  rintro ⟨k, hk, heq⟩
  have hmod : start ≡ start + 1 + k [MOD cap] := heq
  have hsub : cap ∣ 1 + k := by
    have := (Nat.modEq_iff_dvd' (by omega)).mp hmod
    rwa [Nat.add_assoc, Nat.add_sub_cancel_left] at this
  have := Nat.le_of_dvd (by omega) hsub
  omega

end Ring

end LatencyOS

namespace LatencyOS.Recent

/-!
## A ring of the last entries

Entries are counted, and each is written to the slot of its number modulo the size of the ring.
The last entries are read back from there, as far as the ring goes; one entry further back, the
newest is read.
-/

variable {α : Type} {cap : ℕ} {slots : ℕ → α} {l : List α}

/-- The slots hold the last entries of a list. -/
def Holds (cap : ℕ) (slots : ℕ → α) (l : List α) : Prop :=
  ∀ k < min cap l.length, l.reverse[k]? = some (slots ((l.length - (k + 1)) % cap))

theorem Holds.nil (cap : ℕ) (slots : ℕ → α) : Holds cap slots [] := by
  intro k hk
  rw [List.length_nil, Nat.min_zero] at hk
  exact absurd hk (Nat.not_lt_zero k)

/-- Entries that are less than a ring apart have different slots. -/
theorem sub_mod_ne {n k : ℕ} (hpos : 0 < k) (hcap : k < cap) (hn : k ≤ n) :
    (n - k) % cap ≠ n % cap := by
  intro heq
  have hmod := Nat.sub_mod_eq_zero_of_mod_eq heq.symm
  rw [Nat.sub_sub_self hn, Nat.mod_eq_of_lt hcap] at hmod
  exact Nat.ne_of_gt hpos hmod

theorem Holds.push (h : Holds cap slots l) (x : α) :
    Holds cap (Function.update slots (l.length % cap) x) (l ++ [x]) := by
  intro k hk
  rw [List.length_append, List.length_singleton] at hk ⊢
  rw [List.reverse_append, List.reverse_singleton, List.singleton_append, Nat.add_sub_add_right]
  cases k with
  | zero => rw [List.getElem?_cons_zero, Nat.sub_zero, Function.update_self]
  | succ k =>
    have hne := @sub_mod_ne cap l.length (k + 1) k.succ_pos (by omega) (by omega)
    rw [List.getElem?_cons_succ, Function.update_of_ne hne]
    exact h k (by omega)

end LatencyOS.Recent
