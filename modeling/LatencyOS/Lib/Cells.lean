import LatencyOS.Lib.Span
import Mathlib.Algebra.Ring.Int.Defs
import Mathlib.Algebra.Ring.Nat
import Mathlib.Data.List.DropRight
import Mathlib.Logic.Function.Basic

/-!
# Fixed arrays

An array of `cap` cells whose every access is checked: an access outside of it has no outcome.
The loops that move a block of cells, and those that look for a cell in one direction, are
described by what they do to the lists that stand in the array.
-/

namespace LatencyOS.Cells

variable {α : Type}

/-- The cell at an index. -/
def read (cap : ℕ) (b : ℕ → α) (i : ℕ) : Option α := if i < cap then some (b i) else none

/-- The array with a new value at an index. -/
def write (cap : ℕ) (b : ℕ → α) (i : ℕ) (x : α) : Option (ℕ → α) :=
  if i < cap then some (Function.update b i x) else none

/-- The list of `n` cells from an index on. -/
def slice (b : ℕ → α) (i : ℕ) : ℕ → List α
  | 0 => []
  | n + 1 => b i :: slice b (i + 1) n

/-- The list is copied to the cells from an index on. -/
def copy (cap : ℕ) (b : ℕ → α) (i : ℕ) (xs : List α) : Option (ℕ → α) :=
  if i + xs.length ≤ cap then
    some fun j => if i ≤ j then (xs[j - i]?).getD (b j) else b j
  else none

/-- The `n` cells from `lo` on move up by `k`, the last one first. -/
def shiftUp (cap k lo : ℕ) : ℕ → (ℕ → α) → Option (ℕ → α)
  | 0, b => some b
  | n + 1, b => do
    let x ← read cap b (lo + n)
    let b ← write cap b (lo + n + k) x
    shiftUp cap k lo n b

/-- `n` cells move down by `k` to those from `i` on, the first one first. -/
def shiftDown (cap k : ℕ) : ℕ → ℕ → (ℕ → α) → Option (ℕ → α)
  | 0, _, b => some b
  | n + 1, i, b => do
    let x ← read cap b (i + k)
    let b ← write cap b i x
    shiftDown cap k n (i + 1) b

/-- The first of the `n` cells from `i` on at which to stop, or the index after them. -/
def scanTo (cap : ℕ) (stop : α → Bool) (b : ℕ → α) : ℕ → ℕ → Option ℕ
  | 0, i => some i
  | n + 1, i => do
    let x ← read cap b i
    if stop x then some i else scanTo cap stop b n (i + 1)

/-- The index after the last of the first `n` cells at which to stop, or 0. -/
def scanBack (cap : ℕ) (stop : α → Bool) (b : ℕ → α) : ℕ → Option ℕ
  | 0 => some 0
  | n + 1 => do
    let x ← read cap b n
    if stop x then some (n + 1) else scanBack cap stop b n

variable {cap k lo n m i : ℕ} {b b' : ℕ → α}

theorem read_eq (h : i < cap) : read cap b i = some (b i) := if_pos h

theorem write_eq (h : i < cap) (x : α) : write cap b i x = some (Function.update b i x) := if_pos h

/-! ## Slices -/

@[simp] theorem slice_zero (b : ℕ → α) (i : ℕ) : slice b i 0 = [] := rfl

@[simp] theorem length_slice (b : ℕ → α) (i n : ℕ) : (slice b i n).length = n := by
  induction n generalizing i with
  | zero => rfl
  | succ n ih => rw [slice, List.length_cons, ih]

theorem slice_add (b : ℕ → α) (i m n : ℕ) :
    slice b i (m + n) = slice b i m ++ slice b (i + m) n := by
  induction m generalizing i with
  | zero => rw [Nat.zero_add, slice, List.nil_append, Nat.add_zero]
  | succ m ih =>
    rw [Nat.succ_add, slice, slice, ih, List.cons_append, Nat.add_assoc, Nat.add_comm 1 m]

theorem slice_succ (b : ℕ → α) (i n : ℕ) : slice b i (n + 1) = slice b i n ++ [b (i + n)] :=
  slice_add b i n 1

theorem slice_congr {i' : ℕ} (h : ∀ j < n, b' (i' + j) = b (i + j)) :
    slice b' i' n = slice b i n := by
  induction n generalizing i i' with
  | zero => rfl
  | succ n ih =>
    have hfirst : b' i' = b i := h 0 (Nat.succ_pos n)
    rw [slice, slice, hfirst]
    refine congrArg _ (ih fun j hj => ?_)
    rw [Nat.add_assoc, Nat.add_assoc, Nat.add_comm 1 j]
    exact h (j + 1) (Nat.succ_lt_succ hj)

theorem slice_of_getElem? {xs : List α} (h : ∀ j < xs.length, some (b (i + j)) = xs[j]?) :
    slice b i xs.length = xs := by
  induction xs generalizing i with
  | nil => rfl
  | cons x xs ih =>
    rw [List.length_cons, slice]
    have hx : b i = x := Option.some.inj (h 0 (Nat.succ_pos _))
    rw [hx]
    refine congrArg _ (ih fun j hj => ?_)
    rw [Nat.add_assoc, Nat.add_comm 1 j]
    exact h (j + 1) (Nat.succ_lt_succ hj)

theorem take_slice (h : m ≤ n) : (slice b i n).take m = slice b i m := by
  obtain ⟨r, rfl⟩ := Nat.exists_eq_add_of_le h
  rw [slice_add]
  exact List.take_left' (length_slice b i m)

theorem drop_slice (h : m ≤ n) : (slice b i n).drop m = slice b (i + m) (n - m) := by
  obtain ⟨r, rfl⟩ := Nat.exists_eq_add_of_le h
  rw [slice_add, Nat.add_sub_cancel_left]
  exact List.drop_left' (length_slice b i m)

/-- A prefix of a slice is the slice of its length. -/
theorem slice_of_prefix {xs : List α} (h : xs <+: slice b i n) : slice b i xs.length = xs := by
  have hle : xs.length ≤ n := by
    have := h.length_le
    rwa [length_slice] at this
  rw [← take_slice hle]
  exact (List.prefix_iff_eq_take.mp h).symm

/-! ## Moving a block -/

theorem copy_spec {xs : List α} (h : i + xs.length ≤ cap) :
    ∃ b', copy cap b i xs = some b' ∧ slice b' i xs.length = xs ∧
      ∀ j, (j < i ∨ i + xs.length ≤ j) → b' j = b j := by
  refine ⟨_, if_pos h, slice_of_getElem? fun j hj => ?_, fun j hj => ?_⟩
  · simp only [Nat.le_add_right, if_true, Nat.add_sub_cancel_left]
    rw [List.getElem?_eq_getElem hj, Option.getD_some]
  · rcases hj with hlt | hge
    · exact if_neg (Nat.not_le_of_lt hlt)
    · have hle : i ≤ j := by omega
      simp only [if_pos hle]
      rw [List.getElem?_eq_none (by omega), Option.getD_none]

/-- What stands in front of the list that is copied and behind it is kept. -/
theorem copy_cut {xs : List α} (h : i + xs.length ≤ cap) :
    ∃ b', copy cap b i xs = some b' ∧ slice b' 0 i = slice b 0 i ∧ slice b' i xs.length = xs ∧
      ∀ m, slice b' (i + xs.length) m = slice b (i + xs.length) m := by
  obtain ⟨b', hb', hcopied, hkept⟩ := copy_spec (b := b) h
  refine ⟨b', hb', slice_congr fun j hj => ?_, hcopied, fun m => slice_congr fun j _ => ?_⟩
  · rw [Nat.zero_add]
    exact hkept j (.inl hj)
  · exact hkept _ (.inr (Nat.le_add_right _ _))

theorem slice_update_of_le {j : ℕ} (h : i + n ≤ j) (x : α) :
    slice (Function.update b j x) i n = slice b i n :=
  slice_congr fun _ _ => Function.update_of_ne (by omega) _ _

theorem slice_update_of_lt {j : ℕ} (h : j < i) (x : α) :
    slice (Function.update b j x) i n = slice b i n :=
  slice_congr fun _ _ => Function.update_of_ne (by omega) _ _

theorem shiftUp_spec (hk : 0 < k) (h : lo + n + k ≤ cap) :
    ∃ b', shiftUp cap k lo n b = some b' ∧ (∀ j < n, b' (lo + k + j) = b (lo + j)) ∧
      ∀ j, (j < lo + k ∨ lo + k + n ≤ j) → b' j = b j := by
  induction n generalizing b with
  | zero => exact ⟨b, rfl, fun j hj => absurd hj (Nat.not_lt_zero j), fun _ _ => rfl⟩
  | succ n ih =>
    obtain ⟨b', hb', hmoved, hkept⟩ := ih (b := Function.update b (lo + n + k) (b (lo + n)))
      (by omega)
    refine ⟨b', ?_, fun j hj => ?_, fun j hj => ?_⟩
    · rw [shiftUp, read_eq (by omega), Option.bind_eq_bind, Option.bind_some,
        write_eq (by omega), Option.bind_eq_bind, Option.bind_some, hb']
    · rcases Nat.lt_succ_iff_lt_or_eq.mp hj with hlt | rfl
      · rw [hmoved j hlt, Function.update_of_ne (by omega)]
      · rw [hkept _ (.inr (by omega)), show lo + k + j = lo + j + k by omega,
          Function.update_self]
    · rw [hkept j (by omega), Function.update_of_ne (by omega)]

theorem shiftDown_spec (h : i + n + k ≤ cap) :
    ∃ b', shiftDown cap k n i b = some b' ∧ (∀ j < n, b' (i + j) = b (i + k + j)) ∧
      ∀ j < i, b' j = b j := by
  induction n generalizing b i with
  | zero => exact ⟨b, rfl, fun j hj => absurd hj (Nat.not_lt_zero j), fun _ _ => rfl⟩
  | succ n ih =>
    obtain ⟨b', hb', hmoved, hkept⟩ := ih (b := Function.update b i (b (i + k))) (i := i + 1)
      (by omega)
    refine ⟨b', ?_, fun j hj => ?_, fun j hj => ?_⟩
    · rw [shiftDown, read_eq (by omega), Option.bind_eq_bind, Option.bind_some,
        write_eq (by omega), Option.bind_eq_bind, Option.bind_some, hb']
    · rcases j with _ | j
      · rw [Nat.add_zero, hkept i (Nat.lt_succ_self i), Function.update_self, Nat.add_zero]
      · rw [show i + (j + 1) = i + 1 + j by omega, hmoved j (by omega),
          Function.update_of_ne (by omega), show i + 1 + k + j = i + k + (j + 1) by omega]
    · rw [hkept j (by omega), Function.update_of_ne (by omega)]

/-- Room of `k` cells is made at a position of the first `n` cells. -/
theorem shiftUp_cut {pos : ℕ} (hk : 0 < k) (hpos : pos ≤ n) (h : n + k ≤ cap) :
    ∃ b', shiftUp cap k pos (n - pos) b = some b' ∧ slice b' 0 pos = slice b 0 pos ∧
      slice b' (pos + k) (n - pos) = slice b pos (n - pos) := by
  obtain ⟨b', hb', hmoved, hkept⟩ := shiftUp_spec (b := b) hk
    (show pos + (n - pos) + k ≤ cap by omega)
  refine ⟨b', hb', slice_congr fun j hj => ?_, slice_congr hmoved⟩
  rw [Nat.zero_add]
  exact hkept j (.inl (by omega))

/-- The `k` cells at a position are taken out of the first `n` cells. -/
theorem shiftDown_cut {pos : ℕ} (hpos : pos + k ≤ n) (h : n ≤ cap) :
    ∃ b', shiftDown cap k (n - k - pos) pos b = some b' ∧ slice b' 0 pos = slice b 0 pos ∧
      slice b' pos (n - k - pos) = slice b (pos + k) (n - (pos + k)) := by
  obtain ⟨b', hb', hmoved, hkept⟩ := shiftDown_spec (b := b)
    (show pos + (n - k - pos) + k ≤ cap by omega)
  refine ⟨b', hb', slice_congr fun j hj => ?_, ?_⟩
  · rw [Nat.zero_add]
    exact hkept j hj
  · rw [show n - (pos + k) = n - k - pos by omega]
    exact slice_congr hmoved

/-! ## Looking for a cell -/

variable (stop : α → Bool)

theorem scanTo_spec (h : i + n ≤ cap) :
    scanTo cap stop b n i = some (i + ((slice b i n).takeWhile (! stop ·)).length) := by
  induction n generalizing i with
  | zero => rfl
  | succ n ih =>
    rw [scanTo, read_eq (by omega), Option.bind_eq_bind, Option.bind_some, slice]
    cases hstop : stop (b i) with
    | true => simp [hstop]
    | false =>
      rw [if_neg Bool.false_ne_true, ih (by omega), List.takeWhile_cons_of_pos (by simp [hstop]),
        List.length_cons, Nat.add_assoc, Nat.add_comm 1]

theorem scanBack_spec (h : n ≤ cap) :
    scanBack cap stop b n = some ((slice b 0 n).rdropWhile (! stop ·)).length := by
  induction n with
  | zero => rfl
  | succ n ih =>
    rw [scanBack, read_eq (by omega), Option.bind_eq_bind, Option.bind_some, slice_succ,
      Nat.zero_add]
    cases hstop : stop (b n) with
    | true =>
      rw [if_pos rfl, List.rdropWhile_concat_neg _ _ _ (by simp [hstop]), List.length_append,
        length_slice, List.length_singleton]
    | false =>
      rw [if_neg Bool.false_ne_true, ih (by omega),
        List.rdropWhile_concat_pos _ _ _ (by simp [hstop])]

/-- Back over the cells that meet a test, then over those that do not. -/
theorem scanBack_twice (h : n ≤ cap) :
    (scanBack cap (! stop ·) b n).bind (scanBack cap stop b) =
      some (((slice b 0 n).rdropWhile stop).rdropWhile (! stop ·)).length := by
  have hprefix := List.rdropWhile_prefix stop (slice b 0 n)
  have hle := hprefix.length_le
  rw [length_slice] at hle
  rw [scanBack_spec _ h, Option.bind_some]
  simp only [Bool.not_not]
  rw [scanBack_spec _ (Nat.le_trans hle h), slice_of_prefix hprefix]

/-- On over the cells that do not meet a test, then over those that do. -/
theorem scanTo_twice (hi : i ≤ n) (h : n ≤ cap) :
    (scanTo cap stop b (n - i) i).bind (fun j => scanTo cap (! stop ·) b (n - j) j) =
      some (n - (((slice b i (n - i)).dropWhile (! stop ·)).dropWhile stop).length) := by
  have hnot : (fun x => ! ! stop x) = stop := funext fun _ => Bool.not_not _
  have hlen := length_takeWhile_add (! stop ·) (slice b i (n - i))
  have hdrop := drop_length_takeWhile (! stop ·) (slice b i (n - i))
  rw [length_slice] at hlen
  rw [scanTo_spec stop (by omega), Option.bind_some, scanTo_spec _ (by omega), ← Nat.sub_sub,
    ← drop_slice (by omega), hdrop, hnot]
  have hlen' := length_takeWhile_add stop ((slice b i (n - i)).dropWhile (! stop ·))
  congr 1
  omega

end LatencyOS.Cells
