import LatencyOS.Lib.Json
import Mathlib.Algebra.BigOperators.Group.List.Basic
import Mathlib.Algebra.Order.Group.Int

/-!
# What a value costs to write

Backslashes and the letter `u` are counted, and the letters `i` and `N`, which no number
contains, are taken off.  Every text of a value weighs at least what the value costs, however
its characters are escaped, so a text that weighs less is not a text of the value.
-/

namespace LatencyOS.Json

variable {F : Type}

/-! ## Weights -/

def weigh (c : Char) : ℤ :=
  if c = '\\' ∨ c = 'u' then 1 else if c = 'i' ∨ c = 'N' then -1 else 0

/-- The weight of a text. -/
def weight (s : Str) : ℤ := (s.map weigh).sum

@[simp] theorem weight_nil : weight [] = 0 := rfl

@[simp] theorem weight_cons (c : Char) (s : Str) : weight (c :: s) = weigh c + weight s := by
  simp [weight]

@[simp] theorem weight_append (s t : Str) : weight (s ++ t) = weight s + weight t := by
  simp [weight]

theorem weight_eq_zero {s : Str} (h : ∀ c ∈ s, weigh c = 0) : weight s = 0 := by
  induction s with
  | nil => rfl
  | cons c s ih =>
    rw [List.forall_mem_cons] at h
    rw [weight_cons, h.1, ih h.2, Int.zero_add]

/-- Commas weigh nothing. -/
theorem weight_intercalate (items : List Str) :
    weight ([','].intercalate items) = (items.map weight).sum := by
  induction items with
  | nil => rfl
  | cons a items ih =>
    cases items with
    | nil => simp [List.intercalate]
    | cons b items =>
      have hcomma : weight [','] = 0 := rfl
      rw [List.intercalate_cons_cons, weight_append, weight_append, hcomma, ih, Int.add_zero]
      rfl

/-! ## Costs -/

/-- The least weight of a character in a string. -/
def charCost (c : Char) : ℤ :=
  if c = '\\' then 2 else if c = '"' ∨ c.toNat < 0x20 then 1 else weigh c

def stringCost (s : Str) : ℤ := (s.map charCost).sum

mutual

/-- The least weight of a text of a value. -/
def JsonValue.cost : JsonValue F → ℤ
  | .null => 1
  | .bool b => if b then 1 else 0
  | .number _ => 0
  | .string s => stringCost s
  | .array items => costItems items
  | .object members => costMembers members

def costItems : List (JsonValue F) → ℤ
  | [] => 0
  | v :: rest => v.cost + costItems rest

def costMembers : List (Str × JsonValue F) → ℤ
  | [] => 0
  | (key, v) :: rest => stringCost key + v.cost + costMembers rest

end

/-! ## Every text of a value weighs as much -/

theorem Blank.weight_eq (b : Blank) : weight b.1 = 0 := by
  refine weight_eq_zero fun c hc => ?_
  have hblank := b.2 c hc
  simp only [isBlank, Bool.or_eq_true, beq_iff_eq] at hblank
  rcases hblank with ((rfl | rfl) | rfl) | rfl <;> rfl

theorem charCost_le_two (c : Char) : charCost c ≤ 2 := by
  unfold charCost weigh
  split_ifs <;> decide

theorem charCost_of_plain {c : Char} (h : Plain c) : charCost c = weigh c := by
  obtain ⟨hquote, hslash, hlow⟩ := h
  rw [charCost, if_neg hslash, if_neg (not_or.mpr ⟨hquote, Nat.not_lt.mpr hlow⟩)]

/-- The characters that a number is made of weigh nothing. -/
theorem weigh_eq_zero {c : Char} (h : ∀ d ∈ ['\\', 'u', 'i', 'N'], c ≠ d) : weigh c = 0 := by
  simp only [List.forall_mem_cons, List.not_mem_nil, false_imp_iff, implies_true, and_true] at h
  obtain ⟨h₁, h₂, h₃, h₄⟩ := h
  rw [weigh, if_neg (not_or.mpr ⟨h₁, h₂⟩), if_neg (not_or.mpr ⟨h₃, h₄⟩)]

/-- A control character has to be escaped. -/
theorem weigh_charCost_of_low {c : Char} (h : c.toNat < 0x20) : weigh c = 0 ∧ charCost c = 1 := by
  have hne : ∀ d : Char, 0x20 ≤ d.toNat → c ≠ d := by
    rintro d hd rfl
    omega
  constructor
  · refine weigh_eq_zero ?_
    simp only [List.forall_mem_cons, List.not_mem_nil, false_imp_iff, implies_true, and_true]
    exact ⟨hne _ (by decide), hne _ (by decide), hne _ (by decide), hne _ (by decide)⟩
  · rw [charCost, if_neg (hne _ (by decide)), if_pos (.inr h)]

theorem weight_unit {u : Str} {n : ℕ} (h : unitValue u = some n) : weight u = 0 := by
  refine weight_eq_zero fun c hc => weigh_eq_zero ?_
  rintro d hd rfl
  have hdigit := isHexDigit_of_unitValue h c hc
  simp only [List.mem_cons, List.not_mem_nil, or_false] at hd
  rcases hd with rfl | rfl | rfl | rfl <;> exact absurd hdigit (by decide)

theorem NumberText.weight_eq (x : NumberText) : weight x.text = 0 := by
  refine weight_eq_zero fun c hc => weigh_eq_zero ?_
  rintro d hd rfl
  have htext := x.mem_text hc
  simp only [List.mem_cons, List.not_mem_nil, or_false] at hd
  rcases hd with rfl | rfl | rfl | rfl <;> exact absurd htext (by decide)

/-- A character is not written for less than it costs. -/
theorem Piece.cost_le (p : Piece) : charCost p.char ≤ weight p.text := by
  cases p with
  | plain c h =>
    rw [text, char, weight_cons, weight_nil, Int.add_zero, charCost_of_plain h]
  | short e => cases e <;> decide
  | unicode c units h =>
    have hunits : ∀ u ∈ units, ∃ n, unitValue u = some n := fun u hu => unitValue_of_mem h hu
    have hsum : weight (text (.unicode c units h)) = 2 * units.length := by
      rw [text]
      clear h
      induction units with
      | nil => rfl
      | cons u units ih =>
        rw [List.forall_mem_cons] at hunits
        obtain ⟨⟨n, hn⟩, hrest⟩ := hunits
        have hmarks : weigh '\\' + weigh 'u' = 2 := rfl
        rw [List.flatMap_cons, weight_append, weight_cons, weight_cons, weight_unit hn, ih hrest,
          List.length_cons]
        omega
    have hlen : 1 ≤ units.length := by
      rw [← List.length_map unitValue, h, List.length_map, utf16]
      split <;> simp
    rw [hsum]
    have htwo := charCost_le_two c
    rw [char]
    omega

theorem stringCost_le (s : List Piece) : stringCost (chars s) ≤ weight (stringText s) := by
  have hbody : stringCost (chars s) ≤ weight (s.flatMap Piece.text) := by
    induction s with
    | nil => exact Int.le_refl _
    | cons p s ih =>
      rw [List.flatMap_cons, weight_append]
      exact Int.add_le_add p.cost_le ih
  have hquote : weigh '"' = 0 := rfl
  rw [stringText, weight_cons, weight_append, weight_cons, weight_nil, hquote]
  omega

section Tree
variable (num : NumberText → F)

mutual

theorem Tree.cost_le : (t : Tree) → (t.read num chars).cost ≤ weight t.text
  | .null => Int.le_refl 1
  | .bool true => Int.le_refl 1
  | .bool false => Int.le_refl 0
  | .number x => by
    rw [Tree.read, JsonValue.cost, Tree.text, x.weight_eq]
  | .string s => stringCost_le s
  | .array blank items => by
    have hitems := items.cost_le
    have hopen : weigh '[' = 0 := rfl
    have hclose : weigh ']' = 0 := rfl
    rw [Tree.read, JsonValue.cost, Tree.text, weight_cons, weight_append, weight_append,
      weight_intercalate, weight_cons, weight_nil, blank.weight_eq, hopen, hclose]
    omega
  | .object blank members => by
    have hmembers := members.cost_le
    have hopen : weigh '\x7b' = 0 := rfl
    have hclose : weigh '\x7d' = 0 := rfl
    rw [Tree.read, JsonValue.cost, Tree.text, weight_cons, weight_append, weight_append,
      weight_intercalate, weight_cons, weight_nil, blank.weight_eq, hopen, hclose]
    omega

theorem Items.cost_le : (items : Items) →
    costItems (items.read num chars) ≤ (items.texts.map weight).sum
  | .nil => Int.le_refl _
  | .cons before item after rest => by
    have hitem := item.cost_le
    have hrest := rest.cost_le
    rw [Items.read, costItems, Items.texts, List.map_cons, List.sum_cons, weight_append,
      weight_append, before.weight_eq, after.weight_eq]
    omega

theorem Members.cost_le : (members : Members) →
    costMembers (members.read num chars) ≤ (members.texts.map weight).sum
  | .nil => Int.le_refl _
  | .cons before key behindKey beforeValue value after rest => by
    have hkey := stringCost_le key
    have hvalue := value.cost_le
    have hrest := rest.cost_le
    have hcolon : weigh ':' = 0 := rfl
    rw [Members.read, costMembers, Members.texts, List.map_cons, List.sum_cons, weight_append,
      weight_append, weight_append, weight_cons, weight_append, weight_append, before.weight_eq,
      behindKey.weight_eq, beforeValue.weight_eq, after.weight_eq, hcolon]
    omega

end

end Tree

/-- A text that writes a value weighs at least what the value costs. -/
theorem Writes.cost_le {num : NumberText → F} {s : Str} {v : JsonValue F} (h : Writes num s v) :
    v.cost ≤ weight s := by
  obtain ⟨before, t, after, rfl, rfl⟩ := h
  rw [weight_append, weight_append, before.weight_eq, after.weight_eq, Int.zero_add, Int.add_zero]
  exact t.cost_le num

end LatencyOS.Json
