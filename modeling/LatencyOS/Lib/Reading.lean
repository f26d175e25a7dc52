import Mathlib.Logic.Basic

/-!
# Equality up to a partial reading

Some words are read as something else: a reference as the text behind it.  Two words are then
the same when they are equal or when both are read, as the same thing.  Words that are not read
are the same as themselves only.
-/

namespace LatencyOS

variable {α β : Type*}

/-- Equal, or read as the same. -/
def SameReading (read : α → Option β) (x y : α) : Prop :=
  x = y ∨ ∃ b, read x = some b ∧ read y = some b

namespace SameReading

variable {read : α → Option β} {x y z : α}

theorem refl (x : α) : SameReading read x x := .inl rfl

theorem symm (h : SameReading read x y) : SameReading read y x := by
  rcases h with rfl | ⟨b, hx, hy⟩
  · exact refl x
  · exact .inr ⟨b, hy, hx⟩

theorem trans (hxy : SameReading read x y) (hyz : SameReading read y z) :
    SameReading read x z := by
  rcases hxy with rfl | ⟨b, hx, hy⟩
  · exact hyz
  rcases hyz with rfl | ⟨c, hy', hz⟩
  · exact .inr ⟨b, hx, hy⟩
  · obtain rfl : b = c := Option.some.inj (hy.symm.trans hy')
    exact .inr ⟨b, hx, hz⟩

end SameReading

theorem sameReading_equivalence (read : α → Option β) : Equivalence (SameReading read) :=
  ⟨.refl, .symm, .trans⟩

/-- What is not read is the same as itself only. -/
theorem sameReading_of_eq_none {read : α → Option β} {x y : α} (hx : read x = none) :
    SameReading read x y ↔ x = y := by
  constructor
  · rintro (rfl | ⟨b, hb, -⟩)
    · rfl
    · rw [hx] at hb
      cases hb
  · rintro rfl
    exact .refl x

instance decidableSameReading [DecidableEq α] [DecidableEq β] (read : α → Option β) (x y : α) :
    Decidable (SameReading read x y) :=
  decidable_of_iff (x = y ∨ (read x).isSome = true ∧ read x = read y) <| by
    refine or_congr_right ?_
    rw [Option.isSome_iff_exists]
    constructor
    · rintro ⟨⟨b, hb⟩, heq⟩
      exact ⟨b, hb, heq ▸ hb⟩
    · rintro ⟨b, hx, hy⟩
      exact ⟨⟨b, hx⟩, hx.trans hy.symm⟩

end LatencyOS
