import LatencyOS.Vm.Kernel

/-!
# Cycles and nanoseconds

`tsc_to_ns` and `ns_to_tsc` multiply on 128 bits, divide and cut the quotient to 64 bits.  At a
frequency of at least one cycle a nanosecond no nanosecond count is cut, and a cycle count comes
back from nanoseconds at most one nanosecond and one cycle too low.  The cycles of a large
nanosecond count are cut, so `ns_to_tsc` is monotone only where they fit.
-/

namespace LatencyOS

/-! ## Changing the unit of a count -/

/-- A count in a unit of which `num` are `den` of the old one, rounded down. -/
def rescale (n num den : ℕ) : ℕ := n * num / den

theorem rescale_mono {n m : ℕ} (h : n ≤ m) (num den : ℕ) :
    rescale n num den ≤ rescale m num den :=
  Nat.div_le_div_right (Nat.mul_le_mul_right num h)

theorem rescale_le {num den : ℕ} (h : num ≤ den) (n : ℕ) : rescale n num den ≤ n := by
  by_cases hden : den = 0
  · rw [rescale, hden, Nat.div_zero]
    exact Nat.zero_le n
  · exact Nat.div_le_of_le_mul (Nat.mul_comm n num ▸ Nat.mul_le_mul_right n h)

variable {num den : ℕ}

theorem lt_rescale (hden : 0 < den) (n num : ℕ) : n * num < (rescale n num den + 1) * den := by
  rw [Nat.add_mul, Nat.one_mul]
  exact Nat.lt_div_mul_add hden

/-- There and back again nothing is gained. -/
theorem rescale_rescale_le (n : ℕ) : rescale (rescale n num den) den num ≤ n := by
  refine Nat.div_le_of_le_mul ?_
  calc rescale n num den * den ≤ n * num := Nat.div_mul_le_self _ _
    _ = num * n := Nat.mul_comm _ _

/-- What is lost is less than one unit of the other kind and the rounding of it. -/
theorem lt_rescale_rescale (hnum : 0 < num) (hden : 0 < den) (n : ℕ) :
    n < rescale (rescale n num den) den num + den / num + 2 := by
  have hthere := lt_rescale hden n num
  have hback := lt_rescale hnum (rescale n num den) den
  have hunit : den < (den / num + 1) * num := by
    rw [Nat.add_mul, Nat.one_mul]
    exact Nat.lt_div_mul_add hnum
  refine Nat.lt_of_mul_lt_mul_right (a := num) ?_
  calc n * num < rescale n num den * den + den := by
        rw [Nat.add_mul, Nat.one_mul] at hthere
        exact hthere
    _ ≤ (rescale (rescale n num den) den num + 1) * num + (den / num + 1) * num :=
        Nat.add_le_add (Nat.le_of_lt hback) (Nat.le_of_lt hunit)
    _ = (rescale (rescale n num den) den num + den / num + 2) * num := by
        rw [← Nat.add_mul]
        congr 1
        omega

/-! ## The two conversions -/

theorem toNat_tscToNs (c : Word64) {f : Word64} (hf : 1000000000 ≤ f.toNat) :
    (tscToNs c f).toNat = rescale c.toNat 1000000000 f.toNat := by
  have hne : f ≠ 0#64 := by
    intro hzero
    rw [hzero] at hf
    exact absurd hf (by decide)
  have hlt : rescale c.toNat 1000000000 f.toNat < 2 ^ 64 :=
    Nat.lt_of_le_of_lt (rescale_le hf _) c.isLt
  rw [tscToNs, if_neg hne, BitVec.toNat_ofNat]
  exact Nat.mod_eq_of_lt hlt

theorem toNat_nsToTsc {ns f : Word64} (hfits : ns.toNat * f.toNat / 1000000000 < 2 ^ 64) :
    (nsToTsc ns f).toNat = rescale ns.toNat f.toNat 1000000000 := by
  rw [nsToTsc, BitVec.toNat_ofNat]
  exact Nat.mod_eq_of_lt hfits

/-- The cycles of a time that was measured fit. -/
theorem tscToNs_fits (c : Word64) {f : Word64} (hf : 1000000000 ≤ f.toNat) :
    (tscToNs c f).toNat * f.toNat / 1000000000 < 2 ^ 64 := by
  rw [toNat_tscToNs c hf]
  exact Nat.lt_of_le_of_lt (rescale_rescale_le _) c.isLt

/-- **The clock**: both conversions are monotone, `ns_to_tsc` on the times whose cycles fit in 64
bits, as those of every measured time do; and a cycle count comes back from nanoseconds at most
`f / 10 ^ 9 + 1` cycles too low. -/
theorem clock_conversions {f : Word64} (hf : 1000000000 ≤ f.toNat) :
    (∀ c c' : Word64, c ≤ c' → tscToNs c f ≤ tscToNs c' f) ∧
      (∀ ns ns' : Word64, ns ≤ ns' → ns'.toNat * f.toNat / 1000000000 < 2 ^ 64 →
        nsToTsc ns f ≤ nsToTsc ns' f) ∧
      (∀ c, (tscToNs c f).toNat * f.toNat / 1000000000 < 2 ^ 64) ∧
      ∀ c, (nsToTsc (tscToNs c f) f).toNat ≤ c.toNat ∧
        c.toNat < (nsToTsc (tscToNs c f) f).toNat + f.toNat / 1000000000 + 2 := by
  refine ⟨fun c c' hle => ?_, fun ns ns' hle hfits => ?_, fun c => tscToNs_fits c hf,
    fun c => ?_⟩
  · rw [BitVec.le_def, toNat_tscToNs c hf, toNat_tscToNs c' hf]
    exact rescale_mono hle _ _
  · have hfits' : ns.toNat * f.toNat / 1000000000 < 2 ^ 64 :=
      Nat.lt_of_le_of_lt (rescale_mono hle _ _) hfits
    rw [BitVec.le_def, toNat_nsToTsc hfits', toNat_nsToTsc hfits]
    exact rescale_mono hle _ _
  · rw [toNat_nsToTsc (tscToNs_fits c hf), toNat_tscToNs c hf]
    exact ⟨rescale_rescale_le _, lt_rescale_rescale (by decide) (by omega) _⟩

/-- At the nominal frequency. -/
theorem clock_conversions_nominal :
    (∀ c c' : Word64, c ≤ c' → tscToNs c 2500000000#64 ≤ tscToNs c' 2500000000#64) ∧
      (∀ ns ns' : Word64, ns ≤ ns' → ns'.toNat * 2500000000 / 1000000000 < 2 ^ 64 →
        nsToTsc ns 2500000000#64 ≤ nsToTsc ns' 2500000000#64) ∧
      (∀ c, (tscToNs c 2500000000#64).toNat * 2500000000 / 1000000000 < 2 ^ 64) ∧
      ∀ c, (nsToTsc (tscToNs c 2500000000#64) 2500000000#64).toNat ≤ c.toNat ∧
        c.toNat < (nsToTsc (tscToNs c 2500000000#64) 2500000000#64).toNat + 4 :=
  clock_conversions (f := 2500000000#64) (by decide)

/-- At two cycles a nanosecond, `2 ^ 63` nanoseconds become no cycle at all. -/
theorem nsToTsc_notMonotone :
    ¬ ∀ f : Word64, 1000000000 ≤ f.toNat → f.toNat < 2 ^ 34 →
      ∀ ns ns' : Word64, ns ≤ ns' → nsToTsc ns f ≤ nsToTsc ns' f := by
  intro hall
  have hle := hall 2000000000#64 (by decide) (by decide) 1#64 (BitVec.ofNat 64 (2 ^ 63)) (by decide)
  exact absurd hle (by decide)

end LatencyOS
