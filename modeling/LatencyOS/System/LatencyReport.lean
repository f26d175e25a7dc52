import LatencyOS.Lib.Str
import LatencyOS.Lib.Quicksort
import Mathlib.Algebra.Order.BigOperators.Group.List
import Mathlib.Algebra.Order.Ring.Nat

/-!
# The statistical latency report

For each stage of the pipeline the kernel keeps 1000 samples in nanoseconds.  The report sorts them,
reads the percentiles at their ranks and compares the largest sample with the stage's budget, both
in microseconds: what the sample has beyond its last whole microsecond does not count.
-/

namespace LatencyOS

open Format

/-! ## The samples and the stages -/

def numPipelineStages : ℕ := 7

def statsSampleCount : ℕ := 1000

/-- The samples of a stage, in nanoseconds. -/
abbrev SampleArray : Type := Vector UInt32 statsSampleCount

abbrev StageSamples : Type := Vector SampleArray numPipelineStages

/-- The name of a stage and its budget in microseconds. -/
def getStageInfo (stage : ℕ) : Str × UInt64 :=
  match stage with
  | 0 => (text "Input -> ISR Wakeup", 50)
  | 1 => (text "ISR -> Userspace Notify", 100)
  | 2 => (text "Userspace -> GPU Start", 150)
  | 3 => (text "GPU Start -> Capture Done", 1700)
  | 4 => (text "Capture -> NVENC Encode", 2500)
  | 5 => (text "NVENC -> Network TX Sent", 500)
  | 6 => (text "Total Glass-to-Glass (E2E)", 5000)
  | _ => (text "Unknown Stage", 0)

/-! ## The statistics of a stage -/

instance linearOrderUInt32 : LinearOrder UInt32 where
  le_refl := UInt32.le_refl
  le_trans _ _ _ := UInt32.le_trans
  le_antisymm _ _ := UInt32.le_antisymm
  le_total := UInt32.le_total
  lt_iff_le_not_ge _ _ := by
    rw [UInt32.not_le]
    exact ⟨fun h => ⟨UInt32.le_of_lt h, h⟩, fun h => h.2⟩
  toDecidableLE := inferInstance

/-- Every nested call sorts fewer cells. -/
def quicksortU32 (arr : List UInt32) : Option (List UInt32) :=
  Quicksort.quicksort (arr.length + 1) arr

structure StageStats where
  meanUs : UInt32
  p50Us : UInt32
  p95Us : UInt32
  p99Us : UInt32
  maxUs : UInt32
  minUs : UInt32
  deriving DecidableEq

def sumSamples (sorted : List UInt32) : UInt64 :=
  sorted.foldl (fun sum val => sum + val.toUInt64) 0

def computeStageStats (stageSamples : StageSamples) (stageIdx : ℕ) : Option StageStats := do
  let samples ← stageSamples[stageIdx]?
  let sorted ← quicksortU32 samples.toList
  let meanNs := (sumSamples sorted / UInt64.ofNat statsSampleCount).toUInt32
  let p50Ns ← sorted[statsSampleCount * 50 / 100]?
  let p95Ns ← sorted[statsSampleCount * 95 / 100]?
  let p99Ns ← sorted[statsSampleCount * 99 / 100]?
  let minNs ← sorted[0]?
  let maxNs ← sorted[statsSampleCount - 1]?
  return {
    meanUs := meanNs / 1000
    p50Us := p50Ns / 1000
    p95Us := p95Ns / 1000
    p99Us := p99Ns / 1000
    maxUs := maxNs / 1000
    minUs := minNs / 1000 }

/-! ## The report -/

def status (stats : StageStats) (budgetUs : UInt64) : Str :=
  if stats.maxUs.toUInt64 ≤ budgetUs then text "PASS"
  else if stats.p99Us.toUInt64 ≤ budgetUs then text "PASS (p99)"
  else text "EXCEEDED"

/-- The row of a stage. -/
def reportRow (stageSamples : StageSamples) (stage : ℕ) : Option Str := do
  let info := getStageInfo stage
  let stats ← computeStageStats stageSamples stage
  return padRight 32 info.1 ++ text " | " ++ padLeft 4 (decimalText info.2.toNat) ++
    text " us  | " ++ padLeft 5 (decimalText stats.meanUs.toNat) ++
    text " us | " ++ padLeft 5 (decimalText stats.p50Us.toNat) ++
    text " us | " ++ padLeft 5 (decimalText stats.p95Us.toNat) ++
    text " us | " ++ padLeft 5 (decimalText stats.p99Us.toNat) ++
    text " us | " ++ padLeft 7 (decimalText stats.maxUs.toNat) ++
    text " us  | " ++ status stats info.2

/-- The lines before the rows. -/
def reportHeader : List Str :=
  [text "==================== STATISTICAL LATENCY REPORT (1000 SAMPLES) ====================",
    text "Pipeline Stage                   | Budget   | Mean     | p50      | p95      | " ++
      text "p99      | Max (Worst) | Status",
    List.replicate 105 '-']

/-- The lines after the rows. -/
def reportCriteria : List Str :=
  [text "Criteria: PASS = Worst-case Max <= Budget; PASS (p99) = 99th percentile <= Budget.",
    List.replicate 105 '=']

/-- The lines on the serial port. -/
def printStatisticalLatencyReport (stageSamples : StageSamples) : Option (List Str) := do
  let rows ← (List.range numPipelineStages).mapM (reportRow stageSamples)
  return reportHeader ++ rows ++ reportCriteria

/-- The row of the stage says that it keeps its budget. -/
def SaysPass (stageSamples : StageSamples) (stage : ℕ) : Prop :=
  ∃ lines line, printStatisticalLatencyReport stageSamples = some lines ∧
    lines[reportHeader.length + stage]? = some line ∧ text "| PASS" <:+ line

/-! ## Ranks -/

variable {samples : SampleArray} {sorted : List UInt32}

/-- Quicksort of a slice of the kernel's. -/
theorem quicksortU32_spec (arr : List UInt32) :
    ∃ sorted, quicksortU32 arr = some sorted ∧ sorted.Perm arr ∧ sorted.Pairwise (· ≤ ·) :=
  Quicksort.quicksort_spec (Nat.lt_succ_self _)

/-- The samples in ascending order. -/
structure Ranked (samples : SampleArray) (sorted : List UInt32) : Prop where
  run : quicksortU32 samples.toList = some sorted
  perm : sorted.Perm samples.toList
  ascending : sorted.Pairwise (· ≤ ·)

theorem exists_ranked (samples : SampleArray) : ∃ sorted, Ranked samples sorted := by
  obtain ⟨sorted, hrun, hperm, hasc⟩ := quicksortU32_spec samples.toList
  exact ⟨sorted, hrun, hperm, hasc⟩

namespace Ranked

theorem length_eq (h : Ranked samples sorted) : sorted.length = statsSampleCount := by
  rw [h.perm.length_eq, Vector.length_toList]

theorem get_le (h : Ranked samples sorted) {i j : ℕ} (hij : i ≤ j) (hj : j < sorted.length) :
    sorted[i] ≤ sorted[j] := by
  rcases Nat.eq_or_lt_of_le hij with rfl | hlt
  · exact UInt32.le_refl _
  · exact List.pairwise_iff_getElem.mp h.ascending i j (Nat.lt_of_le_of_lt hij hj) hj hlt

theorem mem_iff (h : Ranked samples sorted) {x : UInt32} : x ∈ sorted ↔ x ∈ samples :=
  h.perm.mem_iff.trans Vector.mem_toList_iff

/-- The last rank has the largest sample. -/
theorem le_last (h : Ranked samples sorted) (hlast : statsSampleCount - 1 < sorted.length)
    {x : UInt32} (hx : x ∈ sorted) : x ≤ sorted[statsSampleCount - 1] := by
  obtain ⟨i, hi, rfl⟩ := List.getElem_of_mem hx
  have hlen := h.length_eq
  exact h.get_le (by omega) hlast

theorem first_le (h : Ranked samples sorted) (hfirst : 0 < sorted.length) {x : UInt32}
    (hx : x ∈ sorted) : sorted[0] ≤ x := by
  obtain ⟨i, hi, rfl⟩ := List.getElem_of_mem hx
  exact h.get_le (Nat.zero_le i) hi

end Ranked

/-! ## The mean -/

/-- The sum of samples does not wrap. -/
theorem toNat_foldl_add (rest : List UInt32) (sum : UInt64)
    (hfits : sum.toNat + rest.length * 2 ^ 32 < 2 ^ 64) :
    (rest.foldl (fun sum val => sum + val.toUInt64) sum).toNat =
      sum.toNat + (rest.map UInt32.toNat).sum := by
  induction rest generalizing sum with
  | nil => simp
  | cons x rest ih =>
    have hx := x.toNat_lt
    rw [List.length_cons] at hfits
    have hstep : (sum + x.toUInt64).toNat = sum.toNat + x.toNat := by
      rw [UInt64.toNat_add, UInt32.toNat_toUInt64]
      exact Nat.mod_eq_of_lt (by omega)
    rw [List.foldl_cons, ih _ (by omega), hstep, List.map_cons, List.sum_cons, Nat.add_assoc]

/-- A sum is between as many times a lower and an upper bound. -/
theorem sum_bounds (lo hi : ℕ) (l : List ℕ) (h : ∀ x ∈ l, lo ≤ x ∧ x ≤ hi) :
    l.length * lo ≤ l.sum ∧ l.sum ≤ l.length * hi := by
  have hlow := List.card_nsmul_le_sum l lo fun x hx => (h x hx).1
  have hhigh := List.sum_le_card_nsmul l hi fun x hx => (h x hx).2
  rw [Nat.nsmul_eq_mul] at hlow hhigh
  exact ⟨hlow, hhigh⟩

namespace Ranked

/-- The mean is between the samples of the first and the last rank. -/
theorem mean_bounds (h : Ranked samples sorted) (hfirst : 0 < sorted.length)
    (hlast : statsSampleCount - 1 < sorted.length) :
    sorted[0].toNat ≤ (sorted.map UInt32.toNat).sum / statsSampleCount ∧
      (sorted.map UInt32.toNat).sum / statsSampleCount ≤ sorted[statsSampleCount - 1].toNat := by
  have hbounds := sum_bounds sorted[0].toNat sorted[statsSampleCount - 1].toNat
    (sorted.map UInt32.toNat) ?_
  · rw [List.length_map, h.length_eq] at hbounds
    have hpos : 0 < statsSampleCount := by decide
    exact ⟨(Nat.le_div_iff_mul_le hpos).mpr (Nat.mul_comm _ _ ▸ hbounds.1),
      Nat.div_le_of_le_mul hbounds.2⟩
  · intro n hn
    obtain ⟨x, hx, rfl⟩ := List.mem_map.mp hn
    exact ⟨h.first_le hfirst hx, h.le_last hlast hx⟩

/-- The mean in nanoseconds fits in 32 bits. -/
theorem toNat_mean (h : Ranked samples sorted) :
    (sumSamples sorted / UInt64.ofNat statsSampleCount).toUInt32.toNat =
      (samples.toList.map UInt32.toNat).sum / statsSampleCount := by
  have hlen := h.length_eq
  have hsum : (sumSamples sorted).toNat = (sorted.map UInt32.toNat).sum := by
    rw [sumSamples, toNat_foldl_add _ _ (by rw [hlen]; decide)]
    exact Nat.zero_add _
  have hbound := (h.mean_bounds (by rw [hlen]; decide) (by rw [hlen]; decide)).2
  have hlt := Nat.lt_of_le_of_lt hbound (UInt32.toNat_lt _)
  rw [UInt64.toNat_toUInt32, UInt64.toNat_div, hsum]
  have hcount : (UInt64.ofNat statsSampleCount).toNat = statsSampleCount := rfl
  rw [hcount, Nat.mod_eq_of_lt hlt, (h.perm.map UInt32.toNat).sum_eq]

end Ranked

/-! ## The statistics are right -/

variable {stageSamples : StageSamples} {stage : ℕ} {stats : StageStats}

/-- A time in whole microseconds. -/
def microseconds (ns : UInt32) : UInt32 := ns / 1000

theorem microseconds_mono {a b : UInt32} (h : a ≤ b) : microseconds a ≤ microseconds b := by
  rw [UInt32.le_iff_toNat_le] at h ⊢
  rw [microseconds, microseconds, UInt32.toNat_div, UInt32.toNat_div]
  exact Nat.div_le_div_right h

/-- Each percentile is the sample at its rank, in microseconds. -/
structure StageStats.AtRanks (sorted : List UInt32) (stats : StageStats) : Prop where
  min : sorted[0]?.map microseconds = some stats.minUs
  p50 : sorted[500]?.map microseconds = some stats.p50Us
  p95 : sorted[950]?.map microseconds = some stats.p95Us
  p99 : sorted[990]?.map microseconds = some stats.p99Us
  max : sorted[999]?.map microseconds = some stats.maxUs

/-- The order of the statistics. -/
structure StageStats.Ascending (stats : StageStats) : Prop where
  min_le_p50 : stats.minUs ≤ stats.p50Us
  p50_le_p95 : stats.p50Us ≤ stats.p95Us
  p95_le_p99 : stats.p95Us ≤ stats.p99Us
  p99_le_max : stats.p99Us ≤ stats.maxUs
  min_le_mean : stats.minUs ≤ stats.meanUs
  mean_le_max : stats.meanUs ≤ stats.maxUs

namespace Ranked

/-- The statistics of the samples in ascending order. -/
theorem computeStageStats_eq (hstage : stage < numPipelineStages)
    (h : Ranked stageSamples[stage] sorted) :
    ∃ stats, computeStageStats stageSamples stage = some stats ∧ stats.AtRanks sorted ∧
      stats.meanUs.toNat =
        ((stageSamples[stage]).toList.map UInt32.toNat).sum / statsSampleCount / 1000 := by
  have hrank : ∀ i < 1000, ∃ x, sorted[i]? = some x := fun i hi =>
    ⟨_, List.getElem?_eq_getElem (h.length_eq ▸ hi)⟩
  obtain ⟨least, hleast⟩ := hrank 0 (by decide)
  obtain ⟨median, hmedian⟩ := hrank 500 (by decide)
  obtain ⟨p95, hp95⟩ := hrank 950 (by decide)
  obtain ⟨p99, hp99⟩ := hrank 990 (by decide)
  obtain ⟨greatest, hgreatest⟩ := hrank 999 (by decide)
  let meanNs := (sumSamples sorted / UInt64.ofNat statsSampleCount).toUInt32
  refine ⟨⟨microseconds meanNs, microseconds median, microseconds p95, microseconds p99,
    microseconds greatest, microseconds least⟩, ?_, ⟨?_, ?_, ?_, ?_, ?_⟩, ?_⟩
  · have hread : stageSamples[stage]? = some stageSamples[stage] :=
      Vector.getElem?_eq_getElem hstage
    rw [computeStageStats, hread]
    have hmedian : sorted[statsSampleCount * 50 / 100]? = some median := hmedian
    have hp95 : sorted[statsSampleCount * 95 / 100]? = some p95 := hp95
    have hp99 : sorted[statsSampleCount * 99 / 100]? = some p99 := hp99
    have hgreatest : sorted[statsSampleCount - 1]? = some greatest := hgreatest
    simp only [Option.bind_eq_bind, Option.bind_some, h.run, hmedian, hp95, hp99, hleast, hgreatest]
    rfl
  · rw [hleast, Option.map_some]
  · rw [hmedian, Option.map_some]
  · rw [hp95, Option.map_some]
  · rw [hp99, Option.map_some]
  · rw [hgreatest, Option.map_some]
  · dsimp only
    rw [microseconds, UInt32.toNat_div, h.toNat_mean]
    rfl

/-- The statistics are in the order of their ranks. -/
theorem ascending_stats (h : Ranked samples sorted) (hstats : stats.AtRanks sorted)
    (hmean : stats.meanUs.toNat = (samples.toList.map UInt32.toNat).sum / statsSampleCount / 1000) :
    stats.Ascending := by
  have hle : ∀ {i j : ℕ} {a b : UInt32}, i ≤ j → sorted[i]?.map microseconds = some a →
      sorted[j]?.map microseconds = some b → a ≤ b := by
    intro i j a b hij ha hb
    obtain ⟨x, hx, rfl⟩ := Option.map_eq_some_iff.mp ha
    obtain ⟨y, hy, rfl⟩ := Option.map_eq_some_iff.mp hb
    obtain ⟨hi, rfl⟩ := List.getElem?_eq_some_iff.mp hx
    obtain ⟨hj, rfl⟩ := List.getElem?_eq_some_iff.mp hy
    exact microseconds_mono (h.get_le hij hj)
  obtain ⟨least, hleast, hmin⟩ := Option.map_eq_some_iff.mp hstats.min
  obtain ⟨greatest, hgreatest, hmax⟩ := Option.map_eq_some_iff.mp hstats.max
  obtain ⟨hfirst, hleast⟩ := List.getElem?_eq_some_iff.mp hleast
  obtain ⟨hlast, hgreatest⟩ := List.getElem?_eq_some_iff.mp hgreatest
  obtain ⟨hlow, hhigh⟩ := h.mean_bounds hfirst hlast
  rw [(h.perm.map UInt32.toNat).sum_eq] at hlow hhigh
  refine ⟨hle (by decide) hstats.min hstats.p50, hle (by decide) hstats.p50 hstats.p95,
    hle (by decide) hstats.p95 hstats.p99, hle (by decide) hstats.p99 hstats.max, ?_, ?_⟩
  · rw [UInt32.le_iff_toNat_le, hmean, ← hmin, microseconds, UInt32.toNat_div, ← hleast]
    exact Nat.div_le_div_right hlow
  · rw [UInt32.le_iff_toNat_le, hmean, ← hmax, microseconds, UInt32.toNat_div, ← hgreatest]
    exact Nat.div_le_div_right hhigh

/-- The largest sample is within a bound in microseconds when every sample is. -/
theorem max_le_iff (h : Ranked samples sorted) (hstats : stats.AtRanks sorted) (bound : ℕ) :
    stats.maxUs.toNat ≤ bound ↔ ∀ x ∈ samples, x.toNat / 1000 ≤ bound := by
  obtain ⟨greatest, hgreatest, hmax⟩ := Option.map_eq_some_iff.mp hstats.max
  obtain ⟨hlast, hgreatest⟩ := List.getElem?_eq_some_iff.mp hgreatest
  rw [← hmax, microseconds, UInt32.toNat_div]
  constructor
  · intro hbound x hx
    have hle : x.toNat ≤ greatest.toNat := hgreatest ▸ h.le_last hlast (h.mem_iff.mpr hx)
    exact Nat.le_trans (Nat.div_le_div_right hle) hbound
  · intro hall
    exact hall greatest (h.mem_iff.mp (hgreatest ▸ List.getElem_mem hlast))

end Ranked

/-! ## The verdict -/

theorem status_eq_pass_iff (stats : StageStats) (budgetUs : UInt64) :
    text "| PASS" <:+ text " us  | " ++ status stats budgetUs ↔
      stats.maxUs.toNat ≤ budgetUs.toNat := by
  have hcast : stats.maxUs.toUInt64 ≤ budgetUs ↔ stats.maxUs.toNat ≤ budgetUs.toNat := by
    rw [UInt64.le_iff_toNat_le, UInt32.toNat_toUInt64]
  rw [← hcast, status]
  by_cases hmax : stats.maxUs.toUInt64 ≤ budgetUs
  · rw [if_pos hmax]
    exact iff_of_true (by decide) hmax
  · rw [if_neg hmax]
    refine iff_of_false ?_ hmax
    split <;> decide

/-- The rows of the report, when each stage has one. -/
theorem mapM_rows {row : ℕ → Option Str} (stages : List ℕ)
    (h : ∀ stage ∈ stages, ∃ line, row stage = some line) :
    ∃ rows, stages.mapM row = some rows ∧ rows.map some = stages.map row := by
  induction stages with
  | nil => exact ⟨[], rfl, rfl⟩
  | cons stage stages ih =>
    obtain ⟨line, hline⟩ := h stage List.mem_cons_self
    obtain ⟨rows, hrows, hmap⟩ := ih fun stage hmem => h stage (List.mem_cons_of_mem _ hmem)
    refine ⟨line :: rows, ?_, ?_⟩
    · rw [List.mapM_cons, hline, hrows]
      rfl
    · rw [List.map_cons, List.map_cons, hline, hmap]

/-- The row of a stage ends in its verdict. -/
theorem reportRow_eq (h : computeStageStats stageSamples stage = some stats) :
    ∃ front, reportRow stageSamples stage =
      some (front ++ (text " us  | " ++ status stats (getStageInfo stage).2)) := by
  rw [reportRow, h]
  exact ⟨_, congrArg some (List.append_assoc _ _ _)⟩

/-- Every stage has its row. -/
theorem printStatisticalLatencyReport_line (stageSamples : StageSamples)
    (hstage : stage < numPipelineStages) :
    ∃ lines, printStatisticalLatencyReport stageSamples = some lines ∧
      lines[reportHeader.length + stage]? = reportRow stageSamples stage := by
  have hrows : ∀ stage ∈ List.range numPipelineStages,
      ∃ line, reportRow stageSamples stage = some line := by
    intro stage hmem
    have hstage := List.mem_range.mp hmem
    obtain ⟨sorted, hranked⟩ := exists_ranked stageSamples[stage]
    obtain ⟨stats, hstats, -⟩ := hranked.computeStageStats_eq hstage
    obtain ⟨front, hrow⟩ := reportRow_eq hstats
    exact ⟨_, hrow⟩
  obtain ⟨rows, hmapM, hmap⟩ := mapM_rows _ hrows
  have hcell : rows[stage]? = reportRow stageSamples stage := by
    have hcells := congrArg (fun l => l[stage]?) hmap
    simp only [List.getElem?_map, List.getElem?_range hstage, Option.map_some] at hcells
    obtain ⟨line, hline, hrow⟩ := Option.map_eq_some_iff.mp hcells
    exact hline.trans hrow
  have hcount : stage < rows.length := by
    have hlen := congrArg List.length hmap
    rw [List.length_map, List.length_map, List.length_range] at hlen
    rw [hlen]
    exact hstage
  refine ⟨reportHeader ++ rows ++ reportCriteria, ?_, ?_⟩
  · rw [printStatisticalLatencyReport, hmapM]
    rfl
  · rw [List.append_assoc, List.getElem?_append_right (Nat.le_add_right _ _),
      Nat.add_sub_cancel_left, List.getElem?_append_left hcount, hcell]

/-- **The report says PASS** if and only if every sample, in whole microseconds, is within the
budget. -/
theorem saysPass_iff (stageSamples : StageSamples) (hstage : stage < numPipelineStages) :
    SaysPass stageSamples stage ↔
      ∀ x ∈ stageSamples[stage], x.toNat / 1000 ≤ (getStageInfo stage).2.toNat := by
  obtain ⟨sorted, hranked⟩ := exists_ranked stageSamples[stage]
  obtain ⟨stats, hstats, hranks, -⟩ := hranked.computeStageStats_eq hstage
  obtain ⟨lines, hlines, hline⟩ := printStatisticalLatencyReport_line stageSamples hstage
  obtain ⟨front, hrow⟩ := reportRow_eq hstats
  rw [← hranked.max_le_iff hranks, ← status_eq_pass_iff]
  rw [hrow] at hline
  constructor
  · rintro ⟨lines', line, hlines', hline', hpass⟩
    obtain rfl : lines = lines' := Option.some.inj (hlines.symm.trans hlines')
    obtain rfl := Option.some.inj (hline.symm.trans hline')
    refine List.suffix_of_suffix_length_le hpass (List.suffix_append front _) ?_
    have hshort : (text "| PASS").length ≤ (text " us  | ").length := by decide
    rw [List.length_append]
    exact Nat.le_trans hshort (Nat.le_add_right _ _)
  · intro hpass
    exact ⟨lines, _, hlines, hline, hpass.trans (List.suffix_append front _)⟩

/-- A fraction of a microsecond above the budget is cut off. -/
theorem microseconds_le_iff (ns budgetUs : ℕ) :
    ns / 1000 ≤ budgetUs ↔ ns < budgetUs * 1000 + 1000 := by
  rw [← Nat.lt_succ_iff, Nat.div_lt_iff_lt_mul (by decide), Nat.succ_mul]

/-- Every sample of the stage is within the budget. -/
def WithinBudget (stageSamples : StageSamples) (stage : Fin numPipelineStages) : Prop :=
  ∀ x ∈ stageSamples[stage], x.toNat ≤ (getStageInfo stage).2.toNat * 1000

/-- Some sample of the stage is above the budget by a microsecond or more. -/
def ClearlyExceeded (stageSamples : StageSamples) (stage : Fin numPipelineStages) : Prop :=
  ∃ x ∈ stageSamples[stage], (getStageInfo stage).2.toNat * 1000 + 1000 ≤ x.toNat

/-- **The statistics are right**: quicksort ends and sorts, the statistics of a stage are its mean
and the samples at their ranks, in the order of these, and the verdict of the report is right if and
only if the samples are all within the budget or one is above it by a microsecond or more. -/
theorem latencyStatistics_correct (stageSamples : StageSamples) :
    (∀ arr : List UInt32, ∃ sorted, quicksortU32 arr = some sorted ∧ sorted.Perm arr ∧
      sorted.Pairwise (· ≤ ·)) ∧
    ∀ stage : Fin numPipelineStages, ∃ sorted stats,
      quicksortU32 stageSamples[stage].toList = some sorted ∧
      computeStageStats stageSamples stage = some stats ∧
      stats.AtRanks sorted ∧
      stats.meanUs.toNat =
        (stageSamples[stage].toList.map UInt32.toNat).sum / statsSampleCount / 1000 ∧
      stats.Ascending ∧
      ((SaysPass stageSamples stage ↔ WithinBudget stageSamples stage) ↔
        WithinBudget stageSamples stage ∨ ClearlyExceeded stageSamples stage) := by
  refine ⟨quicksortU32_spec, fun stage => ?_⟩
  obtain ⟨sorted, hranked⟩ := exists_ranked stageSamples[stage]
  obtain ⟨stats, hstats, hranks, hmean⟩ := hranked.computeStageStats_eq stage.isLt
  refine ⟨sorted, stats, hranked.run, hstats, hranks, hmean,
    hranked.ascending_stats hranks hmean, ?_⟩
  have hpass : SaysPass stageSamples stage ↔ ¬ ClearlyExceeded stageSamples stage := by
    rw [saysPass_iff stageSamples stage.isLt, ClearlyExceeded]
    simp only [not_exists, not_and, Nat.not_le]
    exact forall₂_congr fun x _ => microseconds_le_iff _ _
  have hapart : WithinBudget stageSamples stage → ¬ ClearlyExceeded stageSamples stage := by
    rintro hwithin ⟨x, hx, hexceeded⟩
    have hle := hwithin x hx
    omega
  rw [hpass]
  constructor
  · intro h
    by_cases hexceeded : ClearlyExceeded stageSamples stage
    · exact .inr hexceeded
    · exact .inl (h.mp hexceeded)
  · rintro (hwithin | hexceeded)
    · exact iff_of_true (hapart hwithin) hwithin
    · exact iff_of_false (not_not_intro hexceeded) fun hwithin => hapart hwithin hexceeded

/-- Samples of 50 microseconds and one nanosecond pass at a budget of 50 microseconds. -/
theorem report_passes_above_budget :
    ¬ (SaysPass (Vector.replicate _ (Vector.replicate _ 50001)) 0 ↔
      WithinBudget (Vector.replicate _ (Vector.replicate _ 50001)) ⟨0, by decide⟩) := by
  intro h
  have hpass : SaysPass (Vector.replicate _ (Vector.replicate _ 50001)) 0 := by
    rw [saysPass_iff _ (by decide)]
    intro x hx
    rw [Vector.getElem_replicate] at hx
    rw [Vector.eq_of_mem_replicate hx]
    decide
  have hsample := h.mp hpass 50001 ?_
  · exact absurd hsample (by decide)
  · exact Vector.mem_replicate.mpr ⟨by decide, rfl⟩

end LatencyOS
