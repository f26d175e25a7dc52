import LatencyOS.Disk.Areas
import Mathlib.Data.DFinsupp.WellFounded
import Mathlib.Data.Finset.Card

/-!
# Walks through a corrupt table

The table of a corrupt disk can link clusters in a circle, and the sector a delete writes a second
time can be one that it still reads.  Both walks end all the same.  Reading ends because every turn
reads some bytes.  A delete clears the entry it leaves: its table sector has one entry less that
is used, the sectors before are not written, and only sectors behind can come to have more.
-/

namespace LatencyOS

namespace Disk

variable {d d' : Disk} {g : Fat16Bpb} {c c' n left : ℕ} {name : Str}

/-! ## Freeing -/

/-- How many entries of a table sector are used. -/
def usedEntries (d : Disk) (g : Fat16Bpb) (row : ℕ) : ℕ :=
  ((Finset.range 256).filter fun i => d.fatVal g (256 * row + i) ≠ 0).card

/-- The used entries by table sectors, the first sector counting most. -/
def useOf (g : Fat16Bpb) (d : Disk) : Lex (Fin 256 → ℕ) := toLex fun row => d.usedEntries g row

/-- Clearing an entry lowers the use: its own sector has one used entry less, and the sectors
before it are not written. -/
theorem useOf_setFat_lt (hc : c < 65536) (hused : d.fatVal g c ≠ 0) :
    useOf g (d.setFat g c 0) < useOf g d := by
  have hrow : ∀ c', c' / 256 = c / 256 ∨ c' / 256 < c / 256 →
      (d.setFat g c 0).fatVal g c' = if c' = c then 0 else d.fatVal g c' := by
    intro c' hc'
    refine fatVal_setFat_of_apart ?_ (by decide)
    rw [fatSector_eq, fatSector_eq]
    omega
  refine ⟨⟨c / 256, by omega⟩, fun row hlt => ?_, ?_⟩
  · have hlt' : (row : ℕ) < c / 256 := hlt
    change usedEntries _ g row = usedEntries d g row
    refine congrArg Finset.card (Finset.filter_congr fun i hi => ?_)
    have hi256 := Finset.mem_range.mp hi
    rw [hrow _ (.inr (by omega)), if_neg (by omega)]
  · change usedEntries _ g (c / 256) < usedEntries d g (c / 256)
    refine Finset.card_lt_card (Finset.ssubset_iff_subset_ne.mpr ⟨fun i hi => ?_, fun heq => ?_⟩)
    · rw [Finset.mem_filter] at hi ⊢
      have hi256 := Finset.mem_range.mp hi.1
      refine ⟨hi.1, fun hzero => hi.2 ?_⟩
      rw [hrow _ (.inl (by omega)), hzero, ite_self]
    · have hmem : c % 256 ∈ (Finset.range 256).filter fun i =>
          d.fatVal g (256 * (c / 256) + i) ≠ 0 := by
        rw [Finset.mem_filter, Nat.div_add_mod]
        exact ⟨Finset.mem_range.mpr (by omega), hused⟩
      rw [← heq, Finset.mem_filter, Nat.div_add_mod, hrow c (.inl rfl), if_pos rfl] at hmem
      exact hmem.2 rfl

/-- The loop that frees a chain ends, whatever the table says. -/
theorem freeTurns_ends (g : Fat16Bpb) (d : Disk) (c : ℕ) : ∃ n, Ends (freeTurns g n d c).2 := by
  induction hd : useOf g d using WellFoundedLT.induction generalizing d c with
  | ind use ih =>
    by_cases hend : Ends c
    · exact ⟨0, hend⟩
    by_cases hused : d.fatVal g c = 0
    · refine ⟨1, ?_⟩
      rw [freeTurns, if_neg hend, hused, freeTurns]
      exact fun h : 2 ≤ 0 ∧ _ => absurd h.1 (by decide)
    · have hlt : c < 65536 := by
        unfold Ends at hend
        omega
      obtain ⟨n, hn⟩ := ih _ (hd ▸ useOf_setFat_lt hlt hused) (d.setFat g c 0) (d.fatVal g c) rfl
      refine ⟨n + 1, ?_⟩
      rw [freeTurns, if_neg hend]
      exact hn

/-- Turns add up. -/
theorem freeTurns_add (g : Fat16Bpb) (m n : ℕ) (d : Disk) (c : ℕ) :
    freeTurns g (m + n) d c = freeTurns g n (freeTurns g m d c).1 (freeTurns g m d c).2 := by
  induction m generalizing d c with
  | zero => rw [Nat.zero_add, freeTurns]
  | succ m ih =>
    by_cases hend : Ends c
    · rw [freeTurns_of_ends hend, freeTurns_of_ends hend, freeTurns_of_ends hend]
    · rw [Nat.succ_add, freeTurns, if_neg hend, ih, freeTurns, if_neg hend]

/-- A delete has an outcome once its loop is given enough turns. -/
theorem deleteFileN_isSome (d : Disk) (name : Str) :
    ∃ n, ∀ fuel, n ≤ fuel → (d.deleteFileN fuel name).isSome := by
  cases hb : d.bpb with
  | error msg => exact ⟨0, fun fuel _ => by simp only [deleteFileN, hb, Option.isSome_some]⟩
  | ok g =>
    cases hfind : d.findEntry g (to83Name name) with
    | none => exact ⟨0, fun fuel _ => by simp only [deleteFileN, hb, hfind, Option.isSome_some]⟩
    | some k =>
      obtain ⟨n, hn⟩ := freeTurns_ends g (d.setEntry g k ((d.entry g k).set 0 0xE5))
        (entryCluster (d.entry g k))
      refine ⟨n, fun fuel hfuel => ?_⟩
      obtain ⟨m, rfl⟩ := Nat.exists_eq_add_of_le hfuel
      simp only [deleteFileN, hb, hfind, freeChain, Option.isSome_map]
      rw [freeTurns_add, freeTurns_of_ends hn, if_pos hn]
      rfl

/-! ## Reading -/

/-- Some turns of the loop that reads a chain: the cluster that comes next and the bytes that are
left to read. -/
def readTurns (d : Disk) (g : Fat16Bpb) : ℕ → ℕ × ℕ → ℕ × ℕ
  | 0, s => s
  | n + 1, s =>
    if Ends s.1 ∨ s.2 = 0 then s
    else readTurns d g n (d.fatVal g s.1, s.2 - ((d.clusterBytes g s.1).take s.2).length)

/-- The loop that reads a chain has ended. -/
def ReadDone (s : ℕ × ℕ) : Prop := Ends s.1 ∨ s.2 = 0

/-- What was read once the loop has ended is what is read. -/
theorem readClusters_of_readDone (h : ReadDone (d.readTurns g n (c, left))) (m : ℕ) :
    d.readClusters g (n + m) c left = d.readClusters g n c left := by
  induction n generalizing c left with
  | zero =>
    rw [Nat.zero_add]
    cases m with
    | zero => rfl
    | succ m =>
      have hdone : Ends c ∨ left = 0 := h
      simp only [readClusters, if_pos hdone]
  | succ n ih =>
    rw [Nat.succ_add, readClusters, readClusters]
    by_cases hdone : Ends c ∨ left = 0
    · rw [if_pos hdone, if_pos hdone]
    · rw [readTurns, if_neg hdone] at h
      rw [if_neg hdone, if_neg hdone]
      simp only [ih h]

/-- The loop that reads a chain ends: every turn reads a byte at least. -/
theorem readTurns_done (hspc : 1 ≤ g.sectorsPerCluster) (d : Disk) (c left : ℕ) :
    ReadDone (d.readTurns g left (c, left)) := by
  suffices h : ∀ n left, left ≤ n → ∀ c, ReadDone (d.readTurns g n (c, left)) from
    h left left le_rfl c
  intro n
  induction n with
  | zero => exact fun left hleft c => .inr (Nat.le_zero.mp hleft)
  | succ n ih =>
    intro left hleft c
    rw [readTurns]
    by_cases hdone : Ends c ∨ left = 0
    · rw [if_pos hdone]
      exact hdone
    · rw [if_neg hdone]
      have hpos : 1 ≤ g.sectorsPerCluster * sectorSize := Nat.mul_pos hspc (by decide)
      refine ih _ ?_ _
      rw [List.length_take, length_clusterBytes]
      have hleft0 : left ≠ 0 := fun h => hdone (.inr h)
      omega

/-- A boot sector that is accepted has a cluster size. -/
theorem sectorsPerCluster_pos (hb : d.bpb = .ok g) : 1 ≤ g.sectorsPerCluster := by
  unfold Disk.bpb parseBpb at hb
  split at hb
  · cases hb
  · split at hb
    · cases hb
    · split at hb
      · cases hb
      · next hne =>
        cases hb
        exact Nat.one_le_iff_ne_zero.mpr fun h => hne (UInt8.toNat_inj.mp h)

/-! ## Both walks -/

/-- The walks of a disk end: reading from any cluster, freeing from any, and a delete as a
whole. -/
structure WalksEnd (d : Disk) (g : Fat16Bpb) : Prop where
  read : ∀ c left, ∃ n, ReadDone (d.readTurns g n (c, left)) ∧
    ∀ m, d.readClusters g (n + m) c left = d.readClusters g n c left
  free : ∀ c, ∃ n, Ends (freeTurns g n d c).2
  delete : ∀ name, ∃ n, ∀ fuel, n ≤ fuel → (d.deleteFileN fuel name).isSome

/-- With any boot sector that is accepted and any table, all walks end. -/
theorem walksEnd (hb : d.bpb = .ok g) : WalksEnd d g where
  read c left :=
    have hdone := readTurns_done (sectorsPerCluster_pos hb) d c left
    ⟨left, hdone, readClusters_of_readDone hdone⟩
  free := freeTurns_ends g d
  delete := deleteFileN_isSome d

/-- Two clusters linked in a circle, with a file that starts there. -/
def circleDisk : Disk :=
  ((blankDisk.setFat blankBpb 2 3).setFat blankBpb 3 2).setEntry blankBpb 0
    (newEntry (to83Name "A".toList) 2 5000)

theorem circleDisk_walksEnd : circleDisk.bpb = .ok blankBpb ∧ WalksEnd circleDisk blankBpb := by
  have hb : circleDisk.bpb = .ok blankBpb := by decide +kernel
  exact ⟨hb, walksEnd hb⟩

end Disk

end LatencyOS
