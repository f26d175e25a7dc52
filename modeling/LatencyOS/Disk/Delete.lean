import LatencyOS.Disk.Volume
import Mathlib.Data.List.Perm.Subperm

/-!
# Deleting

Deleting marks an entry and frees its chain.  On a well-formed volume the walk through the chain
ends within as many turns as there are clusters.
-/

namespace LatencyOS

namespace Disk

variable {d d' : Disk} {g : Fat16Bpb} {chain : ℕ → List ℕ} {l : List ℕ} {name : Str}
  {c j k fuel : ℕ}

theorem freeTurns_of_ends (hend : Ends c) (n : ℕ) : freeTurns g n d c = (d, c) := by
  cases n with
  | zero => rfl
  | succ n => rw [freeTurns, if_pos hend]

theorem freeChain_of_ends (hend : Ends c) (n : ℕ) : freeChain g n d c = some d := by
  rw [freeChain, freeTurns_of_ends hend]
  exact if_pos hend

theorem freeChain_succ (hend : ¬ Ends c) (n : ℕ) :
    freeChain g (n + 1) d c = freeChain g n (d.setFat g c 0) (d.fatVal g c) := by
  rw [freeChain, freeTurns, if_neg hend]
  rfl

/-- Freeing a chain of the volume frees its members. -/
theorem freeChain_spec (hg : Geometry g) (h : Chain (d.fatVal g) Ends c l)
    (hvol : ∀ x ∈ l, InVolume g x) (hfuel : l.length ≤ fuel) :
    ∃ d', freeChain g fuel d c = some d' ∧ SameBehind g d d' ∧
      ∀ x, InVolume g x → d'.fatVal g x = if x ∈ l then 0 else d.fatVal g x := by
  induction l generalizing d c fuel with
  | nil =>
    cases h with
    | nil hend =>
      exact ⟨d, freeChain_of_ends hend fuel, .refl g d, fun x _ => by simp⟩
  | cons c₀ l ih =>
    have hnodup := h.nodup
    cases h with
    | cons hend ht =>
      have hc := hvol c₀ List.mem_cons_self
      have hfat : ∀ x, InVolume g x →
          (d.setFat g c₀ 0).fatVal g x = if x = c₀ then 0 else d.fatVal g x :=
        fun x hx => fatVal_setFat hg hx (by decide)
      -- the walk goes on in the table as it was: its members are not freed yet
      have htail : Chain ((d.setFat g c₀ 0).fatVal g) Ends (d.fatVal g c₀) l := by
        refine ht.congr fun x hx => ?_
        rw [hfat x (hvol x (List.mem_cons_of_mem c₀ hx)), if_neg]
        exact fun heq => (List.nodup_cons.mp hnodup).1 (heq ▸ hx)
      cases fuel with
      | zero => exact absurd hfuel (by simp)
      | succ n =>
        obtain ⟨d', hfree, hbehind, hrest⟩ := ih htail
          (fun x hx => hvol x (List.mem_cons_of_mem c₀ hx)) (Nat.le_of_succ_le_succ hfuel)
        refine ⟨d', ?_, (sameBehind_setFat hg hc 0).trans hbehind, fun x hx => ?_⟩
        · rw [freeChain_succ hend, hfree]
        · rw [hrest x hx, hfat x hx]
          simp only [List.mem_cons]
          by_cases hxl : x ∈ l
          · rw [if_pos hxl, if_pos (.inr hxl)]
          · rw [if_neg hxl]
            simp only [hxl, or_false]

/-- A chain of the volume is no longer than the volume. -/
theorem length_chain_le (hg : Geometry g) (h : Chain (d.fatVal g) Ends c l)
    (hvol : ∀ x ∈ l, InVolume g x) : l.length ≤ 65524 := by
  have hsub : l ⊆ List.range' 2 g.totalDataClusters := by
    intro x hx
    have := hvol x hx
    rw [List.mem_range'_1]
    exact ⟨this.1, by have := this.2; omega⟩
  have hle := (List.subperm_of_subset h.nodup hsub).length_le
  rw [List.length_range'] at hle
  exact hle.trans hg.count

/-- What deleting a file has done. -/
structure Deleted (d d' : Disk) (g : Fat16Bpb) (k : ℕ) (l : List ℕ) : Prop where
  bpb : d'.bpb = d.bpb
  entry : ∀ j, d'.entry g j = if j = k then (d.entry g k).set 0 0xE5 else d.entry g j
  fat : ∀ c, InVolume g c → d'.fatVal g c = if c ∈ l then 0 else d.fatVal g c
  kept : ∀ c, d'.clusterBytes g c = d.clusterBytes g c

/-- What deleting can do on a volume: a file that is not found is left, the one that is found is
marked and its chain freed. -/
theorem deleteFileN_cases (hv : Volume d g chain) (hfuel : 65536 ≤ fuel) (name : Str) :
    (d.findEntry g (to83Name name) = none ∧ d.deleteFileN fuel name = some (.ok (), d)) ∨
    ∃ k d', d.findEntry g (to83Name name) = some k ∧
      d.deleteFileN fuel name = some (.ok (), d') ∧ Deleted d d' g k (chain k) := by
  simp only [deleteFileN, hv.bpb]
  cases hfind : d.findEntry g (to83Name name) with
  | none => exact .inl ⟨rfl, rfl⟩
  | some k =>
    have hlive := (findEntry_eq_some_iff.mp hfind).1.live
    have hvol : ∀ x ∈ chain k, InVolume g x := fun x hx => (hv.members k hlive x hx).1
    have hsame := sameData_setEntry (d := d) hv.geometry hlive.1 ((d.entry g k).set 0 0xE5)
    have hfat : ∀ x, InVolume g x → (d.setEntry g k ((d.entry g k).set 0 0xE5)).fatVal g x =
        d.fatVal g x := fun x hx => fatVal_setEntry hv.geometry hx k _
    have hchain := (hv.chains k hlive).congr fun x hx => hfat x (hvol x hx)
    have hlen := length_chain_le hv.geometry (hv.chains k hlive) hvol
    have hturns : (chain k).length ≤ fuel := by omega
    obtain ⟨d', hfree, hbehind, hzero⟩ := freeChain_spec hv.geometry hchain hvol hturns
    refine .inr ⟨k, d', rfl, by simp only [hfree, Option.map_some],
      hbehind.bpb.trans hsame.1, fun j => ?_, fun x hx => ?_,
      fun x => (hbehind.clusterBytes x).trans (hsame.2 x)⟩
    · rw [hbehind.entry j, entry_setEntry (by simp)]
    · rw [hzero x hx, hfat x hx]

namespace Deleted

variable (h : Deleted d d' g k l)
include h

theorem mark_self : entryMark (d'.entry g k) = 0xE5 := by
  rw [h.entry k, if_pos rfl, entryMark]
  simp [List.getD]

theorem not_listed_self : entryListed (d'.entry g k) = false := by
  simp [entryListed, h.mark_self]

theorem ne_of_live (hlive : Live d' g j) : j ≠ k := by
  rintro rfl
  have hused := hlive.2
  rw [entryLive, h.not_listed_self, Bool.and_false] at hused
  exact absurd hused (by decide)

theorem entry_of_ne (hne : j ≠ k) : d'.entry g j = d.entry g j := by
  rw [h.entry j, if_neg hne]

theorem live_of_live (hlive : Live d' g j) : Live d g j := by
  refine ⟨hlive.1, ?_⟩
  rw [← h.entry_of_ne (h.ne_of_live hlive)]
  exact hlive.2

/-- A live entry that is not the deleted one stays live. -/
theorem live_of_ne (hne : j ≠ k) (hlive : Live d g j) : Live d' g j := by
  refine ⟨hlive.1, ?_⟩
  rw [h.entry_of_ne hne]
  exact hlive.2

end Deleted

/-- The table keeps its value at the clusters of the other files. -/
theorem Deleted.fat_of_mem (h : Deleted d d' g k (chain k)) (hv : Volume d g chain)
    (hk : Live d g k) (hlive : Live d' g j) (hc : c ∈ chain j) :
    d'.fatVal g c = d.fatVal g c := by
  have hlive₀ := h.live_of_live hlive
  rw [h.fat c (hv.members j hlive₀ c hc).1, if_neg]
  exact fun hmem => hv.disjoint j k hlive₀ hk (h.ne_of_live hlive) hc hmem

/-- Deleting keeps the volume well formed. -/
theorem Deleted.volume (h : Deleted d d' g k (chain k)) (hv : Volume d g chain)
    (hk : Live d g k) : Volume d' g chain := by
  refine ⟨h.bpb.trans hv.bpb, hv.geometry, fun j hlive => ?_, fun j hlive c hc => ?_,
    fun j j' hlive hlive' => hv.disjoint j j' (h.live_of_live hlive) (h.live_of_live hlive')⟩
  · rw [h.entry_of_ne (h.ne_of_live hlive)]
    exact (hv.chains j (h.live_of_live hlive)).congr fun c hc => h.fat_of_mem hv hk hlive hc
  · rw [h.fat_of_mem hv hk hlive hc]
    exact hv.members j (h.live_of_live hlive) c hc

/-! ## Reading after a delete -/

/-- Deleting does not uncover or hide other entries. -/
theorem Deleted.mark_iff (h : Deleted d d' g k l) (hk : entryMark (d.entry g k) ≠ 0) (i : ℕ) :
    entryMark (d'.entry g i) = 0 ↔ entryMark (d.entry g i) = 0 := by
  by_cases hik : i = k
  · rw [hik, h.mark_self]
    exact ⟨fun hzero => absurd hzero (by decide), fun hzero => absurd hzero hk⟩
  · rw [h.entry_of_ne hik]

theorem Deleted.packed (h : Deleted d d' g k l) (hk : entryMark (d.entry g k) ≠ 0)
    (hpacked : Packed d g) : Packed d' g := by
  intro i j hij hj hmark
  rw [h.mark_iff hk] at hmark ⊢
  exact hpacked i j hij hj hmark

/-- What is found under other names stays as it is. -/
theorem Deleted.findEntry_other {name83 other : List UInt8} (h : Deleted d d' g k l)
    (hk : d.findEntry g name83 = some k) (hne : other ≠ name83) :
    d'.findEntry g other = d.findEntry g other := by
  have hfile := (findEntry_eq_some_iff.mp hk).1
  have hmark := h.mark_iff (hfile.seen k le_rfl rfl)
  refine findEntry_congr fun i => ⟨fun hi => ?_, fun hi => ?_⟩
  · have hik := h.ne_of_live hi.live
    have hentry := h.entry_of_ne hik
    refine ⟨hi.slot, fun j hj hdiv => ?_, hentry ▸ hi.listed, hentry ▸ hi.name⟩
    rw [ne_eq, ← hmark]
    exact hi.seen j hj hdiv
  · have hik : i ≠ k := by
      rintro rfl
      exact hne (hi.name.symm.trans hfile.name)
    have hentry := h.entry_of_ne hik
    refine ⟨hi.slot, fun j hj hdiv => ?_, ?_, ?_⟩
    · rw [ne_eq, hmark]
      exact hi.seen j hj hdiv
    · rw [hentry]
      exact hi.listed
    · rw [hentry]
      exact hi.name

/-- The other files are read as before. -/
theorem Deleted.readFile_other {name83 : List UInt8} (h : Deleted d d' g k (chain k))
    (hv : Volume d g chain) (hk : d.findEntry g name83 = some k) {other : Str}
    (hne : to83Name other ≠ name83) (bufSize : ℕ) :
    d'.readFile other bufSize = d.readFile other bufSize := by
  have hfile := (findEntry_eq_some_iff.mp hk).1
  refine readFile_congr hv (h.bpb.trans hv.bpb) (h.findEntry_other hk hne) (fun j hlive hj => ?_)
    bufSize
  have hjk : j ≠ k := by
    rintro rfl
    exact hne ((findEntry_eq_some_iff.mp hj).1.name.symm.trans hfile.name)
  have hlive' := h.live_of_ne hjk hlive
  refine ⟨h.entry_of_ne hjk, ?_, fun c _ => h.kept c⟩
  rw [h.entry_of_ne hjk]
  exact (hv.chains j hlive).congr fun c hc => h.fat_of_mem hv hfile.live hlive' hc

end Disk

end LatencyOS
