import LatencyOS.Disk.Walks

/-!
# The second FAT

A table sector that is changed is written to both FATs, so that two FATs that are equal stay so, as
long as the sector is one of the first FAT.  Nothing checks that it is: the entry of a cluster
behind the end of the table lies in the second FAT, or behind both.
-/

namespace LatencyOS

namespace Disk

variable {d d' : Disk} {g : Fat16Bpb} {c c' k n val : ℕ} {name : Str} {data : List UInt8}
  {clusters lbas : List ℕ} {checks : Bool} {fuel : ℕ} {ops : List DiskOp}

/-- The sectors of the second FAT are those of the first. -/
def FatsEqual (g : Fat16Bpb) (d : Disk) : Prop :=
  ∀ i < g.fatSizeSectors,
    d.sectors (g.reservedSectors + g.fatSizeSectors + i) = d.sectors (g.reservedSectors + i)

/-- The entry of a cluster lies in the first FAT. -/
def InTable (g : Fat16Bpb) (c : ℕ) : Prop := c / 256 < g.fatSizeSectors

instance (g : Fat16Bpb) (c : ℕ) : Decidable (InTable g c) := inferInstanceAs (Decidable (_ < _))

/-! ## Single writes -/

/-- Two FATs that were equal still are, and a boot sector in front of them is as it was. -/
structure Mirrors (g : Fat16Bpb) (d d' : Disk) : Prop where
  equal : FatsEqual g d → FatsEqual g d'
  boot : 1 ≤ g.reservedSectors → d'.bpb = d.bpb

theorem Mirrors.refl (g : Fat16Bpb) (d : Disk) : Mirrors g d d := ⟨id, fun _ => rfl⟩

theorem Mirrors.trans {d'' : Disk} (h : Mirrors g d d') (h' : Mirrors g d' d'') :
    Mirrors g d d'' :=
  ⟨fun hd => h'.equal (h.equal hd), fun hres => (h'.boot hres).trans (h.boot hres)⟩

theorem mirrors_setFat (hc : InTable g c) (d : Disk) (val : ℕ) :
    Mirrors g d (d.setFat g c val) := by
  have hrow : c / 256 < g.fatSizeSectors := hc
  constructor
  · intro h i hi
    simp only [Disk.setFat, sectors_write, fatSector_eq]
    by_cases hic : i = c / 256
    · rw [if_pos (by omega), if_neg (by omega), if_pos (by omega)]
    · rw [if_neg (by omega), if_neg (by omega), if_neg (by omega), if_neg (by omega)]
      exact h i hi
  · intro hres
    simp only [Disk.bpb, Disk.setFat, sectors_write, fatSector_eq]
    rw [if_neg (by omega), if_neg (by omega)]

/-- Two disks agree on both FATs and on what lies in front of them. -/
def SameFats (g : Fat16Bpb) (d d' : Disk) : Prop :=
  ∀ lba < g.reservedSectors + 2 * g.fatSizeSectors, d'.sectors lba = d.sectors lba

theorem SameFats.mirrors (h : SameFats g d d') : Mirrors g d d' := by
  constructor
  · intro hd i hi
    rw [h _ (by omega), h _ (by omega)]
    exact hd i hi
  · intro hres
    rw [Disk.bpb, Disk.bpb, h 0 (by omega)]

theorem SameFats.fatVal (h : SameFats g d d') (hc : InTable g c) :
    d'.fatVal g c = d.fatVal g c := by
  have hrow : c / 256 < g.fatSizeSectors := hc
  have hlow := fatSector_eq g c
  rw [Disk.fatVal, Disk.fatVal, h _ (by omega)]

/-- The root directory lies behind two FATs. -/
theorem sameFats_setEntry (hfats : g.numFats = 2) (d : Disk) (k : ℕ) (e : List UInt8) :
    SameFats g d (d.setEntry g k e) := by
  intro lba hlba
  rw [Disk.setEntry, sectors_write, if_neg]
  rw [rootSector, Fat16Bpb.rootDirStartLba, hfats]
  omega

/-- The data of clusters lies behind two FATs. -/
theorem sameFats_writeData (hfats : g.numFats = 2) (d : Disk) (clusters : List ℕ)
    (data : List UInt8) : SameFats g d (d.writeData (clusterSectors g clusters) data) := by
  intro lba hlba
  refine sectors_writeData_of_notMem (fun hmem => ?_) d data
  have hge := dataStartLba_le hmem
  rw [Fat16Bpb.dataStartLba, Fat16Bpb.rootDirStartLba, hfats] at hge
  omega

theorem mirrors_linkClusters (hclusters : ∀ c ∈ clusters, InTable g c) (d : Disk) :
    Mirrors g d (linkClusters g d clusters) := by
  fun_induction linkClusters g d clusters with
  | case1 d => exact .refl g d
  | case2 d c => exact mirrors_setFat (hclusters c List.mem_cons_self) d _
  | case3 d c c' rest ih =>
    exact (mirrors_setFat (hclusters c List.mem_cons_self) d _).trans
      (ih fun x hx => hclusters x (List.mem_cons_of_mem c hx))

/-! ## Freeing a chain -/

/-- The entries of the table are those of an earlier disk, but for some that were cleared. -/
def Cleared (g : Fat16Bpb) (d d' : Disk) : Prop :=
  ∀ c, InTable g c → d'.fatVal g c = d.fatVal g c ∨ d'.fatVal g c = 0

theorem Cleared.setFat (h : Cleared g d d') (hc : InTable g c) : Cleared g d (d'.setFat g c 0) := by
  intro x hx
  have hrow : c / 256 < g.fatSizeSectors := hc
  have hrow' : x / 256 < g.fatSizeSectors := hx
  rw [fatVal_setFat_of_apart (.inr (by rw [fatSector_eq, fatSector_eq]; omega)) (by decide)]
  split
  · exact .inr rfl
  · exact h x hx

/-- The loop passes the clusters that a walk through the table passes before it starts: where the
loop comes to one again, it finds the entry cleared and ends. -/
theorem mirrors_freeTurns {first : ℕ}
    (htable : ∀ c, Passed (d.fatVal g) Ends first c → InTable g c) (h : Cleared g d d')
    (hc : Ends c ∨ Passed (d.fatVal g) Ends first c) (n : ℕ) :
    Mirrors g d' (freeTurns g n d' c).1 := by
  induction n generalizing d' c with
  | zero => exact .refl g d'
  | succ n ih =>
    by_cases hend : Ends c
    · rw [freeTurns_of_ends hend]
      exact .refl g d'
    · have hpassed := hc.resolve_left hend
      have hin := htable c hpassed
      rw [freeTurns, if_neg hend]
      refine (mirrors_setFat hin d' 0).trans (ih (h.setFat hin) ?_)
      rcases h c hin with heq | hzero
      · by_cases hnext : Ends (d'.fatVal g c)
        · exact .inl hnext
        · rw [heq] at hnext ⊢
          exact .inr (hpassed.step hnext)
      · rw [hzero]
        exact .inl fun hge => absurd hge.1 (by decide)

/-! ## Calls -/

/-- The clusters whose entries a call changes: those a write finds for its data, and those a delete
passes. -/
def Changes (checks : Bool) (g : Fat16Bpb) (d : Disk) (op : DiskOp) (c : ℕ) : Prop :=
  match op with
  | .write _ data => neededClusters g data.length ≤ 64 ∧ ∃ stop, clusterEnd checks g = some stop ∧
      neededClusters g data.length ≤ (d.freeClusters g stop).length ∧
      c ∈ (d.freeClusters g stop).take (neededClusters g data.length)
  | .delete name => ∃ k, d.findEntry g (to83Name name) = some k ∧
      Passed (d.fatVal g) Ends (entryCluster (d.entry g k)) c

/-- A call finds the geometry of the volume and changes entries of the first FAT only.  The first
holds of itself unless the boot sector is the first sector of the table. -/
def KeepsTables (checks : Bool) (g : Fat16Bpb) (d : Disk) (op : DiskOp) : Prop :=
  (g.reservedSectors = 0 → ∀ g', d.bpb = .ok g' → g' = g) ∧
    ∀ c, Changes checks g d op c → InTable g c

theorem mirrors_write (hb : d.bpb = .ok g) (hfats : g.numFats = 2)
    (htable : ∀ c, Changes checks g d (.write name data) c → InTable g c) :
    Mirrors g d (d.writeFile checks name data).2 := by
  by_cases hneed : neededClusters g data.length ≤ 64
  · cases hend : clusterEnd checks g with
    | none =>
      simp only [writeFile, hb, if_neg (Nat.not_lt.mpr hneed), hend]
      exact .refl g d
    | some stop =>
      by_cases hfree : neededClusters g data.length ≤ (d.freeClusters g stop).length
      · have hclusters : ∀ c ∈ (d.freeClusters g stop).take (neededClusters g data.length),
            InTable g c := fun c hc => htable c ⟨hneed, stop, hend, hfree, hc⟩
        have hstored := (sameFats_writeData hfats d _ data).mirrors.trans
          (mirrors_linkClusters hclusters
            (d.writeData (clusterSectors g ((d.freeClusters g stop).take
              (neededClusters g data.length))) data))
        rcases writeFile_of_free hb hneed hend hfree rfl name with ⟨msg, heq⟩ | ⟨k, -, heq⟩
        · rw [heq]
          exact hstored
        · rw [heq]
          exact hstored.trans (sameFats_setEntry hfats _ k _).mirrors
      · simp only [writeFile, hb, if_neg (Nat.not_lt.mpr hneed), hend]
        rw [if_pos]
        · exact .refl g d
        · rw [List.length_take]
          omega
  · simp only [writeFile, hb, if_pos (Nat.lt_of_not_le hneed)]
    exact .refl g d

theorem mirrors_delete (hb : d.bpb = .ok g) (hfats : g.numFats = 2)
    (htable : ∀ c, Changes checks g d (.delete name) c → InTable g c) (n : ℕ) :
    Mirrors g d (d.deleteTurns n name) := by
  simp only [deleteTurns, hb]
  cases hfind : d.findEntry g (to83Name name) with
  | none => exact .refl g d
  | some k =>
    have hmark := sameFats_setEntry hfats d k ((d.entry g k).set 0 0xE5)
    refine hmark.mirrors.trans (mirrors_freeTurns (fun c hc => htable c ⟨k, hfind, hc⟩)
      (fun c hc => .inl (hmark.fatVal hc)) ?_ n)
    by_cases hend : Ends (entryCluster (d.entry g k))
    · exact .inl hend
    · exact .inr (.start hend)

theorem mirrors_step (hb : d.bpb = .ok g) (hfats : g.numFats = 2) {op : DiskOp}
    (htable : ∀ c, Changes checks g d op c → InTable g c)
    (hstep : d.step checks fuel op = some d') : Mirrors g d d' := by
  rw [step, Option.map_eq_some_iff] at hstep
  obtain ⟨r, hexec, rfl⟩ := hstep
  cases op with
  | write name data =>
    simp only [exec] at hexec
    split at hexec
    · cases hexec
    · cases hexec
      exact mirrors_write hb hfats htable
  | delete name =>
    rw [exec, Option.map_eq_some_iff] at hexec
    obtain ⟨r, hdel, rfl⟩ := hexec
    rw [deleteTurns_of_deleteFileN hdel]
    exact mirrors_delete hb hfats htable fuel

/-- A call that finds no geometry does nothing. -/
theorem eq_of_step {msg : String} (hb : d.bpb = .error msg) {op : DiskOp}
    (hstep : d.step checks fuel op = some d') : d' = d := by
  cases op with
  | write name data =>
    simp [step, exec, writeFile, hb] at hstep
    exact hstep.symm
  | delete name =>
    simp [step, exec, deleteFileN, hb] at hstep
    exact hstep.symm

/-- In every run whose calls change entries of the first FAT only, the FATs stay equal. -/
theorem fatsEqual_run (hb : d.bpb = .ok g) (hfats : g.numFats = 2) (heq : FatsEqual g d)
    (hsteps : AlongRun (step checks fuel) (KeepsTables checks g) d ops)
    (hrun : runAll (step checks fuel) d ops = some d') : FatsEqual g d' := by
  have hkeeps : ∀ d op d', (FatsEqual g d ∧ (1 ≤ g.reservedSectors → d.bpb = .ok g)) →
      KeepsTables checks g d op → d.step checks fuel op = some d' →
      FatsEqual g d' ∧ (1 ≤ g.reservedSectors → d'.bpb = .ok g) := by
    rintro d op d' ⟨heq, hboot⟩ ⟨hzero, htable⟩ hstep
    cases hb : d.bpb with
    | error msg =>
      rw [eq_of_step hb hstep]
      exact ⟨heq, hboot⟩
    | ok g' =>
      have hg : d.bpb = .ok g := by
        rcases Nat.eq_zero_or_pos g.reservedSectors with h | h
        · rw [hb, hzero h g' hb]
        · exact hboot h
      have hm := mirrors_step hg hfats htable hstep
      exact ⟨hm.equal heq, fun hres => (hm.boot hres).trans hg⟩
  exact (runAll_keeps hkeeps ⟨heq, fun _ => hb⟩ hsteps hrun).1

/-- The clusters of the circle are those of its table sector. -/
theorem passed_circleDisk {c : ℕ} (h : Passed (circleDisk.fatVal blankBpb) Ends 2 c) :
    c = 2 ∨ c = 3 := by
  have htwo : circleDisk.fatVal blankBpb 2 = 3 := by decide +kernel
  have hthree : circleDisk.fatVal blankBpb 3 = 2 := by decide +kernel
  induction h with
  | start _ => exact .inl rfl
  | step _ _ ih =>
    rcases ih with rfl | rfl
    · exact .inr htwo
    · exact .inl hthree

theorem fatsEqual_circleDisk : FatsEqual blankBpb circleDisk := by
  have hblank : FatsEqual blankBpb blankDisk := by
    intro i hi
    have hzero : i = 0 := by
      have hsize : blankBpb.fatSizeSectors = 1 := rfl
      omega
    subst hzero
    rfl
  exact (sameFats_setEntry rfl _ 0 _).mirrors.equal
    ((mirrors_setFat (by decide) _ 2).equal ((mirrors_setFat (by decide) _ 3).equal hblank))

/-- Deleting the file whose clusters form a circle. -/
theorem circleDisk_fatsEqual : ∃ d',
    runAll (step true 10) circleDisk [.delete "A".toList] = some d' ∧ FatsEqual blankBpb d' := by
  obtain ⟨d', hd'⟩ : ∃ d', runAll (step true 10) circleDisk [.delete "A".toList] = some d' :=
    Option.isSome_iff_exists.mp (by decide +kernel)
  have hfirst : (circleDisk.findEntry blankBpb (to83Name "A".toList)).map
      (fun k => entryCluster (circleDisk.entry blankBpb k)) = some 2 := by decide +kernel
  have hsteps : AlongRun (step true 10) (KeepsTables true blankBpb) circleDisk
      [.delete "A".toList] := by
    refine ⟨⟨fun hzero => absurd hzero (by decide), ?_⟩, fun _ _ => trivial⟩
    rintro c ⟨k, hk, hpassed⟩
    rw [hk, Option.map_some, Option.some_inj] at hfirst
    rw [hfirst] at hpassed
    rcases passed_circleDisk hpassed with rfl | rfl <;> decide
  exact ⟨d', hd', fatsEqual_run (by decide +kernel) rfl fatsEqual_circleDisk hsteps hd'⟩

/-- A volume with the usual first entries in both FATs and a file whose first cluster has its entry
in the second one. -/
def behindDisk : Disk :=
  (Disk.mk (fun lba => if lba = 0 then blankBoot else
    if lba = 1 ∨ lba = 2 then fun i => if i < 4 then 0xFF else 0 else fun _ => 0) []).setEntry
      blankBpb 0 (newEntry (to83Name "A".toList) 0x101 1)

theorem behindDisk_breaks : behindDisk.bpb = .ok blankBpb ∧ blankBpb.numFats = 2 ∧
    FatsEqual blankBpb behindDisk ∧
    ∃ d', runAll (step true 10) behindDisk [.delete "A".toList] = some d' ∧
      ¬ FatsEqual blankBpb d' := by
  obtain ⟨d', hd'⟩ : ∃ d', runAll (step true 10) behindDisk [.delete "A".toList] = some d' :=
    Option.isSome_iff_exists.mp (by decide +kernel)
  have hbytes : (runAll (step true 10) behindDisk [.delete "A".toList]).map
      (fun d => (d.sectors 1 2, d.sectors 2 2)) = some (0xFF, 0) := by decide +kernel
  refine ⟨by decide +kernel, rfl, ?_, d', hd', fun heq => ?_⟩
  · refine (sameFats_setEntry rfl _ 0 _).mirrors.equal fun i hi => ?_
    have hzero : i = 0 := by
      have hsize : blankBpb.fatSizeSectors = 1 := rfl
      omega
    subst hzero
    rfl
  · rw [hd', Option.map_some, Option.some_inj, Prod.mk.injEq] at hbytes
    have hsame := congrFun (heq 0 (by decide)) 2
    rw [show blankBpb.reservedSectors + blankBpb.fatSizeSectors + 0 = 2 from rfl,
      show blankBpb.reservedSectors + 0 = 1 from rfl, hbytes.1, hbytes.2] at hsame
    exact absurd hsame (by decide)

end Disk

end LatencyOS
