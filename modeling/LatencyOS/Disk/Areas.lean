import LatencyOS.Disk.Accounting

/-!
# Where the disk is written

Every accepted boot sector gives sector numbers of at most 28 bits.  The writer and the deleter
take a second FAT for granted, and one that covers the clusters they come to: they stay inside
the FATs exactly if every cluster they link or free has its sector in a FAT that another follows.
-/

namespace LatencyOS

namespace Disk

variable {d d' d'' : Disk} {g : Fat16Bpb} {ws ws' : List (Area × ℕ)} {c k n lba : ℕ}
  {clusters lbas : List ℕ} {name : Str} {data : List UInt8}

/-! ## The writes of an operation -/

/-- One disk comes from another by some writes; other sectors keep what they held. -/
structure Writes (d d' : Disk) (ws : List (Area × ℕ)) : Prop where
  log : d'.log = d.log ++ ws
  frame : ∀ lba, lba ∉ ws.map Prod.snd → d'.sectors lba = d.sectors lba

theorem Writes.refl (d : Disk) : Writes d d [] := ⟨(List.append_nil _).symm, fun _ _ => rfl⟩

theorem Writes.trans (h : Writes d d' ws) (h' : Writes d' d'' ws') :
    Writes d d'' (ws ++ ws') := by
  refine ⟨by rw [h'.log, h.log, List.append_assoc], fun lba hlba => ?_⟩
  rw [List.map_append, List.mem_append, not_or] at hlba
  rw [h'.frame lba hlba.2, h.frame lba hlba.1]

theorem writes_write (d : Disk) (area : Area) (lba : ℕ) (s : Sector) :
    Writes d (d.write area lba s) [(area, lba)] := by
  refine ⟨rfl, fun lba' hlba' => ?_⟩
  rw [sectors_write, if_neg]
  simpa using hlba'

/-- The sectors that are written when a table entry changes. -/
def fatWrites (g : Fat16Bpb) (c : ℕ) : List (Area × ℕ) :=
  [(.fat, fatSector g c), (.fat, fatSector g c + g.fatSizeSectors)]

theorem writes_setFat (d : Disk) (g : Fat16Bpb) (c val : ℕ) :
    Writes d (d.setFat g c val) (fatWrites g c) :=
  (writes_write d .fat _ _).trans (writes_write _ .fat _ _)

theorem writes_setEntry (d : Disk) (g : Fat16Bpb) (k : ℕ) (e : List UInt8) :
    Writes d (d.setEntry g k e) [(.root, rootSector g k)] :=
  writes_write d .root _ _

theorem writes_writeData (d : Disk) (lbas : List ℕ) (data : List UInt8) :
    Writes d (d.writeData lbas data) (lbas.map (Prod.mk .data)) := by
  induction lbas generalizing d data with
  | nil => exact .refl d
  | cons lba lbas ih => exact (writes_write d .data lba _).trans (ih _ _)

theorem writes_linkClusters (d : Disk) (g : Fat16Bpb) (clusters : List ℕ) :
    Writes d (linkClusters g d clusters) (clusters.flatMap (fatWrites g)) := by
  fun_induction linkClusters g d clusters with
  | case1 d => exact .refl d
  | case2 d c => exact writes_setFat d g c 0xFFFF
  | case3 d c c' rest ih => exact (writes_setFat d g c c').trans ih

/-- The writes of an operation. -/
def newWrites (d d' : Disk) : List (Area × ℕ) := d'.log.drop d.log.length

theorem Writes.newWrites (h : Writes d d' ws) : newWrites d d' = ws := by
  rw [Disk.newWrites, h.log, List.drop_left]

/-! ## Sector numbers -/

/-- Every sector number of an operation has at most 28 bits, so that none overflows and all are
within what the disk takes. -/
def SectorsFit (g : Fat16Bpb) : Prop :=
  g.dataStartLba < 2 ^ 28 ∧ ∀ c < 65536, fatSector g c + g.fatSizeSectors < 2 ^ 28 ∧
    ∀ s < g.sectorsPerCluster, clusterLba g c + s < 2 ^ 28

theorem sectorsFit (hb : d.bpb = .ok g) : SectorsFit g := by
  obtain ⟨hspc, hres, hfats, hroot, hsize⟩ := bpb_bounds hb
  have hcopies : g.numFats * g.fatSizeSectors ≤ 255 * 65535 :=
    Nat.mul_le_mul (by omega) (by omega)
  have hstart : g.dataStartLba ≤ 65535 + 255 * 65535 + 4096 := by
    simp only [Fat16Bpb.dataStartLba, Fat16Bpb.rootDirStartLba, Fat16Bpb.rootDirSectors]
    omega
  refine ⟨by omega, fun c hc => ⟨?_, fun s hs => ?_⟩⟩
  · rw [fatSector_eq]
    omega
  · have hmul : (c - 2) * g.sectorsPerCluster ≤ 65535 * 255 :=
      Nat.mul_le_mul (by omega) (by omega)
    rw [clusterLba]
    omega

/-! ## The areas -/

/-- The sectors of the FAT copies that the boot sector declares. -/
def InFats (g : Fat16Bpb) (lba : ℕ) : Prop :=
  g.reservedSectors ≤ lba ∧ lba < g.reservedSectors + g.numFats * g.fatSizeSectors

/-- The sectors of a cluster of the volume that is free. -/
def InFreeCluster (d : Disk) (g : Fat16Bpb) (lba : ℕ) : Prop :=
  ∃ c, InVolume g c ∧ d.fatVal g c = 0 ∧ ∃ s < g.sectorsPerCluster, lba = clusterLba g c + s

/-- Where an operation on an entry may write; only some may write data. -/
def Allowed (d : Disk) (g : Fat16Bpb) (target : Option ℕ) (dataToo : Bool) : Area × ℕ → Prop
  | (.fat, lba) => InFats g lba
  | (.root, lba) => ∃ k, target = some k ∧ lba = rootSector g k
  | (.data, lba) => dataToo = true ∧ InFreeCluster d g lba

/-- The disk after a delete has gone through some turns of its loop. -/
def deleteTurns (d : Disk) (n : ℕ) (name : Str) : Disk :=
  match d.bpb with
  | .error _ => d
  | .ok g =>
    match d.findEntry g (to83Name name) with
    | none => d
    | some k =>
      let e := d.entry g k
      (freeTurns g n (d.setEntry g k (e.set 0 0xE5)) (entryCluster e)).1

/-- A call writes inside the areas only, and no computation overflows. -/
def Inside (g : Fat16Bpb) (d : Disk) : DiskOp → Prop
  | .write name data => SectorsFit g ∧ ∀ checks,
      (d.writeFile checks name data).1 ≠ .panic ∧
        ∀ w ∈ newWrites d (d.writeFile checks name data).2,
          Allowed d g (d.findSlot g (to83Name name)) true w
  | .delete name => SectorsFit g ∧ ∀ n, ∀ w ∈ newWrites d (d.deleteTurns n name),
      Allowed d g (d.findEntry g (to83Name name)) false w

/-- Both table sectors that are written for a cluster lie in the FATs. -/
def HasFats (g : Fat16Bpb) (c : ℕ) : Prop :=
  c / 256 + g.fatSizeSectors < g.numFats * g.fatSizeSectors

/-- The clusters that a call links or frees have their sectors in the FATs, and a write can
count the clusters. -/
def Covered (g : Fat16Bpb) (d : Disk) : DiskOp → Prop
  | .write _ data => neededClusters g data.length ≤ 64 →
      g.totalDataClusters % 65536 + 2 < 65536 ∧
        (neededClusters g data.length ≤
            (d.freeClusters g (g.totalDataClusters % 65536 + 2)).length →
          ∀ c ∈ (d.freeClusters g (g.totalDataClusters % 65536 + 2)).take
            (neededClusters g data.length), HasFats g c)
  | .delete name => ∀ k, d.findEntry g (to83Name name) = some k → ∀ n,
      let r := freeTurns g n (d.setEntry g k ((d.entry g k).set 0 0xE5))
        (entryCluster (d.entry g k))
      ¬ Ends r.2 → HasFats g r.2

theorem fatWrites_inFats : (∀ w ∈ fatWrites g c, InFats g w.2) ↔ HasFats g c := by
  simp only [fatWrites, List.forall_mem_cons, List.not_mem_nil, false_implies, implies_true,
    and_true, InFats, HasFats, fatSector_eq]
  omega

theorem fatWrites_allowed {target : Option ℕ} {dataToo : Bool} :
    (∀ w ∈ fatWrites g c, Allowed d g target dataToo w) ↔ HasFats g c := by
  rw [← fatWrites_inFats]
  simp only [fatWrites, List.forall_mem_cons, List.not_mem_nil, false_implies, implies_true,
    Allowed]

/-- The disk a delete leaves is the one behind the turns it has made. -/
theorem deleteTurns_of_deleteFileN {r : Except String Unit}
    (h : d.deleteFileN n name = some (r, d')) : d' = d.deleteTurns n name := by
  cases hb : d.bpb with
  | error msg =>
    simp only [deleteFileN, hb, Option.some_inj, Prod.mk.injEq] at h
    simp only [deleteTurns, hb]
    exact h.2.symm
  | ok g =>
    cases hfind : d.findEntry g (to83Name name) with
    | none =>
      simp only [deleteFileN, hb, hfind, Option.some_inj, Prod.mk.injEq] at h
      simp only [deleteTurns, hb, hfind]
      exact h.2.symm
    | some k =>
      simp only [deleteFileN, hb, hfind, freeChain, Option.map_eq_some_iff, Prod.mk.injEq] at h
      simp only [deleteTurns, hb, hfind]
      obtain ⟨d₁, hfree, _, heq⟩ := h
      split at hfree
      · cases hfree
        exact heq.symm
      · cases hfree

/-! ## Deleting -/

/-- One more turn of the loop. -/
theorem freeTurns_succ (g : Fat16Bpb) (n : ℕ) (d : Disk) (c : ℕ) :
    freeTurns g (n + 1) d c =
      let r := freeTurns g n d c
      if Ends r.2 then r else (r.1.setFat g r.2 0, r.1.fatVal g r.2) := by
  induction n generalizing d c with
  | zero => rfl
  | succ n ih =>
    by_cases hend : Ends c
    · simp only [freeTurns, if_pos hend]
    · rw [freeTurns, if_neg hend, ih, freeTurns, if_neg hend]

/-- Some turns write inside the FATs exactly if the clusters they free have their sectors
there. -/
theorem freeTurns_writes (d : Disk) (g : Fat16Bpb) (d' : Disk) (c n : ℕ) (target : Option ℕ) :
    ∃ ws, Writes d' (freeTurns g n d' c).1 ws ∧
      ((∀ w ∈ ws, Allowed d g target false w) ↔
        ∀ m < n, ¬ Ends (freeTurns g m d' c).2 → HasFats g (freeTurns g m d' c).2) := by
  induction n with
  | zero => exact ⟨[], .refl d', by simp⟩
  | succ n ih =>
    obtain ⟨ws, hws, hiff⟩ := ih
    rw [freeTurns_succ]
    dsimp only
    by_cases hend : Ends (freeTurns g n d' c).2
    · rw [if_pos hend]
      refine ⟨ws, hws, hiff.trans ⟨fun h m hm hne => ?_, fun h m hm => h m (by omega)⟩⟩
      have hlt : m < n := by
        refine Nat.lt_of_le_of_ne (Nat.le_of_lt_succ hm) fun heq => ?_
        exact hne (heq ▸ hend)
      exact h m hlt hne
    · rw [if_neg hend]
      refine ⟨ws ++ fatWrites g (freeTurns g n d' c).2, hws.trans (writes_setFat _ g _ 0), ?_⟩
      rw [List.forall_mem_append, hiff, fatWrites_allowed]
      constructor
      · rintro ⟨h, hlast⟩ m hm hne
        rcases Nat.lt_or_eq_of_le (Nat.le_of_lt_succ hm) with hlt | rfl
        · exact h m hlt hne
        · exact hlast
      · intro h
        exact ⟨fun m hm => h m (by omega), h n (Nat.lt_succ_self n) hend⟩

theorem inside_delete_iff (hb : d.bpb = .ok g) (name : Str) :
    Inside g d (.delete name) ↔ Covered g d (.delete name) := by
  simp only [Inside, Covered, deleteTurns, hb, and_iff_right (sectorsFit hb)]
  cases hfind : d.findEntry g (to83Name name) with
  | none => simp [(Writes.refl d).newWrites]
  | some k =>
    -- the entry is marked first, in its own sector
    have hmark := writes_setEntry d g k ((d.entry g k).set 0 0xE5)
    have hturns := fun n => freeTurns_writes d g (d.setEntry g k ((d.entry g k).set 0 0xE5))
      (entryCluster (d.entry g k)) n (some k)
    constructor
    · intro h k' hk' n hend
      cases hk'
      obtain ⟨ws, hws, hiff⟩ := hturns (n + 1)
      have hall := h (n + 1)
      rw [(hmark.trans hws).newWrites, List.forall_mem_append] at hall
      exact hiff.mp hall.2 n (Nat.lt_succ_self n) hend
    · intro h n
      obtain ⟨ws, hws, hiff⟩ := hturns n
      rw [(hmark.trans hws).newWrites, List.forall_mem_append]
      refine ⟨?_, hiff.mpr fun m _ => h k rfl m⟩
      intro w hw
      rw [List.mem_singleton.mp hw]
      exact ⟨k, rfl, rfl⟩

/-! ## Writing -/

theorem clusterEnd_of_lt (checks : Bool) (h : g.totalDataClusters % 65536 + 2 < 65536) :
    clusterEnd checks g = some (g.totalDataClusters % 65536 + 2) := by
  simp only [clusterEnd, Nat.mod_eq_of_lt h]
  exact if_neg fun hover => absurd hover.2 (by omega)

/-- The disk after the data was written and its clusters were linked. -/
def stored (d : Disk) (g : Fat16Bpb) (clusters : List ℕ) (data : List UInt8) : Disk :=
  linkClusters g (d.writeData (clusterSectors g clusters) data) clusters

theorem writes_stored (d : Disk) (g : Fat16Bpb) (clusters : List ℕ) (data : List UInt8) :
    Writes d (stored d g clusters data)
      ((clusterSectors g clusters).map (Prod.mk .data) ++ clusters.flatMap (fatWrites g)) :=
  (writes_writeData d _ data).trans (writes_linkClusters _ g clusters)

/-- While the writes stay in their areas the directory is what it was. -/
theorem findSlot_stored (hfats : ∀ c ∈ clusters, HasFats g c) (name83 : List UInt8) :
    (stored d g clusters data).findSlot g name83 = d.findSlot g name83 := by
  refine findSlot_congr fun k hk => ?_
  simp only [Disk.entry]
  rw [(writes_stored d g clusters data).frame]
  rw [List.map_append, List.mem_append, not_or]
  constructor
  · intro hmem
    rw [List.map_map, List.mem_map] at hmem
    obtain ⟨lba, hlba, heq⟩ := hmem
    have hge := dataStartLba_le hlba
    simp only [Function.comp_apply, rootSector] at heq
    simp only [Fat16Bpb.dataStartLba] at hge
    omega
  · intro hmem
    obtain ⟨w, hw, heq⟩ := List.mem_map.mp hmem
    obtain ⟨c, hc, hwc⟩ := List.mem_flatMap.mp hw
    have hlt := (fatWrites_inFats.mpr (hfats c hc) w hwc).2
    rw [heq, rootSector, Fat16Bpb.rootDirStartLba] at hlt
    omega

/-- A write that finds its clusters. -/
theorem writeFile_of_free {checks : Bool} {stop : ℕ} (hb : d.bpb = .ok g)
    (hneed : neededClusters g data.length ≤ 64) (hend : clusterEnd checks g = some stop)
    (hfree : neededClusters g data.length ≤ (d.freeClusters g stop).length)
    (hclusters : (d.freeClusters g stop).take (neededClusters g data.length) = clusters)
    (name : Str) :
    (∃ msg, d.writeFile checks name data = (.error msg, stored d g clusters data)) ∨
      ∃ k, (stored d g clusters data).findSlot g (to83Name name) = some k ∧
        d.writeFile checks name data = (.ok data.length, (stored d g clusters data).setEntry g k
          (newEntry (to83Name name) (clusters.headD 0) data.length)) := by
  have hlen : ¬ clusters.length < neededClusters g data.length := by
    rw [← hclusters, List.length_take]
    omega
  simp only [writeFile, hb, hend, if_neg (Nat.not_lt.mpr hneed), hclusters, if_neg hlen, stored]
  cases (linkClusters g (d.writeData (clusterSectors g clusters) data) clusters).findSlot g
      (to83Name name) with
  | none => exact .inl ⟨_, rfl⟩
  | some k => exact .inr ⟨k, rfl, rfl⟩

theorem dataWrites_allowed {stop : ℕ} (hstop : stop ≤ g.totalDataClusters + 2)
    (hclusters : clusters ⊆ d.freeClusters g stop) (target : Option ℕ) :
    ∀ w ∈ (clusterSectors g clusters).map (Prod.mk .data), Allowed d g target true w := by
  intro w hw
  obtain ⟨lba, hlba, heq⟩ := List.mem_map.mp hw
  obtain ⟨c, hc, s, hs, hlba⟩ := mem_clusterSectors.mp hlba
  have hfree := mem_freeClusters.mp (hclusters hc)
  rw [← heq]
  exact ⟨rfl, c, ⟨hfree.1.1, by omega⟩, hfree.2, s, hs, hlba⟩

/-- A write that finds its clusters stays inside exactly if these have their sectors in the
FATs. -/
theorem newWrites_write_iff {checks : Bool} {stop : ℕ} (hb : d.bpb = .ok g)
    (hneed : neededClusters g data.length ≤ 64) (hend : clusterEnd checks g = some stop)
    (hstop : stop ≤ g.totalDataClusters + 2)
    (hfree : neededClusters g data.length ≤ (d.freeClusters g stop).length)
    (hclusters : (d.freeClusters g stop).take (neededClusters g data.length) = clusters)
    (name : Str) :
    ((d.writeFile checks name data).1 ≠ .panic ∧
        ∀ w ∈ newWrites d (d.writeFile checks name data).2,
          Allowed d g (d.findSlot g (to83Name name)) true w) ↔
      ∀ c ∈ clusters, HasFats g c := by
  have hsub : clusters ⊆ d.freeClusters g stop := hclusters ▸ List.take_subset _ _
  have hdata := dataWrites_allowed hstop hsub (d.findSlot g (to83Name name))
  have hstored := writes_stored d g clusters data
  have hfats : (∀ w ∈ clusters.flatMap (fatWrites g),
      Allowed d g (d.findSlot g (to83Name name)) true w) ↔ ∀ c ∈ clusters, HasFats g c := by
    simp only [List.mem_flatMap, forall_exists_index, and_imp]
    exact ⟨fun h c hc => fatWrites_allowed.mp fun w hw => h w c hc hw,
      fun h w c hc => fatWrites_allowed.mpr (h c hc) w⟩
  rcases writeFile_of_free hb hneed hend hfree hclusters name with ⟨msg, heq⟩ | ⟨k, hk, heq⟩
  · rw [heq, hstored.newWrites, List.forall_mem_append, hfats]
    exact ⟨fun h => h.2.2, fun h => ⟨by simp, hdata, h⟩⟩
  · rw [heq, (hstored.trans (writes_setEntry _ g k _)).newWrites, List.forall_mem_append,
      List.forall_mem_append, hfats]
    refine ⟨fun h => h.2.1.2, fun h => ⟨by simp, ⟨hdata, h⟩, fun w hw => ?_⟩⟩
    rw [findSlot_stored h] at hk
    rw [List.mem_singleton.mp hw]
    exact ⟨k, hk, rfl⟩

theorem inside_write_iff (hb : d.bpb = .ok g) (name : Str) (data : List UInt8) :
    Inside g d (.write name data) ↔ Covered g d (.write name data) := by
  simp only [Inside, Covered, and_iff_right (sectorsFit hb)]
  by_cases hneed : neededClusters g data.length ≤ 64
  · simp only [hneed, true_implies]
    by_cases hover : g.totalDataClusters % 65536 + 2 < 65536
    · have hstop : g.totalDataClusters % 65536 + 2 ≤ g.totalDataClusters + 2 :=
        Nat.add_le_add_right (Nat.mod_le _ _) 2
      rw [and_iff_right hover]
      by_cases hfree : neededClusters g data.length ≤
          (d.freeClusters g (g.totalDataClusters % 65536 + 2)).length
      · simp only [hfree, true_implies]
        have hiff := fun checks => newWrites_write_iff hb hneed (clusterEnd_of_lt checks hover)
          hstop hfree rfl name
        exact ⟨fun h => (hiff true).mp (h true), fun h checks => (hiff checks).mpr h⟩
      · have hshort : ∀ checks, d.writeFile checks name data =
            (.error "Not enough free space on Export Disk", d) := by
          intro checks
          simp only [writeFile, hb, clusterEnd_of_lt checks hover,
            if_neg (Nat.not_lt.mpr hneed)]
          rw [if_pos]
          rw [List.length_take]
          omega
        simp [hshort, (Writes.refl d).newWrites, hfree]
    · have hpanic : d.writeFile true name data = (.panic, d) := by
        have hend : clusterEnd true g = none := by
          simp only [clusterEnd]
          exact if_pos ⟨trivial, Nat.le_of_not_lt hover⟩
        simp only [writeFile, hb, hend, if_neg (Nat.not_lt.mpr hneed)]
      refine ⟨fun h => absurd (congrArg Prod.fst hpanic) (h true).1, fun h => ?_⟩
      exact absurd h.1 hover
  · have hlarge : ∀ checks, d.writeFile checks name data =
        (.error "File size exceeds static cluster allocation limit (128KB)", d) := by
      intro checks
      simp only [writeFile, hb, if_pos (Nat.lt_of_not_le hneed)]
    simp [hlarge, (Writes.refl d).newWrites, hneed]

instance (g : Fat16Bpb) (c : ℕ) : Decidable (HasFats g c) := inferInstanceAs (Decidable (_ < _))

/-- A volume with a single FAT. -/
def oneFatDisk : Disk :=
  ⟨fun lba => if lba = 0 then Function.update blankBoot 16 1 else fun _ => 0, []⟩

/-- A volume with a file whose first cluster is far behind its end. -/
def strayDisk : Disk := blankDisk.setEntry blankBpb 0 (newEntry (to83Name "A".toList) 0x4000 1)

end Disk

end LatencyOS
