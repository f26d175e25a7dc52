import LatencyOS.Disk.Geometry

/-!
# The data of chains

Reading collects the data of a chain; writing puts data into clusters and then links them.  The
two agree: what was written to linked clusters is the data of their chain.
-/

namespace LatencyOS

namespace Disk

variable {d d' : Disk} {g : Fat16Bpb} {c lba : ℕ} {l lbas clusters : List ℕ} {data : List UInt8}

/-! ## Reading a chain -/

@[simp] theorem length_sectorBytes (s : Sector) : (sectorBytes s).length = sectorSize := by
  simp [sectorBytes]

@[simp] theorem length_clusterBytes (d : Disk) (g : Fat16Bpb) (c : ℕ) :
    (d.clusterBytes g c).length = g.sectorsPerCluster * sectorSize := by
  simp [clusterBytes, List.length_flatMap]

/-- Reading takes the bytes it wants from the data of the chain. -/
theorem readClusters_eq (hspc : 1 ≤ g.sectorsPerCluster) (h : Chain (d.fatVal g) Ends c l)
    {n left : ℕ} (hn : left ≤ n) :
    d.readClusters g n c left = (l.flatMap (d.clusterBytes g)).take left := by
  induction h generalizing n left with
  | nil hend =>
    cases n with
    | zero => simp [readClusters]
    | succ n => simp [readClusters, hend]
  | @cons c l hend ht ih =>
    cases n with
    | zero =>
      have hleft : left = 0 := by omega
      simp [readClusters, hleft]
    | succ n =>
      by_cases hleft : left = 0
      · simp [readClusters, hleft]
      · have hpos : 1 ≤ g.sectorsPerCluster * sectorSize := Nat.mul_pos hspc (by decide)
        rw [readClusters, if_neg (by simp [hend, hleft]), List.flatMap_cons, List.take_append]
        dsimp only
        rw [ih (by simp only [List.length_take, length_clusterBytes]; omega)]
        congr 2
        simp only [List.length_take, length_clusterBytes]
        omega

/-! ## Writing data -/

theorem sectors_writeData_of_notMem (h : lba ∉ lbas) (d : Disk) (data : List UInt8) :
    (d.writeData lbas data).sectors lba = d.sectors lba := by
  induction lbas generalizing d data with
  | nil => rfl
  | cons lba' lbas ih =>
    have hne : lba ≠ lba' := fun heq => h (heq ▸ List.mem_cons_self)
    rw [writeData, ih (fun hmem => h (List.mem_cons_of_mem _ hmem)), sectors_write, if_neg hne]

/-- The bytes of a padded sector are its data, as far as there is any. -/
theorem take_sectorBytes_padSector (data : List UInt8) :
    (sectorBytes (padSector data)).take data.length = data.take sectorSize := by
  refine List.ext_getElem (by simp [Nat.min_comm]) fun i hi hi' => ?_
  have hlen : i < (data.take sectorSize).length := hi'
  simp only [sectorBytes, padSector, List.getElem_take, List.getElem_map, List.getElem_range]
  rw [List.getD_eq_getElem?_getD, List.getElem?_eq_getElem hlen, Option.getD_some,
    List.getElem_take]

/-- The data can be read back from the sectors it was written to. -/
theorem take_writeData (hnodup : lbas.Nodup) (hlen : data.length ≤ lbas.length * sectorSize) :
    (lbas.flatMap fun lba => sectorBytes ((d.writeData lbas data).sectors lba)).take data.length =
      data := by
  induction lbas generalizing d data with
  | nil =>
    have hnil : data = [] := List.length_eq_zero_iff.mp (by simpa using hlen)
    simp [hnil]
  | cons lba lbas ih =>
    have hnot := (List.nodup_cons.mp hnodup).1
    have hdrop : (data.drop sectorSize).length ≤ lbas.length * sectorSize := by
      rw [List.length_cons, Nat.succ_mul] at hlen
      rw [List.length_drop]
      omega
    have htail := ih (List.nodup_cons.mp hnodup).2 hdrop
      (d := d.write .data lba (padSector data))
    rw [List.length_drop] at htail
    rw [List.flatMap_cons, writeData, sectors_writeData_of_notMem hnot, sectors_write,
      if_pos rfl, List.take_append, length_sectorBytes, htail, take_sectorBytes_padSector,
      List.take_append_drop]

/-! ## The sectors of clusters -/

theorem length_clusterSectors (g : Fat16Bpb) (clusters : List ℕ) :
    (clusterSectors g clusters).length = clusters.length * g.sectorsPerCluster := by
  simp [clusterSectors, List.length_flatMap]

theorem mem_clusterSectors : lba ∈ clusterSectors g clusters ↔
    ∃ c ∈ clusters, ∃ s < g.sectorsPerCluster, lba = clusterLba g c + s := by
  simp only [clusterSectors, List.mem_flatMap, List.mem_map, List.mem_range, eq_comm]

theorem dataStartLba_le (h : lba ∈ clusterSectors g clusters) : g.dataStartLba ≤ lba := by
  obtain ⟨c, _, s, _, heq⟩ := mem_clusterSectors.mp h
  rw [heq, clusterLba]
  omega

/-- Different clusters have different sectors. -/
theorem clusterLba_inj {c c' s s' : ℕ} (hc : 2 ≤ c) (hc' : 2 ≤ c') (hs : s < g.sectorsPerCluster)
    (hs' : s' < g.sectorsPerCluster) (h : clusterLba g c + s = clusterLba g c' + s') :
    c = c' ∧ s = s' := by
  simp only [clusterLba] at h
  have hdiv : ∀ m t, t < g.sectorsPerCluster → (m * g.sectorsPerCluster + t) /
      g.sectorsPerCluster = m := by
    intro m t ht
    rw [Nat.mul_comm, Nat.mul_add_div (by omega), Nat.div_eq_of_lt ht, Nat.add_zero]
  have heq : (c - 2) * g.sectorsPerCluster + s = (c' - 2) * g.sectorsPerCluster + s' := by omega
  have hm : c - 2 = c' - 2 := by
    rw [← hdiv (c - 2) s hs, heq, hdiv (c' - 2) s' hs']
  rw [hm] at heq
  omega

theorem nodup_clusterSectors (hnodup : clusters.Nodup) (hge : ∀ c ∈ clusters, 2 ≤ c) :
    (clusterSectors g clusters).Nodup := by
  refine List.nodup_flatMap.mpr ⟨fun c _ => ?_, ?_⟩
  · exact List.nodup_range.map fun s s' h => Nat.add_left_cancel h
  · refine List.Pairwise.imp_of_mem ?_ hnodup
    intro c c' hc hc' hne lba hmem hmem'
    obtain ⟨s, hs, heq⟩ := List.mem_map.mp hmem
    obtain ⟨s', hs', heq'⟩ := List.mem_map.mp hmem'
    exact hne (clusterLba_inj (hge c hc) (hge c' hc') (List.mem_range.mp hs)
      (List.mem_range.mp hs') (heq.trans heq'.symm)).1

theorem flatMap_clusterBytes (d : Disk) (g : Fat16Bpb) (clusters : List ℕ) :
    clusters.flatMap (d.clusterBytes g) =
      (clusterSectors g clusters).flatMap fun lba => sectorBytes (d.sectors lba) := by
  simp only [clusterSectors, List.flatMap_assoc, List.flatMap_map]
  rfl

/-! ## Storing data in clusters -/

/-- A disk after data was put into some clusters and these were linked. -/
structure Stored (d d' : Disk) (g : Fat16Bpb) (clusters : List ℕ) (data : List UInt8) : Prop where
  bpb : d'.bpb = d.bpb
  entry : ∀ k < g.rootDirSectors * 16, d'.entry g k = d.entry g k
  fat : ∀ c, InVolume g c → d'.fatVal g c = link (d.fatVal g) 0xFFFF clusters c
  kept : ∀ c, 2 ≤ c → c ∉ clusters → d'.clusterBytes g c = d.clusterBytes g c
  stored : (clusters.flatMap (d'.clusterBytes g)).take data.length = data

theorem writeData_stored (hg : Geometry g) (hnodup : clusters.Nodup)
    (hvol : ∀ c ∈ clusters, InVolume g c)
    (hlen : data.length ≤ clusters.length * (g.sectorsPerCluster * sectorSize)) :
    let d' := d.writeData (clusterSectors g clusters) data
    d'.bpb = d.bpb ∧ (∀ k < g.rootDirSectors * 16, d'.entry g k = d.entry g k) ∧
      (∀ c, InVolume g c → d'.fatVal g c = d.fatVal g c) ∧
      (∀ c, 2 ≤ c → c ∉ clusters → d'.clusterBytes g c = d.clusterBytes g c) ∧
      (clusters.flatMap (d'.clusterBytes g)).take data.length = data := by
  intro d'
  have hbefore : ∀ lba < g.dataStartLba, d'.sectors lba = d.sectors lba := by
    intro lba hlba
    refine sectors_writeData_of_notMem (fun hmem => ?_) d data
    exact absurd (dataStartLba_le hmem) (by omega)
  have hroot := rootDirStartLba_eq hg
  have hdata : g.dataStartLba = g.rootDirStartLba + g.rootDirSectors := rfl
  have hres := hg.reserved
  refine ⟨?_, fun k hk => ?_, fun c hc => ?_, fun c hc hnot => ?_, ?_⟩
  · rw [Disk.bpb, Disk.bpb, hbefore 0 (by omega)]
  · simp only [Disk.entry]
    rw [hbefore (rootSector g k) (by simp only [rootSector]; omega)]
  · have hsec := fatSector_lt hg hc
    simp only [Disk.fatVal]
    rw [hbefore (fatSector g c) (by omega)]
  · refine List.flatMap_congr fun s hs => ?_
    rw [sectors_writeData_of_notMem]
    intro hmem
    obtain ⟨c', hc', s', hs', heq⟩ := mem_clusterSectors.mp hmem
    have hcc := (clusterLba_inj hc (hvol c' hc').1 (List.mem_range.mp hs) hs' heq).1
    exact hnot (hcc ▸ hc')
  · rw [flatMap_clusterBytes]
    refine take_writeData (nodup_clusterSectors hnodup fun c hc => (hvol c hc).1) ?_
    rwa [length_clusterSectors, Nat.mul_assoc]

/-- Linking clusters links them in the table and is not seen behind it. -/
theorem linkClusters_spec (hg : Geometry g) (hvol : ∀ c ∈ clusters, InVolume g c) (d : Disk) :
    SameBehind g d (linkClusters g d clusters) ∧ ∀ c, InVolume g c →
      (linkClusters g d clusters).fatVal g c = link (d.fatVal g) 0xFFFF clusters c := by
  have hcount := hg.count
  fun_induction linkClusters g d clusters with
  | case1 d => exact ⟨.refl g d, fun c _ => rfl⟩
  | case2 d c₀ =>
    have hc₀ := hvol c₀ List.mem_cons_self
    refine ⟨sameBehind_setFat hg hc₀ _, fun c hc => ?_⟩
    rw [fatVal_setFat hg hc (by decide), link, Function.update_apply]
  | case3 d c₀ c₁ rest ih =>
    have hc₀ := hvol c₀ List.mem_cons_self
    have hc₁ := hvol c₁ (by simp)
    have hlt : c₁ < 65536 := by
      have := hc₁.2
      omega
    have htail := ih fun c hc => hvol c (List.mem_cons_of_mem c₀ hc)
    refine ⟨(sameBehind_setFat hg hc₀ _).trans htail.1, fun c hc => ?_⟩
    rw [htail.2 c hc, link]
    refine link_congr ?_
    rw [fatVal_setFat hg hc hlt, Function.update_apply]

theorem stored_linkClusters (hg : Geometry g) (hnodup : clusters.Nodup)
    (hvol : ∀ c ∈ clusters, InVolume g c)
    (hlen : data.length ≤ clusters.length * (g.sectorsPerCluster * sectorSize)) :
    Stored d (linkClusters g (d.writeData (clusterSectors g clusters) data) clusters) g clusters
      data := by
  obtain ⟨hbpb, hentry, hfat, hkept, hstored⟩ := writeData_stored (d := d) hg hnodup hvol hlen
  obtain ⟨hbehind, hlink⟩ := linkClusters_spec hg hvol
    (d.writeData (clusterSectors g clusters) data)
  refine ⟨hbehind.bpb.trans hbpb, fun k hk => (hbehind.entry k).trans (hentry k hk),
    fun c hc => ?_, fun c hc hnot => (hbehind.clusterBytes c).trans (hkept c hc hnot), ?_⟩
  · rw [hlink c hc]
    exact link_congr (hfat c hc)
  · rw [funext hbehind.clusterBytes]
    exact hstored

end Disk

end LatencyOS
