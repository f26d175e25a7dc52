import LatencyOS.Disk.Contents
import LatencyOS.Disk.Geometry

/-!
# Well-formed volumes

Every live entry of a volume has a chain of its own.  A write puts its data into free clusters,
links them and then fills one directory entry; so the chains of the other entries stay as they
were, and a file can be read back.
-/

namespace LatencyOS

namespace Disk

variable {d d' : Disk} {g : Fat16Bpb} {chain : ℕ → List ℕ} {name83 : List UInt8}
  {name : Str} {data : List UInt8} {clusters : List ℕ} {checks : Bool} {c k len : ℕ}

/-- A live entry of the root directory. -/
def Live (d : Disk) (g : Fat16Bpb) (k : ℕ) : Prop :=
  k < g.rootDirSectors * 16 ∧ entryLive (d.entry g k) = true

/-- A volume with the chains of its live entries: every chain ends, its members are clusters of
the volume that the table holds as used, and no cluster is in two chains. -/
structure Volume (d : Disk) (g : Fat16Bpb) (chain : ℕ → List ℕ) : Prop where
  bpb : d.bpb = .ok g
  geometry : Geometry g
  chains : ∀ k, Live d g k → Chain (d.fatVal g) Ends (entryCluster (d.entry g k)) (chain k)
  members : ∀ k, Live d g k → ∀ c ∈ chain k, InVolume g c ∧ 2 ≤ d.fatVal g c
  disjoint : ∀ k k', Live d g k → Live d g k' → k ≠ k' → List.Disjoint (chain k) (chain k')

/-- The unused entries are the last ones. -/
def Packed (d : Disk) (g : Fat16Bpb) : Prop :=
  ∀ k k', k < k' → k' < g.rootDirSectors * 16 → entryMark (d.entry g k) = 0 →
    entryMark (d.entry g k') = 0

theorem IsFile.live (h : IsFile d g name83 k) : Live d g k := by
  refine ⟨h.slot, ?_⟩
  rw [entryLive, h.listed, Bool.and_true, bne_iff_ne]
  exact h.seen k le_rfl rfl

/-! ## Reading -/

/-- Reading a file gives the data of its chain, up to its size and that of the buffer. -/
theorem readFile_eq (hb : d.bpb = .ok g) (hg : Geometry g)
    (hfind : d.findEntry g (to83Name name) = some k) {l : List ℕ}
    (hchain : Chain (d.fatVal g) Ends (entryCluster (d.entry g k)) l) (bufSize : ℕ) :
    d.readFile name bufSize = .ok
      ((l.flatMap (d.clusterBytes g)).take (min (entrySize (d.entry g k)) bufSize)) := by
  simp only [readFile, hb, bind, Except.bind, hfind]
  split
  · next hnone =>
    rcases hnone with hsize | hcluster
    · simp [hsize]
    · have hend : Ends (entryCluster (d.entry g k)) := fun h => absurd h.1 (by omega)
      rw [hchain.unique (.nil hend)]
      simp
  · rw [readClusters_eq hg.cluster hchain le_rfl]

/-! ## Directory entries -/

theorem length_newEntry (h : name83.length = 11) : (newEntry name83 c len).length = 32 := by
  simp [newEntry, toLe32, toLe16, h]

theorem entryName_newEntry (h : name83.length = 11) :
    entryName (newEntry name83 c len) = name83 := by
  simp only [entryName, newEntry, List.append_assoc]
  rw [← h]
  exact List.take_left

theorem entryMark_newEntry (h : name83.length = 11) :
    entryMark (newEntry name83 c len) = name83.getD 0 0 := by
  simp only [entryMark, newEntry, List.append_assoc, List.getD_eq_getElem?_getD]
  rw [List.getElem?_append_left (by omega)]

theorem entryCluster_newEntry (h : name83.length = 11) (hc : c < 65536) :
    entryCluster (newEntry name83 c len) = c := by
  simp only [entryCluster, newEntry, toLe32, toLe16]
  simp [List.getD, h, le16_ofNat hc]

theorem entrySize_newEntry (h : name83.length = 11) (hlen : len < 4294967296) :
    entrySize (newEntry name83 c len) = len := by
  simp only [entrySize, newEntry, toLe32, toLe16, le32, le16]
  simp [List.getD, h]
  omega

theorem entryListed_newEntry (h : name83.length = 11) :
    entryListed (newEntry name83 c len) = (name83.getD 0 0 != 0xE5) := by
  have hattr : (newEntry name83 c len).getD 11 0 &&& 0x0F != 0x0F := by
    simp only [newEntry]
    simp [List.getD, h]
    decide
  rw [entryListed, entryMark_newEntry h, hattr, Bool.and_true]

/-- A name that does not mark its entry as unused or deleted. -/
def LiveName (name83 : List UInt8) : Prop := name83.getD 0 0 ≠ 0 ∧ name83.getD 0 0 ≠ 0xE5

instance (name83 : List UInt8) : Decidable (LiveName name83) :=
  inferInstanceAs (Decidable (_ ∧ _))

theorem entryLive_newEntry (h : name83.length = 11) :
    entryLive (newEntry name83 c len) = true ↔ LiveName name83 := by
  rw [entryLive, entryMark_newEntry h, entryListed_newEntry h, Bool.and_eq_true, bne_iff_ne,
    bne_iff_ne, LiveName]

theorem liveName_of_printable (hname : Printable name) : LiveName (to83Name name) := by
  have hpos : 0 < (to83Name name).length := by
    rw [length_to83Name]
    decide
  have hmem : (to83Name name).getD 0 0 ∈ to83Name name := by
    rw [List.getD_eq_getElem?_getD, List.getElem?_eq_getElem hpos, Option.getD_some]
    exact List.getElem_mem hpos
  have hrange := hname.mem_to83Name hmem
  constructor
  · intro heq
    rw [heq] at hrange
    exact absurd hrange (by decide)
  · intro heq
    rw [heq] at hrange
    exact absurd hrange (by decide)

/-! ## Writing -/

/-- Free clusters of the volume that hold a number of bytes. -/
structure Allocated (d : Disk) (g : Fat16Bpb) (len : ℕ) (clusters : List ℕ) : Prop where
  nodup : clusters.Nodup
  nonempty : clusters ≠ []
  volume : ∀ c ∈ clusters, InVolume g c
  free : ∀ c ∈ clusters, d.fatVal g c = 0
  room : len ≤ clusters.length * (g.sectorsPerCluster * sectorSize)

theorem mem_freeClusters {stop : ℕ} : c ∈ d.freeClusters g stop ↔
    (2 ≤ c ∧ c < stop) ∧ d.fatVal g c = 0 := by
  simp only [freeClusters, List.mem_filter, List.mem_range'_1, beq_iff_eq]
  omega

theorem neededClusters_pos (hspc : 1 ≤ g.sectorsPerCluster) : 0 < neededClusters g len := by
  have hpos : 0 < g.sectorsPerCluster * sectorSize := Nat.mul_pos hspc (by decide)
  unfold neededClusters
  dsimp only
  split
  · exact Nat.one_pos
  · exact Nat.div_pos (by omega) hpos

theorem le_neededClusters (hspc : 1 ≤ g.sectorsPerCluster) :
    len ≤ neededClusters g len * (g.sectorsPerCluster * sectorSize) := by
  have hpos : 0 < g.sectorsPerCluster * sectorSize := Nat.mul_pos hspc (by decide)
  unfold neededClusters
  dsimp only
  split
  · omega
  · have hdiv := Nat.lt_div_mul_add (a := len + g.sectorsPerCluster * sectorSize - 1) hpos
    omega

theorem clusterEnd_eq (hg : Geometry g) (checks : Bool) :
    clusterEnd checks g = some (g.totalDataClusters + 2) := by
  have hcount := hg.count
  have hmod : g.totalDataClusters % 65536 = g.totalDataClusters := Nat.mod_eq_of_lt (by omega)
  have hsum : (g.totalDataClusters + 2) % 65536 = g.totalDataClusters + 2 :=
    Nat.mod_eq_of_lt (by omega)
  simp only [clusterEnd, hmod, hsum]
  exact if_neg fun h => absurd h.2 (by omega)

theorem allocated_take (hg : Geometry g)
    (hlen : ¬ ((d.freeClusters g (g.totalDataClusters + 2)).take
      (neededClusters g len)).length < neededClusters g len) :
    Allocated d g len ((d.freeClusters g (g.totalDataClusters + 2)).take
      (neededClusters g len)) := by
  have hpos : 0 < neededClusters g len := neededClusters_pos hg.cluster
  have hroom : len ≤ neededClusters g len * (g.sectorsPerCluster * sectorSize) :=
    le_neededClusters hg.cluster
  refine ⟨?_, fun hnil => ?_, fun c hc => ?_, fun c hc => ?_, ?_⟩
  · exact (((List.nodup_range').filter _).sublist (List.take_sublist _ _))
  · rw [hnil, List.length_nil] at hlen
    omega
  · exact (mem_freeClusters.mp (List.mem_of_mem_take hc)).1
  · exact (mem_freeClusters.mp (List.mem_of_mem_take hc)).2
  · exact hroom.trans (Nat.mul_le_mul_right _ (by omega))

/-- A cluster in use is not allocated. -/
theorem Allocated.notMem (h : Allocated d g len clusters) (hv : Volume d g chain)
    (hlive : Live d g k) (hc : c ∈ chain k) : c ∉ clusters := by
  intro hmem
  have hused := (hv.members k hlive c hc).2
  rw [h.free c hmem] at hused
  exact absurd hused (by decide)

/-- Linking what was allocated keeps the table at the clusters in use. -/
theorem Allocated.fat_of_mem (h : Allocated d g len clusters) (hv : Volume d g chain)
    (hfat : ∀ c, InVolume g c → d'.fatVal g c = link (d.fatVal g) 0xFFFF clusters c)
    (hlive : Live d g k) (hc : c ∈ chain k) : d'.fatVal g c = d.fatVal g c := by
  rw [hfat c (hv.members k hlive c hc).1]
  exact link_of_notMem (h.notMem hv hlive hc)

/-- A file that a write takes: it needs no more clusters than a write links, nor than are free. -/
def Fits (d : Disk) (g : Fat16Bpb) (len : ℕ) : Prop :=
  neededClusters g len ≤ 64 ∧
    neededClusters g len ≤ (d.freeClusters g (g.totalDataClusters + 2)).length

instance (d : Disk) (g : Fat16Bpb) (len : ℕ) : Decidable (Fits d g len) :=
  inferInstanceAs (Decidable (_ ∧ _))

/-- What a write can do: it fails before it has changed anything, or it stores the data and
fails for want of a directory entry, or it fills the entry it finds. -/
theorem writeFile_cases (hb : d.bpb = .ok g) (hg : Geometry g) (checks : Bool) (name : Str)
    (data : List UInt8) :
    (¬ Fits d g data.length ∧ ∃ msg, d.writeFile checks name data = (.error msg, d)) ∨
    ∃ clusters d₁, Fits d g data.length ∧ Allocated d g data.length clusters ∧
      clusters.length ≤ 64 ∧ Stored d d₁ g clusters data ∧
      ((d.findSlot g (to83Name name) = none ∧
          d.writeFile checks name data = (.error "Root directory is full on Export Disk", d₁)) ∨
        ∃ k, d.findSlot g (to83Name name) = some k ∧
          d.writeFile checks name data = (.ok data.length, d₁.setEntry g k
            (newEntry (to83Name name) (clusters.headD 0) data.length))) := by
  simp only [writeFile, hb, clusterEnd_eq hg]
  by_cases hneed : 64 < neededClusters g data.length
  · exact .inl ⟨fun hfits => absurd hfits.1 (Nat.not_le.mpr hneed), _, if_pos hneed⟩
  · rw [if_neg hneed]
    by_cases hfull : ((d.freeClusters g (g.totalDataClusters + 2)).take
        (neededClusters g data.length)).length < neededClusters g data.length
    · refine .inl ⟨fun hfits => ?_, _, if_pos hfull⟩
      rw [List.length_take, Nat.min_eq_left hfits.2] at hfull
      exact absurd hfull (Nat.lt_irrefl _)
    · rw [if_neg hfull]
      have halloc := allocated_take hg hfull
      have hstored := stored_linkClusters (d := d) hg halloc.nodup halloc.volume halloc.room
      refine .inr ⟨_, _, ⟨by omega, ?_⟩, halloc, ?_, hstored, ?_⟩
      · rw [List.length_take] at hfull
        omega
      · exact (List.length_take_le _ _).trans (by omega)
      · rw [findSlot_congr hstored.entry]
        cases d.findSlot g (to83Name name) with
        | none => exact .inl ⟨rfl, rfl⟩
        | some k => exact .inr ⟨k, rfl, rfl⟩

/-- What a write that succeeds has done. -/
structure Written (d d' : Disk) (g : Fat16Bpb) (name83 data : List UInt8) (clusters : List ℕ)
    (k : ℕ) : Prop where
  allocated : Allocated d g data.length clusters
  slot : d.findSlot g name83 = some k
  bpb : d'.bpb = d.bpb
  entry : ∀ j < g.rootDirSectors * 16, d'.entry g j =
    if j = k then newEntry name83 (clusters.headD 0) data.length else d.entry g j
  fat : ∀ c, InVolume g c → d'.fatVal g c = link (d.fatVal g) 0xFFFF clusters c
  kept : ∀ c, 2 ≤ c → c ∉ clusters → d'.clusterBytes g c = d.clusterBytes g c
  stored : (clusters.flatMap (d'.clusterBytes g)).take data.length = data
  size : data.length < 4294967296

/-- Data stored in allocated clusters and an entry filled: what a write has done. -/
theorem Stored.written {d₁ : Disk} (hst : Stored d d₁ g clusters data) (hb : d.bpb = .ok g)
    (hg : Geometry g) (halloc : Allocated d g data.length clusters) (hcount : clusters.length ≤ 64)
    (hslot : d.findSlot g name83 = some k) (hlen : name83.length = 11) :
    Written d (d₁.setEntry g k (newEntry name83 (clusters.headD 0) data.length)) g name83 data
      clusters k := by
  have hk := (findSlot_eq_some_iff.mp hslot).1
  have hsame := sameData_setEntry (d := d₁) hg hk
    (newEntry name83 (clusters.headD 0) data.length)
  have hspc := (bpb_bounds hb).1
  refine ⟨halloc, hslot, hsame.1.trans hst.bpb, fun j hj => ?_, fun c hc => ?_,
    fun c hc hnot => (hsame.2 c).trans (hst.kept c hc hnot), ?_, ?_⟩
  · rw [entry_setEntry (length_newEntry hlen), hst.entry j hj]
  · rw [fatVal_setEntry hg hc, hst.fat c hc]
  · rw [funext hsame.2]
    exact hst.stored
  · have hroom := halloc.room
    have hbound : clusters.length * (g.sectorsPerCluster * sectorSize) ≤ 64 * (255 * 512) :=
      Nat.mul_le_mul hcount (Nat.mul_le_mul (by omega) le_rfl)
    omega

/-- A write that succeeds has stored the data and filled an entry. -/
theorem written_of_ok (hb : d.bpb = .ok g) (hg : Geometry g)
    (hw : d.writeFile checks name data = (.ok len, d')) :
    ∃ clusters k, Written d d' g (to83Name name) data clusters k := by
  rcases writeFile_cases hb hg checks name data with
    ⟨-, msg, herr⟩ | ⟨clusters, d₁, -, halloc, hcount, hst, ⟨-, herr⟩ | ⟨k, hslot, hok⟩⟩
  · rw [herr] at hw
    cases hw
  · rw [herr] at hw
    cases hw
  · rw [hok] at hw
    cases hw
    exact ⟨clusters, k, hst.written hb hg halloc hcount hslot (length_to83Name name)⟩

namespace Written

variable (h : Written d d' g name83 data clusters k)
include h

theorem slot_lt : k < g.rootDirSectors * 16 := (findSlot_eq_some_iff.mp h.slot).1

theorem entry_self : d'.entry g k = newEntry name83 (clusters.headD 0) data.length := by
  rw [h.entry k h.slot_lt, if_pos rfl]

theorem entry_of_ne {j : ℕ} (hj : j < g.rootDirSectors * 16) (hne : j ≠ k) :
    d'.entry g j = d.entry g j := by
  rw [h.entry j hj, if_neg hne]

/-- The first cluster in the new entry. -/
theorem entryCluster_self (hg : Geometry g) (hlen : name83.length = 11) :
    entryCluster (d'.entry g k) = clusters.headD 0 := by
  have hcount := hg.count
  rw [h.entry_self]
  refine entryCluster_newEntry hlen ?_
  cases hcl : clusters with
  | nil => exact absurd hcl h.allocated.nonempty
  | cons c cs =>
    have hc := (h.allocated.volume c (hcl ▸ List.mem_cons_self)).2
    rw [List.headD_cons]
    omega

/-- The chain of the new entry. -/
theorem chain_self (hg : Geometry g) (hlen : name83.length = 11) :
    Chain (d'.fatVal g) Ends (entryCluster (d'.entry g k)) clusters := by
  have hcount := hg.count
  rw [h.entryCluster_self hg hlen]
  have hvol := h.allocated.volume
  have hnotEnds : ∀ c ∈ clusters, ¬ Ends c := by
    intro c hc
    have := hvol c hc
    rw [Ends, not_not]
    exact ⟨this.1, by have := this.2; omega⟩
  cases hcl : clusters with
  | nil => exact absurd hcl h.allocated.nonempty
  | cons c cs =>
    rw [List.headD_cons]
    rw [hcl] at hnotEnds
    have hnodup := h.allocated.nodup
    rw [hcl] at hnodup
    have hlink : Chain (link (d.fatVal g) 0xFFFF (c :: cs)) Ends c (c :: cs) :=
      chain_link hnodup hnotEnds (by decide)
    refine hlink.congr fun x hx => ?_
    rw [h.fat x (hvol x (hcl ▸ hx)), hcl]

theorem live_of_ne {j : ℕ} (hne : j ≠ k) (hlive : Live d' g j) : Live d g j := by
  refine ⟨hlive.1, ?_⟩
  rw [← h.entry_of_ne hlive.1 hne]
  exact hlive.2

/-- The chains of other entries stay as they are. -/
theorem chain_of_ne (hv : Volume d g chain) {j : ℕ} (hne : j ≠ k) (hlive : Live d g j) :
    Chain (d'.fatVal g) Ends (entryCluster (d'.entry g j)) (chain j) := by
  rw [h.entry_of_ne hlive.1 hne]
  exact (hv.chains j hlive).congr fun c hc => h.allocated.fat_of_mem hv h.fat hlive hc

theorem two_le_fat (hc : c ∈ clusters) : 2 ≤ d'.fatVal g c := by
  rw [h.fat c (h.allocated.volume c hc)]
  rcases link_mem hc with hmem | hend
  · exact (h.allocated.volume _ hmem).1
  · rw [hend]
    decide

/-- A write keeps the volume well formed. -/
theorem volume (hv : Volume d g chain) (hlen : name83.length = 11) :
    Volume d' g (Function.update chain k clusters) := by
  have hother : ∀ j, j ≠ k → Function.update chain k clusters j = chain j :=
    fun j hne => Function.update_of_ne hne _ _
  have hself : Function.update chain k clusters k = clusters := Function.update_self _ _ _
  refine ⟨h.bpb.trans hv.bpb, hv.geometry, fun j hlive => ?_, fun j hlive c hc => ?_,
    fun j j' hlive hlive' hne => ?_⟩
  · by_cases hj : j = k
    · rw [hj, hself]
      exact h.chain_self hv.geometry hlen
    · rw [hother j hj]
      exact h.chain_of_ne hv hj (h.live_of_ne hj hlive)
  · by_cases hj : j = k
    · rw [hj, hself] at hc
      exact ⟨h.allocated.volume c hc, h.two_le_fat hc⟩
    · rw [hother j hj] at hc
      have hlive₀ := h.live_of_ne hj hlive
      rw [h.allocated.fat_of_mem hv h.fat hlive₀ hc]
      exact hv.members j hlive₀ c hc
  · by_cases hj : j = k
    · have hj' : j' ≠ k := fun heq => hne (hj.trans heq.symm)
      rw [hj, hself, hother j' hj']
      exact fun c hc hc' => h.allocated.notMem hv (h.live_of_ne hj' hlive') hc' hc
    · rw [hother j hj]
      by_cases hj' : j' = k
      · rw [hj', hself]
        exact fun c hc hc' => h.allocated.notMem hv (h.live_of_ne hj hlive) hc hc'
      · rw [hother j' hj']
        exact hv.disjoint j j' (h.live_of_ne hj hlive) (h.live_of_ne hj' hlive') hne

end Written

/-- A write that finds no directory entry keeps the volume well formed. -/
theorem Stored.volume (h : Stored d d' g clusters data) (hv : Volume d g chain)
    (halloc : Allocated d g len clusters) : Volume d' g chain := by
  have hlive : ∀ {j}, Live d' g j → Live d g j := by
    intro j hj
    rwa [Live, h.entry j hj.1] at hj
  have hfat : ∀ {j c}, Live d' g j → c ∈ chain j → d'.fatVal g c = d.fatVal g c :=
    fun hj hc => halloc.fat_of_mem hv h.fat (hlive hj) hc
  refine ⟨h.bpb.trans hv.bpb, hv.geometry, fun j hj => ?_, fun j hj c hc => ?_,
    fun j j' hj hj' => hv.disjoint j j' (hlive hj) (hlive hj')⟩
  · rw [h.entry j hj.1]
    exact (hv.chains j (hlive hj)).congr fun c hc => hfat hj hc
  · rw [hfat hj hc]
    exact hv.members j (hlive hj) c hc

/-! ## Reading after a write -/

namespace Written

variable (h : Written d d' g name83 data clusters k)
include h

/-- The new entry is the first of its name. -/
theorem findEntry_self (hlen : name83.length = 11) (hname : LiveName name83) :
    d'.findEntry g name83 = some k := by
  obtain ⟨hk, _, hfirst⟩ := findSlot_eq_some_iff.mp h.slot
  have hbefore : ∀ i < k, ¬ Takes d' g name83 i := by
    intro i hi htake
    refine hfirst i hi ?_
    rwa [Takes, h.entry_of_ne (by omega) (by omega)] at htake
  refine findEntry_eq_some_iff.mpr ⟨⟨hk, fun i hi _ => ?_, ?_, ?_⟩, fun i hi hfile => ?_⟩
  · rcases Nat.lt_or_eq_of_le hi with hlt | rfl
    · exact fun hmark => hbefore i hlt (.inr (.inl hmark))
    · rw [h.entry_self, entryMark_newEntry hlen]
      exact hname.1
  · rw [h.entry_self, entryListed_newEntry hlen, bne_iff_ne]
    exact hname.2
  · rw [h.entry_self, entryName_newEntry hlen]
  · exact hbefore i hi (.inl hfile.name)

/-- A write fills the first of the unused entries, or none. -/
theorem packed (hpacked : Packed d g) (hlen : name83.length = 11) (hname : LiveName name83) :
    Packed d' g := by
  obtain ⟨hk, htakes, hfirst⟩ := findSlot_eq_some_iff.mp h.slot
  intro i j hij hj hmark
  have hik : i ≠ k := by
    rintro rfl
    rw [h.entry_self, entryMark_newEntry hlen] at hmark
    exact hname.1 hmark
  rw [h.entry_of_ne (by omega) hik] at hmark
  have hjk : j ≠ k := by
    rintro rfl
    exact hfirst i hij (.inr (.inl hmark))
  rw [h.entry_of_ne hj hjk]
  exact hpacked i j hij hj hmark

/-- What is found under other names stays as it is. -/
theorem findEntry_other (hpacked : Packed d g) (hlen : name83.length = 11)
    (hname : LiveName name83) {other : List UInt8} (hne : other ≠ name83) :
    d'.findEntry g other = d.findEntry g other := by
  obtain ⟨hk, htakes, hfirst⟩ := findSlot_eq_some_iff.mp h.slot
  have hmarkSelf : entryMark (d'.entry g k) ≠ 0 := by
    rw [h.entry_self, entryMark_newEntry hlen]
    exact hname.1
  refine findEntry_congr fun i => ⟨fun hfile => ?_, fun hfile => ?_⟩
  · have hik : i ≠ k := by
      rintro rfl
      have hname := hfile.name
      rw [h.entry_self, entryName_newEntry hlen] at hname
      exact hne hname.symm
    have hentry := h.entry_of_ne hfile.slot hik
    refine ⟨hfile.slot, fun j hj hdiv => ?_, hentry ▸ hfile.listed, hentry ▸ hfile.name⟩
    have hslot := hfile.slot
    by_cases hjk : j = k
    · -- an unused entry has only unused ones behind it
      rw [hjk]
      intro hmark
      have hlast := hpacked k i (by omega) hslot hmark
      rw [← hentry] at hlast
      exact hfile.seen i le_rfl rfl hlast
    · rw [← h.entry_of_ne (by omega) hjk]
      exact hfile.seen j hj hdiv
  · have hik : i ≠ k := by
      rintro rfl
      rcases htakes with hname | hmark | hmark
      · exact hne (hfile.name.symm.trans hname)
      · exact hfile.seen i le_rfl rfl hmark
      · have hlisted := hfile.listed
        simp [entryListed, hmark] at hlisted
    have hentry := h.entry_of_ne hfile.slot hik
    refine ⟨hfile.slot, fun j hj hdiv => ?_, ?_, ?_⟩
    · have hslot := hfile.slot
      by_cases hjk : j = k
      · rwa [hjk]
      · rw [h.entry_of_ne (by omega) hjk]
        exact hfile.seen j hj hdiv
    · rw [hentry]
      exact hfile.listed
    · rw [hentry]
      exact hfile.name

end Written

theorem readFile_self (hv : Volume d g chain)
    (h : Written d d' g (to83Name name) data clusters k) (hname : LiveName (to83Name name))
    {bufSize : ℕ} (hbuf : data.length ≤ bufSize) :
    d'.readFile name bufSize = .ok data := by
  have hlen := length_to83Name name
  rw [readFile_eq (h.bpb.trans hv.bpb) hv.geometry (h.findEntry_self hlen hname)
    (h.chain_self hv.geometry hlen), h.entry_self, entrySize_newEntry hlen h.size,
    Nat.min_eq_left hbuf, h.stored]

/-- A file is read the same on two disks that have its entry and its chain in common. -/
theorem readFile_congr (hv : Volume d g chain) (hb : d'.bpb = .ok g)
    (hfind : d'.findEntry g (to83Name name) = d.findEntry g (to83Name name))
    (hsame : ∀ k, Live d g k → d.findEntry g (to83Name name) = some k →
      d'.entry g k = d.entry g k ∧
        Chain (d'.fatVal g) Ends (entryCluster (d'.entry g k)) (chain k) ∧
        ∀ c ∈ chain k, d'.clusterBytes g c = d.clusterBytes g c) (bufSize : ℕ) :
    d'.readFile name bufSize = d.readFile name bufSize := by
  cases hk : d.findEntry g (to83Name name) with
  | none =>
    rw [hk] at hfind
    simp only [readFile, hb, hv.bpb, bind, Except.bind, hk, hfind]
  | some k =>
    rw [hk] at hfind
    have hlive := (findEntry_eq_some_iff.mp hk).1.live
    obtain ⟨hentry, hchain, hbytes⟩ := hsame k hlive hk
    rw [readFile_eq hb hv.geometry hfind hchain,
      readFile_eq hv.bpb hv.geometry hk (hv.chains k hlive), hentry, List.flatMap_congr hbytes]

theorem readFile_other (hv : Volume d g chain) (hpacked : Packed d g)
    (h : Written d d' g name83 data clusters k) (hlen : name83.length = 11)
    (hname : LiveName name83) {other : Str} (hne : to83Name other ≠ name83) (bufSize : ℕ) :
    d'.readFile other bufSize = d.readFile other bufSize := by
  have hfind := h.findEntry_other hpacked hlen hname hne
  refine readFile_congr hv (h.bpb.trans hv.bpb) hfind (fun j hlive hj => ?_) bufSize
  have hjk : j ≠ k := by
    rintro rfl
    have hname := (findEntry_eq_some_iff.mp (hfind.trans hj)).1.name
    rw [h.entry_self, entryName_newEntry hlen] at hname
    exact hne hname.symm
  refine ⟨h.entry_of_ne hlive.1 hjk, h.chain_of_ne hv hjk hlive, fun c hc => ?_⟩
  exact h.kept c (hv.members j hlive c hc).1.1 (h.allocated.notMem hv hlive hc)

/-- After a write the file holds the data, and the other files hold what they held. -/
theorem readFile_writeFile (hv : Volume d g chain) (hpacked : Packed d g) (hname : Printable name)
    (hw : d.writeFile checks name data = (.ok len, d')) :
    (∀ bufSize, data.length ≤ bufSize → d'.readFile name bufSize = .ok data) ∧
      ∀ other, to83Name other ≠ to83Name name → ∀ bufSize,
        d'.readFile other bufSize = d.readFile other bufSize := by
  obtain ⟨clusters, k, h⟩ := written_of_ok hv.bpb hv.geometry hw
  exact ⟨fun bufSize hbuf => readFile_self hv h (liveName_of_printable hname) hbuf,
    fun other hne bufSize => readFile_other hv hpacked h (length_to83Name name)
      (liveName_of_printable hname) hne bufSize⟩

/-! ## A blank volume -/

/-- The boot sector of a volume of five clusters of one sector. -/
def blankBoot : Sector := fun i =>
  ([(510, 0x55), (511, 0xAA), (12, 2), (13, 1), (14, 1), (16, 2), (17, 16), (19, 9),
    (22, 1)].lookup i).getD 0

/-- A volume without files. -/
def blankDisk : Disk := ⟨fun lba => if lba = 0 then blankBoot else fun _ => 0, []⟩

def blankBpb : Fat16Bpb := ⟨1, 1, 2, 16, 9, 1⟩

theorem bpb_blankDisk : blankDisk.bpb = .ok blankBpb := by decide

theorem entry_blankDisk (k : ℕ) : blankDisk.entry blankBpb k = List.replicate 32 0 := by
  have hne : rootSector blankBpb k ≠ 0 := by
    have hroot : blankBpb.rootDirStartLba = 3 := rfl
    simp only [rootSector, hroot]
    omega
  simp [Disk.entry, blankDisk, hne]

theorem not_live_blankDisk (k : ℕ) : ¬ Live blankDisk blankBpb k := by
  intro h
  have hlive := h.2
  rw [entry_blankDisk] at hlive
  exact absurd hlive (by decide)

theorem volume_blankDisk : Volume blankDisk blankBpb fun _ => [] where
  bpb := bpb_blankDisk
  geometry := ⟨by decide, by decide, by decide, by decide, by decide⟩
  chains k h := absurd h (not_live_blankDisk k)
  members k h := absurd h (not_live_blankDisk k)
  disjoint k k' h := absurd h (not_live_blankDisk k)

theorem packed_blankDisk : Packed blankDisk blankBpb := by
  intro k k' _ _ _
  rw [entry_blankDisk]
  rfl

theorem blankDisk_readFile_writeFile :
    ∃ d', blankDisk.writeFile true "A.TXT".toList [1, 2, 3] = (.ok 3, d') ∧
      d'.readFile "A.TXT".toList 10 = .ok [1, 2, 3] ∧
      d'.readFile "B.TXT".toList 10 = blankDisk.readFile "B.TXT".toList 10 := by
  have hw : blankDisk.writeFile true "A.TXT".toList [1, 2, 3] =
      (.ok 3, (blankDisk.writeFile true "A.TXT".toList [1, 2, 3]).2) :=
    Prod.ext (by decide +kernel) rfl
  have h := readFile_writeFile volume_blankDisk packed_blankDisk (by decide +kernel) hw
  exact ⟨_, hw, h.1 10 (by decide), h.2 _ (by decide +kernel) 10⟩

end Disk

namespace Disk

/-!
## Writes that fail

`export_disk_write_file` looks for clusters before it writes anything, but for a directory entry
only after it has linked them.  A write that is refused for its size or for want of clusters
leaves the FATs and the root directory as they were; one that finds no entry leaves its clusters
linked, and in no chain.
-/

variable {d d' : Disk} {g : Fat16Bpb} {chain : ℕ → List ℕ} {name83 : List UInt8}
  {name : Str} {data : List UInt8} {clusters : List ℕ}

/-- The FAT copies and the root directory are the same on two disks. -/
def SameTables (g : Fat16Bpb) (d d' : Disk) : Prop :=
  ∀ lba, g.reservedSectors ≤ lba → lba < g.dataStartLba → d'.sectors lba = d.sectors lba

/-- A file that finds its clusters, but no directory entry. -/
def NoEntry (d : Disk) (g : Fat16Bpb) (name83 : List UInt8) (len : ℕ) : Prop :=
  Fits d g len ∧ ∀ k < g.rootDirSectors * 16, ¬ Takes d g name83 k

instance (d : Disk) (g : Fat16Bpb) (name83 : List UInt8) (len : ℕ) :
    Decidable (NoEntry d g name83 len) := inferInstanceAs (Decidable (_ ∧ _))

theorem findSlot_eq_none_iff :
    d.findSlot g name83 = none ↔ ∀ k < g.rootDirSectors * 16, ¬ Takes d g name83 k := by
  rw [findSlot, List.find?_eq_none]
  simp only [List.mem_range, Bool.or_eq_true, beq_iff_eq, Takes, or_assoc]

theorem SameTables.fatVal (h : SameTables g d d') (hg : Geometry g) {c : ℕ}
    (hc : InVolume g c) : d'.fatVal g c = d.fatVal g c := by
  have hlt := fatSector_lt hg hc
  have hroot := rootDirStartLba_eq hg
  have hlow : g.reservedSectors ≤ fatSector g c := by
    rw [fatSector_eq]
    omega
  have hhigh : fatSector g c < g.dataStartLba := by
    rw [Fat16Bpb.dataStartLba]
    omega
  rw [Disk.fatVal, Disk.fatVal, h _ hlow hhigh]

/-- Clusters that were free are not once they are linked. -/
theorem Stored.not_sameTables (h : Stored d d' g clusters data) (hg : Geometry g)
    (halloc : Allocated d g data.length clusters) : ¬ SameTables g d d' := by
  intro hsame
  obtain ⟨c, hc⟩ := List.exists_mem_of_ne_nil clusters halloc.nonempty
  have hvol := halloc.volume c hc
  have hlinked : 2 ≤ link (d.fatVal g) 0xFFFF clusters c := by
    rcases link_mem hc with hmem | hend
    · exact (halloc.volume _ hmem).1
    · rw [hend]
      decide
  rw [← h.fat c hvol, hsame.fatVal hg hvol, halloc.free c hc] at hlinked
  exact absurd hlinked (by decide)

/-- A write that fails leaves the FATs and the root directory as they were, exactly unless it has
found its clusters and finds no directory entry. -/
theorem writeFile_error_iff (hv : Volume d g chain) (checks : Bool) (name : Str)
    (data : List UInt8) :
    (∀ msg, (d.writeFile checks name data).1 = .error msg →
        SameTables g d (d.writeFile checks name data).2) ↔
      ¬ NoEntry d g (to83Name name) data.length := by
  rw [NoEntry, ← findSlot_eq_none_iff]
  rcases writeFile_cases hv.bpb hv.geometry checks name data with
    ⟨hfits, msg, herr⟩ | ⟨clusters, d₁, hfits, halloc, -, hst, ⟨hnone, herr⟩ | ⟨k, hslot, hok⟩⟩
  · rw [herr]
    exact ⟨fun _ hfull => hfits hfull.1, fun _ _ _ _ _ _ => rfl⟩
  · rw [herr]
    constructor
    · intro hsame
      exact absurd (hsame _ rfl) (hst.not_sameTables hv.geometry halloc)
    · intro hfull
      exact absurd ⟨hfits, hnone⟩ hfull
  · rw [hok, hslot]
    constructor
    · rintro - ⟨-, hnone⟩
      cases hnone
    · intro _ msg herr
      cases herr

/-- Seven sectors of data do not fit into five clusters, and the blank volume stays as it is. -/
theorem sevenSectors_error :
    (blankDisk.writeFile true ['A'] (List.replicate 3584 1)).1 =
        .error "Not enough free space on Export Disk" ∧
      SameTables blankBpb blankDisk (blankDisk.writeFile true ['A'] (List.replicate 3584 1)).2 := by
  have herr : (blankDisk.writeFile true ['A'] (List.replicate 3584 1)).1 =
      .error "Not enough free space on Export Disk" := by decide +kernel
  have hroom : ¬ NoEntry blankDisk blankBpb (to83Name ['A'])
      (List.replicate 3584 (1 : UInt8)).length := by
    rw [List.length_replicate]
    exact fun h => absurd h.1 (by decide +kernel)
  exact ⟨herr, (writeFile_error_iff volume_blankDisk true ['A'] (List.replicate 3584 1)).mpr
    hroom _ herr⟩

/-! ## A full root directory -/

/-- A sector of sixteen empty files, `A` to `P`. -/
def fullRoot : Sector := fun i =>
  if i % 32 = 0 then UInt8.ofNat (0x41 + i / 32) else if i % 32 < 12 then 0x20 else 0

/-- A volume whose root directory is full. -/
def fullDisk : Disk :=
  ⟨fun lba => if lba = 0 then blankBoot else if lba = 3 then fullRoot else fun _ => 0, []⟩

theorem entryCluster_fullDisk :
    ∀ k < blankBpb.rootDirSectors * 16, entryCluster (fullDisk.entry blankBpb k) = 0 := by
  decide

theorem volume_fullDisk : Volume fullDisk blankBpb fun _ => [] where
  bpb := by decide
  geometry := volume_blankDisk.geometry
  chains k h := by
    rw [entryCluster_fullDisk k h.1]
    exact .nil (by decide)
  members k _ c hc := absurd hc List.not_mem_nil
  disjoint k k' _ _ _ := fun _ hc => absurd hc List.not_mem_nil

/-- One byte under a new name: the write fails, and a cluster that was free is linked. -/
theorem fullRoot_linked : Volume fullDisk blankBpb (fun _ => []) ∧
    (fullDisk.writeFile true ['Z'] [1]).1 = .error "Root directory is full on Export Disk" ∧
    fullDisk.fatVal blankBpb 2 = 0 ∧
    (fullDisk.writeFile true ['Z'] [1]).2.fatVal blankBpb 2 = 0xFFFF ∧
    ¬ SameTables blankBpb fullDisk (fullDisk.writeFile true ['Z'] [1]).2 := by
  have hbefore : fullDisk.fatVal blankBpb 2 = 0 := by decide +kernel
  have hafter : (fullDisk.writeFile true ['Z'] [1]).2.fatVal blankBpb 2 = 0xFFFF := by
    decide +kernel
  refine ⟨volume_fullDisk, by decide +kernel, hbefore, hafter, fun hsame => ?_⟩
  have hvol : InVolume blankBpb 2 := ⟨by decide, by decide⟩
  have hkept := hsame.fatVal volume_fullDisk.geometry hvol
  rw [hbefore, hafter] at hkept
  exact absurd hkept (by decide)

end Disk

end LatencyOS
