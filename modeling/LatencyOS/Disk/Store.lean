import LatencyOS.Disk.Accounting
import LatencyOS.Disk.Image

/-!
# The disk as a store of files

A disk shows a map from 8.3 names to contents.  Along a run of writes and deletes that leave names
unique, calls that succeed change the map at one name and calls that fail leave it; the build tool
reads the map out of the image, and the kernel out of the disk.
-/

namespace LatencyOS

/-- Contents under 8.3 names. -/
abbrev Store : Type := List UInt8 → Option (List UInt8)

namespace Disk

variable {d d' : Disk} {g : Fat16Bpb} {chain : ℕ → List ℕ} {name83 : List UInt8} {name : Str}
  {data : List UInt8} {clusters : List ℕ} {checks : Bool} {k size len fuel : ℕ}
  {ops : List DiskOp}

/-! ## What one change does to the contents -/

/-- A file has the same contents on two disks that have its entry and its chain in common. -/
theorem contents_congr (hv : Volume d g chain)
    (hfind : d'.findEntry g name83 = d.findEntry g name83)
    (hsame : ∀ k, Live d g k → d.findEntry g name83 = some k →
      d'.entry g k = d.entry g k ∧
        Chain (d'.fatVal g) Ends (entryCluster (d'.entry g k)) (chain k) ∧
        ∀ c ∈ chain k, d'.clusterBytes g c = d.clusterBytes g c) :
    d'.contents g name83 = d.contents g name83 := by
  cases hk : d.findEntry g name83 with
  | none =>
    rw [hk] at hfind
    rw [contents_eq_none hk, contents_eq_none hfind]
  | some k =>
    rw [hk] at hfind
    have hlive := (findEntry_eq_some_iff.mp hk).1.live
    obtain ⟨hentry, hchain, hbytes⟩ := hsame k hlive hk
    rw [contents_eq hv.geometry hfind hchain, contents_eq hv.geometry hk (hv.chains k hlive),
      hentry, List.flatMap_congr hbytes]

/-- A write makes the contents under its name the data. -/
theorem Written.contents_self (h : Written d d' g name83 data clusters k) (hg : Geometry g)
    (hlen : name83.length = 11) (hname : LiveName name83) :
    d'.contents g name83 = some data := by
  rw [contents_eq hg (h.findEntry_self hlen hname) (h.chain_self hg hlen), h.entry_self,
    entrySize_newEntry hlen h.size, h.stored]

theorem Written.contents_other (h : Written d d' g name83 data clusters k)
    (hv : Volume d g chain) (hpacked : Packed d g) (hlen : name83.length = 11)
    (hname : LiveName name83) {other : List UInt8} (hne : other ≠ name83) :
    d'.contents g other = d.contents g other := by
  have hfind := h.findEntry_other hpacked hlen hname hne
  refine contents_congr hv hfind fun j hlive hj => ?_
  have hjk : j ≠ k := by
    rintro rfl
    have hself := (findEntry_eq_some_iff.mp (hfind.trans hj)).1.name
    rw [h.entry_self, entryName_newEntry hlen] at hself
    exact hne hself.symm
  refine ⟨h.entry_of_ne hlive.1 hjk, h.chain_of_ne hv hjk hlive, fun c hc => ?_⟩
  exact h.kept c (hv.members j hlive c hc).1.1 (h.allocated.notMem hv hlive hc)

/-- The contents after a write. -/
theorem Written.contents (h : Written d d' g name83 data clusters k) (hv : Volume d g chain)
    (hpacked : Packed d g) (hlen : name83.length = 11) (hname : LiveName name83) :
    d'.contents g = Function.update (d.contents g) name83 (some data) := by
  funext other
  by_cases hne : other = name83
  · rw [hne, Function.update_self, h.contents_self hv.geometry hlen hname]
  · rw [Function.update_of_ne hne, h.contents_other hv hpacked hlen hname hne]

/-- Data that is stored without an entry changes no contents. -/
theorem Stored.contents (h : Stored d d' g clusters data) (hv : Volume d g chain)
    (halloc : Allocated d g len clusters) : d'.contents g = d.contents g := by
  have hmark : ∀ i, i < g.rootDirSectors * 16 → d'.entry g i = d.entry g i := h.entry
  funext other
  refine contents_congr hv (findEntry_congr fun i => ⟨fun hi => ?_, fun hi => ?_⟩)
    fun j hlive _ => ⟨h.entry j hlive.1, ?_, fun c hc => ?_⟩
  · have hslot := hi.slot
    refine ⟨hslot, fun j hj hdiv => ?_, hmark i hslot ▸ hi.listed, hmark i hslot ▸ hi.name⟩
    rw [← hmark j (by omega)]
    exact hi.seen j hj hdiv
  · have hslot := hi.slot
    refine ⟨hslot, fun j hj hdiv => ?_, ?_, ?_⟩
    · rw [hmark j (by omega)]
      exact hi.seen j hj hdiv
    · rw [hmark i hslot]
      exact hi.listed
    · rw [hmark i hslot]
      exact hi.name
  · rw [h.entry j hlive.1]
    exact (hv.chains j hlive).congr fun c hc => halloc.fat_of_mem hv h.fat hlive hc
  · exact h.kept c (hv.members j hlive c hc).1.1 (halloc.notMem hv hlive hc)

/-- Deleting the file of a name removes its contents. -/
theorem Deleted.contents (h : Deleted d d' g k (chain k)) (hv : Volume d g chain)
    (hu : Unique d g) (hk : d.findEntry g name83 = some k) :
    d'.contents g = Function.update (d.contents g) name83 none := by
  have hfile := (findEntry_eq_some_iff.mp hk).1
  funext other
  by_cases hne : other = name83
  · rw [hne, Function.update_self, contents_eq_none (h.findEntry hu hk)]
  · rw [Function.update_of_ne hne]
    refine contents_congr hv (h.findEntry_other hk hne) fun j hlive hj => ?_
    have hjk : j ≠ k := by
      rintro rfl
      exact hne ((findEntry_eq_some_iff.mp hj).1.name.symm.trans hfile.name)
    have hlive' := h.live_of_ne hjk hlive
    refine ⟨h.entry_of_ne hjk, ?_, fun c _ => h.kept c⟩
    rw [h.entry_of_ne hjk]
    exact (hv.chains j hlive).congr fun c hc => h.fat_of_mem hv hfile.live hlive' hc

/-! ## Runs -/

/-- What a call that succeeds does to the store. -/
def DiskOp.apply : DiskOp → Store → Store
  | .write name data, s => Function.update s (to83Name name) (some data)
  | .delete name, s => Function.update s (to83Name name) none

/-- The store after a run: the calls that succeed on the disk change it. -/
def storeAfter (checks : Bool) (fuel : ℕ) : Disk → Store → List DiskOp → Store
  | _, s, [] => s
  | d, s, op :: ops =>
    match d.exec checks fuel op with
    | none => s
    | some (done, d') => storeAfter checks fuel d' (if done then op.apply s else s) ops

/-- A call that leaves names unique and its file to be found: a write that gets its clusters makes
a live entry, and takes the one that its name has if there is one. -/
def KeepsFiles (g : Fat16Bpb) (d : Disk) : DiskOp → Prop
  | .write name data =>
    Fits d g data.length → LiveName (to83Name name) ∧ Foremost d g (to83Name name)
  | .delete _ => True

instance decidableKeepsFiles (g : Fat16Bpb) (d : Disk) :
    (op : DiskOp) → Decidable (KeepsFiles g d op)
  | .write name data =>
    inferInstanceAs (Decidable (Fits d g data.length →
      LiveName (to83Name name) ∧ Foremost d g (to83Name name)))
  | .delete _ => isTrue trivial

theorem Stored.packed (h : Stored d d' g clusters data) (hpacked : Packed d g) :
    Packed d' g := by
  intro i j hij hj hmark
  rw [h.entry i (by omega)] at hmark
  rw [h.entry j hj]
  exact hpacked i j hij hj hmark

theorem Stored.unique (h : Stored d d' g clusters data) (hu : Unique d g) : Unique d' g := by
  intro i j hi hj hname
  rw [h.entry i hi.1, h.entry j hj.1] at hname
  rw [Live, h.entry i hi.1] at hi
  rw [Live, h.entry j hj.1] at hj
  exact hu i j hi hj hname

/-- One call changes the contents as it changes the store. -/
theorem contents_exec (checks : Bool) (h : Tidy d g) (hfuel : 65536 ≤ fuel) (op : DiskOp)
    (hkeeps : KeepsFiles g d op) :
    ∃ done d', d.exec checks fuel op = some (done, d') ∧ Tidy d' g ∧
      d'.contents g = if done then op.apply (d.contents g) else d.contents g := by
  obtain ⟨chain, hv⟩ := h.volume
  cases op with
  | write name data =>
    have hlen := length_to83Name name
    simp only [exec]
    rcases writeFile_cases hv.bpb hv.geometry checks name data with
      ⟨-, msg, herr⟩ | ⟨clusters, d₁, hfits, halloc, hcount, hst, ⟨-, herr⟩ | ⟨k, hslot, hok⟩⟩
    · rw [herr]
      exact ⟨_, _, if_neg (by simp), h, rfl⟩
    · rw [herr]
      exact ⟨_, _, if_neg (by simp), ⟨⟨chain, hst.volume hv halloc⟩, hst.packed h.packed,
        hst.unique h.unique⟩, hst.contents hv halloc⟩
    · have hw := hst.written hv.bpb hv.geometry halloc hcount hslot hlen
      obtain ⟨hname, hfore⟩ := hkeeps hfits
      rw [hok]
      exact ⟨_, _, if_neg (by simp), ⟨⟨_, hw.volume hv hlen⟩, hw.packed h.packed hlen hname,
        hw.unique h.unique hfits fun _ _ => hfore⟩, hw.contents hv h.packed hlen hname⟩
  | delete name =>
    obtain ⟨d', hexec, hcases⟩ := exec_delete hv checks hfuel name
    refine ⟨true, d', hexec, ?_⟩
    rcases hcases with ⟨hnone, rfl⟩ | ⟨k, hk, hdel⟩
    · refine ⟨h, ?_⟩
      rw [if_pos rfl, DiskOp.apply, ← contents_eq_none hnone, Function.update_eq_self]
    · have hfile := (findEntry_eq_some_iff.mp hk).1
      exact ⟨⟨⟨chain, hdel.volume hv hfile.live⟩,
        hdel.packed (hfile.seen k le_rfl rfl) h.packed, hdel.unique h.unique⟩,
        hdel.contents hv h.unique hk⟩

/-- Along a run the contents on the disk are those of the store. -/
theorem contents_run (h : Tidy d g) (hfuel : 65536 ≤ fuel)
    (hsteps : AlongRun (step checks fuel) (KeepsFiles g) d ops) :
    ∃ d', runAll (step checks fuel) d ops = some d' ∧ Tidy d' g ∧
      d'.contents g = storeAfter checks fuel d (d.contents g) ops := by
  induction ops generalizing d with
  | nil => exact ⟨d, rfl, h, rfl⟩
  | cons op ops ih =>
    obtain ⟨done, d₁, hexec, htidy, hcontents⟩ := contents_exec checks h hfuel op hsteps.1
    have hstep : step checks fuel d op = some d₁ := by
      rw [step, hexec, Option.map_some]
    obtain ⟨d', hrun, htidy', hrest⟩ := ih htidy (hsteps.2 d₁ hstep)
    refine ⟨d', by rw [runAll, hstep, Option.bind_some, hrun], htidy', ?_⟩
    rw [hrest, hcontents, storeAfter, hexec]

/-- A write under a name that no file has finds no entry in its way. -/
theorem foremost_of_contents (h : Tidy d g) (hnone : d.contents g name83 = none) :
    Foremost d g name83 := by
  intro k hk hlive hname j hj
  have hfile : IsFile d g name83 k := by
    rw [entryLive, Bool.and_eq_true, bne_iff_ne] at hlive
    refine ⟨hk, fun i hi _ hmark => ?_, hlive.2, hname⟩
    rcases Nat.lt_or_eq_of_le hi with hlt | rfl
    · exact hlive.1 (h.packed i k hlt hk hmark)
    · exact hlive.1 hmark
  rw [contents, Option.map_eq_none_iff, findEntry_eq_none_iff] at hnone
  exact absurd hfile (hnone k)

/-- After a run the build tool reads from the image, and the kernel from the disk, what the store
holds. -/
theorem image_run (h : Tidy d g) (hroot : WholeRoot g) (hholds : Holds g size)
    (hfuel : 65536 ≤ fuel) (hsteps : AlongRun (step checks fuel) (KeepsFiles g) d ops) :
    ∃ d', runAll (step checks fuel) d ops = some d' ∧
      (∀ filename, (d'.image size).readFile fuel filename =
        some (storeAfter checks fuel d (d.contents g) ops (imageName83 filename))) ∧
      ∀ name bufSize, d'.readFile name bufSize =
        (storeAfter checks fuel d (d.contents g) ops (to83Name name)).elim
          (.error "File not found on Export Disk") fun data => .ok (data.take bufSize) := by
  obtain ⟨d', hrun, htidy, hcontents⟩ := contents_run h hfuel hsteps
  obtain ⟨chain, hv⟩ := htidy.volume
  refine ⟨d', hrun, fun filename => ?_, fun name bufSize => ?_⟩
  · rw [readFile_image hv htidy.packed hroot hholds hfuel, hcontents]
  · rw [readFile_eq_contents hv, hcontents]

end Disk

end LatencyOS
