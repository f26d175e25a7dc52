import LatencyOS.Disk.Delete
import LatencyOS.Lib.Trace

/-!
# Runs of writes and deletes

A volume stays well formed under every run of writes and deletes.  Two things more are kept only
by some writes.  A write takes the first entry that is unused, deleted or has its name: when such
an entry lies before the live one of the name, the name is there twice afterwards.  And a write
that takes the live entry of its name leaves the clusters of the old contents linked.
-/

namespace LatencyOS

namespace Disk

/-- A call that changes the disk. -/
inductive DiskOp
  | write (name : Str) (data : List UInt8)
  | delete (name : Str)

/-- Whether a write has succeeded. -/
def WriteResult.isOk : WriteResult → Bool
  | .ok _ => true
  | .error _ => false
  | .panic => false

/-- A call: whether it succeeds, and the disk behind it. -/
def exec (checks : Bool) (fuel : ℕ) (d : Disk) : DiskOp → Option (Bool × Disk)
  | .write name data =>
    let r := d.writeFile checks name data
    if r.1 = .panic then none else some (r.1.isOk, r.2)
  | .delete name => (d.deleteFileN fuel name).map fun r => (r.1.isOk, r.2)

/-- The disk behind a call. -/
def step (checks : Bool) (fuel : ℕ) (d : Disk) (op : DiskOp) : Option Disk :=
  (d.exec checks fuel op).map (·.2)

/-- At most one live entry has a name. -/
def Unique (d : Disk) (g : Fat16Bpb) : Prop :=
  ∀ k k', Live d g k → Live d g k' → entryName (d.entry g k) = entryName (d.entry g k') → k = k'

/-- The used clusters are those of the chains. -/
def Accounted (d : Disk) (g : Fat16Bpb) (chain : ℕ → List ℕ) : Prop :=
  ∀ c, InVolume g c → (d.fatVal g c ≠ 0 ↔ ∃ k, Live d g k ∧ c ∈ chain k)

variable {d d' : Disk} {g : Fat16Bpb} {chain : ℕ → List ℕ} {name83 : List UInt8}
  {name : Str} {data : List UInt8} {clusters : List ℕ} {checks : Bool} {c k fuel : ℕ}
  {ops : List DiskOp}

/-! ## One call -/

/-- A write that fails keeps the directory and the chains; one that succeeds fills an entry. -/
theorem exec_write (hv : Volume d g chain) (checks : Bool) (fuel : ℕ) (name : Str)
    (data : List UInt8) :
    ∃ done d', d.exec checks fuel (.write name data) = some (done, d') ∧
      ((done = false ∧ Volume d' g chain ∧
          ∀ k < g.rootDirSectors * 16, d'.entry g k = d.entry g k) ∨
        (done = true ∧ Fits d g data.length ∧
          ∃ clusters k, Written d d' g (to83Name name) data clusters k)) := by
  simp only [exec]
  rcases writeFile_cases hv.bpb hv.geometry checks name data with
    ⟨-, msg, herr⟩ | ⟨clusters, d₁, hfits, halloc, hcount, hst, ⟨-, herr⟩ | ⟨k, hslot, hok⟩⟩
  · rw [herr]
    exact ⟨_, _, if_neg (by simp), .inl ⟨rfl, hv, fun _ _ => rfl⟩⟩
  · rw [herr]
    exact ⟨_, _, if_neg (by simp), .inl ⟨rfl, hst.volume hv halloc, hst.entry⟩⟩
  · rw [hok]
    exact ⟨_, _, if_neg (by simp), .inr ⟨rfl, hfits, clusters, k,
      hst.written hv.bpb hv.geometry halloc hcount hslot (length_to83Name name)⟩⟩

/-- A delete succeeds, and has deleted the file if there is one. -/
theorem exec_delete (hv : Volume d g chain) (checks : Bool) (hfuel : 65536 ≤ fuel) (name : Str) :
    ∃ d', d.exec checks fuel (.delete name) = some (true, d') ∧
      ((d.findEntry g (to83Name name) = none ∧ d' = d) ∨
        ∃ k, d.findEntry g (to83Name name) = some k ∧ Deleted d d' g k (chain k)) := by
  simp only [exec]
  rcases deleteFileN_cases hv hfuel name with ⟨hnone, heq⟩ | ⟨k, d', hk, heq, hdel⟩
  · exact ⟨d, by rw [heq]; rfl, .inl ⟨hnone, rfl⟩⟩
  · exact ⟨d', by rw [heq]; rfl, .inr ⟨k, hk, hdel⟩⟩

/-! ## Unique names -/

/-- No entry that a write may take for a name lies before a live entry of the name. -/
def Foremost (d : Disk) (g : Fat16Bpb) (name83 : List UInt8) : Prop :=
  ∀ k < g.rootDirSectors * 16, entryLive (d.entry g k) = true →
    entryName (d.entry g k) = name83 → ∀ j < k, ¬ Takes d g name83 j

/-- A call that leaves names unique: a write that goes through to a live entry takes the one
that its name has, if there is one. -/
def KeepsNames (g : Fat16Bpb) (d : Disk) : DiskOp → Prop
  | .write name data =>
    Fits d g data.length → LiveName (to83Name name) → Foremost d g (to83Name name)
  | .delete _ => True

instance (d : Disk) (g : Fat16Bpb) (name83 : List UInt8) : Decidable (Foremost d g name83) :=
  inferInstanceAs (Decidable (∀ k < g.rootDirSectors * 16, _))

instance decidableKeepsNames (g : Fat16Bpb) (d : Disk) :
    (op : DiskOp) → Decidable (KeepsNames g d op)
  | .write name data =>
    inferInstanceAs (Decidable (Fits d g data.length → LiveName (to83Name name) → _))
  | .delete _ => isTrue trivial

theorem Deleted.unique {l : List ℕ} (h : Deleted d d' g k l) (hu : Unique d g) :
    Unique d' g := by
  intro i j hi hj hname
  rw [h.entry_of_ne (h.ne_of_live hi), h.entry_of_ne (h.ne_of_live hj)] at hname
  exact hu i j (h.live_of_live hi) (h.live_of_live hj) hname

theorem Written.unique (h : Written d d' g (to83Name name) data clusters k) (hu : Unique d g)
    (hfits : Fits d g data.length) (hkeeps : KeepsNames g d (.write name data)) :
    Unique d' g := by
  have hlen := length_to83Name name
  obtain ⟨_, htakes, hfirst⟩ := findSlot_eq_some_iff.mp h.slot
  -- another live entry of the name would lie behind the one that was taken
  have hself : ∀ j, Live d' g k → Live d' g j →
      entryName (d'.entry g j) = entryName (d'.entry g k) → j = k := by
    intro j hk hj hname
    by_contra hne
    have hmark : LiveName (to83Name name) := by
      have hused := hk.2
      rwa [h.entry_self, entryLive_newEntry hlen] at hused
    have hlive := h.live_of_ne hne hj
    rw [h.entry_self, entryName_newEntry hlen, h.entry_of_ne hj.1 hne] at hname
    have hbefore := hkeeps hfits hmark j hlive.1 hlive.2 hname
    rcases Nat.lt_or_gt_of_ne hne with hlt | hgt
    · exact hfirst j hlt (.inl hname)
    · exact hbefore k hgt htakes
  intro i j hi hj hname
  by_cases hik : i = k
  · rw [hik] at hi hname ⊢
    exact (hself j hi hj hname.symm).symm
  · by_cases hjk : j = k
    · rw [hjk] at hj hname ⊢
      exact hself i hj hi hname
    · rw [h.entry_of_ne hi.1 hik, h.entry_of_ne hj.1 hjk] at hname
      exact hu i j (h.live_of_ne hik hi) (h.live_of_ne hjk hj) hname

theorem unique_step (hv : Volume d g chain) (hu : Unique d g) (hfuel : 65536 ≤ fuel)
    (op : DiskOp) (hkeeps : KeepsNames g d op) :
    ∃ d', d.step checks fuel op = some d' ∧ (∃ chain', Volume d' g chain') ∧ Unique d' g := by
  cases op with
  | write name data =>
    obtain ⟨done, d', hexec, hcases⟩ := exec_write hv checks fuel name data
    refine ⟨d', by rw [step, hexec]; rfl, ?_⟩
    rcases hcases with ⟨-, hv', hentry⟩ | ⟨-, hfits, clusters, k, hw⟩
    · refine ⟨⟨chain, hv'⟩, fun i j hi hj hname => ?_⟩
      rw [hentry i hi.1, hentry j hj.1] at hname
      rw [Live, hentry i hi.1] at hi
      rw [Live, hentry j hj.1] at hj
      exact hu i j hi hj hname
    · exact ⟨⟨_, hw.volume hv (length_to83Name name)⟩, hw.unique hu hfits hkeeps⟩
  | delete name =>
    obtain ⟨d', hexec, hcases⟩ := exec_delete hv checks hfuel name
    refine ⟨d', by rw [step, hexec]; rfl, ?_⟩
    rcases hcases with ⟨-, rfl⟩ | ⟨k, hk, hdel⟩
    · exact ⟨⟨chain, hv⟩, hu⟩
    · exact ⟨⟨chain, hdel.volume hv (findEntry_eq_some_iff.mp hk).1.live⟩, hdel.unique hu⟩

/-- With unique names nothing is found under a name that was deleted. -/
theorem Deleted.findEntry {l : List ℕ} (h : Deleted d d' g k l) (hu : Unique d g)
    (hk : d.findEntry g name83 = some k) : d'.findEntry g name83 = none := by
  rw [findEntry_eq_none_iff]
  intro i hfile
  have hne := h.ne_of_live hfile.live
  have hname := hfile.name
  rw [h.entry_of_ne hne] at hname
  have hfound := (findEntry_eq_some_iff.mp hk).1
  exact hne (hu i k (h.live_of_live hfile.live) hfound.live (hname.trans hfound.name.symm))

theorem readFile_of_findEntry (hb : d.bpb = .ok g) (hnone : d.findEntry g (to83Name name) = none)
    (bufSize : ℕ) : d.readFile name bufSize = .error "File not found on Export Disk" := by
  simp only [readFile, hb, bind, Except.bind, hnone]

/-- Names are unique, and a file that is deleted is not found. -/
def DeleteFinal (fuel : ℕ) (d : Disk) (g : Fat16Bpb) : Prop :=
  Unique d g ∧ ∀ name, ∃ d', d.deleteFileN fuel name = some (.ok (), d') ∧
    ∀ bufSize, d'.readFile name bufSize = .error "File not found on Export Disk"

theorem deleteFinal_of_unique (hv : Volume d g chain) (hu : Unique d g) (hfuel : 65536 ≤ fuel) :
    DeleteFinal fuel d g := by
  refine ⟨hu, fun name => ?_⟩
  rcases deleteFileN_cases hv hfuel name with ⟨hnone, heq⟩ | ⟨k, d', hk, heq, hdel⟩
  · exact ⟨d, heq, readFile_of_findEntry hv.bpb hnone⟩
  · exact ⟨d', heq, readFile_of_findEntry (hdel.bpb.trans hv.bpb) (hdel.findEntry hu hk)⟩

/-- In every run whose writes leave names unique, deleting is final. -/
theorem deleteFinal_run (hv : Volume d g chain) (hu : Unique d g) (hfuel : 65536 ≤ fuel)
    (hsteps : AlongRun (step checks fuel) (KeepsNames g) d ops) :
    ∃ d', runAll (step checks fuel) d ops = some d' ∧ DeleteFinal fuel d' g := by
  have hstep : ∀ d op, (∃ chain, Volume d g chain) ∧ Unique d g → KeepsNames g d op →
      ∃ d', d.step checks fuel op = some d' ∧ (∃ chain, Volume d' g chain) ∧ Unique d' g := by
    rintro d op ⟨⟨chain, hv⟩, hu⟩ hkeeps
    exact unique_step hv hu hfuel op hkeeps
  obtain ⟨d', hrun, ⟨chain', hv'⟩, hu'⟩ := runAll_invariant hstep ⟨⟨chain, hv⟩, hu⟩ hsteps
  exact ⟨d', hrun, deleteFinal_of_unique hv' hu' hfuel⟩

/-- Two files, one of them written twice and one deleted. -/
def smallOps : List DiskOp :=
  [.write "A".toList [1], .write "B".toList [2], .write "A".toList [3], .delete "B".toList]

theorem unique_blankDisk : Unique blankDisk blankBpb :=
  fun k _ h => absurd h (not_live_blankDisk k)

theorem smallOps_deleteFinal :
    AlongRun (step true 65536) (KeepsNames blankBpb) blankDisk smallOps ∧
      ∃ d', runAll (step true 65536) blankDisk smallOps = some d' ∧
        DeleteFinal 65536 d' blankBpb := by
  have hsteps : AlongRun (step true 65536) (KeepsNames blankBpb) blankDisk smallOps := by
    decide +kernel
  exact ⟨hsteps, deleteFinal_run volume_blankDisk unique_blankDisk le_rfl hsteps⟩

/-- A file that is written again after one before it was deleted. -/
def reusedSlot : List DiskOp :=
  [.write "A".toList [1], .write "B".toList [2], .delete "A".toList, .write "B".toList [3]]

theorem reusedSlot_breaks :
    Volume blankDisk blankBpb (fun _ => []) ∧ Unique blankDisk blankBpb ∧
      ∃ d', runAll (step true 65536) blankDisk reusedSlot = some d' ∧ ¬ Unique d' blankBpb ∧
        ∃ d'', d'.deleteFileN 65536 "B".toList = some (.ok (), d'') ∧
          d''.readFile "B".toList 10 = .ok [2] := by
  obtain ⟨d', hd'⟩ : ∃ d', runAll (step true 65536) blankDisk reusedSlot = some d' :=
    Option.isSome_iff_exists.mp (by decide +kernel)
  have hzero : (runAll (step true 65536) blankDisk reusedSlot).map
      (fun d => (entryLive (d.entry blankBpb 0), entryName (d.entry blankBpb 0))) =
        some (true, to83Name "B".toList) := by decide +kernel
  have hone : (runAll (step true 65536) blankDisk reusedSlot).map
      (fun d => (entryLive (d.entry blankBpb 1), entryName (d.entry blankBpb 1))) =
        some (true, to83Name "B".toList) := by decide +kernel
  have hread : (runAll (step true 65536) blankDisk reusedSlot).bind (fun d =>
      (d.deleteFileN 65536 "B".toList).map fun r => (r.1, r.2.readFile "B".toList 10)) =
        some (.ok (), .ok [2]) := by decide +kernel
  rw [hd', Option.map_some, Option.some_inj, Prod.mk.injEq] at hzero hone
  rw [hd', Option.bind_some, Option.map_eq_some_iff] at hread
  obtain ⟨r, hdel, hr⟩ := hread
  rw [Prod.mk.injEq] at hr
  refine ⟨volume_blankDisk, unique_blankDisk, d', hd', fun hu => ?_, r.2, ?_, hr.2⟩
  · have heq := hu 0 1 ⟨by decide, hzero.1⟩ ⟨by decide, hone.1⟩ (hzero.2.trans hone.2.symm)
    exact absurd heq (by decide)
  · rw [hdel, ← hr.1]

/-! ## Files on a volume with unique names -/

/-- A well-formed volume with unique names and its unused entries at the end. -/
structure Tidy (d : Disk) (g : Fat16Bpb) : Prop where
  volume : ∃ chain, Volume d g chain
  packed : Packed d g
  unique : Unique d g

/-- A call that succeeds. -/
def Succeeds (checks : Bool) (fuel : ℕ) (d : Disk) (op : DiskOp) : Prop :=
  (d.exec checks fuel op).map (·.1) = some true

/-- A write that succeeds makes one file hold the data and leaves the others. -/
theorem step_write (h : Tidy d g) (hname : LiveName (to83Name name))
    (hfore : Foremost d g (to83Name name)) (hdone : Succeeds checks fuel d (.write name data)) :
    ∃ d', d.step checks fuel (.write name data) = some d' ∧ Tidy d' g ∧
      (∀ bufSize, data.length ≤ bufSize → d'.readFile name bufSize = .ok data) ∧
      ∀ other, to83Name other ≠ to83Name name → ∀ bufSize,
        d'.readFile other bufSize = d.readFile other bufSize := by
  obtain ⟨chain, hv⟩ := h.volume
  have hlen := length_to83Name name
  obtain ⟨done, d', hexec, hcases⟩ := exec_write hv checks fuel name data
  rcases hcases with ⟨hfail, -⟩ | ⟨-, hfits, clusters, k, hw⟩
  · rw [Succeeds, hexec, hfail] at hdone
    cases hdone
  · refine ⟨d', by rw [step, hexec]; rfl, ⟨⟨_, hw.volume hv hlen⟩, hw.packed h.packed hlen hname,
      hw.unique h.unique hfits fun _ _ => hfore⟩, fun _ hbuf => readFile_self hv hw hname hbuf,
      fun _ hne => readFile_other hv h.packed hw hlen hname hne⟩

/-- A delete removes the file of a name and leaves the others. -/
theorem step_delete (h : Tidy d g) (checks : Bool) (hfuel : 65536 ≤ fuel) (name : Str) :
    ∃ d', d.step checks fuel (.delete name) = some d' ∧ Tidy d' g ∧
      (∀ other, to83Name other = to83Name name → ∀ bufSize,
        d'.readFile other bufSize = .error "File not found on Export Disk") ∧
      ∀ other, to83Name other ≠ to83Name name → ∀ bufSize,
        d'.readFile other bufSize = d.readFile other bufSize := by
  obtain ⟨chain, hv⟩ := h.volume
  obtain ⟨d', hexec, hcases⟩ := exec_delete hv checks hfuel name
  refine ⟨d', by rw [step, hexec]; rfl, ?_⟩
  rcases hcases with ⟨hnone, rfl⟩ | ⟨k, hk, hdel⟩
  · refine ⟨h, fun other heq => ?_, fun _ _ _ => rfl⟩
    rw [← heq] at hnone
    exact readFile_of_findEntry hv.bpb hnone
  · have hfile := (findEntry_eq_some_iff.mp hk).1
    refine ⟨⟨⟨chain, hdel.volume hv hfile.live⟩,
      hdel.packed (hfile.seen k le_rfl rfl) h.packed, hdel.unique h.unique⟩,
      fun other heq => ?_, fun other hne => hdel.readFile_other hv hk hne⟩
    have hnone := hdel.findEntry h.unique hk
    rw [← heq] at hnone
    exact readFile_of_findEntry (hdel.bpb.trans hv.bpb) hnone

/-! ## Used clusters -/

/-- A live entry of a name that has clusters comes behind an entry that a write takes first. -/
def Spared (d : Disk) (g : Fat16Bpb) (name83 : List UInt8) : Prop :=
  ∀ k < g.rootDirSectors * 16, entryLive (d.entry g k) = true → entryName (d.entry g k) = name83 →
    ¬ Ends (entryCluster (d.entry g k)) → ∃ j < k, Takes d g name83 j

/-- A call that loses no cluster: a write makes a live entry and does not take one that has
clusters. -/
def KeepsClusters (g : Fat16Bpb) (d : Disk) : DiskOp → Prop
  | .write name _ => LiveName (to83Name name) ∧ Spared d g (to83Name name)
  | .delete _ => True

instance (checks : Bool) (fuel : ℕ) (d : Disk) (op : DiskOp) :
    Decidable (Succeeds checks fuel d op) :=
  inferInstanceAs (Decidable (_ = _))

instance (d : Disk) (g : Fat16Bpb) (name83 : List UInt8) : Decidable (Spared d g name83) :=
  inferInstanceAs (Decidable (∀ k < g.rootDirSectors * 16, _))

instance decidableKeepsClusters (g : Fat16Bpb) (d : Disk) :
    (op : DiskOp) → Decidable (KeepsClusters g d op)
  | .write name _ => inferInstanceAs (Decidable (LiveName (to83Name name) ∧ _))
  | .delete _ => isTrue trivial

theorem Deleted.accounted (h : Deleted d d' g k (chain k)) (hv : Volume d g chain)
    (hk : Live d g k) (ha : Accounted d g chain) : Accounted d' g chain := by
  intro c hc
  rw [h.fat c hc]
  by_cases hmem : c ∈ chain k
  · rw [if_pos hmem]
    constructor
    · intro hne
      exact absurd rfl hne
    · rintro ⟨j, hlive, hj⟩
      exact absurd hmem (hv.disjoint j k (h.live_of_live hlive) hk (h.ne_of_live hlive) hj)
  · rw [if_neg hmem, ha c hc]
    constructor
    · rintro ⟨j, hlive, hj⟩
      have hne : j ≠ k := fun heq => hmem (heq ▸ hj)
      exact ⟨j, h.live_of_ne hne hlive, hj⟩
    · rintro ⟨j, hlive, hj⟩
      exact ⟨j, h.live_of_live hlive, hj⟩

/-- The entry that is taken had no clusters. -/
theorem Written.chain_eq_nil (h : Written d d' g name83 data clusters k) (hv : Volume d g chain)
    (hspared : Spared d g name83) (hlive : Live d g k) : chain k = [] := by
  obtain ⟨hk, htakes, hfirst⟩ := findSlot_eq_some_iff.mp h.slot
  have hused := hlive.2
  rw [entryLive, entryListed, Bool.and_eq_true, Bool.and_eq_true, bne_iff_ne, bne_iff_ne] at hused
  have hname := htakes.resolve_right fun hmark => hmark.elim hused.1 hused.2.1
  have hends : Ends (entryCluster (d.entry g k)) := by
    by_contra hends
    obtain ⟨j, hj, hjtakes⟩ := hspared k hk hlive.2 hname hends
    exact hfirst j hj hjtakes
  exact (hv.chains k hlive).unique (.nil hends)

theorem Written.accounted (h : Written d d' g name83 data clusters k) (hv : Volume d g chain)
    (hlen : name83.length = 11) (hname : LiveName name83) (hspared : Spared d g name83)
    (ha : Accounted d g chain) : Accounted d' g (Function.update chain k clusters) := by
  have hself : Live d' g k := by
    refine ⟨h.slot_lt, ?_⟩
    rwa [h.entry_self, entryLive_newEntry hlen]
  intro c hc
  by_cases hmem : c ∈ clusters
  · have htwo := h.two_le_fat hmem
    refine ⟨fun _ => ⟨k, hself, ?_⟩, fun _ => by omega⟩
    rwa [Function.update_self]
  · rw [h.fat c hc, link_of_notMem hmem, ha c hc]
    constructor
    · rintro ⟨j, hlive, hj⟩
      have hne : j ≠ k := by
        rintro rfl
        rw [h.chain_eq_nil hv hspared hlive] at hj
        exact absurd hj List.not_mem_nil
      refine ⟨j, ⟨hlive.1, ?_⟩, ?_⟩
      · rw [h.entry_of_ne hlive.1 hne]
        exact hlive.2
      · rwa [Function.update_of_ne hne]
    · rintro ⟨j, hlive, hj⟩
      have hne : j ≠ k := by
        rintro rfl
        rw [Function.update_self] at hj
        exact hmem hj
      rw [Function.update_of_ne hne] at hj
      exact ⟨j, h.live_of_ne hne hlive, hj⟩

theorem accounted_step (hv : Volume d g chain) (ha : Accounted d g chain) (hfuel : 65536 ≤ fuel)
    (op : DiskOp) (hdone : Succeeds checks fuel d op) (hkeeps : KeepsClusters g d op) :
    ∃ d', d.step checks fuel op = some d' ∧ ∃ chain', Volume d' g chain' ∧
      Accounted d' g chain' := by
  cases op with
  | write name data =>
    have hlen := length_to83Name name
    obtain ⟨done, d', hexec, hcases⟩ := exec_write hv checks fuel name data
    refine ⟨d', by rw [step, hexec]; rfl, ?_⟩
    rcases hcases with ⟨hfail, -⟩ | ⟨-, -, clusters, k, hw⟩
    · rw [Succeeds, hexec, hfail] at hdone
      cases hdone
    · exact ⟨_, hw.volume hv hlen, hw.accounted hv hlen hkeeps.1 hkeeps.2 ha⟩
  | delete name =>
    obtain ⟨d', hexec, hcases⟩ := exec_delete hv checks hfuel name
    refine ⟨d', by rw [step, hexec]; rfl, ?_⟩
    rcases hcases with ⟨-, rfl⟩ | ⟨k, hk, hdel⟩
    · exact ⟨chain, hv, ha⟩
    · have hlive := (findEntry_eq_some_iff.mp hk).1.live
      exact ⟨chain, hdel.volume hv hlive, hdel.accounted hv hlive ha⟩

/-- In every run of successful calls that lose no cluster the used clusters are those of the
chains of the live entries, which are disjoint. -/
theorem accounted_run (hv : Volume d g chain) (ha : Accounted d g chain) (hfuel : 65536 ≤ fuel)
    (hsteps : AlongRun (step checks fuel)
      (fun d op => Succeeds checks fuel d op ∧ KeepsClusters g d op) d ops) :
    ∃ d', runAll (step checks fuel) d ops = some d' ∧
      ∃ chain', Volume d' g chain' ∧ Accounted d' g chain' := by
  refine runAll_invariant ?_ ⟨chain, hv, ha⟩ hsteps
  rintro d op ⟨chain, hv, ha⟩ hkeeps
  exact accounted_step hv ha hfuel op hkeeps.1 hkeeps.2

theorem accounted_blankDisk : Accounted blankDisk blankBpb fun _ => [] := by
  intro c hc
  have hcount : blankBpb.totalDataClusters = 5 := rfl
  have hlt := hc.2
  rw [hcount] at hlt
  have hfree : ∀ c < 7, blankDisk.fatVal blankBpb c = 0 := by decide
  simp [hfree c hlt]

/-- Two files, of which one is deleted and written again. -/
def deleteFirst : List DiskOp :=
  [.write "A".toList [1], .write "B".toList [2], .delete "A".toList, .write "A".toList [3]]

theorem deleteFirst_accounted :
    AlongRun (step true 65536)
        (fun d op => Succeeds true 65536 d op ∧ KeepsClusters blankBpb d op) blankDisk deleteFirst ∧
      ∃ d', runAll (step true 65536) blankDisk deleteFirst = some d' ∧
        ∃ chain, Volume d' blankBpb chain ∧ Accounted d' blankBpb chain := by
  have hsteps : AlongRun (step true 65536)
      (fun d op => Succeeds true 65536 d op ∧ KeepsClusters blankBpb d op) blankDisk
      deleteFirst := by decide +kernel
  exact ⟨hsteps, accounted_run volume_blankDisk accounted_blankDisk le_rfl hsteps⟩

/-- A file that is written twice. -/
def overwrite : List DiskOp := [.write "A".toList [1], .write "A".toList [2]]

theorem overwrite_breaks :
    Volume blankDisk blankBpb (fun _ => []) ∧ Accounted blankDisk blankBpb (fun _ => []) ∧
      AlongRun (step true 65536) (Succeeds true 65536) blankDisk overwrite ∧
      ∃ d', runAll (step true 65536) blankDisk overwrite = some d' ∧
        ¬ ∃ chain, Volume d' blankBpb chain ∧ Accounted d' blankBpb chain := by
  obtain ⟨d', hd'⟩ : ∃ d', runAll (step true 65536) blankDisk overwrite = some d' :=
    Option.isSome_iff_exists.mp (by decide +kernel)
  have hfat : (runAll (step true 65536) blankDisk overwrite).map
      (fun d => (d.fatVal blankBpb 2, d.fatVal blankBpb 3)) = some (0xFFFF, 0xFFFF) := by
    decide +kernel
  have hlive : (runAll (step true 65536) blankDisk overwrite).map
      (fun d => (List.range 16).filter fun k => entryLive (d.entry blankBpb k)) = some [0] := by
    decide +kernel
  have hfirst : (runAll (step true 65536) blankDisk overwrite).map
      (fun d => entryCluster (d.entry blankBpb 0)) = some 3 := by decide +kernel
  rw [hd', Option.map_some, Option.some_inj] at hfat hlive hfirst
  rw [Prod.mk.injEq] at hfat
  refine ⟨volume_blankDisk, accounted_blankDisk, by decide +kernel, d', hd', ?_⟩
  rintro ⟨chain, hv, ha⟩
  have hused : d'.fatVal blankBpb 2 ≠ 0 := by
    rw [hfat.1]
    decide
  obtain ⟨k, hk, hmem⟩ := (ha 2 ⟨by decide, by decide⟩).mp hused
  have hk0 : k = 0 := by
    have : k ∈ (List.range 16).filter fun k => entryLive (d'.entry blankBpb k) :=
      List.mem_filter.mpr ⟨List.mem_range.mpr hk.1, hk.2⟩
    rw [hlive] at this
    exact List.mem_singleton.mp this
  rw [hk0] at hk hmem
  have hchain := hv.chains 0 hk
  rw [hfirst] at hchain
  have hthree : Chain (d'.fatVal blankBpb) Ends 3 [3] :=
    .cons (by decide) (.nil (by rw [hfat.2]; decide))
  rw [hchain.unique hthree] at hmem
  exact absurd hmem (by decide)

end Disk

end LatencyOS
