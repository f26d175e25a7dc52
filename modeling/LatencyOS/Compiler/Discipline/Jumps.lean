import LatencyOS.Compiler.State
import LatencyOS.Vm.Word
import Mathlib.Data.List.GetD

/-!
# Jumps in a code buffer

The compiler emits a jump before its target is known and writes the target in later.  In
between the jump is pending.  `JumpsLand base level pend code` says that every jump behind the
position `base` has a target inside the code, except for those at the positions `pend`; that only
calls leave the code behind `base`, and only calls change the number of deadline blocks around.
Appending an instruction and patching a pending jump keep it.
-/

namespace LatencyOS

/-- The instructions whose immediate is a code position. -/
def jumpOps : List Opcode := [.jmp, .jz, .jnz, .call]

/-- The byte at a position encodes a jump. -/
def JumpAt (code : List UInt8) (pos : ℕ) : Prop :=
  ∃ op ∈ jumpOps, Opcode.ofCode? (byteAt code pos) = some op

/-- The immediate of the instruction at a position. -/
def immAt (code : List UInt8) (pos : ℕ) : ℕ := byteAt code (pos + 2) * 256 + byteAt code (pos + 3)

/-- A position where an instruction starts or the next one will. -/
def Lands (code : List UInt8) (target : ℕ) : Prop := 4 ∣ target ∧ target ≤ code.length

/-- The byte at a position encodes a call. -/
def CallAt (code : List UInt8) (pos : ℕ) : Prop :=
  Opcode.ofCode? (byteAt code pos) = some .call

/-- How an opcode changes the number of deadline blocks around. -/
def Opcode.nesting : Opcode → ℤ
  | .withinStart => 1
  | .withinEnd => -1
  | _ => 0

/-- How the instruction at a position changes it. -/
def nestingAt (code : List UInt8) (pos : ℕ) : ℤ :=
  ((Opcode.ofCode? (byteAt code pos)).map Opcode.nesting).getD 0

/-- The number of deadline blocks around a position, in the order of the code. -/
def levelAt (code : List UInt8) (pos : ℕ) : ℤ :=
  ((List.range (pos / 4)).map fun i => nestingAt code (4 * i)).sum

/-- A jump goes to a position behind `base` with as many deadline blocks around as behind the
jump itself. -/
def StaysIn (base : ℕ) (code : List UInt8) (pos : ℕ) : Prop :=
  base ≤ immAt code pos ∧ levelAt code (immAt code pos) = levelAt code (pos + 4)

/-- Every jump behind `base` lands in the code, except for the pending ones, and stays behind
`base` if it is no call. -/
structure JumpsLand (base : ℕ) (level : ℤ) (pend : List ℕ) (code : List UInt8) : Prop where
  aligned : 4 ∣ code.length
  fits : code.length ≤ maxBytecodeSize
  base_le : base ≤ code.length
  level_eq : levelAt code code.length = level
  floor : ∀ n, base ≤ n → 4 ∣ n → n ≤ code.length → level ≤ levelAt code n
  pending : ∀ pos ∈ pend, base ≤ pos ∧ 4 ∣ pos ∧ pos + 4 ≤ code.length ∧ JumpAt code pos ∧
    levelAt code (pos + 4) = level
  lands : ∀ pos, base ≤ pos → 4 ∣ pos → pos + 4 ≤ code.length → JumpAt code pos → pos ∉ pend →
    Lands code (immAt code pos) ∧ (¬ CallAt code pos → StaysIn base code pos)

theorem jumpsLand_nil : JumpsLand 0 0 [] [] where
  aligned := ⟨0, rfl⟩
  fits := Nat.zero_le _
  base_le := Nat.le_refl _
  level_eq := rfl
  floor := fun n _ _ hn => by rw [Nat.le_zero.mp hn]; exact Int.le_refl _
  pending := fun _ h => absurd h List.not_mem_nil
  lands := fun pos _ _ h => absurd h (by simp)

/-- A stretch of code that only calls and returns leave other than at its end. -/
structure ClosedRegion (code : List UInt8) (lo hi : ℕ) : Prop where
  lo_dvd : 4 ∣ lo
  hi_dvd : 4 ∣ hi
  short : hi < 65536
  jumps : ∀ pos, lo ≤ pos → 4 ∣ pos → pos + 4 ≤ hi → JumpAt code pos → ¬ CallAt code pos →
    4 ∣ immAt code pos ∧ lo ≤ immAt code pos ∧ immAt code pos ≤ hi

/-! ## Bytes of a longer or patched code -/

variable {code : List UInt8} {op : Opcode} {pos i rd rs1 rs2 imm : ℕ}

@[simp] theorem length_instBytes : (instBytes op rd rs1 rs2).length = 4 := rfl

theorem byteAt_append_left (rest : List UInt8) (h : i < code.length) :
    byteAt (code ++ rest) i = byteAt code i := by
  rw [byteAt, byteAt, List.getD_append _ _ _ _ h]

theorem byteAt_append_right (rest : List UInt8) :
    byteAt (code ++ rest) (code.length + i) = byteAt rest i := by
  rw [byteAt, byteAt, List.getD_append_right _ _ _ _ (Nat.le_add_right _ _),
    Nat.add_sub_cancel_left]

theorem ofCode?_byteAt_instBytes :
    Opcode.ofCode? (byteAt (code ++ instBytes op rd rs1 rs2) code.length) = some op := by
  have h : byteAt (code ++ instBytes op rd rs1 rs2) (code.length + 0) =
      byteAt (instBytes op rd rs1 rs2) 0 := byteAt_append_right _
  rw [Nat.add_zero] at h
  rw [h]
  have hop : byteAt (instBytes op rd rs1 rs2) 0 = op.code := by
    change (UInt8.ofNat op.code).toNat = op.code
    rw [UInt8.toNat_ofNat', Nat.mod_eq_of_lt op.code_lt]
  rw [hop, Opcode.ofCode?_code]

theorem immAt_instBytes (h₁ : rs1 < 256) (h₂ : rs2 < 256) :
    immAt (code ++ instBytes op rd rs1 rs2) code.length = rs1 * 256 + rs2 := by
  rw [immAt, byteAt_append_right, byteAt_append_right]
  change (UInt8.ofNat rs1).toNat * 256 + (UInt8.ofNat rs2).toNat = _
  rw [UInt8.toNat_ofNat', UInt8.toNat_ofNat', Nat.mod_eq_of_lt h₁, Nat.mod_eq_of_lt h₂]

theorem jumpAt_append (rest : List UInt8) (h : pos < code.length) :
    JumpAt (code ++ rest) pos ↔ JumpAt code pos := by
  rw [JumpAt, JumpAt, byteAt_append_left rest h]

theorem jumpAt_instBytes : JumpAt (code ++ instBytes op rd rs1 rs2) code.length ↔ op ∈ jumpOps := by
  rw [JumpAt, ofCode?_byteAt_instBytes]
  constructor
  · rintro ⟨_, hmem, hop⟩
    cases hop
    exact hmem
  · exact fun hmem => ⟨op, hmem, rfl⟩

theorem callAt_append (rest : List UInt8) (h : pos < code.length) :
    CallAt (code ++ rest) pos ↔ CallAt code pos := by
  rw [CallAt, CallAt, byteAt_append_left rest h]

theorem callAt_instBytes : CallAt (code ++ instBytes op rd rs1 rs2) code.length ↔ op = .call := by
  rw [CallAt, ofCode?_byteAt_instBytes, Option.some.injEq]

theorem immAt_append (rest : List UInt8) (h : pos + 4 ≤ code.length) :
    immAt (code ++ rest) pos = immAt code pos := by
  rw [immAt, immAt, byteAt_append_left _ (by omega), byteAt_append_left _ (by omega)]

theorem levelAt_congr {code code' : List UInt8} {n : ℕ}
    (h : ∀ i, 4 * i + 4 ≤ n → byteAt code' (4 * i) = byteAt code (4 * i)) :
    levelAt code' n = levelAt code n := by
  rw [levelAt, levelAt]
  refine congrArg List.sum (List.map_congr_left fun i hi => ?_)
  have hlt := List.mem_range.mp hi
  rw [nestingAt, nestingAt, h i (by omega)]

theorem levelAt_append (rest : List UInt8) {n : ℕ} (h : n ≤ code.length) :
    levelAt (code ++ rest) n = levelAt code n :=
  levelAt_congr fun i hi => byteAt_append_left rest (by omega)

theorem levelAt_add_four {n : ℕ} (hn : 4 ∣ n) :
    levelAt code (n + 4) = levelAt code n + nestingAt code n := by
  obtain ⟨i, rfl⟩ := hn
  rw [levelAt, levelAt, show (4 * i + 4) / 4 = i + 1 by omega,
    Nat.mul_div_cancel_left i (by decide), List.range_succ, List.map_append, List.sum_append,
    List.map_singleton, List.sum_singleton]

theorem levelAt_instBytes (ha : 4 ∣ code.length) :
    levelAt (code ++ instBytes op rd rs1 rs2) (code.length + 4) =
      levelAt code code.length + op.nesting := by
  rw [levelAt_add_four ha, levelAt_append _ (Nat.le_refl _), nestingAt, ofCode?_byteAt_instBytes]
  rfl

theorem StaysIn.append {base : ℕ} (h : StaysIn base code pos) (rest : List UInt8)
    (hpos : pos + 4 ≤ code.length) (ht : immAt code pos ≤ code.length) :
    StaysIn base (code ++ rest) pos := by
  rw [StaysIn, immAt_append rest hpos, levelAt_append rest ht, levelAt_append rest hpos]
  exact h

theorem Lands.append {target : ℕ} (h : Lands code target) (rest : List UInt8) :
    Lands (code ++ rest) target := by
  refine ⟨h.1, ?_⟩
  rw [List.length_append]
  exact Nat.le_add_right_of_le h.2

/-- The code with the immediate of an instruction replaced. -/
def patched (code : List UInt8) (pos imm : ℕ) : List UInt8 :=
  (code.set (pos + 2) (UInt8.ofNat (imm / 256))).set (pos + 3) (UInt8.ofNat imm)

@[simp] theorem length_patched : (patched code pos imm).length = code.length := by
  rw [patched, List.length_set, List.length_set]

theorem byteAt_patched_of_ne (h₂ : i ≠ pos + 2) (h₃ : i ≠ pos + 3) :
    byteAt (patched code pos imm) i = byteAt code i := by
  simp only [byteAt, patched, List.getD_eq_getElem?_getD, List.getElem?_set]
  rw [if_neg (Ne.symm h₃), if_neg (Ne.symm h₂)]

/-- A patch leaves every instruction alone but the one it is made at, whose opcode and first
operand it keeps. -/
theorem byteAt_patched (hpos : 4 ∣ pos) {j : ℕ} (hj : 4 ∣ j) {k : ℕ} (hk : k < 4)
    (h : j ≠ pos ∨ k < 2) : byteAt (patched code pos imm) (j + k) = byteAt code (j + k) := by
  obtain ⟨a, rfl⟩ := hpos
  obtain ⟨b, rfl⟩ := hj
  refine byteAt_patched_of_ne ?_ ?_ <;> omega

theorem jumpAt_patched (hpos : 4 ∣ pos) {j : ℕ} (hj : 4 ∣ j) :
    JumpAt (patched code pos imm) j ↔ JumpAt code j := by
  have h : byteAt (patched code pos imm) (j + 0) = byteAt code (j + 0) :=
    byteAt_patched hpos hj (by decide) (.inr (by decide))
  rw [Nat.add_zero] at h
  rw [JumpAt, JumpAt, h]

theorem callAt_patched (hpos : 4 ∣ pos) {j : ℕ} (hj : 4 ∣ j) :
    CallAt (patched code pos imm) j ↔ CallAt code j := by
  have h : byteAt (patched code pos imm) (j + 0) = byteAt code (j + 0) :=
    byteAt_patched hpos hj (by decide) (.inr (by decide))
  rw [Nat.add_zero] at h
  rw [CallAt, CallAt, h]

theorem levelAt_patched (hpos : 4 ∣ pos) (n : ℕ) :
    levelAt (patched code pos imm) n = levelAt code n :=
  levelAt_congr fun i _ =>
    byteAt_patched (k := 0) hpos (Nat.dvd_mul_right 4 i) (by decide) (.inr (by decide))

/-- What stands before the instruction is kept. -/
theorem prefix_patched {before : List UInt8} (h : before <+: code) (hpos : before.length ≤ pos) :
    before <+: patched code pos imm := by
  obtain ⟨rest, rfl⟩ := h
  rw [patched, List.set_append_right _ _ (by omega), List.set_append_right _ _ (by omega)]
  exact List.prefix_append _ _

theorem immAt_patched_self (h : pos + 4 ≤ code.length) (himm : imm < 65536) :
    immAt (patched code pos imm) pos = imm := by
  have h2 : pos + 2 < code.length := by omega
  have h3 : pos + 3 < code.length := by omega
  simp only [immAt, byteAt, patched, List.getD_eq_getElem?_getD, List.getElem?_set, List.length_set]
  simp only [h2, h3, if_true, if_false, Option.getD_some,
    show ¬ pos + 3 = pos + 2 by omega, UInt8.toNat_ofNat']
  omega

theorem immAt_patched_of_ne (hpos : 4 ∣ pos) {j : ℕ} (hj : 4 ∣ j) (hne : j ≠ pos) :
    immAt (patched code pos imm) j = immAt code j := by
  rw [immAt, immAt, byteAt_patched hpos hj (by decide) (.inl hne),
    byteAt_patched hpos hj (by decide) (.inl hne)]

/-! ## What keeps the jumps landing -/

namespace JumpsLand

variable {base : ℕ} {level : ℤ} {pend : List ℕ}

/-- A position is the end of the code or starts an instruction before it. -/
theorem eq_or_le (h : JumpsLand base level pend code) (hpos : 4 ∣ pos)
    (hle : pos + 4 ≤ code.length + 4) : pos = code.length ∨ pos + 4 ≤ code.length := by
  have ha := h.aligned
  omega

theorem append (h : JumpsLand base level pend code) (hfit : code.length + 4 ≤ maxBytecodeSize)
    (hnest : op.nesting = 0) {pend' : List ℕ} (hsub : pend ⊆ pend')
    (hpend : ∀ q ∈ pend', q ∈ pend ∨ q = code.length ∧ op ∈ jumpOps)
    (hnew : op ∈ jumpOps → code.length ∉ pend' →
      Lands (code ++ instBytes op rd rs1 rs2)
        (immAt (code ++ instBytes op rd rs1 rs2) code.length) ∧
      (op ≠ .call → StaysIn base (code ++ instBytes op rd rs1 rs2) code.length)) :
    JumpsLand base level pend' (code ++ instBytes op rd rs1 rs2) where
  aligned := by
    rw [List.length_append, length_instBytes]
    exact (Nat.dvd_add_right h.aligned).mpr (by decide)
  fits := by
    rw [List.length_append, length_instBytes]
    exact hfit
  base_le := by
    rw [List.length_append]
    exact Nat.le_add_right_of_le h.base_le
  level_eq := by
    rw [List.length_append, length_instBytes, levelAt_instBytes h.aligned, hnest, add_zero]
    exact h.level_eq
  floor := by
    intro n hbase hdvd hn
    rw [List.length_append, length_instBytes] at hn
    by_cases hle : n ≤ code.length
    · rw [levelAt_append _ hle]
      exact h.floor n hbase hdvd hle
    · obtain rfl : n = code.length + 4 := by
        have ha := h.aligned
        omega
      exact Int.le_of_eq (by rw [levelAt_instBytes h.aligned, hnest, add_zero, h.level_eq])
  pending := by
    intro q hq
    rw [List.length_append, length_instBytes]
    rcases hpend q hq with hold | ⟨rfl, hop⟩
    · obtain ⟨hbase, hdvd, hle, hjump, hlevel⟩ := h.pending q hold
      refine ⟨hbase, hdvd, by omega, (jumpAt_append _ (by omega)).mpr hjump, ?_⟩
      rw [levelAt_append _ hle, hlevel]
    · refine ⟨h.base_le, h.aligned, by omega, jumpAt_instBytes.mpr hop, ?_⟩
      rw [levelAt_instBytes h.aligned, hnest, add_zero, h.level_eq]
  lands := by
    intro q hbase hdvd hle hjump hq
    rw [List.length_append, length_instBytes] at hle
    rcases h.eq_or_le hdvd (by omega) with rfl | hle'
    · obtain ⟨hland, hstay⟩ := hnew (jumpAt_instBytes.mp hjump) hq
      exact ⟨hland, fun hcall => hstay fun hop => hcall (callAt_instBytes.mpr hop)⟩
    · obtain ⟨hland, hstay⟩ := h.lands q hbase hdvd hle' ((jumpAt_append _ (by omega)).mp hjump)
        fun hmem => hq (hsub hmem)
      rw [immAt_append _ hle', callAt_append _ (by omega)]
      exact ⟨hland.append _, fun hcall => (hstay hcall).append _ hle' hland.2⟩

/-- An instruction that is not a jump. -/
theorem plain (h : JumpsLand base level pend code) (hfit : code.length + 4 ≤ maxBytecodeSize)
    (hnest : op.nesting = 0) (hop : op ∉ jumpOps) :
    JumpsLand base level pend (code ++ instBytes op rd rs1 rs2) :=
  h.append hfit hnest (List.Subset.refl _) (fun _ hq => .inl hq) fun hop' => absurd hop' hop

theorem nesting_of_jump (hop : op ∈ jumpOps) : op.nesting = 0 := by
  simp only [jumpOps, List.mem_cons, List.not_mem_nil, or_false] at hop
  rcases hop with rfl | rfl | rfl | rfl <;> rfl

/-- A jump whose target is not known yet. -/
theorem forward (h : JumpsLand base level pend code) (rd rs1 rs2 : ℕ)
    (hfit : code.length + 4 ≤ maxBytecodeSize) (hop : op ∈ jumpOps) :
    JumpsLand base level (code.length :: pend) (code ++ instBytes op rd rs1 rs2) := by
  refine h.append hfit (nesting_of_jump hop) (List.subset_cons_self _ _) (fun q hq => ?_)
    fun _ hmem => absurd List.mem_cons_self hmem
  rcases List.mem_cons.mp hq with rfl | hold
  · exact .inr ⟨rfl, hop⟩
  · exact .inl hold

/-- A jump to a position already reached. -/
theorem back (h : JumpsLand base level pend code) (hfit : code.length + 4 ≤ maxBytecodeSize)
    (hop : op ∈ jumpOps) {target : ℕ} (ht : Lands code target)
    (hstay : op ≠ .call → base ≤ target ∧ levelAt code target = level) :
    JumpsLand base level pend (code ++ instBytes op rd (target / 256) (target % 256)) := by
  refine h.append hfit (nesting_of_jump hop) (List.Subset.refl _) (fun _ hq => .inl hq)
    fun _ _ => ?_
  have hlt : target < 65536 := by
    have hle : target ≤ 4096 := Nat.le_trans ht.2 (Nat.le_trans (Nat.le_add_right _ 4) hfit)
    omega
  rw [StaysIn, immAt_instBytes (by omega) (Nat.mod_lt _ (by decide)), Nat.div_add_mod',
    levelAt_append _ ht.2, levelAt_instBytes h.aligned, nesting_of_jump hop, add_zero, h.level_eq]
  exact ⟨ht.append _, hstay⟩

/-- A pending jump is given its target. -/
theorem land (h : JumpsLand base level (pos :: pend) code) (ht : Lands code imm)
    (hbase : base ≤ imm) (hlevel : levelAt code imm = level) :
    JumpsLand base level pend (patched code pos imm) := by
  obtain ⟨hpos₀, hpos, hle, hjump, hlevel'⟩ := h.pending pos List.mem_cons_self
  refine ⟨by rw [length_patched]; exact h.aligned, by rw [length_patched]; exact h.fits,
    by rw [length_patched]; exact h.base_le,
    by rw [length_patched, levelAt_patched hpos]; exact h.level_eq, ?_, ?_, ?_⟩
  · intro n hn hdvd hle'
    rw [length_patched] at hle'
    rw [levelAt_patched hpos]
    exact h.floor n hn hdvd hle'
  · intro q hq
    obtain ⟨hq₀, hdvd, hle', hj, hq'⟩ := h.pending q (List.mem_cons_of_mem _ hq)
    rw [length_patched, levelAt_patched hpos]
    exact ⟨hq₀, hdvd, hle', (jumpAt_patched hpos hdvd).mpr hj, hq'⟩
  · intro q hq₀ hdvd hle' hj hq
    rw [length_patched] at hle'
    rw [Lands, length_patched, StaysIn, levelAt_patched hpos, levelAt_patched hpos,
      callAt_patched hpos hdvd]
    by_cases hqp : q = pos
    · subst hqp
      have himm : imm < 65536 := by
        have hle4 : imm ≤ 4096 := Nat.le_trans ht.2 h.fits
        omega
      rw [immAt_patched_self hle himm]
      exact ⟨ht, fun _ => ⟨hbase, hlevel.trans hlevel'.symm⟩⟩
    · rw [immAt_patched_of_ne hpos hdvd hqp]
      refine h.lands q hq₀ hdvd hle' ((jumpAt_patched hpos hdvd).mp hj) fun hmem => ?_
      rcases List.mem_cons.mp hmem with rfl | hmem
      · exact hqp rfl
      · exact hq hmem

/-! ### Stretches of code -/

/-- A new stretch starts at the end of the code. -/
theorem fresh (ha : 4 ∣ code.length) (hfit : code.length ≤ maxBytecodeSize)
    (hlevel : levelAt code code.length = level) : JumpsLand code.length level [] code where
  aligned := ha
  fits := hfit
  base_le := Nat.le_refl _
  level_eq := hlevel
  floor := fun n hn _ hle => Int.le_of_eq (by rw [Nat.le_antisymm hle hn, hlevel])
  pending := fun _ h => absurd h List.not_mem_nil
  lands := fun pos hbase _ hle => by omega

/-- A stretch behind the code, and an instruction that is no jump. -/
theorem join (h : JumpsLand base level pend code) {base' : ℕ} {level' : ℤ} {rest : List UInt8}
    (hz : JumpsLand base' level' [] (code ++ rest)) (hop : op ∉ jumpOps)
    (hbase : code.length ≤ base') (hbetween : ∀ pos, code.length ≤ pos → pos < base' →
      4 ∣ pos → ¬ JumpAt (code ++ rest) pos)
    (hfloor : ∀ n, code.length ≤ n → n ≤ base' → 4 ∣ n → level ≤ levelAt (code ++ rest) n)
    (hlevel : level ≤ level') (hnest : level' + op.nesting = level)
    (hfit : (code ++ rest).length + 4 ≤ maxBytecodeSize) :
    JumpsLand base level pend (code ++ rest ++ instBytes op rd rs1 rs2) where
  aligned := by
    rw [List.length_append, length_instBytes]
    exact (Nat.dvd_add_right hz.aligned).mpr (by decide)
  fits := by
    rw [List.length_append, length_instBytes]
    exact hfit
  base_le := by
    have := h.base_le
    rw [List.length_append, List.length_append]
    omega
  level_eq := by
    rw [List.length_append, length_instBytes, levelAt_instBytes hz.aligned, hz.level_eq, hnest]
  floor := by
    intro n hn hdvd hle
    rw [List.length_append, length_instBytes] at hle
    by_cases hend : n ≤ (code ++ rest).length
    · rw [levelAt_append _ hend]
      by_cases hold : n ≤ code.length
      · rw [levelAt_append _ hold]
        exact h.floor n hn hdvd hold
      · by_cases hb : n ≤ base'
        · exact hfloor n (by omega) hb hdvd
        · exact Int.le_trans hlevel (hz.floor n (by omega) hdvd hend)
    · obtain rfl : n = (code ++ rest).length + 4 := by
        have ha := hz.aligned
        omega
      exact Int.le_of_eq (by rw [levelAt_instBytes hz.aligned, hz.level_eq, hnest])
  pending := by
    intro q hq
    obtain ⟨hbase, hdvd, hle, hjump, hlevel⟩ := h.pending q hq
    rw [List.append_assoc, List.length_append, levelAt_append _ hle, jumpAt_append _ (by omega)]
    exact ⟨hbase, hdvd, by omega, hjump, hlevel⟩
  lands := by
    intro q hq hdvd hle hjump hpend
    rw [List.length_append, length_instBytes] at hle
    by_cases hold : q + 4 ≤ code.length
    · rw [List.append_assoc] at hjump ⊢
      obtain ⟨hland, hstay⟩ := h.lands q hq hdvd hold ((jumpAt_append _ (by omega)).mp hjump) hpend
      rw [immAt_append _ hold, callAt_append _ (by omega)]
      exact ⟨hland.append _, fun hcall => (hstay hcall).append _ hold hland.2⟩
    rcases hz.eq_or_le hdvd (by omega) with rfl | hin
    · exact absurd (jumpAt_instBytes.mp hjump) hop
    have hjump' := (jumpAt_append _ (by omega)).mp hjump
    have ha := h.aligned
    by_cases hb : base' ≤ q
    · obtain ⟨hland, hstay⟩ := hz.lands q hb hdvd hin hjump' List.not_mem_nil
      rw [immAt_append _ hin, callAt_append _ (by omega)]
      refine ⟨hland.append _, fun hcall => ?_⟩
      obtain ⟨hge, heq⟩ := (hstay hcall).append (instBytes op rd rs1 rs2) hin hland.2
      exact ⟨Nat.le_trans (Nat.le_trans h.base_le hbase) hge, heq⟩
    · exact absurd hjump' (hbetween q (by omega) (by omega) hdvd)

/-- What is behind the base, with nothing pending, is a region. -/
theorem closedRegion (h : JumpsLand base level [] code) (hbase : 4 ∣ base) :
    ClosedRegion code base code.length where
  lo_dvd := hbase
  hi_dvd := h.aligned
  short := Nat.lt_of_le_of_lt h.fits (by decide)
  jumps := fun pos hlo hdvd hle hjump hcall => by
    obtain ⟨hland, hstay⟩ := h.lands pos hlo hdvd hle hjump List.not_mem_nil
    exact ⟨hland.1, (hstay hcall).1, hland.2⟩

/-- A deadline block opens. -/
theorem opened (h : JumpsLand base level pend code) (rd rs1 rs2 : ℕ)
    (hfit : code.length + 4 ≤ maxBytecodeSize) :
    JumpsLand (code ++ instBytes .withinStart rd rs1 rs2).length (level + 1) []
      (code ++ instBytes .withinStart rd rs1 rs2) := by
  have hlen : (code ++ instBytes .withinStart rd rs1 rs2).length = code.length + 4 := by
    rw [List.length_append, length_instBytes]
  refine .fresh ?_ ?_ ?_
  · rw [hlen]
    exact (Nat.dvd_add_right h.aligned).mpr (by decide)
  · rw [hlen]
    exact hfit
  · rw [hlen, levelAt_instBytes h.aligned, h.level_eq]
    rfl

/-- A deadline block closes. -/
theorem closed (h : JumpsLand base level pend code) {rest : List UInt8} (rd' rs1' rs2' : ℕ)
    (hz : JumpsLand (code ++ instBytes .withinStart rd rs1 rs2).length (level + 1) []
      (code ++ instBytes .withinStart rd rs1 rs2 ++ rest))
    (hfit : (code ++ instBytes .withinStart rd rs1 rs2 ++ rest).length + 4 ≤ maxBytecodeSize) :
    JumpsLand base level pend
      (code ++ instBytes .withinStart rd rs1 rs2 ++ rest ++
        instBytes .withinEnd rd' rs1' rs2') := by
  have hlen : (code ++ instBytes .withinStart rd rs1 rs2).length = code.length + 4 := by
    rw [List.length_append, length_instBytes]
  have ha := h.aligned
  rw [List.append_assoc code] at hz hfit ⊢
  rw [hlen] at hz
  refine h.join hz (by decide) (Nat.le_add_right _ _) (fun pos hle hlt hdvd hjump => ?_)
    (fun n hle hlt hdvd => ?_) (by omega) (Int.add_neg_cancel_right level 1) hfit
  · obtain rfl : pos = code.length := by omega
    rw [← List.append_assoc, jumpAt_append _ (by omega), jumpAt_instBytes] at hjump
    exact absurd hjump (by decide)
  · rw [← List.append_assoc, levelAt_append _ (by omega)]
    obtain rfl | rfl : n = code.length ∨ n = code.length + 4 := by omega
    · exact Int.le_of_eq (by rw [levelAt_append _ (Nat.le_refl _), h.level_eq])
    · rw [levelAt_instBytes ha, h.level_eq]
      exact Int.le_add_of_nonneg_right (by decide)

end JumpsLand

/-- A region is one in any code with the same bytes there. -/
theorem ClosedRegion.congr {code' : List UInt8} {lo hi : ℕ} (h : ClosedRegion code lo hi)
    (heq : ∀ i, lo ≤ i → i < hi → code'[i]? = code[i]?) : ClosedRegion code' lo hi where
  lo_dvd := h.lo_dvd
  hi_dvd := h.hi_dvd
  short := h.short
  jumps := fun pos hlo hdvd hle hjump hcall => by
    have hbyte (i : ℕ) (hge : lo ≤ i) (hlt : i < hi) : byteAt code' i = byteAt code i := by
      rw [byteAt, byteAt, List.getD_eq_getElem?_getD, List.getD_eq_getElem?_getD, heq i hge hlt]
    rw [JumpAt, hbyte pos hlo (by omega)] at hjump
    rw [CallAt, hbyte pos hlo (by omega)] at hcall
    rw [immAt, hbyte (pos + 2) (by omega) (by omega), hbyte (pos + 3) (by omega) (by omega)]
    exact h.jumps pos hlo hdvd hle hjump hcall


end LatencyOS
