import LatencyOS.Compiler.Rules

/-!
# Segments of emitted code

A segment is what a function of the expression compiler adds to the state: it hands back the
temporaries it took, and took only free ones.  Segments compose, and a machine that holds the
code of a segment holds the code of its parts.
-/

namespace LatencyOS

namespace CompilerState

variable {a b c st st' : CompilerState}

/-! ## Temporaries -/

@[simp] theorem scratch_self (st : CompilerState) : scratch st st = [] := List.drop_length

theorem scratch_eq_nil (h : st'.allocLog = st.allocLog) : scratch st st' = [] := by
  rw [scratch, h, List.drop_length]

theorem free_of_log_eq (h : st'.allocLog = st.allocLog) : ∀ r ∈ scratch st st', st.Free r := by
  rw [scratch_eq_nil h]
  exact fun r hr => absurd hr List.not_mem_nil

theorem scratch_trans (h₁ : a.allocLog <+: b.allocLog) (h₂ : b.allocLog <+: c.allocLog) :
    scratch a c = scratch a b ++ scratch b c := by
  obtain ⟨l, hl⟩ := h₁
  obtain ⟨m, hm⟩ := h₂
  rw [scratch, scratch, scratch, ← hm, ← hl]
  simp

theorem scratch_congr (h : b.allocLog = c.allocLog) : scratch a b = scratch a c := by
  rw [scratch, scratch, h]

theorem freeSlot_eq_some {i : ℕ} (h : st.freeSlot = some i) : i < 8 ∧ st.tempUsed i = false := by
  obtain ⟨h₁, h₂, _⟩ := List.find?_range_eq_some.mp h
  exact ⟨List.mem_range.mp h₂, by simpa using h₁⟩

theorem free_of_freeSlot {i : ℕ} (h : st.freeSlot = some i) : st.Free (15 - i) := by
  obtain ⟨hi, hused⟩ := freeSlot_eq_some h
  refine ⟨by omega, by omega, ?_⟩
  rwa [show 15 - (15 - i) = i by omega]

/-- A temporary that is free after another was taken was free before, and is another one. -/
theorem Free.of_take {i r : ℕ} (hi : i < 8) (h : (st.take i).Free r) : st.Free r ∧ r ≠ 15 - i := by
  obtain ⟨h₁, h₂, h₃⟩ := h
  have hne : 15 - r ≠ i := by
    intro heq
    rw [take, heq] at h₃
    simp at h₃
  refine ⟨⟨h₁, h₂, ?_⟩, by omega⟩
  exact (Function.update_of_ne hne ..).symm.trans h₃

/-- A register is among the first free temporaries. -/
def Reaches (st : CompilerState) (n r : ℕ) : Prop :=
  st.Free r ∧ (List.range (15 - r)).countP (fun i => !st.tempUsed i) < n

theorem Reaches.mono {m n r : ℕ} (h : st.Reaches m r) (hmn : m ≤ n) : st.Reaches n r :=
  ⟨h.1, Nat.lt_of_lt_of_le h.2 hmn⟩

theorem Reaches.congr {n r : ℕ} (h : st.Reaches n r) (htemps : st.tempUsed = st'.tempUsed) :
    st'.Reaches n r := by
  unfold Reaches Free at h ⊢
  rwa [htemps] at h

/-- The temporary handed out is the first one. -/
theorem reaches_of_freeSlot {i : ℕ} (h : st.freeSlot = some i) : st.Reaches 1 (15 - i) := by
  have hi := (freeSlot_eq_some h).1
  refine ⟨free_of_freeSlot h, ?_⟩
  rw [show 15 - (15 - i) = i by omega, Nat.lt_one_iff, List.countP_eq_zero]
  intro j hj
  have hused := (List.find?_range_eq_some.mp h).2.2 j (List.mem_range.mp hj)
  rw [Bool.not_not] at hused
  simp [hused]

/-- Taking a temporary moves the others up by one. -/
theorem countP_take_le (st : CompilerState) (i n : ℕ) :
    (List.range n).countP (fun k => !st.tempUsed k) ≤
      (List.range n).countP (fun k => !(st.take i).tempUsed k) + if i < n then 1 else 0 := by
  induction n with
  | zero => simp
  | succ n ih =>
    simp only [List.range_succ, List.countP_append, List.countP_singleton]
    by_cases hn : n = i
    · subst hn
      rw [if_neg (Nat.lt_irrefl n)] at ih
      rw [if_pos (Nat.lt_succ_self n)]
      split <;> omega
    · have hsame : (st.take i).tempUsed n = st.tempUsed n := Function.update_of_ne hn ..
      rw [hsame]
      have hstep : i < n ↔ i < n + 1 := by omega
      simp only [hstep] at ih
      omega

theorem Reaches.of_take {i n r : ℕ} (hi : i < 8) (h : (st.take i).Reaches n r) :
    st.Reaches (n + 1) r := by
  refine ⟨(h.1.of_take hi).1, ?_⟩
  have hle := countP_take_le st i (15 - r)
  have hlt := h.2
  split at hle <;> omega

theorem scratch_take (i : ℕ) (h : (st.take i).allocLog <+: c.allocLog) :
    scratch st c = (15 - i) :: scratch (st.take i) c := by
  have hlog : st.allocLog <+: (st.take i).allocLog := List.prefix_append _ _
  rw [scratch_trans hlog h, scratch]
  simp [take]

theorem reaches_of_log_eq {n : ℕ} (h : st'.allocLog = st.allocLog) :
    ∀ r ∈ scratch st st', st.Reaches n r := by
  rw [scratch_eq_nil h]
  exact fun r hr => absurd hr List.not_mem_nil

/-- What a temporary and a stretch behind it reach. -/
theorem reaches_bracket {i n : ℕ} (hi : st.freeSlot = some i)
    (hlog : (st.take i).allocLog <+: c.allocLog)
    (h : ∀ r ∈ scratch (st.take i) c, (st.take i).Reaches n r) :
    ∀ r ∈ scratch st c, st.Reaches (n + 1) r := by
  intro r hr
  rw [scratch_take i hlog, List.mem_cons] at hr
  rcases hr with rfl | hr
  · exact (reaches_of_freeSlot hi).mono (Nat.le_add_left 1 n)
  · exact (h r hr).of_take (freeSlot_eq_some hi).1

theorem Grows.take (st : CompilerState) (i : ℕ) : Grows st (st.take i) :=
  .of_append rfl rfl rfl List.prefix_rfl List.prefix_rfl (List.prefix_append _ _)

theorem Grows.freeTemp (st : CompilerState) (r : ℕ) : Grows st (st.freeTemp r) := by
  rw [CompilerState.freeTemp]
  split
  · exact .of_append rfl rfl rfl List.prefix_rfl List.prefix_rfl List.prefix_rfl
  · exact .refl st

@[simp] theorem freeTemp_code (st : CompilerState) (r : ℕ) : (st.freeTemp r).code = st.code := by
  rw [CompilerState.freeTemp]
  split <;> rfl

@[simp] theorem freeTemp_info (st : CompilerState) (r : ℕ) : (st.freeTemp r).info = st.info := by
  rw [CompilerState.freeTemp]
  split <;> rfl

@[simp] theorem freeTemp_current (st : CompilerState) (r : ℕ) :
    (st.freeTemp r).current = st.current := by
  rw [CompilerState.freeTemp]
  split <;> rfl

@[simp] theorem freeTemp_constPool (st : CompilerState) (r : ℕ) :
    (st.freeTemp r).constPool = st.constPool := by
  rw [CompilerState.freeTemp]
  split <;> rfl

@[simp] theorem freeTemp_allocLog (st : CompilerState) (r : ℕ) :
    (st.freeTemp r).allocLog = st.allocLog := by
  rw [CompilerState.freeTemp]
  split <;> rfl

/-- A place known before stays the place. -/
theorem Grows.place_eq (h : Grows st st') {x : List UInt8} {p : Place} (hx : (st.place x).isSome)
    (hp : st'.place x = some p) : st.place x = some p := by
  obtain ⟨q, hq⟩ := Option.isSome_iff_exists.mp hx
  rw [hq, ← h.place_of_some hq, hp]

theorem Grows.place_isSome (h : Grows st st') {x : List UInt8} (hx : (st.place x).isSome) :
    (st'.place x).isSome := by
  obtain ⟨q, hq⟩ := Option.isSome_iff_exists.mp hx
  rw [h.place_of_some hq]
  rfl

/-! ## Patched jumps -/

section Patch

variable {pos imm : ℕ}

@[simp] theorem patchImm16_info : (st.patchImm16 pos imm).info = st.info := by
  rw [CompilerState.patchImm16]
  split <;> rfl

@[simp] theorem patchImm16_current : (st.patchImm16 pos imm).current = st.current := by
  rw [CompilerState.patchImm16]
  split <;> rfl

@[simp] theorem patchImm16_allocLog : (st.patchImm16 pos imm).allocLog = st.allocLog := by
  rw [CompilerState.patchImm16]
  split <;> rfl

@[simp] theorem patchImm16_constPool : (st.patchImm16 pos imm).constPool = st.constPool := by
  rw [CompilerState.patchImm16]
  split <;> rfl

theorem patchImm16_place (x : List UInt8) : (st.patchImm16 pos imm).place x = st.place x := by
  rw [CompilerState.patchImm16]
  split <;> rfl

theorem patchImm16_code_congr (h : st'.code = st.code) :
    (st'.patchImm16 pos imm).code = (st.patchImm16 pos imm).code := by
  simp only [CompilerState.patchImm16, h]
  split
  · rfl
  · exact h

@[simp] theorem length_patchImm16 : (st.patchImm16 pos imm).code.length = st.code.length := by
  rw [CompilerState.patchImm16]
  split
  · simp
  · rfl

theorem getElem?_patchImm16_of_ne {i : ℕ} (h : i < pos + 2 ∨ pos + 4 ≤ i) :
    (st.patchImm16 pos imm).code[i]? = st.code[i]? := by
  rw [CompilerState.patchImm16]
  split
  · rw [List.getElem?_set_ne (by omega), List.getElem?_set_ne (by omega)]
  · rfl

/-- An instruction stands in the code of a state. -/
def InstIn (st : CompilerState) (pos : ℕ) (op : Opcode) (rd rs1 rs2 : ℕ) : Prop :=
  ∀ i < 4, st.code[pos + i]? = (instBytes op rd rs1 rs2)[i]?

theorem instIn_emitted (st : CompilerState) (op : Opcode) (rd rs1 rs2 : ℕ) :
    InstIn (st.emitted op rd rs1 rs2) st.code.length op rd rs1 rs2 := by
  intro i _
  rw [emitted, List.getElem?_append_right (Nat.le_add_right _ _), Nat.add_sub_cancel_left]

theorem InstIn.of_eq {op : Opcode} {rd rs1 rs2 : ℕ} (h : InstIn st pos op rd rs1 rs2)
    (heq : ∀ i, pos ≤ i → i < pos + 4 → st'.code[i]? = st.code[i]?) :
    InstIn st' pos op rd rs1 rs2 := by
  intro i hi
  rw [heq _ (by omega) (by omega)]
  exact h i hi

/-- Patching fills in the target. -/
theorem InstIn.patchImm16 {op : Opcode} {rd : ℕ} (h : InstIn st pos op rd 0 0)
    (hpos : pos + 4 ≤ maxBytecodeSize) :
    InstIn (st.patchImm16 pos imm) pos op rd (imm / 256) (imm % 256) := by
  have hlen : pos + 4 ≤ st.code.length := by
    have hlast := h 3 (by decide)
    have hsome : st.code[pos + 3]? ≠ none := by
      rw [hlast]
      simp [instBytes]
    have := List.getElem?_eq_none_iff.not.mp hsome
    omega
  intro i hi
  rw [CompilerState.patchImm16, if_pos (by omega)]
  interval_cases i
  · rw [List.getElem?_set_ne (by omega), List.getElem?_set_ne (by omega)]
    exact h 0 (by decide)
  · rw [List.getElem?_set_ne (by omega), List.getElem?_set_ne (by omega)]
    exact h 1 (by decide)
  · rw [List.getElem?_set_ne (by omega), List.getElem?_set_self (by omega)]
    rfl
  · rw [List.getElem?_set_self (by simp; omega)]
    exact congrArg some UInt8.ofNat_mod_size.symm

end Patch

/-! ## Segments -/

/-- What the compilation of an expression adds to the state. -/
structure Segment (st st' : CompilerState) : Prop where
  grows : Grows st st'
  temps : st'.tempUsed = st.tempUsed
  free : ∀ r ∈ scratch st st', st.Free r
  pool : st.constPool.length ≤ maxConstPool → st'.constPool.length ≤ maxConstPool

namespace Segment

theorem trans (h₁ : Segment a b) (h₂ : Segment b c) : Segment a c where
  grows := h₁.grows.trans h₂.grows
  temps := h₂.temps.trans h₁.temps
  free := fun r hr => by
    rw [scratch_trans h₁.grows.log h₂.grows.log, List.mem_append] at hr
    rcases hr with hr | hr
    · exact h₁.free r hr
    · obtain ⟨h8, h15, hused⟩ := h₂.free r hr
      exact ⟨h8, h15, by rwa [h₁.temps] at hused⟩
  pool := fun h => h₂.pool (h₁.pool h)

/-- Code and constants are added, and the position and the reports may change. -/
theorem add (st : CompilerState) (code : List UInt8) (consts : List Word64) (current : ℕ)
    (info : ExprInfo) (h : consts = [] ∨ (st.constPool ++ consts).length ≤ maxConstPool) :
    Segment st { st with
      code := st.code ++ code, constPool := st.constPool ++ consts, current := current,
      info := info } where
  grows := .of_append rfl rfl rfl (List.prefix_append _ _) (List.prefix_append _ _)
    List.prefix_rfl
  temps := rfl
  free := free_of_log_eq rfl
  pool := fun hpool => by
    rcases h with rfl | h
    · simpa using hpool
    · exact h

theorem move (st : CompilerState) (current : ℕ) (info : ExprInfo) :
    Segment st { st with current := current, info := info } := by
  simpa using add st [] [] current info (.inl rfl)

theorem refl (st : CompilerState) : Segment st st := move st st.current st.info

theorem next (st : CompilerState) : Segment st st.next := move st (st.current + 1) st.info

theorem emitted (st : CompilerState) (op : Opcode) (rd rs1 rs2 : ℕ) :
    Segment st (st.emitted op rd rs1 rs2) := by
  simpa [CompilerState.emitted] using
    add st (instBytes op rd rs1 rs2) [] st.current st.info (.inl rfl)

/-- A temporary is taken for a segment and handed back. -/
theorem bracket {i : ℕ} (hi : st.freeSlot = some i) (h : Segment (st.take i) c) :
    Segment st (c.freeTemp (15 - i)) := by
  obtain ⟨hi8, hused⟩ := freeSlot_eq_some hi
  have hfree : c.freeTemp (15 - i) =
      { c with tempUsed := Function.update c.tempUsed i false } := by
    rw [CompilerState.freeTemp, if_pos (by omega), show 15 - (15 - i) = i by omega]
  constructor
  · exact ((Grows.take st i).trans h.grows).trans (.freeTemp c _)
  · rw [hfree]
    change Function.update c.tempUsed i false = st.tempUsed
    rw [h.temps, take, Function.update_idem, ← hused, Function.update_eq_self]
  · intro r hr
    rw [scratch_congr (c.freeTemp_allocLog _), scratch_take i h.grows.log, List.mem_cons] at hr
    rcases hr with rfl | hr
    · exact free_of_freeSlot hi
    · exact ((h.free r hr).of_take hi8).1
  · rw [hfree]
    exact h.pool

/-- A temporary in use is not taken. -/
theorem notMem_of_used (h : Segment a b) {r : ℕ} (hr : a.tempUsed (15 - r) = true) :
    r ∉ scratch a b := by
  intro hmem
  rw [(h.free r hmem).2.2] at hr
  cases hr

theorem patchImm16 (h : Segment a b) {pos : ℕ} (hpos : a.code.length ≤ pos) (imm : ℕ) :
    Segment a (b.patchImm16 pos imm) := by
  refine { h with grows := h.grows.patchImm16 hpos imm, temps := ?_, free := ?_, pool := ?_ }
  all_goals
    rw [CompilerState.patchImm16]
    split
  · exact h.temps
  · exact h.temps
  · exact h.free
  · exact h.free
  · exact h.pool
  · exact h.pool

end Segment

/-- What two stretches reach. -/
theorem Segment.reaches_trans {n : ℕ} (h₁ : Segment a b) (hlog : b.allocLog <+: c.allocLog)
    (ha : ∀ r ∈ scratch a b, a.Reaches n r) (hb : ∀ r ∈ scratch b c, b.Reaches n r) :
    ∀ r ∈ scratch a c, a.Reaches n r := by
  intro r hr
  rw [scratch_trans h₁.grows.log hlog, List.mem_append] at hr
  rcases hr with hr | hr
  · exact ha r hr
  · exact (hb r hr).congr h₁.temps

/-- Nothing is emitted and no temporary is taken. -/
structure Quiet (st st' : CompilerState) : Prop where
  segment : Segment st st'
  code : st'.code = st.code
  log : st'.allocLog = st.allocLog

theorem Quiet.move (st : CompilerState) (current : ℕ) (info : ExprInfo) :
    Quiet st { st with current := current, info := info } := ⟨.move st current info, rfl, rfl⟩

theorem Quiet.next (st : CompilerState) : Quiet st st.next := ⟨.next st, rfl, rfl⟩

end CompilerState

end LatencyOS
