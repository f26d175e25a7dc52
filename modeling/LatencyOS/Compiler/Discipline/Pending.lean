import LatencyOS.Compiler.Discipline.Basic

/-!
# Pending jumps

Between a forward jump and the patch that gives it its target, the discipline holds with one
more jump pending.  `Closes` follows a computation through such a stretch: some jumps are
pending, some code positions have been marked, and at the end the jumps it started with are
pending again.  The rules are instances, as those of `Keeps` are.
-/

namespace LatencyOS

namespace Compiler

/-- A code position that has been reached: on the way of the computation, or the entry of a
function. -/
inductive Mark
  | here (m : ℕ)
  | entry (m : ℕ)

/-- A position on the way belongs to the stretch of code that is being compiled. -/
def Mark.Reached (s : Session) (st : CompilerState) : Mark → Prop
  | here m => Lands st.code m ∧ s.before.length ≤ m ∧ levelAt st.code m = s.level
  | entry m => Lands st.code m

variable {s : Session} {pend : List ℕ} {marks : List Mark} {st st₀ st' : CompilerState}
  {α β : Type} {pendα : α → List ℕ} {pend₀ : β → List ℕ}

/-- From a state with the jumps `pend` pending, a computation ends with those pending that its
answer says. -/
class Closes (s : Session) (pendα : α → List ℕ) (pend : List ℕ) (marks : List Mark)
    (p : CompilerM α) : Prop where
  runs : ∀ {st₀ st : CompilerState}, Sound s pend st → Later st₀ st →
    (∀ m ∈ marks, m.Reached s st) →
    s.Runs p (fun a st' => Sound s (pendα a) st' ∧ Later st₀ st') st

/-- A computation that leaves one more jump pending, at the position it answers with. -/
class Opens (s : Session) (p : CompilerM ℕ) : Prop where
  runs : ∀ {pend : List ℕ} {st : CompilerState}, Sound s pend st →
    s.Runs p (fun pos st' => Sound s (pos :: pend) st' ∧ Later st st') st

theorem Closes.keeps {p : CompilerM α} (h : ∀ pend, Closes s (fun _ => pend) pend [] p) :
    Keeps s p :=
  ⟨fun hs => (h _).runs hs (.refl _) fun _ hm => absurd hm List.not_mem_nil⟩

/-- A stretch that needs no marks. -/
theorem Closes.runs_last {p : CompilerM α} [h : Closes s pendα pend [] p] (hs : Sound s pend st)
    (hl : Later st₀ st) : s.Runs p (fun a st' => Sound s (pendα a) st' ∧ Later st₀ st') st :=
  h.runs hs hl fun _ hm => absurd hm List.not_mem_nil

/-- A marked code position. -/
class Marked (m : Mark) (marks : List Mark) : Prop where
  mem : m ∈ marks

instance marked_head (m : Mark) : Marked m (m :: marks) := ⟨List.mem_cons_self⟩

instance marked_tail (m n : Mark) [h : Marked m marks] : Marked m (n :: marks) :=
  ⟨List.mem_cons_of_mem n h.mem⟩

/-- The opcodes of jumps, calls aside. -/
@[reducible] def JumpOp : Opcode → Prop
  | .jmp | .jz | .jnz => True
  | _ => False

theorem JumpOp.mem {op : Opcode} (h : JumpOp op) : op ∈ jumpOps := by
  cases op <;> first | exact h.elim | decide

/-! ## Primitives -/

theorem Sound.here (hs : Sound s pend st) : (Mark.here st.code.length).Reached s st :=
  ⟨⟨hs.jumps.aligned, Nat.le_refl _⟩, hs.jumps.base_le, hs.jumps.level_eq⟩

/-- A jump whose target is not known yet is pending. -/
theorem runs_jump (hs : Sound s pend st) {op : Opcode} (hop : op ∈ jumpOps) (rd rs1 rs2 : ℕ) :
    s.Runs (emitInst op rd rs1 rs2) (fun pos st' => Sound s (pos :: pend) st' ∧ Later st st' ∧
      st'.code.length = st.code.length + 4) st := by
  refine fun _ => ⟨fun hnat => absurd hop (hnat ▸ by decide), ?_⟩
  simp only [perform, CompilerState.emitInst]
  split
  · exact fails_error _
  · next hfit =>
    have hjumps := hs.jumps.forward rd rs1 rs2 (Nat.not_lt.mp hfit) hop
    exact ⟨(hs.emit hjumps).1, (hs.emit hjumps).2, List.length_append⟩

/-- A jump to a position already reached. -/
theorem runs_back (hs : Sound s pend st) {op : Opcode} (hop : op ∈ jumpOps) (rd : ℕ) {target : ℕ}
    (ht : Lands st.code target)
    (hstay : op ≠ .call → s.before.length ≤ target ∧ levelAt st.code target = s.level) :
    s.Runs (emitImm16 op rd target) (fun _ st' => Sound s pend st' ∧ Later st st') st := by
  refine fun _ => ⟨fun hnat => absurd hop (hnat ▸ by decide), ?_⟩
  simp only [perform, CompilerState.emitInst]
  split
  · exact fails_error _
  · next hfit => exact hs.emit (hs.jumps.back (Nat.not_lt.mp hfit) hop ht hstay)

/-- A patch gives a pending jump its target. -/
theorem runs_patch {pos : ℕ} (hs : Sound s (pos :: pend) st) {imm : ℕ}
    (ht : (Mark.here imm).Reached s st) :
    s.Runs (patchImm16 pos imm) (fun _ st' => Sound s pend st' ∧ Later st st') st := by
  obtain ⟨hbase, hdvd, hle, hjump, -⟩ := hs.jumps.pending pos List.mem_cons_self
  refine fun _ => ⟨⟨hdvd, hjump⟩, ?_⟩
  have hin : pos + 3 < maxBytecodeSize := by
    have := hs.jumps.fits
    omega
  have hst : st.patchImm16 pos imm = { st with code := patched st.code pos imm } := if_pos hin
  have hlen : st.code.length = (patched st.code pos imm).length := length_patched.symm
  simp only [perform, hst]
  have hl : Later st { st with code := patched st.code pos imm } :=
    ⟨Nat.le_refl _, Nat.le_of_eq hlen, Nat.le_refl _, fun _ _ => rfl,
      fun n _ => levelAt_patched hdvd n⟩
  refine ⟨⟨hs.src, hs.tokens, fun hb => Nat.le_trans (hl.rank_le s) (hs.rank_le hb),
    prefix_patched hs.start hbase, hs.jumps.land ht.1 ht.2.1 ht.2.2, ?_, hs.wcet⟩, hl⟩
  exact fun f hf => hl.lands (hs.entries f hf)

/-! ## Rules -/

theorem Later.reached (h : Later st st') {m : Mark} (hm : m.Reached s st) : m.Reached s st' := by
  cases m with
  | here m => exact ⟨h.lands hm.1, hm.2.1, (h.levels m hm.1.2).trans hm.2.2⟩
  | entry m => exact h.lands hm

theorem Later.reached_all (h : Later st st') (hm : ∀ m ∈ marks, m.Reached s st) :
    ∀ m ∈ marks, m.Reached s st' :=
  fun m hmem => h.reached (hm m hmem)

instance (priority := low) closes_of_keeps {p : CompilerM α} [hp : Keeps s p] :
    Closes s (fun _ => pend) pend marks p :=
  ⟨fun hs hl _ => (hp.runs hs).mono fun _ _ h => ⟨h.1, hl.trans h.2⟩⟩

theorem Closes.bind {p : CompilerM α} {f : α → CompilerM β} (hp : Keeps s p)
    (hf : ∀ a, Closes s pend₀ pend marks (f a)) : Closes s pend₀ pend marks (p >>= f) := by
  refine ⟨fun hs hl hm => Prog.Wp.bind ((hp.runs hs).mono fun a t ht => ?_)⟩
  exact (hf a).runs ht.1 (hl.trans ht.2) (ht.2.reached_all hm)

instance closes_bind {p : CompilerM α} {f : α → CompilerM β} [hp : Keeps s p]
    [hf : ∀ a, Closes s pend₀ pend marks (f a)] : Closes s pend₀ pend marks (p >>= f) :=
  .bind hp hf

theorem Closes.bind_reads {p : CompilerM Token} {f : Token → CompilerM β} (hp : Reads s p)
    (hf : ∀ tok : s.Tok, Closes s pend₀ pend marks (f tok.val)) :
    Closes s pend₀ pend marks (p >>= f) := by
  refine ⟨fun hs hl hm => Prog.Wp.bind ((hp.runs hs).mono fun a t ht => ?_)⟩
  exact (hf ⟨a, ht.1⟩).runs ht.2.1 (hl.trans ht.2.2) (ht.2.2.reached_all hm)

instance (priority := 2000) closes_bind_reads {p : CompilerM Token} {f : Token → CompilerM β}
    [hp : Reads s p] [hf : ∀ tok : s.Tok, Closes s pend₀ pend marks (f tok.val)] :
    Closes s pend₀ pend marks (p >>= f) := .bind_reads hp hf

instance closes_pure (a : α) : Closes s pendα (pendα a) marks (Pure.pure a) :=
  ⟨fun hs hl _ => ⟨hs, hl⟩⟩

instance closes_ite {c : Prop} [Decidable c] {p q : CompilerM α}
    [hp : Closes s pendα pend marks p] [hq : Closes s pendα pend marks q] :
    Closes s pendα pend marks (if c then p else q) := by
  split
  · exact hp
  · exact hq

theorem Closes.codeLen {f : ℕ → CompilerM β}
    (hf : ∀ m, Closes s pend₀ pend (.here m :: marks) (f m)) :
    Closes s pend₀ pend marks (codeLen >>= f) := by
  refine ⟨fun hs hl hm => Prog.Wp.bind (runs_get ((hf _).runs hs hl fun m hmem => ?_))⟩
  rcases List.mem_cons.mp hmem with rfl | hmem
  · exact hs.here
  · exact hm m hmem

instance (priority := 2000) closes_codeLen {f : ℕ → CompilerM β}
    [hf : ∀ m, Closes s pend₀ pend (.here m :: marks) (f m)] :
    Closes s pend₀ pend marks (codeLen >>= f) := .codeLen hf

instance opens_emitInst {op : Opcode} {rd rs1 rs2 : ℕ} [hop : Obvious (JumpOp op)] :
    Opens s (emitInst op rd rs1 rs2) :=
  ⟨fun hs => (runs_jump hs hop.holds.mem rd rs1 rs2).mono fun _ _ h => ⟨h.1, h.2.1⟩⟩

instance opens_emitImm16 {op : Opcode} {rd : ℕ} [Obvious (JumpOp op)] :
    Opens s (emitImm16 op rd 0) := opens_emitInst

theorem Closes.bind_opens {p : CompilerM ℕ} {f : ℕ → CompilerM β} (hp : Opens s p)
    (hf : ∀ pos, Closes s pend₀ (pos :: pend) marks (f pos)) :
    Closes s pend₀ pend marks (p >>= f) := by
  refine ⟨fun hs hl hm => Prog.Wp.bind ((hp.runs hs).mono fun pos t ht => ?_)⟩
  exact (hf pos).runs ht.1 (hl.trans ht.2) (ht.2.reached_all hm)

instance closes_opens {p : CompilerM ℕ} {f : ℕ → CompilerM β} [hp : Opens s p]
    [hf : ∀ pos, Closes s pend₀ (pos :: pend) marks (f pos)] :
    Closes s pend₀ pend marks (p >>= f) := .bind_opens hp hf

instance (priority := low) closes_opens_last {p : CompilerM ℕ} [hp : Opens s p] :
    Closes s (fun pos => pos :: pend) pend marks p :=
  ⟨fun hs hl _ => (hp.runs hs).mono fun _ _ h => ⟨h.1, hl.trans h.2⟩⟩

theorem Closes.opens {p : CompilerM ℕ} (h : ∀ pend, Closes s (fun pos => pos :: pend) pend [] p) :
    Opens s p :=
  ⟨fun hs => (h _).runs hs (.refl _) fun _ hm => absurd hm List.not_mem_nil⟩

instance (priority := 2000) closes_back {op : Opcode} {rd m : ℕ} {f : ℕ → CompilerM β}
    [hop : Obvious (JumpOp op)] [hm : Marked (.here m) marks]
    [hf : ∀ pos, Closes s pend₀ pend marks (f pos)] :
    Closes s pend₀ pend marks (emitImm16 op rd m >>= f) := by
  refine ⟨fun hs hl hmarks => Prog.Wp.bind ?_⟩
  obtain ⟨hland, hstay⟩ := hmarks _ hm.mem
  refine (runs_back hs hop.holds.mem rd hland fun _ => hstay).mono fun pos t ht => ?_
  exact (hf pos).runs ht.1 (hl.trans ht.2) (ht.2.reached_all hmarks)

instance (priority := 2000) closes_call {rd m : ℕ} {f : ℕ → CompilerM β}
    [hm : Marked (.entry m) marks] [hf : ∀ pos, Closes s pend₀ pend marks (f pos)] :
    Closes s pend₀ pend marks (emitImm16 .call rd m >>= f) := by
  refine ⟨fun hs hl hmarks => Prog.Wp.bind ?_⟩
  have hland : Lands _ m := hmarks _ hm.mem
  refine (runs_back hs (by decide) rd hland fun h => absurd rfl h).mono fun pos t ht => ?_
  exact (hf pos).runs ht.1 (hl.trans ht.2) (ht.2.reached_all hmarks)

theorem runs_land {pos m : ℕ} [hm : Marked (.here m) marks] (hs : Sound s (pos :: pend) st)
    (hmarks : ∀ m ∈ marks, m.Reached s st) :
    s.Runs (patchImm16 pos m) (fun _ st' => Sound s pend st' ∧ Later st st') st :=
  runs_patch hs (hmarks _ hm.mem)

instance closes_land {pos m : ℕ} {f : Unit → CompilerM β} [Marked (.here m) marks]
    [hf : ∀ u, Closes s pend₀ pend marks (f u)] :
    Closes s pend₀ (pos :: pend) marks (patchImm16 pos m >>= f) := by
  refine ⟨fun hs hl hmarks => Prog.Wp.bind ((runs_land hs hmarks).mono fun u t ht => ?_)⟩
  exact (hf u).runs ht.1 (hl.trans ht.2) (ht.2.reached_all hmarks)

instance closes_land_last {pos m : ℕ} [Marked (.here m) marks] :
    Closes s (fun _ => pend) (pos :: pend) marks (patchImm16 pos m) :=
  ⟨fun hs hl hmarks => (runs_land hs hmarks).mono fun _ _ ht => ⟨ht.1, hl.trans ht.2⟩⟩

/-- The order of the pending jumps does not matter. -/
theorem Sound.perm {pend' : List ℕ} (h : Sound s pend st) (hp : ∀ pos, pos ∈ pend' ↔ pos ∈ pend) :
    Sound s pend' st where
  src := h.src
  tokens := h.tokens
  rank_le := h.rank_le
  start := h.start
  jumps := { h.jumps with
    pending := fun pos hpos => h.jumps.pending pos ((hp pos).mp hpos)
    lands := fun pos hbase hdvd hle hj hnot => h.jumps.lands pos hbase hdvd hle hj fun hmem =>
      hnot ((hp pos).mpr hmem) }
  entries := h.entries
  wcet := h.wcet

instance closes_land_second {pos pos' m : ℕ} {f : Unit → CompilerM β} [Marked (.here m) marks]
    [hf : ∀ u, Closes s pend₀ (pos' :: pend) marks (f u)] :
    Closes s pend₀ (pos' :: pos :: pend) marks (patchImm16 pos m >>= f) := by
  refine ⟨fun hs hl hmarks => Prog.Wp.bind ?_⟩
  have hs' : Sound s (pos :: pos' :: pend) _ := hs.perm fun q => by
    simp only [List.mem_cons]
    exact or_left_comm
  refine (runs_land hs' hmarks).mono fun u t ht => ?_
  exact (hf u).runs ht.1 (hl.trans ht.2) (ht.2.reached_all hmarks)

/-- A stretch of statements inside an expression. -/
theorem Closes.inExpression {p : CompilerM α} [h : Closes s.toStatement pendα pend [] p]
    (hs : Sound s.toStatement pend st) (hl : Later st₀ st) :
    s.Runs p (fun a st' => Sound s (pendα a) st' ∧ Later st₀ st') st := by
  refine (h.runs hs (.refl st) fun _ hm => absurd hm List.not_mem_nil).mono fun _ _ h => ?_
  exact ⟨h.1.of_toStatement, hl.trans h.2⟩

/-! ## Function entries -/

/-- The entry of a function that is found has been reached. -/
theorem Closes.findFn {name : List UInt8} {f : Option FnMeta → CompilerM β}
    (hsome : ∀ fn, Closes s pend₀ pend (.entry fn.entryPc :: marks) (f (some fn)))
    (hnone : Closes s pend₀ pend marks (f none)) :
    Closes s pend₀ pend marks (findFn name >>= f) := by
  refine ⟨fun {st₀ st} hs hl hm => Prog.Wp.bind (runs_get ?_)⟩
  change s.Runs (f (st.decls.functions.find? (·.name == name))) _ st
  cases hfind : st.decls.functions.find? (·.name == name) with
  | none => exact hnone.runs hs hl hm
  | some fn =>
    refine (hsome fn).runs hs hl fun m hmem => ?_
    rcases List.mem_cons.mp hmem with rfl | hmem
    · exact hs.entries fn (List.mem_of_find?_eq_some hfind)
    · exact hm m hmem

end Compiler

end LatencyOS
