import LatencyOS.Compiler.Compiled
import LatencyOS.Source.Stmt
import LatencyOS.Vm.Exec

/-!
# What the code of a statement does on the machine

Variables live in registers of their own, apart from register 0, where conditions go, and from
the temporaries.  `Performs` says that the machine brings about an outcome of the source: it runs
to the end of the code with the new values in the registers, it stops with the code of the
fault, or, where the source looks for no end, it has not come to one after as many instructions
as there were turns to look at.
-/

namespace LatencyOS

namespace PX64VM

/-!
## Running loops

`Passes` is about stretches of code that never come back.  `Takes` counts the instructions
between two states of the machine, wherever they stand, and says what else may change.  The
step limit cuts a run off after exactly as many instructions as it allows.
-/

/-- So many instructions lead from one state to another; the step limit is left aside, and only
the registers in `T` change. -/
structure Takes (host : Host) (T : ℕ → Prop) (k : ℕ) (vm vm' : PX64VM) : Prop where
  last : Machine.iter (fetch host) k vm = .ok vm'
  steps : ∀ j ≤ k, ∃ t, Machine.iter (fetch host) j vm = .ok t ∧ t.steps = vm.steps + j ∧
    t.maxSteps = vm.maxSteps
  core : vm'.core = vm.core
  output : vm'.output = vm.output
  frame : ∀ r, ¬ T r → vm'.regs r = vm.regs r

/-- The step limit ends the run. -/
def CutOff (host : Host) (vm : PX64VM) : Prop :=
  ∃ t, Machine.iter (step host) (vm.maxSteps - vm.steps) vm = .ok t ∧ t.steps = vm.maxSteps ∧
    t.step host = .error (wcetExceeded, t)

namespace Takes

variable {host : Host} {T U : ℕ → Prop} {k l : ℕ} {a b c : PX64VM}

theorem refl (host : Host) (T : ℕ → Prop) (vm : PX64VM) : Takes host T 0 vm vm where
  last := rfl
  steps := by
    intro j hj
    obtain rfl := Nat.le_zero.mp hj
    exact ⟨vm, rfl, rfl, rfl⟩
  core := rfl
  output := rfl
  frame := fun _ _ => rfl

theorem trans (h₁ : Takes host T k a b) (h₂ : Takes host T l b c) : Takes host T (k + l) a c where
  last := by rw [Machine.iter_add _ h₁.last, h₂.last]
  steps := by
    intro j hj
    by_cases hjk : j ≤ k
    · exact h₁.steps j hjk
    · obtain ⟨d, rfl⟩ : ∃ d, j = k + d := ⟨j - k, by omega⟩
      obtain ⟨t, ht, hsteps, hmax⟩ := h₂.steps d (by omega)
      obtain ⟨t', ht', hsteps', hmax'⟩ := h₁.steps k (Nat.le_refl k)
      obtain rfl : b = t' := Except.ok.inj (h₁.last.symm.trans ht')
      exact ⟨t, by rw [Machine.iter_add _ h₁.last, ht], by omega, hmax.trans hmax'⟩
  core := h₂.core.trans h₁.core
  output := h₂.output.trans h₁.output
  frame := fun r hr => (h₂.frame r hr).trans (h₁.frame r hr)

theorem mono (h : Takes host T k a b) (hTU : ∀ r, T r → U r) : Takes host U k a b :=
  ⟨h.last, h.steps, h.core, h.output, fun r hr => h.frame r fun ht => hr (hTU r ht)⟩

/-- A stretch of straight code. -/
theorem of_passes (h : Passes host T a b) : ∃ k, Takes host T k a b := by
  obtain ⟨n, hn, -, hway⟩ := h.run
  refine ⟨n, hn, fun j hj => ?_, h.core, h.output, h.frame⟩
  obtain ⟨t, ht, hsteps, hmax, -⟩ := hway j hj
  exact ⟨t, ht, hsteps, hmax⟩

/-- One instruction. -/
theorem single (h : a.fetch host = .ok b) (hcore : b.core = a.core) (hout : b.output = a.output)
    (hsteps : b.steps = a.steps + 1) (hframe : ∀ r, ¬ T r → b.regs r = a.regs r) :
    Takes host T 1 a b where
  last := Machine.iter_succ_of_ok _ h 0
  steps := by
    intro j hj
    rcases Nat.le_one_iff_eq_zero_or_eq_one.mp hj with rfl | rfl
    · exact ⟨a, rfl, rfl, rfl⟩
    · exact ⟨b, Machine.iter_succ_of_ok _ h 0, hsteps,
        eq_of_core PX64VM.maxSteps (fun _ => rfl) hcore⟩
  core := hcore
  output := hout
  frame := hframe

/-- One instruction that only moves, to wherever it likes. -/
theorem jump {ip : ℕ} (h : a.fetch host = .ok { a.advance with ip := ip }) :
    Takes host T 1 a { a.advance with ip := ip } := single h rfl rfl rfl fun _ _ => rfl

/-- One instruction that only writes a register. -/
theorem write {d : ℕ} {v : Word64} (hT : T d)
    (h : a.fetch host = .ok { a.advance with regs := Function.update a.regs d v }) :
    Takes host T 1 a { a.advance with regs := Function.update a.regs d v } :=
  single h rfl rfl rfl fun r hr =>
    Function.update_of_ne (fun hrd => hr (by rw [hrd]; exact hT)) ..

theorem maxSteps_eq (h : Takes host T k a b) : b.maxSteps = a.maxSteps :=
  eq_of_core PX64VM.maxSteps (fun _ => rfl) h.core

theorem steps_eq (h : Takes host T k a b) : b.steps = a.steps + k := by
  obtain ⟨t, ht, hsteps, -⟩ := h.steps k (Nat.le_refl k)
  obtain rfl : b = t := Except.ok.inj (h.last.symm.trans ht)
  exact hsteps

/-- Within the limit the machine takes the same steps. -/
theorem iter_step (h : Takes host T k a b) {j : ℕ} (hj : j ≤ k)
    (hle : a.steps + j ≤ a.maxSteps) :
    Machine.iter (step host) j a = Machine.iter (fetch host) j a := by
  induction j with
  | zero => rfl
  | succ j ih =>
    obtain ⟨t, ht, hsteps, hmax⟩ := h.steps j (by omega)
    have hstep : t.step host = t.fetch host := step_eq_fetch host (by omega)
    rw [Machine.iter_add _ ht, Machine.iter_add _ ((ih (by omega) (by omega)).trans ht)]
    simp only [Machine.iter, hstep]

/-- A run that takes more instructions than the limit allows is cut off. -/
theorem cutOff (h : Takes host T k a b) (hle : a.steps ≤ a.maxSteps)
    (hlt : a.maxSteps < a.steps + k) : CutOff host a := by
  obtain ⟨t, ht, hsteps, hmax⟩ := h.steps (a.maxSteps - a.steps) (by omega)
  obtain ⟨u, hu, -⟩ := h.steps (a.maxSteps - a.steps + 1) (by omega)
  have hin : t.ip + 4 ≤ t.code.length := by
    rw [Machine.iter_add _ ht] at hu
    by_contra hout
    simp only [Machine.iter, fetch, if_neg hout] at hu
    cases hu
  exact ⟨t, (h.iter_step (by omega) (by omega)).trans ht, by omega, step_of_out hin (by omega)⟩

/-- A run that comes to a stop does so, or is cut off. -/
theorem stops (h : Takes host T k a b) (hle : a.steps ≤ a.maxSteps) {r : Stop × PX64VM}
    (hin : b.ip + 4 ≤ b.code.length) (hf : b.fetch host = .error r) :
    CutOff host a ∨ Machine.iter (step host) k a = .ok b ∧ b.step host = .error r := by
  by_cases hlt : a.maxSteps < a.steps + k
  · exact .inl (h.cutOff hle hlt)
  have hrun := (h.iter_step (Nat.le_refl k) (Nat.not_lt.mp hlt)).trans h.last
  have hsteps := h.steps_eq
  have hmax := h.maxSteps_eq
  by_cases hout : b.maxSteps ≤ b.steps
  · refine .inl ⟨b, ?_, by omega, step_of_out hin hout⟩
    rwa [show a.maxSteps - a.steps = k by omega]
  · exact .inr ⟨hrun, (step_eq_fetch host (Nat.not_le.mp hout)).trans hf⟩

/-- What writes one register takes one instruction. -/
theorem of_writes {d : ℕ} {v : Word64} (h : Writes host a d v) :
    ∃ k b, Takes host (· = d) k a b ∧ b.ip = a.ip + 4 ∧ b.regs d = v := by
  obtain ⟨b, hpass, hip, hv⟩ := h
  obtain ⟨k, hk⟩ := of_passes hpass
  exact ⟨k, b, hk, hip, hv⟩

end Takes

/-! ## More instructions -/

variable {vm : PX64VM} {rd rs1 rs2 : ℕ}

/-- The function of an instruction with an immediate byte. -/
def immFn : Opcode → Option (Word64 → Word64 → Word64)
  | .addi => some (· + ·)
  | .subi => some (· - ·)
  | _ => none

theorem InstAt.imm (host : Host) {op : Opcode} {f : Word64 → Word64 → Word64}
    (h : vm.InstAt vm.ip op rd rs1 rs2) (hop : immFn op = some f) (hd : rd < 20) (h₁ : rs1 < 20)
    (h₂ : rs2 < 256) : Writes host vm rd (f (vm.regs rs1) (BitVec.ofNat 64 rs2)) := by
  refine writes_of_exec host h (by omega) (by omega) h₂ ?_
  have hexec : ∀ g : Word64 → Word64 → Word64,
      (if rs1 < px64NumRegisters then
        vm.advance.setReg rd (g (vm.advance.regs rs1) (BitVec.ofNat 64 rs2)) else vm.advance) =
      { vm.advance with
        regs := Function.update vm.regs rd (g (vm.regs rs1) (BitVec.ofNat 64 rs2)) } := by
    intro g
    rw [if_pos (show rs1 < px64NumRegisters from h₁), setReg_of_lt _ hd]
    rfl
  cases op <;> simp only [immFn, Option.some.injEq, reduceCtorEq] at hop <;> subst hop
  · exact congrArg Except.ok (hexec (· + ·))
  · exact congrArg Except.ok (hexec (· - ·))

/-- An assertion passes over a word that is not zero. -/
theorem InstAt.assert (host : Host) (h : vm.InstAt vm.ip .assert 0 0 0) (hv : vm.regs 0 ≠ 0#64) :
    vm.fetch host = .ok { vm.advance with ip := vm.ip + 4 } := by
  rw [h.fetch_eq (by decide) (by decide) (by decide)]
  exact if_neg hv

/-- And stops at zero. -/
theorem InstAt.assert_zero (host : Host) (h : vm.InstAt vm.ip .assert 0 0 0)
    (hv : vm.regs 0 = 0#64) : ∃ r, vm.fetch host = .error r ∧
      stopCode r.1 = some "ERR_PX64_ASSERTION_FAILED" := by
  rw [h.fetch_eq (by decide) (by decide) (by decide)]
  exact ⟨_, if_pos hv, rfl⟩

end PX64VM

open CompilerState PX64VM

namespace Compiler

variable {host : Host} {T U : ℕ → Prop} {X : List (List UInt8)} {home : List UInt8 → ℕ}
  {S : List ℕ} {vm vm' a b : PX64VM} {ρ : Stmt.Env} {stop stop' n k : ℕ}

/-- The registers of the variables are apart from each other and from the others in use. -/
structure Homes (X : List (List UInt8)) (home : List UInt8 → ℕ) (S : List ℕ) : Prop where
  pos : ∀ x ∈ X, home x ≠ 0
  lt : ∀ x ∈ X, home x < 20
  notMem : ∀ x ∈ X, home x ∉ S
  inj : ∀ x ∈ X, ∀ y ∈ X, home x = home y → x = y

theorem Homes.mono {S' : List ℕ} (h : Homes X home S) (hS : ∀ r ∈ S', r ∈ S) : Homes X home S' :=
  ⟨h.pos, h.lt, fun x hx hmem => h.notMem x hx (hS _ hmem), h.inj⟩

/-- The registers hold the values of the variables. -/
def Shows (X : List (List UInt8)) (home : List UInt8 → ℕ) (vm : PX64VM) (ρ : Stmt.Env) : Prop :=
  ∀ x ∈ X, vm.regs (home x) = ρ x

/-- The registers the code of a statement may write. -/
def Touched (X : List (List UInt8)) (home : List UInt8 → ℕ) (S : List ℕ) (r : ℕ) : Prop :=
  r = 0 ∨ r ∈ S ∨ ∃ x ∈ X, home x = r

theorem Touched.mono {S' : List ℕ} (hS : ∀ r ∈ S, r ∈ S') {r : ℕ} (h : Touched X home S r) :
    Touched X home S' r := h.imp_right fun h => h.imp_left (hS r)

/-- The diagnostic of a fault. -/
def faultCode : Stmt.Fault → String
  | .divByZero => "ERR_PX64_DIV_BY_ZERO"
  | .assertFailed => "ERR_PX64_ASSERTION_FAILED"

/-- The machine runs into a fault. -/
def Faults (host : Host) (T : ℕ → Prop) (vm : PX64VM) (f : Stmt.Fault) : Prop :=
  ∃ vm' k r, Takes host T k vm vm' ∧ vm'.fetch host = .error r ∧ stopCode r.1 = some (faultCode f)

/-- The machine brings about an outcome. -/
def Performs (host : Host) (T : ℕ → Prop) (X : List (List UInt8)) (home : List UInt8 → ℕ)
    (vm : PX64VM) (stop n : ℕ) : Option Stmt.Outcome → Prop
  | none => ∃ vm' k, Takes host T k vm vm' ∧ n ≤ k
  | some (.done ρ) => ∃ vm' k, Takes host T k vm vm' ∧ vm'.ip = stop ∧ Shows X home vm' ρ
  | some (.stopped f) => Faults host T vm f

theorem Faults.after {f : Stmt.Fault} (h₁ : Takes host T k a b) (h₂ : Faults host T b f) :
    Faults host T a f := by
  obtain ⟨c, l, r, hrun, hf, hcode⟩ := h₂
  exact ⟨c, k + l, r, h₁.trans hrun, hf, hcode⟩

theorem Faults.mono {f : Stmt.Fault} (h : Faults host T a f) (hTU : ∀ r, T r → U r) :
    Faults host U a f := by
  obtain ⟨c, l, r, hrun, hf, hcode⟩ := h
  exact ⟨c, l, r, hrun.mono hTU, hf, hcode⟩

namespace Performs

variable {res : Option Stmt.Outcome}

theorem mono (h : Performs host T X home vm stop n res) (hTU : ∀ r, T r → U r) :
    Performs host U X home vm stop n res := by
  match res, h with
  | none, ⟨c, l, hrun, hle⟩ => exact ⟨c, l, hrun.mono hTU, hle⟩
  | some (.done ρ), ⟨c, l, hrun, hip, hshow⟩ => exact ⟨c, l, hrun.mono hTU, hip, hshow⟩
  | some (.stopped f), h => exact Faults.mono h hTU

/-- Some instructions, and then the outcome. -/
theorem after (h₁ : Takes host T k a b) (h₂ : Performs host T X home b stop n res) :
    Performs host T X home a stop n res := by
  match res, h₂ with
  | none, ⟨c, l, hrun, hle⟩ => exact ⟨c, k + l, h₁.trans hrun, by omega⟩
  | some (.done ρ), ⟨c, l, hrun, hip, hshow⟩ => exact ⟨c, k + l, h₁.trans hrun, hip, hshow⟩
  | some (.stopped f), h => exact Faults.after h₁ h

/-- At least one instruction pays for a turn. -/
theorem turn (hk : 1 ≤ k) (h₁ : Takes host T k a b)
    (h₂ : Performs host T X home b stop n res) : Performs host T X home a stop (n + 1) res := by
  match res, h₂ with
  | none, ⟨c, l, hrun, hle⟩ => exact ⟨c, k + l, h₁.trans hrun, by omega⟩
  | some (.done ρ), ⟨c, l, hrun, hip, hshow⟩ => exact ⟨c, k + l, h₁.trans hrun, hip, hshow⟩
  | some (.stopped f), h => exact Faults.after h₁ h

/-- What one stretch of code brings about, and what comes after it. -/
theorem bind (hTU : ∀ r, T r → U r) (h₁ : Performs host T X home a stop n res)
    {κ : Stmt.Env → Option Stmt.Outcome}
    (h₂ : ∀ b k ρ, Takes host T k a b → b.ip = stop → Shows X home b ρ →
      Performs host U X home b stop' n (κ ρ)) :
    Performs host U X home a stop' n (Stmt.andThen res κ) := by
  match res, h₁ with
  | none, ⟨c, l, hrun, hle⟩ => exact ⟨c, l, hrun.mono hTU, hle⟩
  | some (.done ρ), ⟨c, l, hrun, hip, hshow⟩ =>
    exact after (hrun.mono hTU) (h₂ c l ρ hrun hip hshow)
  | some (.stopped f), h => exact Faults.mono h hTU

end Performs

/-! ## Expressions -/

variable {st s : CompilerState} {e : Expr} {dst : ℕ}

/-- Only whether a variable of the expression is one of the register's matters. -/
theorem inPlace_congr {own own' : List UInt8 → Prop} (h : ∀ x ∈ e.vars, own x ↔ own' x)
    (hin : e.InPlace own) : e.InPlace own' := by
  have hown : ∀ {c : Expr}, (∀ x ∈ c.vars, own x ↔ own' x) → c.IsOwn own → c.IsOwn own' := by
    intro c
    induction c with
    | var x => exact fun h => (h x (List.mem_singleton_self x)).mp
    | paren c ih => exact ih
    | _ => exact fun _ h => h
  have havoid : ∀ {c : Expr}, (∀ x ∈ c.vars, own x ↔ own' x) → c.Avoids own → c.Avoids own' :=
    fun h hc x hx hx' => hc x hx ((h x hx).mpr hx')
  induction e with
  | paren e ih => exact ih h hin
  | cond c a b ihc iha ihb =>
    simp only [Expr.vars, List.mem_append] at h
    have hc : ∀ x ∈ c.vars, own x ↔ own' x := fun x hx => h x (.inl (.inl hx))
    have ha : ∀ x ∈ a.vars, own x ↔ own' x := fun x hx => h x (.inl (.inr hx))
    have hb : ∀ x ∈ b.vars, own x ↔ own' x := fun x hx => h x (.inr hx)
    exact ⟨ihc hc hin.1, hin.2.1.imp (hown hc) (And.imp (havoid ha) (havoid hb)),
      iha ha hin.2.2.1, ihb hb hin.2.2.2⟩
  | bin op a b iha ihb =>
    simp only [Expr.vars, List.mem_append] at h
    have ha : ∀ x ∈ a.vars, own x ↔ own' x := fun x hx => h x (.inl hx)
    have hb : ∀ x ∈ b.vars, own x ↔ own' x := fun x hx => h x (.inr hx)
    exact ⟨iha ha hin.1, hin.2.imp (hown ha) (Or.imp_right (havoid hb))⟩
  | _ => trivial

/-- Code for an expression, with the variables in registers. -/
theorem expr_performs {κ : Word64 → Option Stmt.Outcome} (hc : Compiled e dst none st s)
    (hplace : ∀ x ∈ e.vars, s.place x = some (.reg (home x))) (hvars : ∀ x ∈ e.vars, x ∈ X)
    (hhome : Homes X home (scratch st s)) (hdst : dst < 20) (hnot : dst ∉ scratch st s)
    (hin : e.InPlace (fun x => home x = dst)) (hvm : Holds vm st s) (hip : vm.ip = st.code.length)
    (hshow : Shows X home vm ρ) (hT : ∀ r, r = dst ∨ r ∈ scratch st s → T r)
    (hnext : ∀ b k, Takes host (fun r => r = dst ∨ r ∈ scratch st s) k vm b →
      b.ip = s.code.length → ∀ v, b.regs dst = v → e.eval vm.getStrBytes ρ = some v →
      Performs host T X home b stop n (κ v)) :
    Performs host T X home vm stop n (Stmt.withValue (e.eval vm.getStrBytes ρ) κ) := by
  have hapart : Apart (fun x => .reg (home x)) (scratch st s) dst e := by
    refine ⟨hdst, hnot, fun x hx => hhome.lt x (hvars x hx), fun x hx r hr heq => ?_, ?_⟩
    · exact hhome.notMem x (hvars x hx) (by rw [Place.reg.inj heq]; exact hr)
    · exact inPlace_congr (fun x _ => ⟨congrArg Place.reg, Place.reg.inj⟩) hin
  have hval : valueAt (fun x => .reg (home x)) vm e = e.eval vm.getStrBytes ρ :=
    Expr.eval_congr fun x hx => hshow x (hvars x hx)
  have hrun := hc.runs host vm (fun x => .reg (home x)) hplace hvm hip hapart
  rw [does_none, hval] at hrun
  cases hx : e.eval vm.getStrBytes ρ with
  | none =>
    rw [hx] at hrun
    obtain ⟨b, r, hpass, -, hf, hcode⟩ := hrun.stops
    obtain ⟨k, hk⟩ := Takes.of_passes hpass
    exact ⟨b, k, r, hk.mono hT, hf, hcode⟩
  | some v =>
    rw [hx] at hrun
    obtain ⟨b, hpass, hip', hreg⟩ := hrun
    obtain ⟨k, hk⟩ := Takes.of_passes hpass
    exact .after (hk.mono hT) (hnext b k hk hip' v hreg hx)

/-- Variables whose registers are not written keep their values. -/
theorem Shows.takes (h : Shows X home vm ρ) (hrun : Takes host T k vm vm')
    (hT : ∀ x ∈ X, ¬ T (home x)) : Shows X home vm' ρ :=
  fun x hx => (hrun.frame (home x) (hT x hx)).trans (h x hx)

/-- One variable got a new value. -/
theorem Shows.update {x : List UInt8} (h : Shows X home vm ρ)
    (hrest : ∀ y ∈ X, y ≠ x → vm'.regs (home y) = vm.regs (home y)) :
    Shows X home vm' (Function.update ρ x (vm'.regs (home x))) := by
  intro y hy
  by_cases hyx : y = x
  · rw [hyx, Function.update_self]
  · rw [Function.update_of_ne hyx, hrest y hy hyx]
    exact h y hy

end Compiler

end LatencyOS
