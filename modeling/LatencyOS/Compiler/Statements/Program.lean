import LatencyOS.Compiler.Discipline.Compile
import LatencyOS.Compiler.Places
import LatencyOS.Compiler.Statements.Works
import LatencyOS.Container

/-!
# Programs of integer statements

A source that is a list of integer statements is compiled to a program that does what the source
says.  On any machine the program ends with the values of the source's variables in their
registers, or it stops where the source does, at a division by zero or a failed assertion, or the
step limit cuts it off; and with enough steps it is cut off only where the source has no end.
-/

namespace LatencyOS

open CompilerState PX64VM

namespace Compiler

variable {checks : Bool} {fuel : ℕ} {src : List UInt8} {tokens : List Token}
  {st st' t : CompilerState} {s : Stmt} {x : List UInt8} {u : Unit}

/-- The tokens of a source are a list of statements. -/
def IsProgram (checks : Bool) (src : List UInt8) (s : Stmt) : Prop :=
  ∃ tokens j, Lexer.tokenize src checks maxTokens = .ok tokens ∧
    StmtSyn (CompilerState.new src tokens checks).tok (CompilerState.new src tokens checks).text?
      .many 0 s j ∧ ((CompilerState.new src tokens checks).tok j).kind = .eof

/-- No variable is spilled, and the registers of the variables are apart from the temporaries: so
they are with seven variables, and with more when the statements take fewer temporaries. -/
structure Roomy (s : Stmt) (st : CompilerState) : Prop where
  unspilled : st.spillCount = 0
  apart : st.varCount ≤ 7 ∨ st.varCount + s.temps ≤ 15

/-- What the compiler made of a program: the code of its statements and an instruction that
halts. -/
structure Built (checks : Bool) (src : List UInt8) (s : Stmt) (start t st : CompilerState) :
    Prop where
  begins : start.code = [] ∧ start.constPool = [] ∧ start.tempUsed = fun _ => false
  code : StmtCode s start t
  halt : st.code = t.code ++ instBytes .halt 0 0 0
  consts : st.constPool = t.constPool
  place : ∀ x, st.place x = t.place x
  count : st.varCount = t.varCount
  simple : Simple t
  reached : Reached checks src t

theorem checkConsumed_yields (h : Yields checkConsumed st u st') : st' = st := by
  simp only [checkConsumed, yields_bind, yields_handleStates] at h
  obtain ⟨_, _, ⟨rfl, rfl⟩, h⟩ := h
  split at h
  · exact (yields_pure.mp h).2
  · cases h

theorem built_of_compileState (hsrc : IsProgram checks src s) (hnamed : ∀ x ∈ s.vars, Named x)
    (hz : st.spillCount = 0) (h : compileState checks fuel src = .ok st) :
    ∃ start t, Built checks src s start t st := by
  obtain ⟨tokens, j, htokens, hsyn, hj⟩ := hsrc
  obtain ⟨tokens', htokens', hrun⟩ := compileState_eq_ok h
  obtain rfl : tokens = tokens' := Except.ok.inj (htokens.symm.trans htokens')
  have hstart := Reached.start htokens
  have hy : Yields (compile (recN fuel fuel)) (CompilerState.new src tokens checks) () st := hrun
  simp only [compile, yields_bind, yields_emit, yields_get, yields_require, modifyDecls] at hy
  obtain ⟨_, _, hstat, _, t, hcheck, _, _, ⟨hroom, rfl⟩, _, _, ⟨rfl, rfl⟩, _, _,
    ⟨_, _, ⟨rfl, rfl⟩, hset⟩, -, rfl⟩ := hy
  obtain rfl := checkConsumed_yields hcheck
  cases hset
  have hat : At (CompilerState.new src tokens checks).tok
      (CompilerState.new src tokens checks).text? 0 (CompilerState.new src tokens checks) :=
    ⟨rfl, rfl, rfl, hstart.fits⟩
  have hz' : t.spillCount = 0 := hz
  rw [statements] at hstat
  have hcomp :=
    works_of_stmtSyn hsyn hat (.new src tokens checks) hnamed hz' (.inr rfl) (.inl hj) hstat
  exact ⟨_, _, ⟨rfl, rfl, rfl⟩, hcomp.code, rfl, rfl, fun _ => rfl, rfl, hcomp.simple,
    hstart.of_yields hstat⟩

/-! ## Registers -/

/-- The register of a variable. -/
def homeOf (st : CompilerState) (x : List UInt8) : ℕ := (st.regOf x).getD 0

section Registers

variable {start : CompilerState} (hb : Built checks src s start t st) (hroom : Roomy s st)
  (hnamed : ∀ x ∈ s.vars, Named x)

include hb hnamed

/-- A variable is in the table, below the thirteenth entry, and lives in the register of its
entry. -/
theorem Built.entry (hx : x ∈ s.vars) : ∃ i < t.varCount, i < 13 ∧ (t.vars i).name = x ∧
    t.place x = some (.reg (1 + i)) ∧ homeOf t x = 1 + i := by
  have hspill := hb.simple.spillOf x
  have hknown := hb.code.known x hx
  have hparam : t.paramReg x = none := by simp [CompilerState.paramReg, hb.simple.currentFn]
  have hreg : t.regOf x = (t.findVar x).map fun i => (t.vars i).reg := by
    rw [regOf, (hnamed x hx).2, hparam]
  rw [CompilerState.place, hspill, Option.isSome_map, hreg, Option.isSome_map] at hknown
  obtain ⟨i, hi⟩ := Option.isSome_iff_exists.mp hknown
  obtain ⟨hname, hlt, -⟩ := List.find?_range_eq_some.mp hi
  rw [List.mem_range] at hlt
  have h13 : i < 13 := by
    by_contra hge
    have hsp := hb.reached.slotsPlaced.high i hlt (Nat.not_lt.mp hge)
    rw [(hb.simple.vars i).2] at hsp
    cases hsp
  have hhome : (t.vars i).reg = 1 + i := by
    rw [hb.reached.varsPlaced.reg_eq i hlt, varHome, if_pos h13]
  refine ⟨i, hlt, h13, eq_of_beq hname, ?_, ?_⟩
  · rw [CompilerState.place, hspill, hreg, hi, Option.map_some, hhome]
    rfl
  · rw [homeOf, hreg, hi, Option.map_some, hhome]
    rfl

include hroom

theorem Built.homes : Homes s.vars (homeOf t) (scratch start t) := by
  refine ⟨fun x hx => ?_, fun x hx => ?_, fun x hx hmem => ?_, fun x hx y hy heq => ?_⟩
  · obtain ⟨i, -, -, -, -, hhome⟩ := hb.entry hnamed hx
    omega
  · obtain ⟨i, -, h13, -, -, hhome⟩ := hb.entry hnamed hx
    omega
  · obtain ⟨i, hlt, -, -, -, hhome⟩ := hb.entry hnamed hx
    obtain ⟨hfree, hcount⟩ := hb.code.reaches _ hmem
    have hlow := hfree.1
    have hall : (List.range (15 - homeOf t x)).countP (fun i => !start.tempUsed i) =
        15 - homeOf t x := by
      rw [hb.begins.2.2]
      exact (List.countP_eq_length.mpr fun _ _ => rfl).trans List.length_range
    have hapart := hroom.apart
    rw [hb.count] at hapart
    omega
  · obtain ⟨i, -, -, hname, -, hhome⟩ := hb.entry hnamed hx
    obtain ⟨k, -, -, hname', -, hhome'⟩ := hb.entry hnamed hy
    obtain rfl : i = k := by omega
    exact hname.symm.trans hname'

end Registers

/-! ## Runs -/

/-- The machine of a program, with a step limit. -/
def machine (st : CompilerState) (args : List (List UInt8)) (limit : ℕ) : PX64VM :=
  { st.program.start args with maxSteps := limit }

/-- The run of a program ends as its source does. -/
def EndsAs (st : CompilerState) (s : Stmt) (r : Stop × PX64VM) : Stmt.Outcome → Prop
  | .done ρ => r.1 = .ok ∧ r.2.output = [] ∧ ∀ x ∈ s.vars, st.read r.2 x = some (ρ x)
  | .stopped f => stopCode r.1 = some (faultCode f)

section Runs

variable (host : Host) (args : List (List UInt8)) (limit : ℕ) {n : ℕ} {start : CompilerState}
  (hb : Built checks src s start t st) (hroom : Roomy s st) (hnamed : ∀ x ∈ s.vars, Named x)

include hb in
theorem Built.fetch_halt {vm : PX64VM} (hcore : vm.core = (machine st args limit).core)
    (hip : vm.ip = t.code.length) : vm.ip + 4 ≤ vm.code.length ∧
      vm.fetch host = .error (.ok, vm.advance) := by
  have hcode : vm.code = st.code := eq_of_core PX64VM.code (fun _ => rfl) hcore
  have hinst : vm.InstAt vm.ip .halt 0 0 0 := by
    intro i _
    rw [hcode, hip, hb.halt, List.getElem?_append_right (Nat.le_add_right ..),
      Nat.add_sub_cancel_left]
  refine ⟨?_, hinst.fetch_eq (by decide) (by decide) (by decide) host⟩
  rw [hcode, hip, hb.halt, List.length_append]
  rfl

include hb hroom hnamed

/-- The program does what the source does. -/
theorem Built.performs (hin : s.InPlace) : Performs host
    (Touched s.vars (homeOf t) (scratch start t)) s.vars (homeOf t) (machine st args limit)
    t.code.length n (s.exec (machine st args limit).getStrBytes n fun _ => 0#64) := by
  refine hb.code.runs n ⟨fun x hx => ?_, fun x hx => hx, hb.homes hroom hnamed,
    ⟨fun i _ hi => ?_, ?_⟩, ?_, fun x _ => rfl⟩ hin
  · obtain ⟨i, -, -, -, hplace, hhome⟩ := hb.entry hnamed hx
    rw [hplace, hhome]
  · change st.code[i]? = _
    rw [hb.halt, List.getElem?_append_left hi]
  · change t.constPool <+: st.constPool
    rewrite [hb.consts]
    exact List.prefix_rfl
  · rw [hb.begins.1]
    rfl

/-- Where the source ends, the machine is at an instruction that stops it as the source is. -/
theorem Built.ends (hin : s.InPlace) {o : Stmt.Outcome}
    (ho : s.exec (machine st args limit).getStrBytes n (fun _ => 0#64) = some o) :
    ∃ vm k r, Takes host (Touched s.vars (homeOf t) (scratch start t)) k
        (machine st args limit) vm ∧
      vm.ip + 4 ≤ vm.code.length ∧ vm.fetch host = .error r ∧ EndsAs st s r o := by
  have hrun := hb.performs host args limit (n := n) hroom hnamed hin
  rw [ho] at hrun
  cases o with
  | done ρ =>
    obtain ⟨vm, k, hk, hip, hshow⟩ := hrun
    obtain ⟨hlen, hfetch⟩ := hb.fetch_halt host args limit hk.core hip
    refine ⟨vm, k, _, hk, hlen, hfetch, rfl, hk.output, fun x hx => ?_⟩
    obtain ⟨i, -, -, -, hplace, hhome⟩ := hb.entry hnamed hx
    rw [CompilerState.read, hb.place, hplace, ← hshow x hx, hhome]
    rfl
  | stopped f =>
    obtain ⟨vm, k, r, hk, hfetch, hcode⟩ := hrun
    refine ⟨vm, k, r, hk, ?_, hfetch, hcode⟩
    by_contra hout
    rw [fetch, if_neg hout] at hfetch
    cases hfetch
    cases hcode

end Runs

/-- The run of a program whose source is made of integer statements: it ends as the source does, or
the step limit cuts it off after exactly so many steps. -/
theorem compileState_runs (hsrc : IsProgram checks src s)
    (hst : compileState checks fuel src = .ok st) (hnamed : ∀ x ∈ s.vars, Named x)
    (hin : s.InPlace) (hroom : Roomy s st) (host : Host) (args : List (List UInt8)) (limit : ℕ) :
    ∃ r, runWithOutput host (limit + 1) (machine st args limit) = some r ∧
      ((∃ o, s.Ends (machine st args limit).getStrBytes (fun _ => 0#64) o ∧ EndsAs st s r o) ∨
        r.1 = wcetExceeded ∧ r.2.steps = limit) := by
  obtain ⟨start, t, hb⟩ := built_of_compileState hsrc hnamed hroom.unspilled hst
  have hle : (machine st args limit).steps ≤ (machine st args limit).maxSteps := Nat.zero_le limit
  have hcut : CutOff host (machine st args limit) →
      ∃ r, runWithOutput host (limit + 1) (machine st args limit) = some r ∧
        ((∃ o, s.Ends (machine st args limit).getStrBytes (fun _ => 0#64) o ∧ EndsAs st s r o) ∨
          r.1 = wcetExceeded ∧ r.2.steps = limit) := by
    rintro ⟨vm, hrun, hsteps, hstep⟩
    exact ⟨_, Machine.run_of_iter _ hrun hstep (Nat.lt_succ_self limit), .inr ⟨rfl, hsteps⟩⟩
  cases ho : s.exec (machine st args limit).getStrBytes (limit + 1) (fun _ => 0#64) with
  | none =>
    -- more turns than steps
    have hrun := hb.performs host args limit (n := limit + 1) hroom hnamed hin
    rw [ho] at hrun
    obtain ⟨vm, k, hk, hlt⟩ := hrun
    refine hcut (hk.cutOff hle ?_)
    change limit < 0 + k
    omega
  | some o =>
    obtain ⟨vm, k, r, hk, hlen, hfetch, hends⟩ := hb.ends host args limit hroom hnamed hin ho
    rcases hk.stops hle hlen hfetch with h | ⟨hrun, hstep⟩
    · exact hcut h
    by_cases hlt : limit < k
    · refine hcut (hk.cutOff hle ?_)
      change limit < 0 + k
      omega
    · exact ⟨r, Machine.run_of_iter _ hrun hstep (by omega), .inl ⟨o, ⟨_, ho⟩, hends⟩⟩

/-- A loop that counts a variable up. -/
def countUp : List UInt8 := bytes "while $i < 3 { $i += 1; }"

/-- The statement it is. -/
def countUpStmt : Stmt :=
  .seq (.loop (.bin .lt (.var (bytes "$i")) (.num 3#64))
    (.seq (.update (bytes "$i") true (.num 1#64)) .skip)) .skip

/-- The state in which the compiler finishes it. -/
def countUpState : CompilerState :=
  match compileState true 40 countUp with
  | .ok st => st
  | .error _ => CompilerState.new [] [] true

theorem countUp_compiles : compileState true 40 countUp = .ok countUpState := by
  have hok : (compileState true 40 countUp).isOk = true := by decide +kernel
  rw [countUpState]
  cases hst : compileState true 40 countUp with
  | error e =>
    rw [hst] at hok
    cases hok
  | ok st => rfl

/-- The tokens of such a loop are one. -/
theorem syn_countUp {tok : ℕ → Token} {name : Token → Option (List UInt8)}
    (h : (tok 0).kind = .while ∧ (tok 1).kind = .varIdent ∧ (tok 2).kind = .lt ∧
      (tok 3).kind = .number 3#64 ∧ (tok 4).kind = .lBrace ∧ (tok 5).kind = .varIdent ∧
      (tok 6).kind = .plusEq ∧ (tok 7).kind = .number 1#64 ∧ (tok 8).kind = .semi ∧
      (tok 9).kind = .rBrace ∧ (tok 10).kind = .eof)
    (h₁ : name (tok 1) = some (bytes "$i")) (h₅ : name (tok 5) = some (bytes "$i")) :
    StmtSyn tok name .many 0 countUpStmt 10 := by
  obtain ⟨k₀, k₁, k₂, k₃, k₄, k₅, k₆, k₇, k₈, k₉, k₁₀⟩ := h
  have hvar : Syn tok name 0 1 (.var (bytes "$i")) 2 :=
    .var k₁ h₁ (by rw [k₂]; exact TokenKind.noConfusion) (by rw [k₂]; exact TokenKind.noConfusion)
  have hlt : (tok 2).kind = BinOp.lt.kind := k₂
  have hless : Syn tok name 7 1 (.bin .lt (.var (bytes "$i")) (.num 3#64)) 4 :=
    .bin (hvar.lift (by decide) (by decide)) hlt (Syn.lift (.num k₃) (by decide) (by decide))
  have hcond : Guarded tok name 1 (.bin .lt (.var (bytes "$i")) (.num 3#64)) 4 := by
    refine .bare (by rw [k₁]; exact TokenKind.noConfusion) (hless.lift (by decide) (by decide))
      ?_ (by rw [k₄]; exact TokenKind.noConfusion)
    rw [k₄]
    exact ⟨fun op _ => by cases op <;> exact TokenKind.noConfusion, TokenKind.noConfusion,
      TokenKind.noConfusion⟩
  have hbody : StmtSyn tok name .many 5 (.seq (.update (bytes "$i") true (.num 1#64)) .skip) 9 :=
    .cons (by rw [k₅]; exact TokenKind.noConfusion) (by rw [k₅]; exact TokenKind.noConfusion)
      (.update k₅ h₅ k₆ (Syn.lift (.num k₇) (by decide) (by decide)) k₈) (.nil (.inl k₉))
  exact .cons (by rw [k₀]; exact TokenKind.noConfusion) (by rw [k₀]; exact TokenKind.noConfusion)
    (.loop (.inr k₀) hcond k₄ hbody k₉) (.nil (.inr k₁₀))

/-- The tokens of a source. -/
def tokensOf (src : List UInt8) : List Token :=
  match Lexer.tokenize src true maxTokens with
  | .ok tokens => tokens
  | .error _ => []

theorem countUp_isProgram : IsProgram true countUp countUpStmt := by
  have htokens : Lexer.tokenize countUp true maxTokens = .ok (tokensOf countUp) := by
    have hok : (Lexer.tokenize countUp true maxTokens).isOk = true := by decide +kernel
    rw [tokensOf]
    cases h : Lexer.tokenize countUp true maxTokens with
    | error e =>
      rw [h] at hok
      cases hok
    | ok tokens => rfl
  exact ⟨_, 10, htokens, syn_countUp (by decide +kernel) (by decide +kernel) (by decide +kernel),
    by decide +kernel⟩

theorem countUp_named : ∀ x ∈ countUpStmt.vars, Named x := by
  intro x hx
  obtain rfl : x = bytes "$i" := by simpa [countUpStmt, Stmt.vars, Expr.vars] using hx
  exact ⟨by decide, by decide +kernel⟩

theorem countUp_roomy : Roomy countUpStmt countUpState :=
  ⟨by decide +kernel, .inl (by decide +kernel)⟩

theorem countUp_runs : ∃ r,
    runWithOutput silentHost (maxVmSteps + 1) (machine countUpState [] maxVmSteps) = some r ∧
      ((∃ o, countUpStmt.Ends (machine countUpState [] maxVmSteps).getStrBytes (fun _ => 0#64) o ∧
          EndsAs countUpState countUpStmt r o) ∨
        r.1 = wcetExceeded ∧ r.2.steps = maxVmSteps) :=
  compileState_runs countUp_isProgram countUp_compiles countUp_named ⟨⟨trivial, trivial⟩, trivial⟩
    countUp_roomy silentHost [] maxVmSteps

/-- The step limit aside, the run of the program comes to an end exactly when the source does. -/
theorem compileState_halts_iff (hsrc : IsProgram checks src s)
    (hst : compileState checks fuel src = .ok st) (hnamed : ∀ x ∈ s.vars, Named x)
    (hin : s.InPlace) (hroom : Roomy s st) (host : Host) (args : List (List UInt8)) :
    (∃ n r, Machine.run (fetch host) n (st.program.start args) = some r) ↔
      ∃ o, s.Ends (st.program.start args).getStrBytes (fun _ => 0#64) o := by
  obtain ⟨start, t, hb⟩ := built_of_compileState hsrc hnamed hroom.unspilled hst
  constructor
  · rintro ⟨n, r, hr⟩
    by_contra hnone
    have ho : s.exec (st.program.start args).getStrBytes n (fun _ => 0#64) = none := by
      by_contra hne
      obtain ⟨o, ho⟩ := Option.ne_none_iff_exists'.mp hne
      exact hnone ⟨o, n, ho⟩
    obtain ⟨vm, k, hk, hle⟩ : Performs host (Touched s.vars (homeOf t) (scratch start t)) s.vars
        (homeOf t) (st.program.start args) t.code.length n none :=
      ho ▸ hb.performs host args maxVmSteps hroom hnamed hin
    obtain ⟨u, hu, -⟩ := hk.steps n hle
    rw [Machine.run, hu] at hr
    cases hr
  · rintro ⟨o, n, ho⟩
    obtain ⟨vm, k, r, hk, -, hfetch, -⟩ :=
      hb.ends host args maxVmSteps hroom hnamed hin ho
    exact ⟨k + 1, r, Machine.run_of_iter _ hk.last hfetch (Nat.lt_succ_self k)⟩

theorem countUp_halts_iff :
    (∃ n r, Machine.run (fetch silentHost) n (countUpState.program.start []) = some r) ↔
      ∃ o, countUpStmt.Ends (countUpState.program.start []).getStrBytes (fun _ => 0#64) o :=
  compileState_halts_iff countUp_isProgram countUp_compiles countUp_named
    ⟨⟨trivial, trivial⟩, trivial⟩ countUp_roomy silentHost []

end Compiler

end LatencyOS
