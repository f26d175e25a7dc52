import LatencyOS.Compiler.FrontEnd
import LatencyOS.Intent.Build

/-!
# The arithmetic of the intent IR

The budgets a script declares decide whether its IR is built without overflow; where it is, the sums
and the summary are what they should be.
-/

namespace LatencyOS

open Format

namespace Intent

/-! ## What a script declares -/

/-- The budgets that arithmetic is done on. -/
inductive Declaration
  | pipeline (budgets : List ℕ)
  | task (budget : ℕ)
  deriving DecidableEq

/-- Eight times each budget of a stage, the sum over a pipeline and seven times the budget of a task
fit 64 bits. -/
def Declaration.Fits : Declaration → Prop
  | pipeline budgets => (∀ b ∈ budgets, b * 8 < 2 ^ 64) ∧ budgets.sum < 2 ^ 64
  | task budget => budget * 7 < 2 ^ 64

instance (d : Declaration) : Decidable d.Fits := by
  cases d
  · exact inferInstanceAs (Decidable (_ ∧ _))
  · exact inferInstanceAs (Decidable (_ < _))

/-- The budgets of the stages of a pipeline, and what is behind them, unless there is an error. -/
def declaredStages (src : Str) : ℕ → List Token → List ℕ × Option (List Token)
  | 0, rest => ([], some rest)
  | _, [] => ([], some [])
  | n + 1, tok :: rest =>
    if tok.kind = .rBrace then ([], some (tok :: rest))
    else if tok.kind = .stage then
      match stageHeader src rest with
      | .error _ => ([], none)
      | .ok (_, rest) =>
        let (f, rest) := stageFields src .default rest
        let (budgets, after) := declaredStages src n (skipBrace rest)
        (f.budgetNs :: budgets, after)
    else declaredStages src n rest

/-- What a script declares up to its first error. -/
def declarations (src : Str) : ℕ → List Token → List Declaration
  | 0, _ => []
  | _, [] => []
  | n + 1, tok :: rest =>
    if tok.kind = .pipeline then
      match pipelineHeader src rest with
      | .error _ => []
      | .ok (_, rest) =>
        let (budgets, after) := declaredStages src n rest
        .pipeline budgets :: (match after with
          | none => []
          | some rest => declarations src n (skipBrace rest))
    else if tok.kind = .task then
      match taskHeader src rest with
      | .error _ => []
      | .ok (_, rest) =>
        let (f, rest) := taskFields src .default rest
        .task f.budget :: declarations src n (skipBrace rest)
    else if tok.kind = .fn then declarations src n (rest.drop 1)
    else declarations src n rest

/-! ## Pipelines -/

theorem wrapU64_of_lt {checks : Bool} {n : ℕ} (h : n < 2 ^ 64) : wrapU64 checks n = .ok n :=
  if_pos h

theorem wrapU64_of_le {n : ℕ} (h : 2 ^ 64 ≤ n) : wrapU64 true n = .error .panic :=
  if_neg (Nat.not_lt.mpr h)

/-- The errors of a header are reported. -/
theorem header_error {src : Str} {code nameMessage braceMessage : String} {toks : List Token}
    {a : Abort} (h : header src code nameMessage braceMessage toks = .error a) :
    ∃ e, a = .error e := by
  unfold header at h
  split at h
  · cases h
    exact ⟨_, rfl⟩
  · split at h
    · cases h
      exact ⟨_, rfl⟩
    · split at h
      · cases h
        exact ⟨_, rfl⟩
      · split at h
        · cases h
          exact ⟨_, rfl⟩
        · cases h

/-- The sums are those over the stages. -/
structure Stages.Exact (acc : Stages) : Prop where
  budget : acc.totalBudget = (acc.stages.map (·.budgetNs)).sum
  wcet : acc.totalWcet = (acc.stages.map (·.wcetNs)).sum
  le : acc.totalWcet ≤ acc.totalBudget

/-- A stage added with exact arithmetic. -/
def Stages.addExact (acc : Stages) (name : Str) (f : StageFields) : Stages where
  stages := acc.stages ++ [⟨name, f.core, f.budgetNs, f.budgetNs * 8 / 10, f.zeroCopy, f.input,
    f.output, f.hardware, f.memoryDomain⟩]
  totalBudget := acc.totalBudget + f.budgetNs
  totalWcet := acc.totalWcet + f.budgetNs * 8 / 10

theorem Stages.Exact.addExact {acc : Stages} (h : acc.Exact) (name : Str) (f : StageFields) :
    (acc.addExact name f).Exact where
  budget := by simp [Stages.addExact, h.budget]
  wcet := by simp [Stages.addExact, h.wcet]
  le := by
    have hle := h.le
    dsimp only [Stages.addExact]
    omega

/-- A stage whose budget fits is added exactly. -/
theorem Stages.add_of_fits (checks : Bool) {acc : Stages} (name : Str) {f : StageFields}
    (hacc : acc.Exact) (hscaled : f.budgetNs * 8 < 2 ^ 64)
    (hsum : acc.totalBudget + f.budgetNs < 2 ^ 64) :
    acc.add checks name f = .ok (acc.addExact name f) := by
  have hle := hacc.le
  have hwcet : acc.totalWcet + f.budgetNs * 8 / 10 < 2 ^ 64 := by omega
  rw [Stages.add, wrapU64_of_lt hscaled, wrapU64_of_lt hsum]
  dsimp only [bind, Except.bind]
  rw [wrapU64_of_lt hwcet]
  rfl

/-- Any other stage is refused by checked arithmetic. -/
theorem Stages.add_panics {acc : Stages} {name : Str} {f : StageFields}
    (h : ¬ (f.budgetNs * 8 < 2 ^ 64 ∧ acc.totalBudget + f.budgetNs < 2 ^ 64)) :
    acc.add true name f = .error .panic := by
  rw [Stages.add]
  by_cases hscaled : f.budgetNs * 8 < 2 ^ 64
  · have hsum := Nat.not_lt.mp fun hlt => h ⟨hscaled, hlt⟩
    rw [wrapU64_of_lt hscaled, wrapU64_of_le hsum]
    rfl
  · rw [wrapU64_of_le (Nat.not_lt.mp hscaled)]
    rfl

/-- The budgets ahead fit behind those already summed up. -/
def FitsBehind (total : ℕ) (budgets : List ℕ) : Prop :=
  (∀ b ∈ budgets, b * 8 < 2 ^ 64) ∧ total + budgets.sum < 2 ^ 64

theorem fitsBehind_nil {total : ℕ} (h : total < 2 ^ 64) : FitsBehind total [] := ⟨by simp, h⟩

theorem fitsBehind_cons_iff {total b : ℕ} {budgets : List ℕ} :
    FitsBehind total (b :: budgets) ↔
      (b * 8 < 2 ^ 64 ∧ total + b < 2 ^ 64) ∧ FitsBehind (total + b) budgets := by
  simp only [FitsBehind, List.forall_mem_cons, List.sum_cons, ← Nat.add_assoc]
  constructor
  · rintro ⟨⟨hb, hall⟩, hsum⟩
    exact ⟨⟨hb, by omega⟩, hall, hsum⟩
  · rintro ⟨⟨hb, -⟩, hall, hsum⟩
    exact ⟨⟨hb, hall⟩, hsum⟩

variable {src : Str}

/-- A body whose budgets fit is read, or has an error, and its sums are exact. -/
theorem pipelineBody_of_fits (checks : Bool) {n : ℕ} {toks : List Token} {acc : Stages}
    (hacc : acc.Exact) (hfits : FitsBehind acc.totalBudget (declaredStages src n toks).1) :
    (∀ rest, (declaredStages src n toks).2 = some rest →
      ∃ acc', pipelineBody checks src n toks acc = .ok (acc', rest) ∧ acc'.Exact) ∧
    ((declaredStages src n toks).2 = none →
      ∃ e, pipelineBody checks src n toks acc = .error (.error e)) := by
  induction n generalizing toks acc with
  | zero =>
    refine ⟨fun rest hrest => ?_, fun hrest => ?_⟩
    · cases hrest
      exact ⟨acc, rfl, hacc⟩
    · cases hrest
  | succ n ih =>
    cases toks with
    | nil =>
      refine ⟨fun rest hrest => ?_, fun hrest => ?_⟩
      · cases hrest
        exact ⟨acc, rfl, hacc⟩
      · cases hrest
    | cons tok rest =>
      simp only [declaredStages, pipelineBody] at hfits ⊢
      by_cases hbrace : tok.kind = .rBrace
      · simp only [hbrace, if_true]
        refine ⟨fun rest hrest => ?_, fun hrest => ?_⟩
        · cases hrest
          exact ⟨acc, rfl, hacc⟩
        · cases hrest
      · by_cases hstage : tok.kind = .stage
        · simp only [if_neg hbrace, if_pos hstage] at hfits ⊢
          cases hheader : stageHeader src rest with
          | error a =>
            obtain ⟨e, rfl⟩ := header_error hheader
            refine ⟨fun rest hrest => ?_, fun _ => ⟨e, rfl⟩⟩
            cases hrest
          | ok r =>
            obtain ⟨name, rest⟩ := r
            rw [hheader] at hfits
            obtain ⟨hhead, htail⟩ := fitsBehind_cons_iff.mp hfits
            have hadd := Stages.add_of_fits checks name hacc hhead.1 hhead.2
            dsimp only [bind, Except.bind]
            rw [hadd]
            exact ih (hacc.addExact name _) htail
        · simp only [if_neg hbrace, if_neg hstage] at hfits ⊢
          exact ih hacc hfits

/-- Any other body makes checked arithmetic panic. -/
theorem pipelineBody_panics {n : ℕ} {toks : List Token} {acc : Stages} (hacc : acc.Exact)
    (hlow : acc.totalBudget < 2 ^ 64)
    (hfits : ¬ FitsBehind acc.totalBudget (declaredStages src n toks).1) :
    pipelineBody true src n toks acc = .error .panic := by
  have hnil := fitsBehind_nil hlow
  induction n generalizing toks acc with
  | zero => exact absurd hnil hfits
  | succ n ih =>
    cases toks with
    | nil => exact absurd hnil hfits
    | cons tok rest =>
      simp only [declaredStages, pipelineBody] at hfits ⊢
      by_cases hbrace : tok.kind = .rBrace
      · simp only [if_pos hbrace] at hfits
        exact absurd hnil hfits
      · by_cases hstage : tok.kind = .stage
        · simp only [if_neg hbrace, if_pos hstage] at hfits ⊢
          cases hheader : stageHeader src rest with
          | error a =>
            rw [hheader] at hfits
            exact absurd hnil hfits
          | ok r =>
            obtain ⟨name, rest⟩ := r
            rw [hheader] at hfits
            dsimp only [bind, Except.bind]
            by_cases hhead : (stageFields src .default rest).1.budgetNs * 8 < 2 ^ 64 ∧
                acc.totalBudget + (stageFields src .default rest).1.budgetNs < 2 ^ 64
            · have hadd := Stages.add_of_fits true name hacc hhead.1 hhead.2
              rw [hadd]
              refine ih (hacc.addExact name _) hhead.2 ?_ (fitsBehind_nil hhead.2)
              exact fun htail => hfits (fitsBehind_cons_iff.mpr ⟨hhead, htail⟩)
            · rw [Stages.add_panics hhead]
        · simp only [if_neg hbrace, if_neg hstage] at hfits ⊢
          exact ih hacc hlow hfits hnil

theorem fits_pipeline_iff {budgets : List ℕ} :
    (Declaration.pipeline budgets).Fits ↔ FitsBehind 0 budgets := by
  simp only [Declaration.Fits, FitsBehind, Nat.zero_add]

/-! ## Scripts -/

/-- The totals of a pipeline are the sums over its stages. -/
structure PipelineExact (p : PipelineIr) : Prop where
  budget : p.totalBudgetNs = (p.stages.map (·.budgetNs)).sum
  wcet : p.totalWcetNs = (p.stages.map (·.wcetNs)).sum
  le : p.totalWcetNs ≤ p.totalBudgetNs

/-- Every pipeline picked out so far is exact. -/
def Items.Exact (items : Items) : Prop := ∀ p ∈ items.pipelines, PipelineExact p

theorem Items.Exact.addPipeline {items : Items} (h : items.Exact) {acc : Stages} (hacc : acc.Exact)
    (name : Str) (valid : Bool) :
    Items.Exact { items with
      pipelines :=
        items.pipelines ++ [⟨name, acc.stages, acc.totalBudget, acc.totalWcet, valid⟩] } := by
  intro p hp
  rcases List.mem_append.mp hp with hp | hp
  · exact h p hp
  · rw [List.mem_singleton.mp hp]
    exact ⟨hacc.budget, hacc.wcet, hacc.le⟩

theorem Items.Exact.addFunction {items : Items} (h : items.Exact) (toks : List Token) :
    (items.addFunction src toks).Exact := by
  unfold Items.addFunction
  split
  · split
    · exact h
    · exact h
  · exact h

theorem exact_start : Stages.Exact ⟨[], 0, 0⟩ := ⟨rfl, rfl, Nat.le_refl 0⟩

/-- A script whose budgets fit is read exactly, or has an error. -/
theorem buildLoop_of_fits (checks : Bool) {n : ℕ} {toks : List Token} {items : Items}
    (hitems : items.Exact) (hfits : ∀ d ∈ declarations src n toks, d.Fits) :
    (∃ e, buildLoop checks src n toks items = .error (.error e)) ∨
      ∃ items', buildLoop checks src n toks items = .ok items' ∧ items'.Exact := by
  induction n generalizing toks items with
  | zero => exact .inr ⟨items, rfl, hitems⟩
  | succ n ih =>
    cases toks with
    | nil => exact .inr ⟨items, rfl, hitems⟩
    | cons tok rest =>
      simp only [declarations, buildLoop] at hfits ⊢
      by_cases hpipeline : tok.kind = .pipeline
      · simp only [if_pos hpipeline] at hfits ⊢
        cases hheader : pipelineHeader src rest with
        | error a =>
          obtain ⟨e, rfl⟩ := header_error hheader
          exact .inl ⟨e, rfl⟩
        | ok r =>
          obtain ⟨name, rest⟩ := r
          rw [hheader] at hfits
          dsimp only at hfits
          rw [List.forall_mem_cons, fits_pipeline_iff] at hfits
          obtain ⟨hok, herror⟩ := pipelineBody_of_fits checks exact_start hfits.1
          dsimp only [bind, Except.bind]
          cases hafter : (declaredStages src n rest).2 with
          | none =>
            obtain ⟨e, he⟩ := herror hafter
            rw [he]
            exact .inl ⟨e, rfl⟩
          | some after =>
            obtain ⟨acc, hbody, hacc⟩ := hok after hafter
            rw [hafter] at hfits
            rw [hbody]
            exact ih (hitems.addPipeline hacc name _) hfits.2
      · by_cases htask : tok.kind = .task
        · simp only [if_neg hpipeline, if_pos htask] at hfits ⊢
          cases hheader : taskHeader src rest with
          | error a =>
            obtain ⟨e, rfl⟩ := header_error hheader
            exact .inl ⟨e, rfl⟩
          | ok r =>
            obtain ⟨name, rest⟩ := r
            rw [hheader] at hfits
            dsimp only at hfits
            rw [List.forall_mem_cons] at hfits
            dsimp only [bind, Except.bind]
            rw [finishTask, wrapU64_of_lt hfits.1]
            exact ih hitems hfits.2
        · by_cases hfn : tok.kind = .fn
          · simp only [if_neg hpipeline, if_neg htask, if_pos hfn] at hfits ⊢
            exact ih (hitems.addFunction rest) hfits
          · simp only [if_neg hpipeline, if_neg htask, if_neg hfn] at hfits ⊢
            exact ih hitems hfits

/-- Any other script makes checked arithmetic panic. -/
theorem buildLoop_panics {n : ℕ} {toks : List Token} {items : Items}
    (hfits : ¬ ∀ d ∈ declarations src n toks, d.Fits) :
    buildLoop true src n toks items = .error .panic := by
  induction n generalizing toks items with
  | zero => exact absurd (by simp [declarations]) hfits
  | succ n ih =>
    cases toks with
    | nil => exact absurd (by simp [declarations]) hfits
    | cons tok rest =>
      simp only [declarations, buildLoop] at hfits ⊢
      by_cases hpipeline : tok.kind = .pipeline
      · simp only [if_pos hpipeline] at hfits ⊢
        cases hheader : pipelineHeader src rest with
        | error a =>
          rw [hheader] at hfits
          exact absurd (by simp) hfits
        | ok r =>
          obtain ⟨name, rest⟩ := r
          rw [hheader] at hfits
          dsimp only at hfits
          rw [List.forall_mem_cons, fits_pipeline_iff] at hfits
          dsimp only [bind, Except.bind]
          by_cases hstages : FitsBehind 0 (declaredStages src n rest).1
          · obtain ⟨hok, -⟩ := pipelineBody_of_fits true exact_start hstages
            cases hafter : (declaredStages src n rest).2 with
            | none =>
              rw [hafter] at hfits
              exact absurd ⟨hstages, by simp⟩ hfits
            | some after =>
              obtain ⟨acc, hbody, -⟩ := hok after hafter
              rw [hafter] at hfits
              rw [hbody]
              exact ih fun hrest => hfits ⟨hstages, hrest⟩
          · rw [pipelineBody_panics exact_start (by decide) hstages]
      · by_cases htask : tok.kind = .task
        · simp only [if_neg hpipeline, if_pos htask] at hfits ⊢
          cases hheader : taskHeader src rest with
          | error a =>
            rw [hheader] at hfits
            exact absurd (by simp) hfits
          | ok r =>
            obtain ⟨name, rest⟩ := r
            rw [hheader] at hfits
            dsimp only at hfits
            rw [List.forall_mem_cons] at hfits
            dsimp only [bind, Except.bind]
            rw [finishTask]
            by_cases hbudget : (taskFields src .default rest).1.budget * 7 < 2 ^ 64
            · rw [wrapU64_of_lt hbudget]
              exact ih fun hrest => hfits ⟨hbudget, hrest⟩
            · rw [wrapU64_of_le (Nat.not_lt.mp hbudget)]
              rfl
        · by_cases hfn : tok.kind = .fn
          · simp only [if_neg hpipeline, if_neg htask, if_pos hfn] at hfits ⊢
            exact ih hfits
          · simp only [if_neg hpipeline, if_neg htask, if_neg hfn] at hfits ⊢
            exact ih hfits

/-! ## The summary -/

/-- The totals are sums, the counts of the summary count, and the status says whether every
constraint is satisfied. -/
structure Coherent (ir : IntentIr) : Prop where
  budget : ∀ p ∈ ir.pipelines, p.totalBudgetNs = (p.stages.map (·.budgetNs)).sum
  wcet : ∀ p ∈ ir.pipelines, p.totalWcetNs = (p.stages.map (·.wcetNs)).sum
  total : ir.verification.totalConstraints = ir.constraints.length
  satisfied : ir.verification.satisfiedConstraints = ir.constraints.countP (·.satisfied)
  status : ir.verification.status = text "PASS" ↔ ∀ c ∈ ir.constraints, c.satisfied = true

/-- Exact pipelines satisfy their constraints. -/
theorem satisfied_of_exact {pipelines : List PipelineIr} (h : ∀ p ∈ pipelines, PipelineExact p) :
    ∀ c ∈ constraintsOf pipelines, c.satisfied = true := by
  intro c hc
  obtain ⟨p, hp, hc⟩ := List.mem_flatMap.mp hc
  rcases List.mem_cons.mp hc with rfl | hc
  · exact decide_eq_true (h p hp).le
  · obtain ⟨s, -, rfl⟩ := List.mem_map.mp hc
    rfl

theorem coherent_finish {items : Items} (h : items.Exact) : Coherent (finish items) := by
  have hall := satisfied_of_exact h
  have hcount : (constraintsOf items.pipelines).countP (·.satisfied) =
      (constraintsOf items.pipelines).length := List.countP_eq_length.mpr hall
  refine ⟨fun p hp => (h p hp).budget, fun p hp => (h p hp).wcet, hcount, rfl, ?_⟩
  refine iff_of_true ?_ hall
  simp only [finish, hcount, decide_true, if_true]

/-- No arithmetic overflows, and every IR that is built is coherent. -/
def IntentSound (checks : Bool) (src : Str) : Prop :=
  buildIntentIr true src ≠ .error .panic ∧
    ∀ ir, buildIntentIr checks src = .ok ir → Coherent ir

/-- The time literals of a script and what is computed from its budgets fit 64 bits. -/
def BudgetsFit (src : Str) : Prop :=
  Lexer.AllTokens (Lexer.TimeFits true) (utf8 src) true intentTokenRoom ((utf8 src).length + 1)
      (utf8 src) [] ∧
    ∀ toks, Lexer.tokenize (utf8 src) true intentTokenRoom = .ok toks →
      ∀ d ∈ declarations src toks.length toks, d.Fits

theorem not_panic_of_fits (h : BudgetsFit src) :
    Lexer.tokenize (utf8 src) true intentTokenRoom ≠ .error .panic :=
  fun hpanic => (Lexer.tokenize_eq_panic_iff (by decide)).mp hpanic h.1

/-- Budgets that fit are built into a coherent IR, with and without checks. -/
theorem build_of_fits (h : BudgetsFit src) (checks : Bool) :
    buildIntentIr checks src ≠ .error .panic ∧
      ∀ ir, buildIntentIr checks src = .ok ir → Coherent ir := by
  have hlex : Lexer.tokenize (utf8 src) checks intentTokenRoom =
      Lexer.tokenize (utf8 src) true intentTokenRoom := by
    cases checks with
    | true => rfl
    | false => exact Lexer.tokenize_unchecked (not_panic_of_fits h)
  rw [buildIntentIr, hlex]
  cases htoks : Lexer.tokenize (utf8 src) true intentTokenRoom with
  | error a =>
    refine ⟨fun hpanic => ?_, fun ir hir => ?_⟩
    · have ha : a = .panic := Except.error.inj hpanic
      rw [ha] at htoks
      exact not_panic_of_fits h htoks
    · cases hir
  | ok toks =>
    have hstart : Items.Exact ⟨[], [], []⟩ := fun p hp => by cases hp
    rcases buildLoop_of_fits checks hstart (h.2 toks htoks) with
      ⟨e, he⟩ | ⟨items, hbuilt, hitems⟩
    · dsimp only [bind, Except.bind]
      rw [he]
      refine ⟨fun hpanic => ?_, fun ir hir => ?_⟩
      · cases hpanic
      · cases hir
    · dsimp only [bind, Except.bind]
      rw [hbuilt]
      refine ⟨fun hpanic => ?_, fun ir hir => ?_⟩
      · cases hpanic
      · cases hir
        exact coherent_finish hitems

/-- Otherwise checked arithmetic panics. -/
theorem build_panics (h : ¬ BudgetsFit src) : buildIntentIr true src = .error .panic := by
  rw [buildIntentIr]
  by_cases hliterals : Lexer.AllTokens (Lexer.TimeFits true) (utf8 src) true intentTokenRoom
      ((utf8 src).length + 1) (utf8 src) []
  · have hdeclared : ∃ toks, Lexer.tokenize (utf8 src) true intentTokenRoom = .ok toks ∧
        ¬ ∀ d ∈ declarations src toks.length toks, d.Fits := by
      by_contra hnone
      refine h ⟨hliterals, fun toks htoks => ?_⟩
      by_contra hfits
      exact hnone ⟨toks, htoks, hfits⟩
    obtain ⟨toks, htoks, hfits⟩ := hdeclared
    rw [htoks]
    dsimp only [bind, Except.bind]
    rw [buildLoop_panics hfits]
  · rw [(Lexer.tokenize_eq_panic_iff (by decide)).mpr hliterals]
    rfl

/-- **The verifier's arithmetic is sound** if and only if the time literals of the script and what
is computed from its budgets fit 64 bits. -/
theorem intentSound_iff (checks : Bool) (src : Str) : IntentSound checks src ↔ BudgetsFit src := by
  constructor
  · intro h
    by_contra hnot
    exact h.1 (build_panics hnot)
  · intro h
    exact ⟨(build_of_fits h true).1, (build_of_fits h checks).2⟩

/-- Seven times the budget of this task does not fit. -/
def longTask : Str := text "task t { budget 4611686018427387904ns }"

theorem longTask_overflows : ¬ ∀ (checks : Bool) (src : Str), IntentSound checks src := by
  have hrun : ((Lexer.tokenize (utf8 longTask) true intentTokenRoom).toOption.map fun toks =>
      (declarations longTask toks.length toks).all fun d => decide d.Fits) = some false := by
    decide +kernel
  intro h
  refine (h true longTask).1 (build_panics fun hfits => ?_)
  obtain ⟨toks, htoks, hall⟩ := Option.map_eq_some_iff.mp hrun
  cases hlex : Lexer.tokenize (utf8 longTask) true intentTokenRoom with
  | error a =>
    rw [hlex] at htoks
    cases htoks
  | ok toks' =>
    rw [hlex] at htoks
    cases htoks
    have htrue : (declarations longTask toks.length toks).all (fun d => decide d.Fits) = true :=
      List.all_eq_true.mpr fun d hd => decide_eq_true (hfits.2 toks hlex d hd)
    rw [htrue] at hall
    cases hall

end Intent

end LatencyOS
