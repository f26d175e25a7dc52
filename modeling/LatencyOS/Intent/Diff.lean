import LatencyOS.Intent.Build
import LatencyOS.Lib.Str
import LatencyOS.Lib.Keyed

/-!
# The semantic diff

`semantic_diff` goes through the second of two intent IRs and looks each of its parts up by name in
the first.
-/

namespace LatencyOS

open Format Keyed

structure SemanticDiffItem where
  entity : Str
  field : Str
  before : Str
  after : Str
  deriving DecidableEq

structure SemanticDiffReport where
  changes : List SemanticDiffItem
  verificationBefore : Str
  verificationAfter : Str
  deriving DecidableEq

namespace Intent

/-! ## `semantic_diff` -/

/-- A change of a field, if its values differ. -/
def fieldChange {α : Type} [DecidableEq α] (entity : Str) (field : String) (shown : α → Str)
    (before after : α) : List SemanticDiffItem :=
  if before ≠ after then [⟨entity, text field, shown before, shown after⟩] else []

/-- A part that only the second IR has. -/
def added (entity : Str) (field : String) : List SemanticDiffItem :=
  [⟨entity, text field, text "none", text "added"⟩]

def nanoseconds (n : ℕ) : Str := decimalText n ++ text "ns"

/-- A value that may be missing. -/
def orNone (shown : ℕ → Str) : Option ℕ → Str
  | some n => shown n
  | none => text "none"

/-- The changes of a stage of pipeline `pb`. -/
def stageChanges (pa pb : PipelineIr) (sb : StageIr) : List SemanticDiffItem :=
  let entity := pb.name ++ text "::" ++ sb.name
  match lookup StageIr.name pa.stages sb.name with
  | some sa =>
    fieldChange entity "core" decimalText sa.core sb.core ++
      fieldChange entity "budget_ns" nanoseconds sa.budgetNs sb.budgetNs ++
      fieldChange entity "zero_copy" boolText sa.zeroCopy sb.zeroCopy
  | none => added entity "stage"

def pipelineChanges (a : IntentIr) (pb : PipelineIr) : List SemanticDiffItem :=
  let entity := text "pipeline::" ++ pb.name
  match lookup PipelineIr.name a.pipelines pb.name with
  | some pa =>
    fieldChange entity "budget_ns" nanoseconds pa.totalBudgetNs pb.totalBudgetNs ++
      pb.stages.flatMap (stageChanges pa pb)
  | none => added entity "pipeline"

def taskChanges (a : IntentIr) (tb : TaskIr) : List SemanticDiffItem :=
  let entity := text "task::" ++ tb.name
  match lookup TaskIr.name a.tasks tb.name with
  | some ta =>
    fieldChange entity "core" (orNone decimalText) ta.core tb.core ++
      fieldChange entity "budget_ns" (orNone nanoseconds) ta.budgetNs tb.budgetNs
  | none => added entity "task"

/-- A function the first IR lacks is no change. -/
def functionChanges (a : IntentIr) (fb : FunctionIr) : List SemanticDiffItem :=
  match lookup FunctionIr.name a.functions fb.name with
  | some fa =>
    fieldChange (text "fn::" ++ fb.name) "wcet_ns" nanoseconds fa.estimatedWcetNs
      fb.estimatedWcetNs
  | none => []

/-- `semantic_diff` -/
def semanticDiff (a b : IntentIr) : SemanticDiffReport where
  changes := b.pipelines.flatMap (pipelineChanges a) ++ b.tasks.flatMap (taskChanges a) ++
    b.functions.flatMap (functionChanges a)
  verificationBefore := a.verification.status
  verificationAfter := b.verification.status

/-! ## What two IRs have in common -/

def SameStage (s t : StageIr) : Prop :=
  s.core = t.core ∧ s.budgetNs = t.budgetNs ∧ s.zeroCopy = t.zeroCopy

def SameTask (s t : TaskIr) : Prop := s.core = t.core ∧ s.budgetNs = t.budgetNs

def SameFunction (f g : FunctionIr) : Prop := f.estimatedWcetNs = g.estimatedWcetNs

def SamePipeline (p q : PipelineIr) : Prop :=
  p.totalBudgetNs = q.totalBudgetNs ∧ Same StageIr.name SameStage p.stages q.stages

/-- The IRs have the same pipelines with the same budgets and stages, the same tasks and the same
functions. -/
def SameIntent (a b : IntentIr) : Prop :=
  Same PipelineIr.name SamePipeline a.pipelines b.pipelines ∧
    Same TaskIr.name SameTask a.tasks b.tasks ∧
    Same FunctionIr.name SameFunction a.functions b.functions

/-- The names of an IR are different. -/
structure UniqueNames (a : IntentIr) : Prop where
  pipelines : Unique PipelineIr.name a.pipelines
  stages : ∀ p ∈ a.pipelines, Unique StageIr.name p.stages
  tasks : Unique TaskIr.name a.tasks
  functions : Unique FunctionIr.name a.functions

/-- The parts that both IRs have are the same. -/
def CommonAgree (a b : IntentIr) : Prop :=
  Agree PipelineIr.name (fun p q => p.totalBudgetNs = q.totalBudgetNs ∧
      Agree StageIr.name SameStage p.stages q.stages) a.pipelines b.pipelines ∧
    Agree TaskIr.name SameTask a.tasks b.tasks ∧
    Agree FunctionIr.name SameFunction a.functions b.functions

/-- The second IR has no pipeline and no task the first lacks, and no stage in a pipeline of
both. -/
def NothingAdded (a b : IntentIr) : Prop :=
  Within PipelineIr.name a.pipelines b.pipelines ∧
    Agree PipelineIr.name (fun p q => Within StageIr.name p.stages q.stages) a.pipelines
      b.pipelines ∧
    Within TaskIr.name a.tasks b.tasks

theorem fieldChange_eq_nil_iff {α : Type} [DecidableEq α] {entity : Str} {field : String}
    {shown : α → Str} {before after : α} :
    fieldChange entity field shown before after = [] ↔ before = after := by
  simp [fieldChange]

theorem added_ne_nil (entity : Str) (field : String) : added entity field ≠ [] :=
  List.cons_ne_nil _ _

theorem stageChanges_eq_nil_iff {pa pb : PipelineIr} {sb : StageIr} :
    stageChanges pa pb sb = [] ↔
      ∃ sa, lookup StageIr.name pa.stages sb.name = some sa ∧ SameStage sa sb := by
  unfold stageChanges
  cases lookup StageIr.name pa.stages sb.name with
  | none => simp [added_ne_nil]
  | some sa => simp [fieldChange_eq_nil_iff, SameStage]

theorem pipelineChanges_eq_nil_iff {a : IntentIr} (ha : UniqueNames a) {pb : PipelineIr} :
    pipelineChanges a pb = [] ↔
      ∃ pa, lookup PipelineIr.name a.pipelines pb.name = some pa ∧
        pa.totalBudgetNs = pb.totalBudgetNs ∧ Within StageIr.name pa.stages pb.stages ∧
          Agree StageIr.name SameStage pa.stages pb.stages := by
  unfold pipelineChanges
  cases h : lookup PipelineIr.name a.pipelines pb.name with
  | none => simp [added_ne_nil]
  | some pa =>
    have hstages := forall_lookup_iff (ha.stages pa (key_of_lookup h).1) SameStage pb.stages
    simp only [List.append_eq_nil_iff, fieldChange_eq_nil_iff, List.flatMap_eq_nil_iff,
      stageChanges_eq_nil_iff, hstages, Option.some.injEq, exists_eq_left']

theorem taskChanges_eq_nil_iff {a : IntentIr} {tb : TaskIr} :
    taskChanges a tb = [] ↔
      ∃ ta, lookup TaskIr.name a.tasks tb.name = some ta ∧ SameTask ta tb := by
  unfold taskChanges
  cases lookup TaskIr.name a.tasks tb.name with
  | none => simp [added_ne_nil]
  | some ta => simp [fieldChange_eq_nil_iff, SameTask]

theorem functionChanges_eq_nil_iff {a : IntentIr} {fb : FunctionIr} :
    functionChanges a fb = [] ↔
      ∀ fa, lookup FunctionIr.name a.functions fb.name = some fa → SameFunction fa fb := by
  unfold functionChanges
  cases lookup FunctionIr.name a.functions fb.name with
  | none => simp
  | some fa => simp [fieldChange_eq_nil_iff, SameFunction]

/-- No change is reported when the common parts agree and nothing is added. -/
theorem changes_eq_nil_iff {a : IntentIr} (ha : UniqueNames a) (b : IntentIr) :
    (semanticDiff a b).changes = [] ↔ CommonAgree a b ∧ NothingAdded a b := by
  have hpipelines := forall_lookup_iff ha.pipelines (fun pa pb => pa.totalBudgetNs =
    pb.totalBudgetNs ∧ Within StageIr.name pa.stages pb.stages ∧
      Agree StageIr.name SameStage pa.stages pb.stages) b.pipelines
  have htasks := forall_lookup_iff ha.tasks SameTask b.tasks
  have hfunctions := forall_found_iff ha.functions SameFunction b.functions
  simp only [semanticDiff, List.append_eq_nil_iff, List.flatMap_eq_nil_iff,
    pipelineChanges_eq_nil_iff ha, taskChanges_eq_nil_iff, functionChanges_eq_nil_iff, hpipelines,
    htasks, hfunctions, CommonAgree, NothingAdded, agree_and]
  tauto

theorem CommonAgree.symm {a b : IntentIr} (h : CommonAgree a b) : CommonAgree b a := by
  obtain ⟨hpipelines, htasks, hfunctions⟩ := h
  refine ⟨hpipelines.symm fun p q hpq => ?_, htasks.symm fun s t hst => ?_,
    hfunctions.symm fun f g hfg => Eq.symm hfg⟩
  · exact ⟨hpq.1.symm, hpq.2.symm fun s t hst => ⟨hst.1.symm, hst.2.1.symm, hst.2.2.symm⟩⟩
  · exact ⟨hst.1.symm, hst.2.symm⟩

/-- The same intent is agreement with nothing added either way, and the same functions. -/
theorem sameIntent_iff {a b : IntentIr} :
    SameIntent a b ↔ CommonAgree a b ∧ NothingAdded a b ∧ NothingAdded b a ∧
      Within FunctionIr.name a.functions b.functions ∧
        Within FunctionIr.name b.functions a.functions := by
  have hflip : Agree PipelineIr.name (fun p q => Within StageIr.name p.stages q.stages) b.pipelines
      a.pipelines ↔ Agree PipelineIr.name (fun p q => Within StageIr.name q.stages p.stages)
        a.pipelines b.pipelines :=
    ⟨fun h => h.symm fun _ _ hst => hst, fun h => h.symm fun _ _ hst => hst⟩
  have hsame : SamePipeline = fun p q => p.totalBudgetNs = q.totalBudgetNs ∧
      Within StageIr.name p.stages q.stages ∧ Within StageIr.name q.stages p.stages ∧
        Agree StageIr.name SameStage p.stages q.stages := rfl
  simp only [SameIntent, Same, hsame, CommonAgree, NothingAdded, hflip, agree_and]
  tauto

/-- The diff is complete, and empty one way if and only if it is empty the other way. -/
def DiffComplete (a b : IntentIr) : Prop :=
  ((semanticDiff a b).changes = [] → SameIntent a b) ∧
    ((semanticDiff a b).changes = [] ↔ (semanticDiff b a).changes = [])

/-- **The diff is complete** if and only if the IRs are the same, or a part they both have differs,
or each has a pipeline, stage or task that the other lacks. -/
theorem diffComplete_iff {a b : IntentIr} (ha : UniqueNames a) (hb : UniqueNames b) :
    DiffComplete a b ↔
      SameIntent a b ∨ ¬ CommonAgree a b ∨ (¬ NothingAdded a b ∧ ¬ NothingAdded b a) := by
  have hcomm : CommonAgree b a ↔ CommonAgree a b := ⟨CommonAgree.symm, CommonAgree.symm⟩
  rw [DiffComplete, changes_eq_nil_iff ha, changes_eq_nil_iff hb, hcomm, sameIntent_iff]
  tauto

/-- An IR without pipelines and functions. -/
def tasksOnly (tasks : List TaskIr) : IntentIr where
  version := text "1.0"
  moduleName := text "main"
  pipelines := []
  tasks := tasks
  functions := []
  constraints := []
  verification := ⟨text "PASS", 0, 0, true, true⟩

def emptyTask : TaskIr where
  name := text "t"
  core := none
  budgetNs := none
  wcetNs := 70000
  zeroCopy := false
  inputs := []
  outputs := []
  memoryDomain := .cpu

theorem uniqueNames_tasksOnly {tasks : List TaskIr} (h : Unique TaskIr.name tasks) :
    UniqueNames (tasksOnly tasks) where
  pipelines := List.nodup_nil
  stages := fun p hp => by cases hp
  tasks := h
  functions := List.nodup_nil

/-- The same IR twice. -/
theorem diffComplete_same : DiffComplete (tasksOnly [emptyTask]) (tasksOnly [emptyTask]) := by
  have hunique : UniqueNames (tasksOnly [emptyTask]) :=
    uniqueNames_tasksOnly (List.nodup_singleton _)
  refine (diffComplete_iff hunique hunique).mpr (.inl ?_)
  simp [SameIntent, Same, Within, Agree, tasksOnly, SameTask]

/-- A task that is removed is no change. -/
theorem removedTask_unreported :
    ¬ ∀ a b : IntentIr, UniqueNames a → UniqueNames b → DiffComplete a b := by
  intro h
  have hdiff := h (tasksOnly [emptyTask]) (tasksOnly [])
    (uniqueNames_tasksOnly (List.nodup_singleton _)) (uniqueNames_tasksOnly List.nodup_nil)
  obtain ⟨-, ⟨-, hwithin, -⟩, -⟩ := hdiff.1 rfl
  obtain ⟨t, ht, -⟩ := hwithin emptyTask List.mem_cons_self
  cases ht

end Intent

end LatencyOS
