import LatencyOS.Intent.Diff
import LatencyOS.Lsp.Diagnostics

/-!
# The JSON of the command line tools

Diagnostics, the intent IR and the reports about it, as the parts that their format strings put
together.
-/

namespace LatencyOS

open Format Json

/-! ## Diagnostics -/

/-- `0.95` or `0.80` -/
def confidence (repairability : String) : NumberText where
  negative := false
  int := ['0']
  frac := some (if repairability = "safe_patch" then ['9', '5'] else ['8', '0'])
  exp := none
  int_digits := ⟨by simp, forall_mem_of_all (by decide)⟩
  no_leading_zero := fun _ => rfl
  frac_digits := by
    rintro f hf
    cases hf
    split <;> exact ⟨by simp, forall_mem_of_all (by decide)⟩
  exp_digits := exponent_of_none

namespace CompileError

/-- What `format_json` writes. -/
def report (e : CompileError) (filename : Str) : Doc :=
  .fields [
    ("$schema", .literal "https://latencyos.org/schema/pulselang-diagnostic-v1.json"),
    ("version", .literal "1.0"),
    ("success", .bool false),
    ("diagnostics", .array [.fields [
      ("code", .escaped (text e.code)),
      ("category", .literal e.category),
      ("severity", .literal "error"),
      ("message", .escaped (text e.message)),
      ("location", .fields [
        ("file", .escaped filename),
        ("line", .nat e.line),
        ("column", .nat e.col),
        ("byte_offset", .nat e.byteOffset),
        ("length", .nat (max e.tokenLen 1))]),
      ("stage", .escaped (text e.stage)),
      ("expected", .escaped (text e.expected)),
      ("cause", .escaped (text e.message)),
      ("repairability", .literal e.repairability),
      ("ai_repair_hint", .escaped (text e.suggestion)),
      ("repairs", .array [.fields [
        ("id", .escaped (text e.code)),
        ("description", .escaped (text e.suggestion)),
        ("confidence", .number (.decimal (confidence e.repairability))),
        ("edits", .array [])]])]])]

/-- `CompileError::format_json` -/
def formatJson (e : CompileError) (filename : Str) : Str := (e.report filename).text

end CompileError

/-! ## The intent IR -/

def StageIr.doc (s : StageIr) : Doc :=
  .fields [
    ("name", .escaped s.name),
    ("core", .nat s.core),
    ("budget_ns", .nat s.budgetNs),
    ("wcet_ns", .nat s.wcetNs),
    ("zero_copy", .bool s.zeroCopy),
    ("input", .orNull (s.input.map .escaped)),
    ("output", .orNull (s.output.map .escaped)),
    ("hardware", .orNull (s.hardware.map .escaped)),
    ("domain", .literal s.memoryDomain.asStr)]

def PipelineIr.doc (p : PipelineIr) : Doc :=
  .fields [
    ("name", .escaped p.name),
    ("total_budget_ns", .nat p.totalBudgetNs),
    ("total_wcet_ns", .nat p.totalWcetNs),
    ("valid", .bool p.valid),
    ("stages", .array (p.stages.map StageIr.doc))]

def TaskIr.doc (t : TaskIr) : Doc :=
  .fields [
    ("name", .escaped t.name),
    ("core", .orNull (t.core.map .nat)),
    ("budget_ns", .orNull (t.budgetNs.map .nat)),
    ("wcet_ns", .nat t.wcetNs),
    ("zero_copy", .bool t.zeroCopy),
    ("inputs", .strings t.inputs),
    ("outputs", .strings t.outputs),
    ("domain", .literal t.memoryDomain.asStr)]

def FunctionIr.doc (f : FunctionIr) : Doc :=
  .fields [
    ("name", .escaped f.name),
    ("params", .strings f.params),
    ("return_type", .escaped f.returnType),
    ("declared_wcet_ns", .orNull (f.declaredWcetNs.map .nat)),
    ("estimated_wcet_ns", .nat f.estimatedWcetNs),
    ("has_precondition", .bool f.hasPrecondition),
    ("has_postcondition", .bool f.hasPostcondition)]

def ConstraintIr.doc (c : ConstraintIr) : Doc :=
  .fields [
    ("target", .escaped c.target),
    ("kind", .escaped c.kind),
    ("required", .escaped c.required),
    ("provided", .escaped c.provided),
    ("satisfied", .bool c.satisfied),
    ("reason", .escaped c.reason)]

/-- What the `to_json` of the IR writes; the version and the status are not escaped. -/
def IntentIr.doc (ir : IntentIr) : Doc :=
  .fields [
    ("version", .bare ir.version),
    ("module", .escaped ir.moduleName),
    ("pipelines", .array (ir.pipelines.map PipelineIr.doc)),
    ("tasks", .array (ir.tasks.map TaskIr.doc)),
    ("functions", .array (ir.functions.map FunctionIr.doc)),
    ("constraints", .array (ir.constraints.map ConstraintIr.doc)),
    ("verification", .fields [
      ("status", .bare ir.verification.status),
      ("total_constraints", .nat ir.verification.totalConstraints),
      ("satisfied_constraints", .nat ir.verification.satisfiedConstraints),
      ("pipeline_deadline_met", .bool ir.verification.pipelineDeadlineMet),
      ("zero_copy_verified", .bool ir.verification.zeroCopyVerified)])]

/-- `IntentIr::to_json` -/
def IntentIr.toJson (ir : IntentIr) : Str := ir.doc.text

/-! ## Reports about it -/

def SemanticDiffItem.doc (c : SemanticDiffItem) : Doc :=
  .fields [
    ("entity", .escaped c.entity),
    ("field", .escaped c.field),
    ("before", .escaped c.before),
    ("after", .escaped c.after)]

def SemanticDiffReport.doc (r : SemanticDiffReport) : Doc :=
  .fields [
    ("changes", .array (r.changes.map SemanticDiffItem.doc)),
    ("verification", .fields [
      ("before", .escaped r.verificationBefore),
      ("after", .escaped r.verificationAfter)])]

/-- `SemanticDiffReport::to_json` -/
def SemanticDiffReport.toJson (r : SemanticDiffReport) : Str := r.doc.text

structure InspectReport where
  symbol : Str
  entityKind : Str
  typestate : Str
  coreAffinity : Option ℕ
  budgetNs : Option ℕ
  wcetNs : ℕ
  domain : Str
  zeroCopy : Bool

def InspectReport.doc (r : InspectReport) : Doc :=
  .fields [
    ("symbol", .escaped r.symbol),
    ("kind", .escaped r.entityKind),
    ("typestate", .escaped r.typestate),
    ("core", .orNull (r.coreAffinity.map .nat)),
    ("budget_ns", .orNull (r.budgetNs.map .nat)),
    ("wcet_ns", .nat r.wcetNs),
    ("domain", .escaped r.domain),
    ("zero_copy", .bool r.zeroCopy)]

/-- `InspectReport::to_json` -/
def InspectReport.toJson (r : InspectReport) : Str := r.doc.text

structure WhyReport where
  symbol : Str
  reason : Str
  producer : Str
  consumer : Str
  requiredConstraint : Str
  providedConstraint : Str
  satisfied : Bool
  alternatives : List Str

def WhyReport.doc (r : WhyReport) : Doc :=
  .fields [
    ("symbol", .escaped r.symbol),
    ("reason", .escaped r.reason),
    ("producer", .escaped r.producer),
    ("consumer", .escaped r.consumer),
    ("required", .escaped r.requiredConstraint),
    ("provided", .escaped r.providedConstraint),
    ("satisfied", .bool r.satisfied),
    ("alternatives", .strings r.alternatives)]

/-- `WhyReport::to_json` -/
def WhyReport.toJson (r : WhyReport) : Str := r.doc.text

/-! ## The strings they write -/

def StageIr.strings (s : StageIr) : List Str :=
  s.name :: (s.input.toList ++ s.output.toList ++ s.hardware.toList)

def PipelineIr.strings (p : PipelineIr) : List Str :=
  p.name :: p.stages.flatMap StageIr.strings

def TaskIr.strings (t : TaskIr) : List Str := t.name :: (t.inputs ++ t.outputs)

def FunctionIr.strings (f : FunctionIr) : List Str := f.name :: (f.params ++ [f.returnType])

def ConstraintIr.strings (c : ConstraintIr) : List Str :=
  [c.target, c.kind, c.required, c.provided, c.reason]

/-- The strings of the IR that are escaped. -/
def IntentIr.strings (ir : IntentIr) : List Str :=
  ir.moduleName :: (ir.pipelines.flatMap PipelineIr.strings ++ ir.tasks.flatMap TaskIr.strings ++
    ir.functions.flatMap FunctionIr.strings ++ ir.constraints.flatMap ConstraintIr.strings)

def SemanticDiffItem.strings (c : SemanticDiffItem) : List Str :=
  [c.entity, c.field, c.before, c.after]

def SemanticDiffReport.strings (r : SemanticDiffReport) : List Str :=
  r.changes.flatMap SemanticDiffItem.strings ++ [r.verificationBefore, r.verificationAfter]

def InspectReport.strings (r : InspectReport) : List Str :=
  [r.symbol, r.entityKind, r.typestate, r.domain]

def WhyReport.strings (r : WhyReport) : List Str :=
  [r.symbol, r.reason, r.producer, r.consumer, r.requiredConstraint, r.providedConstraint] ++
    r.alternatives

def CompileError.strings (e : CompileError) : List Str :=
  [text e.code, text e.message, text e.stage, text e.expected, text e.suggestion]

/-! ## When they are clear -/

/-- Every one of the strings can do with the escapes it gets. -/
def AllClear (l : List Str) : Prop := ∀ s ∈ l, ClearString s

@[simp] theorem allClear_nil : AllClear [] := List.forall_mem_nil _

@[simp] theorem allClear_cons (s : Str) (l : List Str) :
    AllClear (s :: l) ↔ ClearString s ∧ AllClear l := List.forall_mem_cons

@[simp] theorem allClear_append (l l' : List Str) :
    AllClear (l ++ l') ↔ AllClear l ∧ AllClear l' := List.forall_mem_append

@[simp] theorem allClear_flatMap {α : Type} (f : α → List Str) (l : List α) :
    AllClear (l.flatMap f) ↔ ∀ a ∈ l, AllClear (f a) := by
  induction l with
  | nil => simp
  | cons a l ih => rw [List.flatMap_cons, allClear_append, ih, List.forall_mem_cons]

@[simp] theorem allClear_toList (o : Option Str) :
    AllClear o.toList ↔ ∀ s, o = some s → ClearString s := by
  cases o <;> simp

@[simp] theorem clear_strings (l : List Str) : (Doc.strings l).Clear ↔ AllClear l := by
  rw [Doc.strings, Doc.clear_array, List.forall_mem_map]
  rfl

@[simp] theorem MemoryDomain.plain_asStr (m : MemoryDomain) : PlainString (text m.asStr) := by
  cases m <;> decide

@[simp] theorem CompileError.plain_category (e : CompileError) :
    PlainString (text e.category) := by
  unfold category
  split_ifs <;> decide

@[simp] theorem CompileError.plain_repairability (e : CompileError) :
    PlainString (text e.repairability) := by
  unfold repairability
  split_ifs <;> decide

theorem CompileError.clear_iff (e : CompileError) (filename : Str) :
    (e.report filename).Clear ↔ ClearString filename ∧ AllClear e.strings := by
  simp +decide [report, strings]
  tauto

@[simp] theorem StageIr.clear_iff (s : StageIr) : s.doc.Clear ↔ AllClear s.strings := by
  simp +decide [StageIr.doc, StageIr.strings]

@[simp] theorem PipelineIr.clear_iff (p : PipelineIr) : p.doc.Clear ↔ AllClear p.strings := by
  simp +decide [PipelineIr.doc, PipelineIr.strings]

@[simp] theorem TaskIr.clear_iff (t : TaskIr) : t.doc.Clear ↔ AllClear t.strings := by
  simp +decide [TaskIr.doc, TaskIr.strings]

@[simp] theorem FunctionIr.clear_iff (f : FunctionIr) : f.doc.Clear ↔ AllClear f.strings := by
  simp +decide [FunctionIr.doc, FunctionIr.strings]

@[simp] theorem ConstraintIr.clear_iff (c : ConstraintIr) : c.doc.Clear ↔ AllClear c.strings := by
  simp +decide [ConstraintIr.doc, ConstraintIr.strings]

theorem IntentIr.clear_iff (ir : IntentIr) :
    ir.doc.Clear ↔
      PlainString ir.version ∧ AllClear ir.strings ∧ PlainString ir.verification.status := by
  simp +decide [IntentIr.doc, IntentIr.strings, and_assoc]

@[simp] theorem SemanticDiffItem.clear_iff (c : SemanticDiffItem) :
    c.doc.Clear ↔ AllClear c.strings := by
  simp +decide [SemanticDiffItem.doc, SemanticDiffItem.strings]

theorem SemanticDiffReport.clear_iff (r : SemanticDiffReport) :
    r.doc.Clear ↔ AllClear r.strings := by
  simp +decide [SemanticDiffReport.doc, SemanticDiffReport.strings]

theorem InspectReport.clear_iff (r : InspectReport) : r.doc.Clear ↔ AllClear r.strings := by
  simp +decide [InspectReport.doc, InspectReport.strings]

theorem WhyReport.clear_iff (r : WhyReport) : r.doc.Clear ↔ AllClear r.strings := by
  simp +decide [WhyReport.doc, WhyReport.strings]

end LatencyOS
