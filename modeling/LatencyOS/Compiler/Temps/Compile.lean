import LatencyOS.Compiler.Discipline.Functions
import LatencyOS.Compiler.Temps.Statement

/-!
# Temporaries in a whole compilation

Functions, directives, the statement dispatch and the knot of the recursion.
-/

namespace LatencyOS

namespace Compiler

namespace Temps

-- the size of an instance doubles with every statement of a block
set_option synthInstance.maxSize 1000000000000
-- token kinds have many constructors, and `split` looks at all of them
set_option maxRecDepth 10000

variable {S : Pool.Stack} {held : List ℕ} {d : ℕ} {st : CompilerState}

/-! ## Functions -/

instance quiet_paramScale : Quiet S paramScale := by
  dsimp only [paramScale]
  infer_instance

/-- A function has four parameters at most. -/
theorem runs_paramList (r : Rec) (h : TempsHeld held st) :
    Runs S (paramList r) (fun params st' => params.length ≤ 4 ∧ TempsHeld held st') st := by
  dsimp only [paramList]
  refine runs_loop (I := fun (params : List Param) st => params.length ≤ 4 ∧ TempsHeld held st)
    ?_ _ _ ⟨Nat.zero_le 4, h⟩
  rintro params t ⟨hle, ht⟩
  refine Prog.Wp.bind (looks_peekKind.runs fun k => ?_)
  split
  · exact ⟨hle, ht⟩
  · refine Prog.Wp.bind ((quiet_advance.runs ht).mono fun pTok u hu => ?_)
    refine Prog.Wp.bind (runs_require fun _ => ?_)
    refine Prog.Wp.bind ((looks_text pTok).runs fun pName => ?_)
    refine Prog.Wp.bind (runs_require fun hroom => ?_)
    refine Prog.Wp.bind ((quiet_paramScale.runs hu).mono fun scale v hv => ?_)
    refine Prog.Wp.bind (((quiet_matchToken .comma).runs hv).mono fun comma w hw => ?_)
    have hle' : (params ++ [(⟨pName.take 16, scale⟩ : Param)]).length ≤ 4 := by
      rw [List.length_append, List.length_singleton]
      exact of_decide_eq_true hroom
    split
    · exact ⟨hle', hw⟩
    · exact ⟨hle', hw⟩

instance quiet_contractParen (message stage suggestion : String) :
    Quiet S (contractParen message stage suggestion) := by
  dsimp only [contractParen]
  infer_instance

instance quiet_fnName : Quiet S fnName := by
  dsimp only [fnName]
  infer_instance

/-- A change of the record of a function keeps its parameters. -/
theorem quiet_modifyFn (fnIdx : ℕ) {g : FnMeta → FnMeta} (hg : ∀ f, (g f).params = f.params) :
    Quiet S (modifyFn fnIdx g) := by
  refine quiet_modifyDecls_of fun d hd f' hf' => ?_
  rcases mem_modify hf' with hmem | ⟨f, hget, rfl⟩
  · exact hd f' hmem
  · rw [hg]
    exact hd f (List.mem_of_getElem? hget)

/-- A new function with few enough parameters. -/
theorem quiet_pushFn {f : FnMeta} (hf : f.params.length ≤ 4) :
    Quiet S (modifyDecls fun d => { d with functions := d.functions ++ [f] }) := by
  refine quiet_modifyDecls_of fun d hd g hg => ?_
  rcases List.mem_append.mp hg with hmem | hmem
  · exact hd g hmem
  · rw [List.mem_singleton.mp hmem]
    exact hf

instance quiet_wcetClause (fnIdx : ℕ) : Quiet S (wcetClause fnIdx) := by
  dsimp only [wcetClause]
  refine .bind inferInstance fun _ => .bind inferInstance fun t => ?_
  generalize t.kind = k
  cases k <;> refine .bind inferInstance fun wcetNs => ?_ <;> cases wcetNs <;> dsimp only
  all_goals first
    | infer_instance
    | exact .bind inferInstance fun _ => .bind inferInstance fun _ =>
        quiet_modifyFn fnIdx fun _ => rfl

instance quiet_ensuresClause (fnIdx : ℕ) : Quiet S (ensuresClause fnIdx) := by
  dsimp only [ensuresClause]
  refine .bind inferInstance fun _ => .bind inferInstance fun st => ?_
  split
  · infer_instance
  · refine .bind inferInstance fun _ => quiet_modifyFn fnIdx fun f => ?_
    split <;> rfl

instance quiet_checkFnWcet (fnIdx bodySize : ℕ) : Quiet S (checkFnWcet fnIdx bodySize) := by
  dsimp only [checkFnWcet]
  refine .bind (quiet_modifyFn fnIdx fun _ => rfl) fun _ => .bind inferInstance fun st => ?_
  split <;> infer_instance

/-! ## Directives -/

instance quiet_importStatement : Quiet S importStatement := by
  dsimp only [importStatement]
  refine .bind inferInstance fun _ => .bind inferInstance fun nameTok => ?_
  generalize nameTok.kind = k
  cases k <;> refine .bind inferInstance fun rawName => .bind inferInstance fun _ => ?_ <;>
    cases runtimeMask rawName <;> first
    | exact quiet_modifyDecls_of fun _ hd => hd
    | infer_instance

instance quiet_skipBudget : Quiet S skipBudget := by
  dsimp only [skipBudget]
  infer_instance

instance quiet_testStatement {r : Rec} : Quiet S (testStatement r) := by
  dsimp only [testStatement]
  infer_instance

instance quiet_contractTime (set : ℕ → Decls → Decls) [∀ n, Outside (set n)] :
    Quiet S (contractTime set) := by
  dsimp only [contractTime]
  refine .bind inferInstance fun _ => .bind inferInstance fun _ => ?_
  refine .ite (.bind inferInstance fun t => ?_) inferInstance
  generalize t.kind = k
  cases k <;> infer_instance

instance quiet_contractStatement {r : Rec} : Quiet S (contractStatement r) := by
  dsimp only [contractStatement]
  infer_instance

/-! ## Statements -/

section Recursive

variable {r : Rec} [Calls S r]

instance uses_requiresClause : Uses S d d (requiresClause r) := by
  dsimp only [requiresClause]
  infer_instance

instance uses_contracts (fnIdx : ℕ) : Uses S d d (contracts r fnIdx) := by
  dsimp only [contracts]
  infer_instance

instance uses_fnStatement : Uses S d d (fnStatement r) := by
  dsimp only [fnStatement]
  refine .bind inferInstance fun _ => .bind inferInstance fun name =>
    .bind inferInstance fun jmpSkip => .bind inferInstance fun entryPc =>
    .bind inferInstance fun _ => .bind inferInstance fun _ => ⟨fun h => Prog.Wp.bind ?_⟩
  refine (runs_paramList r h).mono fun params t ht => ?_
  obtain ⟨hle, ht⟩ := ht
  have hpush : Quiet S (modifyDecls fun d => { d with
      functions := d.functions ++ [⟨name.take 32, entryPc, params, [], none, 0⟩] }) :=
    quiet_pushFn hle
  exact Uses.runs ht

instance uses_returnStatement : Uses S d d (returnStatement r) := by
  dsimp only [returnStatement]
  have hret : ∀ o : Option ℕ, Uses S d d (match o with
      | some fnIdx => emitEnsuresChecks r fnIdx >>= fun _ => emit .ret 0 0 0
      | none => emit .ret 0 0 0) := fun o => by
    cases o <;> infer_instance
  infer_instance

instance uses_pipelineStatement : Uses S d d (pipelineStatement r) := by
  dsimp only [pipelineStatement]
  infer_instance

instance uses_vblankStatement : Uses S d d (vblankStatement r) := by
  dsimp only [vblankStatement]
  infer_instance

instance uses_withinStatement : Uses S d d (withinStatement r) := by
  dsimp only [withinStatement]
  refine .bind inferInstance fun _ => .bind inferInstance fun hasParen =>
    .bind inferInstance fun timeTok => ?_
  generalize timeTok.kind = k
  cases k <;> infer_instance

/-- A statement gives back what it takes. -/
theorem uses_statement (d : ℕ) : Uses S d d (statement r) := by
  dsimp only [statement]
  refine .bind inferInstance fun k => ?_
  cases k <;> infer_instance

end Recursive

/-! ## The knot -/

/-- One level up. -/
theorem Calls.next {r : Rec} (h : Calls S r) : Calls S r.next where
  expression := fun d dst => uses_expression dst d
  ternary := fun d dst => uses_ternary dst d
  primary := fun _ dst => uses_primary dst
  statement := fun d => uses_statement d

theorem calls_recN (fuel n : ℕ) : Calls S (recN fuel n) := by
  induction n with
  | zero =>
    exact ⟨fun _ _ => uses_throw .fuel, fun _ _ => uses_throw .fuel, fun _ _ => uses_throw .fuel,
      fun _ => uses_throw .fuel⟩
  | succ n ih => exact ih.next

instance looks_checkConsumed : Looks S checkConsumed := by
  dsimp only [checkConsumed]
  refine .bind inferInstance fun states => ?_
  cases unconsumed states <;> infer_instance

theorem uses_compile {r : Rec} [Calls S r] : Uses S d d (compile r) := by
  dsimp only [compile, statements]
  infer_instance

end Temps

end Compiler

end LatencyOS
