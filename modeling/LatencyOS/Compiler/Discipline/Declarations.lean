import LatencyOS.Compiler.Discipline.Basic

/-!
# The discipline of declarations and combinators

Declarations and lookups.  The combinators compile to a counting loop, whose exit is pending
until its end is known.
-/

namespace LatencyOS

namespace Compiler

-- the size of an instance doubles with every statement of a block
set_option synthInstance.maxSize 1000000000000
-- token kinds have many constructors, and `split` looks at all of them
set_option maxRecDepth 10000

variable {s : Session} {pend : List ℕ} {st st' : CompilerState} {α β σ : Type}

/-! ## Arrays and views -/

instance keeps_declareArray (tok : Token) (len : ℕ) : Keeps s (declareArray tok len) := by
  dsimp only [declareArray]
  infer_instance

instance outside_poolSetting (name : List UInt8) (val : ℕ) : Outside (poolSetting name val) := by
  refine ⟨fun d => ?_, fun d => ?_, fun d => ?_⟩ <;> simp only [poolSetting] <;> split
  all_goals first
    | rfl
    | split <;> rfl

instance keeps_declarePoolSize {fuel : ℕ} [LoopBound s fuel] : Keeps s (declarePoolSize fuel) := by
  dsimp only [declarePoolSize]
  refine Keeps.bind inferInstance fun _ => Keeps.bind ?_ fun _ => inferInstance
  refine Keeps.loop (fun _ => Advances.guard fun _ => ?_) _
  refine reads_advance.bind_steps inferInstance fun tok _ => ?_
  generalize tok.kind = k
  cases k
  case ident =>
    refine Keeps.bind inferInstance fun name => Keeps.bind inferInstance fun _ =>
      reads_advance.bind fun valTok _ => ?_
    split <;> infer_instance
  all_goals infer_instance

instance keeps_findArray (name : List UInt8) : Keeps s (findArray name) := by
  dsimp only [findArray]
  infer_instance

instance keeps_lookupArray (tok : Token) [IsTok s tok] : Keeps s (lookupArray tok) := by
  dsimp only [lookupArray]
  refine .bind inferInstance fun name => .bind inferInstance fun a => ?_
  cases a <;> infer_instance

instance keeps_isArray (tok : Token) [IsTok s tok] : Keeps s (isArray tok) := by
  dsimp only [isArray]
  infer_instance

instance keeps_declareView (tok : Token) (view : ViewMeta) [IsTok s tok] :
    Keeps s (declareView tok view) := by
  dsimp only [declareView]
  refine .bind inferInstance fun st => .bind inferInstance fun name =>
    .bind inferInstance fun _ => ?_
  split <;> infer_instance

instance keeps_lookupView (tok : Token) [IsTok s tok] : Keeps s (lookupView tok) := by
  dsimp only [lookupView]
  infer_instance

instance keeps_isView (tok : Token) [IsTok s tok] : Keeps s (isView tok) := by
  dsimp only [isView]
  infer_instance

/-! ## Structs, enums and tables -/

instance keeps_declareStructDef {fuel : ℕ} [LoopBound s fuel] :
    Keeps s (declareStructDef fuel) := by
  dsimp only [declareStructDef]
  infer_instance

instance keeps_isStructType (tok : Token) [IsTok s tok] : Keeps s (isStructType tok) := by
  dsimp only [isStructType]
  infer_instance

instance keeps_declareStructInst (varTok typeTok : Token) [IsTok s varTok] [IsTok s typeTok] :
    Keeps s (declareStructInst varTok typeTok) := by
  dsimp only [declareStructInst]
  refine .bind inferInstance fun st => .bind inferInstance fun _ => .bind inferInstance fun _ => ?_
  split <;> infer_instance

instance keeps_lookupStructField (varName fieldName : List UInt8) :
    Keeps s (lookupStructField varName fieldName) := by
  dsimp only [lookupStructField]
  refine .bind inferInstance fun st => ?_
  repeat' split
  all_goals infer_instance

instance keeps_isStructInst (varName : List UInt8) : Keeps s (isStructInst varName) := by
  dsimp only [isStructInst]
  infer_instance

instance keeps_declareEnumDef {fuel : ℕ} [LoopBound s fuel] : Keeps s (declareEnumDef fuel) := by
  dsimp only [declareEnumDef]
  infer_instance

instance keeps_lookupEnumByName (name : List UInt8) : Keeps s (lookupEnumByName name) := by
  dsimp only [lookupEnumByName]
  infer_instance

instance keeps_lookupEnumVariant (enumIdx : ℕ) (name : List UInt8) :
    Keeps s (lookupEnumVariant enumIdx name) := by
  dsimp only [lookupEnumVariant]
  infer_instance

instance keeps_countArrayLiteralElements : Keeps s countArrayLiteralElements := by
  dsimp only [countArrayLiteralElements]
  infer_instance

instance keeps_declareConstTable {fuel : ℕ} [LoopBound s fuel] :
    Keeps s (declareConstTable fuel) := by
  dsimp only [declareConstTable]
  refine reads_advance.bind fun nameTok _ => ?_
  repeat refine Keeps.bind inferInstance fun _ => ?_
  split
  all_goals
    repeat refine Keeps.bind inferInstance fun _ => ?_
    refine Keeps.bind (Keeps.loop (fun _ => Advances.guard fun _ => ?_) _) fun _ => inferInstance
    refine @steps_bind_right _ _ _ _ _ inferInstance fun isNeg => ?_
    refine reads_advance.bind_steps inferInstance fun tok _ => ?_
    split <;> infer_instance

instance keeps_lookupConstTable (name : List UInt8) : Keeps s (lookupConstTable name) := by
  dsimp only [lookupConstTable]
  refine .bind inferInstance fun st => ?_
  split <;> infer_instance

/-! ## Functions -/

instance keeps_findFn (name : List UInt8) : Keeps s (findFn name) := by
  dsimp only [findFn]
  infer_instance

instance keeps_lookupFnByName (name : List UInt8) : Keeps s (lookupFnByName name) := by
  dsimp only [lookupFnByName]
  refine .bind inferInstance fun f => ?_
  cases f <;> infer_instance

instance keeps_lookupCombinatorFn (name : List UInt8) : Keeps s (lookupCombinatorFn name) := by
  dsimp only [lookupCombinatorFn]
  refine .bind inferInstance fun f => ?_
  cases f with
  | some f => infer_instance
  | none =>
    dsimp only
    split <;> infer_instance

/-! ## Views -/

instance keeps_movImm (reg imm : ℕ) : Keeps s (movImm reg imm) := by
  dsimp only [movImm]
  infer_instance

section Views

variable {expression : ℕ → CompilerM Unit} [∀ dst, Keeps s (expression dst)]

instance keeps_viewIntrinsic (name : List UInt8) (baseReg : ℕ) :
    Keeps s (viewIntrinsic expression name baseReg) := by
  dsimp only [viewIntrinsic]
  infer_instance

instance keeps_parseViewSourceToReg (baseReg : ℕ) :
    Keeps s (parseViewSourceToReg expression baseReg) := by
  dsimp only [parseViewSourceToReg]
  have hview : ∀ name, Keeps s (if isViewIntrinsic name = true then
      viewIntrinsic expression name baseReg
    else advance >>= fun tok => lookupView tok >>= fun v =>
      match v with
      | some view => pure view
      | none => lookupArray tok >>= fun arr => emit .movImm baseReg 0 0 >>= fun _ =>
        pure ⟨[], arr.arrId, baseReg, 1, arr.len⟩) := by
    intro name
    split
    · infer_instance
    · refine reads_advance.bind fun tok _ => Keeps.bind inferInstance fun v => ?_
      cases v <;> infer_instance
  infer_instance

instance keeps_parseViewSource : Keeps s (parseViewSource expression) := by
  dsimp only [parseViewSource]
  refine reads_peek.bind fun tok _ => ?_
  repeat' first
    | infer_instance
    | split
    | refine Keeps.bind inferInstance fun _ => ?_

end Views

instance keeps_viewElement (v : ViewMeta) (loopI : ℕ) : Keeps s (viewElement v loopI) := by
  dsimp only [viewElement]
  infer_instance

end Compiler

end LatencyOS
