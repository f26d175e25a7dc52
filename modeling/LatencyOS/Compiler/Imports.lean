import LatencyOS.Compiler.Discipline.Compile

/-!
# Imports and native functions

A native function belongs to a runtime module.  Calls and pipes check that the module has been
imported; the patterns of `match`, `@streq` and the built-ins of `@zip_with` do not, and before
the first `@import` nothing is checked.  So the calls in the code of an accepted source belong to
imported modules exactly when those that nothing checked do.
-/

namespace LatencyOS

/-- The number of the native function an instruction calls: `CALL_NAT` has it as an operand, and
`STREQ` is the native function of that name. -/
def Opcode.native? (op : Opcode) (rs1 : ℕ) : Option ℕ :=
  match op with
  | .callNat => some rs1
  | .streq => some Native.streq.id
  | _ => none

/-- The number of the native function the instruction at a position calls. -/
def nativeAt? (code : List UInt8) (pos : ℕ) : Option ℕ :=
  (Opcode.ofCode? (byteAt code pos)).bind fun op => op.native? (byteAt code (pos + 2))

/-- A number stands for a native function of one of some modules. -/
def Imported (modules id : ℕ) : Prop := ∃ f : Native, f.id = id ∧ modules &&& f.runtime ≠ 0

/-- Every native function that is called belongs to one of some modules. -/
def Gated (modules : ℕ) (code : List UInt8) : Prop :=
  ∀ pos, 4 ∣ pos → pos < code.length → ∀ id, nativeAt? code pos = some id → Imported modules id

theorem Native.id_of_ofId? {id : ℕ} {f : Native} (h : Native.ofId? id = some f) : f.id = id := by
  unfold Native.ofId? at h
  split at h <;> cases h <;> rfl

instance decidableImported (modules id : ℕ) : Decidable (Imported modules id) :=
  match h : Native.ofId? id with
  | none => isFalse fun ⟨f, hf, _⟩ => by
    rw [← hf, Native.ofId?_id] at h
    cases h
  | some f =>
    decidable_of_iff (modules &&& f.runtime ≠ 0) ⟨fun hm => ⟨f, Native.id_of_ofId? h, hm⟩,
      fun ⟨g, hg, hm⟩ => by
        rw [← hg, Native.ofId?_id] at h
        cases h
        exact hm⟩

instance decidableGated (modules : ℕ) (code : List UInt8) : Decidable (Gated modules code) :=
  decidable_of_iff (∀ pos < code.length, 4 ∣ pos → ∀ id ∈ nativeAt? code pos, Imported modules id)
    ⟨fun h pos hpos hlt id hid => h pos hlt hpos id hid,
      fun h pos hlt hpos id hid => h pos hpos hlt id hid⟩

theorem Decls.ImportsGrow.trans {d d' d'' : Decls} (h₁ : d.ImportsGrow d')
    (h₂ : d'.ImportsGrow d'') : d.ImportsGrow d'' := by
  intro hex
  obtain ⟨hex', hmask'⟩ := h₁ hex
  obtain ⟨hex'', hmask''⟩ := h₂ hex'
  exact ⟨hex'', fun mask hm => hmask'' mask (hmask' mask hm)⟩

namespace Compiler

variable {st st' : CompilerState} {α β : Type} {modules : ℕ}

/-- An emitted call that nothing checked, before the first `@import` or where there is no check,
belongs to one of some modules. -/
def Foreseen (modules : ℕ) : (β : Type) → CompilerOp β → CompilerState → Prop
  | _, .emitInst op _ rs1 _, st => ∀ f : Native, op.native? rs1 = some f.id →
    st.decls.hasExplicitImports = false ∨ f ∈ Native.ungated → modules &&& f.runtime ≠ 0
  | _, _, _ => True

/-- An emitted call belongs to one of some modules. -/
def EmitsGated (modules : ℕ) : (β : Type) → CompilerOp β → CompilerState → Prop
  | _, .emitInst op _ rs1 _, _ => ∀ id, op.native? rs1 = some id → Imported modules id
  | _, _, _ => True

/-! ## One primitive -/

/-- What a primitive does to the code. -/
def CodeStep : (β : Type) → CompilerOp β → CompilerState → CompilerState → Prop
  | _, .emitInst op rd rs1 rs2, st, st' => st'.code = st.code ++ instBytes op rd rs1 rs2
  | _, .patchImm16 pos imm, st, st' => st'.code = st.code ∨ st'.code = patched st.code pos imm
  | _, _, st, st' => st'.code = st.code

/-- What a primitive does to the imports. -/
def ImportStep : (β : Type) → CompilerOp β → CompilerState → CompilerState → Prop
  | _, .setDecls d, _, st' => st'.decls = d
  | _, _, st, st' => st'.decls.hasExplicitImports = st.decls.hasExplicitImports ∧
    st'.decls.importedRuntimes = st.decls.importedRuntimes

theorem steps_perform (o : CompilerOp β) {b : β} (ho : perform β o st = .ok (b, st')) :
    CodeStep β o st st' ∧ ImportStep β o st st' := by
  cases o with
  | emitInst op rd rs1 rs2 =>
    simp only [perform, CompilerState.emitInst] at ho
    split at ho <;> cases ho
    exact ⟨rfl, rfl, rfl⟩
  | patchImm16 pos imm =>
    cases ho
    simp only [CompilerState.patchImm16]
    split
    · exact ⟨.inr rfl, rfl, rfl⟩
    · exact ⟨.inl rfl, rfl, rfl⟩
  | freeTemp reg =>
    cases ho
    simp only [CompilerState.freeTemp]
    split <;> exact ⟨rfl, rfl, rfl⟩
  | leaveFn =>
    cases ho
    simp only [CompilerState.leaveFn]
    split <;> exact ⟨rfl, rfl, rfl⟩
  | setDecls d =>
    cases ho
    exact ⟨rfl, rfl⟩
  | allocTemp | addConstant _ | appendTableConstant _ | declareVar _ _ | resolveVar _
  | appendStr _ | pushArray _ _ | negate _ | rangeLen _ _ =>
    simp only [perform, CompilerState.allocTemp, CompilerState.addConstant,
      CompilerState.pushConstant, CompilerState.declareVar, CompilerState.resolveVar,
      CompilerState.appendStr, CompilerState.pushArray, CompilerState.negate,
      CompilerState.rangeLen] at ho
    repeat' split at ho
    all_goals cases ho
    all_goals exact ⟨rfl, rfl, rfl⟩
  | _ =>
    cases ho
    exact ⟨rfl, rfl, rfl⟩

/-- The imports grow. -/
theorem importsGrow_perform {o : CompilerOp β} {b : β} (ho : perform β o st = .ok (b, st'))
    (hwell : WellOp β o st) : st.decls.ImportsGrow st'.decls := by
  have himp := (steps_perform o ho).2
  cases o with
  | setDecls d =>
    rw [show st'.decls = d from himp]
    exact hwell
  | _ => exact Decls.importsGrow_of_eq himp.1 himp.2

end Compiler

/-! ## Code with an instruction more -/

variable {code : List UInt8} {op : Opcode} {pos rd rs1 rs2 imm modules : ℕ}

theorem nativeAt?_append (rest : List UInt8) (h : pos + 2 < code.length) :
    nativeAt? (code ++ rest) pos = nativeAt? code pos := by
  rw [nativeAt?, nativeAt?, byteAt_append_left _ (by omega), byteAt_append_left _ h]

theorem nativeAt?_instBytes :
    nativeAt? (code ++ instBytes op rd rs1 rs2) code.length = op.native? (rs1 % 256) := by
  rw [nativeAt?, ofCode?_byteAt_instBytes, byteAt_append_right]
  change op.native? (UInt8.ofNat rs1).toNat = _
  rw [UInt8.toNat_ofNat']

/-- A patched jump calls nothing, and the other instructions stay. -/
theorem nativeAt?_patched (hpos : 4 ∣ pos) (hjump : JumpAt code pos) {j : ℕ} (hj : 4 ∣ j) :
    nativeAt? (patched code pos imm) j = nativeAt? code j := by
  have h₀ : byteAt (patched code pos imm) (j + 0) = byteAt code (j + 0) :=
    byteAt_patched hpos hj (by decide) (.inr (by decide))
  rw [Nat.add_zero] at h₀
  rw [nativeAt?, nativeAt?, h₀]
  by_cases hne : j = pos
  · obtain ⟨op, hop, hcode⟩ := hjump
    rw [hne, hcode]
    simp only [jumpOps, List.mem_cons, List.not_mem_nil, or_false] at hop
    rcases hop with rfl | rfl | rfl | rfl <;> rfl
  · rw [byteAt_patched hpos hj (by decide) (.inl hne)]

theorem gated_append (hdvd : 4 ∣ code.length) :
    Gated modules (code ++ instBytes op rd rs1 rs2) ↔
      Gated modules code ∧ ∀ id, op.native? (rs1 % 256) = some id → Imported modules id := by
  have hlen : (code ++ instBytes op rd rs1 rs2).length = code.length + 4 := by
    rw [List.length_append, length_instBytes]
  constructor
  · intro h
    refine ⟨fun pos hpos hlt id hid => ?_, fun id hid => ?_⟩
    · refine h pos hpos (by omega) id ?_
      rw [nativeAt?_append _ (by omega)]
      exact hid
    · refine h code.length hdvd (by omega) id ?_
      rw [nativeAt?_instBytes]
      exact hid
  · rintro ⟨hcode, hnew⟩ pos hpos hlt id hid
    rcases Nat.lt_or_ge pos code.length with hold | hend
    · rw [nativeAt?_append _ (by omega)] at hid
      exact hcode pos hpos hold id hid
    · have heq : pos = code.length := by omega
      rw [heq, nativeAt?_instBytes] at hid
      exact hnew id hid

theorem gated_patched (hpos : 4 ∣ pos) (hjump : JumpAt code pos) :
    Gated modules (patched code pos imm) ↔ Gated modules code := by
  refine forall_congr' fun j => forall_congr' fun hj => ?_
  rw [length_patched, nativeAt?_patched hpos hjump hj]

/-! ## A whole compilation -/

namespace Compiler

variable {st st' : CompilerState} {α β : Type}

/-- The operand of a call that is emitted is a native function that may be called. -/
theorem admits_of_native {id : ℕ} (hwell : WellOp ℕ (.emitInst op rd rs1 rs2) st)
    (hid : op.native? rs1 = some id) : ∃ f : Native, f.id = id ∧ st.decls.Admits f := by
  cases op with
  | callNat =>
    cases hid
    exact hwell rfl
  | streq =>
    cases hid
    exact ⟨.streq, rfl, fun _ => .inl (by decide)⟩
  | _ => cases hid

theorem native?_mod (hwell : WellOp ℕ (.emitInst op rd rs1 rs2) st) :
    op.native? (rs1 % 256) = op.native? rs1 := by
  cases op with
  | callNat =>
    obtain ⟨f, rfl, -⟩ := hwell rfl
    rw [Nat.mod_eq_of_lt f.id_lt]
  | _ => rfl

/-- A primitive adds the call it emits. -/
theorem gated_perform {o : CompilerOp β} {b : β} (ho : perform β o st = .ok (b, st'))
    (hwell : WellOp β o st) (hdvd : 4 ∣ st.code.length) :
    (Gated modules st'.code ↔ Gated modules st.code ∧ EmitsGated modules β o st) ∧
      4 ∣ st'.code.length := by
  have hcode := (steps_perform o ho).1
  cases o with
  | emitInst op rd rs1 rs2 =>
    rw [show st'.code = _ from hcode, gated_append hdvd, native?_mod hwell, List.length_append,
      length_instBytes]
    exact ⟨Iff.rfl, (Nat.dvd_add_right hdvd).mpr (by decide)⟩
  | patchImm16 pos imm =>
    rcases hcode with hcode | hcode
    · rw [hcode]
      exact ⟨(and_iff_left trivial).symm, hdvd⟩
    · rw [hcode, gated_patched hwell.1 hwell.2, length_patched]
      exact ⟨(and_iff_left trivial).symm, hdvd⟩
  | _ =>
    rw [show st'.code = st.code from hcode]
    exact ⟨(and_iff_left trivial).symm, hdvd⟩

/-- A run adds the calls it emits. -/
theorem gated_run {p : CompilerM α} {a : α} (hp : p.run perform st = .ok (a, st'))
    (hwell : p.Forall perform WellOp st) (hdvd : 4 ∣ st.code.length) :
    Gated modules st'.code ↔
      Gated modules st.code ∧ p.Forall perform (EmitsGated modules) st := by
  induction p generalizing st with
  | pure a =>
    cases hp
    exact (and_iff_left trivial).symm
  | throw e => cases hp
  | call o k ih =>
    simp only [Prog.run, Prog.Forall] at hp hwell ⊢
    cases hr : perform _ o st with
    | error e =>
      rw [hr] at hp
      cases hp
    | ok r =>
      rw [hr] at hp hwell
      obtain ⟨hstep, hdvd'⟩ : (Gated modules r.2.code ↔ _) ∧ _ := gated_perform hr hwell.1 hdvd
      rw [ih r.1 hp hwell.2 hdvd', hstep, and_assoc]
      exact Iff.rfl

theorem importsGrow_run {p : CompilerM α} {a : α} (hp : p.run perform st = .ok (a, st'))
    (hwell : p.Forall perform WellOp st) : st.decls.ImportsGrow st'.decls := by
  induction p generalizing st with
  | pure a =>
    cases hp
    exact Decls.importsGrow_of_eq rfl rfl
  | throw e => cases hp
  | call o k ih =>
    simp only [Prog.run, Prog.Forall] at hp hwell
    cases hr : perform _ o st with
    | error e =>
      rw [hr] at hp
      cases hp
    | ok r =>
      rw [hr] at hp hwell
      exact (importsGrow_perform hr hwell.1).trans (ih r.1 hp hwell.2)

/-- What was checked when it was emitted is imported at the end. -/
theorem emitsGated_iff_foreseen {o : CompilerOp β} (hwell : WellOp β o st) {d : Decls}
    (hgrow : st.decls.ImportsGrow d) :
    EmitsGated d.importedRuntimes β o st ↔ Foreseen d.importedRuntimes β o st := by
  cases o with
  | emitInst op rd rs1 rs2 =>
    constructor
    · intro h f hf _
      obtain ⟨g, hg, himp⟩ := h f.id hf
      have hfg := Native.ofId?_id f
      rw [← hg, Native.ofId?_id] at hfg
      cases hfg
      exact himp
    · intro h id hid
      obtain ⟨f, rfl, hadmits⟩ := admits_of_native hwell hid
      refine ⟨f, rfl, ?_⟩
      cases hex : st.decls.hasExplicitImports with
      | false => exact h f hid (.inl hex)
      | true =>
        rcases hadmits hex with hmem | himp
        · exact h f hid (.inr hmem)
        · exact (hgrow hex).2 _ himp
  | _ => exact Iff.rfl

theorem forall_emitsGated_iff {p : CompilerM α} {a : α} (hp : p.run perform st = .ok (a, st'))
    (hwell : p.Forall perform WellOp st) :
    p.Forall perform (EmitsGated st'.decls.importedRuntimes) st ↔
      p.Forall perform (Foreseen st'.decls.importedRuntimes) st := by
  induction p generalizing st with
  | pure a => exact Iff.rfl
  | throw e => exact Iff.rfl
  | call o k ih =>
    have hgrow := importsGrow_run hp hwell
    simp only [Prog.run, Prog.Forall] at hp hwell ⊢
    refine and_congr (emitsGated_iff_foreseen hwell.1 hgrow) ?_
    cases hr : perform _ o st with
    | error e => exact Iff.rfl
    | ok r =>
      rw [hr] at hp hwell
      exact ih r.1 hp hwell.2

/-- The code of an accepted source with an `@import` calls functions of imported modules only,
exactly when the calls that nothing checked are such. -/
theorem gated_iff (checks : Bool) (fuel : ℕ) (src : List UInt8) (tokens : List Token)
    (htokens : Lexer.tokenize src checks maxTokens = .ok tokens) (st : CompilerState)
    (hst : compileState checks fuel src = .ok st) :
    Gated st.decls.importedRuntimes st.code ↔
      (compile (recN fuel fuel)).Forall perform (Foreseen st.decls.importedRuntimes)
        (CompilerState.new src tokens checks) := by
  obtain ⟨tokens', htokens', hrun⟩ := compileState_eq_ok hst
  rw [htokens] at htokens'
  cases htokens'
  have hsafe := Prog.forall_of_run_ok perform_of_not_safeOp hrun
  have hwell := (compile_keeps_recN src tokens checks fuel hsafe).1
  rw [gated_run hrun hwell (Nat.dvd_zero 4), forall_emitsGated_iff hrun hwell]
  exact and_iff_right fun pos _ hlt => absurd hlt (Nat.not_lt_zero pos)

/-- The imports and the code a source is left with. -/
def importsOf (src : String) : Option (Bool × ℕ × List UInt8) :=
  (compileState true 60 (bytes src)).toOption.map fun st =>
    (st.decls.hasExplicitImports, st.decls.importedRuntimes, st.code)

theorem importsOf_eq_some {src : String} {r : Bool × ℕ × List UInt8} (h : importsOf src = some r) :
    ∃ st, compileState true 60 (bytes src) = .ok st ∧
      (st.decls.hasExplicitImports, st.decls.importedRuntimes, st.code) = r := by
  unfold importsOf at h
  cases hst : compileState true 60 (bytes src) with
  | error e =>
    rw [hst] at h
    cases h
  | ok st =>
    rw [hst] at h
    exact ⟨st, rfl, Option.some.inj h⟩

/-- A comparison of strings in a source that imports `core`. -/
def coreSource : String := "@import \"core\"; @println(@streq(\"a\", \"b\"));"

theorem coreSource_foreseen : ∃ st tokens, compileState true 60 (bytes coreSource) = .ok st ∧
    Lexer.tokenize (bytes coreSource) true maxTokens = .ok tokens ∧
    (compile (recN 60 60)).Forall perform (Foreseen st.decls.importedRuntimes)
      (CompilerState.new (bytes coreSource) tokens true) := by
  have hgated : (importsOf coreSource).any (fun r => decide (Gated r.2.1 r.2.2)) = true := by
    decide +kernel
  obtain ⟨r, hr, hg⟩ := (Option.any_eq_true _ _).mp hgated
  obtain ⟨st, hst, rfl⟩ := importsOf_eq_some hr
  obtain ⟨tokens, htok, -⟩ := compileState_eq_ok hst
  exact ⟨st, tokens, hst, htok,
    (gated_iff true 60 (bytes coreSource) tokens htok st hst).mp (of_decide_eq_true hg)⟩

/-- A comparison of strings in a source that imports `tiny` only. -/
def streqSource : String := "@import \"tiny\"; @streq(\"a\", \"b\");"

theorem streqSource_escapes :
    ¬ ∀ (checks : Bool) (fuel : ℕ) (src : List UInt8) (st : CompilerState),
      compileState checks fuel src = .ok st → st.decls.hasExplicitImports = true →
        Gated st.decls.importedRuntimes st.code := by
  intro hall
  have hbad : (importsOf streqSource).any (fun r => r.1 && !decide (Gated r.2.1 r.2.2)) = true := by
    decide +kernel
  obtain ⟨r, hr, hnot⟩ := (Option.any_eq_true _ _).mp hbad
  obtain ⟨st, hst, rfl⟩ := importsOf_eq_some hr
  rw [Bool.and_eq_true, Bool.not_eq_true', decide_eq_false_iff_not] at hnot
  exact hnot.2 (hall true 60 _ st hst hnot.1)

end Compiler

end LatencyOS
