import LatencyOS.Vm.Safety

/-!
# What one instruction can change

Nine instructions define, store to a table, or transfer control.  Every other instruction
leaves the tables, the instruction pointer and the call stack alone: `Plain` says what it may
change, and everything else about a plain step follows from that.
-/

namespace LatencyOS

namespace PX64VM

/-- The state after an instruction that neither writes an array or a struct nor transfers
control. -/
def Plain (vm vm' : PX64VM) : Prop :=
  ∃ regs spillSlots deadlineStack dlSp tableLens tableBases vram steps output asked,
    vm' = { vm with
      regs := regs
      spillSlots := spillSlots
      deadlineStack := deadlineStack
      dlSp := dlSp
      tableLens := tableLens
      tableBases := tableBases
      vram := vram
      steps := steps
      output := output
      asked := asked }

variable {vm vm' vm'' : PX64VM}

theorem Plain.refl (vm : PX64VM) : Plain vm vm := ⟨_, _, _, _, _, _, _, _, _, _, rfl⟩

theorem Plain.trans (h₁ : Plain vm vm') (h₂ : Plain vm' vm'') : Plain vm vm'' := by
  obtain ⟨_, _, _, _, _, _, _, _, _, _, rfl⟩ := h₁
  obtain ⟨_, _, _, _, _, _, _, _, _, _, rfl⟩ := h₂
  exact ⟨_, _, _, _, _, _, _, _, _, _, rfl⟩

theorem plain_setReg (vm : PX64VM) (rd : ℕ) (v : Word64) : Plain vm (vm.setReg rd v) := by
  unfold setReg
  split
  · exact ⟨_, _, _, _, _, _, _, _, _, _, rfl⟩
  · exact .refl vm

theorem plain_alu (vm : PX64VM) (rd rs1 rs2 : ℕ) (f : Word64 → Word64 → Word64) :
    Plain vm (vm.alu rd rs1 rs2 f) := by
  unfold alu
  split
  · exact ⟨_, _, _, _, _, _, _, _, _, _, rfl⟩
  · exact .refl vm

theorem plain_write (vm : PX64VM) (text : List UInt8) : Plain vm (vm.write text) :=
  ⟨_, _, _, _, _, _, _, _, _, _, rfl⟩

theorem plain_getTsc (host : Host) (vm : PX64VM) : Plain vm (vm.getTsc host).2 := by
  unfold getTsc
  split
  · split <;> exact ⟨_, _, _, _, _, _, _, _, _, _, rfl⟩
  · exact ⟨_, _, _, _, _, _, _, _, _, _, rfl⟩

theorem plain_getUptimeNs (host : Host) (vm : PX64VM) : Plain vm (vm.getUptimeNs host).2 := by
  unfold getUptimeNs
  split
  · split <;> exact ⟨_, _, _, _, _, _, _, _, _, _, rfl⟩
  · exact ⟨_, _, _, _, _, _, _, _, _, _, rfl⟩

theorem plain_vramWrite (vm : PX64VM) (slot offset : ℕ) (val : Word64) :
    Returns (Plain vm) (vm.vramWrite slot offset val) := by
  unfold vramWrite
  refine .ite (returns_error _) (.ite ((returns_ok _).mpr ?_) ((returns_ok _).mpr (.refl vm)))
  exact ⟨_, _, _, _, _, _, _, _, _, _, rfl⟩

/-- Every native is plain. -/
theorem plain_callNative (host : Host) (vm : PX64VM) (f : Native) (argReg : ℕ)
    (argVal : Word64) : Returns (fun r => Plain vm r.2) (vm.callNative host f argReg argVal) := by
  by_cases hc : f ∈ commonNatives
  · rw [callNative_common host vm hc, returns_bind]
    exact fun _ _ => (returns_ok _).mpr (.refl vm)
  · cases f <;> first
      | exact absurd (by decide) hc
      | simp only [callNative, returns_ok, returns_bind]
    case sysTsc => exact plain_getTsc host vm
    case uptimeNs => exact plain_getUptimeNs host vm
    case vramWrite => exact fun _ _ _ _ => plain_vramWrite _ _ _ _
    all_goals first
      | exact ⟨_, _, _, _, _, _, _, _, _, _, rfl⟩
      | exact fun _ _ => ⟨_, _, _, _, _, _, _, _, _, _, rfl⟩
      | exact fun _ _ _ _ => ⟨_, _, _, _, _, _, _, _, _, _, rfl⟩

/-- The instructions that are not plain. -/
def structuralOps : List Opcode :=
  [.arrDef, .arrStore, .structDef, .structStore, .call, .ret, .jmp, .jz, .jnz]

theorem plain_execCommon (lim : TableLimits) (str : Word64 → Option (List UInt8)) (vm : PX64VM)
    {op : Opcode} (hop : op ∉ structuralOps) (rd rs1 rs2 : ℕ) :
    Returns (Plain vm) (vm.execCommon lim str op rd rs1 rs2) := by
  cases op <;> first
    | exact absurd (by decide) hop
    | simp only [execCommon]
  all_goals repeat' split
  all_goals first
    | exact returns_error _
    | exact (returns_ok _).mpr (plain_setReg ..)
    | exact (returns_ok _).mpr (plain_alu ..)
    | exact (returns_ok _).mpr ⟨_, _, _, _, _, _, _, _, _, _, rfl⟩

/-- Every instruction outside `structuralOps` is plain. -/
theorem plain_exec (host : Host) (vm : PX64VM) {op : Opcode} (hop : op ∉ structuralOps)
    (rd rs1 rs2 : ℕ) : Returns (Plain vm) (vm.exec host op rd rs1 rs2) := by
  have hup := plain_getUptimeNs host vm
  by_cases hc : op ∈ ownOps
  · cases op <;> first
      | exact absurd hc (by decide)
      | simp only [exec]
    case callNat =>
      split
      · exact (returns_ok _).mpr (plain_setReg ..)
      · next f _ =>
        have key := plain_callNative host vm f rs2 (vm.regOr rs2 0#64)
        split
        · next ret vm' h => exact (returns_ok _).mpr ((key _ h).trans (plain_setReg ..))
        · exact returns_error _
    case withinStart =>
      refine .ite ((returns_ok _).mpr (hup.trans ?_)) ((returns_ok _).mpr hup)
      exact ⟨_, _, _, _, _, _, _, _, _, _, rfl⟩
    case drop =>
      refine .ite (.ite ((returns_ok _).mpr (hup.trans ?_)) ((returns_ok _).mpr hup))
        ((returns_ok _).mpr (.refl vm))
      exact plain_write _ _
    case halt => exact returns_error _
    case ret => exact absurd (by decide) hop
    case tblLoad =>
      refine .ite (returns_error _) (.ite (returns_error _) ?_)
      split
      · exact returns_error _
      · exact (returns_ok _).mpr (plain_setReg ..)
  · rw [exec_common host vm hc]
    exact plain_execCommon _ _ _ hop _ _ _

/-- A step that succeeds executed an instruction. -/
theorem fetches_of_step {host : Host} (h : vm.step host = .ok vm') :
    ∃ op rd rs1 rs2, vm.Fetches op rd rs1 rs2 ∧ vm.advance.exec host op rd rs1 rs2 = .ok vm' := by
  by_cases hf : ∃ op rd rs1 rs2, vm.Fetches op rd rs1 rs2
  · obtain ⟨op, rd, rs1, rs2, hf⟩ := hf
    exact ⟨op, rd, rs1, rs2, hf, hf.step_eq host ▸ h⟩
  · simp only [not_exists] at hf
    obtain ⟨r, hr, _⟩ := step_of_not_fetches hf host
    rw [hr] at h
    cases h

end PX64VM

namespace PX64VM

/-!
## The flow of control

Where a step takes the instruction pointer and the call stack: to the next instruction, to the
target of a jump, into a function or back from one.
-/

/-- How a step that executes `op` moves control. -/
inductive Flow (vm vm' : PX64VM) (op : Opcode) (target : ℕ) : Prop
  | next (hop : op ≠ .halt) (hip : vm'.ip = vm.ip + 4) (hsp : vm'.callSp = vm.callSp)
    (hstack : vm'.callStack = vm.callStack)
  | jump (hop : op = .jmp ∨ op = .jz ∨ op = .jnz) (hip : vm'.ip = target)
    (hsp : vm'.callSp = vm.callSp) (hstack : vm'.callStack = vm.callStack)
  | call (hop : op = .call) (hip : vm'.ip = target) (hsp : vm'.callSp = vm.callSp + 1)
    (hstack : vm'.callStack = Function.update vm.callStack vm.callSp ((vm.ip + 4) % 65536))
  | ret (hop : op = .ret) (hdepth : 0 < vm.callSp) (hip : vm'.ip = vm.callStack (vm.callSp - 1))
    (hsp : vm'.callSp = vm.callSp - 1) (hstack : vm'.callStack = vm.callStack)

variable {vm vm' : PX64VM} {op : Opcode} {rd rs1 rs2 : ℕ} {host : Host}

theorem Plain.flow (h : Plain vm.advance vm') (hop : op ≠ .halt) (target : ℕ) :
    Flow vm vm' op target := by
  obtain ⟨_, _, _, _, _, _, _, _, _, _, rfl⟩ := h
  exact .next hop rfl rfl rfl

/-- The instructions that define and store leave control alone. -/
theorem flow_store (hop : op ∈ [Opcode.arrDef, .arrStore, .structDef, .structStore])
    (h : vm.advance.exec host op rd rs1 rs2 = .ok vm') (target : ℕ) : Flow vm vm' op target := by
  have hhalt : op ≠ .halt := by
    rintro rfl
    exact absurd hop (by decide)
  have hown : op ∉ ownOps := by
    intro hmem
    cases op <;> first | exact absurd hop (by decide) | exact absurd hmem (by decide)
  rw [exec_common host _ hown] at h
  cases op <;> first | exact absurd hop (by decide) | simp only [execCommon] at h
  all_goals
    repeat' split at h
    all_goals cases h
    all_goals exact .next hhalt rfl rfl rfl

/-- An executed instruction moves control in one of the four ways. -/
theorem flow_exec (h : vm.advance.exec host op rd rs1 rs2 = .ok vm') :
    Flow vm vm' op (rs1 * 256 + rs2) := by
  by_cases hop : op ∈ structuralOps
  · cases op <;> first
      | exact absurd hop (by decide)
      | exact flow_store (by decide) h _
      | simp only [exec, execCommon] at h
    case call =>
      split at h
      · cases h
      · cases h
        exact .call rfl rfl rfl rfl
    case ret =>
      split at h
      · cases h
      · next hdepth =>
        cases h
        exact .ret rfl (Nat.pos_of_ne_zero hdepth) rfl rfl rfl
    case jmp =>
      cases h
      exact .jump (.inl rfl) rfl rfl rfl
    case jz =>
      cases h
      split
      · exact .jump (.inr (.inl rfl)) rfl rfl rfl
      · exact .next (by decide) rfl rfl rfl
    case jnz =>
      cases h
      split
      · exact .jump (.inr (.inr rfl)) rfl rfl rfl
      · exact .next (by decide) rfl rfl rfl
  · refine Plain.flow (plain_exec host _ hop rd rs1 rs2 vm' h) ?_ _
    rintro rfl
    simp only [exec] at h
    cases h

/-- A step moves control in one of the four ways. -/
theorem flow_step (h : vm.step host = .ok vm') :
    ∃ op rd rs1 rs2, vm.Fetches op rd rs1 rs2 ∧ Flow vm vm' op (rs1 * 256 + rs2) := by
  obtain ⟨op, rd, rs1, rs2, hf, hexec⟩ := fetches_of_step h
  exact ⟨op, rd, rs1, rs2, hf, flow_exec hexec⟩

/-! ## Where a run ends normally -/

/-- The machine stops without an error. -/
def Halts {α : Type} (x : Except (Stop × PX64VM) α) : Prop := Raises (fun r => r.1 = .ok) x

section Halts

variable {α β : Type}

@[simp] theorem halts_ok (a : α) : ¬ Halts (.ok a : Except (Stop × PX64VM) α) := raises_ok a

@[simp] theorem halts_fail (vm : PX64VM) (c m : String) :
    ¬ Halts (vm.fail c m : Except (Stop × PX64VM) α) := by
  simp [Halts, fail]

@[simp] theorem halts_panicked (vm : PX64VM) :
    ¬ Halts (vm.panicked : Except (Stop × PX64VM) α) := by
  simp [Halts, panicked]

@[simp] theorem halts_ite (c : Prop) [Decidable c] (x y : Except (Stop × PX64VM) α) :
    Halts (if c then x else y) ↔ (c ∧ Halts x) ∨ (¬ c ∧ Halts y) := raises_ite c x y

@[simp] theorem halts_bind (x : Except (Stop × PX64VM) α) (f : α → Except (Stop × PX64VM) β) :
    Halts (x >>= f) ↔ Halts x ∨ ∃ a, x = .ok a ∧ Halts (f a) := raises_bind x f

@[simp] theorem halts_argBelow (vm : PX64VM) (argReg k : ℕ) (d : Word64) :
    ¬ Halts (vm.argBelow argReg k d) := by
  unfold argBelow
  simp

end Halts

theorem not_halts_callNative (host : Host) (vm : PX64VM) (f : Native) (argReg : ℕ)
    (argVal : Word64) : ¬ Halts (vm.callNative host f argReg argVal) := by
  by_cases hf : f ∈ commonNatives
  · rw [callNative_common host vm hf]
    cases f <;> simp [callNativeCommon]
  · cases f <;> simp [callNative, callNativeCommon, vramRead, vramWrite]
    split <;> simp

theorem not_halts_execCommon (lim : TableLimits) (str : Word64 → Option (List UInt8)) :
    ¬ Halts (vm.execCommon lim str op rd rs1 rs2) := by
  cases op <;> simp only [execCommon, halts_ite, halts_ok, halts_fail, halts_panicked, and_false,
    or_false, not_false_eq_true]
  split <;> simp

/-- Only `HALT` and a return at depth zero end a run normally. -/
theorem halts_exec (h : Halts (vm.exec host op rd rs1 rs2)) :
    op = .halt ∨ op = .ret ∧ vm.callSp = 0 := by
  by_cases hown : op ∈ ownOps
  · cases op <;> first
      | exact absurd hown (by decide)
      | simp only [exec] at h
    case halt => exact .inl rfl
    case ret =>
      split at h
      · next hdepth => exact .inr ⟨rfl, hdepth⟩
      · exact absurd h (halts_ok _)
    case tblLoad =>
      repeat' split at h
      all_goals simp at h
    case callNat =>
      split at h
      · exact absurd h (halts_ok _)
      · next f _ =>
        have hnot := not_halts_callNative host vm f rs2 (vm.regOr rs2 0#64)
        split at h
        · exact absurd h (halts_ok _)
        · next r hr =>
          rw [hr, Halts, raises_error] at hnot
          rw [Halts, raises_error] at h
          exact absurd h hnot
    case withinStart =>
      repeat' split at h
      all_goals exact absurd h (halts_ok _)
    case drop =>
      repeat' split at h
      all_goals exact absurd h (halts_ok _)
  · rw [exec_common host vm hown] at h
    exact absurd h (not_halts_execCommon _ _)

end PX64VM

end LatencyOS
