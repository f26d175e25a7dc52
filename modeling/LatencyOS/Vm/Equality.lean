import LatencyOS.Lib.Reading
import LatencyOS.Vm.Exec

/-!
# Equality on the machine

`CMP_EQ`, `CMP_NE`, `STREQ` and the native `@streq` each compare two words with a body of their
own.  Words that refer to a text are equal when the texts are.

## Main definitions

* `PX64VM.Same`: two words are the same on a machine.

## Main results

* `equality_isOneRelation`: the four bodies decide `Same`, which is an equivalence.
-/

namespace LatencyOS

namespace PX64VM

variable {str : Word64 → Option (List UInt8)} {x y : Word64}

/-- Two words are the same on a machine: equal, or references to the same text. -/
def Same (vm : PX64VM) (x y : Word64) : Prop := SameReading vm.getStrBytes x y

instance (vm : PX64VM) (x y : Word64) : Decidable (vm.Same x y) :=
  inferInstanceAs (Decidable (SameReading _ _ _))

/-- Only words with a tag refer to a text. -/
theorem tagged_of_getStrBytes {vm : PX64VM} {s : List UInt8} (h : vm.getStrBytes x = some s) :
    (hasTag x strTag || hasTag x argTag) = true := by
  unfold getStrBytes at h
  split at h
  · next hstr => rw [hstr, Bool.true_or]
  split at h
  · next harg => rw [harg, Bool.or_true]
  · cases h

theorem strEq_eq_true_iff : strEq str x y = true ↔ SameReading str x y := by
  unfold strEq
  by_cases hxy : x = y
  · rw [if_pos hxy]
    exact iff_of_true rfl (.inl hxy)
  rw [if_neg hxy]
  cases hx : str x with
  | none => simp [sameReading_of_eq_none hx, hxy]
  | some s =>
    cases hy : str y with
    | none => simp [SameReading, hxy, hx, hy]
    | some t => simpa [SameReading, hxy, hx, hy] using eq_comm (a := s) (b := t)

/-- Looking at the tags first makes no difference. -/
theorem cmpEq_eq_strEq (vm : PX64VM) (x y : Word64) :
    cmpEq vm.getStrBytes x y = strEq vm.getStrBytes x y := by
  unfold cmpEq
  by_cases hxy : x = y
  · rw [if_pos hxy, strEq, if_pos hxy]
  rw [if_neg hxy]
  split
  · rfl
  · next htags =>
    rw [eq_comm, Bool.eq_false_iff, ne_eq, strEq_eq_true_iff]
    rintro (heq | ⟨s, hx, hy⟩)
    · exact hxy heq
    · rw [tagged_of_getStrBytes hx, tagged_of_getStrBytes hy] at htags
      exact htags rfl

theorem strEq_eq_decide (vm : PX64VM) (x y : Word64) :
    strEq vm.getStrBytes x y = decide (vm.Same x y) :=
  Bool.eq_iff_iff.mpr (strEq_eq_true_iff.trans decide_eq_true_iff.symm)

theorem cmpEq_eq_decide (vm : PX64VM) (x y : Word64) :
    cmpEq vm.getStrBytes x y = decide (vm.Same x y) :=
  (cmpEq_eq_strEq vm x y).trans (strEq_eq_decide vm x y)

/-- What an instruction leaves in its destination. -/
def verdict (host : Host) (vm : PX64VM) (op : Opcode) (rd rs1 rs2 : ℕ) : Option Word64 :=
  match vm.exec host op rd rs1 rs2 with
  | .ok vm' => some (vm'.regs rd)
  | .error _ => none

/-- A register of the machine. -/
abbrev Reg := Fin px64NumRegisters

theorem verdict_alu {host : Host} {vm : PX64VM} {op : Opcode} {f : Word64 → Word64 → Word64}
    {rd a b : Reg} (h : vm.exec host op rd a b = .ok (vm.alu rd a b f)) :
    verdict host vm op rd a b = some (f (vm.regs a) (vm.regs b)) := by
  rw [verdict, h, alu_of_lt vm rd.isLt a.isLt b.isLt]
  exact congrArg some (Function.update_self ..)

theorem verdict_native {host : Host} {vm vm' : PX64VM} {f : Native} {v : Word64} {rd arg : Reg}
    (h : vm.callNative host f arg (vm.regs arg) = .ok (v, vm')) :
    verdict host vm .callNat rd f.id arg = some v := by
  have harg : vm.regOr arg 0#64 = vm.regs arg := if_pos arg.isLt
  simp only [verdict, exec, Native.ofId?_id, harg, h, setReg_of_lt vm' rd.isLt,
    Function.update_self]

/-- The comparisons of two registers and the native comparison of two neighbouring registers all
decide one equivalence; `CMP_NE` decides its complement. -/
theorem equality_isOneRelation (host : Host) (vm : PX64VM) :
    Equivalence vm.Same ∧
    (∀ rd a b : Reg,
      verdict host vm .cmpEq rd a b = some (boolWord (decide (vm.Same (vm.regs a) (vm.regs b)))) ∧
      verdict host vm .streq rd a b = some (boolWord (decide (vm.Same (vm.regs a) (vm.regs b)))) ∧
      verdict host vm .cmpNe rd a b =
        some (boolWord (decide (¬ vm.Same (vm.regs a) (vm.regs b))))) ∧
    ∀ (rd : Reg) (b : Fin 19),
      verdict host vm .callNat rd Native.streq.id b.succ =
        some (boolWord (decide (vm.Same (vm.regs b.succ) (vm.regs b)))) := by
  refine ⟨sameReading_equivalence _, fun rd a b => ⟨?_, ?_, ?_⟩, fun rd b => ?_⟩
  · rw [verdict_alu (exec_alu host vm rfl rd a b), cmpEq_eq_decide]
  · rw [verdict_alu (f := fun a b => boolWord (strEq vm.getStrBytes a b)) rfl, strEq_eq_decide]
  · rw [verdict_alu (exec_alu host vm rfl rd a b), cmpEq_eq_decide, decide_not]
  · have hbelow : vm.argBelow b.succ 1 0#64 = .ok (vm.regs b) := by
      have hlt : (b : ℕ) < px64NumRegisters := Nat.lt_succ_of_lt b.isLt
      rw [Fin.val_succ, argBelow, if_pos (Nat.le_add_left 1 b), Nat.add_sub_cancel, if_pos hlt]
    refine @verdict_native host vm vm .streq _ rd b.succ ?_
    simp only [callNative, hbelow, strEq_eq_decide]
    rfl

end PX64VM

/-!
## Result values

`@ok` and `@err` keep one bit of the word for the tag, so a payload has the other sixty-three.

### Main definitions

* `payload`: what is left of a word in a result value.
* `okWord`, `errWord`: the two kinds of result values.

### Main results

* `payload_eq_iff`: a payload is the word itself exactly when the bit of the tag is clear.
* `okWord_ne_errWord`, `same_result_iff`: the two kinds differ as words; comparing them takes them
  for equal only when both refer to the same argument.
-/

variable {v w : Word64} {i : ℕ}

/-- A tag of one bit. -/
theorem hasTag_twoPow (hi : i < 64) : hasTag v (BitVec.twoPow 64 i) = v.getLsbD i := by
  have hne : BitVec.twoPow 64 i ≠ 0#64 := by
    intro h
    have hbit := congrArg (BitVec.getLsbD · i) h
    simp [hi] at hbit
  rw [hasTag, BitVec.and_twoPow]
  split
  · next hbit => rw [hbit, bne_iff_ne.mpr hne]
  · next hbit => rw [Bool.eq_false_iff.mpr hbit, bne_self_eq_false]

theorem errTag_eq : errTag = BitVec.twoPow 64 60 := rfl

theorem argTag_eq : argTag = BitVec.twoPow 64 61 := rfl

/-- What a result value keeps of a word. -/
def payload (v : Word64) : Word64 := v &&& ~~~errTag

/-- `@ok`. -/
def okWord (v : Word64) : Word64 := payload v

/-- `@err`. -/
def errWord (v : Word64) : Word64 := errTag ||| payload v

theorem getLsbD_payload : (payload v).getLsbD i = (v.getLsbD i && decide (i ≠ 60)) := by
  rw [payload, errTag_eq, BitVec.getLsbD_and, BitVec.getLsbD_not, BitVec.getLsbD_twoPow]
  by_cases hi : i < 64
  · by_cases h60 : i = 60
    · subst h60
      simp
    · simp [hi, h60, Ne.symm h60]
  · simp [BitVec.getLsbD_of_ge v i (by omega)]

theorem hasTag_okWord : hasTag (okWord v) errTag = false := by
  rw [errTag_eq, hasTag_twoPow (by decide), okWord, getLsbD_payload]
  simp

theorem hasTag_errWord : hasTag (errWord v) errTag = true := by
  rw [errTag_eq, hasTag_twoPow (by decide), errWord, BitVec.getLsbD_or, errTag_eq,
    BitVec.getLsbD_twoPow]
  simp

/-- The tag is taken off. -/
theorem errWord_xor : errWord v ^^^ errTag = payload v := by
  refine BitVec.eq_of_getLsbD_eq fun i hi => ?_
  rw [errWord, BitVec.getLsbD_xor, BitVec.getLsbD_or, getLsbD_payload, errTag_eq,
    BitVec.getLsbD_twoPow]
  by_cases h60 : i = 60
  · subst h60
    simp
  · simp [h60, Ne.symm h60]

/-- A payload is the word itself exactly when the bit of the tag is clear. -/
theorem payload_eq_iff : payload v = v ↔ v.getLsbD 60 = false := by
  constructor
  · intro h
    rw [← h, getLsbD_payload]
    simp
  · intro h
    refine BitVec.eq_of_getLsbD_eq fun i hi => ?_
    rw [getLsbD_payload]
    by_cases h60 : i = 60
    · rw [h60, h]
      rfl
    · simp [h60]

theorem okWord_ne_errWord : okWord v ≠ errWord w := by
  intro h
  have htag := hasTag_errWord (v := w)
  rw [← h, hasTag_okWord] at htag
  cases htag

namespace PX64VM

/-- The two kinds are taken for equal only as references. -/
theorem same_result_iff (vm : PX64VM) : vm.Same (okWord v) (errWord w) ↔
    ∃ s, vm.getStrBytes (okWord v) = some s ∧ vm.getStrBytes (errWord w) = some s :=
  or_iff_right okWord_ne_errWord

end PX64VM

end LatencyOS
