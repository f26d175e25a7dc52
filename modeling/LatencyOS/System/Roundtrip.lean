import LatencyOS.Compiler.Rules
import LatencyOS.Compiler.Compile

/-!
# The container round trip

The encoder of `compile_pulse_to_binary_with_tokens` and the loader of
`run_binary_with_output` are written apart.  They agree on every program within the
capacities of the compiler, and the header accounts for every byte, so that no proper
prefix of a container is ever run.
-/

namespace LatencyOS

/-! ## Numbers as bytes -/

theorem headerBytes_value {n : ℕ} (h : n < 65536) :
    (UInt8.ofNat (n / 256)).toNat * 256 + (UInt8.ofNat n).toNat = n := by
  simp only [UInt8.toNat_ofNat']
  omega

theorem beNat_reverse (l : List UInt8) : beNat l.reverse = leNat l := by
  rw [beNat, List.foldl_reverse]
  induction l with
  | nil => rfl
  | cons b l ih => rw [List.foldr_cons, ih, leNat, Nat.mul_comm, Nat.add_comm]

/-- The bytes of a word give it back. -/
theorem leNat_toLeBytes (v : Word64) : leNat (toLeBytes v) = v.toNat := by
  have h := v.isLt
  have hrange : List.range 8 = [0, 1, 2, 3, 4, 5, 6, 7] := rfl
  simp only [toLeBytes, hrange, List.map_cons, List.map_nil, leNat, BitVec.toNat_ushiftRight,
    Nat.shiftRight_eq_div_pow, UInt8.toNat_ofNat', Nat.reduceMul, Nat.reducePow]
  omega

theorem ofNat_beNat_toBeBytes (v : Word64) : BitVec.ofNat 64 (beNat (toBeBytes v)) = v := by
  rw [toBeBytes, beNat_reverse, leNat_toLeBytes, BitVec.ofNat_toNat, BitVec.setWidth_eq]

theorem length_toBeBytes (v : Word64) : (toBeBytes v).length = 8 := by
  simp only [toBeBytes, toLeBytes, List.length_reverse, List.length_map, List.length_range]

theorem length_flatMap_toBeBytes (c : List Word64) :
    (c.flatMap toBeBytes).length = c.length * 8 := by
  induction c with
  | nil => rfl
  | cons v c ih =>
    rw [List.flatMap_cons, List.length_append, length_toBeBytes, ih, List.length_cons]
    omega

/-- The eight bytes of one constant among all. -/
theorem take_drop_flatMap_toBeBytes (consts : List Word64) (i : ℕ)
    (hi : i < consts.length) :
    ((consts.flatMap toBeBytes).drop (i * 8)).take 8 = toBeBytes consts[i] := by
  induction consts generalizing i with
  | nil => exact absurd hi (Nat.not_lt_zero i)
  | cons v consts ih =>
    rw [List.flatMap_cons]
    cases i with
    | zero =>
      rw [Nat.zero_mul, List.drop_zero, ← length_toBeBytes v, List.take_left]
      rfl
    | succ i =>
      have hdrop : (i + 1) * 8 = (toBeBytes v).length + i * 8 := by
        rw [length_toBeBytes]
        omega
      rw [hdrop, List.drop_length_add_append]
      exact ih i (Nat.lt_of_succ_lt_succ hi)

/-! ## Header and payload -/

/-- A program within the sixteen-bit counts of the header and the constants the loader reads. -/
structure Program.Encodable (p : Program) : Prop where
  code : p.code.length < 65536
  strPool : p.strPool.length < 65536
  constPool : p.constPool.length ≤ maxConstPool

namespace Program

variable {p : Program}

/-- The sixteen bytes before the payload. -/
def header (p : Program) : List UInt8 :=
  px64BinMagic ++ headerBytes px64BinVersion ++ headerBytes p.code.length ++
    headerBytes p.strPool.length ++ headerBytes p.constPool.length ++
    headerBytes px64NumRegisters ++ headerBytes 0

/-- The sections after the header. -/
def payload (p : Program) : List UInt8 := p.code ++ (p.strPool ++ p.constPool.flatMap toBeBytes)

theorem toBinary_eq (p : Program) : p.toBinary = p.header ++ p.payload := by
  simp only [toBinary, header, payload, List.append_assoc]

@[simp] theorem length_header (p : Program) : p.header.length = px64HeaderSize := rfl

theorem length_payload (p : Program) :
    p.payload.length = p.code.length + p.strPool.length + p.constPool.length * 8 := by
  simp only [payload, List.length_append, length_flatMap_toBeBytes, Nat.add_assoc]

theorem length_toBinary (p : Program) : p.toBinary.length =
    px64HeaderSize + p.code.length + p.strPool.length + p.constPool.length * 8 := by
  rw [toBinary_eq, List.length_append, length_header, length_payload]
  omega

/-- What a reader of the header finds in the header and any bytes after it. -/
structure Headed (p : Program) (bin : List UInt8) : Prop where
  magic : bin.take 4 = px64BinMagic
  version : headerField bin 4 = px64BinVersion
  code : headerField bin 6 = p.code.length
  strPool : headerField bin 8 = p.strPool.length
  constPool : headerField bin 10 = p.constPool.length

theorem headed_append (h : p.Encodable) (rest : List UInt8) : p.Headed (p.header ++ rest) := by
  have hversion : px64BinVersion < 65536 := by decide
  have hconst : p.constPool.length < 65536 := Nat.lt_of_le_of_lt h.constPool (by decide)
  refine ⟨rfl, ?_, ?_, ?_, ?_⟩
  · exact headerBytes_value hversion
  · exact headerBytes_value h.code
  · exact headerBytes_value h.strPool
  · exact headerBytes_value hconst

theorem drop_payload (p : Program) (n : ℕ) :
    p.toBinary.drop (px64HeaderSize + n) = p.payload.drop n := by
  rw [toBinary_eq, ← length_header p, List.drop_length_add_append]

/-- **The loader gives back the program that was encoded.** -/
theorem loadBinary_toBinary (h : p.Encodable) : loadBinary p.toBinary = .ok p := by
  have hlen := p.length_toBinary
  have hhead : p.Headed p.toBinary := by
    rw [toBinary_eq]
    exact headed_append h _
  have hcode : (p.toBinary.drop px64HeaderSize).take p.code.length = p.code := by
    rw [← Nat.add_zero px64HeaderSize, drop_payload, List.drop_zero, payload, List.take_left]
  have hstr : (p.toBinary.drop (px64HeaderSize + p.code.length)).take p.strPool.length =
      p.strPool := by
    rw [drop_payload, payload, List.drop_left, List.take_left]
  have hconst : ((List.range (min p.constPool.length maxConstPool)).map fun i =>
      BitVec.ofNat 64 (beNat ((p.toBinary.drop
        (px64HeaderSize + p.code.length + p.strPool.length + i * 8)).take 8))) = p.constPool := by
    rw [Nat.min_eq_left h.constPool]
    refine List.ext_getElem (by simp) fun i hi hi' => ?_
    have hdrop : p.toBinary.drop (px64HeaderSize + p.code.length + p.strPool.length + i * 8) =
        (p.constPool.flatMap toBeBytes).drop (i * 8) := by
      rw [Nat.add_assoc, Nat.add_assoc, drop_payload, payload, List.drop_length_add_append,
        List.drop_length_add_append]
    rw [List.getElem_map, List.getElem_range, hdrop, take_drop_flatMap_toBeBytes _ _ hi',
      ofNat_beNat_toBeBytes]
  unfold loadBinary
  simp only [hhead.code, hhead.strPool, hhead.constPool, hcode, hstr, hconst]
  rw [if_pos ⟨by omega, hhead.magic⟩, if_neg (not_not.mpr hhead.version), if_neg (by omega)]

/-- A byte before the end of a prefix. -/
theorem byteAt_take {bin : List UInt8} {n i : ℕ} (h : i < n) :
    byteAt (bin.take n) i = byteAt bin i := by
  simp only [byteAt, List.getD_eq_getElem?_getD, List.getElem?_take, if_pos h]

theorem Headed.take {bin : List UInt8} (h : p.Headed bin) {n : ℕ} (hn : px64HeaderSize ≤ n) :
    p.Headed (bin.take n) := by
  have hfield : ∀ i, i + 1 < px64HeaderSize → headerField (bin.take n) i = headerField bin i := by
    intro i hi
    simp only [headerField]
    rw [byteAt_take (by omega), byteAt_take (by omega)]
  have hmin : min 4 n = 4 := Nat.min_eq_left (Nat.le_trans (by decide) hn)
  refine ⟨?_, ?_, ?_, ?_, ?_⟩
  · rw [List.take_take, hmin, h.magic]
  · rw [hfield 4 (by decide), h.version]
  · rw [hfield 6 (by decide), h.code]
  · rw [hfield 8 (by decide), h.strPool]
  · rw [hfield 10 (by decide), h.constPool]

/-- How the loader refuses bytes that are not a whole container. -/
def Refused (r : Except CompileError Program) : Prop :=
  r = .error (.simple "ERR_BINARY_TRUNCATED" "Truncated px64 binary payload") ∨
    r = .error (.simple "ERR_BINARY_INVALID_MAGIC"
      "Invalid executable binary magic (expected PX64)")

/-- A container cut anywhere is refused. -/
theorem refused_take_toBinary (h : p.Encodable) {n : ℕ} (hn : n < p.toBinary.length) :
    Refused (loadBinary (p.toBinary.take n)) := by
  have hlen : (p.toBinary.take n).length = n := by
    rw [List.length_take, Nat.min_eq_left (Nat.le_of_lt hn)]
  have htotal := p.length_toBinary
  unfold loadBinary
  by_cases hsize : px64HeaderSize ≤ n
  · have hhead : p.Headed (p.toBinary.take n) := by
      refine Headed.take ?_ hsize
      rw [toBinary_eq]
      exact headed_append h _
    left
    simp only [hhead.code, hhead.strPool, hhead.constPool]
    rw [if_pos ⟨by omega, hhead.magic⟩, if_neg (not_not.mpr hhead.version), if_pos (by omega)]
  · right
    rw [if_neg fun hmagic => hsize (by omega)]

end Program

/-! ## Compiled sources -/

namespace Compiler

/-- The string pool stays within its table. -/
theorem strPool_perform {st st' : CompilerState} {β : Type} (o : CompilerOp β) {b : β}
    (ho : perform β o st = .ok (b, st')) (h : st.strPool.length ≤ maxStringPool) :
    st'.strPool.length ≤ maxStringPool := by
  cases o with
  | appendStr text =>
    simp only [perform, CompilerState.appendStr] at ho
    split at ho
    · cases ho
    · next hle =>
      cases ho
      rw [List.length_append]
      omega
  | pushArray name len =>
    simp only [perform, CompilerState.pushArray] at ho
    split at ho <;> cases ho
    exact h
  | negate n =>
    simp only [perform, CompilerState.negate] at ho
    split at ho <;> cases ho
    exact h
  | rangeLen startVal endVal =>
    simp only [perform, CompilerState.rangeLen] at ho
    repeat' split at ho
    all_goals cases ho
    all_goals exact h
  | emitInst op rd rs1 rs2 =>
    simp only [perform, CompilerState.emitInst] at ho
    split at ho <;> cases ho
    exact h
  | patchImm16 pos imm =>
    cases ho
    rw [CompilerState.patchImm16]
    split <;> exact h
  | allocTemp =>
    simp only [perform, CompilerState.allocTemp] at ho
    split at ho <;> cases ho
    exact h
  | freeTemp reg =>
    cases ho
    rw [CompilerState.freeTemp]
    split <;> exact h
  | addConstant val =>
    simp only [perform, CompilerState.addConstant, CompilerState.pushConstant] at ho
    repeat' split at ho
    all_goals cases ho
    all_goals exact h
  | appendTableConstant val =>
    simp only [perform, CompilerState.pushConstant] at ho
    split at ho <;> cases ho
    exact h
  | declareVar tok isMut =>
    simp only [perform, CompilerState.declareVar] at ho
    repeat' split at ho
    all_goals cases ho
    all_goals exact h
  | resolveVar tok =>
    simp only [perform, CompilerState.resolveVar] at ho
    repeat' split at ho
    all_goals cases ho
    all_goals exact h
  | leaveFn =>
    cases ho
    rw [CompilerState.leaveFn]
    split <;> exact h
  | _ =>
    cases ho
    exact h

end Compiler

/-- The sections of a compiled program stay within the tables of the compiler. -/
theorem withinLimits_of_compileSource {checks : Bool} {fuel : ℕ} {src : List UInt8} {p : Program}
    (h : compileSource checks fuel src = .ok p) : p.code.length ≤ maxBytecodeSize ∧
      p.strPool.length ≤ maxStringPool ∧ p.constPool.length ≤ maxConstPool := by
  unfold compileSource compileState at h
  split at h
  · cases h
  · next tokens _ =>
    cases hrun : (Compiler.compile (Compiler.recN fuel fuel)).run perform
        (CompilerState.new src tokens checks) with
    | error e =>
      rw [hrun] at h
      cases h
    | ok r =>
      obtain ⟨u, st⟩ := r
      rw [hrun] at h
      cases h
      have hfits : Compiler.Fits st :=
        Compiler.fits_of_yields hrun ⟨Nat.zero_le _, Nat.zero_le _⟩
      have hstr : st.strPool.length ≤ maxStringPool :=
        Prog.run_invariant perform (fun o _ _ _ => Compiler.strPool_perform o) _ hrun
          (Nat.zero_le _)
      exact ⟨hfits.code, hstr, hfits.pool⟩

/-- What the compiler produces fits the container. -/
theorem encodable_of_compileSource {checks : Bool} {fuel : ℕ} {src : List UInt8} {p : Program}
    (h : compileSource checks fuel src = .ok p) : p.Encodable := by
  obtain ⟨hcode, hstr, hpool⟩ := withinLimits_of_compileSource h
  exact ⟨Nat.lt_of_le_of_lt hcode (by decide), Nat.lt_of_le_of_lt hstr (by decide), hpool⟩

/-- The encoder writes the container of the compiled program, or reports a buffer that is too
small. -/
theorem compilePulseToBinary_eq {checks : Bool} {fuel : ℕ} {src : List UInt8} {p : Program}
    (h : compileSource checks fuel src = .ok p) (room : ℕ) :
    compilePulseToBinary checks fuel src room =
      if room < p.toBinary.length then
        .error (.error (.simple "ERR_BINARY_BUFFER_OVERFLOW"
          "Output buffer too small for compiled px64 binary payload"))
      else .ok p.toBinary := by
  unfold compilePulseToBinary
  rw [h, p.length_toBinary]
  rfl

/-- **The container round-trips.**  A source that compiles is written as one container,
whenever the buffer has the room.  It loads as the compiled program, its header accounts for all
of its bytes, and every proper prefix of it is refused. -/
theorem compilePulseToBinary_roundtrips (checks : Bool) (fuel : ℕ) (src : List UInt8) (p : Program)
    (h : compileSource checks fuel src = .ok p) :
    ∃ bin, (∀ room, bin.length ≤ room → compilePulseToBinary checks fuel src room = .ok bin) ∧
      (∀ room b, compilePulseToBinary checks fuel src room = .ok b → b = bin) ∧
      loadBinary bin = .ok p ∧
      headerField bin 6 = p.code.length ∧ headerField bin 8 = p.strPool.length ∧
      headerField bin 10 = p.constPool.length ∧
      bin.length =
        px64HeaderSize + headerField bin 6 + headerField bin 8 + headerField bin 10 * 8 ∧
      ∀ n < bin.length, Program.Refused (loadBinary (bin.take n)) := by
  have henc := encodable_of_compileSource h
  have hhead : p.Headed p.toBinary := by
    rw [Program.toBinary_eq]
    exact Program.headed_append henc _
  refine ⟨p.toBinary, fun room hroom => ?_, fun room b hb => ?_, Program.loadBinary_toBinary henc,
    hhead.code, hhead.strPool, hhead.constPool, ?_, fun n => Program.refused_take_toBinary henc⟩
  · rw [compilePulseToBinary_eq h, if_neg (Nat.not_lt.mpr hroom)]
  · rw [compilePulseToBinary_eq h] at hb
    split at hb
    · cases hb
    · cases hb
      rfl
  · rw [hhead.code, hhead.strPool, hhead.constPool, Program.length_toBinary]

/-- A source with a string and a constant wider than sixteen bits. -/
def greeting : List UInt8 := bytes "@println(\"hi\"); let $x = 123456789;"

theorem greeting_roundtrips : ∃ p bin, compileSource true 40 greeting = .ok p ∧
    loadBinary bin = .ok p ∧ compilePulseToBinary true 40 greeting bin.length = .ok bin := by
  cases h : compileSource true 40 greeting with
  | error e =>
    have hok : (compileSource true 40 greeting).isOk = true := by decide +kernel
    rw [h] at hok
    cases hok
  | ok p =>
    obtain ⟨bin, hroom, -, hload, -⟩ := compilePulseToBinary_roundtrips true 40 greeting p h
    exact ⟨p, bin, rfl, hload, hroom _ (Nat.le_refl _)⟩

end LatencyOS
