import LatencyOS.Compiler.Discipline.Compile
import LatencyOS.Compiler.Compiled
import LatencyOS.Compiler.Imports
import LatencyOS.Lib.Wp
import LatencyOS.Vm.Safety
import Mathlib.Data.List.TakeWhile

/-!
# String literals

A string literal is cut out of the source by the lexer, decoded by the compiler, shared with
the string pool where its bytes already occur there, and loaded as a tagged word that names a
slice of the pool.  The word is right unless the slice starts among the first 256 bytes and has
256 bytes or more: `MOV_STR` has one byte for the length.

The lexer ends a literal at the first quote, whatever stands before it, and so a byte string
can be written as a literal exactly when it has no quote.

## Main definitions

* `CompilerState.literal?` — the bytes a literal denotes.
* `LiteralAt` — where the compilation of a source comes to a literal.
* `Writable` — a byte string is denoted by its escaped literal.

## Main results

* `resolves_iff` — when the word a literal loads resolves to the literal's bytes.
* `writable_iff` — which byte strings can be written.
-/

namespace LatencyOS

open CompilerState Compiler PX64VM

/-! ## References to the pool -/

/-- A word that names a slice of the string pool. -/
def strWord (offset len : ℕ) : Word64 :=
  strTag ||| BitVec.ofNat 64 (offset * 2 ^ 32) ||| BitVec.ofNat 64 len

theorem strTag_eq : strTag = BitVec.twoPow 64 62 := rfl

theorem strWord_eq {offset len : ℕ} (hlen : len < 2 ^ 32) :
    strWord offset len = strTag ||| BitVec.ofNat 64 (offset * 2 ^ 32 + len) := by
  have hsum : offset * 2 ^ 32 + len = offset * 2 ^ 32 ||| len := by
    rw [Nat.mul_comm, Nat.two_pow_add_eq_or_of_lt hlen]
  rw [strWord, hsum, BitVec.ofNat_or, BitVec.or_assoc]

/-- Without its tag, a word is as it was before. -/
theorem clear_tagged {w : Word64} (hw : w.toNat < 2 ^ 62) : (strTag ||| w) &&& ~~~strTag = w := by
  refine BitVec.eq_of_getLsbD_eq fun i hi => ?_
  rw [strTag_eq]
  by_cases h62 : i = 62
  · subst h62
    have hbit : w[62] = false := by
      rw [← BitVec.getLsbD_eq_getElem, BitVec.getLsbD, Nat.testBit_lt_two_pow hw]
    simp [hbit]
  · simp [hi, h62]

/-- The reference resolves to the slice it names. -/
theorem getStrBytes_strWord (vm : PX64VM) {offset len : ℕ} (hoffset : offset < 2 ^ 30)
    (hlen : len < 2 ^ 32) : vm.getStrBytes (strWord offset len) = vm.poolSlice offset len := by
  have hnat : (BitVec.ofNat 64 (offset * 2 ^ 32 + len)).toNat = offset * 2 ^ 32 + len := by
    rw [BitVec.toNat_ofNat, Nat.mod_eq_of_lt (by omega)]
  have htag : hasTag (strWord offset len) strTag = true := by
    rw [hasTag, strWord, bne_iff_ne]
    intro hzero
    have hbit := congrArg (fun w : Word64 => w.getLsbD 62) hzero
    simp [strTag_eq] at hbit
  have hhigh : (BitVec.ofNat 64 (offset * 2 ^ 32 + len) >>> 32).toNat = offset := by
    rw [BitVec.toNat_ushiftRight, hnat, Nat.shiftRight_eq_div_pow]
    omega
  have hlow : (BitVec.ofNat 64 (offset * 2 ^ 32 + len) &&& 0xFFFFFFFF#64).toNat = len := by
    rw [BitVec.toNat_and, hnat, show (0xFFFFFFFF#64).toNat = 2 ^ 32 - 1 from rfl,
      Nat.and_two_pow_sub_one_eq_mod]
    omega
  rw [getStrBytes, if_pos htag, strWord_eq hlen, clear_tagged (by omega)]
  dsimp only
  rw [hhigh, hlow]

/-- The next instruction loads a reference; its length is cut to a byte. -/
theorem PX64VM.InstAt.movStr {vm : PX64VM} {dst offset len : ℕ}
    (h : vm.InstAt vm.ip .movStr dst offset len) (host : Host) (hd : dst < 20)
    (hoffset : offset < 256) : Writes host vm dst (strWord offset (len % 256)) := by
  have hbyte : vm.InstAt vm.ip .movStr dst offset (len % 256) := by
    intro i hi
    rw [h i hi, instBytes, instBytes, UInt8.ofNat_mod_size]
  refine writes_of_exec host hbyte (by omega) (by omega) (Nat.mod_lt _ (by decide)) ?_
  have hshift : BitVec.ofNat 64 offset <<< 32 = BitVec.ofNat 64 (offset * 2 ^ 32) := by
    apply BitVec.eq_of_toNat_eq
    rw [BitVec.toNat_shiftLeft, BitVec.toNat_ofNat, BitVec.toNat_ofNat, Nat.shiftLeft_eq,
      Nat.mod_eq_of_lt (show offset < 2 ^ 64 by omega)]
  have hexec : vm.advance.exec host .movStr dst offset (len % 256) =
      .ok (vm.advance.setReg dst (strTag ||| (BitVec.ofNat 64 offset <<< 32) |||
        BitVec.ofNat 64 (len % 256))) := rfl
  rw [hexec, hshift, setReg_of_lt _ hd]
  rfl

/-! ## The pool -/

/-- The text between the quotes of a string literal, if it lies in the source. -/
def CompilerState.quoted? (st : CompilerState) (tok : Token) : Option (List UInt8) :=
  if tok.len < 2 then some [] else st.text? { tok with start := tok.start + 1, len := tok.len - 2 }

/-- The bytes a string literal denotes. -/
def CompilerState.literal? (st : CompilerState) (tok : Token) : Option (List UInt8) :=
  (st.quoted? tok).map unescape

/-- Where the bytes of a literal are in the pool, or will be. -/
def CompilerState.poolOffset (st : CompilerState) (s : List UInt8) : ℕ :=
  (findStringInPool st.strPool s).getD st.strPool.length

/-- A slice of a pool has given bytes. -/
def SliceAt (pool : List UInt8) (offset : ℕ) (s : List UInt8) : Prop :=
  offset + s.length ≤ pool.length ∧ (pool.drop offset).take s.length = s

theorem SliceAt.of_prefix {pool pool' s : List UInt8} {offset : ℕ} (h : SliceAt pool offset s)
    (hpool : pool <+: pool') : SliceAt pool' offset s := by
  obtain ⟨rest, rfl⟩ := hpool
  refine ⟨?_, ?_⟩
  · rw [List.length_append]
    exact Nat.le_add_right_of_le h.1
  · rw [List.drop_append_of_le_length (Nat.le_of_add_right_le h.1), List.take_append_of_le_length,
      h.2]
    rw [List.length_drop]
    have := h.1
    omega

theorem sliceAt_append (pool s : List UInt8) : SliceAt (pool ++ s) pool.length s := by
  refine ⟨by rw [List.length_append], ?_⟩
  rw [List.drop_left, List.take_length]

theorem sliceAt_of_find {pool s : List UInt8} {offset : ℕ}
    (h : findStringInPool pool s = some offset) : SliceAt pool offset s := by
  rw [findStringInPool] at h
  split at h
  · next hs =>
    cases h
    subst hs
    exact ⟨Nat.zero_le _, rfl⟩
  · split at h
    · cases h
    · next hle =>
      rw [findSlice] at h
      obtain ⟨heq, hmem, -⟩ := List.find?_range_eq_some.mp h
      rw [List.mem_range] at hmem
      exact ⟨by omega, beq_iff_eq.mp heq⟩

theorem poolOffset_le (st : CompilerState) (s : List UInt8) :
    st.poolOffset s ≤ st.strPool.length := by
  rw [poolOffset]
  cases hfind : findStringInPool st.strPool s with
  | none => exact Nat.le_refl _
  | some offset => exact Nat.le_of_add_right_le (sliceAt_of_find hfind).1

/-- The shorter and the longer slice of a machine's pool at one offset. -/
theorem poolSlice_eq_iff {vm : PX64VM} {offset n : ℕ} {s : List UInt8}
    (h : SliceAt vm.strPool offset s) (hn : n ≤ s.length) :
    vm.poolSlice offset n = some s ↔ n = s.length := by
  have hle := h.1
  rw [poolSlice, if_pos (by omega), Option.some_inj]
  constructor
  · intro heq
    have hlen := congrArg List.length heq
    rw [List.length_take, List.length_drop] at hlen
    omega
  · rintro rfl
    exact h.2

namespace Compiler

variable {st st' : CompilerState} {tok : Token} {dst : ℕ}

/-! ## The code of a literal -/

theorem yields_stringText {raw : List UInt8} :
    Yields (stringText tok) st raw st' ↔ st.quoted? tok = some raw ∧ st' = st := by
  rw [stringText, quoted?]
  split
  · rw [yields_pure, Option.some_inj, eq_comm]
  · simp only [text, yields_bind, yields_get]
    constructor
    · rintro ⟨_, _, ⟨rfl, rfl⟩, h⟩
      split at h
      · next name hname =>
        obtain ⟨rfl, rfl⟩ := yields_pure.mp h
        exact ⟨hname, rfl⟩
      · exact absurd h not_yields_panic
    · rintro ⟨hraw, rfl⟩
      refine ⟨_, _, ⟨rfl, rfl⟩, ?_⟩
      rw [hraw]
      exact yields_pure.mpr ⟨rfl, rfl⟩

/-- The word a literal loads. -/
def loadedWord (offset len : ℕ) : Word64 :=
  if offset < 256 then strWord offset (len % 256) else strWord offset len

/-- What the compilation of a literal does. -/
structure LoadsLiteral (st : CompilerState) (dst : ℕ) (s : List UInt8) (st' : CompilerState) :
    Prop where
  room : st.poolOffset s + s.length ≤ maxStringPool
  slice : SliceAt st'.strPool (st.poolOffset s) s
  inst : ∃ op hi lo, op ∉ jumpOps ∧ st'.code = st.code ++ instBytes op dst hi lo
  writes : ∀ (host : Host) (vm : PX64VM), Holds vm st st' → vm.ip = st.code.length → dst < 20 →
    Writes host vm dst (loadedWord (st.poolOffset s) s.length)

/-- A reference is loaded by one instruction. -/
theorem loadsLiteral_of_emitStr {s : List UInt8} {u : Unit} {t : CompilerState}
    (hcode : t.code = st.code) (hconst : t.constPool = st.constPool)
    (hpool : st.constPool.length ≤ maxConstPool) (hslice : SliceAt t.strPool (st.poolOffset s) s)
    (hroom : st.poolOffset s + s.length ≤ maxStringPool)
    (h : Yields (emitStr dst (st.poolOffset s) s.length) t u st') :
    LoadsLiteral st dst s st' := by
  rw [emitStr] at h
  split at h
  · next hlt =>
    obtain ⟨-, rfl⟩ := yields_emit.mp h
    refine ⟨hroom, hslice, ⟨.movStr, st.poolOffset s, s.length, by decide, ?_⟩,
      fun host vm hvm hip hd => ?_⟩
    · rw [emitted, hcode]
    · rw [loadedWord, if_pos hlt]
      refine InstAt.movStr ?_ host hd hlt
      rw [hip]
      exact hvm.instAt (by rw [emitted, hcode])
  · next hge =>
    have hload := loads_of_yields (by rwa [hconst]) h
    obtain ⟨op, hi, lo, consts, hst, -, -, -, hop⟩ := hload
    refine ⟨hroom, ?_, ⟨op, hi, lo, ?_, ?_⟩, fun host vm hvm hip hd => ?_⟩
    · rw [hst]
      exact hslice
    · rcases hop with ⟨rfl, -⟩ | ⟨rfl, -⟩ <;> decide
    · rw [hst, hcode]
    · rw [loadedWord, if_neg hge]
      refine (loads_of_yields (by rwa [hconst]) h).writes ?_ (by rw [hip, hcode]) hd host
      exact ⟨fun i hi => hvm.code i (hcode ▸ hi), hvm.consts⟩

theorem loadsLiteral_of_yields {v : Option Word64} (hpool : st.constPool.length ≤ maxConstPool)
    (h : Yields (stringLit tok dst) st v st') :
    ∃ s, st.literal? tok = some s ∧ LoadsLiteral st dst s st' := by
  simp only [stringLit, yields_bind, yields_get, yields_require] at h
  obtain ⟨raw, st, hraw, _, _, ⟨rfl, rfl⟩, _, st, ⟨hroom, rfl⟩, h⟩ := h
  obtain ⟨hraw, rfl⟩ := yields_stringText.mp hraw
  rw [decide_eq_true_eq] at hroom
  refine ⟨_, by rw [literal?, hraw, Option.map_some], ?_⟩
  split at h
  · next offset hfind =>
    obtain ⟨_, _, hemit, h⟩ := yields_bind.mp h
    obtain ⟨rfl, rfl⟩ := yields_pure.mp h
    have hslice := sliceAt_of_find hfind
    have hoff : st.poolOffset (unescape raw) = offset := by
      rw [poolOffset, hfind, Option.getD_some]
    rw [← hoff] at hemit hslice
    have := hslice.1
    exact loadsLiteral_of_emitStr rfl rfl hpool hslice (by omega) hemit
  · next hfind =>
    obtain ⟨_, t, happ, h⟩ := yields_bind.mp h
    obtain ⟨_, _, hemit, h⟩ := yields_bind.mp h
    obtain ⟨rfl, rfl⟩ := yields_pure.mp h
    rw [Yields, Prog.run_op, perform, appendStr, if_neg (Nat.not_lt.mpr hroom)] at happ
    cases happ
    have hoff : st.poolOffset (unescape raw) = st.strPool.length := by
      rw [poolOffset, hfind, Option.getD_none]
    rw [← hoff] at hemit
    refine loadsLiteral_of_emitStr (t := { st with strPool := st.strPool ++ unescape raw }) rfl rfl
      hpool ?_ (by rwa [hoff]) hemit
    rw [hoff]
    exact sliceAt_append _ _

/-- A constant is loaded while there is room. -/
theorem exists_yields_emitConst (val : Word64) (hcode : st.code.length + 4 ≤ maxBytecodeSize)
    (hconst : st.constPool.length < maxConstPool) :
    ∃ st', Yields (emitConst dst val) st () st' := by
  have hemit {op : Opcode} {imm : ℕ} {t : CompilerState} (ht : t.code = st.code) :
      ∃ st', Yields (do let _ ← emitImm16 op dst imm; return ()) t () st' :=
    ⟨_, yields_seq (yields_emitInst.mpr ⟨by rwa [ht], rfl, rfl⟩) (yields_pure.mpr ⟨rfl, rfl⟩)⟩
  rw [emitConst]
  split
  · exact hemit rfl
  · obtain ⟨idx, t, hadd, ht⟩ : ∃ idx t, Yields (addConstant val) st idx t ∧ t.code = st.code := by
      simp only [Yields, addConstant, Prog.run_op, perform, CompilerState.addConstant,
        CompilerState.pushConstant]
      split
      · exact ⟨_, _, rfl, rfl⟩
      · rw [if_neg (Nat.not_le.mpr hconst)]
        exact ⟨_, _, rfl, rfl⟩
    obtain ⟨st', hst'⟩ := hemit ht
    exact ⟨st', yields_seq hadd hst'⟩

theorem exists_yields_emitStr (offset len : ℕ) (hcode : st.code.length + 4 ≤ maxBytecodeSize)
    (hconst : st.constPool.length < maxConstPool) :
    ∃ st', Yields (emitStr dst offset len) st () st' := by
  rw [emitStr]
  split
  · exact ⟨_, yields_emit.mpr ⟨hcode, rfl⟩⟩
  · exact exists_yields_emitConst _ hcode hconst

/-- A literal is compiled while there is room. -/
theorem exists_yields_stringLit {s : List UInt8} (hlit : st.literal? tok = some s)
    (hroom : st.strPool.length + s.length ≤ maxStringPool)
    (hcode : st.code.length + 4 ≤ maxBytecodeSize) (hconst : st.constPool.length < maxConstPool) :
    ∃ st', Yields (stringLit tok dst) st none st' := by
  obtain ⟨raw, hraw, rfl⟩ := Option.map_eq_some_iff.mp hlit
  have hload (t : CompilerState) (offset : ℕ) (ht : t.code = st.code)
      (hc : t.constPool = st.constPool) :
      ∃ st', Yields (do emitStr dst offset (unescape raw).length; return none) t
        (none : Option Word64) st' := by
    obtain ⟨st', hst'⟩ := exists_yields_emitStr offset
      (unescape raw).length (by rwa [ht]) (by rwa [hc])
    exact ⟨st', yields_seq hst' (yields_pure.mpr ⟨rfl, rfl⟩)⟩
  cases hfind : findStringInPool st.strPool (unescape raw) with
  | some offset =>
    obtain ⟨st', hst'⟩ := hload st offset rfl rfl
    refine ⟨st', yields_seq (yields_stringText.mpr ⟨hraw, rfl⟩)
      (yields_seq (yields_get.mpr ⟨rfl, rfl⟩) (yields_seq (a := ())
        (yields_require.mpr ⟨decide_eq_true hroom, rfl⟩) ?_))⟩
    rw [hfind]
    exact hst'
  | none =>
    obtain ⟨st', hst'⟩ := hload { st with strPool := st.strPool ++ unescape raw }
      st.strPool.length rfl rfl
    refine ⟨st', yields_seq (yields_stringText.mpr ⟨hraw, rfl⟩)
      (yields_seq (yields_get.mpr ⟨rfl, rfl⟩) (yields_seq (a := ())
        (yields_require.mpr ⟨decide_eq_true hroom, rfl⟩) ?_))⟩
    rw [hfind]
    refine yields_seq (a := ()) ?_ hst'
    rw [Yields, Prog.run_op, perform, appendStr, if_neg (Nat.not_lt.mpr hroom)]

/-! ## What the rest of a compilation leaves alone -/

/-- Once emitted, an instruction that is no jump stays, and the pools only grow. -/
structure Settled (st st' : CompilerState) : Prop where
  length_le : st.code.length ≤ st'.code.length
  insts : ∀ pos, 4 ∣ pos → pos + 4 ≤ st.code.length → ¬ JumpAt st.code pos →
    ∀ i < 4, st'.code[pos + i]? = st.code[pos + i]?
  consts : st.constPool <+: st'.constPool
  strs : st.strPool <+: st'.strPool

namespace Settled

variable {a b c : CompilerState}

theorem refl (st : CompilerState) : Settled st st :=
  ⟨Nat.le_refl _, fun _ _ _ _ _ _ => rfl, List.prefix_rfl, List.prefix_rfl⟩

theorem trans (h₁ : Settled a b) (h₂ : Settled b c) : Settled a c where
  length_le := Nat.le_trans h₁.length_le h₂.length_le
  insts := fun pos hdvd hle hjump i hi => by
    have hbyte : byteAt b.code pos = byteAt a.code pos := by
      have := h₁.insts pos hdvd hle hjump 0 (by decide)
      rw [Nat.add_zero] at this
      rw [byteAt, byteAt, List.getD_eq_getElem?_getD, List.getD_eq_getElem?_getD, this]
    have hjump' : ¬ JumpAt b.code pos := by rwa [JumpAt, hbyte]
    have hle' : pos + 4 ≤ b.code.length := Nat.le_trans hle h₁.length_le
    rw [h₂.insts pos hdvd hle' hjump' i hi, h₁.insts pos hdvd hle hjump i hi]
  consts := h₁.consts.trans h₂.consts
  strs := h₁.strs.trans h₂.strs

end Settled

/-- The pools grow. -/
theorem pools_perform {β : Type} (o : CompilerOp β) {b : β} (ho : perform β o st = .ok (b, st')) :
    st.constPool <+: st'.constPool ∧ st.strPool <+: st'.strPool := by
  cases o with
  | emitInst _ _ _ _ | patchImm16 _ _ | allocTemp | freeTemp _ | addConstant _
  | appendTableConstant _ | declareVar _ _ | resolveVar _ | leaveFn | appendStr _ | pushArray _ _
  | negate _ | rangeLen _ _ =>
    simp only [perform, CompilerState.emitInst, CompilerState.patchImm16, CompilerState.allocTemp,
      CompilerState.freeTemp, CompilerState.addConstant, CompilerState.pushConstant,
      CompilerState.declareVar, CompilerState.resolveVar, CompilerState.leaveFn,
      CompilerState.appendStr, CompilerState.pushArray, CompilerState.negate,
      CompilerState.rangeLen] at ho
    repeat' split at ho
    all_goals cases ho
    all_goals exact ⟨by first | exact List.prefix_rfl | exact List.prefix_append _ _,
      by first | exact List.prefix_rfl | exact List.prefix_append _ _⟩
  | _ =>
    cases ho
    exact ⟨List.prefix_rfl, List.prefix_rfl⟩

/-- One primitive; patches are made in jumps. -/
theorem settled_perform {β : Type} (o : CompilerOp β) {b : β} (ho : perform β o st = .ok (b, st'))
    (hwell : WellOp β o st) : Settled st st' := by
  have hstep := (steps_perform o ho).1
  obtain ⟨hconsts, hstrs⟩ := pools_perform o ho
  have hsame (h : st'.code = st.code) : Settled st st' :=
    ⟨Nat.le_of_eq (congrArg List.length h.symm), fun _ _ _ _ _ _ => by rw [h], hconsts, hstrs⟩
  cases o with
  | emitInst op rd rs1 rs2 =>
    have hcode : st'.code = st.code ++ instBytes op rd rs1 rs2 := hstep
    refine ⟨?_, fun pos _ hle _ i hi => ?_, hconsts, hstrs⟩
    · rw [hcode, List.length_append]
      exact Nat.le_add_right _ _
    · rw [hcode, List.getElem?_append_left (by omega)]
  | patchImm16 pos imm =>
    rcases (hstep : st'.code = st.code ∨ st'.code = patched st.code pos imm) with h | h
    · exact hsame h
    · obtain ⟨hdvd, hjump⟩ := hwell
      refine ⟨by rw [h, length_patched], fun q hq _ hq' i hi => ?_, hconsts, hstrs⟩
      have hne : q ≠ pos := fun heq => hq' (heq ▸ hjump)
      rw [h, patched, List.getElem?_set_ne (by omega), List.getElem?_set_ne (by omega)]
  | _ => exact hsame hstep

/-- The code is made of whole instructions. -/
theorem aligned_perform {β : Type} (o : CompilerOp β) {b : β}
    (ho : perform β o st = .ok (b, st')) (h : 4 ∣ st.code.length) : 4 ∣ st'.code.length := by
  have hstep := (steps_perform o ho).1
  cases o with
  | emitInst op rd rs1 rs2 =>
    rw [show st'.code = st.code ++ instBytes op rd rs1 rs2 from hstep, List.length_append,
      length_instBytes]
    exact (Nat.dvd_add_right h).mpr (by decide)
  | patchImm16 pos imm =>
    rcases (hstep : st'.code = st.code ∨ st'.code = patched st.code pos imm) with h' | h'
    · rwa [h']
    · rwa [h', length_patched]
  | _ => rwa [show st'.code = st.code from hstep]

/-! ## Literals of accepted sources -/

/-- The compilation of a source comes to a string literal, in a state, for a register. -/
def LiteralAt (checks : Bool) (fuel : ℕ) (src : List UInt8) (tok : Token) (dst : ℕ)
    (st : CompilerState) : Prop :=
  ∃ tokens, Lexer.tokenize src checks maxTokens = .ok tokens ∧
    Prog.Reaches perform (stringLit tok dst) st (compile (recN fuel fuel))
      (CompilerState.new src tokens checks)

variable {checks : Bool} {fuel : ℕ} {src : List UInt8} {p : Program}

/-- A literal of an accepted source is compiled, and what is compiled stays. -/
theorem LiteralAt.loads (hlit : LiteralAt checks fuel src tok dst st)
    (h : compileSource checks fuel src = .ok p) :
    ∃ s t e, st.literal? tok = some s ∧ LoadsLiteral st dst s t ∧ Settled t e ∧ e.program = p ∧
      4 ∣ st.code.length := by
  obtain ⟨tokens, htok, hreach⟩ := hlit
  obtain ⟨e, he, hp⟩ := compileSource_eq_ok h
  obtain ⟨tokens', htok', hrun⟩ := compileState_eq_ok he
  obtain rfl : tokens = tokens' := by
    rw [htok] at htok'
    exact Except.ok.inj htok'
  have hwell := (compile_keeps_recN src tokens checks fuel
    (Prog.forall_of_run_ok perform_of_not_safeOp hrun)).1
  obtain ⟨v, t, hyields, rest, hrest, hall⟩ := hreach.split hrun WellOp hwell
  have hfits : Fits st := hreach.invariant (fun o _ _ _ => fits_perform o)
    ⟨Nat.zero_le _, Nat.zero_le _⟩
  have haligned : 4 ∣ st.code.length := hreach.invariant (I := fun st => 4 ∣ st.code.length)
    (fun o _ _ _ => aligned_perform o) (dvd_zero 4)
  obtain ⟨s, hs, hloads⟩ := loadsLiteral_of_yields hfits.pool hyields
  have hsettled : Settled t e := Prog.run_rel_of_forall Settled.refl Settled.trans
    (fun o _ _ _ => settled_perform o) rest hrest hall
  exact ⟨s, t, e, hs, hloads, hsettled, hp, haligned⟩

/-- What a running machine loads for a literal, and where it has its bytes. -/
theorem LiteralAt.word (hlit : LiteralAt checks fuel src tok dst st)
    (h : compileSource checks fuel src = .ok p) (hd : dst < px64NumRegisters)
    {args : List (List UInt8)} {vm : PX64VM} (hvm : (p.start args).SameProgram vm)
    (hip : vm.ip = st.code.length) :
    ∃ s, st.literal? tok = some s ∧ st.poolOffset s + s.length ≤ maxStringPool ∧
      SliceAt vm.strPool (st.poolOffset s) s ∧
      ∀ host, Writes host vm dst (loadedWord (st.poolOffset s) s.length) := by
  obtain ⟨s, t, e, hs, hloads, hsettled, rfl, haligned⟩ := hlit.loads h
  refine ⟨s, hs, hloads.room, ?_, fun host => hloads.writes host vm ⟨?_, ?_⟩ hip hd⟩
  · rw [hvm.strPool]
    exact hloads.slice.of_prefix hsettled.strs
  · intro i hle hlt
    obtain ⟨op, hi, lo, hop, hcode⟩ := hloads.inst
    have hlen : t.code.length = st.code.length + 4 := by
      rw [hcode, List.length_append, length_instBytes]
    have hnojump : ¬ JumpAt t.code st.code.length := by
      rw [hcode, jumpAt_instBytes]
      exact hop
    have hinst := hsettled.insts st.code.length haligned (by omega) hnojump
      (i - st.code.length) (by omega)
    rw [show st.code.length + (i - st.code.length) = i by omega] at hinst
    rw [hvm.code]
    exact hinst
  · rw [hvm.constPool]
    exact hsettled.consts

/-- When the loaded word names all of the slice. -/
theorem getStrBytes_loadedWord {vm : PX64VM} {offset : ℕ} {s : List UInt8}
    (hslice : SliceAt vm.strPool offset s) (hroom : offset + s.length ≤ maxStringPool) :
    vm.getStrBytes (loadedWord offset s.length) = some s ↔ ¬ (offset < 256 ∧ 256 ≤ s.length) := by
  have hmax : maxStringPool = 512 := rfl
  rw [loadedWord]
  split
  · next hlt =>
    rw [getStrBytes_strWord vm (by omega) (by omega), poolSlice_eq_iff hslice (Nat.mod_le _ _)]
    omega
  · next hge =>
    rw [getStrBytes_strWord vm (by omega) (by omega), poolSlice_eq_iff hslice (Nat.le_refl _)]
    simp [hge]

/-- **A string literal of an accepted source loads a word that resolves to its bytes, unless it
has 256 bytes or more and they start among the first 256 of the pool.** -/
theorem resolves_iff (h : compileSource checks fuel src = .ok p)
    (hlit : LiteralAt checks fuel src tok dst st) (hd : dst < px64NumRegisters)
    {args : List (List UInt8)} {vm : PX64VM} (hvm : (p.start args).SameProgram vm)
    (hip : vm.ip = st.code.length) :
    ∃ s w, st.literal? tok = some s ∧ (∀ host, Writes host vm dst w) ∧
      (vm.getStrBytes w = some s ↔ ¬ (st.poolOffset s < 256 ∧ 256 ≤ s.length)) := by
  obtain ⟨s, hs, hroom, hslice, hwrites⟩ := hlit.word h hd hvm hip
  exact ⟨s, _, hs, hwrites, getStrBytes_loadedWord hslice hroom⟩

/-! ## The first literal of a source -/

section First

variable {r : Rec}

theorem fuel_recN (fuel n : ℕ) : (recN fuel n).fuel = fuel := by
  induction n with
  | zero => rfl
  | succ n ih => exact ih

theorem reaches_primary (hk : st.peek.kind = .stringLit) :
    Prog.Reaches perform (stringLit st.peek dst) st.next (primary r dst) st := by
  refine .after ((yields_advance (by rw [hk]; decide)).mpr ⟨rfl, rfl⟩) ?_
  rw [hk]
  exact .self _ _

theorem reaches_expression (dst : ℕ) (hk : st.peek.kind = .stringLit) :
    Prog.Reaches perform (stringLit st.peek dst) st.next (expression r dst) st := by
  have hlevel {q : CompilerM (Option Word64)} {t : CompilerState} {l : Level}
      {next : ℕ → CompilerM (Option Word64)} (h : Prog.Reaches perform q t (next dst) st) :
      Prog.Reaches perform q t (binaryLevel r.fuel l next dst) st := h.bind _
  have hfactor : Prog.Reaches perform (stringLit st.peek dst) st.next (factor r dst) st :=
    hlevel (reaches_primary hk)
  have hor : Prog.Reaches perform (stringLit st.peek dst) st.next (logicOr r dst) st :=
    hlevel (hlevel (hlevel (hlevel (hlevel (hlevel (hlevel (hlevel (hlevel hfactor))))))))
  exact (hor.bind _).bind _

/-- A source that starts with a literal evaluates it for its first statement. -/
theorem literalAt_first {n : ℕ} {rest : List Token} (hk : tok.kind = .stringLit)
    (htok : Lexer.tokenize src checks maxTokens = .ok (tok :: rest)) :
    LiteralAt checks (n + 2) src tok 0 (CompilerState.new src (tok :: rest) checks).next := by
  refine ⟨_, htok, ?_⟩
  have hpeek : (CompilerState.new src (tok :: rest) checks).peek = tok := rfl
  have hkind : (CompilerState.new src (tok :: rest) checks).peek.kind = .stringLit := hk
  have hexpr := reaches_expression 0 (r := recN (n + 2) n) hkind
  rw [hpeek] at hexpr
  have hstmt : Prog.Reaches perform (stringLit tok 0)
      (CompilerState.new src (tok :: rest) checks).next (statement (recN (n + 2) (n + 1)))
      (CompilerState.new src (tok :: rest) checks) := by
    refine .after (yields_peekKind.mpr ⟨rfl, rfl⟩) ?_
    rw [hkind]
    exact hexpr.bind _
  have hstatements : Prog.Reaches perform (stringLit tok 0)
      (CompilerState.new src (tok :: rest) checks).next (statements (recN (n + 2) (n + 2)))
      (CompilerState.new src (tok :: rest) checks) := by
    rw [statements, fuel_recN, untilToken, loop]
    refine Prog.Reaches.bind (.after (yields_peekKind.mpr ⟨rfl, rfl⟩) ?_) _
    rw [hkind]
    exact hstmt.bind _
  exact hstatements.bind _

end First

/-- A statement that is a string of one letter. -/
def literalSource (n : ℕ) : List UInt8 :=
  0x22 :: List.replicate n 0x61 ++ [0x22, 0x3B]

/-- Its tokens. -/
def literalTokens (n : ℕ) : List Token :=
  [⟨.stringLit, 0, n + 2, 1, 1⟩, ⟨.semi, n + 2, 1, 1, n + 3⟩, ⟨.eof, n + 3, 0, 1, n + 4⟩]

theorem length_of_literal? {s : List UInt8} {n : ℕ} (h : st.literal? tok = some s)
    (hn : (st.literal? tok).map List.length = some n) : s.length = n := by
  rw [h, Option.map_some, Option.some_inj] at hn
  exact hn

theorem exists_compiled (h : (compileSource checks fuel src).isOk = true) :
    ∃ p, compileSource checks fuel src = .ok p := by
  cases hp : compileSource checks fuel src with
  | error e =>
    rw [hp] at h
    cases h
  | ok p => exact ⟨p, rfl⟩

theorem shortLiteral_resolves : ∃ p tok st s w, compileSource true 20 (literalSource 2) = .ok p ∧
    LiteralAt true 20 (literalSource 2) tok 0 st ∧ st.literal? tok = some s ∧ s.length = 2 ∧
    (∀ host, Writes host (p.start []) 0 w) ∧ (p.start []).getStrBytes w = some s := by
  obtain ⟨p, hp⟩ : ∃ p, compileSource true 20 (literalSource 2) = .ok p :=
    exists_compiled (by decide +kernel)
  have htok : Lexer.tokenize (literalSource 2) true maxTokens = .ok (literalTokens 2) := by
    decide +kernel
  have hlit := literalAt_first (n := 18) rfl htok
  obtain ⟨s, w, hs, hwrites, hiff⟩ := resolves_iff hp hlit (by decide) (.refl (p.start [])) rfl
  have hlen : s.length = 2 := length_of_literal? hs (by decide +kernel)
  exact ⟨p, _, _, s, w, hp, hlit, hs, hlen, hwrites, hiff.mpr (by omega)⟩

/-- The length of a literal of 256 bytes is cut to zero. -/
theorem longLiteral_truncated : ∃ p tok st s w,
    compileSource true 20 (literalSource 256) = .ok p ∧
    LiteralAt true 20 (literalSource 256) tok 0 st ∧ st.literal? tok = some s ∧
    (∀ host, Writes host (p.start []) 0 w) ∧ (p.start []).getStrBytes w ≠ some s := by
  obtain ⟨p, hp⟩ : ∃ p, compileSource true 20 (literalSource 256) = .ok p :=
    exists_compiled (by decide +kernel)
  have htok : Lexer.tokenize (literalSource 256) true maxTokens = .ok (literalTokens 256) := by
    decide +kernel
  have hlit := literalAt_first (n := 18) rfl htok
  obtain ⟨s, hs, hroom, hslice, hwrites⟩ := hlit.word hp (by decide) (.refl (p.start [])) rfl
  have hlen : s.length = 256 := length_of_literal? hs (by decide +kernel)
  refine ⟨p, _, _, s, _, hp, hlit, hs, hwrites, ?_⟩
  rw [Ne, getStrBytes_loadedWord hslice hroom, not_not]
  exact ⟨Nat.lt_of_le_of_lt (poolOffset_le _ s) (by decide), by omega⟩

/-! ## Writing a byte string -/

/-- A byte as it is written between quotes. -/
def escapeByte (b : UInt8) : List UInt8 :=
  if b = 0x22 then [0x5C, 0x22] else if b = 0x5C then [0x5C, 0x5C] else [b]

/-- The literal of a byte string: quotes and backslashes are escaped. -/
def written (s : List UInt8) : List UInt8 := 0x22 :: (s.flatMap escapeByte ++ [0x22])

/-- The decoder undoes the escapes. -/
theorem unescapeScan_escape (s : List UInt8) {n : ℕ} (hn : s.length ≤ n) :
    unescapeScan n (s.flatMap escapeByte) = s := by
  induction s generalizing n with
  | nil => cases n <;> rfl
  | cons b s ih =>
    obtain ⟨m, rfl⟩ : ∃ m, n = m + 1 := ⟨n - 1, by rw [List.length_cons] at hn; omega⟩
    have hrest := ih (Nat.le_of_succ_le_succ hn)
    rw [List.flatMap_cons, escapeByte]
    split
    · next hquote =>
      subst hquote
      simp only [List.cons_append, List.nil_append, unescapeScan]
      simp [hrest]
    · split
      · next hback =>
        subst hback
        simp only [List.cons_append, List.nil_append, unescapeScan]
        simp [hrest]
      · next hplain =>
        rw [List.singleton_append]
        cases htail : s.flatMap escapeByte with
        | nil =>
          have hs : s = [] := by
            rw [← hrest, htail]
            cases m <;> rfl
          rw [hs]
          rfl
        | cons c l =>
          rw [htail] at hrest
          simp only [unescapeScan]
          rw [if_pos hplain]
          exact congrArg (b :: ·) hrest

theorem unescape_escape (s : List UInt8) : unescape (s.flatMap escapeByte) = s := by
  refine unescapeScan_escape s ?_
  induction s with
  | nil => exact Nat.le_refl _
  | cons b s ih =>
    have hpos : 1 ≤ (escapeByte b).length := by
      rw [escapeByte]
      split
      · decide
      · split
        · decide
        · exact Nat.le_refl _
    rw [List.flatMap_cons, List.length_cons, List.length_append]
    omega

theorem quote_mem_escape {s : List UInt8} : 0x22 ∈ s.flatMap escapeByte ↔ 0x22 ∈ s := by
  have hbyte (b : UInt8) : 0x22 ∈ escapeByte b ↔ b = 0x22 := by
    rw [escapeByte]
    split
    · next h => simp [h]
    · next h =>
      split
      · next hb => simp [hb]
      · simp [Ne.symm h, h]
  simp [List.mem_flatMap, hbyte]

/-- The lexer's token for a literal, in a source around it. -/
def writtenToken (pre s post : List UInt8) : Token :=
  Lexer.tokenAt (pre ++ (written s ++ post)) .stringLit (written s ++ post) post

/-- A byte string is denoted by its literal: the lexer makes one token of all of it, wherever it
stands, and the compiler decodes it to the byte string. -/
structure Writable (s : List UInt8) : Prop where
  lexed : ∀ (checks : Bool) (post : List UInt8),
    Lexer.token checks (written s ++ post) = .ok (some .stringLit, post)
  spans : ∀ pre post : List UInt8, (writtenToken pre s post).start = pre.length ∧
    (writtenToken pre s post).len = (written s).length
  decoded : ∀ (pre post : List UInt8) (st : CompilerState) (dst : ℕ),
    st.src = pre ++ (written s ++ post) → st.strPool.length + s.length ≤ maxStringPool →
    st.code.length + 4 ≤ maxBytecodeSize → st.constPool.length < maxConstPool →
    st.literal? (writtenToken pre s post) = some s ∧
      ∃ st', Yields (stringLit (writtenToken pre s post) dst) st none st' ∧
        SliceAt st'.strPool (st.poolOffset s) s

theorem writtenToken_span (pre s post : List UInt8) :
    (writtenToken pre s post).start = pre.length ∧
      (writtenToken pre s post).len = (written s).length := by
  rw [writtenToken, Lexer.tokenAt]
  simp

theorem literal?_writtenToken {pre s post : List UInt8} (h : st.src = pre ++ (written s ++ post)) :
    st.literal? (writtenToken pre s post) = some s := by
  obtain ⟨hstart, hlen⟩ := writtenToken_span pre s post
  have hwritten : (written s).length = (s.flatMap escapeByte).length + 2 := by
    simp [written]
  have htext : st.quoted? (writtenToken pre s post) = some (s.flatMap escapeByte) := by
    rw [quoted?, if_neg (by omega), text?, if_pos]
    · dsimp only
      rw [hstart, hlen, hwritten, h, Nat.add_sub_cancel, written, ← List.drop_drop,
        List.drop_left]
      simp
    · dsimp only
      rw [hstart, hlen, hwritten, h]
      simp [written]
      omega
  rw [literal?, htext, Option.map_some, unescape_escape]

/-- The lexer stops at the first quote. -/
theorem token_written {s post : List UInt8} :
    Lexer.token checks (written s ++ post) = .ok (some .stringLit, post) ↔ 0x22 ∉ s := by
  have htoken : Lexer.token checks (written s ++ post) = .ok (some .stringLit,
      (s.flatMap escapeByte ++ 0x22 :: post).drop
        (((s.flatMap escapeByte ++ 0x22 :: post).takeWhile (· != 0x22)).length + 1)) := by
    rw [written, List.cons_append, List.append_assoc, List.singleton_append, Lexer.token,
      if_pos rfl]
  rw [htoken, List.takeWhile_append, ← quote_mem_escape]
  generalize s.flatMap escapeByte = l
  split
  · next hall =>
    have hself : l.takeWhile (· != 0x22) = l :=
      (List.takeWhile_prefix _).eq_of_length hall
    have hnot : 0x22 ∉ l := fun hmem => by
      simpa using List.takeWhile_eq_self_iff.mp hself 0x22 hmem
    simp [hnot, ← List.drop_drop]
  · next hpart =>
    have hmem : 0x22 ∈ l := by
      by_contra hnot
      refine hpart (congrArg List.length (List.takeWhile_eq_self_iff.mpr fun b hb => ?_))
      exact bne_iff_ne.mpr fun h => hnot (h ▸ hb)
    have hlt : (l.takeWhile (· != 0x22)).length < l.length :=
      Nat.lt_of_le_of_ne (List.takeWhile_prefix _).length_le hpart
    simp only [hmem, not_true_eq_false, iff_false]
    intro heq
    have hlen := congrArg List.length (Prod.mk.inj (Except.ok.inj heq)).2
    rw [List.length_drop, List.length_append, List.length_cons] at hlen
    omega

/-- **A byte string can be written as a literal exactly when it has no quote.** -/
theorem writable_iff (s : List UInt8) : Writable s ↔ 0x22 ∉ s := by
  constructor
  · exact fun h => token_written.mp (h.lexed true [])
  · intro hs
    refine ⟨fun checks post => token_written.mpr hs, fun pre post => writtenToken_span pre s post,
      fun pre post st dst hsrc hroom hcode hconst => ?_⟩
    have hlit := literal?_writtenToken hsrc
    obtain ⟨st', hst'⟩ := exists_yields_stringLit hlit hroom hcode hconst
    obtain ⟨s', hs', hloads⟩ := loadsLiteral_of_yields (Nat.le_of_lt hconst) hst'
    obtain rfl : s = s' := Option.some.inj (hlit.symm.trans hs')
    exact ⟨hlit, st', hst', hloads.slice⟩

/-- A quote, written with a backslash before it, ends the literal. -/
theorem quote_not_writable : ¬ Writable [0x22] := fun h =>
  absurd (h.lexed true []) (by decide +kernel)

end Compiler

end LatencyOS
