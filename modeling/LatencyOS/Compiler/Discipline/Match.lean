import LatencyOS.Compiler.Discipline.Statement

/-!
# The discipline of `match`

Every arm leaves one more jump to the end pending; all of them land behind the last arm.
-/

namespace LatencyOS

namespace Compiler

-- the size of an instance doubles with every statement of a block
set_option synthInstance.maxSize 1000000000000

variable {s : Session} {pend : List ℕ} {marks : List Mark} {st st' : CompilerState} {r : Rec}
  [Calls s r] [InStatement s]

omit [InStatement s] in
instance keeps_fatArrow (suggestion : String) : Keeps s (fatArrow suggestion) := by
  dsimp only [fatArrow]
  infer_instance

instance opens_armBody : Opens s (armBody r) := by
  dsimp only [armBody]
  refine Closes.opens fun pend => ?_
  infer_instance

instance opens_compareArm (matchReg patReg : ℕ) : Opens s (compareArm matchReg patReg) := by
  dsimp only [compareArm]
  refine Closes.opens fun pend => ?_
  infer_instance

instance ungated_isErr : Ungated .isErr := ⟨by decide⟩

instance ungated_isOk : Ungated .isOk := ⟨by decide⟩

instance ungated_unwrap : Ungated .unwrap := ⟨by decide⟩

instance opens_skipWhen (test : Native) [Ungated test] (matchReg : ℕ) :
    Opens s (skipWhen test matchReg) := by
  dsimp only [skipWhen]
  refine Closes.opens fun pend => ?_
  infer_instance

/-- The jump of a new arm is added at the end. -/
instance closes_arms {arms : Arms} {pos : ℕ} {e : Option ℕ} {o k w : Bool} {handled : List ℕ} :
    Closes s (fun a : Arms => a.jumps ++ pend) (pos :: (arms.jumps ++ pend)) marks
      (Pure.pure (Arms.mk e (arms.jumps ++ [pos]) o k w handled)) := by
  refine ⟨fun hs hl _ => ⟨hs.perm fun q => ?_, hl⟩⟩
  simp only [List.mem_append, List.mem_cons, List.not_mem_nil, or_false]
  exact or_assoc.trans or_left_comm

omit [InStatement s] in
instance reads_bindPattern (variant stage hint close arrow : String) :
    Reads s (bindPattern variant stage hint close arrow) := by
  dsimp only [bindPattern]
  infer_instance

omit [InStatement s] in
instance steps_bindPattern (variant stage hint close arrow : String) :
    Steps s (bindPattern variant stage hint close arrow) := by
  dsimp only [bindPattern]
  infer_instance

/-- A failure leaves nothing to land. -/
instance closes_fail {α : Type} {pendα : α → List ℕ}
    (code message expected stage suggestion : String) :
    Closes s pendα pend marks (fail code message expected stage suggestion : CompilerM α) :=
  ⟨fun _ _ _ => runs_get (fails_error _)⟩

/-! ## Arms -/

/-- An arm consumes a token and leaves its jump pending with those of the arms before it. -/
structure ArmRuns (s : Session) (arms : Arms) (p : CompilerM Arms) : Prop where
  runs : ∀ {pend : List ℕ} {st : CompilerState}, Sound s (arms.jumps ++ pend) st →
    st.current < s.tokens.length →
    s.Runs p (fun a st' => Sound s (a.jumps ++ pend) st' ∧ Later st st' ∧
      st.current < st'.current) st

variable {arms : Arms}

omit [InStatement s] in
/-- The rest of an arm, once a token is consumed. -/
theorem Closes.rest {p : CompilerM Arms} {t : CompilerState}
    (h : Closes s (fun a => a.jumps ++ pend) (arms.jumps ++ pend) [] p)
    (ht : Sound s (arms.jumps ++ pend) t) (hl : Later st t) (hlt : st.current < t.current) :
    s.Runs p (fun a st' => Sound s (a.jumps ++ pend) st' ∧ Later st st' ∧
      st.current < st'.current) t := by
  refine (h.runs ht (.refl t) nofun).mono fun _ _ h => ?_
  exact ⟨h.1, hl.trans h.2, Nat.lt_of_lt_of_le hlt h.2.current_le⟩

omit [InStatement s] in
/-- An arm that starts with a token. -/
theorem ArmRuns.reads {p : CompilerM Token} {f : Token → CompilerM Arms} (hr : Reads s p)
    (hp : Steps s p) (hf : ∀ tok pend, IsTok s tok →
      Closes s (fun a => a.jumps ++ pend) (arms.jumps ++ pend) [] (f tok)) :
    ArmRuns s arms (p >>= f) := by
  refine ⟨fun {pend st} hs hin => Prog.Wp.bind ?_⟩
  refine ((hp.runs hs hin).and (hr.runs hs)).mono fun tok t ht => ?_
  exact (hf tok pend ht.2.1).rest ht.1.1 ht.1.2.1 ht.1.2.2

theorem armRuns_wildcardArm : ArmRuns s arms (wildcardArm r arms) := by
  dsimp only [wildcardArm]
  refine .reads inferInstance inferInstance fun tok pend _ => ?_
  infer_instance

theorem armRuns_enumArm (matchReg : ℕ) : ArmRuns s arms (enumArm r matchReg arms) := by
  simp only [enumArm, guardedBody, bind_assoc, pure_bind]
  refine .reads inferInstance inferInstance fun tok pend _ => ?_
  refine Closes.bind inferInstance fun _ => .bind_reads inferInstance fun varTok => ?_
  refine Closes.bind inferInstance fun _ => Closes.bind inferInstance fun _ =>
    Closes.bind inferInstance fun _ => Closes.bind inferInstance fun enumIdx => ?_
  cases enumIdx with
  | none => infer_instance
  | some enumIdx =>
    refine Closes.bind inferInstance fun _ => Closes.bind inferInstance fun variantIdx => ?_
    cases variantIdx <;> infer_instance

theorem armRuns_okArm (matchReg : ℕ) : ArmRuns s arms (okArm r matchReg arms) := by
  simp only [okArm, guardedBody, bind_assoc, pure_bind]
  refine .reads inferInstance inferInstance fun tok pend _ => ?_
  infer_instance

theorem armRuns_errArm (matchReg : ℕ) : ArmRuns s arms (errArm r matchReg arms) := by
  simp only [errArm, guardedBody, bind_assoc, pure_bind]
  refine .reads inferInstance inferInstance fun tok pend _ => ?_
  infer_instance

theorem armRuns_valueArm (matchReg : ℕ) : ArmRuns s arms (valueArm r matchReg arms) := by
  simp only [valueArm, guardedBody, bind_assoc, pure_bind]
  refine ⟨fun {pend st} hs hin => Prog.Wp.bind ?_⟩
  refine (keeps_allocTemp.runs hs).mono fun patReg t ht => Prog.Wp.bind ?_
  refine ((Calls.moves_expression patReg).runs ht.1).mono fun _ u hu => ?_
  refine Closes.rest inferInstance hu.1 (ht.2.trans hu.2.1) ?_
  exact Nat.lt_of_le_of_lt ht.2.current_le hu.2.2

omit [InStatement s] in
/-- An arm as a step of the list. -/
theorem ArmRuns.step {p : CompilerM Arms} (hp : ArmRuns s arms p) (next : Arms → ForInStep Arms)
    (hnext : ∀ a, stepValue (next a) = a) (hs : Sound s (arms.jumps ++ pend) st)
    (hin : st.current < s.tokens.length) :
    s.Runs (p >>= fun a => Pure.pure (next a)) (fun step st' =>
      Sound s ((stepValue step).jumps ++ pend) st' ∧ Later st st' ∧
        ∀ b, step = .yield b → st.current < s.tokens.length ∧ st.current < st'.current) st := by
  refine Prog.Wp.bind ((hp.runs hs hin).mono fun a t ht => ⟨?_, ht.2.1, fun _ _ => ⟨hin, ht.2.2⟩⟩)
  rw [hnext]
  exact ht.1

/-- One arm of the list: the list goes on only behind a consumed token. -/
theorem runs_matchArm (matchReg : ℕ) (hs : Sound s (arms.jumps ++ pend) st) :
    s.Runs (matchArm r matchReg arms) (fun step st' =>
      Sound s ((stepValue step).jumps ++ pend) st' ∧ Later st st' ∧
        ∀ b, step = .yield b → st.current < s.tokens.length ∧ st.current < st'.current) st := by
  refine Prog.Wp.bind (runs_get ?_)
  change s.Runs (if st.peek.kind = .rBrace ∨ st.peek.kind = .eof then _ else _) _ st
  split
  · exact ⟨hs, .refl _, fun _ h => nomatch h⟩
  · next hne =>
    have hin := hs.in_buffer fun heof => hne (.inr heof)
    have htok : IsTok s (st.peekAhead 0) := hs.isTok 0
    refine Prog.Wp.bind (runs_require fun _ => ?_)
    refine Prog.Wp.bind (runs_text hs fun name => Prog.Wp.bind (runs_get ?_))
    change s.Runs (if st.peek.kind = .underscore ∨ name = bytes "_" then _ else
      if (st.peek.kind = .ident ∨ st.peek.kind = .intrinsicIdent) ∧
        (st.peekAhead 1).kind = .colonColon then _ else _) _ st
    repeat' split
    · exact armRuns_wildcardArm.step .done (fun _ => rfl) hs hin
    · exact (armRuns_enumArm matchReg).step .yield (fun _ => rfl) hs hin
    · exact (armRuns_okArm matchReg).step .yield (fun _ => rfl) hs hin
    · exact (armRuns_errArm matchReg).step .yield (fun _ => rfl) hs hin
    · exact (armRuns_valueArm matchReg).step .yield (fun _ => rfl) hs hin

omit [InStatement s] in
/-- All jumps land behind the last arm. -/
theorem runs_landAll (jumps : List ℕ) (hs : Sound s (jumps ++ pend) st) :
    s.Runs (landAll jumps) (fun _ st' => Sound s pend st' ∧ Later st st') st := by
  induction jumps generalizing st with
  | nil => exact ⟨hs, .refl _⟩
  | cons pos rest ih =>
    refine Prog.Wp.bind (runs_get (Prog.Wp.bind ?_))
    refine (runs_patch hs hs.here).mono fun _ t ht => ?_
    exact (ih ht.1).mono fun _ _ h => ⟨h.1, ht.2.trans h.2⟩

omit [InStatement s] in
instance closes_landAll {β : Type} {jumps : List ℕ} {f : Unit → CompilerM β}
    [hf : ∀ u, Keeps s (f u)] :
    Closes s (fun _ => pend) (jumps ++ pend) marks (landAll jumps >>= f) := by
  refine ⟨fun hs hl _ => Prog.Wp.bind ((runs_landAll jumps hs).mono fun u t ht => ?_)⟩
  exact ((hf u).runs ht.1).mono fun _ _ h => ⟨h.1, hl.trans (ht.2.trans h.2)⟩

omit [InStatement s] in
instance keeps_checkExhaustive (arms : Arms) : Keeps s (checkExhaustive arms) := by
  dsimp only [checkExhaustive]
  refine Keeps.bind inferInstance fun st => ?_
  cases arms.enumType <;> infer_instance

instance begins_matchStatement : Begins s (matchStatement r) := by
  dsimp only [matchStatement]
  refine Begins.advance fun _ _ => Keeps.bind inferInstance fun _ =>
    Keeps.bind inferInstance fun matchReg => Keeps.bind inferInstance fun _ =>
    Keeps.bind inferInstance fun st₀ => Keeps.bind inferInstance fun _ =>
    Keeps.bind inferInstance fun _ => ⟨fun {pend st} hs => Prog.Wp.bind ?_⟩
  have hloop := runs_loop_pending (s := s) (f := matchArm r matchReg)
    (fun a : Arms => a.jumps ++ pend) (fun a st ha => runs_matchArm matchReg ha) r.fuel
    ⟨st₀.info.enumType, [], false, false, false, []⟩ hs (LoopBound.lt inferInstance _)
  refine hloop.mono fun arms t ht => ?_
  exact Closes.runs_last ht.1 ht.2

end Compiler

end LatencyOS
