import LatencyOS.Lib.Trace
import LatencyOS.Smp.Pipeline
import LatencyOS.Smp.Turns

/-!
# The benchmark command

The `benchmark` command of the shell runs on the control core.  For each sample it captures a frame
of its own, pushes the handle onto the ring of the capture core and pops a handle from it again,
while the capture and the encode core go on using the ring.
-/

namespace LatencyOS

namespace Smp

def statsSampleCount : ℕ := 1000

/-- Where the control core stands in the command. -/
inductive ControlState
  | idle
  | writing (sample n : ℕ)
  | pushing (sample : ℕ) (h : FrameHandle) (p : PushState FrameHandle)
  | popping (sample : ℕ) (p : PopState FrameHandle)
  | sending (sample : ℕ)
  deriving DecidableEq

/-- The two users of the ring: the capture and the encode loop, and the benchmark. -/
inductive Party
  | pipeline
  | benchmark
  deriving DecidableEq

/-- The pipeline and the control core, and who pushed and popped what on the first ring so far. -/
structure Bench where
  pipe : Pipeline
  control : ControlState
  pushes : List (Party × FrameHandle)
  pops : List (Party × FrameHandle)

/-- Which core goes on.  The control core reads the time stamps of its handle. -/
inductive BenchAct
  | pipeline (act : PipelineAct)
  | control (vblankTsc captureDoneTsc : ℕ)

namespace Bench

def new : Bench := ⟨.new, .idle, [], []⟩

/-- An access of the control core; from the prompt it starts the command. -/
def controlStep (s : Bench) (vblankTsc captureDoneTsc : ℕ) : Bench :=
  match s.control with
  | .idle => { s with control := .writing 0 0 }
  | .writing i n =>
    if n < 4 then
      { s with
        pipe := { s.pipe with framePool := writeFrameByte s.pipe.framePool (i % 4) i n }
        control := .writing i (n + 1) }
    else
      { s with
        control := .pushing i
          (frameHandle s.pipe.framePool (i % 4) i vblankTsc captureDoneTsc) .idle }
  | .pushing i h p =>
    let r := push ringCapacity h p s.pipe.captureToEncodeRing
    { s with
      pipe := { s.pipe with captureToEncodeRing := r.2.1 }
      pushes := s.pushes ++ (p.adds r.2.2).map (Prod.mk .benchmark)
      control :=
        match r.2.2 with
        | none => .pushing i h r.1
        | some _ => .popping i .idle }
  | .popping i p =>
    let r := pop ringCapacity p s.pipe.captureToEncodeRing
    { s with
      pipe := { s.pipe with captureToEncodeRing := r.2.1 }
      pops := s.pops ++ (taken r.2.2).map (Prod.mk .benchmark)
      control :=
        match r.2.2 with
        | none => .popping i r.1
        | some _ => .sending i }
  | .sending i =>
    { s with control := if i + 1 < statsSampleCount then .writing (i + 1) 0 else .idle }

/-- An access of one of the three loops. -/
def pipelineStep (s : Bench) (act : PipelineAct) : Bench :=
  let pipe := s.pipe.step act
  { s with
    pipe := pipe
    pushes := s.pushes ++ (pipe.captured.drop s.pipe.captured.length).map (Prod.mk .pipeline)
    pops := s.pops ++ (pipe.encoded.drop s.pipe.encoded.length).map (Prod.mk .pipeline) }

def step (s : Bench) : BenchAct → Bench
  | .pipeline act => s.pipelineStep act
  | .control vblankTsc captureDoneTsc => s.controlStep vblankTsc captureDoneTsc

/-- The state after some accesses. -/
def run (s : Bench) (acts : List BenchAct) : Bench := acts.foldl step s

end Bench

/-! ## The ring as the cores use it -/

/-- Where the capture core stands in a `push` on the first ring, if it is in one. -/
def CaptureState.push? : CaptureState → Option (PushState FrameHandle)
  | .pushing _ p => some p
  | _ => none

/-- Where the encode core stands in a `pop` on the first ring, if it is in one. -/
def EncodeState.pop? : EncodeState → Option (PopState FrameHandle)
  | .popping p => some p
  | _ => none

/-- Where the control core stands in a `push`, if it is in one. -/
def ControlState.push? : ControlState → Option (PushState FrameHandle)
  | .pushing _ _ p => some p
  | _ => none

/-- Where the control core stands in a `pop`, if it is in one. -/
def ControlState.pop? : ControlState → Option (PopState FrameHandle)
  | .popping _ p => some p
  | _ => none

namespace Bench

/-- The first ring and its users. -/
def use (s : Bench) : RingUse Party FrameHandle where
  ring := s.pipe.captureToEncodeRing
  push
    | .pipeline => s.pipe.capture.push?.getD .idle
    | .benchmark => s.control.push?.getD .idle
  pop
    | .pipeline => s.pipe.encode.pop?.getD .idle
    | .benchmark => s.control.pop?.getD .idle
  pushes := s.pushes
  pops := s.pops

/-- The two users take turns: neither starts a `push` or a `pop` while the other is in the middle of
one, and neither looks for a handle while the first one in the ring is the other's. -/
def Orderly (s : Bench) : BenchAct → Prop
  | .pipeline (.capture _ _) => s.pipe.capture.push?.isSome = true → s.use.PushTurn .pipeline
  | .pipeline .encode => s.pipe.encode.pop?.isSome = true → s.use.PopTurn .pipeline
  | .pipeline (.network _) => True
  | .control _ _ => (s.control.push?.isSome = true → s.use.PushTurn .benchmark) ∧
    (s.control.pop?.isSome = true → s.use.PopTurn .benchmark)

/-- The handles of one user. -/
def handlesOf (a : Party) (l : List (Party × FrameHandle)) : List FrameHandle :=
  l.filterMap fun x => if x.1 = a then some x.2 else none

/-- The benchmark does not disturb the pipeline: what the encode core popped is what the capture
core pushed, from the first handle on, and the rest is in the ring, in order. -/
structure Undisturbed (s : Bench) : Prop where
  order : s.pipe.encoded <+: s.pipe.captured
  stored : ∃ out rest, s.pipe.captureToEncodeRing.Holds ringCapacity usizeSize out
      (rest.map Prod.snd) ∧
    s.pipe.captured = s.pipe.encoded ++ handlesOf .pipeline rest

variable {s : Bench}

theorem handlesOf_append (a : Party) (l l' : List (Party × FrameHandle)) :
    handlesOf a (l ++ l') = handlesOf a l ++ handlesOf a l' := List.filterMap_append

theorem handlesOf_own (a : Party) (l : List FrameHandle) :
    handlesOf a (l.map (Prod.mk a)) = l := by
  simp only [handlesOf, List.filterMap_map, Function.comp_def, if_true, List.filterMap_some]

/-! ## Every access is one of the ring or leaves it alone -/

/-- What a core is left with after an access of a `push`. -/
theorem getD_push? {h : FrameHandle} {p : PushState FrameHandle} {ring : SpscRingBuffer FrameHandle}
    {f : Option Bool → Option (PushState FrameHandle)}
    (hnone : f none = some (push ringCapacity h p ring).1) (hsome : ∀ b, f (some b) = none) :
    (f (push ringCapacity h p ring).2.2).getD .idle = (push ringCapacity h p ring).1 := by
  cases hres : (push ringCapacity h p ring).2.2 with
  | none => rw [hnone, Option.getD_some]
  | some b => rw [hsome, Option.getD_none, push_idle hres]

/-- What a core is left with after an access of a `pop`. -/
theorem getD_pop? {p : PopState FrameHandle} {ring : SpscRingBuffer FrameHandle}
    {f : Option (Option FrameHandle) → Option (PopState FrameHandle)}
    (hnone : f none = some (pop ringCapacity p ring).1)
    (hsome : ∀ x, f (some x) = none ∨ f (some x) = some (pop ringCapacity p ring).1) :
    (f (pop ringCapacity p ring).2.2).getD .idle = (pop ringCapacity p ring).1 := by
  cases hres : (pop ringCapacity p ring).2.2 with
  | none => rw [hnone, Option.getD_some]
  | some x =>
    rcases hsome x with hx | hx
    · rw [hx, Option.getD_none, pop_idle hres]
    · rw [hx, Option.getD_some]

theorem use_capture_pushing {h : FrameHandle} {p : PushState FrameHandle}
    (hpc : s.pipe.capture = .pushing h p) (vblankTsc captureDoneTsc : ℕ) :
    (s.pipelineStep (.capture vblankTsc captureDoneTsc)).use =
      s.use.pushBy ringCapacity .pipeline h := by
  simp only [use, RingUse.pushBy, pipelineStep, Pipeline.step, Pipeline.captureStep, hpc]
  ext1
  · rfl
  · funext a
    cases a with
    | pipeline =>
      dsimp only
      rw [Function.update_self]
      exact getD_push? (f := fun res => (CaptureState.afterPush h
        (push ringCapacity h p s.pipe.captureToEncodeRing).1 res).push?)
        rfl (fun b => by cases b <;> rfl)
    | benchmark => rfl
  · rfl
  · rw [List.drop_left]
    rfl
  · rw [List.drop_length]
    exact List.append_nil _

theorem use_encode_popping {p : PopState FrameHandle} (hpc : s.pipe.encode = .popping p) :
    (s.pipelineStep .encode).use = s.use.popBy ringCapacity .pipeline := by
  simp only [use, RingUse.popBy, pipelineStep, Pipeline.step, Pipeline.encodeStep, hpc]
  ext1
  · rfl
  · rfl
  · funext a
    cases a with
    | pipeline =>
      dsimp only
      rw [Function.update_self]
      exact getD_pop? (f := fun res => (EncodeState.afterPop
        (pop ringCapacity p s.pipe.captureToEncodeRing).1 res).pop?) rfl
        (fun x => by cases x <;> simp [EncodeState.afterPop, EncodeState.pop?])
    | benchmark => rfl
  · rw [List.drop_length]
    exact List.append_nil _
  · rw [List.drop_left]
    rfl

/-- The other accesses of the loops leave the ring alone. -/
theorem use_pipeline_other {act : PipelineAct}
    (hring : (s.pipe.step act).captureToEncodeRing = s.pipe.captureToEncodeRing)
    (hpush : (s.pipe.step act).capture.push?.getD .idle = s.pipe.capture.push?.getD .idle)
    (hpop : (s.pipe.step act).encode.pop?.getD .idle = s.pipe.encode.pop?.getD .idle)
    (hcaptured : (s.pipe.step act).captured = s.pipe.captured)
    (hencoded : (s.pipe.step act).encoded = s.pipe.encoded) :
    (s.pipelineStep act).use = s.use := by
  simp only [use, pipelineStep]
  ext1
  · exact hring
  · funext a
    cases a with
    | pipeline => exact hpush
    | benchmark => rfl
  · funext a
    cases a with
    | pipeline => exact hpop
    | benchmark => rfl
  · rw [hcaptured, List.drop_length]
    exact List.append_nil _
  · rw [hencoded, List.drop_length]
    exact List.append_nil _

theorem use_control_pushing {i : ℕ} {h : FrameHandle} {p : PushState FrameHandle}
    (hpc : s.control = .pushing i h p) (vblankTsc captureDoneTsc : ℕ) :
    (s.controlStep vblankTsc captureDoneTsc).use = s.use.pushBy ringCapacity .benchmark h := by
  simp only [use, RingUse.pushBy, controlStep, hpc]
  ext1
  · rfl
  · funext a
    cases a with
    | pipeline => rfl
    | benchmark =>
      dsimp only
      rw [Function.update_self]
      exact getD_push? (f := fun res => (match res with
        | none => ControlState.pushing i h (push ringCapacity h p s.pipe.captureToEncodeRing).1
        | some _ => .popping i .idle).push?) rfl (fun _ => rfl)
  · funext a
    cases a with
    | pipeline => rfl
    | benchmark =>
      cases (push ringCapacity h p s.pipe.captureToEncodeRing).2.2 <;> rfl
  · rfl
  · rfl

theorem use_control_popping {i : ℕ} {p : PopState FrameHandle} (hpc : s.control = .popping i p)
    (vblankTsc captureDoneTsc : ℕ) :
    (s.controlStep vblankTsc captureDoneTsc).use = s.use.popBy ringCapacity .benchmark := by
  simp only [use, RingUse.popBy, controlStep, hpc]
  ext1
  · rfl
  · funext a
    cases a with
    | pipeline => rfl
    | benchmark =>
      cases (pop ringCapacity p s.pipe.captureToEncodeRing).2.2 <;> rfl
  · funext a
    cases a with
    | pipeline => rfl
    | benchmark =>
      dsimp only
      rw [Function.update_self]
      exact getD_pop? (f := fun res => (match res with
        | none => ControlState.popping i (pop ringCapacity p s.pipe.captureToEncodeRing).1
        | some _ => .sending i).pop?) rfl (fun _ => .inl rfl)
  · rfl
  · rfl

/-! ## Runs in turns -/

theorem handlesOf_other {a b : Party} (h : b ≠ a) (l : List FrameHandle) :
    handlesOf a (l.map (Prod.mk b)) = [] := by
  rw [handlesOf, List.filterMap_eq_nil_iff]
  intro x hx
  obtain ⟨y, -, rfl⟩ := List.mem_map.mp hx
  exact if_neg h

/-- The loops only add to what was pushed and popped. -/
theorem step_extends (p : Pipeline) (act : PipelineAct) :
    p.captured <+: (p.step act).captured ∧ p.encoded <+: (p.step act).encoded := by
  cases act with
  | capture vblankTsc captureDoneTsc =>
    simp only [Pipeline.step, Pipeline.captureStep]
    split
    · split <;> exact ⟨List.prefix_rfl, List.prefix_rfl⟩
    · exact ⟨List.prefix_append _ _, List.prefix_rfl⟩
    · exact ⟨List.prefix_rfl, List.prefix_rfl⟩
  | encode =>
    simp only [Pipeline.step, Pipeline.encodeStep]
    split
    · exact ⟨List.prefix_rfl, List.prefix_append _ _⟩
    · exact ⟨List.prefix_rfl, List.prefix_rfl⟩
    · exact ⟨List.prefix_rfl, List.prefix_rfl⟩
  | network returns =>
    simp only [Pipeline.step, Pipeline.networkStep]
    split
    · exact ⟨List.prefix_rfl, List.prefix_rfl⟩
    · split <;> exact ⟨List.prefix_rfl, List.prefix_rfl⟩

/-- What was pushed or popped so far, with its users, and the same of the loops alone. -/
structure Logged (s : Bench) : Prop where
  captured : s.pipe.captured = handlesOf .pipeline s.pushes
  encoded : s.pipe.encoded = handlesOf .pipeline s.pops

theorem logged_extend {old new : List FrameHandle} {log : List (Party × FrameHandle)}
    (h : old = handlesOf .pipeline log) (hext : old <+: new) :
    new = handlesOf .pipeline (log ++ (new.drop old.length).map (Prod.mk .pipeline)) := by
  obtain ⟨l, rfl⟩ := hext
  rw [List.drop_left, handlesOf_append, handlesOf_own, ← h]

theorem logged_step (h : Logged s) (act : BenchAct) : Logged (s.step act) := by
  have hother : ∀ (log : List (Party × FrameHandle)) (l : List FrameHandle),
      handlesOf .pipeline (log ++ l.map (Prod.mk .benchmark)) = handlesOf .pipeline log := by
    intro log l
    rw [handlesOf_append, handlesOf_other (by decide), List.append_nil]
  cases act with
  | pipeline act =>
    obtain ⟨hcaptured, hencoded⟩ := step_extends s.pipe act
    exact ⟨logged_extend h.captured hcaptured, logged_extend h.encoded hencoded⟩
  | control vblankTsc captureDoneTsc =>
    simp only [step, controlStep]
    split
    · exact ⟨h.captured, h.encoded⟩
    · split <;> exact ⟨h.captured, h.encoded⟩
    · exact ⟨h.captured.trans (hother _ _).symm, h.encoded⟩
    · exact ⟨h.captured, h.encoded.trans (hother _ _).symm⟩
    · exact ⟨h.captured, h.encoded⟩

/-- A step in turn is one of the ring, or leaves it alone. -/
theorem turns_step {rest : List (Party × FrameHandle)}
    (h : RingUse.Inv ringCapacity s.use rest) {act : BenchAct} (ho : Orderly s act) :
    ∃ rest', RingUse.Inv ringCapacity (s.step act).use rest' := by
  have hsame : (s.step act).use = s.use →
      ∃ rest', RingUse.Inv ringCapacity (s.step act).use rest' := by
    intro heq
    rw [heq]
    exact ⟨rest, h⟩
  cases act with
  | pipeline act =>
    cases act with
    | capture vblankTsc captureDoneTsc =>
      cases hpc : s.pipe.capture with
      | writing n =>
        refine hsame (use_pipeline_other ?_ ?_ ?_ ?_ ?_)
        all_goals simp only [Pipeline.step, Pipeline.captureStep, hpc]
        all_goals split <;> rfl
      | pushing fh p =>
        have hturn : s.use.PushTurn .pipeline := ho (by rw [hpc]; rfl)
        simp only [step, use_capture_pushing hpc]
        exact RingUse.inv_pushBy Pipeline.sizes_ring h hturn fh
      | pushed =>
        refine hsame (use_pipeline_other ?_ ?_ ?_ ?_ ?_)
        all_goals simp only [Pipeline.step, Pipeline.captureStep, hpc]
        all_goals rfl
    | encode =>
      cases hpc : s.pipe.encode with
      | popping p =>
        have hturn : s.use.PopTurn .pipeline := ho (by rw [hpc]; rfl)
        simp only [step, use_encode_popping hpc]
        exact RingUse.inv_popBy Pipeline.sizes_ring h hturn
      | consumed fh =>
        refine hsame (use_pipeline_other ?_ ?_ ?_ ?_ ?_)
        all_goals simp only [Pipeline.step, Pipeline.encodeStep, hpc]
        all_goals rfl
      | forwarding fh p =>
        refine hsame (use_pipeline_other ?_ ?_ ?_ ?_ ?_)
        all_goals simp only [Pipeline.step, Pipeline.encodeStep, hpc]
        all_goals split <;> rfl
    | network returns =>
      refine hsame (use_pipeline_other ?_ ?_ ?_ ?_ ?_)
      all_goals
        simp only [Pipeline.step, Pipeline.networkStep]
        split
        · rfl
        · split <;> rfl
  | control vblankTsc captureDoneTsc =>
    cases hpc : s.control with
    | idle =>
      refine hsame ?_
      simp only [step, controlStep, use, hpc]
      rfl
    | writing i n =>
      refine hsame ?_
      simp only [step, controlStep, use, hpc]
      split <;> rfl
    | pushing i fh p =>
      have hturn : s.use.PushTurn .benchmark := ho.1 (by rw [hpc]; rfl)
      simp only [step, use_control_pushing hpc]
      exact RingUse.inv_pushBy Pipeline.sizes_ring h hturn fh
    | popping i p =>
      have hturn : s.use.PopTurn .benchmark := ho.2 (by rw [hpc]; rfl)
      simp only [step, use_control_popping hpc]
      exact RingUse.inv_popBy Pipeline.sizes_ring h hturn
    | sending i =>
      refine hsame ?_
      simp only [step, controlStep, use, hpc]
      split <;> rfl

/-- What holds while the two users take turns. -/
structure InTurns (s : Bench) : Prop where
  turns : ∃ rest, RingUse.Inv ringCapacity s.use rest
  logged : Logged s

theorem inTurns_new : InTurns new := by
  refine ⟨⟨[], rfl, Ring.holds_nil _, fun a => ?_, fun a b ha => ?_, fun a => ?_,
    fun a b ha => ?_, fun a ha => ?_⟩, rfl, rfl⟩
  · cases a <;> trivial
  · cases a <;> exact absurd rfl ha
  · cases a <;> trivial
  · cases a <;> exact absurd rfl ha
  · cases a <;> exact ha.elim

theorem inTurns_step (s : Bench) (act : BenchAct) (h : InTurns s) (ho : Orderly s act) :
    InTurns (s.step act) := by
  obtain ⟨rest, hinv⟩ := h.turns
  exact ⟨turns_step hinv ho, logged_step h.logged act⟩

theorem InTurns.undisturbed (h : InTurns s) : Undisturbed s := by
  obtain ⟨rest, hinv⟩ := h.turns
  have hsplit : s.pushes = s.pops ++ rest := hinv.split
  have hcaptured : s.pipe.captured = s.pipe.encoded ++ handlesOf .pipeline rest := by
    rw [h.logged.captured, h.logged.encoded, hsplit, handlesOf_append]
  exact ⟨⟨_, hcaptured.symm⟩, s.pops.length, rest, hinv.holds, hcaptured⟩

/-- In every run in which the pipeline and the benchmark take turns at the ring, the pipeline is not
disturbed. -/
theorem undisturbed_run (acts : List BenchAct) (ho : AlongFold step Orderly new acts) :
    Undisturbed (new.run acts) :=
  (foldl_invariant inTurns_step inTurns_new ho).undisturbed

instance decidableForallParty (Q : Party → Prop) [DecidablePred Q] : Decidable (∀ a, Q a) :=
  decidable_of_iff (Q .pipeline ∧ Q .benchmark)
    ⟨fun h a => by cases a; exacts [h.1, h.2], fun h => ⟨h _, h _⟩⟩

instance decidablePushTurn (u : RingUse Party FrameHandle) (a : Party) : Decidable (u.PushTurn a) :=
  inferInstanceAs (Decidable (_ → ∀ b, b ≠ a → _))

instance decidablePopTurn (u : RingUse Party FrameHandle) (a : Party) : Decidable (u.PopTurn a) :=
  inferInstanceAs (Decidable ((_ → ∀ b, b ≠ a → _) ∧ (_ → ∀ x ∈ u.pushes[u.pops.length]?, x.1 = a)))

instance decidableOrderly (s : Bench) : (act : BenchAct) → Decidable (Orderly s act)
  | .pipeline (.capture _ _) => inferInstanceAs (Decidable (_ → s.use.PushTurn .pipeline))
  | .pipeline .encode => inferInstanceAs (Decidable (_ → s.use.PopTurn .pipeline))
  | .pipeline (.network _) => isTrue trivial
  | .control _ _ =>
    inferInstanceAs (Decidable ((_ → s.use.PushTurn .benchmark) ∧ (_ → s.use.PopTurn .benchmark)))

/-- A frame goes to the encode core, and then a sample of the benchmark runs. -/
def sampleAfterFrame : List BenchAct :=
  List.replicate 10 (.pipeline (.capture 1 2)) ++ List.replicate 4 (.pipeline .encode) ++
    List.replicate 14 (.control 3 4)

theorem sampleAfterFrame_undisturbed :
    AlongFold step Orderly new sampleAfterFrame ∧ Undisturbed (new.run sampleAfterFrame) := by
  have ho : AlongFold step Orderly new sampleAfterFrame := by decide +kernel
  exact ⟨ho, undisturbed_run sampleAfterFrame ho⟩

/-- A sample of the benchmark runs while a frame is in the ring; then the encode core pops. -/
def sampleBeforeFrame : List BenchAct :=
  List.replicate 10 (.pipeline (.capture 1 2)) ++ List.replicate 14 (.control 3 4) ++
    List.replicate 4 (.pipeline .encode)

/-- The encode core gets the handle of the benchmark. -/
theorem sampleBeforeFrame_disturbs : ¬ ∀ acts, Undisturbed (new.run acts) := by
  intro hall
  have hprefix := (hall sampleBeforeFrame).order.map (·.vblankTsc)
  revert hprefix
  decide +kernel

end Bench

end Smp

end LatencyOS
