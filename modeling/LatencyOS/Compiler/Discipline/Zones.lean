import LatencyOS.Compiler.Arms
import LatencyOS.Compiler.Discipline.Compile
import LatencyOS.Compiler.Rules

/-!
# Stretches of compiled code

From any state the compiler can be in, what it compiles next is a stretch of code of its own: it
leaves what is there alone, and its jumps stay behind.

## Main definitions

* `Placed`: what holds of the compiler between two parts of a compilation.
* `zone`: the session of what is compiled next.

## Main results

* `Sound.of_yields`: a computation that keeps the discipline and succeeds leaves a sound state.
* `region_of_yields`: what it emitted is a region.
* `closes_armHead`: the head of an arm of a `match` leaves the jump that skips the body pending,
  and the body lands it.
-/

namespace LatencyOS

namespace Compiler

/-- The code is made of whole instructions and fits, and the functions start in it. -/
structure Placed (st : CompilerState) : Prop where
  aligned : 4 ∣ st.code.length
  fits : st.code.length ≤ maxBytecodeSize
  entries : ∀ f ∈ st.decls.functions, Lands st.code f.entryPc
  wcet : ∀ f ∈ st.decls.functions, f.WcetKept

/-- The session of what is compiled from a state on. -/
def zone (st : CompilerState) (fuel n : ℕ) : Session :=
  ⟨st.src, st.tokens, fuel, n, true, st.code, LatencyOS.levelAt st.code st.code.length, false,
    nofun⟩

instance calls_zone (st : CompilerState) (fuel n : ℕ) : Calls (zone st fuel n) (recN fuel n) :=
  calls_recN n rfl

instance inStatement_zone (st : CompilerState) (fuel n : ℕ) : InStatement (zone st fuel n) := ⟨rfl⟩

variable {s : Session} {pend : List ℕ} {st st' : CompilerState} {α : Type} {a : α} {fuel n : ℕ}
  {p : CompilerM α}

theorem Sound.placed (h : Sound s pend st) : Placed st :=
  ⟨h.jumps.aligned, h.jumps.fits, h.entries, h.wcet⟩

theorem Placed.sound (h : Placed st) : Sound (zone st fuel n) [] st where
  src := rfl
  tokens := rfl
  rank_le := nofun
  start := List.prefix_rfl
  jumps := .fresh h.aligned h.fits rfl
  entries := h.entries
  wcet := h.wcet

/-- A computation that succeeds ends in its postcondition. -/
theorem Session.Runs.of_yields {Q : α → CompilerState → Prop} (h : s.Runs p Q st)
    (hy : Yields p st a st') : Q a st' := by
  have hend := (Prog.Wp.sound h (Prog.forall_of_run_ok perform_of_not_safeOp hy)).2
  rw [show p.run perform st = .ok (a, st') from hy] at hend
  exact hend

theorem Sound.of_yields [hp : Keeps s p] (h : Sound s pend st) (hy : Yields p st a st') :
    Sound s pend st' ∧ Later st st' :=
  (hp.runs h).of_yields hy

theorem Sound.of_closes (pendα : α → List ℕ) [hp : Closes s pendα pend [] p] (h : Sound s pend st)
    (hy : Yields p st a st') : Sound s (pendα a) st' :=
  ((hp.runs_last h (.refl st)).of_yields hy).1

/-- What a computation emits is a region behind what is there. -/
theorem region_of_yields (fuel n : ℕ) [Keeps (zone st fuel n) p] (h : Placed st)
    (hy : Yields p st a st') :
    st.code <+: st'.code ∧ ClosedRegion st'.code st.code.length st'.code.length := by
  have hs : Sound (zone st fuel n) [] st := h.sound
  obtain ⟨hsound, -⟩ := hs.of_yields hy
  exact ⟨hsound.start, hsound.jumps.closedRegion h.aligned⟩

end Compiler

/-! ## The parts of a `match` -/

namespace Compiler

-- the size of an instance doubles with every statement of a block
set_option synthInstance.maxSize 1000000000000

variable {s : Session} {pend : List ℕ} {marks : List Mark} {st st' t : CompilerState} {r : Rec}
  [Calls s r] [InStatement s] {arms : Arms} {h : ArmHead} {reg fuel n : ℕ}

/-- The jump of a head is pending. -/
instance closes_armHead_mk {pos : ℕ} {seen : Arms} :
    Closes s (fun h : ArmHead => h.skip.toList ++ pend) (pos :: pend) marks
      (Pure.pure (ArmHead.mk (some pos) seen)) :=
  ⟨fun hs hl _ => ⟨hs, hl⟩⟩

instance closes_wildcardHead :
    Closes s (fun h => h.skip.toList ++ pend) pend [] (wildcardHead arms) := by
  have hmk : ∀ seen : Arms, Closes s (fun h : ArmHead => h.skip.toList ++ pend) pend []
      (Pure.pure (ArmHead.mk none seen)) := fun seen => ⟨fun hs hl _ => ⟨hs, hl⟩⟩
  dsimp only [wildcardHead]
  infer_instance

instance closes_enumHead :
    Closes s (fun h => h.skip.toList ++ pend) pend [] (enumHead reg arms) := by
  dsimp only [enumHead]
  refine .bind_reads inferInstance fun enumTok => .bind inferInstance fun _ =>
    .bind_reads inferInstance fun varTok => ?_
  refine Closes.bind inferInstance fun _ => Closes.bind inferInstance fun _ =>
    Closes.bind inferInstance fun _ => Closes.bind inferInstance fun enumIdx => ?_
  cases enumIdx with
  | none => infer_instance
  | some enumIdx =>
    refine Closes.bind inferInstance fun _ => Closes.bind inferInstance fun variantIdx => ?_
    cases variantIdx <;> infer_instance

instance keeps_bindOk (tok : s.Tok) : Keeps s (bindOk reg tok.val) := by
  dsimp only [bindOk]
  infer_instance

instance keeps_bindErr (tok : s.Tok) : Keeps s (bindErr reg tok.val) := by
  dsimp only [bindErr]
  infer_instance

instance closes_okHead : Closes s (fun h => h.skip.toList ++ pend) pend [] (okHead reg arms) := by
  dsimp only [okHead]
  infer_instance

instance closes_errHead : Closes s (fun h => h.skip.toList ++ pend) pend [] (errHead reg arms) := by
  dsimp only [errHead]
  infer_instance

instance closes_valueHead :
    Closes s (fun h => h.skip.toList ++ pend) pend [] (valueHead r reg arms) := by
  dsimp only [valueHead]
  infer_instance

omit [Calls s r] [InStatement s] in
/-- The jumps an arm leaves pending. -/
instance closes_some {p : CompilerM ArmHead}
    [hp : Closes s (fun h : ArmHead => h.skip.toList ++ pend) pend marks p] :
    Closes s (fun o : Option ArmHead => (o.bind (·.skip)).toList ++ pend) pend marks
      (some <$> p) := by
  refine ⟨fun hs hl hm => ?_⟩
  rw [map_eq_pure_bind]
  exact Prog.Wp.bind ((hp.runs hs hl hm).mono fun h t ht => ht)

instance closes_armHead :
    Closes s (fun o : Option ArmHead => (o.bind (·.skip)).toList ++ pend) pend []
      (armHead r reg arms) := by
  have hnone : Closes s (fun o : Option ArmHead => (o.bind (·.skip)).toList ++ pend) pend []
      (Pure.pure none) := ⟨fun hs hl _ => ⟨hs, hl⟩⟩
  dsimp only [armHead]
  infer_instance

instance keeps_armStatements : Keeps s (armStatements r) := by
  dsimp only [armStatements]
  infer_instance

end Compiler

end LatencyOS
