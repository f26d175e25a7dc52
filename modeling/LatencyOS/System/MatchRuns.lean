import LatencyOS.Compiler.Discipline.Jumps
import LatencyOS.Compiler.MatchCode
import LatencyOS.Compiler.Operands
import LatencyOS.System.HostKernel
import LatencyOS.Vm.Effects
import LatencyOS.Vm.Exec

/-!
# Running a `match`

A compiled `match` compares the value with the patterns in their order and executes the body of
the first arm that matches.  Nothing makes sure that one does: the compiler takes the type of the
value from the patterns and from the last part of the expression, so that the variants of an enum
count as all values of a word.

## Main definitions

* `RunsArm`: the body of an arm is executed, and the run goes on behind the `match`.

## Main results

* `match_runsArm_iff`: exactly the first arm that matches is executed, if there is one.
-/

namespace LatencyOS

namespace PX64VM

/-!
## Regions of code

A region is a stretch of code whose jumps stay in it or go to its end.  A run that is inside stays
inside, calls and what they run aside, until it comes to the end of the region or returns from the
function the region belongs to.

### Main results

* `PX64VM.inRegion_until`: the run stays in the region until it leaves it.
-/

/-- The function at depth `d` is inside a stretch of code, or will be when it goes on. -/
structure InRegion (d lo hi : ℕ) (vm : PX64VM) : Prop where
  depth : d ≤ vm.callSp
  here : vm.callSp = d → 4 ∣ vm.ip ∧ lo ≤ vm.ip ∧ vm.ip < hi
  back : d < vm.callSp → 4 ∣ vm.callStack d ∧ lo ≤ vm.callStack d ∧ vm.callStack d ≤ hi

/-- The function at depth `d` has returned, or is at the end of a stretch of code. -/
def LeftRegion (d hi : ℕ) (vm : PX64VM) : Prop := vm.callSp < d ∨ vm.callSp = d ∧ vm.ip = hi

variable {host : Host} {vm vm' : PX64VM} {d lo hi : ℕ}

/-- A step executes the instruction at the instruction pointer. -/
theorem exec_of_fetch (h : vm.fetch host = .ok vm') :
    vm.ip + 4 ≤ vm.code.length ∧ ∃ op rd rs1 rs2,
      Opcode.ofCode? (byteAt vm.code vm.ip) = some op ∧ rs1 * 256 + rs2 = immAt vm.code vm.ip ∧
        vm.advance.exec host op rd rs1 rs2 = .ok vm' := by
  rw [fetch] at h
  split at h
  · next hin =>
    refine ⟨hin, ?_⟩
    split at h
    · next op hop => exact ⟨op, _, _, _, hop, rfl, h⟩
    · cases h
  · cases h

theorem code_of_fetch (h : vm.fetch host = .ok vm') : vm'.code = vm.code := by
  obtain ⟨-, op, rd, rs1, rs2, -, -, hexec⟩ := exec_of_fetch h
  exact (sameProgram_exec host vm.advance op rd rs1 rs2 vm' hexec).code

/-- At a place of the region or its end. -/
theorem inRegion_or_left (hsp : vm.callSp = d) (hdvd : 4 ∣ vm.ip) (hlo : lo ≤ vm.ip)
    (hhi : vm.ip ≤ hi) : InRegion d lo hi vm ∨ LeftRegion d hi vm := by
  rcases Nat.lt_or_eq_of_le hhi with hlt | heq
  · exact .inl ⟨Nat.le_of_eq hsp.symm, fun _ => ⟨hdvd, hlo, hlt⟩, fun h => by omega⟩
  · exact .inr (.inr ⟨hsp, heq⟩)

/-- A step inside a region stays inside or leaves it. -/
theorem inRegion_fetch (hc : ClosedRegion vm.code lo hi) (h : InRegion d lo hi vm)
    (hf : vm.fetch host = .ok vm') : InRegion d lo hi vm' ∨ LeftRegion d hi vm' := by
  obtain ⟨-, op, rd, rs1, rs2, hop, himm, hexec⟩ := exec_of_fetch hf
  have hlo := hc.lo_dvd
  have hhi := hc.hi_dvd
  have hdepth := h.depth
  have hflow := flow_exec hexec
  rw [himm] at hflow
  cases hflow with
  | next _ hip hsp hstack =>
    by_cases htop : vm.callSp = d
    · obtain ⟨hdvd, hge, hlt⟩ := h.here htop
      exact inRegion_or_left (hsp.trans htop) (by omega) (by omega) (by omega)
    · refine .inl ⟨by omega, fun heq => by omega, fun _ => ?_⟩
      rw [hstack]
      exact h.back (by omega)
  | jump hjump hip hsp hstack =>
    by_cases htop : vm.callSp = d
    · obtain ⟨hdvd, hge, hlt⟩ := h.here htop
      have hmem : op ∈ jumpOps := by
        rcases hjump with rfl | rfl | rfl <;> decide
      have hcall : ¬ CallAt vm.code vm.ip := by
        rw [CallAt, hop, Option.some.injEq]
        rintro rfl
        rcases hjump with hj | hj | hj <;> cases hj
      obtain ⟨hdvd', hge', hle'⟩ := hc.jumps vm.ip hge hdvd (by omega) ⟨op, hmem, hop⟩ hcall
      exact inRegion_or_left (hsp.trans htop) (hip ▸ hdvd') (hip ▸ hge') (hip ▸ hle')
    · refine .inl ⟨by omega, fun heq => by omega, fun _ => ?_⟩
      rw [hstack]
      exact h.back (by omega)
  | call _ hip hsp hstack =>
    refine .inl ⟨by omega, fun heq => by omega, fun _ => ?_⟩
    rw [hstack]
    by_cases htop : vm.callSp = d
    · obtain ⟨hdvd, hge, hlt⟩ := h.here htop
      have hshort := hc.short
      rw [htop, Function.update_self, Nat.mod_eq_of_lt (by omega)]
      omega
    · rw [Function.update_of_ne (Ne.symm htop)]
      exact h.back (by omega)
  | ret _ hpos hip hsp hstack =>
    by_cases htop : vm.callSp = d
    · exact .inr (.inl (by omega))
    · obtain ⟨hdvd, hge, hle⟩ := h.back (by omega)
      by_cases hnext : vm.callSp = d + 1
      · rw [show vm.callSp - 1 = d by omega] at hip
        exact inRegion_or_left (by omega) (hip ▸ hdvd) (hip ▸ hge) (hip ▸ hle)
      · refine .inl ⟨by omega, fun heq => by omega, fun _ => ?_⟩
        rw [hstack]
        exact ⟨hdvd, hge, hle⟩

/-- A run that is inside a region, or at its end, stays inside until it leaves. -/
theorem inRegion_until (hc : ClosedRegion vm.code lo hi)
    (h : InRegion d lo hi vm ∨ LeftRegion d hi vm) :
    Machine.HoldsUntil (fetch host) (InRegion d lo hi) (LeftRegion d hi) vm := by
  have hrun : Machine.HoldsUntil (fetch host)
      (fun t => t.code = vm.code ∧ InRegion d lo hi t) (LeftRegion d hi) vm := by
    refine Machine.holdsUntil_of_step (fun s t hs hst => ?_) (h.imp_left fun hin => ⟨rfl, hin⟩)
    obtain ⟨hcode, hin⟩ := hs
    refine (inRegion_fetch (hcode ▸ hc) hin hst).imp_left fun hin' => ⟨?_, hin'⟩
    rw [code_of_fetch hst, hcode]
  exact hrun.mono (fun t ht => ht.2) fun t ht => ht

end PX64VM

open CompilerState PX64VM Compiler

variable {host : Host} {vm : PX64VM} {arms : List Arm} {st s t u : CompilerState} {seen : Arms}
  {fuel n reg lo hi : ℕ} {a b : Arm} {x : Unit}

/-- The body of an arm is executed: the run comes to it by way of the heads alone, stays in it
until its end, or until the function returns, and goes on at `hi` from its end. -/
structure RunsArm (host : Host) (arms : List Arm) (lo hi : ℕ) (vm : PX64VM) (a : Arm) : Prop where
  body : ∃ vm', Machine.Through (fetch host) (AtHeads arms lo hi) vm vm' ∧
    vm'.callSp = vm.callSp ∧ vm'.ip = a.body ∧
    Machine.HoldsUntil (fetch host) (InRegion vm.callSp a.body a.stop)
      (LeftRegion vm.callSp a.stop) vm'
  leaves : ∀ t : PX64VM, t.code = vm.code → t.ip = a.stop →
    t.fetch host = .ok { t.advance with ip := hi }

namespace Compiler

/-- Of two arms, one is behind the other. -/
theorem ArmsCode.apart (h : ArmsCode reg arms s u) (ha : a ∈ arms) (hb : b ∈ arms) :
    a = b ∨ a.stop + 4 ≤ b.body ∨ b.stop + 4 ≤ a.body := by
  have hall := List.Pairwise.forall_of_forall_of_flip
    (R := fun a b : Arm => a = b ∨ a.stop + 4 ≤ b.body ∨ b.stop + 4 ≤ a.body)
    (fun _ _ => .inl rfl) (h.order.imp fun hab => .inr (.inl hab))
    (h.order.imp fun hab => .inr (.inr hab))
  exact hall ha hb

/-- The jumps behind the bodies do not overlap. -/
theorem ArmsCode.stops_apart (h : ArmsCode reg arms s u) :
    (arms.map (·.stop)).Pairwise fun p q => p + 4 ≤ q := by
  refine List.pairwise_map.mpr (h.order.imp_of_mem fun {a b} _ hb hab => ?_)
  have := (h.bounds b hb).2.1
  omega

/-- A machine with the code of a `match` is linked with the code of its arms. -/
theorem Landed.linked {stops : List ℕ} (h : Landed stops u t) (hvm : Holds vm s t) :
    Linked vm stops s u where
  code := fun i h₁ h₂ hstops => by
    rw [hvm.code i h₁ (h.length.symm ▸ h₂), h.same i hstops]
  consts := h.consts ▸ hvm.consts

/-- The body of an arm is a region of the machine's code. -/
theorem ArmsCode.region (h : ArmsCode reg arms s u) (hvm : Linked vm (arms.map (·.stop)) s u)
    (ha : a ∈ arms) : ClosedRegion vm.code a.body a.stop := by
  refine (h.regions a ha).congr fun i hge hlt => hvm.code i ?_ ?_ fun p hp => ?_
  · exact Nat.le_trans (h.bounds a ha).1 hge
  · have := (h.bounds a ha).2.2
    omega
  · obtain ⟨b, hb, rfl⟩ := List.mem_map.mp hp
    have := (h.bounds b hb).2.1
    rcases h.apart ha hb with rfl | hab | hba <;> omega

theorem matchHead_of_yields {r : Rec} (hy : Yields (matchHead r) st (reg, seen) s) :
    reg < 20 ∧ seen.jumps = [] := by
  simp only [matchHead, yields_bind, yields_allocTemp, yields_get, yields_require,
    yields_pure] at hy
  obtain ⟨_, _, -, _, _, -, _, _, ⟨m, -, rfl, -⟩, _, _, -, _, _, -, _, _, -, _, _, -, heq, -⟩ := hy
  obtain ⟨rfl, rfl⟩ := Prod.mk.inj heq
  exact ⟨by omega, rfl⟩

/-- What the code of a `match` is, and what is known of a machine that has it. -/
theorem armsCode_of_matchStatement (hp : Placed st) (hfits : Fits st)
    (hhead : Yields (matchHead (recN fuel n)) st (reg, seen) s)
    (hy : Yields (matchStatement (recN fuel n)) st x t)
    (harms : ∀ a ∈ matchArms (recN fuel n) st, a.pattern ≠ .other ∧ a.reserved = true) :
    ∃ u, ArmsCode reg (matchArms (recN fuel n) st) s u ∧
      Landed ((matchArms (recN fuel n) st).map (·.stop)) u t ∧ u.code.length ≤ maxBytecodeSize := by
  obtain ⟨seen', u, hloop, htail, heq⟩ := matchStatement_of_yields hhead hy
  obtain ⟨-, hjumps⟩ := matchHead_of_yields hhead
  have hs : Sound (zone st fuel n) seen.jumps s := by
    rw [hjumps]
    exact (hp.sound.of_yields hhead).1
  have hfits' := fits_of_yields hhead hfits
  rw [heq] at harms ⊢
  obtain ⟨hcode, hseen⟩ := armsCode_of_yields hloop hs hfits' harms
  rw [hjumps, List.nil_append] at hseen
  exact ⟨u, hcode, hseen ▸ matchTail_of_yields htail, (fits_of_yields hloop hfits').code⟩

/-- The first arm that matches is executed, and no other one. -/
theorem ArmsCode.runsArm_iff (host : Host) (hcode : ArmsCode reg arms s u)
    (hlanded : Landed (arms.map (·.stop)) u t)
    (hroom : u.code.length ≤ maxBytecodeSize) (hreg : reg < 20) (hvm : Holds vm s t)
    (hip : vm.ip = s.code.length) (ha : a ∈ arms) :
    RunsArm host arms s.code.length t.code.length vm a ↔
      firstMatch vm.getStrBytes (vm.regs reg) arms = some a := by
  have hmax : maxBytecodeSize < 65536 := by decide
  have hlinked := hlanded.linked hvm
  have hlen : t.code.length = u.code.length := hlanded.length
  obtain ⟨vm₁, hthrough, hcore, hip₁⟩ := hcode.runs host vm hlinked hip hreg (by omega)
  rw [hlen]
  have hleft : ¬ AtHeads arms s.code.length u.code.length vm₁ := by
    rintro ⟨-, hlt, hout⟩
    cases hfirst : firstMatch vm.getStrBytes (vm.regs reg) arms with
    | none =>
      rw [hfirst] at hip₁
      exact absurd hip₁ (Nat.ne_of_lt hlt)
    | some b =>
      rw [hfirst] at hip₁
      have hb := hcode.bounds b (List.mem_of_find?_eq_some hfirst)
      have := hout b (List.mem_of_find?_eq_some hfirst)
      have hb₁ : vm₁.ip = b.body := hip₁
      omega
  have hbounds := hcode.bounds a ha
  constructor
  · rintro ⟨⟨vm₂, hthrough', -, hip₂, -⟩, -⟩
    have hleft' : ¬ AtHeads arms s.code.length u.code.length vm₂ := by
      rintro ⟨-, -, hout⟩
      have := hout a ha
      omega
    obtain rfl := hthrough.unique hthrough' hleft hleft'
    cases hfirst : firstMatch vm.getStrBytes (vm.regs reg) arms with
    | none =>
      rw [hfirst] at hip₁
      have hend : vm₁.ip = u.code.length := hip₁
      omega
    | some b =>
      rw [hfirst] at hip₁
      have hb := List.mem_of_find?_eq_some hfirst
      have hbody : vm₁.ip = b.body := hip₁
      have := hcode.bounds b hb
      rcases hcode.apart ha hb with rfl | hab | hba
      · rfl
      · omega
      · omega
  · intro hfirst
    rw [hfirst] at hip₁
    have hbody : vm₁.ip = a.body := hip₁
    have hregion := hcode.region hlinked ha
    have hsp : vm₁.callSp = vm.callSp := eq_of_core PX64VM.callSp (fun _ => rfl) hcore
    refine ⟨⟨vm₁, hthrough, hsp, hbody, ?_⟩, fun t' hcode' hip' => ?_⟩
    · refine inRegion_until (by rw [code_of_core hcore]; exact hregion) ?_
      refine inRegion_or_left hsp ?_ (Nat.le_of_eq hbody.symm) (by omega)
      rw [hbody]
      exact hregion.lo_dvd
    · have hin := hlanded.insts hcode.stops_apart a.stop (List.mem_map_of_mem ha) (hcode.jumps a ha)
        (by omega)
      have hinst : t'.InstAt t'.ip .jmp 0 (u.code.length / 256) (u.code.length % 256) := by
        intro i hi
        rw [hcode', hip']
        exact hvm.inst hin (by omega) i hi
      rw [hinst.jmp host (by omega) (by omega), Nat.div_add_mod' u.code.length 256]

end Compiler

/-- **An arm of a `match` is executed exactly if some pattern matches the value; it is the first
one that does.** -/
theorem match_runsArm_iff (host : Host) (hp : Placed st) (hfits : Fits st)
    (hhead : Yields (matchHead (recN fuel n)) st (reg, seen) s)
    (hy : Yields (matchStatement (recN fuel n)) st x t)
    (harms : ∀ a ∈ matchArms (recN fuel n) st, a.pattern ≠ .other ∧ a.reserved = true)
    (hvm : Holds vm s t) (hip : vm.ip = s.code.length) :
    ((∃ a ∈ matchArms (recN fuel n) st,
        RunsArm host (matchArms (recN fuel n) st) s.code.length t.code.length vm a) ↔
      ∃ a ∈ matchArms (recN fuel n) st, a.pattern.Matches vm.getStrBytes (vm.regs reg)) ∧
    ∀ a ∈ matchArms (recN fuel n) st,
      RunsArm host (matchArms (recN fuel n) st) s.code.length t.code.length vm a →
        firstMatch vm.getStrBytes (vm.regs reg) (matchArms (recN fuel n) st) = some a := by
  obtain ⟨u, hcode, hlanded, hroom⟩ := armsCode_of_matchStatement hp hfits hhead hy harms
  obtain ⟨hreg, -⟩ := matchHead_of_yields hhead
  have hiff (a : Arm) (ha : a ∈ matchArms (recN fuel n) st) :=
    hcode.runsArm_iff host hlanded hroom hreg hvm hip ha
  refine ⟨⟨?_, ?_⟩, fun a ha => (hiff a ha).mp⟩
  · rintro ⟨a, ha, hruns⟩
    have hfirst := (hiff a ha).mp hruns
    exact ⟨a, ha, by simpa using List.find?_some hfirst⟩
  · rintro ⟨a, ha, hmatch⟩
    cases hfirst : firstMatch vm.getStrBytes (vm.regs reg) (matchArms (recN fuel n) st) with
    | none => exact absurd hmatch (by simpa using List.find?_eq_none.mp hfirst a ha)
    | some b =>
      have hb := List.mem_of_find?_eq_some hfirst
      exact ⟨b, hb, (hiff b hb).mpr hfirst⟩

/-- A `match` with two literals and a wildcard. -/
def matchTwo : List UInt8 := bytes ("match 2 \x7b 1 => \x7b @println(7); \x7d, " ++
  "2 => \x7b @println(8); \x7d, _ => \x7b @println(9); \x7d \x7d")

/-- The `match` is accepted. -/
theorem matchTwo_facts : (stateBefore matchTwo 0).code.length = 0 ∧
    (stateBefore matchTwo 0).constPool.length ≤ maxConstPool ∧
    (stateBefore matchTwo 0).decls.functions.length = 0 ∧
    ((matchHead (recN 10 10)).run perform (stateBefore matchTwo 0)).isOk = true ∧
    ((matchStatement (recN 10 10)).run perform (stateBefore matchTwo 0)).isOk = true ∧
    (matchArms (recN 10 10) (stateBefore matchTwo 0)).map (fun a => (a.pattern, a.reserved)) =
      [(.literal 1#64, true), (.literal 2#64, true), (.wildcard, true)] := by
  decide +kernel

theorem exists_yields {α : Type} {p : CompilerM α} (h : (p.run perform st).isOk = true) :
    ∃ a s, Yields p st a s := by
  cases hrun : p.run perform st with
  | error e =>
    rw [hrun] at h
    cases h
  | ok r => exact ⟨r.1, r.2, hrun⟩

/-- An arm is executed for the value two. -/
theorem matchTwo_runs : ∃ h s t, Yields (matchHead (recN 10 10)) (stateBefore matchTwo 0) h s ∧
    Yields (matchStatement (recN 10 10)) (stateBefore matchTwo 0) () t ∧
    ∃ a ∈ matchArms (recN 10 10) (stateBefore matchTwo 0),
      RunsArm silentHost (matchArms (recN 10 10) (stateBefore matchTwo 0)) s.code.length
        t.code.length (machineAt s t fun _ => 2#64) a := by
  obtain ⟨hcode, hpool, hfns, hhead, hstatement, harms⟩ := matchTwo_facts
  obtain ⟨h, s, hhead⟩ := exists_yields hhead
  obtain ⟨_, t, hstatement⟩ := exists_yields hstatement
  have hnil := List.eq_nil_of_length_eq_zero hfns
  have hplaced : Placed (stateBefore matchTwo 0) :=
    ⟨by rw [hcode]; exact dvd_zero 4, by rw [hcode]; exact Nat.zero_le _,
      by rw [hnil]; exact fun f hf => absurd hf List.not_mem_nil,
      by rw [hnil]; exact fun f hf => absurd hf List.not_mem_nil⟩
  have hkinds : ∀ a ∈ matchArms (recN 10 10) (stateBefore matchTwo 0),
      a.pattern ≠ .other ∧ a.reserved = true := by
    intro a ha
    have hmem := List.mem_map_of_mem (f := fun a => (a.pattern, a.reserved)) ha
    rw [harms] at hmem
    simp only [List.mem_cons, List.not_mem_nil, or_false, Prod.mk.injEq] at hmem
    rcases hmem with ⟨hp, hr⟩ | ⟨hp, hr⟩ | ⟨hp, hr⟩ <;> exact ⟨by rw [hp]; decide, hr⟩
  have hwild : ∃ a ∈ matchArms (recN 10 10) (stateBefore matchTwo 0), a.pattern = .wildcard := by
    have hmem : (Pattern.wildcard, true) ∈ (matchArms (recN 10 10) (stateBefore matchTwo 0)).map
        fun a => (a.pattern, a.reserved) := by
      rw [harms]
      decide
    obtain ⟨a, ha, heq⟩ := List.mem_map.mp hmem
    exact ⟨a, ha, (Prod.mk.inj heq).1⟩
  have hvm : Holds (machineAt s t fun _ => 2#64) s t := ⟨fun _ _ _ => rfl, List.prefix_rfl⟩
  obtain ⟨hiff, -⟩ := match_runsArm_iff silentHost hplaced
    ⟨by rw [hcode]; exact Nat.zero_le _, hpool⟩ hhead hstatement hkinds hvm rfl
  obtain ⟨a, ha, hruns⟩ := hiff.mpr (by
    obtain ⟨a, ha, hpattern⟩ := hwild
    exact ⟨a, ha, hpattern ▸ trivial⟩)
  exact ⟨h, s, t, hhead, hstatement, a, ha, hruns⟩

/-- A `match` whose arms are the variants of an enum, on a number. -/
def variantOfFive : String := "enum E \x7b A, B \x7d match 5 \x7b " ++
  "E::A => \x7b @println(1); \x7d, E::B => \x7b @println(2); \x7d \x7d @println(3);"

/-- The `match` counts as exhaustive, and no arm is executed. -/
theorem variantOfFive_skipped :
    compileSource true 60 (bytes variantOfFive) = .ok (compiled variantOfFive) ∧
      runProgram stillHost 200 (compiled variantOfFive) [] = some (.ok, bytes "3\n") := by
  decide +kernel

end LatencyOS
