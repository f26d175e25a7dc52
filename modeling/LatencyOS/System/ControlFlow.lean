import LatencyOS.Compiler.Discipline.Compile
import LatencyOS.System.HostKernel
import LatencyOS.Vm.Effects

/-!
# The control flow of compiled programs

Every jump of compiled code lands on an instruction of it, and the last instruction is a `HALT`.
Along a run the instruction pointer therefore stays on instructions, every return goes back
behind the call it belongs to, and no run falls off the end.
-/

namespace LatencyOS

/-- Code that control cannot leave: every jump lands inside, and the end stops. -/
structure ClosedCode (code : List UInt8) : Prop where
  aligned : 4 ∣ code.length
  short : code.length ≤ 65536
  nonempty : 0 < code.length
  last : Opcode.ofCode? (byteAt code (code.length - 4)) = some .halt
  jumps : ∀ pos, 4 ∣ pos → pos + 4 ≤ code.length → JumpAt code pos →
    4 ∣ immAt code pos ∧ immAt code pos < code.length

/-- Compiled code is closed. -/
theorem Compiler.Finished.closedCode {st : CompilerState} (h : Compiler.Finished st) :
    ClosedCode st.code := by
  obtain ⟨body, hcode, hjumps, -⟩ := h.code
  have hlen : st.code.length = body.length + 4 := by
    rw [hcode, List.length_append, length_instBytes]
  have hal := hjumps.aligned
  have hfits : body.length ≤ 4096 := hjumps.fits
  refine ⟨by omega, by omega, by omega, ?_, fun pos hdvd hle hjump => ?_⟩
  · rw [hlen, Nat.add_sub_cancel, hcode]
    exact ofCode?_byteAt_instBytes
  · rw [hcode] at hjump ⊢
    rw [hlen] at hle
    have hbody : pos + 4 ≤ body.length := by
      rcases hjumps.eq_or_le hdvd hle with rfl | hlt
      · exact absurd (jumpAt_instBytes.mp hjump) (by decide)
      · exact hlt
    have himm : immAt (body ++ instBytes .halt 0 0 0) pos = immAt body pos := by
      rw [immAt, immAt, byteAt_append_left _ (by omega), byteAt_append_left _ (by omega)]
    have hland := (hjumps.lands pos (Nat.zero_le _) hdvd hbody
      ((jumpAt_append _ (by omega)).mp hjump) List.not_mem_nil).1
    rw [himm, List.length_append, length_instBytes]
    exact ⟨hland.1, Nat.lt_of_le_of_lt hland.2 (Nat.lt_add_of_pos_right (by decide))⟩

theorem closedCode_of_compileSource {checks : Bool} {fuel : ℕ} {src : List UInt8} {p : Program}
    (h : compileSource checks fuel src = .ok p) : ClosedCode p.code := by
  obtain ⟨st, hst, rfl⟩ := Compiler.compileSource_eq_ok h
  exact (Compiler.finished_of_compileState hst).closedCode

namespace PX64VM

variable {host : Host} {start vm vm' c : PX64VM} {i : ℕ}

/-- The function that runs at depth `i + 1` in `vm` was called by `c`, and has not returned
since. -/
structure CalledFrom (host : Host) (c vm : PX64VM) (i : ℕ) : Prop where
  call : ∃ rd rs1 rs2, c.Fetches .call rd rs1 rs2
  depth : c.callSp = i
  back : vm.callStack i = c.ip + 4
  during : ∃ n, Machine.iter (step host) (n + 1) c = .ok vm ∧
    ∀ m t, m ≤ n → Machine.iter (step host) (m + 1) c = .ok t → i < t.callSp

/-- The call is still open after a step that stays above its depth. -/
theorem CalledFrom.step (h : CalledFrom host c vm i) (hs : vm.step host = .ok vm')
    (hstack : vm'.callStack i = vm.callStack i) (hdepth : i < vm'.callSp) :
    CalledFrom host c vm' i := by
  obtain ⟨n, hn, hduring⟩ := h.during
  have hnext : Machine.iter (PX64VM.step host) (n + 1 + 1) c = .ok vm' := by
    rw [Machine.iter_add _ hn, Machine.iter_succ_of_ok _ hs, Machine.iter_zero]
  refine ⟨h.call, h.depth, hstack.trans h.back, n + 1, hnext, fun m t hm ht => ?_⟩
  by_cases hle : m ≤ n
  · exact hduring m t hle ht
  · have heq : m = n + 1 := by omega
    rw [heq, hnext] at ht
    cases ht
    exact hdepth

/-- What holds along a run of closed code. -/
structure Followed (host : Host) (start vm : PX64VM) : Prop where
  dvd : 4 ∣ vm.ip
  inside : vm.ip + 4 ≤ vm.code.length
  frames : ∀ i < vm.callSp, 4 ∣ vm.callStack i ∧ vm.callStack i + 4 ≤ vm.code.length ∧
    ∃ c, Machine.Reaches (step host) start c ∧ CalledFrom host c vm i

/-- The next instruction of closed code is there, unless this one is a `HALT`. -/
theorem Followed.next_inside (h : Followed host start vm) (hc : ClosedCode vm.code) {op : Opcode}
    {rd rs1 rs2 : ℕ} (hf : vm.Fetches op rd rs1 rs2) (hop : op ≠ .halt) :
    4 ∣ vm.ip + 4 ∧ vm.ip + 4 + 4 ≤ vm.code.length := by
  have hdvd := h.dvd
  have hal := hc.aligned
  refine ⟨by omega, ?_⟩
  by_contra hgt
  have hend : vm.ip = vm.code.length - 4 := by
    have := h.inside
    omega
  have hlast := hc.last
  rw [← hend, hf.2.2.1] at hlast
  cases hlast
  exact hop rfl

/-- The target of a jump of closed code is an instruction. -/
theorem Followed.target_inside (h : Followed host start vm) (hc : ClosedCode vm.code) {op : Opcode}
    {rd rs1 rs2 : ℕ} (hf : vm.Fetches op rd rs1 rs2) (hop : op ∈ jumpOps) :
    4 ∣ rs1 * 256 + rs2 ∧ rs1 * 256 + rs2 + 4 ≤ vm.code.length := by
  obtain ⟨-, -, hcode, -, hrs1, hrs2⟩ := hf
  have hland := hc.jumps vm.ip h.dvd h.inside ⟨op, hop, hcode⟩
  rw [immAt, ← hrs1, ← hrs2] at hland
  have hal := hc.aligned
  omega

/-- The frames below a depth stay open. -/
theorem Followed.keep_frames (h : Followed host start vm) (hs : vm.step host = .ok vm')
    (hle : vm'.callSp ≤ vm.callSp) (hstack : vm'.callStack = vm.callStack) :
    ∀ i < vm'.callSp, 4 ∣ vm'.callStack i ∧ vm'.callStack i + 4 ≤ vm'.code.length ∧
      ∃ c, Machine.Reaches (step host) start c ∧ CalledFrom host c vm' i := by
  intro i hi
  obtain ⟨hdvd, hin, c, hc, hcalled⟩ := h.frames i (Nat.lt_of_lt_of_le hi hle)
  rw [hstack, (sameProgram_step hs).code]
  exact ⟨hdvd, hin, c, hc, hcalled.step hs (by rw [hstack]) hi⟩

/-- A step of closed code stays inside it. -/
theorem followed_step (hc : ClosedCode vm.code) (hreach : Machine.Reaches (step host) start vm)
    (h : Followed host start vm) (hs : vm.step host = .ok vm') : Followed host start vm' := by
  have hcode := (sameProgram_step hs).code
  obtain ⟨op, rd, rs1, rs2, hf, hflow⟩ := flow_step hs
  cases hflow with
  | next hop hip hsp hstack =>
    obtain ⟨hdvd, hin⟩ := h.next_inside hc hf hop
    refine ⟨?_, ?_, h.keep_frames hs (Nat.le_of_eq hsp) hstack⟩
    · rw [hip]
      exact hdvd
    · rw [hip, hcode]
      exact hin
  | jump hop hip hsp hstack =>
    have hmem : op ∈ jumpOps := by
      rcases hop with rfl | rfl | rfl <;> decide
    obtain ⟨hdvd, hin⟩ := h.target_inside hc hf hmem
    refine ⟨?_, ?_, h.keep_frames hs (Nat.le_of_eq hsp) hstack⟩
    · rw [hip]
      exact hdvd
    · rw [hip, hcode]
      exact hin
  | call hop hip hsp hstack =>
    subst hop
    obtain ⟨hdvd, hin⟩ := h.target_inside hc hf (by decide)
    obtain ⟨hdvd', hin'⟩ := h.next_inside hc hf nofun
    have hshort := hc.short
    have hmod : (vm.ip + 4) % 65536 = vm.ip + 4 := Nat.mod_eq_of_lt (by omega)
    rw [hmod] at hstack
    refine ⟨by rw [hip]; exact hdvd, by rw [hip, hcode]; exact hin, fun i hi => ?_⟩
    rw [hsp] at hi
    by_cases htop : i = vm.callSp
    · have hback : vm'.callStack i = vm.ip + 4 := by
        rw [hstack, htop, Function.update_self]
      rw [hback, hcode]
      refine ⟨hdvd', hin', vm, hreach, ⟨rd, rs1, rs2, hf⟩, htop.symm, hback, 0, ?_, ?_⟩
      · rw [Machine.iter_succ_of_ok _ hs, Machine.iter_zero]
      · intro m t hm ht
        rw [Nat.le_zero.mp hm, Machine.iter_succ_of_ok _ hs, Machine.iter_zero] at ht
        cases ht
        rw [htop, hsp]
        exact Nat.lt_succ_self _
    · have hkeep : vm'.callStack i = vm.callStack i := by
        rw [hstack, Function.update_of_ne htop]
      obtain ⟨hd, hl, c, hcr, hcalled⟩ := h.frames i (by omega)
      rw [hkeep, hcode]
      refine ⟨hd, hl, c, hcr, hcalled.step hs hkeep ?_⟩
      rw [hsp]
      exact hi
  | ret hop hdepth hip hsp hstack =>
    obtain ⟨hdvd, hin, -⟩ := h.frames (vm.callSp - 1) (Nat.sub_lt hdepth Nat.one_pos)
    refine ⟨?_, ?_, h.keep_frames hs ?_ hstack⟩
    · rw [hip]
      exact hdvd
    · rw [hip, hcode]
      exact hin
    · rw [hsp]
      exact Nat.sub_le _ _

/-- Every state of a run of closed code is inside it. -/
theorem followed_reaches {p : Program} (hc : ClosedCode p.code) (args : List (List UInt8))
    (h : Machine.Reaches (step host) (p.start args) vm) : Followed host (p.start args) vm := by
  refine h.invariant_reached (fun ht hs hI => ?_) ?_
  · refine followed_step ?_ ht hI hs
    rw [(sameProgram_reaches ht).code]
    exact hc
  · have hal := hc.aligned
    have hpos := hc.nonempty
    refine ⟨⟨0, rfl⟩, ?_, fun i hi => absurd hi (Nat.not_lt_zero i)⟩
    change 0 + 4 ≤ p.code.length
    omega

end PX64VM

/-- **Compiled control flow**: jumps land, the instruction pointer stays on instructions, every
return matches a call or ends the run, and the run ends with a `HALT`, a return at depth zero or
a reported error. -/
structure WellFormedFlow (host : Host) (p : Program) (args : List (List UInt8)) : Prop where
  jumps : ∀ pos, 4 ∣ pos → pos + 4 ≤ p.code.length → JumpAt p.code pos →
    4 ∣ immAt p.code pos ∧ immAt p.code pos < p.code.length
  inside : ∀ vm, Machine.Reaches (PX64VM.step host) (p.start args) vm →
    4 ∣ vm.ip ∧ vm.ip + 4 ≤ p.code.length
  returns : ∀ vm rd rs1 rs2, Machine.Reaches (PX64VM.step host) (p.start args) vm →
    vm.Fetches .ret rd rs1 rs2 →
    (vm.callSp = 0 ∧ ∃ vm', vm.step host = .error (.ok, vm')) ∨
      ∃ c vm', Machine.Reaches (PX64VM.step host) (p.start args) c ∧
        PX64VM.CalledFrom host c vm (vm.callSp - 1) ∧ vm.step host = .ok vm' ∧
        vm'.ip = c.ip + 4 ∧ vm'.callSp = c.callSp
  ends : ∀ vm r, Machine.Reaches (PX64VM.step host) (p.start args) vm → vm.step host = .error r →
    (r.1 = .ok ∧ ((∃ rd rs1 rs2, vm.Fetches .halt rd rs1 rs2) ∨
      vm.callSp = 0 ∧ ∃ rd rs1 rs2, vm.Fetches .ret rd rs1 rs2)) ∨ ∃ e, r.1 = .error e

namespace PX64VM

variable {host : Host} {vm : PX64VM}

/-- A step inside the code stops normally at a `HALT` or a return at depth zero only. -/
theorem fetches_of_ok (hin : vm.ip + 4 ≤ vm.code.length) {r : Stop × PX64VM}
    (h : vm.step host = .error r) (hok : r.1 = .ok) :
    (∃ rd rs1 rs2, vm.Fetches .halt rd rs1 rs2) ∨
      vm.callSp = 0 ∧ ∃ rd rs1 rs2, vm.Fetches .ret rd rs1 rs2 := by
  by_cases hf : ∃ op rd rs1 rs2, vm.Fetches op rd rs1 rs2
  · obtain ⟨op, rd, rs1, rs2, hf⟩ := hf
    rw [hf.step_eq] at h
    have hhalts : Halts (vm.advance.exec host op rd rs1 rs2) := ⟨r, h, hok⟩
    rcases halts_exec hhalts with rfl | ⟨rfl, hdepth⟩
    · exact .inl ⟨rd, rs1, rs2, hf⟩
    · exact .inr ⟨hdepth, rd, rs1, rs2, hf⟩
  · -- what stops before an instruction is executed is the step limit or a bad opcode
    simp only [not_exists] at hf
    rw [step, if_pos hin] at h
    split at h
    · cases h
      cases hok
    · next hlim =>
      have hop : Opcode.ofCode? (byteAt vm.code vm.ip) = none :=
        Option.eq_none_iff_forall_ne_some.mpr fun op hop =>
          hf op _ _ _ ⟨hin, Nat.not_le.mp hlim, hop, rfl, rfl, rfl⟩
      simp only [hop] at h
      cases h
      cases hok

/-- A return goes back behind the call that its frame was pushed by. -/
theorem returns_behind_call {start : PX64VM} (h : Followed host start vm) {rd rs1 rs2 : ℕ}
    (hf : vm.Fetches .ret rd rs1 rs2) :
    (vm.callSp = 0 ∧ ∃ vm', vm.step host = .error (.ok, vm')) ∨
      ∃ c vm', Machine.Reaches (step host) start c ∧ CalledFrom host c vm (vm.callSp - 1) ∧
        vm.step host = .ok vm' ∧ vm'.ip = c.ip + 4 ∧ vm'.callSp = c.callSp := by
  have hstep := hf.step_eq host
  simp only [exec] at hstep
  split at hstep
  · next hdepth => exact .inl ⟨hdepth, _, hstep⟩
  · next hdepth =>
    have hpos : 0 < vm.callSp := Nat.pos_of_ne_zero hdepth
    obtain ⟨-, -, c, hc, hcalled⟩ := h.frames (vm.callSp - 1) (Nat.sub_lt hpos Nat.one_pos)
    exact .inr ⟨c, _, hc, hcalled, hstep, hcalled.back, hcalled.depth.symm⟩

end PX64VM

/-- **Compiled control flow is well formed exactly in the runs that do not panic.**  Jumps,
instruction pointer, returns and the end of the code are in order in every run of every accepted
source; the one other way a run can end is a panic of the machine. -/
theorem compiled_flow_wellFormed_iff (checks : Bool) (fuel : ℕ) (src : List UInt8) (p : Program)
    (h : compileSource checks fuel src = .ok p) (host : Host) (args : List (List UInt8)) :
    WellFormedFlow host p args ↔
      ∀ vm, Machine.Reaches (PX64VM.step host) (p.start args) vm → vm.SafeStep := by
  have hclosed := closedCode_of_compileSource h
  constructor
  · intro hflow vm hreach
    by_contra hunsafe
    obtain ⟨r, hr, hpanic⟩ := (PX64VM.panics_step host vm).mpr hunsafe
    rcases hflow.ends vm r hreach hr with ⟨hok, -⟩ | ⟨e, he⟩
    · rw [hpanic] at hok
      cases hok
    · rw [hpanic] at he
      cases he
  · intro hsafe
    refine ⟨hclosed.jumps, fun vm hreach => ?_, fun vm rd rs1 rs2 hreach hf => ?_,
      fun vm r hreach hr => ?_⟩
    · have hcode : vm.code = p.code := (PX64VM.sameProgram_reaches hreach).code
      have hfollow := PX64VM.followed_reaches hclosed args hreach
      exact ⟨hfollow.dvd, hcode ▸ hfollow.inside⟩
    · exact PX64VM.returns_behind_call (PX64VM.followed_reaches hclosed args hreach) hf
    · have hfollow := PX64VM.followed_reaches hclosed args hreach
      cases hstop : r.1 with
      | ok => exact .inl ⟨rfl, PX64VM.fetches_of_ok hfollow.inside hr hstop⟩
      | error e => exact .inr ⟨e, rfl⟩
      | panic =>
        exact absurd ⟨r, hr, hstop⟩
          (mt (PX64VM.panics_step host vm).mp (not_not.mpr (hsafe vm hreach)))

/-- A read from vram at a negative offset. -/
def strayReadSource : String := "@vram_read(0, 0 - 1);"

/-- The source is accepted and its run panics. -/
theorem strayRead_panics :
    ¬ ∀ (checks : Bool) (fuel : ℕ) (src : List UInt8) (p : Program),
      compileSource checks fuel src = .ok p → ∀ (host : Host) (args : List (List UInt8)),
        WellFormedFlow host p args := by
  intro hall
  have hp : compileSource true 60 (bytes strayReadSource) = .ok (compiled strayReadSource) := by
    decide +kernel
  have hflow := hall _ _ _ _ hp stillHost []
  have hstop : (PX64VM.runWithOutput stillHost 10 ((compiled strayReadSource).start [])).map
      (·.1) = some .panic := by decide +kernel
  obtain ⟨r, hrun, hpanic⟩ := Option.map_eq_some_iff.mp hstop
  obtain ⟨vm, hreach, hstep⟩ := Machine.run_eq_some _ hrun
  rcases hflow.ends vm r hreach hstep with ⟨hok, -⟩ | ⟨e, he⟩
  · rw [hpanic] at hok
    cases hok
  · rw [hpanic] at he
    cases he

/-- A source with a function, a branch and a call. -/
def callSource : String :=
  "fn f($a) \x7b return $a + 1; \x7d let mut $x = 2; if ($x) \x7b $x = f($x); \x7d @println($x);"

/-- Whether the next step does not panic. -/
def PX64VM.stepsOn (host : Host) (vm : PX64VM) : Bool :=
  match vm.step host with
  | .error (.panic, _) => false
  | _ => true

theorem PX64VM.safeStep_of_stepsOn {host : Host} {vm : PX64VM} (h : vm.stepsOn host = true) :
    vm.SafeStep := by
  by_contra hunsafe
  obtain ⟨⟨stop, vm'⟩, hr, hpanic⟩ := (panics_step host vm).mpr hunsafe
  cases hpanic
  rw [stepsOn, hr] at h
  cases h

theorem callSource_wellFormed : WellFormedFlow stillHost (compiled callSource) [] := by
  have hp : compileSource true 60 (bytes callSource) = .ok (compiled callSource) := by
    decide +kernel
  have hsteps : Machine.allAlong (PX64VM.step stillHost) (PX64VM.stepsOn stillHost) 40
      ((compiled callSource).start []) = true := by decide +kernel
  refine (compiled_flow_wellFormed_iff true 60 _ _ hp stillHost []).mpr fun vm hreach => ?_
  exact PX64VM.safeStep_of_stepsOn (Machine.forall_of_allAlong _ hsteps vm hreach)

end LatencyOS
