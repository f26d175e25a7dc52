import LatencyOS.System.HostKernel

/-!
# Replay time

Under an enabled `DeterministicReplayConfig` both clocks are linear in the step count.
The step count grows by one with every instruction, but reading the keyboard sets it
back to zero: between two readings of a clock, replay time advances exactly when the
count does.
-/

namespace LatencyOS

namespace DeterministicReplayConfig

/-- The start and the stride of the clock a native reads. -/
def clock (cfg : DeterministicReplayConfig) : Native → Option (Word64 × Word64)
  | .sysTsc => some (cfg.tscSeed, cfg.tscStep)
  | .uptimeNs => some (cfg.uptimeBaseNs, cfg.uptimeStepNs)
  | _ => none

/-- The clocks are replaced by ones with positive strides that stay in the signed 64-bit
range for `limit` instructions. -/
structure Advances (cfg : DeterministicReplayConfig) (limit : ℕ) : Prop where
  enabled : cfg.enabled = true
  tscStep_pos : 0 < cfg.tscStep.toInt
  uptimeStep_pos : 0 < cfg.uptimeStepNs.toInt
  tsc_fits : cfg.tscSeed.toInt + limit * cfg.tscStep.toInt < 2 ^ 63
  uptime_fits : cfg.uptimeBaseNs.toInt + limit * cfg.uptimeStepNs.toInt < 2 ^ 63

theorem Advances.clock {cfg : DeterministicReplayConfig} {limit : ℕ} (h : cfg.Advances limit)
    {f : Native} {seed stride : Word64} (hf : cfg.clock f = some (seed, stride)) :
    0 < stride.toInt ∧ seed.toInt + limit * stride.toInt < 2 ^ 63 := by
  cases f <;> cases hf
  case sysTsc => exact ⟨h.tscStep_pos, h.tsc_fits⟩
  case uptimeNs => exact ⟨h.uptimeStep_pos, h.uptime_fits⟩

end DeterministicReplayConfig

/-- Virtual time that stays in range is computed without wrapping. -/
theorem toInt_virtualTime {seed stride : Word64} {limit n : ℕ} (hpos : 0 < stride.toInt)
    (hfits : seed.toInt + limit * stride.toInt < 2 ^ 63) (hn : n ≤ limit) :
    (seed + BitVec.ofNat 64 n * stride).toInt = seed.toInt + n * stride.toInt := by
  have hlow : -2 ^ 63 ≤ seed.toInt := BitVec.le_toInt seed
  have hle : (n : ℤ) * stride.toInt ≤ limit * stride.toInt :=
    Int.mul_le_mul_of_nonneg_right (by omega) (Int.le_of_lt hpos)
  have hnonneg : 0 ≤ (n : ℤ) * stride.toInt := Int.mul_nonneg (by omega) (Int.le_of_lt hpos)
  rw [BitVec.toInt_add, BitVec.toInt_mul, BitVec.toInt_ofNat', Int.bmod_mul_bmod,
    Int.add_bmod_bmod]
  exact Int.bmod_eq_of_le (by omega) (by omega)

namespace PX64VM

/-- `with_replay_config`. -/
def withReplayConfig (vm : PX64VM) (config : DeterministicReplayConfig) : PX64VM :=
  { vm with replayConfig := some config }

/-- The instruction about to be executed calls the native `f`, which returns `v`. -/
def CallReturns (host : Host) (f : Native) (v : Word64) (vm : PX64VM) : Prop :=
  ∃ rd rs1 rs2, vm.Fetches .callNat rd rs1 rs2 ∧ Native.ofId? rs1 = some f ∧
    ∃ vm', vm.advance.callNative host f rs2 (vm.advance.regOr rs2 0#64) = .ok (v, vm')

/-- A call of a native goes on with its value in the destination register. -/
theorem CallReturns.step {host : Host} {f : Native} {v : Word64} {vm : PX64VM}
    (h : vm.CallReturns host f v) : ∃ rd vm', vm.step host = .ok (setReg vm' rd v) := by
  obtain ⟨rd, rs1, rs2, hf, hid, vm', hcall⟩ := h
  refine ⟨rd, vm', ?_⟩
  rw [hf.step_eq]
  simp only [exec, hid, hcall]

/-- A clock native is not the one that reads the keyboard. -/
theorem CallReturns.not_readsKey {host : Host} {f : Native} {v : Word64} {vm : PX64VM}
    (h : vm.CallReturns host f v) (hf : f ≠ .termReadKey) : ¬ vm.ReadsKey := by
  rintro ⟨rd', rs1', rs2', hfetch', hid'⟩
  obtain ⟨rd, rs1, rs2, hfetch, hid, -⟩ := h
  obtain ⟨-, -, -, rfl, rfl, rfl⟩ := hfetch
  obtain ⟨-, -, -, rfl, rfl, rfl⟩ := hfetch'
  exact hf (Option.some.inj (hid.symm.trans hid'))

/-- What a clock native returns is replay time. -/
theorem CallReturns.eq_virtualTime {host : Host} {cfg : DeterministicReplayConfig} {f : Native}
    {v seed stride : Word64} {vm : PX64VM} (h : vm.CallReturns host f v)
    (hcfg : vm.replayConfig = some cfg) (hon : cfg.enabled = true)
    (hf : cfg.clock f = some (seed, stride)) :
    v = seed + BitVec.ofNat 64 (vm.steps + 1) * stride ∧ vm.steps < vm.maxSteps := by
  obtain ⟨rd, rs1, rs2, hfetch, hid, vm', hcall⟩ := h
  refine ⟨?_, hfetch.2.1⟩
  have hcfg' : vm.advance.replayConfig = some cfg := hcfg
  cases f <;> cases hf
  case sysTsc =>
    simp only [callNative, getTsc, hcfg', if_pos hon, Except.ok.injEq, Prod.mk.injEq] at hcall
    exact hcall.1.symm
  case uptimeNs =>
    simp only [callNative, getUptimeNs, hcfg', if_pos hon, Except.ok.injEq,
      Prod.mk.injEq] at hcall
    exact hcall.1.symm

/-- The step count grows along a stretch that does not read the keyboard. -/
theorem steps_le_of_through {host : Host} {vm vm' : PX64VM}
    (h : Machine.Through (step host) (fun u => ¬ u.ReadsKey) vm vm') : vm.steps ≤ vm'.steps := by
  obtain ⟨n, hn, hway⟩ := h
  induction n generalizing vm with
  | zero =>
    cases hn
    exact Nat.le_refl _
  | succ n ih =>
    obtain ⟨u, hu, hk⟩ := hway 0 (Nat.succ_pos n)
    cases hu
    cases hs : vm.step host with
    | error r =>
      rw [Machine.iter_succ_of_error _ hs] at hn
      cases hn
    | ok t =>
      rw [Machine.iter_succ_of_ok _ hs] at hn
      have hcount := (step_counts hs hk).2.1
      have hrest : t.steps ≤ vm'.steps := ih hn fun k hlt => by
        obtain ⟨u, hu, hk⟩ := hway (k + 1) (Nat.succ_lt_succ hlt)
        exact ⟨u, by rw [← hu, Machine.iter_succ_of_ok _ hs], hk⟩
      omega

/-- **When replay time advances**: of two executions of a clock native within one run,
the later returns the larger value if the keyboard is not read in between, and in general
exactly if the machine has counted more instructions. -/
theorem replayTime_lt_iff {host : Host} {code strPool : List UInt8} {constPool : List Word64}
    {args : List (List UInt8)} {cfg : DeterministicReplayConfig} (hcfg : cfg.Advances maxVmSteps)
    {f : Native} (hf : cfg.clock f ≠ none) {vm₁ vm₁' vm₂ : PX64VM} {v₁ v₂ : Word64}
    (hrun : Machine.Reaches (step host)
      ((new code strPool constPool args).withReplayConfig cfg) vm₁)
    (h₁ : vm₁.CallReturns host f v₁) (hstep : vm₁.step host = .ok vm₁')
    (hbetween : Machine.Reaches (step host) vm₁' vm₂) (h₂ : vm₂.CallReturns host f v₂) :
    (Machine.Through (step host) (fun vm => ¬ vm.ReadsKey) vm₁' vm₂ → v₁.toInt < v₂.toInt) ∧
      (v₁.toInt < v₂.toInt ↔ vm₁.steps < vm₂.steps) := by
  obtain ⟨⟨seed, stride⟩, hclock⟩ := Option.ne_none_iff_exists'.mp hf
  obtain ⟨hpos, hfits⟩ := hcfg.clock hclock
  have hsame₁ := sameProgram_reaches hrun
  have hsame₂ := hsame₁.trans ((sameProgram_step hstep).trans (sameProgram_reaches hbetween))
  obtain ⟨hv₁, hmax₁⟩ := h₁.eq_virtualTime hsame₁.replayConfig hcfg.enabled hclock
  obtain ⟨hv₂, hmax₂⟩ := h₂.eq_virtualTime hsame₂.replayConfig hcfg.enabled hclock
  rw [hsame₁.maxSteps] at hmax₁
  rw [hsame₂.maxSteps] at hmax₂
  have hiff : v₁.toInt < v₂.toInt ↔ vm₁.steps < vm₂.steps := by
    rw [hv₁, hv₂, toInt_virtualTime hpos hfits hmax₁, toInt_virtualTime hpos hfits hmax₂,
      Int.add_lt_add_iff_left, Int.mul_lt_mul_right hpos]
    omega
  refine ⟨fun hquiet => hiff.mpr ?_, hiff⟩
  have hkey : ¬ vm₁.ReadsKey := h₁.not_readsKey fun h => hf (h ▸ rfl)
  have hcount := (step_counts hstep hkey).2.1
  have hle := steps_le_of_through hquiet
  omega

/-! ## A key between two readings -/

/-- `@tsc()` twice. -/
def twoReadings : List UInt8 := instBytes .callNat 1 3 0 ++ instBytes .callNat 3 3 0

/-- `@tsc()`, `@term_read_key()` and `@tsc()`. -/
def keyBetweenReadings : List UInt8 :=
  instBytes .callNat 1 3 0 ++ instBytes .callNat 2 36 0 ++ instBytes .callNat 3 3 0

/-- A replay from the seed 100, with the default strides. -/
def replayFrom100 : DeterministicReplayConfig := ⟨true, 100#64, 10#64, 1000000#64, 15#64⟩

theorem replayFrom100_advances : replayFrom100.Advances maxVmSteps :=
  ⟨rfl, by decide, by decide, by decide, by decide⟩

/-- A machine that replays from 100. -/
def replaying (code : List UInt8) : PX64VM := (new code [] [] []).withReplayConfig replayFrom100

/-- Two readings of the clock without a key in between: replay time advances. -/
theorem twoReadings_advance :
    ∃ vm, (replaying twoReadings).step stillHost = .ok vm ∧
      (replaying twoReadings).CallReturns stillHost .sysTsc 110#64 ∧
      vm.CallReturns stillHost .sysTsc 120#64 ∧ (110#64).toInt < (120#64).toInt := by
  have h₁ : (replaying twoReadings).CallReturns stillHost .sysTsc 110#64 :=
    ⟨1, 3, 0, fetches_iff.mpr rfl, rfl, _, rfl⟩
  have h₂ : ((replaying twoReadings).advance.setReg 1 110#64).CallReturns stillHost .sysTsc
      120#64 := ⟨3, 3, 0, fetches_iff.mpr rfl, rfl, _, rfl⟩
  have hstep : (replaying twoReadings).step stillHost =
      .ok ((replaying twoReadings).advance.setReg 1 110#64) := rfl
  exact ⟨_, hstep, h₁, h₂, (replayTime_lt_iff replayFrom100_advances (by decide) (.refl _) h₁ hstep
    (.refl _) h₂).1 (.refl _)⟩

/-- With a key read in between, replay time stands still. -/
theorem keyBetween_standsStill :
    ¬ ∀ (host : Host) (code strPool : List UInt8) (constPool : List Word64)
      (args : List (List UInt8)) (cfg : DeterministicReplayConfig), cfg.Advances maxVmSteps →
      ∀ f, cfg.clock f ≠ none → ∀ vm₁ vm₁' vm₂ v₁ v₂,
      Machine.Reaches (step host) ((new code strPool constPool args).withReplayConfig cfg) vm₁ →
      vm₁.CallReturns host f v₁ → vm₁.step host = .ok vm₁' →
      Machine.Reaches (step host) vm₁' vm₂ → vm₂.CallReturns host f v₂ →
      v₁.toInt < v₂.toInt := by
  intro h
  have hlt := h stillHost keyBetweenReadings [] [] [] replayFrom100 replayFrom100_advances .sysTsc
    (by decide) _ _ _ 110#64 110#64 (.refl _) ⟨1, 3, 0, fetches_iff.mpr rfl, rfl, _, rfl⟩ rfl
    (.single rfl) ⟨3, 3, 0, fetches_iff.mpr rfl, rfl, _, rfl⟩
  exact Int.lt_irrefl _ hlt

end PX64VM

end LatencyOS
