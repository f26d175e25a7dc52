import LatencyOS.Compiler.Conditional
import LatencyOS.Compiler.Statements.Basic
import LatencyOS.Compiler.Statements.Performs

/-!
# The code of statements

`StmtCode s st st'` says what compiling the statement `s` did: the code added brings about the
end that `s` has in the source.  There is one rule for each construct, in terms of the code of
its parts and of the jumps around them; a loop is followed turn by turn.
-/

namespace LatencyOS

open CompilerState PX64VM

namespace Compiler

variable {st st' t m t₁ t₂ t₃ : CompilerState} {s a b : Stmt} {c e : Expr} {x : List UInt8}

/-- A machine at the code of a statement, with the variables in their registers. -/
structure Posed (vars X : List (List UInt8)) (home : List UInt8 → ℕ) (st st' : CompilerState)
    (vm : PX64VM) (ρ : Stmt.Env) : Prop where
  place : ∀ x ∈ vars, st'.place x = some (.reg (home x))
  mem : ∀ x ∈ vars, x ∈ X
  homes : Homes X home (scratch st st')
  holds : Holds vm st st'
  ip : vm.ip = st.code.length
  shows : Shows X home vm ρ

/-- What the compilation of a statement did. -/
structure StmtCode (s : Stmt) (st st' : CompilerState) : Prop where
  grown : Extends st st'
  reaches : ∀ r ∈ scratch st st', st.Reaches s.temps r
  known : ∀ x ∈ s.vars, (st'.place x).isSome
  runs : ∀ {host : Host} {X : List (List UInt8)} {home : List UInt8 → ℕ} {vm : PX64VM}
    {ρ : Stmt.Env} (n : ℕ), Posed s.vars X home st st' vm ρ → s.InPlace →
    Performs host (Touched X home (scratch st st')) X home vm st'.code.length n
      (s.exec vm.getStrBytes n ρ)

/-- The way to the code of a statement: nothing is emitted. -/
structure Leads (st t : CompilerState) : Prop where
  grown : Extends st t
  code : t.code = st.code
  log : t.allocLog = st.allocLog

theorem Leads.of_books (h : Books st t) : Leads st t := ⟨h.grown, h.code, h.log⟩

theorem Leads.of_quiet (h : Quiet st t) : Leads st t := ⟨.of_segment h.segment, h.code, h.log⟩

theorem Leads.trans (h₁ : Leads st t) (h₂ : Leads t m) : Leads st m :=
  ⟨h₁.grown.trans h₂.grown, h₂.code.trans h₁.code, h₂.log.trans h₁.log⟩

theorem Leads.scratch (h : Leads st t) : scratch st m = scratch t m := by
  rw [CompilerState.scratch, CompilerState.scratch, h.log]

namespace StmtCode

/-- The way to the code changes nothing. -/
theorem after (h : Leads st t) (hs : StmtCode s t st') : StmtCode s st st' where
  grown := h.grown.trans hs.grown
  reaches := fun r hr => by
    rw [h.scratch] at hr
    exact (hs.reaches r hr).congr h.grown.temps
  known := hs.known
  runs := fun n hp hin => by
    have hp' := hp.homes
    rw [h.scratch] at hp' ⊢
    exact hs.runs n ⟨hp.place, hp.mem, hp', hp.holds.right (Nat.le_of_eq (by rw [h.code])),
      by rw [hp.ip, h.code], hp.shows⟩ hin

/-- Books kept behind the code change nothing. -/
theorem books (hs : StmtCode s st t) (h : Books t st') : StmtCode s st st' where
  grown := hs.grown.trans h.grown
  reaches := by
    rw [h.scratch_eq]
    exact hs.reaches
  known := fun x hx => by
    rw [h.place]
    exact hs.known x hx
  runs := fun n hp hin => by
    have hp' := hp.homes
    rw [h.scratch_eq] at hp' ⊢
    rw [h.code]
    exact hs.runs n ⟨fun x hx => by rw [← h.place]; exact hp.place x hx, hp.mem, hp',
      hp.holds.first h.grown, hp.ip, hp.shows⟩ hin

/-! ## Straight code -/

/-- No code at all. -/
theorem leads (h : Leads st st') (hknown : ∀ x ∈ s.vars, (st'.place x).isSome)
    (hs : ∀ str n ρ, s.exec str n ρ = some (.done ρ)) : StmtCode s st st' where
  grown := h.grown
  reaches := reaches_of_log_eq h.log
  known := hknown
  runs := fun n hp _ => by
    rw [hs]
    exact ⟨_, 0, .refl .., by rw [hp.ip, h.code], hp.shows⟩

theorem seq (ha : StmtCode a st t) (hb : StmtCode b t st') : StmtCode (.seq a b) st st' where
  grown := ha.grown.trans hb.grown
  reaches := ha.grown.reaches_trans hb.grown.log
    (fun r hr => (ha.reaches r hr).mono (Nat.le_max_left _ _))
    (fun r hr => (hb.reaches r hr).mono (Nat.le_max_right _ _))
  known := fun x hx => by
    rcases List.mem_append.mp hx with hx | hx
    · exact hb.grown.isSome (ha.known x hx)
    · exact hb.known x hx
  runs := by
    intro host X home vm ρ n hp hin
    have hS : scratch st st' = scratch st t ++ scratch t st' :=
      scratch_trans ha.grown.log hb.grown.log
    have hSa : ∀ r ∈ scratch st t, r ∈ scratch st st' := fun r hr => by
      rw [hS]
      exact List.mem_append_left _ hr
    have hSb : ∀ r ∈ scratch t st', r ∈ scratch st st' := fun r hr => by
      rw [hS]
      exact List.mem_append_right _ hr
    have hposed : Posed a.vars X home st t vm ρ :=
      ⟨fun x hx => hb.grown.place_eq (ha.known x hx) (hp.place x (List.mem_append_left _ hx)),
        fun x hx => hp.mem x (List.mem_append_left _ hx), hp.homes.mono hSa,
        hp.holds.first hb.grown, hp.ip, hp.shows⟩
    have hrun : Performs host _ X home vm _ n _ := ha.runs n hposed hin.1
    refine hrun.bind (fun r => Touched.mono hSa) fun vm' k ρ' hk hip hshow => ?_
    rw [← getStrBytes_of_core hk.core]
    refine (hb.runs n ⟨fun x hx => hp.place x (List.mem_append_right _ hx),
      fun x hx => hp.mem x (List.mem_append_right _ hx), hp.homes.mono hSb,
      (hp.holds.of_core hk.core).right ha.grown.code_le, hip, hshow⟩ hin.2).mono
        fun r => Touched.mono hSb

/-- A value goes to the register of a variable. -/
theorem assign {r : ℕ} (hr : st.place x = some (.reg r)) (hc : Compiled e r none st st') :
    StmtCode (.assign x e) st st' where
  grown := .of_segment hc.segment
  reaches := hc.temps
  known := fun y hy => by
    rcases List.mem_cons.mp hy with rfl | hy
    · exact (Extends.of_segment hc.segment).isSome (by rw [hr]; rfl)
    · exact hc.places y hy
  runs := by
    intro host X home vm ρ n hp hin
    have hx := hp.mem x List.mem_cons_self
    have hhome : r = home x := by
      have hplace := hp.place x List.mem_cons_self
      rw [(Extends.of_segment hc.segment).place hr] at hplace
      exact Place.reg.inj (Option.some.inj hplace)
    subst hhome
    have hmem : ∀ y ∈ e.vars, y ∈ X := fun y hy => hp.mem y (List.mem_cons_of_mem x hy)
    have hown : e.InPlace (fun y => home y = home x) := by
      refine inPlace_congr (fun y hy => ?_) hin
      exact ⟨fun h => by rw [h], hp.homes.inj y (hmem y hy) x hx⟩
    refine expr_performs hc (fun y hy => hp.place y (List.mem_cons_of_mem x hy)) hmem hp.homes
      (hp.homes.lt x hx) (hp.homes.notMem x hx) hown hp.holds hp.ip hp.shows
      (fun k hk => ?_) fun vm' k hk hip v hv _ => ?_
    · rcases hk with rfl | hk
      · exact .inr (.inr ⟨x, hx, rfl⟩)
      · exact .inr (.inl hk)
    · refine ⟨vm', 0, .refl .., hip, ?_⟩
      rw [← hv]
      refine hp.shows.update fun y hy hne => hk.frame _ fun h => ?_
      rcases h with h | h
      · exact hne (hp.homes.inj y hy x hx h)
      · exact hp.homes.notMem y hy h

end StmtCode

/-! ## Conditions -/

/-- A temporary is no condition register. -/
theorem zero_notMem (h : Segment st t) : 0 ∉ scratch st t :=
  fun hmem => absurd (h.free 0 hmem).1 (by decide)

variable {host : Host} {T : ℕ → Prop} {vars X : List (List UInt8)} {home : List UInt8 → ℕ}
  {vm : PX64VM} {ρ : Stmt.Env} {n stop : ℕ}

/-- A condition goes to register 0, and no variable changes. -/
theorem Posed.cond {κ : Word64 → Option Stmt.Outcome} (hp : Posed vars X home st st' vm ρ)
    (hc : Compiled c 0 none st t) (hrest : Extends t st') (hvars : ∀ y ∈ c.vars, y ∈ vars)
    (hnext : ∀ vm' k v, Takes host (Touched X home (scratch st st')) k vm vm' →
      vm'.ip = t.code.length → vm'.regs 0 = v → Shows X home vm' ρ →
      Performs host (Touched X home (scratch st st')) X home vm' stop n (κ v)) :
    Performs host (Touched X home (scratch st st')) X home vm stop n
      (Stmt.withValue (c.eval vm.getStrBytes ρ) κ) := by
  have hS : ∀ r ∈ scratch st t, r ∈ scratch st st' := fun r hr => by
    rw [scratch_trans hc.segment.grows.log hrest.log]
    exact List.mem_append_left _ hr
  have hhomes := hp.homes.mono hS
  have hin : c.InPlace (fun y => home y = 0) :=
    Expr.inPlace_of_avoids fun y hy => hp.homes.pos y (hp.mem y (hvars y hy))
  have hT : ∀ r, r = 0 ∨ r ∈ scratch st t → Touched X home (scratch st st') r :=
    fun r hr => hr.imp_right fun hr => .inl (hS r hr)
  refine expr_performs hc
    (fun y hy => hrest.place_eq (hc.places y hy) (hp.place y (hvars y hy)))
    (fun y hy => hp.mem y (hvars y hy)) hhomes (by decide) (zero_notMem hc.segment) hin
    (hp.holds.first hrest) hp.ip hp.shows hT fun vm' k hk hip v hv _ => ?_
  refine hnext vm' k v (hk.mono hT) hip hv (hp.shows.takes hk fun y hy h => ?_)
  rcases h with h | h
  · exact hp.homes.pos y hy h
  · exact hhomes.notMem y hy h

/-- The jump behind a condition. -/
theorem Posed.jz {pos target : ℕ} (hp : Posed vars X home st st' vm ρ) {vm' : PX64VM} {k : ℕ}
    (hk : Takes host T k vm vm') (hip : vm'.ip = pos) (hle : st.code.length ≤ pos)
    (hin : InstIn st' pos .jz 0 (target / 256) (target % 256)) (htarget : target < 65536) :
    Takes host T 1 vm'
      { vm'.advance with ip := if vm'.regs 0 = 0#64 then target else pos + 4 } := by
  have hinst : vm'.InstAt vm'.ip .jz 0 (target / 256) (target % 256) := by
    rw [hip]
    exact (hp.holds.of_core hk.core).inst hin hle
  have hfetch := hinst.jz host (by decide) (by omega) (by omega)
  rw [show target / 256 * 256 + target % 256 = target by omega, hip] at hfetch
  exact .jump hfetch

/-- A jump without a condition. -/
theorem Posed.jmp {pos target : ℕ} (hp : Posed vars X home st st' vm ρ) {vm' : PX64VM} {k : ℕ}
    (hk : Takes host T k vm vm') (hip : vm'.ip = pos) (hle : st.code.length ≤ pos)
    (hin : InstIn st' pos .jmp 0 (target / 256) (target % 256)) (htarget : target < 65536) :
    Takes host T 1 vm' { vm'.advance with ip := target } := by
  have hinst : vm'.InstAt vm'.ip .jmp 0 (target / 256) (target % 256) := by
    rw [hip]
    exact (hp.holds.of_core hk.core).inst hin hle
  have hfetch := hinst.jmp host (by omega) (by omega)
  rw [show target / 256 * 256 + target % 256 = target by omega] at hfetch
  exact .jump hfetch

/-! ## Parts of the code -/

/-- The code between two states stands in a whole as it was emitted. -/
structure Within (u v st st' : CompilerState) : Prop where
  le : st.code.length ≤ u.code.length
  ge : v.code.length ≤ st'.code.length
  code : ∀ i, u.code.length ≤ i → i < v.code.length → st'.code[i]? = v.code[i]?
  consts : v.constPool <+: st'.constPool
  scratch : ∀ r ∈ scratch u v, r ∈ scratch st st'
  place : ∀ {y : List UInt8} {p : Place}, v.place y = some p → st'.place y = some p

/-- A machine that comes to a part of the code runs it. -/
theorem Posed.runs {u v : CompilerState} (hp : Posed vars X home st st' vm ρ)
    (hw : Within u v st st') (ha : StmtCode a u v) (hvars : ∀ y ∈ a.vars, y ∈ vars)
    (hin : a.InPlace) {vm' : PX64VM} {k : ℕ} {ρ' : Stmt.Env} (hk : Takes host T k vm vm')
    (hip : vm'.ip = u.code.length) (hshow : Shows X home vm' ρ') :
    Performs host (Touched X home (scratch u v)) X home vm' v.code.length n
      (a.exec vm.getStrBytes n ρ') := by
  rw [← getStrBytes_of_core hk.core]
  refine ha.runs n ⟨fun y hy => ?_, fun y hy => hp.mem y (hvars y hy), hp.homes.mono hw.scratch,
    (hp.holds.of_core hk.core).part hw.le hw.ge hw.code hw.consts, hip, hshow⟩ hin
  obtain ⟨p, hy'⟩ := Option.isSome_iff_exists.mp (ha.known y hy)
  rw [hy', ← hw.place hy', hp.place y (hvars y hy)]

namespace StmtCode

/-- The opcode of a compound assignment. -/
def updateOp (add : Bool) : Opcode := if add then .add else .sub

/-- And with a small literal. -/
def updateImm (add : Bool) : Opcode := if add then .addi else .subi

theorem bump_eq (x : List UInt8) (add : Bool) (v : Word64) (ρ : Stmt.Env) :
    Stmt.bump x add v ρ =
      Function.update ρ x
        ((if add then (· + ·) else (· - ·) : Word64 → Word64 → Word64) (ρ x) v) := by
  cases add <;> rfl

/-- One register operation on the register of a variable. -/
theorem performs_bump {x : List UInt8} {add : Bool} {v w : Word64} {vm' : PX64VM} {k : ℕ}
    (hx : x ∈ X) (hshow : Shows X home vm ρ) (hhomes : Homes X home [])
    (hk : Takes host (· = home x) k vm vm') (hip : vm'.ip = stop)
    (hw : vm'.regs (home x) =
      (if add then (· + ·) else (· - ·) : Word64 → Word64 → Word64) (vm.regs (home x)) w)
    (hv : w = v) (hT : T (home x)) :
    Performs host T X home vm stop n (some (.done (Stmt.bump x add v ρ))) := by
  refine ⟨vm', k, hk.mono fun r hr => by rw [hr]; exact hT, hip, ?_⟩
  rw [bump_eq, ← hv, ← hshow x hx, ← hw]
  exact hshow.update fun y hy hne =>
    hk.frame _ fun h => hne (hhomes.inj y hy x hx h)

/-- The right-hand side goes to a temporary, and from there to the variable. -/
theorem update {r i : ℕ} {add : Bool} (hr : st.place x = some (.reg r))
    (hi : st.freeSlot = some i) (hc : Compiled e (15 - i) none (st.take i) t)
    (hst' : st' = (t.emitted (updateOp add) r r (15 - i)).freeTemp (15 - i)) :
    StmtCode (.update x add e) st st' := by
  have hi8 := (freeSlot_eq_some hi).1
  have hemit := Segment.emitted t (updateOp add) r r (15 - i)
  have hgrown : Extends st st' := by
    rw [hst']
    exact .bracket hi (.of_segment (hc.segment.trans hemit))
  have hlog : st'.allocLog = t.allocLog := by
    rw [hst', freeTemp_allocLog]
    rfl
  have hS : scratch st st' = (15 - i) :: scratch (st.take i) t := by
    rw [scratch_congr hlog, scratch_take i hc.segment.grows.log]
  have hplace : ∀ y, st'.place y = t.place y := fun y => by
    rw [hst', place_freeTemp, place_emitted]
  have hcode : st'.code = t.code ++ instBytes (updateOp add) r r (15 - i) := by
    rw [hst', freeTemp_code]
    rfl
  refine ⟨hgrown, ?_, ?_, ?_⟩
  · rw [scratch_congr hlog]
    exact reaches_bracket hi hc.segment.grows.log hc.temps
  · intro y hy
    rcases List.mem_cons.mp hy with rfl | hy
    · exact hgrown.isSome (by rw [hr]; rfl)
    · rw [hplace]
      exact hc.places y hy
  · intro host X home vm ρ n hp _
    have hx := hp.mem x List.mem_cons_self
    have hhome : r = home x := by
      have hpx := hp.place x List.mem_cons_self
      rw [hgrown.place hr] at hpx
      exact Place.reg.inj (Option.some.inj hpx)
    subst hhome
    have hmem : ∀ y ∈ e.vars, y ∈ X := fun y hy => hp.mem y (List.mem_cons_of_mem x hy)
    have hSe : ∀ q ∈ scratch (st.take i) t, q ∈ scratch st st' := fun q hq => by
      rw [hS]
      exact List.mem_cons_of_mem _ hq
    have htemp : 15 - i ∈ scratch st st' := by
      rw [hS]
      exact List.mem_cons_self
    have hne : ∀ y ∈ X, home y ≠ 15 - i := fun y hy h => hp.homes.notMem y hy (h ▸ htemp)
    have hholds : Holds vm (st.take i) t := ⟨fun q h₁ h₂ => by
      rw [hp.holds.code q h₁ (by rw [hcode, List.length_append]; omega), hcode,
        List.getElem?_append_left h₂], by
      have hconsts : st'.constPool = t.constPool := by
        rw [hst', freeTemp_constPool]
        rfl
      rw [← hconsts]
      exact hp.holds.consts⟩
    have hT : ∀ q, q = 15 - i ∨ q ∈ scratch (st.take i) t → Touched X home (scratch st st') q := by
      rintro q (rfl | hq)
      · exact .inr (.inl htemp)
      · exact .inr (.inl (hSe q hq))
    refine expr_performs hc
      (fun y hy => by rw [← hplace]; exact hp.place y (List.mem_cons_of_mem x hy)) hmem
      (hp.homes.mono hSe) (by omega) (temp_notMem hi8 hc.segment)
      (Expr.inPlace_of_avoids fun y hy => hne y (hmem y hy)) hholds hp.ip hp.shows hT
      fun vm' k hk hip v hv _ => ?_
    have hshow' : Shows X home vm' ρ := hp.shows.takes hk fun y hy h => by
      rcases h with h | h
      · exact hne y hy h
      · exact hp.homes.notMem y hy (hSe _ h)
    -- the operation itself
    have hinst : vm'.InstAt vm'.ip (updateOp add) (home x) (home x) (15 - i) := by
      have hcode_le : st.code.length ≤ t.code.length := hc.segment.grows.code_le
      rw [hip]
      exact ((hp.holds.of_core hk.core).right hcode_le).instAt hcode
    have hop : aluFn vm'.getStrBytes (updateOp add) =
        some (if add then (· + ·) else (· - ·) : Word64 → Word64 → Word64) := by
      cases add <;> rfl
    obtain ⟨l, vm'', hl, hip', hw⟩ := Takes.of_writes
      (hinst.alu host hop (hp.homes.lt x hx) (hp.homes.lt x hx) (by omega))
    have hstop : vm''.ip = st'.code.length := by
      rw [hip', hip, hcode, List.length_append]
      rfl
    exact performs_bump hx hshow' (hp.homes.mono (by simp)) hl hstop hw hv
      (.inr (.inr ⟨x, hx, rfl⟩))

/-- A small literal is part of the instruction. -/
theorem update_imm {r w : ℕ} {add : Bool} (hr : st.place x = some (.reg r)) (hw : w ≤ 255)
    (hst' : st' = st.emitted (updateImm add) r r w) :
    StmtCode (.update x add (.num (BitVec.ofNat 64 w))) st st' := by
  subst hst'
  have hseg := Segment.emitted st (updateImm add) r r w
  have hvars : ∀ y ∈ (Stmt.update x add (.num (BitVec.ofNat 64 w))).vars, y = x :=
    fun y hy => by simpa [Stmt.vars, Expr.vars] using hy
  refine ⟨.of_segment hseg, reaches_of_log_eq rfl, fun y hy => ?_, ?_⟩
  · rw [hvars y hy, place_emitted, hr]
    rfl
  · intro host X home vm ρ n hp _
    have hx := hp.mem x List.mem_cons_self
    have hhome : r = home x := by
      have hpx := hp.place x List.mem_cons_self
      rw [place_emitted, hr] at hpx
      exact Place.reg.inj (Option.some.inj hpx)
    subst hhome
    have hinst : vm.InstAt vm.ip (updateImm add) (home x) (home x) w := by
      rw [hp.ip]
      exact hp.holds.instAt rfl
    have hop : immFn (updateImm add) =
        some (if add then (· + ·) else (· - ·) : Word64 → Word64 → Word64) := by
      cases add <;> rfl
    obtain ⟨k, vm', hk, hip, hval⟩ := Takes.of_writes
      (hinst.imm host hop (hp.homes.lt x hx) (hp.homes.lt x hx) (by omega))
    exact performs_bump hx hp.shows (hp.homes.mono (by simp)) hk
      (by rw [hip, hp.ip, length_emitted]) hval rfl (.inr (.inr ⟨x, hx, rfl⟩))

/-- A condition, and the check of register 0. -/
theorem assert (hc : Compiled c 0 none st t) (hst' : st' = t.emitted .assert 0 0 0) :
    StmtCode (.assert c) st st' := by
  subst hst'
  have hseg := Segment.emitted t .assert 0 0 0
  refine ⟨.of_segment (hc.segment.trans hseg), hc.temps, hc.places, ?_⟩
  intro host X home vm ρ n hp _
  refine hp.cond hc (.of_segment hseg) (fun _ hy => hy) fun vm' k v hk hip hv hshow => ?_
  have hinst : vm'.InstAt vm'.ip .assert 0 0 0 := by
    rw [hip]
    exact ((hp.holds.of_core hk.core).right hc.segment.grows.code_le).instAt rfl
  by_cases hz : v = 0#64
  · obtain ⟨r, hr, hcode⟩ := hinst.assert_zero host (hv.trans hz)
    rw [if_pos hz]
    exact ⟨vm', 0, r, .refl .., hr, hcode⟩
  · rw [if_neg hz]
    have hfetch := hinst.assert host (by rw [hv]; exact hz)
    refine ⟨_, 1, .jump hfetch, ?_, fun y hy => hshow y hy⟩
    rw [length_emitted, ← hip]

/-! ## Branches -/

/-- A condition and a jump over the statement behind it. -/
theorem ifThen (hc : Compiled c 0 none st t₁) (room : t₁.code.length + 4 ≤ maxBytecodeSize)
    (ha : StmtCode a (t₁.emitted .jz 0 0 0) t₂) (hfit : t₂.code.length ≤ maxBytecodeSize)
    (hst' : st' = t₂.patchImm16 t₁.code.length t₂.code.length) :
    StmtCode (.ifThen c a) st st' := by
  have hmax : maxBytecodeSize = 4096 := rfl
  have hcond := hc.segment.grows.code_le
  have hle := ha.grown.code_le
  rw [length_emitted] at hle
  have hrest : Extends t₁ st' := by
    rw [hst']
    exact ((Extends.of_segment (.emitted t₁ .jz 0 0 0)).trans ha.grown).patchImm16
      (Nat.le_refl _) _
  have hS : scratch st st' = scratch st t₁ ++ scratch (t₁.emitted .jz 0 0 0) t₂ := by
    rw [scratch_trans hc.segment.grows.log hrest.log, hst',
      scratch_congr patchImm16_allocLog]
    rfl
  have hstop : st'.code.length = t₂.code.length := by rw [hst', length_patchImm16]
  have hwithin : Within (t₁.emitted .jz 0 0 0) t₂ st st' := by
    refine ⟨by rw [length_emitted]; omega, Nat.le_of_eq hstop.symm, fun q h₁ _ => ?_, ?_,
      fun r hr => ?_, fun {y p} hy => ?_⟩
    · rw [length_emitted] at h₁
      rw [hst', getElem?_patchImm16_of_ne (.inr h₁)]
    · rewrite [hst', patchImm16_constPool]
      exact List.prefix_rfl
    · rw [hS]
      exact List.mem_append_right _ hr
    · rw [hst', patchImm16_place, hy]
  refine ⟨(Extends.of_segment hc.segment).trans hrest, fun r hr => ?_, fun y hy => ?_, ?_⟩
  · rw [hS, List.mem_append] at hr
    rcases hr with hr | hr
    · exact (hc.temps r hr).mono (Nat.le_max_left _ _)
    · exact ((ha.reaches r hr).congr hc.segment.temps).mono (Nat.le_max_right _ _)
  · rcases List.mem_append.mp hy with hy | hy
    · exact hrest.isSome (hc.places y hy)
    · obtain ⟨p, hp⟩ := Option.isSome_iff_exists.mp (ha.known y hy)
      rw [hwithin.place hp]
      rfl
  · intro host X home vm ρ n hp hin
    have hinst : InstIn st' t₁.code.length .jz 0 (t₂.code.length / 256)
        (t₂.code.length % 256) := by
      rw [hst']
      refine InstIn.patchImm16 ((instIn_emitted t₁ .jz 0 0 0).of_eq fun q _ h₂ => ?_) room
      exact ha.grown.code q (by rw [length_emitted]; omega)
    refine hp.cond hc hrest (fun y hy => List.mem_append_left _ hy)
      fun vm' k v hk hip hv hshow => ?_
    have hjump := hp.jz hk hip hcond hinst (by omega)
    rw [hv] at hjump
    by_cases hz : v = 0#64
    · rw [if_pos hz] at hjump ⊢
      exact ⟨_, 1, hjump, hstop.symm, hshow⟩
    · rw [if_neg hz] at hjump ⊢
      have hrun := hp.runs (n := n) hwithin ha (fun y hy => List.mem_append_right _ hy) hin
        (hk.trans hjump) (length_emitted ..).symm hshow
      rw [hstop]
      exact .after hjump (hrun.mono fun r => Touched.mono hwithin.scratch)

/-- A condition, a jump over the first branch, and at its end a jump over the second. -/
theorem ifElse (hc : Compiled c 0 none st t₁) (room₁ : t₁.code.length + 4 ≤ maxBytecodeSize)
    (ha : StmtCode a (t₁.emitted .jz 0 0 0) t₂) (room₂ : t₂.code.length + 4 ≤ maxBytecodeSize)
    (hm : m = (t₂.emitted .jmp 0 0 0).patchImm16 t₁.code.length (t₂.code.length + 4))
    (hb : StmtCode b m t₃) (hfit : t₃.code.length ≤ maxBytecodeSize)
    (hst' : st' = t₃.patchImm16 t₂.code.length t₃.code.length) :
    StmtCode (.ifElse c a b) st st' := by
  have hmax : maxBytecodeSize = 4096 := rfl
  have hcond := hc.segment.grows.code_le
  have hle_a := ha.grown.code_le
  have hle_b := hb.grown.code_le
  have hlen : m.code.length = t₂.code.length + 4 := by
    rw [hm, length_patchImm16, length_emitted]
  rw [length_emitted] at hle_a
  have hjz := (Extends.of_segment (.emitted t₁ .jz 0 0 0)).trans ha.grown
  have hmid : Extends t₁ m := by
    rw [hm]
    exact (hjz.trans (.of_segment (.emitted t₂ .jmp 0 0 0))).patchImm16 (Nat.le_refl _) _
  have hrest : Extends t₁ st' := by
    rw [hst']
    exact (hmid.trans hb.grown).patchImm16 (by omega) _
  have hlog_m : m.allocLog = t₂.allocLog := by
    rw [hm, patchImm16_allocLog]
    rfl
  have hS : scratch st st' =
      scratch st t₁ ++ (scratch (t₁.emitted .jz 0 0 0) t₂ ++ scratch m t₃) := by
    have hsplit : scratch t₁ t₃ = scratch t₁ t₂ ++ scratch t₂ t₃ :=
      scratch_trans hjz.log (hlog_m ▸ hb.grown.log)
    have hm' : scratch m t₃ = scratch t₂ t₃ := by rw [scratch, scratch, hlog_m]
    rw [scratch_trans hc.segment.grows.log hrest.log, hst',
      scratch_congr patchImm16_allocLog, hsplit, hm']
    rfl
  have hstop : st'.code.length = t₃.code.length := by rw [hst', length_patchImm16]
  -- what stands where in the final code
  have hcode_m : ∀ q < t₂.code.length + 2, st'.code[q]? = m.code[q]? := fun q hq => by
    rw [hst', getElem?_patchImm16_of_ne (.inl hq), hb.grown.code q (by omega)]
  have hcode_a : ∀ q, t₁.code.length + 4 ≤ q → q < t₂.code.length →
      st'.code[q]? = t₂.code[q]? := fun q h₁ h₂ => by
    rw [hcode_m q (by omega), hm, getElem?_patchImm16_of_ne (.inr h₁), getElem?_emitted h₂]
  have hinst_jz : InstIn st' t₁.code.length .jz 0 ((t₂.code.length + 4) / 256)
      ((t₂.code.length + 4) % 256) := by
    have hcode_jz : ∀ q, t₁.code.length ≤ q → q < t₁.code.length + 4 →
        st'.code[q]? = m.code[q]? := fun q _ h₂ => hcode_m q (by omega)
    refine InstIn.of_eq ?_ hcode_jz
    rw [hm]
    refine InstIn.patchImm16 ((instIn_emitted t₁ .jz 0 0 0).of_eq fun q _ h₂ => ?_) room₁
    rw [getElem?_emitted (by omega), ha.grown.code q (by rw [length_emitted]; omega)]
  have hinst_jmp : InstIn st' t₂.code.length .jmp 0 (t₃.code.length / 256)
      (t₃.code.length % 256) := by
    rw [hst']
    refine InstIn.patchImm16 ((instIn_emitted t₂ .jmp 0 0 0).of_eq fun q h₁ h₂ => ?_) room₂
    rw [hb.grown.code q (by omega), hm, getElem?_patchImm16_of_ne (.inr (by omega))]
  have hplace_m : ∀ {y : List UInt8} {p : Place}, t₂.place y = some p → m.place y = some p :=
    fun hy => by rw [hm, patchImm16_place, place_emitted, hy]
  have hplace_b : ∀ {y : List UInt8} {p : Place}, t₃.place y = some p → st'.place y = some p :=
    fun hy => by rw [hst', patchImm16_place, hy]
  have hwithin_a : Within (t₁.emitted .jz 0 0 0) t₂ st st' := by
    refine ⟨by rw [length_emitted]; omega, by omega, fun q h₁ h₂ => ?_, ?_, fun r hr => ?_,
      fun {y p} hy => hplace_b (hb.grown.place (hplace_m hy))⟩
    · rw [length_emitted] at h₁
      exact hcode_a q h₁ h₂
    · rw [hst', patchImm16_constPool]
      refine List.IsPrefix.trans ?_ hb.grown.consts
      rewrite [hm, patchImm16_constPool]
      exact List.prefix_rfl
    · rw [hS]
      exact List.mem_append_right _ (List.mem_append_left _ hr)
  have hwithin_b : Within m t₃ st st' := by
    refine ⟨by omega, Nat.le_of_eq hstop.symm, fun q h₁ _ => ?_, ?_, fun r hr => ?_, hplace_b⟩
    · rw [hst', getElem?_patchImm16_of_ne (.inr (by omega))]
    · rewrite [hst', patchImm16_constPool]
      exact List.prefix_rfl
    · rw [hS]
      exact List.mem_append_right _ (List.mem_append_right _ hr)
  refine ⟨(Extends.of_segment hc.segment).trans hrest, fun r hr => ?_, fun y hy => ?_, ?_⟩
  · rw [hS, List.mem_append, List.mem_append] at hr
    rcases hr with hr | hr | hr
    · exact (hc.temps r hr).mono (Nat.le_max_left _ _)
    · exact ((ha.reaches r hr).congr hc.segment.temps).mono
        (Nat.le_trans (Nat.le_max_left _ _) (Nat.le_max_right _ _))
    · exact ((hb.reaches r hr).congr (hmid.temps.trans hc.segment.temps)).mono
        (Nat.le_trans (Nat.le_max_right _ _) (Nat.le_max_right _ _))
  · simp only [Stmt.vars, List.mem_append] at hy
    rcases hy with hy | hy | hy
    · exact hrest.isSome (hc.places y hy)
    · obtain ⟨p, hp⟩ := Option.isSome_iff_exists.mp (ha.known y hy)
      rw [hwithin_a.place hp]
      rfl
    · obtain ⟨p, hp⟩ := Option.isSome_iff_exists.mp (hb.known y hy)
      rw [hwithin_b.place hp]
      rfl
  · intro host X home vm ρ n hp hin
    refine hp.cond hc hrest (fun y hy => List.mem_append_left _ hy)
      fun vm' k v hk hip hv hshow => ?_
    have hjump := hp.jz hk hip hcond hinst_jz (by omega)
    rw [hv] at hjump
    rw [hstop]
    by_cases hz : v = 0#64
    · rw [if_pos hz] at hjump ⊢
      have hrun := hp.runs (n := n) hwithin_b hb
        (fun y hy => List.mem_append_right _ (List.mem_append_right _ hy)) hin.2
        (hk.trans hjump) hlen.symm hshow
      exact .after hjump (hrun.mono fun r => Touched.mono hwithin_b.scratch)
    · rw [if_neg hz] at hjump ⊢
      have hrun := hp.runs (n := n) hwithin_a ha
        (fun y hy => List.mem_append_right _ (List.mem_append_left _ hy)) hin.1
        (hk.trans hjump) (length_emitted ..).symm hshow
      rw [← Stmt.andThen_done (a.exec ..)]
      refine .after hjump (hrun.bind (fun r => Touched.mono hwithin_a.scratch)
        fun vm'' l ρ' hl hip' hshow' => ?_)
      have hover := hp.jmp ((hk.trans hjump).trans (hl.mono fun r =>
        Touched.mono hwithin_a.scratch)) hip' (by omega) hinst_jmp (by omega)
      exact ⟨_, 1, hover, rfl, hshow'⟩

end StmtCode

/-! ## Loops -/

/-- A loop is followed turn by turn, from one state at its start to the next. -/
theorem performs_turns {test : Stmt.Env → Option Word64} {body : ℕ → Stmt.Env → Option Stmt.Outcome}
    (I : PX64VM → Stmt.Env → Prop)
    (hturn : ∀ vm ρ n (κ : Stmt.Env → Option Stmt.Outcome), I vm ρ →
      (∀ vm' ρ', I vm' ρ' → Performs host T X home vm' stop n (κ ρ')) →
      Performs host T X home vm stop (n + 1) (Stmt.withValue (test ρ) fun v =>
        if v = 0#64 then some (.done ρ) else Stmt.andThen (body n ρ) κ))
    (n : ℕ) {vm : PX64VM} {ρ : Stmt.Env} (h : I vm ρ) :
    Performs host T X home vm stop n (Stmt.turns test body n ρ) := by
  induction n generalizing vm ρ with
  | zero => exact ⟨vm, 0, .refl .., Nat.le_refl 0⟩
  | succ n ih => exact hturn vm ρ n _ h fun vm' ρ' h' => ih h'

namespace StmtCode

/-- A condition, a jump out of the loop, the body, and a jump back. -/
theorem loop (hc : Compiled c 0 none st t₁) (room₁ : t₁.code.length + 4 ≤ maxBytecodeSize)
    (ha : StmtCode a (t₁.emitted .jz 0 0 0) t₂) (room₂ : t₂.code.length + 4 ≤ maxBytecodeSize)
    (hst' : st' = (t₂.emitted .jmp 0 (st.code.length / 256) (st.code.length % 256)).patchImm16
      t₁.code.length (t₂.code.length + 4)) : StmtCode (.loop c a) st st' := by
  have hmax : maxBytecodeSize = 4096 := rfl
  have hcond := hc.segment.grows.code_le
  have hle := ha.grown.code_le
  rw [length_emitted] at hle
  have hend := Segment.emitted t₂ .jmp 0 (st.code.length / 256) (st.code.length % 256)
  have hrest : Extends t₁ st' := by
    rw [hst']
    exact (((Extends.of_segment (.emitted t₁ .jz 0 0 0)).trans ha.grown).trans
      (.of_segment hend)).patchImm16 (Nat.le_refl _) _
  have hlog : st'.allocLog = t₂.allocLog := by
    rw [hst', patchImm16_allocLog]
    rfl
  have hS : scratch st st' = scratch st t₁ ++ scratch (t₁.emitted .jz 0 0 0) t₂ := by
    rw [scratch_trans hc.segment.grows.log hrest.log, scratch_congr hlog]
    rfl
  have hstop : st'.code.length = t₂.code.length + 4 := by
    rw [hst', length_patchImm16, length_emitted]
  have hcode : ∀ q, t₁.code.length + 4 ≤ q → q < t₂.code.length → st'.code[q]? = t₂.code[q]? :=
    fun q h₁ h₂ => by
      rw [hst', getElem?_patchImm16_of_ne (.inr h₁), getElem?_emitted h₂]
  have hwithin : Within (t₁.emitted .jz 0 0 0) t₂ st st' := by
    refine ⟨by rw [length_emitted]; omega, by omega, fun q h₁ h₂ => ?_, ?_, fun r hr => ?_,
      fun {y p} hy => ?_⟩
    · rw [length_emitted] at h₁
      exact hcode q h₁ h₂
    · rewrite [hst', patchImm16_constPool]
      exact List.prefix_rfl
    · rw [hS]
      exact List.mem_append_right _ hr
    · rw [hst', patchImm16_place, place_emitted, hy]
  have hinst_jz : InstIn st' t₁.code.length .jz 0 ((t₂.code.length + 4) / 256)
      ((t₂.code.length + 4) % 256) := by
    rw [hst']
    refine InstIn.patchImm16 ((instIn_emitted t₁ .jz 0 0 0).of_eq fun q _ h₂ => ?_) room₁
    rw [getElem?_emitted (by omega), ha.grown.code q (by rw [length_emitted]; omega)]
  have hinst_jmp : InstIn st' t₂.code.length .jmp 0 (st.code.length / 256)
      (st.code.length % 256) := by
    rw [hst']
    exact (instIn_emitted t₂ .jmp 0 _ _).of_eq fun q h₁ _ =>
      getElem?_patchImm16_of_ne (.inr (by omega))
  refine ⟨(Extends.of_segment hc.segment).trans hrest, fun r hr => ?_, fun y hy => ?_, ?_⟩
  · rw [hS, List.mem_append] at hr
    rcases hr with hr | hr
    · exact (hc.temps r hr).mono (Nat.le_max_left _ _)
    · exact ((ha.reaches r hr).congr hc.segment.temps).mono (Nat.le_max_right _ _)
  · rcases List.mem_append.mp hy with hy | hy
    · exact hrest.isSome (hc.places y hy)
    · obtain ⟨p, hp⟩ := Option.isSome_iff_exists.mp (ha.known y hy)
      rw [hwithin.place hp]
      rfl
  · intro host X home vm₀ ρ₀ n hp₀ hin
    refine performs_turns
      (fun vm ρ => Posed (c.vars ++ a.vars) X home st st' vm ρ ∧ vm.core = vm₀.core)
      (fun vm ρ n κ hI hnext => ?_) n ⟨hp₀, rfl⟩
    obtain ⟨hp, hcore⟩ := hI
    rw [← getStrBytes_of_core hcore]
    refine hp.cond hc hrest (fun y hy => List.mem_append_left _ hy)
      fun vm' k v hk hip hv hshow => ?_
    have hjump := hp.jz hk hip hcond hinst_jz (by omega)
    rw [hv] at hjump
    by_cases hz : v = 0#64
    · rw [if_pos hz] at hjump ⊢
      exact ⟨_, 1, hjump, hstop.symm, hshow⟩
    · rw [if_neg hz] at hjump ⊢
      have hrun := hp.runs (n := n) hwithin ha (fun y hy => List.mem_append_right _ hy) hin
        (hk.trans hjump) (length_emitted ..).symm hshow
      refine .turn (Nat.le_refl 1) hjump (hrun.bind (fun r => Touched.mono hwithin.scratch)
        fun vm'' l ρ' hl hip' hshow' => ?_)
      -- back at the start of the loop
      have hl' := (hk.trans hjump).trans (hl.mono fun r => Touched.mono hwithin.scratch)
      have hback := hp.jmp hl' hip' (by omega) hinst_jmp (by omega)
      have hcore' := (hback.core.trans hl'.core).trans hcore
      exact .after hback (hnext _ ρ' ⟨⟨hp.place, hp.mem, hp.homes,
        hp.holds.of_core (hback.core.trans hl'.core), rfl, hshow'⟩, hcore'⟩)

section Count

variable {r i : ℕ} {lo up : Word64}

/-- The head of a counting loop: the test of the bound and the jump out. -/
abbrev counting (t : CompilerState) (r i : ℕ) : CompilerState :=
  (t.emitted .cmpLt 0 r (15 - i)).emitted .jz 0 0 0

/-- The end of a counting loop: the step, the jump back, and the jump out filled in. -/
abbrev counted (t₂ t₃ : CompilerState) (r i : ℕ) : CompilerState :=
  (((t₃.emitted .addi r r 1).emitted .jmp 0 (t₂.code.length / 256)
    (t₂.code.length % 256)).patchImm16 (t₂.code.length + 4) (t₃.code.length + 8)).freeTemp (15 - i)

/-- What stands in the code of a counting loop. -/
structure CountCode (t₂ t₃ st' : CompilerState) (r i : ℕ) : Prop where
  stop : st'.code.length = t₃.code.length + 8
  test : InstIn st' t₂.code.length .cmpLt 0 r (15 - i)
  jz : InstIn st' (t₂.code.length + 4) .jz 0 ((t₃.code.length + 8) / 256)
    ((t₃.code.length + 8) % 256)
  body : ∀ q, t₂.code.length + 8 ≤ q → q < t₃.code.length → st'.code[q]? = t₃.code[q]?
  step : InstIn st' t₃.code.length .addi r r 1
  jmp : InstIn st' (t₃.code.length + 4) .jmp 0 (t₂.code.length / 256) (t₂.code.length % 256)

theorem countCode (ha : StmtCode a (counting t₂ r i) t₃)
    (room : t₂.code.length + 8 ≤ maxBytecodeSize) : CountCode t₂ t₃ (counted t₂ t₃ r i) r i := by
  have hle := ha.grown.code_le
  rw [length_emitted, length_emitted] at hle
  have hget : ∀ q, q < t₂.code.length + 6 ∨ t₂.code.length + 8 ≤ q →
      (counted t₂ t₃ r i).code[q]? = ((t₃.emitted .addi r r 1).emitted .jmp 0
        (t₂.code.length / 256) (t₂.code.length % 256)).code[q]? := fun q hq => by
    rw [freeTemp_code, getElem?_patchImm16_of_ne hq]
  have hold : ∀ q < t₃.code.length, ((t₃.emitted .addi r r 1).emitted .jmp 0
      (t₂.code.length / 256) (t₂.code.length % 256)).code[q]? = t₃.code[q]? := fun q hq => by
    rw [getElem?_emitted (by rw [length_emitted]; omega), getElem?_emitted hq]
  have hhead : ∀ q < t₂.code.length + 8, t₃.code[q]? = (counting t₂ r i).code[q]? :=
    fun q hq => ha.grown.code q (by rw [length_emitted, length_emitted]; omega)
  refine ⟨?_, ?_, ?_, fun q h₁ h₂ => ?_, ?_, ?_⟩
  · rw [freeTemp_code, length_patchImm16, length_emitted, length_emitted]
  · refine (instIn_emitted t₂ .cmpLt 0 r (15 - i)).of_eq fun q _ h₂ => ?_
    rw [hget q (.inl (by omega)), hold q (by omega), hhead q (by omega),
      getElem?_emitted (by rw [length_emitted]; omega)]
  · have hjz := instIn_emitted (t₂.emitted .cmpLt 0 r (15 - i)) .jz 0 0 0
    rw [length_emitted] at hjz
    refine InstIn.of_eq (InstIn.patchImm16 (hjz.of_eq fun q _ h₂ => ?_) room)
      fun q _ _ => by rw [freeTemp_code]
    rw [hold q (by omega), hhead q (by omega)]
  · rw [hget q (.inr h₁), hold q h₂]
  · refine (instIn_emitted t₃ .addi r r 1).of_eq fun q h₁ h₂ => ?_
    rw [hget q (.inr (by omega)), getElem?_emitted (by rw [length_emitted]; omega)]
  · have hjmp := instIn_emitted (t₃.emitted .addi r r 1) .jmp 0 (t₂.code.length / 256)
      (t₂.code.length % 256)
    rw [length_emitted] at hjmp
    exact hjmp.of_eq fun q h₁ h₂ => hget q (.inr (by omega))

/-- A variable is set to the lower bound, the upper one goes to a temporary, and both are compared
before each turn. -/
theorem count (hr : st.place x = some (.reg r)) (hlo : Loads st r lo t₁)
    (hi : t₁.freeSlot = some i) (hup : Loads (t₁.take i) (15 - i) up t₂)
    (room : t₂.code.length + 8 ≤ maxBytecodeSize) (ha : StmtCode a (counting t₂ r i) t₃)
    (hfit : t₃.code.length + 8 ≤ maxBytecodeSize) (hst' : st' = counted t₂ t₃ r i) :
    StmtCode (.count x lo up a) st st' := by
  have hmax : maxBytecodeSize = 4096 := rfl
  have hi8 := (freeSlot_eq_some hi).1
  have hcode := countCode ha room
  rw [← hst'] at hcode
  have hle := ha.grown.code_le
  rw [length_emitted, length_emitted] at hle
  have hlen₁ := hlo.codeLen
  have hlen₂ : t₂.code.length = t₁.code.length + 4 := hup.codeLen
  have hhead : Extends (t₁.take i) (counting t₂ r i) :=
    .of_segment (hup.segment.trans ((Segment.emitted t₂ .cmpLt 0 r (15 - i)).trans (.emitted ..)))
  have htail : Extends (t₁.take i) t₃ := hhead.trans ha.grown
  have hend : Extends t₁ st' := by
    rw [hst']
    refine .bracket hi (Extends.patchImm16 (htail.trans
      (.of_segment ((Segment.emitted t₃ .addi r r 1).trans (.emitted ..)))) ?_ _)
    change t₁.code.length ≤ _
    omega
  have hgrown : Extends st st' := (Extends.of_segment hlo.segment).trans hend
  have hlog : st'.allocLog = t₃.allocLog := by
    rw [hst', freeTemp_allocLog, patchImm16_allocLog]
    rfl
  have hbody : scratch (t₁.take i) t₃ = scratch (counting t₂ r i) t₃ := by
    have hnil : scratch (t₁.take i) (counting t₂ r i) = [] := hup.scratch
    rw [scratch_trans hhead.log ha.grown.log, hnil, List.nil_append]
  have hS : scratch st st' = (15 - i) :: scratch (counting t₂ r i) t₃ := by
    rw [scratch_trans hlo.segment.grows.log hend.log, hlo.scratch, List.nil_append,
      scratch_congr hlog, scratch_take i htail.log, hbody]
  have hplace : ∀ {y : List UInt8} {p : Place}, t₃.place y = some p → st'.place y = some p :=
    fun hy => by
      rw [hst', place_freeTemp, patchImm16_place]
      exact hy
  have hwithin : Within (counting t₂ r i) t₃ st st' := by
    refine ⟨by rw [length_emitted, length_emitted]; omega, by rw [hcode.stop]; omega,
      fun q h₁ h₂ => ?_, ?_, fun q hq => ?_, hplace⟩
    · rw [length_emitted, length_emitted] at h₁
      exact hcode.body q h₁ h₂
    · rewrite [hst', freeTemp_constPool, patchImm16_constPool]
      exact List.prefix_rfl
    · rw [hS]
      exact List.mem_cons_of_mem _ hq
  refine ⟨hgrown, ?_, fun y hy => ?_, ?_⟩
  · intro q hq
    rw [scratch_trans hlo.segment.grows.log hend.log, hlo.scratch, List.nil_append,
      scratch_congr hlog] at hq
    refine (reaches_bracket hi htail.log (fun q hq => ?_) q hq).congr hlo.segment.temps
    rw [hbody] at hq
    exact (ha.reaches q hq).congr hhead.temps
  · rcases List.mem_cons.mp hy with rfl | hy
    · exact hgrown.isSome (by rw [hr]; rfl)
    · obtain ⟨p, hp⟩ := Option.isSome_iff_exists.mp (ha.known y hy)
      rw [hplace hp]
      rfl
  · intro host X home vm₀ ρ₀ n hp hin
    have hx := hp.mem x List.mem_cons_self
    have hhome : r = home x := by
      have hpx := hp.place x List.mem_cons_self
      rw [hgrown.place hr] at hpx
      exact Place.reg.inj (Option.some.inj hpx)
    subst hhome
    have htemp : 15 - i ∈ scratch st st' := by
      rw [hS]
      exact List.mem_cons_self
    have hne : ∀ y ∈ X, home y ≠ 15 - i := fun y hy h => hp.homes.notMem y hy (h ▸ htemp)
    have hconsts : ∀ {u : CompilerState}, Extends u st' → u.constPool <+: vm₀.constPool :=
      fun h => h.consts.trans hp.holds.consts
    have hbody_temp : 15 - i ∉ scratch (counting t₂ (home x) i) t₃ := fun hmem => by
      have hused := (ha.reaches _ hmem).1.2.2
      rw [hhead.temps, show 15 - (15 - i) = i by omega, take_tempUsed] at hused
      cases hused
    have hTx : Touched X home (scratch st st') (home x) := .inr (.inr ⟨x, hx, rfl⟩)
    -- both bounds are loaded
    have hholds₁ : Holds vm₀ st t₁ := hp.holds.first hend
    obtain ⟨k₁, vm₁, hk₁, hip₁, hval₁⟩ := Takes.of_writes
      (hlo.writes hholds₁ hp.ip (hp.homes.lt x hx) host)
    have hshow₁ : Shows X home vm₁ (Function.update ρ₀ x lo) := by
      rw [← hval₁]
      exact hp.shows.update fun y hy hyx =>
        hk₁.frame _ fun h => hyx (hp.homes.inj y hy x hx h)
    have hholds₂ : Holds vm₁ (t₁.take i) t₂ := by
      refine Holds.of_core ⟨fun q h₁ h₂ => ?_, ?_⟩ hk₁.core
      · have hq : t₁.code.length ≤ q := h₁
        rw [hp.holds.code q (by omega) (by rw [hcode.stop]; omega), hst', freeTemp_code,
          getElem?_patchImm16_of_ne (.inl (by omega)),
          getElem?_emitted (by rw [length_emitted]; omega), getElem?_emitted (by omega),
          ha.grown.code q (by rw [length_emitted, length_emitted]; omega),
          getElem?_emitted (by rw [length_emitted]; omega), getElem?_emitted h₂]
      · refine List.IsPrefix.trans ?_ (hp.holds.consts)
        rw [hst', freeTemp_constPool, patchImm16_constPool]
        exact ha.grown.consts
    obtain ⟨k₂, vm₂, hk₂, hip₂, hval₂⟩ := Takes.of_writes
      (hup.writes hholds₂ (by rw [hip₁, hp.ip, ← hlen₁]; rfl) (by omega) host)
    have hstart : Takes host (Touched X home (scratch st st')) (k₁ + k₂) vm₀ vm₂ :=
      (hk₁.mono fun q hq => by rw [hq]; exact hTx).trans
        (hk₂.mono fun q hq => .inr (.inl (by rw [hq]; exact htemp)))
    refine .after hstart (performs_turns (fun vm ρ =>
      (∃ k, Takes host (Touched X home (scratch st st')) k vm₀ vm) ∧ vm.ip = t₂.code.length ∧
        Shows X home vm ρ ∧ vm.regs (15 - i) = up) (fun vm ρ n κ hI hnext => ?_) n
      ⟨⟨_, hstart⟩, by rw [hip₂, hip₁, hp.ip]; omega,
        hshow₁.takes hk₂ fun y hy => hne y hy, hval₂⟩)
    obtain ⟨⟨k, hk⟩, hip, hshow, hbound⟩ := hI
    -- the test
    have htest : vm.InstAt vm.ip .cmpLt 0 (home x) (15 - i) := by
      rw [hip]
      exact (hp.holds.of_core hk.core).inst hcode.test (by omega)
    obtain ⟨l₁, vm₃, hl₁, hip₃, hval₃⟩ := Takes.of_writes
      (htest.alu host (f := fun a b => boolWord (a.slt b)) rfl (by decide) (hp.homes.lt x hx)
        (by omega))
    rw [hbound, hshow x hx] at hval₃
    have hl₁' : Takes host (Touched X home (scratch st st')) l₁ vm vm₃ :=
      hl₁.mono fun q hq => .inl hq
    have hshow₃ : Shows X home vm₃ ρ := hshow.takes hl₁ fun y hy => hp.homes.pos y hy
    have hjump := hp.jz (T := Touched X home (scratch st st')) (hk.trans hl₁')
      (by rw [hip₃, hip]) (by omega) hcode.jz (by omega)
    rw [hval₃] at hjump
    change Performs _ _ _ _ _ _ _ (if boolWord ((ρ x).slt up) = 0#64 then _ else _)
    by_cases hz : boolWord ((ρ x).slt up) = 0#64
    · rw [if_pos hz] at hjump ⊢
      exact ⟨_, _, hl₁'.trans hjump, hcode.stop.symm, hshow₃⟩
    · rw [if_neg hz] at hjump ⊢
      have hbound₃ : vm₃.regs (15 - i) = up :=
        (hl₁.frame _ fun h : 15 - i = 0 => absurd h (by omega)).trans hbound
      have hrun := hp.runs (n := n) hwithin ha (fun y hy => List.mem_cons_of_mem x hy) hin
        ((hk.trans hl₁').trans hjump) (by rw [length_emitted, length_emitted]) hshow₃
      -- the body and the step
      have hturn : Performs host (Touched X home (scratch (counting t₂ (home x) i) t₃)) X home
          { vm₃.advance with ip := t₂.code.length + 4 + 4 } (t₃.code.length + 4) n
          (Stmt.andThen (a.exec vm₀.getStrBytes n ρ)
            fun ρ => some (.done (Stmt.bump x true 1#64 ρ))) :=
        hrun.bind (fun _ => id) fun vm₄ l₄ ρ₄ hl₄ hip₄ hshow₄ => by
          have hstep : vm₄.InstAt vm₄.ip .addi (home x) (home x) 1 := by
            rw [hip₄]
            exact (hp.holds.of_core (hl₄.core.trans (hjump.core.trans
              (hl₁.core.trans hk.core)))).inst hcode.step (by omega)
          obtain ⟨l₅, vm₅, hl₅, hip₅, hval₅⟩ := Takes.of_writes
            (hstep.imm host (f := (· + ·)) rfl (hp.homes.lt x hx) (hp.homes.lt x hx) (by decide))
          exact performs_bump hx hshow₄ (hp.homes.mono (by simp)) hl₅ (by rw [hip₅, hip₄]) hval₅
            rfl (.inr (.inr ⟨x, hx, rfl⟩))
      have hturns : Performs host (Touched X home (scratch st st')) X home vm₃ st'.code.length
          (n + 1) (Stmt.andThen (Stmt.andThen (a.exec vm₀.getStrBytes n ρ)
            fun ρ => some (.done (Stmt.bump x true 1#64 ρ))) κ) := by
        refine .turn (Nat.le_refl 1) hjump (hturn.bind (fun q => Touched.mono hwithin.scratch)
          fun vm₄ l₄ ρ₄ hl₄ hip₄ hshow₄ => ?_)
        have hl₄' := ((hk.trans hl₁').trans hjump).trans
          (hl₄.mono fun q => Touched.mono hwithin.scratch)
        have hback := hp.jmp (T := Touched X home (scratch st st')) hl₄' hip₄ (by omega)
          hcode.jmp (by omega)
        refine .after hback (hnext _ ρ₄ ⟨⟨_, hl₄'.trans hback⟩, rfl, hshow₄, ?_⟩)
        refine (hl₄.frame (15 - i) fun h => ?_).trans hbound₃
        rcases h with h | h | ⟨y, hy, h⟩
        · omega
        · exact hbody_temp h
        · exact hne y hy h
      exact .after hl₁' hturns

end Count

end StmtCode

end Compiler

end LatencyOS
