import LatencyOS.Lib.Ring
import LatencyOS.Lib.Trace
import LatencyOS.Net.E1000

/-!
# The transmit ring

The unsent descriptors are the window of the ring from `TDH` up to `TDT`, and they are those in
use and not done.  The card takes `TDH = TDT` for an empty ring, so 64 unsent descriptors look
like none: `send_packet` fills the last descriptor of the ring, and the card never sends again.
-/

namespace LatencyOS.Net.E1000

open LatencyOS.Ring

/-- A descriptor the driver takes for one in use. -/
def TxDesc.Busy (d : TxDesc) : Prop := d.status &&& 1 = 0 ∧ d.cmd ≠ 0

/-- The unsent descriptors are a window of the ring and exactly the busy ones. -/
structure Sending (s : E1000) : Prop where
  ready : s.tx.unsent ≠ [] → s.ready = true
  tail : s.tx.tail = s.tx.tdt
  lt : s.tx.tdh < numTxDescs
  len : s.tx.unsent.length ≤ numTxDescs
  tdt : s.tx.tdt = (s.tx.tdh + s.tx.unsent.length) % numTxDescs
  unsent : s.tx.unsent = window numTxDescs s.tx.tdh s.tx.unsent.length
  busy : ∀ i < numTxDescs, TxDesc.Busy (s.tx.descs i) ↔ i ∈ s.tx.unsent

variable {s : E1000}

theorem sending_init (s : E1000) (bar0 : UInt64) : Sending (s.init bar0) where
  ready := fun h => absurd rfl h
  tail := rfl
  lt := Nat.zero_lt_succ 63
  len := Nat.zero_le _
  tdt := rfl
  unsent := rfl
  busy := by
    intro i hi
    simp [init, TxDesc.Busy, hi]

theorem txFull_eq_true_iff : s.txFull = true ↔ TxDesc.Busy (s.tx.descs s.txIndex) := by
  simp [txFull, TxDesc.Busy]

/-- A call fails and changes nothing, or fills the next descriptor. -/
theorem sendPacket_cases (s : E1000) (packet : List UInt8) :
    (s.ready = true → TxDesc.Busy (s.tx.descs s.txIndex)) ∧
        s.sendPacket packet = (false, s) ∨
      s.ready = true ∧ ¬ TxDesc.Busy (s.tx.descs s.txIndex) ∧
        s.sendPacket packet = (true, { s with tx := s.sent packet }) := by
  rw [sendPacket]
  cases hready : s.ready with
  | false => exact .inl ⟨fun h => absurd h Bool.false_ne_true, rfl⟩
  | true =>
    rw [← txFull_eq_true_iff]
    cases s.txFull with
    | true => exact .inl ⟨fun _ => rfl, rfl⟩
    | false => exact .inr ⟨rfl, Bool.false_ne_true, rfl⟩

namespace Sending

theorem txIndex_eq (h : Sending s) : s.txIndex = s.tx.tdt := by
  rw [txIndex, h.tail, h.tdt, Nat.mod_mod]

theorem tdt_lt (h : Sending s) : s.tx.tdt < numTxDescs := by
  rw [h.tdt]
  exact Nat.mod_lt _ (by decide)

/-- The next descriptor is busy exactly when all are. -/
theorem busy_txIndex (h : Sending s) :
    TxDesc.Busy (s.tx.descs s.txIndex) ↔ s.tx.unsent.length = numTxDescs := by
  rw [h.txIndex_eq, h.busy _ h.tdt_lt, h.unsent, h.tdt, end_mem_window_iff h.len, ← h.unsent]
  exact and_iff_left (by decide)

/-- The ring looks empty when no descriptor is unsent, or all are. -/
theorem tdh_eq_tdt_iff (h : Sending s) :
    s.tx.tdh = s.tx.tdt ↔ s.tx.unsent = [] ∨ s.tx.unsent.length = numTxDescs := by
  have hlt := h.lt
  have hlen := h.len
  rw [← List.length_eq_zero_iff, h.tdt]
  unfold numTxDescs at *
  omega

end Sending

theorem sending_sent (h : Sending s) (hready : s.ready = true)
    (hfree : ¬ TxDesc.Busy (s.tx.descs s.txIndex)) (packet : List UInt8) :
    Sending { s with tx := s.sent packet } := by
  have hlen := h.len
  have hroom : s.tx.unsent.length ≠ numTxDescs := fun heq => hfree (h.busy_txIndex.mpr heq)
  have hidx := h.txIndex_eq
  have hlength : (s.sent packet).unsent.length = s.tx.unsent.length + 1 := by
    rw [sent, List.length_append, List.length_singleton]
  refine ⟨fun _ => hready, rfl, h.lt, ?_, ?_, ?_, fun i hi => ?_⟩
  · change (s.sent packet).unsent.length ≤ _
    omega
  · change (s.txIndex + 1) % numTxDescs = (s.tx.tdh + (s.sent packet).unsent.length) % numTxDescs
    rw [hlength, hidx, h.tdt, Nat.mod_add_mod, Nat.add_assoc]
  · change s.tx.unsent ++ [s.txIndex] = window numTxDescs s.tx.tdh (s.sent packet).unsent.length
    rw [hlength, window_succ, ← h.unsent, hidx, h.tdt]
  · change TxDesc.Busy (Function.update s.tx.descs s.txIndex _ i) ↔
      i ∈ s.tx.unsent ++ [s.txIndex]
    rw [List.mem_append, List.mem_singleton]
    rcases eq_or_ne i s.txIndex with rfl | hne
    · simp [TxDesc.Busy]
    · rw [Function.update_of_ne hne, h.busy i hi, or_iff_left hne]

theorem sending_sendPacket (h : Sending s) (packet : List UInt8) :
    Sending (s.sendPacket packet).2 := by
  rcases sendPacket_cases s packet with ⟨-, heq⟩ | ⟨hready, hfree, heq⟩
  · rw [heq]
    exact h
  · rw [heq]
    exact sending_sent h hready hfree packet

/-- The done bit of a completed descriptor is set. -/
theorem done_ne_zero (status : UInt8) : (status ||| 1) &&& 1 ≠ 0 := by
  intro h
  have hbit := congrArg (fun b => b.toBitVec.getLsbD 0) h
  simp at hbit

theorem sending_complete (h : Sending s) : Sending s.complete := by
  rw [complete]
  split
  case isTrue => exact h
  case isFalse hne =>
    obtain ⟨n, hn⟩ : ∃ n, s.tx.unsent.length = n + 1 := by
      refine Nat.exists_eq_succ_of_ne_zero fun hzero => hne (h.tdh_eq_tdt_iff.mpr (.inl ?_))
      exact List.eq_nil_of_length_eq_zero hzero
    have hlt := h.lt
    have hroom : n + 1 < numTxDescs := by
      have hlen := h.len
      have hfull : s.tx.unsent.length ≠ numTxDescs := fun heq =>
        hne (h.tdh_eq_tdt_iff.mpr (.inr heq))
      omega
    have hunsent : s.tx.unsent = s.tx.tdh :: window numTxDescs (s.tx.tdh + 1) n := by
      rw [h.unsent, hn, window, Nat.mod_eq_of_lt hlt]
    have hrest : s.tx.unsent.erase s.tx.tdh = window numTxDescs (s.tx.tdh + 1) n := by
      rw [hunsent, List.erase_cons_head]
    have hlength : (s.tx.unsent.erase s.tx.tdh).length = n := by
      rw [hunsent, List.length_cons] at hn
      rw [hrest]
      exact Nat.succ.inj hn
    refine ⟨fun _ => h.ready ?_, h.tail, Nat.mod_lt _ (by decide), ?_, ?_, ?_, fun i hi => ?_⟩
    · rw [hunsent]
      exact List.cons_ne_nil _ _
    · change (s.tx.unsent.erase s.tx.tdh).length ≤ _
      omega
    · change s.tx.tdt = ((s.tx.tdh + 1) % numTxDescs + (s.tx.unsent.erase s.tx.tdh).length) % _
      rw [hlength, h.tdt, hn, Nat.mod_add_mod, Nat.add_assoc, Nat.add_comm 1 n]
    · change s.tx.unsent.erase s.tx.tdh =
        window numTxDescs ((s.tx.tdh + 1) % numTxDescs) (s.tx.unsent.erase s.tx.tdh).length
      rw [hlength, window_mod, hrest]
    · change TxDesc.Busy (Function.update s.tx.descs s.tx.tdh _ i) ↔ i ∈ s.tx.unsent.erase s.tx.tdh
      rcases eq_or_ne i s.tx.tdh with rfl | hdiff
      · have hout : s.tx.tdh ∉ s.tx.unsent.erase s.tx.tdh := by
          have hnot : s.tx.tdh % numTxDescs ∉ window numTxDescs (s.tx.tdh + 1) n :=
            not_mem_window_succ (Nat.lt_of_succ_lt hroom)
          rwa [Nat.mod_eq_of_lt hlt, ← hrest] at hnot
        rw [Function.update_self]
        exact iff_of_false (fun hbusy => done_ne_zero _ hbusy.1) hout
      · rw [Function.update_of_ne hdiff, h.busy i hi, List.mem_erase_of_ne hdiff]

/-! ## What every call keeps -/

/-- No call changes a buffer that is not completed, and none that succeeds makes the ring look
empty while descriptors are unsent. -/
def KeepsUnsent (s : E1000) (e : Event) : Prop :=
  (∀ i ∈ s.tx.unsent, (s.step e).tx.buffers i = s.tx.buffers i) ∧
    match e with
    | .send packet =>
      (s.sendPacket packet).1 = true →
        s.txIndex ∉ s.tx.unsent ∧
          ((s.step e).tx.tdt = (s.step e).tx.tdh → (s.step e).tx.unsent = [])
    | _ => True

/-- `send_packet` is called only when the tail stays off the head. -/
def TailStaysOff (s : E1000) : Event → Prop
  | .send _ => (s.tx.tdt + 1) % numTxDescs ≠ s.tx.tdh
  | _ => True

theorem Sending.withRx (h : Sending s) (rx : RxRing) : Sending { s with rx := rx } :=
  ⟨h.ready, h.tail, h.lt, h.len, h.tdt, h.unsent, h.busy⟩

theorem sending_step (h : Sending s) (e : Event) : Sending (s.step e) := by
  cases e with
  | send packet => exact sending_sendPacket h packet
  | complete => exact sending_complete h
  | poll room =>
    obtain ⟨rx, hrx⟩ := s.pollRxPacket_apart room
    rw [step, hrx]
    exact h.withRx rx
  | arrive packet =>
    obtain ⟨rx, hrx⟩ := s.arrive_apart packet
    rw [step, hrx]
    exact h.withRx rx

/-- The tail reaches the head when all descriptors but one are unsent. -/
theorem Sending.tail_meets_iff (h : Sending s) :
    (s.tx.tdt + 1) % numTxDescs = s.tx.tdh ↔ s.tx.unsent.length = numTxDescs - 1 := by
  have hlt := h.lt
  have hlen := h.len
  rw [h.tdt]
  unfold numTxDescs at *
  omega

theorem Sending.not_tail_meets (h : Sending s)
    (hfull : s.ready = true → TxDesc.Busy (s.tx.descs s.txIndex)) :
    (s.tx.tdt + 1) % numTxDescs ≠ s.tx.tdh := by
  rw [Ne, h.tail_meets_iff]
  intro hlen
  have hne : s.tx.unsent ≠ [] := by
    rintro hnil
    rw [hnil] at hlen
    contradiction
  have hall := h.busy_txIndex.mp (hfull (h.ready hne))
  rw [hall] at hlen
  contradiction

theorem keepsUnsent_send (h : Sending s) (packet : List UInt8) :
    KeepsUnsent s (.send packet) ↔ TailStaysOff s (.send packet) := by
  rw [KeepsUnsent, TailStaysOff, step]
  rcases sendPacket_cases s packet with ⟨hfull, heq⟩ | ⟨-, hfree, heq⟩
  · simp only [heq, implies_true, Bool.false_eq_true, false_implies, and_self, true_iff]
    exact h.not_tail_meets hfull
  · have hout : s.txIndex ∉ s.tx.unsent := by
      rwa [h.txIndex_eq, ← h.busy _ h.tdt_lt, ← h.txIndex_eq]
    have hbuffers : ∀ i ∈ s.tx.unsent, (s.sent packet).buffers i = s.tx.buffers i := by
      intro i hi
      refine Function.update_of_ne (fun hidx => hout ?_) _ _
      rwa [← hidx]
    have hunsent : (s.sent packet).unsent ≠ [] := List.append_ne_nil_of_right_ne_nil _
      (List.cons_ne_nil _ _)
    have htdt : (s.sent packet).tdt = (s.tx.tdt + 1) % numTxDescs := by
      rw [sent, h.txIndex_eq]
    simp only [heq, forall_const, hout, not_false_eq_true, true_and, hunsent, htdt]
    exact ⟨fun hkept => hkept.2, fun hoff => ⟨hbuffers, hoff⟩⟩

/-- The other events touch no transmit buffer. -/
theorem keepsUnsent_of_buffers {e : Event} (hsend : ∀ packet, e ≠ .send packet)
    (h : (s.step e).tx.buffers = s.tx.buffers) : KeepsUnsent s e ↔ TailStaysOff s e := by
  refine ⟨fun _ => ?_, fun _ => ⟨fun i _ => congrFun h i, ?_⟩⟩
  all_goals
    cases e with
    | send packet => exact absurd rfl (hsend packet)
    | poll | complete | arrive => trivial

theorem keepsUnsent_iff (h : Sending s) (e : Event) : KeepsUnsent s e ↔ TailStaysOff s e := by
  cases e with
  | send packet => exact keepsUnsent_send h packet
  | complete =>
    refine keepsUnsent_of_buffers (by intro packet h; cases h) ?_
    rw [step, complete]
    split <;> rfl
  | poll room =>
    refine keepsUnsent_of_buffers (by intro packet h; cases h) ?_
    obtain ⟨rx, hrx⟩ := s.pollRxPacket_apart room
    rw [step, hrx]
  | arrive packet =>
    refine keepsUnsent_of_buffers (by intro packet h; cases h) ?_
    obtain ⟨rx, hrx⟩ := s.arrive_apart packet
    rw [step, hrx]

/-- Along every run of driver and card from the start of the driver, the calls keep the unsent
packets exactly when none is made with the tail right behind the head. -/
theorem keepsUnsent_run_iff (s : E1000) (bar0 : UInt64) (es : List Event) :
    AlongFold step KeepsUnsent (s.init bar0) es ↔ AlongFold step TailStaysOff (s.init bar0) es :=
  alongFold_congr (I := Sending) (fun _ e h => keepsUnsent_iff h e)
    (fun _ e h _ => sending_step h e) (sending_init s bar0)

instance (s : E1000) (e : Event) : Decidable (TailStaysOff s e) :=
  match e with
  | .send _ => inferInstanceAs (Decidable (_ ≠ _))
  | .poll _ | .complete | .arrive _ => isTrue trivial

/-- With no descriptor completed, the 64th packet makes the full ring look empty. -/
theorem sixtyFourth_looksEmpty :
    ¬ AlongFold step KeepsUnsent (boot.init 0xFEBC0000) (.replicate 64 (.send [0x45])) := by
  rw [alongFold_congr (I := Sending) (fun _ e h => keepsUnsent_iff h e)
    (fun _ e h _ => sending_step h e) (sending_init boot 0xFEBC0000)]
  decide +kernel

end LatencyOS.Net.E1000
