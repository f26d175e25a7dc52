import LatencyOS.Smp.RingBuffer

/-!
# Several cores at one ring

The ring is made for one producer and one consumer.  Several cores can still use it if they take
turns: no `push` starts while another core is in the middle of one, no `pop` starts while another
core is in the middle of one, and a `pop` finds an item of its own core first.  Then every core pops
its own items, in the order in which it pushed them.
-/

namespace LatencyOS

namespace Smp

/-- A ring, where every core stands in a `push` and in a `pop`, and who pushed and popped what so
far. -/
@[ext] structure RingUse (P T : Type) where
  ring : SpscRingBuffer T
  push : P → PushState T
  pop : P → PopState T
  pushes : List (P × T)
  pops : List (P × T)

namespace RingUse

variable {P T : Type} [DecidableEq P] (cap : ℕ)

/-- An access of a `push` of a core. -/
def pushBy (u : RingUse P T) (a : P) (item : T) : RingUse P T :=
  let r := Smp.push cap item (u.push a) u.ring
  { u with
    ring := r.2.1
    push := Function.update u.push a r.1
    pushes := u.pushes ++ ((u.push a).adds r.2.2).map (Prod.mk a) }

/-- An access of a `pop` of a core. -/
def popBy (u : RingUse P T) (a : P) : RingUse P T :=
  let r := Smp.pop cap (u.pop a) u.ring
  { u with
    ring := r.2.1
    pop := Function.update u.pop a r.1
    pops := u.pops ++ (taken r.2.2).map (Prod.mk a) }

/-- A core starts a `push` only when no other core is in the middle of one. -/
def PushTurn (u : RingUse P T) (a : P) : Prop := u.push a = .idle → ∀ b, b ≠ a → u.push b = .idle

/-- A `pop` is about to look whether there is an item. -/
def looking (p : PopState T) : Bool :=
  match p with
  | .loadedTail _ => true
  | _ => false

/-- A core starts a `pop` only when no other core is in the middle of one, and when it looks whether
there is an item, the first one is its own. -/
def PopTurn (u : RingUse P T) (a : P) : Prop :=
  (u.pop a = .idle → ∀ b, b ≠ a → u.pop b = .idle) ∧
    (looking (u.pop a) = true → ∀ x ∈ u.pushes[u.pops.length]?, x.1 = a)

/-- A `pop` has seen that there is an item. -/
def Taking (p : PopState T) : Prop :=
  match p with
  | .idle | .loadedTail _ => False
  | .notEmpty _ | .read _ _ => True

/-- What holds while the cores take turns. -/
structure Inv (u : RingUse P T) (rest : List (P × T)) : Prop where
  split : u.pushes = u.pops ++ rest
  holds : u.ring.Holds cap usizeSize u.pops.length (rest.map Prod.snd)
  push : ∀ a, (u.push a).Ok cap u.ring (rest.map Prod.snd)
  pushOne : ∀ a b, u.push a ≠ .idle → u.push b ≠ .idle → a = b
  pop : ∀ a, (u.pop a).Ok u.ring (rest.map Prod.snd)
  popOne : ∀ a b, u.pop a ≠ .idle → u.pop b ≠ .idle → a = b
  front : ∀ a, Taking (u.pop a) → ∀ x ∈ rest.head?, x.1 = a

variable {cap} {u : RingUse P T} {rest : List (P × T)} {a : P}

omit [DecidableEq P] in
theorem Inv.head_eq (h : Inv cap u rest) : u.pushes[u.pops.length]? = rest.head? := by
  rw [h.split, List.getElem?_append_right (Nat.le_refl _), Nat.sub_self, List.head?_eq_getElem?]

omit [DecidableEq P] in
/-- While a core takes a step in turn, all others are outside. -/
theorem others_idle {β : Type} {idle : β} {f : P → β} (h : ∀ a b, f a ≠ idle → f b ≠ idle → a = b)
    (hturn : f a = idle → ∀ b, b ≠ a → f b = idle) {b : P} (hb : b ≠ a) : f b = idle := by
  by_contra hne
  by_cases hmid : f a = idle
  · exact hne (hturn hmid b hb)
  · exact hb (h b a hne hmid)

/-- Only the core that takes the step can be in the middle afterwards. -/
theorem one_update {β : Type} {idle : β} {f : P → β} {new : β}
    (hidle : ∀ b, b ≠ a → f b = idle) :
    ∀ b c, Function.update f a new b ≠ idle → Function.update f a new c ≠ idle → b = c := by
  have hall : ∀ b, Function.update f a new b ≠ idle → b = a := by
    intro b hne
    by_contra hb
    rw [Function.update_of_ne hb] at hne
    exact hne (hidle b hb)
  intro b c hb hc
  rw [hall b hb, hall c hc]

omit [DecidableEq P] in
/-- There is an item for a `pop` that has seen one. -/
theorem Inv.ne_nil (h : Inv cap u rest) (ha : Taking (u.pop a)) : rest ≠ [] := by
  rintro rfl
  have hok := h.pop a
  cases hp : u.pop a with
  | idle =>
    rw [hp] at ha
    exact ha
  | loadedTail tail =>
    rw [hp] at ha
    exact ha
  | notEmpty tail =>
    rw [hp] at hok
    exact hok.2 rfl
  | read tail item =>
    rw [hp] at hok
    cases hok.2

theorem inv_pushBy (hs : Ring.Sizes cap usizeSize) (h : Inv cap u rest) (hturn : PushTurn u a)
    (item : T) : ∃ rest', Inv cap (u.pushBy cap a item) rest' := by
  obtain ⟨q', hspec⟩ := push_spec hs h.holds (h.push a) item
  have hidle : ∀ b, b ≠ a → u.push b = .idle := fun b hb => others_idle h.pushOne hturn hb
  have hq : q' = (rest ++ ((u.push a).adds (Smp.push cap item (u.push a) u.ring).2.2).map
      (Prod.mk a)).map Prod.snd := by
    rw [hspec.back, List.map_append, List.map_map]
    exact congrArg _ (List.map_id _).symm
  rw [hq] at hspec
  refine ⟨_, ?_, hspec.holds, fun b => ?_, one_update hidle,
    fun b => hspec.others _ (h.pop b), h.popOne, fun b hb x hx => ?_⟩
  · change u.pushes ++ _ = u.pops ++ _
    rw [h.split, List.append_assoc]
  · change (Function.update u.push a _ b).Ok cap _ _
    by_cases hb : b = a
    · rw [hb, Function.update_self]
      exact hspec.own
    · rw [Function.update_of_ne hb, hidle b hb]
      trivial
  · obtain ⟨y, rest', hrest⟩ := List.exists_cons_of_ne_nil (h.ne_nil hb)
    refine h.front b hb x ?_
    rw [hrest] at hx ⊢
    exact hx

omit [DecidableEq P] in
/-- What a `pop` in turn takes is the first item, and it is the core's own. -/
theorem Inv.taken_eq (h : Inv cap u rest) {q' : List T}
    (hfront : rest.map Prod.snd = taken (Smp.pop cap (u.pop a) u.ring).2.2 ++ q') :
    ∃ rest', rest = (taken (Smp.pop cap (u.pop a) u.ring).2.2).map (Prod.mk a) ++ rest' ∧
      q' = rest'.map Prod.snd := by
  have hempty : taken (Smp.pop cap (u.pop a) u.ring).2.2 = [] →
      ∃ rest', rest = (taken (Smp.pop cap (u.pop a) u.ring).2.2).map (Prod.mk a) ++ rest' ∧
        q' = rest'.map Prod.snd := by
    intro hnone
    rw [hnone] at hfront ⊢
    exact ⟨rest, rfl, hfront.symm⟩
  have htaking := h.front a
  cases hp : u.pop a with
  | idle => exact hp ▸ hempty (by rw [hp]; rfl)
  | loadedTail tail =>
    refine hp ▸ hempty ?_
    rw [hp, Smp.pop]
    split <;> rfl
  | notEmpty tail => exact hp ▸ hempty (by rw [hp]; rfl)
  | read tail item =>
    rw [hp] at hfront htaking
    cases rest with
    | nil => cases hfront
    | cons x rest' =>
      obtain ⟨b, y⟩ := x
      have hb : b = a := htaking trivial (b, y) rfl
      obtain ⟨hy, hq⟩ := List.cons.inj hfront
      have hy' : y = item := hy
      rw [hb, hy']
      exact ⟨rest', rfl, hq.symm⟩

theorem inv_popBy (hs : Ring.Sizes cap usizeSize) (h : Inv cap u rest) (hturn : PopTurn u a) :
    ∃ rest', Inv cap (u.popBy cap a) rest' := by
  obtain ⟨q', hspec⟩ := pop_spec hs h.holds (h.pop a)
  have hidle : ∀ b, b ≠ a → u.pop b = .idle := fun b hb => others_idle h.popOne hturn.1 hb
  obtain ⟨rest', hrest, rfl⟩ := h.taken_eq hspec.front
  refine ⟨rest', ?_, ?_, fun b => hspec.others _ (h.push b), h.pushOne, fun b => ?_,
    one_update hidle, fun b hb x hx => ?_⟩
  · change u.pushes = u.pops ++ _ ++ rest'
    rw [List.append_assoc, ← hrest]
    exact h.split
  · change Ring.Holds cap usizeSize _ (u.pops ++ List.map _ _).length _
    rw [List.length_append, List.length_map]
    exact hspec.holds
  · change (Function.update u.pop a _ b).Ok _ _
    by_cases hb : b = a
    · rw [hb, Function.update_self]
      exact hspec.own
    · rw [Function.update_of_ne hb, hidle b hb]
      trivial
  · have hba : b = a := by
      by_contra hb'
      change Taking (Function.update u.pop a _ b) at hb
      rw [Function.update_of_ne hb', hidle b hb'] at hb
      exact hb
    subst hba
    change Taking (Function.update u.pop b _ b) at hb
    rw [Function.update_self] at hb
    cases hp : u.pop b with
    | idle =>
      rw [hp] at hb
      exact hb.elim
    | loadedTail tail =>
      have hnone : taken (Smp.pop cap (u.pop b) u.ring).2.2 = [] := by
        rw [hp, Smp.pop]
        split <;> rfl
      rw [hnone] at hrest
      refine hturn.2 (by rw [hp]; rfl) x ?_
      rw [h.head_eq, hrest]
      exact hx
    | notEmpty tail =>
      rw [hp] at hrest
      refine h.front b ?_ x ?_
      · rw [hp]
        trivial
      · rw [hrest]
        exact hx
    | read tail item =>
      rw [hp] at hb
      exact hb.elim

end RingUse

end Smp

end LatencyOS
