import Mathlib.Algebra.Ring.Int.Defs
import Mathlib.Algebra.Ring.Nat
import Mathlib.Data.List.Nodup
import Mathlib.Logic.Function.Basic

/-!
# Chains in a successor table

A table `next` links values to values; a chain follows it from a value until one that ends it.
Chains depend on the table at their own members only, so tables that agree there have the same
chains.  `link` writes a chain into a table.
-/

namespace LatencyOS

variable {α : Type} {next next' : α → α} {ends : α → Prop} {a b : α} {l l' : List α}

/-- The members a walk from a value passes before one that ends it. -/
inductive Chain (next : α → α) (ends : α → Prop) : α → List α → Prop
  | nil {a : α} (h : ends a) : Chain next ends a []
  | cons {a : α} {l : List α} (h : ¬ ends a) (ht : Chain next ends (next a) l) :
      Chain next ends a (a :: l)

namespace Chain

/-- A table that agrees on the members has the same chain. -/
theorem congr (h : Chain next ends a l) (heq : ∀ x ∈ l, next' x = next x) :
    Chain next' ends a l := by
  induction h with
  | nil h => exact .nil h
  | cons h ht ih =>
    refine .cons h ?_
    rw [heq _ List.mem_cons_self]
    exact ih fun x hx => heq x (List.mem_cons_of_mem _ hx)

/-- A walk passes the same members every time. -/
theorem unique (h : Chain next ends a l) (h' : Chain next ends a l') : l = l' := by
  induction h generalizing l' with
  | nil h =>
    cases h' with
    | nil _ => rfl
    | cons hne _ => exact absurd h hne
  | cons h ht ih =>
    cases h' with
    | nil he => exact absurd he h
    | cons _ ht' => rw [ih ht']

/-- From a member on the walk is no longer than the whole. -/
theorem of_mem (h : Chain next ends a l) (hb : b ∈ l) :
    ∃ l', Chain next ends b l' ∧ l'.length ≤ l.length := by
  induction h with
  | nil h => exact absurd hb List.not_mem_nil
  | cons h ht ih =>
    rcases List.mem_cons.mp hb with rfl | hb
    · exact ⟨_, .cons h ht, le_rfl⟩
    · obtain ⟨l', hl', hlen⟩ := ih hb
      exact ⟨l', hl', Nat.le_succ_of_le hlen⟩

/-- A walk that ends passes no member twice. -/
theorem nodup (h : Chain next ends a l) : l.Nodup := by
  induction h with
  | nil h => exact List.nodup_nil
  | @cons a l h ht ih =>
    refine List.nodup_cons.mpr ⟨fun hmem => ?_, ih⟩
    obtain ⟨l', hl', hlen⟩ := ht.of_mem hmem
    rw [hl'.unique (.cons h ht), List.length_cons] at hlen
    exact absurd hlen (Nat.not_succ_le_self _)

end Chain

/-- What a walk from a value passes, also one that never ends. -/
inductive Passed (next : α → α) (ends : α → Prop) (a : α) : α → Prop
  | start (h : ¬ ends a) : Passed next ends a a
  | step {b : α} (hb : Passed next ends a b) (h : ¬ ends (next b)) : Passed next ends a (next b)

/-- Link the members of a list, the last one to a terminator. -/
def link [DecidableEq α] (next : α → α) (terminator : α) : List α → α → α
  | [] => next
  | [a] => Function.update next a terminator
  | a :: b :: l => link (Function.update next a b) terminator (b :: l)

variable [DecidableEq α] {terminator : α}

/-- Linking changes the table at the members only. -/
theorem link_of_notMem (h : b ∉ l) : link next terminator l b = next b := by
  fun_induction link next terminator l with
  | case1 next => rfl
  | case2 next a => exact Function.update_of_ne (by simpa using h) _ _
  | case3 next a c l ih =>
    rw [ih fun hmem => h (List.mem_cons_of_mem a hmem)]
    exact Function.update_of_ne (fun heq : b = a => h (heq ▸ List.mem_cons_self)) _ _

/-- What linking gives at a value depends on the table there only. -/
theorem link_congr (h : next' b = next b) :
    link next' terminator l b = link next terminator l b := by
  by_cases hb : b ∈ l
  · fun_induction link next terminator l generalizing next' with
    | case1 next => exact absurd hb List.not_mem_nil
    | case2 next a =>
      rw [link, List.mem_singleton.mp hb, Function.update_self, Function.update_self]
    | case3 next a c l ih =>
      have hbase : Function.update next' a c b = Function.update next a c b := by
        simp only [Function.update_apply, h]
      rw [link]
      by_cases hmem : b ∈ c :: l
      · exact ih hbase hmem
      · rw [link_of_notMem hmem, link_of_notMem hmem, hbase]
  · rw [link_of_notMem hb, link_of_notMem hb, h]

/-- A linked list is a chain. -/
theorem chain_link (hnodup : (a :: l).Nodup) (hmem : ∀ x ∈ a :: l, ¬ ends x)
    (hend : ends terminator) : Chain (link next terminator (a :: l)) ends a (a :: l) := by
  induction l generalizing next a with
  | nil =>
    refine .cons (hmem a List.mem_cons_self) ?_
    simp only [link, Function.update_self]
    exact .nil hend
  | cons b l ih =>
    have hnodup' := List.nodup_cons.mp hnodup
    refine .cons (hmem a List.mem_cons_self) ?_
    have hnext : link next terminator (a :: b :: l) a = b := by
      rw [link, link_of_notMem hnodup'.1, Function.update_self]
    rw [hnext]
    exact ih hnodup'.2 fun x hx => hmem x (List.mem_cons_of_mem a hx)

/-- What a member is linked to is a member or the terminator. -/
theorem link_mem (hb : b ∈ l) :
    link next terminator l b ∈ l ∨ link next terminator l b = terminator := by
  fun_induction link next terminator l with
  | case1 next => exact absurd hb List.not_mem_nil
  | case2 next a =>
    rw [List.mem_singleton.mp hb]
    exact .inr (Function.update_self _ _ _)
  | case3 next a c l ih =>
    by_cases hmem : b ∈ c :: l
    · exact (ih hmem).imp_left (List.mem_cons_of_mem a)
    · rw [link_of_notMem hmem]
      have hba : b = a := (List.mem_cons.mp hb).resolve_right hmem
      rw [hba, Function.update_self]
      exact .inl (by simp)

end LatencyOS
