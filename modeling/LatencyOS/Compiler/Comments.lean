import LatencyOS.Compiler.FrontEnd
import LatencyOS.Lib.Span
import Mathlib.Data.List.Infix

/-!
# Comments

Where the comments of a source are, on their own: one pass with one byte of lookahead that
knows strings and comments and nothing else.  A gap between two tokens is a sequence of
whitespace, complete comments and bytes that start no token.
-/

namespace LatencyOS

namespace Lexer

/-- What a byte of a source belongs to. -/
inductive Mode
  | code | string | line | opening | block | closing
  deriving DecidableEq

namespace Mode

/-- The mode behind a byte, which is followed by `ahead`. -/
def next (m : Mode) (b : UInt8) (ahead : Option UInt8) : Mode :=
  match m with
  | .code =>
    if b = 0x22 then .string
    else if b = 0x2F ∧ ahead = some 0x2F then .line
    else if b = 0x2F ∧ ahead = some 0x2A then .opening
    else .code
  | .string => if b = 0x22 then .code else .string
  | .line => if b = 0x0A then .code else .line
  | .opening => .block
  | .block => if b = 0x2A ∧ ahead = some 0x2F then .closing else .block
  | .closing => .code

/-- Whether a byte is part of a comment. -/
def isComment (m : Mode) (b : UInt8) (ahead : Option UInt8) : Bool :=
  match m with
  | .code => b == 0x2F && (ahead == some 0x2F || ahead == some 0x2A)
  | .string => false
  | .line => b != 0x0A
  | .opening | .block | .closing => true

end Mode

/-- The mode in front of a position. -/
def modeAt (m : Mode) : List UInt8 → ℕ → Mode
  | _, 0 => m
  | [], _ => m
  | b :: l, n + 1 => modeAt (m.next b l.head?) l n

/-- The byte at a position is part of a comment. -/
def InComment (m : Mode) (l : List UInt8) (i : ℕ) : Prop :=
  ∃ b, l[i]? = some b ∧ (modeAt m l i).isComment b l[i + 1]? = true

/-- A source ends inside a block comment. -/
def OpenComment (src : List UInt8) : Prop := modeAt .code src src.length = .block

section modeAt

variable {m : Mode} {l : List UInt8}

@[simp] theorem modeAt_zero : modeAt m l 0 = m := by cases l <;> rfl

theorem modeAt_cons (m : Mode) (b : UInt8) (l : List UInt8) (n : ℕ) :
    modeAt m (b :: l) (n + 1) = modeAt (m.next b l.head?) l n := rfl

/-- A pass may be interrupted. -/
theorem modeAt_add (m : Mode) (l : List UInt8) (n k : ℕ) :
    modeAt m l (n + k) = modeAt (modeAt m l n) (l.drop n) k := by
  induction n generalizing m l with
  | zero => rw [Nat.zero_add, modeAt_zero, List.drop_zero]
  | succ n ih =>
    cases l with
    | nil => cases k <;> simp [modeAt]
    | cons b l => rw [Nat.succ_add, modeAt_cons, modeAt_cons, ih, List.drop_succ_cons]

theorem inComment_add (m : Mode) (l : List UInt8) (n i : ℕ) :
    InComment m l (n + i) ↔ InComment (modeAt m l n) (l.drop n) i := by
  rw [InComment, InComment, modeAt_add, List.getElem?_drop, List.getElem?_drop, Nat.add_assoc]

end modeAt

/-! ## Gaps -/

/-- A blank, a tab, a carriage return or a newline. -/
def isWhite (b : UInt8) : Bool := b == 0x20 || b == 0x09 || b == 0x0D || b == 0x0A

/-- The bytes of operators and punctuation. -/
def punctuation : List UInt8 := bytes "()\x7b\x7d;,.?:+-*/%[]^|=!<>&"

/-- A byte that starts no token. -/
def isIgnored (b : UInt8) : Bool :=
  !(isWhite b || b == 0x22 || isDigit b || b == 0x24 || b == 0x23 || b == 0x40 || isAlpha b ||
    b == 0x5F || punctuation.contains b)

/-- The end marker of a block comment. -/
def blockEnd : List UInt8 := [0x2A, 0x2F]

/-- Whitespace, complete comments and ignored bytes, followed by `rest`. -/
inductive Skippable (rest : List UInt8) : List UInt8 → Prop
  | nil : Skippable rest []
  | white {b : UInt8} {s : List UInt8} (hb : isWhite b = true) (hs : Skippable rest s) :
      Skippable rest (b :: s)
  | ignored {b : UInt8} {s : List UInt8} (hb : isIgnored b = true) (hs : Skippable rest s) :
      Skippable rest (b :: s)
  | line {body s : List UInt8} (hbody : 0x0A ∉ body)
      (hend : s.head? = some 0x0A ∨ s ++ rest = []) (hs : Skippable rest s) :
      Skippable rest (0x2F :: 0x2F :: (body ++ s))
  | block {body s : List UInt8} (hbody : ¬ blockEnd <:+: body ++ [0x2A]) (hs : Skippable rest s) :
      Skippable rest (0x2F :: 0x2A :: (body ++ (blockEnd ++ s)))

theorem Skippable.append {gap gap' rest : List UInt8} (h : Skippable (gap' ++ rest) gap)
    (h' : Skippable rest gap') : Skippable rest (gap ++ gap') := by
  induction h with
  | nil => exact h'
  | white hb _ ih => exact .white hb ih
  | ignored hb _ ih => exact .ignored hb ih
  | line hbody hend _ ih =>
    rw [List.cons_append, List.cons_append, List.append_assoc]
    refine .line hbody (hend.imp (fun hs => ?_) fun hs => ?_) ih
    · rw [List.head?_append, hs, Option.some_or]
    · rw [List.append_assoc, hs]
  | block hbody _ ih =>
    rw [List.cons_append, List.cons_append, List.append_assoc, List.append_assoc]
    exact .block hbody ih

/-! ### The modes along a gap -/

/-- A byte that neither opens a string nor a comment. -/
def isPlain (b : UInt8) : Bool := b != 0x22 && b != 0x2F

theorem isPlain_of_isWhite {b : UInt8} (h : isWhite b = true) : isPlain b = true := by
  simp only [isWhite, Bool.or_eq_true, beq_iff_eq] at h
  rcases h with ((rfl | rfl) | rfl) | rfl <;> rfl

theorem isPlain_of_isIgnored {b : UInt8} (h : isIgnored b = true) : isPlain b = true := by
  by_contra hnot
  simp only [isPlain, Bool.and_eq_true, bne_iff_ne, not_and_or, not_not] at hnot
  rcases hnot with rfl | rfl <;> revert h <;> decide

theorem next_of_isPlain {b : UInt8} (h : isPlain b = true) (ahead : Option UInt8) :
    Mode.code.next b ahead = .code := by
  simp only [isPlain, Bool.and_eq_true, bne_iff_ne] at h
  simp only [Mode.next, if_neg h.1, h.2, false_and, if_false]

theorem isComment_of_isPlain {b : UInt8} (h : isPlain b = true) (ahead : Option UInt8) :
    Mode.code.isComment b ahead = false := by
  simp only [isPlain, Bool.and_eq_true, bne_iff_ne] at h
  simp [Mode.isComment, h.2]

/-- Plain bytes are code. -/
theorem modeAt_plain {s : List UInt8} (hs : ∀ b ∈ s, isPlain b = true) (rest : List UInt8) {n : ℕ}
    (hn : n ≤ s.length) : modeAt .code (s ++ rest) n = .code := by
  induction s generalizing n with
  | nil =>
    obtain rfl : n = 0 := Nat.le_zero.mp hn
    exact modeAt_zero
  | cons b s ih =>
    cases n with
    | zero => exact modeAt_zero
    | succ n =>
      rw [List.cons_append, modeAt_cons, next_of_isPlain (hs b List.mem_cons_self)]
      exact ih (fun c hc => hs c (List.mem_cons_of_mem b hc)) (Nat.le_of_succ_le_succ hn)

/-- The body of a line comment. -/
theorem modeAt_line {body : List UInt8} (hbody : 0x0A ∉ body) (rest : List UInt8) :
    modeAt .line (body ++ rest) body.length = .line := by
  induction body with
  | nil => exact modeAt_zero
  | cons b body ih =>
    rw [List.mem_cons, not_or] at hbody
    rw [List.cons_append, List.length_cons, modeAt_cons, Mode.next, if_neg (Ne.symm hbody.1)]
    exact ih hbody.2

/-- A block comment stays open up to its end marker. -/
theorem modeAt_block {body rest : List UInt8} (hbody : ¬ blockEnd <:+: body ++ rest.take 1)
    {n : ℕ} (hn : n ≤ body.length) : modeAt .block (body ++ rest) n = .block := by
  induction body generalizing n with
  | nil =>
    obtain rfl : n = 0 := Nat.le_zero.mp hn
    exact modeAt_zero
  | cons b body ih =>
    cases n with
    | zero => exact modeAt_zero
    | succ n =>
      have hopen : ¬ (b = 0x2A ∧ (body ++ rest).head? = some 0x2F) := by
        rintro ⟨rfl, hhead⟩
        refine hbody (List.IsPrefix.isInfix ?_)
        cases body with
        | nil =>
          cases rest with
          | nil => cases hhead
          | cons c rest =>
            cases hhead
            exact List.prefix_rfl
        | cons c body =>
          cases hhead
          exact ⟨body ++ rest.take 1, rfl⟩
      rw [List.cons_append, modeAt_cons, Mode.next, if_neg hopen]
      exact ih (fun hin => hbody (hin.trans (List.suffix_cons b _).isInfix))
        (Nat.le_of_succ_le_succ hn)

/-- The slashes of a line comment, and its body. -/
theorem modeAt_lineComment {body : List UInt8} (hbody : 0x0A ∉ body) (t : List UInt8) (n : ℕ) :
    modeAt .code (0x2F :: 0x2F :: (body ++ t)) (body.length + n + 2) = modeAt .line t n := by
  have hopen : Mode.code.next 0x2F (some 0x2F) = .line := rfl
  have hslash : ∀ ahead, Mode.line.next 0x2F ahead = .line := fun _ => rfl
  rw [modeAt_cons, List.head?_cons, hopen, modeAt_cons, hslash, modeAt_add, modeAt_line hbody,
    List.drop_left]

/-- A complete block comment. -/
theorem modeAt_blockComment {body : List UInt8} (hbody : ¬ blockEnd <:+: body ++ [0x2A])
    (t : List UInt8) (n : ℕ) :
    modeAt .code (0x2F :: 0x2A :: (body ++ (blockEnd ++ t))) (body.length + (n + 2) + 2) =
      modeAt .code t n := by
  have hopen : Mode.code.next 0x2F (some 0x2A) = .opening := rfl
  have hstar : ∀ ahead, Mode.opening.next 0x2A ahead = .block := fun _ => rfl
  have hclose : Mode.block.next 0x2A (some 0x2F) = .closing := rfl
  have hslash : ∀ ahead, Mode.closing.next 0x2F ahead = .code := fun _ => rfl
  have hstays : modeAt .block (body ++ (blockEnd ++ t)) body.length = .block :=
    modeAt_block hbody (Nat.le_refl _)
  rw [modeAt_cons, List.head?_cons, hopen, modeAt_cons, hstar, modeAt_add, hstays, List.drop_left,
    blockEnd, List.cons_append, List.cons_append, List.nil_append, modeAt_cons, List.head?_cons,
    hclose, modeAt_cons, hslash]

/-- Behind a gap the pass is back in the code, or at the end of the source. -/
theorem Skippable.modeAt_eq {gap rest : List UInt8} (h : Skippable rest gap) :
    modeAt .code (gap ++ rest) gap.length = .code ∨
      rest = [] ∧ modeAt .code (gap ++ rest) gap.length = .line := by
  induction h with
  | nil => exact .inl modeAt_zero
  | white hb _ ih =>
    rw [List.cons_append, List.length_cons, modeAt_cons, next_of_isPlain (isPlain_of_isWhite hb)]
    exact ih
  | ignored hb _ ih =>
    rw [List.cons_append, List.length_cons, modeAt_cons, next_of_isPlain (isPlain_of_isIgnored hb)]
    exact ih
  | @line body s hbody hend hs ih =>
    have hmode : modeAt .code (0x2F :: 0x2F :: (body ++ s) ++ rest)
        (0x2F :: 0x2F :: (body ++ s)).length = modeAt .line (s ++ rest) s.length := by
      rw [List.cons_append, List.cons_append, List.append_assoc, List.length_cons, List.length_cons,
        List.length_append]
      exact modeAt_lineComment hbody _ _
    rw [hmode]
    rcases hend with hs | hempty
    · obtain ⟨s', rfl⟩ := List.head?_eq_some_iff.mp hs
      rw [List.cons_append, List.length_cons, modeAt_cons] at ih ⊢
      exact ih
    · obtain ⟨rfl, rfl⟩ := List.append_eq_nil_iff.mp hempty
      exact .inr ⟨rfl, modeAt_zero⟩
  | @block body s hbody hs ih =>
    have hmode : modeAt .code (0x2F :: 0x2A :: (body ++ (blockEnd ++ s)) ++ rest)
        (0x2F :: 0x2A :: (body ++ (blockEnd ++ s))).length = modeAt .code (s ++ rest) s.length := by
      rw [List.cons_append, List.cons_append, List.append_assoc, List.append_assoc,
        List.length_cons, List.length_cons, List.length_append, List.length_append]
      have hlen : body.length + (blockEnd.length + s.length) = body.length + (s.length + 2) := by
        rw [Nat.add_comm s.length]
        rfl
      rw [hlen]
      exact modeAt_blockComment hbody _ _
    rw [hmode]
    exact ih

/-- A source that is one gap has no open comment. -/
theorem Skippable.not_openComment {gap : List UInt8} (h : Skippable [] gap) :
    ¬ OpenComment gap := by
  intro hopen
  rcases h.modeAt_eq with hmode | ⟨-, hmode⟩ <;> rw [List.append_nil] at hmode <;>
    cases hmode.symm.trans hopen

/-! ### Open comments -/

/-- The bytes of an open comment, up to the last one. -/
theorem modeAt_openComment {body : List UInt8} (hbody : ¬ blockEnd <:+: body) {n : ℕ}
    (hn : n ≤ body.length) : modeAt .code (0x2F :: 0x2A :: body) (n + 2) = .block := by
  have hopen : Mode.code.next 0x2F (some 0x2A) = .opening := rfl
  have hstar : ∀ ahead, Mode.opening.next 0x2A ahead = .block := fun _ => rfl
  have hstays : modeAt .block (body ++ []) n = .block :=
    modeAt_block (by rwa [List.take_nil, List.append_nil]) hn
  rw [List.append_nil] at hstays
  rw [modeAt_cons, List.head?_cons, hopen, modeAt_cons, hstar, hstays]

/-! ## What the lexer skips -/

/-- A source at which no whitespace and no comment starts. -/
def StartsToken : List UInt8 → Prop
  | [] => True
  | b :: rest => isWhite b = false ∧
      ¬ (b = 0x2F ∧ (rest.head? = some 0x2F ∨ rest.head? = some 0x2A))

/-- Where an end marker can start in front of a text without one. -/
theorem blockEnd_infix_cons_iff {b : UInt8} {l : List UInt8} :
    blockEnd <:+: b :: l ↔ (b = 0x2A ∧ l.head? = some 0x2F) ∨ blockEnd <:+: l := by
  rw [List.infix_cons_iff, blockEnd, List.cons_prefix_cons]
  refine or_congr_left (and_congr eq_comm ?_)
  cases l with
  | nil => simp
  | cons c l => simp [List.cons_prefix_cons, eq_comm]

/-- A block comment ends at its first end marker, else one byte before the end. -/
theorem skipBlockComment_cases (l : List UInt8) :
    (∃ body, l = body ++ (blockEnd ++ skipBlockComment l) ∧ ¬ blockEnd <:+: body ++ [0x2A]) ∨
      ¬ blockEnd <:+: l ∧ skipBlockComment l = l.drop (l.length - 1) := by
  fun_induction skipBlockComment l with
  | case1 a b rest h =>
    obtain ⟨rfl, rfl⟩ := h
    exact .inl ⟨[], rfl, by decide⟩
  | case2 a b rest h ih =>
    rcases ih with ⟨body, heq, hbody⟩ | ⟨hopen, hdrop⟩
    · refine .inl ⟨a :: body, by rw [List.cons_append, ← heq], ?_⟩
      rw [List.cons_append, blockEnd_infix_cons_iff, not_or]
      refine ⟨?_, hbody⟩
      rintro ⟨rfl, hhead⟩
      cases body with
      | nil => cases hhead
      | cons c body =>
        obtain ⟨rfl, -⟩ := List.cons.inj heq
        cases hhead
        exact h ⟨rfl, rfl⟩
    · refine .inr ⟨?_, ?_⟩
      · rw [blockEnd_infix_cons_iff, not_or]
        refine ⟨?_, hopen⟩
        rintro ⟨rfl, hhead⟩
        cases hhead
        exact h ⟨rfl, rfl⟩
      · rw [hdrop]
        rfl
  | case3 l h =>
    right
    cases l with
    | nil => exact ⟨by decide, rfl⟩
    | cons a l =>
      cases l with
      | nil => exact ⟨fun hin => absurd hin.length_le (by decide : ¬ 2 ≤ 1), rfl⟩
      | cons b rest => exact absurd rfl (h a b rest)

/-- The last byte of an open comment is skipped as well if it is whitespace. -/
theorem skipTrivia_singleton (n : ℕ) (b : UInt8) :
    skipTrivia (n + 1) [b] = [] ∨ skipTrivia (n + 1) [b] = [b] ∧ StartsToken [b] := by
  rw [skipTrivia]
  split
  · cases n <;> exact .inl rfl
  · next hwhite => exact .inr ⟨by simp, by simpa [isWhite, not_or, and_assoc] using hwhite, by simp⟩

/-- What the lexer skips is a gap, unless a comment stays open. -/
theorem skipTrivia_cases {n : ℕ} {l : List UInt8} (hn : l.length ≤ n) :
    (∃ gap, l = gap ++ skipTrivia n l ∧ Skippable (skipTrivia n l) gap ∧
      StartsToken (skipTrivia n l)) ∨
    ∃ gap body, l = gap ++ 0x2F :: 0x2A :: body ∧ Skippable (0x2F :: 0x2A :: body) gap ∧
      ¬ blockEnd <:+: body ∧
      (skipTrivia n l = [] ∨
        ∃ init last, body = init ++ [last] ∧ skipTrivia n l = [last] ∧ StartsToken [last]) := by
  fun_induction skipTrivia n l with
  | case1 l =>
    obtain rfl : l = [] := List.length_eq_zero_iff.mp (Nat.le_zero.mp hn)
    exact .inl ⟨[], rfl, .nil, trivial⟩
  | case2 => exact .inl ⟨[], rfl, .nil, trivial⟩
  | case3 n b rest h ih =>
    have hwhite : isWhite b = true := by
      rcases h with rfl | rfl | rfl | rfl <;> rfl
    rcases ih (Nat.le_of_succ_le_succ hn) with
      ⟨gap, heq, hgap, hstart⟩ | ⟨gap, body, rfl, hgap, hopen⟩
    · exact .inl ⟨b :: gap, by rw [List.cons_append, ← heq], .white hwhite hgap, hstart⟩
    · exact .inr ⟨b :: gap, body, rfl, .white hwhite hgap, hopen⟩
  | case4 n b rest hwhite h ih =>
    obtain ⟨rfl, hhead⟩ := h
    obtain ⟨r, rfl⟩ := List.head?_eq_some_iff.mp hhead
    obtain ⟨m, heq, hm, htail⟩ := dropWhile_eq_iff.mp
      (Eq.refl ((0x2F :: r).dropWhile (fun b : UInt8 => b != 0x0A)))
    revert ih heq htail
    generalize (0x2F :: r).dropWhile (fun b : UInt8 => b != 0x0A) = tail
    intro ih heq htail
    cases m with
    | nil =>
      subst heq
      exact absurd (htail 0x2F rfl) (by decide)
    | cons c body =>
      rw [List.cons_append, List.cons.injEq] at heq
      obtain ⟨rfl, rfl⟩ := heq
      have hbody : (0x0A : UInt8) ∉ body := fun hin => by
        simpa using hm _ (List.mem_cons_of_mem _ hin)
      have hlen : tail.length ≤ n := by
        simp only [List.length_append, List.length_cons] at hn
        omega
      -- the newline that ends the comment, if there is one, is in the gap behind it
      have hend : ∀ gap rest', tail = gap ++ rest' → (∀ b ∈ rest'.head?, isWhite b = false) →
          gap.head? = some 0x0A ∨ gap ++ rest' = [] := by
        rintro gap rest' rfl hrest
        cases gap with
        | cons b gap =>
          have hb := htail b rfl
          simp only [bne_eq_false_iff_eq] at hb
          exact .inl (congrArg some hb)
        | nil =>
          cases rest' with
          | nil => exact .inr rfl
          | cons b rest' =>
            have hb := htail b rfl
            simp only [bne_eq_false_iff_eq] at hb
            subst hb
            exact absurd (hrest 0x0A rfl) (by decide)
      rcases ih hlen with ⟨gap, hgap, hskip, hstart⟩ | ⟨gap, body', hgap, hskip, hopen⟩
      · refine .inl ⟨0x2F :: 0x2F :: (body ++ gap), ?_, .line hbody (hend _ _ hgap ?_) hskip,
          hstart⟩
        · rw [List.cons_append, List.cons_append, List.append_assoc, ← hgap]
        · intro b hb
          obtain ⟨rest', hrest⟩ := List.head?_eq_some_iff.mp (Option.mem_def.mp hb)
          rw [hrest] at hstart
          exact hstart.1
      · refine .inr ⟨0x2F :: 0x2F :: (body ++ gap), body', ?_,
          .line hbody (hend _ _ hgap ?_) hskip, hopen⟩
        · rw [List.cons_append, List.cons_append, List.append_assoc, ← hgap]
        · rintro b ⟨⟩
          rfl
  | case5 n b rest hwhite hline h ih =>
    obtain ⟨rfl, hhead⟩ := h
    obtain ⟨r, rfl⟩ := List.head?_eq_some_iff.mp hhead
    rw [List.drop_succ_cons, List.drop_zero] at ih ⊢
    rcases skipBlockComment_cases r with ⟨body, heq, hbody⟩ | ⟨hopen, hdrop⟩
    · have hlen : (skipBlockComment r).length ≤ n := by
        have hr := congrArg List.length heq
        simp only [List.length_append, List.length_cons] at hr hn
        omega
      rcases ih hlen with ⟨gap, hgap, hskip, hstart⟩ | ⟨gap, body', hgap, hskip, hopen⟩
      · refine .inl ⟨0x2F :: 0x2A :: (body ++ (blockEnd ++ gap)), ?_, .block hbody hskip, hstart⟩
        rw [List.cons_append, List.cons_append, List.append_assoc, List.append_assoc, ← hgap, ← heq]
      · refine .inr ⟨0x2F :: 0x2A :: (body ++ (blockEnd ++ gap)), body', ?_, .block hbody hskip,
          hopen⟩
        rw [List.cons_append, List.cons_append, List.append_assoc, List.append_assoc, ← hgap, ← heq]
    · refine .inr ⟨[], r, rfl, .nil, hopen, ?_⟩
      rw [hdrop]
      rcases List.eq_nil_or_concat r with rfl | ⟨init, last, rfl⟩
      · exact .inl (by cases n <;> rfl)
      · obtain ⟨n, rfl⟩ : ∃ m, n = m + 1 := ⟨n - 1, by
          simp only [List.concat_eq_append, List.length_cons, List.length_append] at hn
          omega⟩
        rw [List.concat_eq_append, List.length_append, List.length_singleton, Nat.add_sub_cancel,
          List.drop_left]
        exact (skipTrivia_singleton n last).imp_right fun h => ⟨init, last, rfl, h⟩
  | case6 n b rest hwhite hline hblock =>
    refine .inl ⟨[], rfl, .nil, ?_, ?_⟩
    · simpa [isWhite, not_or, and_assoc] using hwhite
    · rintro ⟨hb, h | h⟩
      · exact hline ⟨hb, h⟩
      · exact hblock ⟨hb, h⟩

end Lexer

end LatencyOS
