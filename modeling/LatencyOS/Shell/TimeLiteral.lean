import LatencyOS.Compiler.Lexer
import LatencyOS.Lib.Str

/-!
# Time literals

A number and a unit are a time for the language and for the shell.  The lexer collects the digits
with wrapping arithmetic, the shell has `parse::<u64>` reject what fits no word; both scale the
number to nanoseconds in one word.
-/

namespace LatencyOS

open Format

namespace Shell

/-! ## `parse_time_ns` -/

/-- The value of a row of decimal digits. -/
def digitsValue (digits : Str) : ℕ := digits.foldl (fun v c => v * 10 + (c.toNat - 0x30)) 0

/-- `parse::<u64>().ok()`: digits, behind an optional plus sign. -/
def parseU64 (s : Str) : Option ℕ :=
  let digits := if s.head? = some '+' then s.tail else s
  if digits ≠ [] ∧ digits.all Char.isDigit = true ∧ digitsValue digits < 2 ^ 64 then
    some (digitsValue digits)
  else none

/-- `strip_suffix`. -/
def stripSuffix (s suffix : Str) : Option Str :=
  if suffix <:+ s then some (s.take (s.length - suffix.length)) else none

/-- `map(|v| v * scale)`; a build with overflow checks panics where the product fits no word. -/
def scaled (checks : Bool) (v : Option ℕ) (scale : ℕ) : Except Abort (Option ℕ) :=
  match v with
  | none => .ok none
  | some v =>
    if v * scale < 2 ^ 64 then .ok (some (v * scale))
    else if checks then .error .panic
    else .ok (some (v * scale % 2 ^ 64))

/-- `parse_time_ns` -/
def parseTimeNs (checks : Bool) (s : Str) : Except Abort (Option ℕ) :=
  let s := trim s
  if s = [] then .ok none
  else
    match stripSuffix s (text "ns") with
    | some val => .ok (parseU64 val)
    | none =>
      match stripSuffix s (text "us") with
      | some val => scaled checks (parseU64 val) 1000
      | none =>
        match stripSuffix s (text "ms") with
        | some val => scaled checks (parseU64 val) 1000000
        | none =>
          match stripSuffix s (text "s") with
          | some val => scaled checks (parseU64 val) 1000000000
          | none => .ok (parseU64 s)

/-! ## Texts of times -/

/-- The units of time. -/
inductive TimeUnit
  | ns | us | ms | s
  deriving DecidableEq

namespace TimeUnit

def suffix : TimeUnit → Str
  | ns => text "ns"
  | us => text "us"
  | ms => text "ms"
  | s => text "s"

def nanoseconds : TimeUnit → ℕ
  | ns => 1
  | us => 1000
  | ms => 1000000
  | s => 1000000000

end TimeUnit

/-- The character of a decimal digit. -/
def digitChar (d : Fin 10) : Char := Char.ofNat (0x30 + d)

/-- The number decimal digits denote. -/
def decimalValue (digits : List (Fin 10)) : ℕ :=
  digits.foldl (fun (v : ℕ) (d : Fin 10) => v * 10 + d.val) 0

/-- Digits with a unit behind them. -/
def timeText (digits : List (Fin 10)) (u : TimeUnit) : Str := digits.map digitChar ++ u.suffix

/-- A kind of token that is a number. -/
def IsNumeric : TokenKind → Prop
  | .number _ | .floatLit _ _ | .timeLiteral _ => True
  | _ => False

/-- The lexer reads a text as one time. -/
def LexesAs (checks : Bool) (room : ℕ) (s : Str) (ns : ℕ) : Prop :=
  ∃ v : Word64, v.toNat = ns ∧ ∃ toks, Lexer.tokenize (utf8 s) checks room = .ok toks ∧
    toks.map (·.kind) = [.timeLiteral v, .eof]

/-- The lexer takes no part of a text for a number, or reports an error. -/
def LexRejects (checks : Bool) (room : ℕ) (s : Str) : Prop :=
  (∃ e, Lexer.tokenize (utf8 s) checks room = .error (.error e)) ∨
    ∃ toks, Lexer.tokenize (utf8 s) checks room = .ok toks ∧ ∀ tok ∈ toks, ¬ IsNumeric tok.kind

/-- Both readers take digits and a unit for exactly that time, or both reject them. -/
def ReadsExactly (checks : Bool) (room : ℕ) (digits : List (Fin 10)) (u : TimeUnit) : Prop :=
  let ns := decimalValue digits * u.nanoseconds
  (LexesAs checks room (timeText digits u) ns ∧
      parseTimeNs checks (timeText digits u) = .ok (some ns)) ∨
    (LexRejects checks room (timeText digits u) ∧
      parseTimeNs checks (timeText digits u) = .ok none)

/-! ## What the shell reads -/

theorem digitChar_isDigit (d : Fin 10) : (digitChar d).isDigit = true := by
  revert d
  decide

theorem digitChar_ne_plus (d : Fin 10) : digitChar d ≠ '+' := by
  revert d
  decide

theorem digitChar_toNat (d : Fin 10) : (digitChar d).toNat - 0x30 = d := by
  revert d
  decide

theorem digitChar_not_white (d : Fin 10) : isWhitespace (digitChar d) = false := by
  revert d
  decide

theorem utf8_digitChar (d : Fin 10) :
    String.utf8EncodeChar (digitChar d) = [UInt8.ofNat (0x30 + d)] := by
  revert d
  decide

theorem digitsValue_map (digits : List (Fin 10)) :
    digitsValue (digits.map digitChar) = decimalValue digits := by
  have hstep : (fun (v : ℕ) (d : Fin 10) => v * 10 + ((digitChar d).toNat - 0x30)) =
      fun (v : ℕ) (d : Fin 10) => v * 10 + d.val := by
    ext v d
    rw [digitChar_toNat]
  rw [digitsValue, decimalValue, List.foldl_map, hstep]

/-- Decimal digits are read as their value, if it fits a word. -/
theorem parseU64_digits (digits : List (Fin 10)) :
    parseU64 (digits.map digitChar) =
      if digits ≠ [] ∧ decimalValue digits < 2 ^ 64 then some (decimalValue digits) else none := by
  have hsign : (digits.map digitChar).head? ≠ some '+' := by
    cases digits with
    | nil => simp
    | cons d digits => simpa using digitChar_ne_plus d
  have hall : (digits.map digitChar).all Char.isDigit = true := by
    rw [List.all_eq_true]
    intro c hc
    obtain ⟨d, -, rfl⟩ := List.mem_map.mp hc
    exact digitChar_isDigit d
  simp only [parseU64, hsign, if_false, hall, true_and, digitsValue_map, ne_eq, List.map_eq_nil_iff]

theorem trim_timeText (digits : List (Fin 10)) (u : TimeUnit) :
    trim (timeText digits u) = timeText digits u := by
  have hlast : (timeText digits u).getLast? = some 's' := by
    cases u <;> simp [timeText, TimeUnit.suffix, text]
  cases digits with
  | nil =>
    cases u with
    | ns => exact trim_eq_self (c := 'n') rfl hlast (by decide) (by decide)
    | us => exact trim_eq_self (c := 'u') rfl hlast (by decide) (by decide)
    | ms => exact trim_eq_self (c := 'm') rfl hlast (by decide) (by decide)
    | s => exact trim_eq_self (c := 's') rfl hlast (by decide) (by decide)
  | cons d digits => exact trim_eq_self rfl hlast (digitChar_not_white d) (by decide)

theorem stripSuffix_append (s suffix : Str) : stripSuffix (s ++ suffix) suffix = some s := by
  rw [stripSuffix, if_pos (List.suffix_append s suffix), List.length_append, Nat.add_sub_cancel,
    List.take_left]

/-- A suffix of two characters is the last two. -/
theorem stripSuffix_pair {a b c d : Char} (s : Str) (h : ¬ (a = c ∧ b = d)) :
    stripSuffix (s ++ [c, d]) [a, b] = none := by
  apply if_neg
  intro hsuffix
  rw [← List.reverse_prefix] at hsuffix
  simp only [List.reverse_append, List.reverse_cons, List.reverse_nil, List.nil_append,
    List.cons_append, List.cons_prefix_cons] at hsuffix
  exact h ⟨hsuffix.2.1, hsuffix.1⟩

/-- The letter of a longer unit is no digit. -/
theorem stripSuffix_letter {a : Char} (digits : List (Fin 10)) (h : a.isDigit = false) :
    stripSuffix (digits.map digitChar ++ ['s']) [a, 's'] = none := by
  apply if_neg
  intro hsuffix
  rw [← List.reverse_prefix] at hsuffix
  simp only [List.reverse_append, List.reverse_cons, List.reverse_nil, List.nil_append,
    List.cons_append, List.cons_prefix_cons] at hsuffix
  have hmem : a ∈ (digits.map digitChar).reverse :=
    hsuffix.2.subset (List.mem_singleton_self a)
  obtain ⟨d, -, rfl⟩ := List.mem_map.mp (List.mem_reverse.mp hmem)
  rw [digitChar_isDigit] at h
  cases h

/-- The shell scales the digits by the unit. -/
theorem parseTimeNs_timeText (checks : Bool) (digits : List (Fin 10)) (u : TimeUnit) :
    parseTimeNs checks (timeText digits u) =
      scaled checks (parseU64 (digits.map digitChar)) u.nanoseconds := by
  have hne : timeText digits u ≠ [] := by
    cases u <;> simp [timeText, TimeUnit.suffix, text]
  rw [parseTimeNs]
  simp only [trim_timeText, hne, if_false]
  cases u with
  | ns =>
    rw [timeText, TimeUnit.suffix, stripSuffix_append, TimeUnit.nanoseconds]
    dsimp only
    rw [parseU64_digits]
    by_cases h : digits ≠ [] ∧ decimalValue digits < 2 ^ 64
    · rw [if_pos h, scaled]
      simp only [Nat.mul_one, h.2, if_true]
    · rw [if_neg h, scaled]
  | us =>
    have hns := stripSuffix_pair (digits.map digitChar) (a := 'n') (b := 's') (c := 'u') (d := 's')
      (by decide)
    rw [timeText, TimeUnit.suffix, show text "us" = ['u', 's'] from rfl,
      show text "ns" = ['n', 's'] from rfl, hns, stripSuffix_append]
    rfl
  | ms =>
    have hns := stripSuffix_pair (digits.map digitChar) (a := 'n') (b := 's') (c := 'm') (d := 's')
      (by decide)
    have hus := stripSuffix_pair (digits.map digitChar) (a := 'u') (b := 's') (c := 'm') (d := 's')
      (by decide)
    rw [timeText, TimeUnit.suffix, show text "ms" = ['m', 's'] from rfl,
      show text "us" = ['u', 's'] from rfl, show text "ns" = ['n', 's'] from rfl, hns, hus,
      stripSuffix_append]
    rfl
  | s =>
    rw [timeText, TimeUnit.suffix, show text "s" = ['s'] from rfl,
      show text "ms" = ['m', 's'] from rfl, show text "us" = ['u', 's'] from rfl,
      show text "ns" = ['n', 's'] from rfl, stripSuffix_letter digits (by decide),
      stripSuffix_letter digits (by decide), stripSuffix_letter digits (by decide),
      stripSuffix_append]
    rfl

/-! ## What the lexer reads -/

/-- The byte of a decimal digit. -/
def digitByte (d : Fin 10) : UInt8 := UInt8.ofNat (0x30 + d)

theorem utf8_timeText (digits : List (Fin 10)) (u : TimeUnit) :
    utf8 (timeText digits u) = digits.map digitByte ++ utf8 u.suffix := by
  rw [timeText, utf8_append]
  congr 1
  induction digits with
  | nil => rfl
  | cons d digits ih =>
    rw [List.map_cons, utf8_cons, utf8_digitChar, ih]
    rfl

theorem digitByte_isDigit (d : Fin 10) : Lexer.isDigit (digitByte d) = true := by
  revert d
  decide

theorem digitByte_toNat (d : Fin 10) : (digitByte d).toNat - 0x30 = d := by
  revert d
  decide

/-- The lexer's number is the value of the digits modulo the words. -/
theorem decNumber_digits (digits : List (Fin 10)) :
    (Lexer.decNumber (digits.map digitByte)).toNat = decimalValue digits % 2 ^ 64 := by
  induction digits using List.reverseRecOn with
  | nil => rfl
  | append_singleton digits d ih =>
    have hstep : Lexer.decNumber ((digits ++ [d]).map digitByte) =
        Lexer.decNumber (digits.map digitByte) * 10#64 + BitVec.ofNat 64 d := by
      rw [List.map_append, Lexer.decNumber, List.foldl_append, ← Lexer.decNumber,
        List.map_singleton, List.foldl_cons, List.foldl_nil, digitByte_toNat]
    have hvalue : decimalValue (digits ++ [d]) = decimalValue digits * 10 + d := by
      rw [decimalValue, List.foldl_append, ← decimalValue, List.foldl_cons, List.foldl_nil]
    rw [hstep, hvalue, BitVec.toNat_add, BitVec.toNat_mul, ih, BitVec.toNat_ofNat,
      BitVec.toNat_ofNat]
    omega

/-- The unit is found behind the digits. -/
theorem numberRest_suffix (checks : Bool) (num : Word64) (u : TimeUnit) :
    Lexer.numberRest checks num (utf8 u.suffix) =
      if checks = true ∧ 2 ^ 64 ≤ num.toNat * u.nanoseconds then .error .panic
      else .ok (.timeLiteral (num * BitVec.ofNat 64 u.nanoseconds), []) := by
  cases u <;> rfl

theorem takeWhile_suffix (u : TimeUnit) : (utf8 u.suffix).takeWhile Lexer.isDigit = [] := by
  cases u <;> rfl

/-- Digits and a unit are one token. -/
theorem token_timeText (checks : Bool) (d : Fin 10) (digits : List (Fin 10)) (u : TimeUnit) :
    Lexer.token checks (utf8 (timeText (d :: digits) u)) =
      (Lexer.numberRest checks (Lexer.decNumber ((d :: digits).map digitByte))
        (utf8 u.suffix)).map fun r => (some r.1, r.2) := by
  have hquote : digitByte d ≠ 0x22 := by
    revert d
    decide
  have hunit : ((utf8 u.suffix).head?.any Lexer.isDigit) = false := by
    cases u <;> decide
  have hx : ∀ x ∈ [(0x78 : UInt8), 0x58],
      (digits.map digitByte ++ utf8 u.suffix).head? ≠ some x := by
    intro x hx
    have hletter : x = 0x78 ∨ x = 0x58 := by simpa only [List.mem_cons, List.not_mem_nil,
      or_false] using hx
    cases digits with
    | nil =>
      rcases hletter with rfl | rfl <;> cases u <;> decide
    | cons e digits =>
      simp only [List.map_cons, List.cons_append, List.head?_cons, ne_eq, Option.some.injEq]
      intro heq
      have hdigit := digitByte_isDigit e
      rw [heq] at hdigit
      rcases hletter with rfl | rfl <;> exact absurd hdigit (by decide)
  have htake : ((d :: digits).map digitByte ++ utf8 u.suffix).takeWhile Lexer.isDigit =
      (d :: digits).map digitByte := by
    rw [List.takeWhile_append_of_pos, takeWhile_suffix, List.append_nil]
    intro b hb
    obtain ⟨e, -, rfl⟩ := List.mem_map.mp hb
    exact digitByte_isDigit e
  rw [utf8_timeText, Lexer.token.eq_def]
  simp only [List.map_cons, List.cons_append] at htake ⊢
  rw [if_neg hquote, if_pos (digitByte_isDigit d), Lexer.number, if_neg, htake]
  · simp
  · rintro ⟨-, hsecond⟩
    exact hsecond.elim (hx 0x78 (by simp)) (hx 0x58 (by simp))

theorem skipTrivia_timeText (digits : List (Fin 10)) (u : TimeUnit) :
    Lexer.skipTrivia (utf8 (timeText digits u)).length (utf8 (timeText digits u)) =
      utf8 (timeText digits u) := by
  rw [utf8_timeText]
  cases digits with
  | nil => cases u <;> rfl
  | cons d digits =>
    have hwhite : ¬ (digitByte d = 0x20 ∨ digitByte d = 0x09 ∨ digitByte d = 0x0D ∨
        digitByte d = 0x0A) := by
      revert d
      decide
    have hslash : digitByte d ≠ 0x2F := by
      revert d
      decide
    rw [List.map_cons, List.cons_append, List.length_cons, Lexer.skipTrivia]
    simp only [hwhite, hslash, false_and, if_false]

theorem utf8_timeText_ne_nil (digits : List (Fin 10)) (u : TimeUnit) :
    utf8 (timeText digits u) ≠ [] := by
  rw [utf8_timeText]
  cases u <;> simp [TimeUnit.suffix, text, String.utf8EncodeChar]

/-- The lexer on digits with a unit: the product of two words. -/
theorem tokenize_timeText (checks : Bool) (room : ℕ) (d : Fin 10) (digits : List (Fin 10))
    (u : TimeUnit) :
    let num := Lexer.decNumber ((d :: digits).map digitByte)
    if checks = true ∧ 2 ^ 64 ≤ num.toNat * u.nanoseconds then
      Lexer.tokenize (utf8 (timeText (d :: digits) u)) checks (room + 2) = .error .panic
    else
      ∃ toks, Lexer.tokenize (utf8 (timeText (d :: digits) u)) checks (room + 2) = .ok toks ∧
        toks.map (·.kind) = [.timeLiteral (num * BitVec.ofNat 64 u.nanoseconds), .eof] := by
  have htoken := token_timeText checks d digits u
  rw [numberRest_suffix] at htoken
  dsimp only
  split
  · next h =>
    rw [if_pos h] at htoken
    exact Lexer.tokenize_of_abort (Nat.le_add_left 2 room) (skipTrivia_timeText _ u)
      (utf8_timeText_ne_nil _ u) htoken
  · next h =>
    rw [if_neg h] at htoken
    exact ⟨_, Lexer.tokenize_of_single (Nat.le_add_left 2 room) (skipTrivia_timeText _ u)
      (utf8_timeText_ne_nil _ u) htoken, rfl⟩

/-! ## Exact times -/

/-- Without a digit, neither reads a time. -/
theorem readsExactly_nil (checks : Bool) (room : ℕ) (u : TimeUnit) :
    ReadsExactly checks (room + 2) [] u := by
  refine .inr ⟨.inr ?_, ?_⟩
  · have htoken : Lexer.token checks (utf8 (timeText [] u)) = .ok (some .ident, []) := by
      cases u <;> rfl
    refine ⟨_, Lexer.tokenize_of_single (Nat.le_add_left 2 room) (skipTrivia_timeText _ u)
      (utf8_timeText_ne_nil _ u) htoken, ?_⟩
    intro tok htok
    simp only [List.mem_cons, List.not_mem_nil, or_false] at htok
    rcases htok with rfl | rfl <;> exact not_false
  · rw [parseTimeNs_timeText]
    rfl

/-- What a word holds fits it, and the lexer rejects no digits. -/
theorem lt_of_readsExactly {checks : Bool} {room : ℕ} {digits : List (Fin 10)} {u : TimeUnit}
    (h : ReadsExactly checks (room + 2) digits u) :
    decimalValue digits * u.nanoseconds < 2 ^ 64 := by
  cases digits with
  | nil =>
    rw [decimalValue, List.foldl_nil, Nat.zero_mul]
    decide
  | cons d digits =>
    have hlex := tokenize_timeText checks room d digits u
    dsimp only at hlex
    rcases h with ⟨⟨v, hv, -⟩, -⟩ | ⟨hreject, -⟩
    · rw [← hv]
      exact v.isLt
    · exfalso
      split at hlex
      · rcases hreject with ⟨e, he⟩ | ⟨toks, htoks, -⟩
        · rw [hlex] at he
          cases he
        · rw [hlex] at htoks
          cases htoks
      · obtain ⟨toks, htoks, hkinds⟩ := hlex
        rcases hreject with ⟨e, he⟩ | ⟨toks', htoks', hall⟩
        · rw [htoks] at he
          cases he
        · rw [htoks] at htoks'
          cases htoks'
          cases toks with
          | nil => cases hkinds
          | cons tok toks =>
            have hkind : tok.kind = _ := (List.cons.inj hkinds).1
            apply hall tok List.mem_cons_self
            rw [hkind]
            trivial

/-- **Digits and a unit denote exactly that time** for the lexer and the shell, or are rejected by
both, if and only if the time fits a word. -/
theorem readsExactly_iff (checks : Bool) (room : ℕ) (digits : List (Fin 10)) (u : TimeUnit) :
    ReadsExactly checks (room + 2) digits u ↔ decimalValue digits * u.nanoseconds < 2 ^ 64 := by
  constructor
  · exact lt_of_readsExactly
  · intro h
    cases digits with
    | nil => exact readsExactly_nil checks room u
    | cons d digits =>
      have hlex := tokenize_timeText checks room d digits u
      have hunit : 0 < u.nanoseconds := by cases u <;> decide
      have hword : u.nanoseconds % 2 ^ 64 = u.nanoseconds := by cases u <;> rfl
      have hvalue : decimalValue (d :: digits) < 2 ^ 64 :=
        lt_of_le_of_lt (Nat.le_mul_of_pos_right _ hunit) h
      have hnum : (Lexer.decNumber ((d :: digits).map digitByte)).toNat =
          decimalValue (d :: digits) := by
        rw [decNumber_digits, Nat.mod_eq_of_lt hvalue]
      dsimp only at hlex
      rw [hnum, if_neg (fun hover => absurd h (Nat.not_lt.mpr hover.2))] at hlex
      refine .inl ⟨⟨_, ?_, hlex⟩, ?_⟩
      · rw [BitVec.toNat_mul, hnum, BitVec.toNat_ofNat, hword, Nat.mod_eq_of_lt h]
      · have hdigits : d :: digits ≠ [] ∧ decimalValue (d :: digits) < 2 ^ 64 :=
          ⟨List.cons_ne_nil d digits, hvalue⟩
        rw [parseTimeNs_timeText, parseU64_digits, if_pos hdigits, scaled]
        simp only [h, if_true]

/-- `18446744073709551616ns`: the shell rejects it, the lexer wraps it to zero. -/
theorem twoPow64_misread :
    ¬ ∀ (checks : Bool) (room : ℕ) (digits : List (Fin 10)) (u : TimeUnit),
      ReadsExactly checks (room + 2) digits u := by
  intro h
  have hfits := lt_of_readsExactly
    (h false 0 [1, 8, 4, 4, 6, 7, 4, 4, 0, 7, 3, 7, 0, 9, 5, 5, 1, 6, 1, 6] .ns)
  exact absurd hfits (by decide)

end Shell

end LatencyOS
