import LatencyOS.Lib.Str

/-!
# Slices at byte positions

A slice of a string is taken between two byte positions, which have to lie between
characters.  A scanner that moves byte by byte can stand inside a character, but not at an
ASCII byte.
-/

namespace LatencyOS

/-- `split_at`, unless the position is inside a character or behind the end. -/
def splitAtByte : Str → ℕ → Option (Str × Str)
  | s, 0 => some ([], s)
  | [], _ + 1 => none
  | c :: s, n + 1 =>
    if c.utf8Size ≤ n + 1 then
      (splitAtByte s (n + 1 - c.utf8Size)).map fun r => (c :: r.1, r.2)
    else none

/-- `&s[a..b]` -/
def strSlice (s : Str) (a b : ℕ) : Option Str :=
  if a ≤ b then do
    let r ← splitAtByte s a
    let r ← splitAtByte r.2 (b - a)
    some r.1
  else none

theorem splitAtByte_eq_some_iff {s u v : Str} {n : ℕ} :
    splitAtByte s n = some (u, v) ↔ s = u ++ v ∧ byteLen u = n := by
  induction s generalizing u n with
  | nil =>
    cases n with
    | zero =>
      simp only [splitAtByte, Option.some.injEq, Prod.mk.injEq]
      constructor
      · rintro ⟨rfl, rfl⟩
        exact ⟨rfl, rfl⟩
      · rintro ⟨h, -⟩
        obtain ⟨rfl, rfl⟩ := List.nil_eq_append_iff.mp h
        exact ⟨rfl, rfl⟩
    | succ n =>
      simp only [splitAtByte, reduceCtorEq, false_iff]
      rintro ⟨h, hlen⟩
      obtain ⟨rfl, rfl⟩ := List.nil_eq_append_iff.mp h
      cases hlen
  | cons c s ih =>
    have hpos := c.utf8Size_pos
    cases n with
    | zero =>
      simp only [splitAtByte, Option.some.injEq, Prod.mk.injEq]
      constructor
      · rintro ⟨rfl, rfl⟩
        exact ⟨rfl, rfl⟩
      · rintro ⟨h, hlen⟩
        cases u with
        | nil => exact ⟨rfl, h⟩
        | cons d u =>
          rw [byteLen_cons] at hlen
          have hd := d.utf8Size_pos
          omega
    | succ n =>
      rw [splitAtByte]
      constructor
      · intro h
        split at h
        · next hle =>
          obtain ⟨⟨u', v'⟩, hsplit, heq⟩ := Option.map_eq_some_iff.mp h
          cases heq
          obtain ⟨rfl, hlen⟩ := ih.mp hsplit
          refine ⟨rfl, ?_⟩
          rw [byteLen_cons, hlen]
          omega
        · cases h
      · rintro ⟨h, hlen⟩
        cases u with
        | nil => cases hlen
        | cons d u =>
          cases h
          rw [byteLen_cons] at hlen
          rw [if_pos (by omega), ih.mpr ⟨rfl, by omega⟩]
          rfl

/-- A slice is what lies between the two positions. -/
theorem strSlice_eq_some_iff {s m : Str} {a b : ℕ} :
    strSlice s a b = some m ↔ ∃ u v, s = u ++ m ++ v ∧ byteLen u = a ∧ byteLen (u ++ m) = b := by
  unfold strSlice
  constructor
  · intro h
    split at h
    · next hle =>
      obtain ⟨⟨u, r⟩, hu, h⟩ := Option.bind_eq_some_iff.mp h
      obtain ⟨⟨m', v⟩, hm, h⟩ := Option.bind_eq_some_iff.mp h
      cases h
      obtain ⟨rfl, rfl⟩ := splitAtByte_eq_some_iff.mp hu
      obtain ⟨rfl, hlen⟩ := splitAtByte_eq_some_iff.mp hm
      refine ⟨u, v, (List.append_assoc _ _ _).symm, rfl, ?_⟩
      rw [byteLen_append, hlen]
      omega
    · cases h
  · rintro ⟨u, v, rfl, rfl, rfl⟩
    have hlen : byteLen (u ++ m) - byteLen u = byteLen m := by
      rw [byteLen_append, Nat.add_sub_cancel_left]
    rw [if_pos (by simp), List.append_assoc, splitAtByte_eq_some_iff.mpr ⟨rfl, rfl⟩, hlen]
    simp only [Option.bind_eq_bind, Option.bind_some]
    rw [splitAtByte_eq_some_iff.mpr ⟨rfl, rfl⟩]
    rfl

/-- A slice from between two characters on. -/
theorem strSlice_append (u r : Str) (k : ℕ) :
    strSlice (u ++ r) (byteLen u) (byteLen u + k) = (splitAtByte r k).map Prod.fst := by
  rw [strSlice, if_pos (Nat.le_add_right _ _), splitAtByte_eq_some_iff.mpr ⟨rfl, rfl⟩,
    Nat.add_sub_cancel_left]
  simp only [Option.bind_eq_bind, Option.bind_some, Option.map_eq_bind]
  rfl

/-! ## ASCII bytes -/

/-- A byte inside a character. -/
def isContinuation (b : UInt8) : Bool := 0x80 ≤ b && b < 0xC0

/-- Either a character is one ASCII byte, or it has a first byte and others inside it. -/
theorem utf8EncodeChar_cases (c : Char) :
    (c.toNat < 128 ∧ String.utf8EncodeChar c = [UInt8.ofNat c.toNat]) ∨
    (128 ≤ c.toNat ∧ ∃ b cont, String.utf8EncodeChar c = b :: cont ∧ 0xC0 ≤ b ∧ cont ≠ [] ∧
      ∀ x ∈ cont, isContinuation x = true) := by
  have hinside : ∀ n, n < 64 → isContinuation (UInt8.ofNat (n + 128)) = true := by decide +kernel
  have hfirst : ∀ k < 64, 0xC0 ≤ UInt8.ofNat (k + 192) := by decide +kernel
  have hmod : ∀ n, n % 64 < 64 := fun n => Nat.mod_lt n (by decide)
  have hval : c.val.toNat = c.toNat := rfl
  unfold String.utf8EncodeChar
  rw [hval]
  dsimp only
  by_cases h₁ : c.toNat ≤ 127
  · exact .inl ⟨by omega, if_pos h₁⟩
  · refine .inr ⟨by omega, ?_⟩
    rw [if_neg h₁]
    by_cases h₂ : c.toNat ≤ 0x7FF
    · rw [if_pos h₂]
      refine ⟨_, _, rfl, hfirst _ (by omega), List.cons_ne_nil _ _, ?_⟩
      simp only [List.forall_mem_cons, List.not_mem_nil, false_imp_iff, implies_true, and_true]
      exact hinside _ (hmod _)
    · rw [if_neg h₂]
      by_cases h₃ : c.toNat ≤ 0xFFFF
      · rw [if_pos h₃]
        refine ⟨_, _, rfl, ?_, List.cons_ne_nil _ _, ?_⟩
        · exact hfirst (c.toNat / 4096 % 16 + 32) (by omega)
        · simp only [List.forall_mem_cons, List.not_mem_nil, false_imp_iff, implies_true, and_true]
          exact ⟨hinside _ (hmod _), hinside _ (hmod _)⟩
      · rw [if_neg h₃]
        refine ⟨_, _, rfl, ?_, List.cons_ne_nil _ _, ?_⟩
        · exact hfirst (c.toNat / 262144 % 8 + 48) (by omega)
        · simp only [List.forall_mem_cons, List.not_mem_nil, false_imp_iff, implies_true, and_true]
          exact ⟨hinside _ (hmod _), hinside _ (hmod _), hinside _ (hmod _)⟩

/-- A property of ASCII bytes, of characters. -/
def onAscii (p : UInt8 → Bool) (c : Char) : Bool :=
  decide (c.toNat < 128) && p (UInt8.ofNat c.toNat)

theorem ofNat_toNat_inj {c d : Char} (hc : c.toNat < 128) (hd : d.toNat < 128) :
    UInt8.ofNat c.toNat = UInt8.ofNat d.toNat ↔ c = d := by
  constructor
  · intro h
    have hnat := congrArg UInt8.toNat h
    rw [UInt8.toNat_ofNat', UInt8.toNat_ofNat', Nat.mod_eq_of_lt (by omega),
      Nat.mod_eq_of_lt (by omega)] at hnat
    rw [← Char.ofNat_toNat c, hnat, Char.ofNat_toNat]
  · rintro rfl
    rfl

theorem onAscii_of_lt (p : UInt8 → Bool) {c : Char} (hc : c.toNat < 128) :
    onAscii p c = p (UInt8.ofNat c.toNat) := by
  rw [onAscii, decide_eq_true hc, Bool.true_and]

theorem onAscii_of_le (p : UInt8 → Bool) {c : Char} (hc : 128 ≤ c.toNat) : onAscii p c = false := by
  rw [onAscii, decide_eq_false (Nat.not_lt.mpr hc), Bool.false_and]

section Classes
variable {p : UInt8 → Bool} (hp : ∀ b, p b = true → b < 0x80)
include hp

/-- Behind the longest stretch of ASCII bytes of a class a character starts. -/
theorem utf8_dropWhile (s : Str) : (utf8 s).dropWhile p = utf8 (s.dropWhile (onAscii p)) := by
  induction s with
  | nil => rfl
  | cons c s ih =>
    rw [utf8_cons, List.dropWhile_cons]
    rcases utf8EncodeChar_cases c with ⟨hc, hbytes⟩ | ⟨hc, b, cont, hbytes, hb, -, -⟩
    · rw [hbytes, List.singleton_append, List.dropWhile_cons, onAscii_of_lt p hc, ih]
      split
      · rfl
      · rw [utf8_cons, hbytes]
        rfl
    · have hnot : ¬ p b = true := fun h =>
        absurd (UInt8.lt_of_le_of_lt hb (hp b h)) (by decide)
      rw [hbytes, List.cons_append, List.dropWhile_cons_of_neg hnot, onAscii_of_le p hc,
        if_neg Bool.false_ne_true, utf8_cons, hbytes]
      rfl

theorem any_head_utf8 (s : Str) : (utf8 s).head?.any p = s.head?.any (onAscii p) := by
  cases s with
  | nil => rfl
  | cons c s =>
    rw [utf8_cons]
    rcases utf8EncodeChar_cases c with ⟨hc, hbytes⟩ | ⟨hc, b, cont, hbytes, hb, -, -⟩
    · simp [hbytes, onAscii_of_lt p hc]
    · have hnot : p b = false := Bool.eq_false_iff.mpr fun h =>
        absurd (UInt8.lt_of_le_of_lt hb (hp b h)) (by decide)
      simp [hbytes, onAscii_of_le p hc, hnot]

end Classes

/-- An ASCII character in front of a string is its first byte. -/
theorem head_utf8_iff {d : Char} (hd : d.toNat < 128) (s : Str) :
    (utf8 s).head? = some (UInt8.ofNat d.toNat) ↔ s.head? = some d := by
  cases s with
  | nil => simp
  | cons c s =>
    rw [utf8_cons]
    rcases utf8EncodeChar_cases c with ⟨hc, hbytes⟩ | ⟨hc, b, cont, hbytes, hb, -, -⟩
    · simp [hbytes, ofNat_toNat_inj hc hd]
    · have hne : b ≠ UInt8.ofNat d.toNat := by
        rintro rfl
        rw [UInt8.le_iff_toNat_le, UInt8.toNat_ofNat', Nat.mod_eq_of_lt (by omega)] at hb
        have hval : (0xC0 : UInt8).toNat = 192 := rfl
        omega
      have hne' : c ≠ d := by
        rintro rfl
        omega
      simp [hbytes, hne, hne']

theorem drop_one_utf8 {d : Char} (hd : d.toNat < 128) {s : Str} (h : s.head? = some d) :
    (utf8 s).drop 1 = utf8 (s.drop 1) := by
  obtain ⟨r, rfl⟩ := List.head?_eq_some_iff.mp h
  rcases utf8EncodeChar_cases d with ⟨-, hbytes⟩ | ⟨hd', -⟩
  · rw [utf8_cons, hbytes]
    rfl
  · omega

/-! ## Bytes behind a position -/

/-- The bytes behind a position are those left of a character and then whole characters. -/
def Behind (bs : List UInt8) (s : Str) : Prop :=
  ∃ cont, (∀ x ∈ cont, isContinuation x = true) ∧ bs = cont ++ utf8 s

theorem Behind.of_utf8 (s : Str) : Behind (utf8 s) s := ⟨[], by simp, rfl⟩

theorem Behind.nil {s : Str} (h : Behind [] s) : s = [] := by
  obtain ⟨cont, -, h⟩ := h
  cases s with
  | nil => rfl
  | cons c s =>
    have hlen := congrArg List.length h
    simp only [utf8_cons, List.length_append, String.length_utf8EncodeChar, List.length_nil] at hlen
    have hpos := c.utf8Size_pos
    omega

/-- At a position there is a byte inside a character, an ASCII character, or the first byte
of a longer one. -/
theorem Behind.cons_cases {b : UInt8} {bs : List UInt8} {s : Str} (h : Behind (b :: bs) s) :
    (isContinuation b = true ∧ Behind bs s) ∨
    (∃ c r, s = c :: r ∧ c.toNat < 128 ∧ b = UInt8.ofNat c.toNat ∧ bs = utf8 r) ∨
    ∃ c r, s = c :: r ∧ 128 ≤ c.toNat ∧ 0xC0 ≤ b ∧ Behind bs r := by
  obtain ⟨cont, hcont, h⟩ := h
  cases cont with
  | cons x cont =>
    cases h
    rw [List.forall_mem_cons] at hcont
    exact .inl ⟨hcont.1, cont, hcont.2, rfl⟩
  | nil =>
    cases s with
    | nil => cases h
    | cons c r =>
      rw [List.nil_append, utf8_cons] at h
      rcases utf8EncodeChar_cases c with ⟨hc, hbytes⟩ | ⟨hc, b', cont, hbytes, hb, -, hinside⟩
      · rw [hbytes] at h
        cases h
        exact .inr (.inl ⟨c, r, rfl, hc, rfl, rfl⟩)
      · rw [hbytes] at h
        cases h
        exact .inr (.inr ⟨c, r, rfl, hc, hb, cont, hinside, rfl⟩)

end LatencyOS
