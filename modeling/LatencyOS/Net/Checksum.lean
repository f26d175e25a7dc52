import LatencyOS.Net.Stream

/-!
# The checksum of an IPv4 header

The words of a header are added as numbers; folding the carries keeps the sum modulo `65535`, where
both `0` and `65535` stand for zero.  A header verifies when its words, the checksum among them, sum
to a positive multiple of `65535`.
-/

namespace LatencyOS.Net

open Buffer

@[simp] theorem length_be16 (n : UInt16) : (be16 n).length = 2 := rfl

theorem toNat_be16 (n : UInt16) : (n >>> 8).toUInt8.toNat * 256 + n.toUInt8.toNat = n.toNat := by
  have hn := n.toNat_lt
  have hhigh : (n >>> 8).toNat = n.toNat / 256 := by
    rw [UInt16.toNat_shiftRight, Nat.shiftRight_eq_div_pow]
    rfl
  rw [UInt16.toNat_toUInt8, UInt16.toNat_toUInt8, hhigh]
  omega

/-- The sum of the words of a header. -/
def wordSum : List UInt8 → ℕ
  | hi :: lo :: rest => hi.toNat * 256 + lo.toNat + wordSum rest
  | _ => 0

theorem toNat_word (hi lo : UInt8) :
    (hi.toUInt32 <<< 8 ||| lo.toUInt32).toNat = hi.toNat * 256 + lo.toNat := by
  have hhi := hi.toNat_lt
  have hlo := lo.toNat_lt
  have hshift : (hi.toUInt32 <<< 8).toNat = hi.toNat <<< 8 := by
    rw [UInt32.toNat_shiftLeft, UInt8.toNat_toUInt32]
    change hi.toNat <<< 8 % 2 ^ 32 = _
    rw [Nat.shiftLeft_eq]
    exact Nat.mod_eq_of_lt (by omega)
  rw [UInt32.toNat_or, hshift, UInt8.toNat_toUInt32, ← Nat.shiftLeft_add_eq_or_of_lt hlo,
    Nat.shiftLeft_eq]

theorem toNat_add_word {sum : UInt32} {hi lo : UInt8}
    (hfits : sum.toNat + (hi.toNat * 256 + lo.toNat) < 4294967296) :
    (sum + (hi.toUInt32 <<< 8 ||| lo.toUInt32)).toNat =
      sum.toNat + (hi.toNat * 256 + lo.toNat) := by
  rw [UInt32.toNat_add, toNat_word]
  exact Nat.mod_eq_of_lt hfits

theorem wordSum_le (bytes : List UInt8) : wordSum bytes ≤ bytes.length * 65536 := by
  induction bytes using wordSum.induct with
  | case1 hi lo rest ih =>
    have hhi := hi.toNat_lt
    have hlo := lo.toNat_lt
    rw [wordSum, List.length_cons, List.length_cons]
    omega
  | case2 bytes hshort =>
    rw [wordSum.eq_2 bytes hshort]
    exact Nat.zero_le _

theorem wordSum_append {a : List UInt8} (ha : 2 ∣ a.length) (b : List UInt8) :
    wordSum (a ++ b) = wordSum a + wordSum b := by
  induction a using wordSum.induct with
  | case1 hi lo rest ih =>
    have hrest : 2 ∣ rest.length := by
      rw [List.length_cons, List.length_cons] at ha
      omega
    rw [List.cons_append, List.cons_append, wordSum, wordSum, ih hrest]
    omega
  | case2 a hshort =>
    match a with
    | [] => simp [wordSum]
    | [_] =>
      rw [List.length_singleton] at ha
      omega
    | hi :: lo :: rest => exact absurd rfl (hshort hi lo rest)

theorem wordSum_be16 (n : UInt16) : wordSum (be16 n) = n.toNat := by
  rw [be16, wordSum, toNat_be16, wordSum.eq_2 [] nofun, Nat.add_zero]

/-- The first loop adds the words, as long as they fit. -/
theorem sumWords_eq {bytes : List UInt8} (heven : 2 ∣ bytes.length) {sum : UInt32}
    (hfits : sum.toNat + wordSum bytes < 4294967296) :
    ∃ total, sumWords bytes sum = some total ∧ total.toNat = sum.toNat + wordSum bytes := by
  induction bytes, sum using sumWords.induct with
  | case1 sum => exact ⟨sum, rfl, rfl⟩
  | case2 sum b =>
    rw [List.length_singleton] at heven
    omega
  | case3 hi lo rest sum ih =>
    rw [List.length_cons, List.length_cons] at heven
    rw [wordSum] at hfits ⊢
    have hle : sum.toNat + (hi.toNat * 256 + lo.toNat) ≤
        sum.toNat + (hi.toNat * 256 + lo.toNat + wordSum rest) :=
      Nat.add_le_add_left (Nat.le_add_right _ _) _
    have hnext := toNat_add_word (Nat.lt_of_le_of_lt hle hfits)
    obtain ⟨total, htotal, hsum⟩ := ih (by omega) (by omega)
    refine ⟨total, htotal, ?_⟩
    rw [hsum, hnext]
    omega

/-- The second loop keeps the residue modulo `65535`, and a positive sum stays positive. -/
theorem toNat_foldCarries (sum : UInt32) :
    (foldCarries sum).toNat < 65536 ∧ (foldCarries sum).toNat % 65535 = sum.toNat % 65535 ∧
      (foldCarries sum).toNat ≤ sum.toNat ∧ (0 < sum.toNat → 0 < (foldCarries sum).toNat) := by
  induction sum using foldCarries.induct with
  | case1 sum hne ih =>
    have hlt := sum.toNat_lt
    have hhigh : (sum >>> 16).toNat = sum.toNat / 65536 := by
      rw [UInt32.toNat_shiftRight, Nat.shiftRight_eq_div_pow]
      rfl
    have hlow : (sum &&& (0xFFFF : UInt32)).toNat = sum.toNat % 65536 := by
      rw [UInt32.toNat_and]
      exact Nat.and_two_pow_sub_one_eq_mod _ 16
    have hnext : ((sum &&& (0xFFFF : UInt32)) + (sum >>> 16)).toNat =
        sum.toNat % 65536 + sum.toNat / 65536 := by
      rw [UInt32.toNat_add, hlow, hhigh]
      exact Nat.mod_eq_of_lt (by omega)
    rw [hnext] at ih
    rw [foldCarries, if_pos hne]
    refine ⟨ih.1, ?_, Nat.le_trans ih.2.2.1 (by omega), fun hpos => ih.2.2.2 (by omega)⟩
    rw [ih.2.1]
    omega
  | case2 sum heq =>
    have hzero : (sum >>> 16).toNat = 0 := by
      rw [Classical.not_not.mp heq]
      rfl
    rw [UInt32.toNat_shiftRight, Nat.shiftRight_eq_div_pow] at hzero
    change sum.toNat / 65536 = 0 at hzero
    rw [foldCarries, if_neg heq]
    exact ⟨by omega, rfl, le_rfl, fun hpos => hpos⟩

/-- The checksum of a header is what its words lack of a multiple of `65535`; for no words at all
it is `65535`. -/
theorem computeIpChecksum_eq {header : List UInt8} (heven : 2 ∣ header.length)
    (hlen : header.length < 65536) :
    ∃ csum, computeIpChecksum header = some csum ∧
      (csum.toNat + wordSum header) % 65535 = 0 ∧ 0 < csum.toNat + wordSum header ∧
      (0 < wordSum header → csum.toNat < 65535) := by
  have hle := wordSum_le header
  have hfits : (0 : UInt32).toNat + wordSum header < 4294967296 := by
    change 0 + wordSum header < 4294967296
    omega
  obtain ⟨total, htotal, hsum⟩ := sumWords_eq heven hfits
  obtain ⟨hlt, hmod, hfold, hpos⟩ := toNat_foldCarries total
  have htotal' : total.toNat = wordSum header := by
    rw [hsum]
    exact Nat.zero_add _
  have hcut : (foldCarries total).toUInt16.toNat = (foldCarries total).toNat := by
    rw [UInt32.toNat_toUInt16]
    exact Nat.mod_eq_of_lt hlt
  have hnot : (~~~ (foldCarries total).toUInt16).toNat = 65535 - (foldCarries total).toNat := by
    rw [UInt16.toNat_not, hcut]
    rfl
  refine ⟨_, by rw [computeIpChecksum, htotal, Option.map_some], ?_, ?_, fun hwords => ?_⟩
  · rw [hnot]
    omega
  · rw [hnot]
    omega
  · have hfold' := hpos (by omega)
    rw [hnot]
    omega

/-- A header whose words sum to a positive multiple of `65535` verifies. -/
theorem computeIpChecksum_zero {header : List UInt8} (heven : 2 ∣ header.length)
    (hlen : header.length < 65536) (hpos : 0 < wordSum header)
    (hmod : wordSum header % 65535 = 0) : computeIpChecksum header = some 0 := by
  obtain ⟨csum, hcsum, hsum, -, hlt⟩ := computeIpChecksum_eq heven hlen
  have hlt' := hlt hpos
  have hzero : csum = 0 := UInt16.toNat_inj.mp (by change csum.toNat = 0; omega)
  rw [hcsum, hzero]

/-- The words of a header whose field of the checksum is filled in. -/
theorem wordSum_fill {front : List UInt8} (heven : 2 ∣ front.length) (csum : UInt16)
    (back : List UInt8) :
    wordSum (front ++ be16 csum ++ back) = csum.toNat + wordSum (front ++ be16 0 ++ back) := by
  have hfield : ∀ n, 2 ∣ (front ++ be16 n).length := by
    intro n
    rw [List.length_append, length_be16]
    omega
  have hzero : (0 : UInt16).toNat = 0 := rfl
  rw [wordSum_append (hfield csum), wordSum_append (hfield 0), wordSum_append heven,
    wordSum_append heven, wordSum_be16, wordSum_be16, hzero]
  omega

/-- **A filled header verifies**: the checksum of a header whose field is zero, stored in that
field, makes the checksum zero. -/
theorem computeIpChecksum_store {header : List UInt8} (heven : 2 ∣ header.length)
    (hlen : header.length ≤ 60) (hfield : load header 10 2 = some [0, 0]) :
    ∃ csum filled, computeIpChecksum header = some csum ∧
      store header 10 (be16 csum) = some filled ∧ computeIpChecksum filled = some 0 := by
  obtain ⟨front, back, hheader, hfront⟩ := eq_append_of_load hfield
  have hzero : header = front ++ be16 0 ++ back := hheader
  have hfronteven : 2 ∣ front.length := ⟨5, hfront⟩
  obtain ⟨csum, hcsum, hmod, hpos, -⟩ := computeIpChecksum_eq heven (by omega)
  have hwidth : (be16 csum).length = (be16 0).length := rfl
  have hstore : store header 10 (be16 csum) = some (front ++ be16 csum ++ back) :=
    hzero ▸ store_replace hfront.symm hwidth back
  have hsum : wordSum (front ++ be16 csum ++ back) = csum.toNat + wordSum header :=
    hzero ▸ wordSum_fill hfronteven csum back
  have hfilled := length_store hstore
  refine ⟨csum, _, hcsum, hstore, computeIpChecksum_zero ?_ ?_ ?_ ?_⟩
  · rw [hfilled]
    exact heven
  · rw [hfilled]
    omega
  · rw [hsum]
    exact hpos
  · rw [hsum]
    exact hmod

/-- A header of zeros: its checksum is all ones, the other zero. -/
theorem computeIpChecksum_store_zeros :
    ∃ csum filled, computeIpChecksum (List.replicate 20 0) = some csum ∧
      store (List.replicate 20 0) 10 (be16 csum) = some filled ∧
      computeIpChecksum filled = some 0 :=
  computeIpChecksum_store ⟨10, rfl⟩ (by decide) rfl

end LatencyOS.Net
