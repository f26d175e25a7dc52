import LatencyOS.Fs.Path

/-!
# 8.3 names

The export disk stores a file under the last part of its path, in upper case, cut to eight
bytes and three bytes of extension and padded with blanks.
-/

namespace LatencyOS

/-- `to_ascii_uppercase`. -/
def asciiUpper (b : UInt8) : UInt8 := if 0x61 ≤ b ∧ b ≤ 0x7A then b - 0x20 else b

/-- The last part of a path, which may be written with either separator. -/
def baseName (name : Str) : Str :=
  if '/' ∈ name then afterLast '/' name
  else if '\\' ∈ name then afterLast '\\' name
  else name

/-- One field of an 8.3 name. -/
def field83 (width : ℕ) (part : Str) : List UInt8 :=
  (((utf8 part).take width).map asciiUpper).rightpad width 0x20

/-- `to_83_name`. -/
def to83Name (name : Str) : List UInt8 :=
  let base := baseName (trim name)
  if '.' ∈ base then field83 8 (beforeLast '.' base) ++ field83 3 (afterLast '.' base)
  else field83 8 base ++ field83 3 []

theorem length_field83 (width : ℕ) (part : Str) : (field83 width part).length = width := by
  simp only [field83, List.length_rightpad, List.length_map, List.length_take]
  omega

@[simp] theorem length_to83Name (name : Str) : (to83Name name).length = 11 := by
  unfold to83Name
  dsimp only
  split <;> simp only [List.length_append, length_field83]

theorem baseName_suffix (s : Str) : baseName s <:+ s := by
  unfold baseName
  split
  · exact List.rtakeWhile_suffix _ _
  · split
    · exact List.rtakeWhile_suffix _ _
    · exact List.suffix_refl s

/-! ## Printable names -/

/-- A name of printable ASCII characters. -/
def Printable (name : Str) : Prop := ∀ ch ∈ name, 0x20 ≤ ch.toNat ∧ ch.toNat ≤ 0x7E

instance (name : Str) : Decidable (Printable name) :=
  decidable_of_iff (name.all fun ch => 0x20 ≤ ch.toNat && ch.toNat ≤ 0x7E) (by simp [Printable])

theorem Printable.of_subset {name part : Str} (h : Printable name) (hsub : part ⊆ name) :
    Printable part :=
  fun ch hch => h ch (hsub hch)

theorem Printable.mem_utf8 {name : Str} (h : Printable name) {b : UInt8} (hb : b ∈ utf8 name) :
    0x20 ≤ b.toNat ∧ b.toNat ≤ 0x7E := by
  obtain ⟨ch, hch, hmem⟩ := List.mem_flatMap.mp hb
  have hrange := h ch hch
  have hval : ch.val.toNat = ch.toNat := rfl
  have hle : ch.val.toNat ≤ 0x7f := by omega
  rw [String.utf8EncodeChar, if_pos hle, List.mem_singleton] at hmem
  rw [hmem, hval, UInt8.toNat_ofNat']
  omega

theorem toNat_asciiUpper {b : UInt8} (h : 0x20 ≤ b.toNat ∧ b.toNat ≤ 0x7E) :
    0x20 ≤ (asciiUpper b).toNat ∧ (asciiUpper b).toNat ≤ 0x7E := by
  unfold asciiUpper
  split
  · next hlower =>
    have hge : 0x61 ≤ b.toNat := hlower.1
    have hle : (0x20 : UInt8) ≤ b := by
      rw [UInt8.le_iff_toNat_le]
      exact h.1
    rw [UInt8.toNat_sub_of_le _ _ hle]
    have h20 : (0x20 : UInt8).toNat = 0x20 := rfl
    omega
  · exact h

theorem Printable.mem_field83 {part : Str} (h : Printable part) (width : ℕ) {b : UInt8}
    (hb : b ∈ field83 width part) : 0x20 ≤ b.toNat ∧ b.toNat ≤ 0x7E := by
  simp only [field83, List.rightpad, List.mem_append, List.mem_map, List.mem_replicate] at hb
  rcases hb with ⟨b', hb', rfl⟩ | ⟨-, rfl⟩
  · exact toNat_asciiUpper (h.mem_utf8 (List.mem_of_mem_take hb'))
  · decide

/-- The 8.3 form of a printable name is printable. -/
theorem Printable.mem_to83Name {name : Str} (h : Printable name) {b : UInt8}
    (hb : b ∈ to83Name name) : 0x20 ≤ b.toNat ∧ b.toNat ≤ 0x7E := by
  have htrim : trim name ⊆ name := fun ch hch =>
    (List.dropWhile_suffix _).subset ((List.rdropWhile_prefix _ _).subset hch)
  have hbase : Printable (baseName (trim name)) :=
    h.of_subset fun ch hch => htrim ((baseName_suffix _).subset hch)
  unfold to83Name at hb
  dsimp only at hb
  split at hb
  · rcases List.mem_append.mp hb with hb | hb
    · refine Printable.mem_field83 (hbase.of_subset fun ch hch => ?_) 8 hb
      exact (List.rdropWhile_prefix _ _).subset (List.dropLast_subset _ hch)
    · refine Printable.mem_field83 (hbase.of_subset fun ch hch => ?_) 3 hb
      exact (List.rtakeWhile_suffix _ _).subset hch
  · rcases List.mem_append.mp hb with hb | hb
    · exact hbase.mem_field83 8 hb
    · exact Printable.mem_field83 (fun ch hch => absurd hch List.not_mem_nil) 3 hb

end LatencyOS
