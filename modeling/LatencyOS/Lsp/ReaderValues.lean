import LatencyOS.Lsp.ReaderCorrect
import Mathlib.Algebra.BigOperators.Group.List.Basic
import Mathlib.Data.List.Perm.Subperm

/-!
# When the reader returns the value of a JSON text

No key that the reader returns has a colon, so it fails on every value with a key that has.
On the other texts it finds the structure, and the strings it makes are at least as long as
those of the value, and longer where a character is written with hexadecimal digits.
-/

namespace LatencyOS.Json

open JsonValue (Same)

variable {F : Type}

/-! ## Keys without colons -/

/-- No key of a value has a colon. -/
inductive ColonFree : JsonValue F → Prop
  | null : ColonFree .null
  | bool (b : Bool) : ColonFree (.bool b)
  | number (x : F) : ColonFree (.number x)
  | string (s : Str) : ColonFree (.string s)
  | array {items : List (JsonValue F)} (h : ∀ v ∈ items, ColonFree v) : ColonFree (.array items)
  | object {members : List (Str × JsonValue F)} (hkeys : ∀ m ∈ members, ':' ∉ m.1)
      (hvalues : ∀ m ∈ members, ColonFree m.2) : ColonFree (.object members)

theorem colon_mem_of_unescape {s : Str} (h : ':' ∈ unescape s) : ':' ∈ s := by
  have hchar : ∀ c, unescapeChar c = ':' → c = ':' := by
    intro c hc
    unfold unescapeChar at hc
    repeat' split at hc
    all_goals first
      | exact hc
      | exact absurd hc (by decide)
  induction s using unescape.induct with
  | case1 => cases h
  | case2 =>
    rw [unescape.eq_def] at h
    simp at h
  | case3 c s ih =>
    rw [unescape_escape] at h
    rcases List.mem_cons.mp h with h | h
    · rw [hchar c h.symm]
      simp
    · exact List.mem_cons_of_mem _ (List.mem_cons_of_mem _ (ih h))
  | case4 c s hne ih =>
    rw [unescape_cons hne] at h
    rcases List.mem_cons.mp h with h | h
    · rw [← h]
      exact List.mem_cons_self
    · exact List.mem_cons_of_mem _ (ih h)

theorem mem_trim {c : Char} {s : Str} (h : c ∈ trim s) : c ∈ s := by
  obtain ⟨a, b, hs, -⟩ := exists_trim s
  rw [hs]
  exact List.mem_append_left _ (List.mem_append_right _ h)

/-- A text that is read as a string is one between quotes. -/
theorem parseStep_eq_string {parseF64 : Str → Option F} {parse : Str → Option (JsonValue F)}
    {text s : Str} (h : parseStep parseF64 parse text = some (.string s)) :
    s = unescape (inner (trim text)) := by
  unfold parseStep at h
  dsimp only at h
  split at h
  · cases h
  split at h
  · cases h
  split at h
  · cases h
  split at h
  · cases h
    rfl
  split at h
  · split at h
    · cases h
    · obtain ⟨_, -, h⟩ := Option.map_eq_some_iff.mp h
      cases h
  split at h
  · split at h
    · cases h
    · obtain ⟨_, -, h⟩ := Option.map_eq_some_iff.mp h
      cases h
  · obtain ⟨_, -, h⟩ := Option.map_eq_some_iff.mp h
    cases h

theorem colonFree_insertPair {parseF64 : Str → Option F} {n : ℕ}
    (ih : ∀ (t : Str) v, t.length < n → parseJsonValue parseF64 t = some v → ColonFree v)
    {map map' : List (Str × JsonValue F)} {pair : Str} (hpair : pair.length < n)
    (h : insertPair (parseJsonValue parseF64) map pair = some map')
    (hmap : ∀ m ∈ map, ':' ∉ m.1 ∧ ColonFree m.2) : ∀ m ∈ map', ':' ∉ m.1 ∧ ColonFree m.2 := by
  unfold insertPair at h
  split at h
  · cases h
    exact hmap
  · next key val hsplit =>
    obtain ⟨rfl, hkey⟩ := splitColon_eq_some hsplit
    split at h
    · cases h
    · next k hk =>
      obtain ⟨v, hv, heq⟩ := Option.map_eq_some_iff.mp h
      subst heq
      have hclear : ':' ∉ k := by
        rw [parseJsonValue_eq] at hk
        rw [parseStep_eq_string hk]
        intro hcolon
        have hinner := colon_mem_of_unescape hcolon
        have htail := (List.dropLast_sublist _).subset hinner
        exact hkey (mem_trim (mem_trim (List.mem_of_mem_tail htail)))
      have hvalue : ColonFree v := by
        refine ih (trim val) v ?_ hv
        have hle := length_trim_le val
        rw [List.length_append, List.length_cons] at hpair
        omega
      intro m hm
      rcases mem_insertMember hm with hm | rfl
      · exact hmap m hm
      · exact ⟨hclear, hvalue⟩
    · cases h
      exact hmap

/-- The reader returns no key with a colon. -/
theorem colonFree_parseJsonValue {parseF64 : Str → Option F} (text : Str) :
    ∀ v, parseJsonValue parseF64 text = some v → ColonFree v := by
  induction hn : text.length using Nat.strong_induction_on generalizing text with
  | _ n hind =>
    subst hn
    have ih : ∀ (t : Str) v, t.length < text.length → parseJsonValue parseF64 t = some v →
        ColonFree v := fun t v ht => hind _ ht t rfl v
    intro v h
    rw [parseJsonValue_eq] at h
    unfold parseStep at h
    dsimp only at h
    split at h
    · cases h
      exact .null
    split at h
    · cases h
      exact .bool true
    split at h
    · cases h
      exact .bool false
    split at h
    · cases h
      exact .string _
    split at h
    · next harray =>
      split at h
      · cases h
        exact .array (by simp)
      · obtain ⟨items, hitems, heq⟩ := Option.map_eq_some_iff.mp h
        subst heq
        refine .array fun v hv => ?_
        have hall : ∀ (parts : List Str) items, (∀ t ∈ parts, t.length < text.length) →
            parts.mapM (parseJsonValue parseF64) = some items → ∀ v ∈ items, ColonFree v := by
          intro parts
          induction parts with
          | nil =>
            intro items _ hmap
            cases hmap
            simp
          | cons t parts ihparts =>
            intro items hparts hmap
            rw [List.forall_mem_cons] at hparts
            rw [List.mapM_cons] at hmap
            obtain ⟨w, hw, hmap⟩ := Option.bind_eq_some_iff.mp hmap
            obtain ⟨ws, hws, hmap⟩ := Option.bind_eq_some_iff.mp hmap
            cases hmap
            rw [List.forall_mem_cons]
            exact ⟨ih t w hparts.1 hw, ihparts ws hparts.2 hws⟩
        exact hall _ items (fun t ht => length_item_lt harray.1 ht) hitems v hv
    split at h
    · next hobject =>
      split at h
      · cases h
        exact .object (by simp) (by simp)
      · obtain ⟨members, hmembers, heq⟩ := Option.map_eq_some_iff.mp h
        subst heq
        have hall : ∀ (parts : List Str) map members, (∀ t ∈ parts, t.length < text.length) →
            parts.foldlM (insertPair (parseJsonValue parseF64)) map = some members →
            (∀ m ∈ map, ':' ∉ m.1 ∧ ColonFree m.2) →
            ∀ m ∈ members, ':' ∉ m.1 ∧ ColonFree m.2 := by
          intro parts
          induction parts with
          | nil =>
            intro map members _ hfold hmap
            cases hfold
            exact hmap
          | cons t parts ihparts =>
            intro map members hparts hfold hmap
            rw [List.forall_mem_cons] at hparts
            rw [List.foldlM_cons] at hfold
            obtain ⟨map', hpair, hfold⟩ := Option.bind_eq_some_iff.mp hfold
            exact ihparts map' members hparts.2 hfold
              (colonFree_insertPair ih hparts.1 hpair hmap)
        have hfinal :=
          hall _ [] members (fun t ht => length_item_lt hobject.1 ht) hmembers (by simp)
        exact .object (fun m hm => (hfinal m hm).1) fun m hm => (hfinal m hm).2
    · obtain ⟨x, -, heq⟩ := Option.map_eq_some_iff.mp h
      subst heq
      exact .number x

section Keys
variable (f64 : NumberText → F)

theorem Members.map_fst_read (members : Members) :
    (members.read f64 chars).map Prod.fst = members.keys.map chars := by
  cases members with
  | nil => rfl
  | cons b key m v value a rest =>
    rw [Members.read, Members.keys, List.map_cons, List.map_cons, rest.map_fst_read]

theorem Members.map_fst_parsed (members : Members) :
    (members.parsed f64).map Prod.fst = members.keys.map readString := by
  cases members with
  | nil => rfl
  | cons b key m v value a rest =>
    rw [Members.parsed, Members.keys, List.map_cons, List.map_cons, rest.map_fst_parsed]

mutual

/-- A value without colons in its keys is that of a tree without them. -/
theorem keysClear_of_same :
    (t : Tree) → t.Distinct → ∀ v, ColonFree v → Same v (t.value f64) → t.KeysClear
  | .null, _, _, _, _ => by simp [Tree.KeysClear, Tree.Forall, Tree.keys]
  | .bool _, _, _, _, _ => by simp [Tree.KeysClear, Tree.Forall, Tree.keys]
  | .number _, _, _, _, _ => by simp [Tree.KeysClear, Tree.Forall, Tree.keys]
  | .string _, _, _, _, _ => by simp [Tree.KeysClear, Tree.Forall, Tree.keys]
  | .array blank items, hdistinct, v, hfree, hsame => by
    refine ⟨by simp [Tree.keys], ?_⟩
    cases hsame with
    | array hlen h =>
      cases hfree with
      | array hfree =>
        refine keysClear_items items hdistinct.2 fun w hw => ?_
        obtain ⟨i, hi⟩ := List.mem_iff_getElem?.mp hw
        obtain ⟨hlt, -⟩ := List.getElem?_eq_some_iff.mp hi
        have ha := List.getElem?_eq_getElem (hlen.symm ▸ hlt)
        exact ⟨_, hfree _ (List.getElem_mem _), h i _ w ha hi⟩
  | .object blank members, hdistinct, v, hfree, hsame => by
    have hnodup : ((members.read f64 chars).map Prod.fst).Nodup := by
      rw [members.map_fst_read]
      exact hdistinct.1
    cases hsame with
    | @object ms _ hkeys h =>
      cases hfree with
      | object hclear hfree =>
        have hfound : ∀ m ∈ members.read f64 chars, ∃ w, (m.1, w) ∈ ms ∧ Same w m.2 := by
          intro m hm
          have hlookup := lookup_eq_some_of_mem hnodup hm
          have hsome := hkeys m.1
          rw [hlookup, Option.isSome_some, Option.isSome_iff_exists] at hsome
          obtain ⟨w, hw⟩ := hsome
          exact ⟨w, mem_of_lookup_eq_some hw, h m.1 w m.2 hw hlookup⟩
        constructor
        · intro k hk
          have hmem : chars k ∈ (members.read f64 chars).map Prod.fst := by
            rw [members.map_fst_read]
            exact List.mem_map_of_mem hk
          obtain ⟨m, hm, heq⟩ := List.mem_map.mp hmem
          obtain ⟨w, hw, -⟩ := hfound m hm
          rw [← heq]
          exact hclear (m.1, w) hw
        · refine keysClear_members members hdistinct.2 fun m hm => ?_
          obtain ⟨w, hw, hsame⟩ := hfound m hm
          exact ⟨w, hfree (m.1, w) hw, hsame⟩

theorem keysClear_items :
    (items : Items) → items.Forall (fun t => (t.keys.map chars).Nodup) →
    (∀ w ∈ items.read f64 chars, ∃ v, ColonFree v ∧ Same v w) →
    items.Forall (fun t => ∀ k ∈ t.keys, ':' ∉ chars k)
  | .nil, _, _ => trivial
  | .cons _ item _ rest, hdistinct, h => by
    rw [Items.read, List.forall_mem_cons] at h
    obtain ⟨v, hfree, hsame⟩ := h.1
    exact ⟨keysClear_of_same item hdistinct.1 v hfree hsame, keysClear_items rest hdistinct.2 h.2⟩

theorem keysClear_members :
    (members : Members) → members.Forall (fun t => (t.keys.map chars).Nodup) →
    (∀ m ∈ members.read f64 chars, ∃ v, ColonFree v ∧ Same v m.2) →
    members.Forall (fun t => ∀ k ∈ t.keys, ':' ∉ chars k)
  | .nil, _, _ => trivial
  | .cons _ _ _ _ value _ rest, hdistinct, h => by
    rw [Members.read, List.forall_mem_cons] at h
    obtain ⟨v, hfree, hsame⟩ := h.1
    exact ⟨keysClear_of_same value hdistinct.1 v hfree hsame,
      keysClear_members rest hdistinct.2 h.2⟩

end

end Keys

/-! ## Escapes in hexadecimal -/

/-- A character written with hexadecimal digits. -/
def Piece.IsUnicode : Piece → Prop
  | .unicode _ _ _ => True
  | _ => False

/-- The strings of a tree, keys included. -/
def Tree.strings : Tree → List (List Piece)
  | .string s => [s]
  | .object _ members => members.keys
  | _ => []

/-- No character of a tree is written with hexadecimal digits. -/
def Tree.NoUnicode (t : Tree) : Prop :=
  t.Forall fun t => ∀ s ∈ t.strings, ∀ p ∈ s, ¬ p.IsUnicode

theorem length_readerChars (p : Piece) :
    1 ≤ p.readerChars.length ∧ (p.readerChars.length = 1 ↔ ¬ p.IsUnicode) := by
  cases p with
  | plain c h => simp [Piece.readerChars, Piece.IsUnicode]
  | short e => simp [Piece.readerChars, Piece.IsUnicode]
  | unicode c units h =>
    have hlong : 1 < (Piece.readerChars (.unicode c units h)).length := by
      cases units with
      | nil =>
        unfold utf16 at h
        split at h <;> cases h
      | cons u units =>
        obtain ⟨n, hn⟩ := unitValue_of_mem h List.mem_cons_self
        have hne : u ≠ [] := by
          rintro rfl
          cases hn
        have hpos := List.length_pos_iff.mpr hne
        rw [Piece.readerChars, List.flatMap_cons, List.length_append, List.length_cons]
        omega
    refine ⟨by omega, ⟨fun h => by omega, fun h => absurd trivial h⟩⟩

theorem readerChars_of_not_isUnicode {p : Piece} (h : ¬ p.IsUnicode) :
    p.readerChars = [p.char] := by
  cases p with
  | plain c _ => rfl
  | short e => rfl
  | unicode c units hu => exact absurd trivial h

/-- The reader makes no string shorter, and longer ones of escapes in hexadecimal. -/
theorem length_chars_le (s : List Piece) :
    (chars s).length ≤ (readString s).length ∧
      ((chars s).length = (readString s).length ↔ ∀ p ∈ s, ¬ p.IsUnicode) := by
  induction s with
  | nil => simp [chars, readString]
  | cons p s ih =>
    obtain ⟨hle, hiff⟩ := ih
    obtain ⟨hone, heq⟩ := length_readerChars p
    have hcons : (chars (p :: s)).length = 1 + (chars s).length := by
      simp [chars, Nat.add_comm]
    have hread : (readString (p :: s)).length = p.readerChars.length + (readString s).length := by
      simp [readString]
    rw [hcons, hread, List.forall_mem_cons, ← heq, ← hiff]
    omega

theorem readString_eq_chars {s : List Piece} (h : ∀ p ∈ s, ¬ p.IsUnicode) :
    readString s = chars s := by
  induction s with
  | nil => rfl
  | cons p s ih =>
    rw [List.forall_mem_cons] at h
    have hread : readString (p :: s) = p.readerChars ++ readString s := rfl
    rw [hread, readerChars_of_not_isUnicode h.1, ih h.2]
    rfl

/-- If the reader makes the keys of an object, in whatever order, it makes each of them. -/
theorem noUnicode_of_subset {keys : List (List Piece)} (hnodup : (keys.map chars).Nodup)
    (hsubset : ∀ k ∈ keys, chars k ∈ keys.map readString) :
    ∀ k ∈ keys, ∀ p ∈ k, ¬ p.IsUnicode := by
  have hsub : keys.map chars ⊆ keys.map readString := by
    intro x hx
    obtain ⟨k, hk, rfl⟩ := List.mem_map.mp hx
    exact hsubset k hk
  have hperm : (keys.map chars).Perm (keys.map readString) :=
    (List.Nodup.subperm hnodup hsub).perm_of_length_le (by simp)
  have hsum :
      ((keys.map chars).map List.length).sum = ((keys.map readString).map List.length).sum :=
    (hperm.map List.length).sum_eq
  have hall : ∀ keys : List (List Piece),
      ((keys.map chars).map List.length).sum ≤ ((keys.map readString).map List.length).sum ∧
      (((keys.map chars).map List.length).sum = ((keys.map readString).map List.length).sum →
        ∀ k ∈ keys, ∀ p ∈ k, ¬ p.IsUnicode) := by
    intro keys
    induction keys with
    | nil => simp
    | cons k keys ih =>
      obtain ⟨hle, hiff⟩ := length_chars_le k
      obtain ⟨ihle, ihall⟩ := ih
      simp only [List.map_cons, List.sum_cons, List.forall_mem_cons]
      refine ⟨by omega, fun heq => ⟨hiff.mp (by omega), ihall (by omega)⟩⟩
  exact (hall keys).2 hsum

section Unicode
variable (f64 : NumberText → F)

mutual

/-- A tree that is read as its value has no escapes in hexadecimal. -/
theorem noUnicode_of_same :
    (t : Tree) → t.Distinct → Same (t.parsed f64) (t.value f64) → t.NoUnicode
  | .null, _, _ => by simp [Tree.NoUnicode, Tree.Forall, Tree.strings]
  | .bool _, _, _ => by simp [Tree.NoUnicode, Tree.Forall, Tree.strings]
  | .number _, _, _ => by simp [Tree.NoUnicode, Tree.Forall, Tree.strings]
  | .string s, _, hsame => by
    have hstring : readString s = chars s := by
      have hsame : Same (.string (readString s) : JsonValue F) (.string (chars s)) := hsame
      generalize readString s = a, chars s = b at hsame
      cases hsame
      rfl
    have hclear := (length_chars_le s).2.mp (by rw [hstring])
    simpa [Tree.NoUnicode, Tree.Forall, Tree.strings] using hclear
  | .array blank items, hdistinct, hsame => by
    refine ⟨by simp [Tree.strings], ?_⟩
    have hsame : Same (.array (items.parsed f64)) (.array (items.read f64 chars)) := hsame
    cases hsame with
    | array hlen h => exact noUnicode_items items hdistinct.2 h
  | .object blank members, hdistinct, hsame => by
    have hnodup : ((members.read f64 chars).map Prod.fst).Nodup := by
      rw [members.map_fst_read]
      exact hdistinct.1
    have hsame : Same (.object (toMap (members.parsed f64))) (.object (members.read f64 chars)) :=
      hsame
    cases hsame with
    | object hkeys h =>
      have hclear : ∀ k ∈ members.keys, ∀ p ∈ k, ¬ p.IsUnicode := by
        refine noUnicode_of_subset hdistinct.1 fun k hk => ?_
        have hmem : chars k ∈ (members.read f64 chars).map Prod.fst := by
          rw [members.map_fst_read]
          exact List.mem_map_of_mem hk
        obtain ⟨m, hm, heq⟩ := List.mem_map.mp hmem
        have hsome := hkeys m.1
        rw [lookup_eq_some_of_mem hnodup hm, Option.isSome_some, Option.isSome_iff_exists] at hsome
        obtain ⟨w, hw⟩ := hsome
        rw [← heq, ← members.map_fst_parsed f64]
        exact List.mem_map.mpr ⟨_, mem_toMap (mem_of_lookup_eq_some hw), rfl⟩
      have hreads : members.keys.map readString = members.keys.map chars :=
        List.map_congr_left fun k hk => readString_eq_chars (hclear k hk)
      have hparsed : ((members.parsed f64).map Prod.fst).Nodup := by
        rw [members.map_fst_parsed, hreads]
        exact hdistinct.1
      rw [toMap_of_nodup hparsed] at h
      refine ⟨hclear, noUnicode_members members hdistinct.2 hclear ?_⟩
      intro k a b ha hb
      exact h k a b (lookup_eq_some_of_mem hparsed ha) (lookup_eq_some_of_mem hnodup hb)

theorem noUnicode_items :
    (items : Items) → items.Forall (fun t => (t.keys.map chars).Nodup) →
    (∀ (i : ℕ) a b, (items.parsed f64)[i]? = some a → (items.read f64 chars)[i]? = some b →
      Same a b) →
    items.Forall (fun t => ∀ s ∈ t.strings, ∀ p ∈ s, ¬ p.IsUnicode)
  | .nil, _, _ => trivial
  | .cons _ item _ rest, hdistinct, h => by
    refine ⟨noUnicode_of_same item hdistinct.1 (h 0 _ _ rfl rfl), ?_⟩
    exact noUnicode_items rest hdistinct.2 fun i a b ha hb => h (i + 1) a b ha hb

theorem noUnicode_members :
    (members : Members) → members.Forall (fun t => (t.keys.map chars).Nodup) →
    (∀ k ∈ members.keys, ∀ p ∈ k, ¬ p.IsUnicode) →
    (∀ k a b, (k, a) ∈ members.parsed f64 → (k, b) ∈ members.read f64 chars → Same a b) →
    members.Forall (fun t => ∀ s ∈ t.strings, ∀ p ∈ s, ¬ p.IsUnicode)
  | .nil, _, _, _ => trivial
  | .cons _ key _ _ value _ rest, hdistinct, hclear, h => by
    rw [Members.keys, List.forall_mem_cons] at hclear
    rw [Members.parsed, Members.read, readString_eq_chars hclear.1] at h
    refine ⟨noUnicode_of_same value hdistinct.1 ?_, ?_⟩
    · exact h (chars key) _ _ List.mem_cons_self List.mem_cons_self
    · exact noUnicode_members rest hdistinct.2 hclear.2 fun k a b ha hb =>
        h k a b (List.mem_cons_of_mem _ ha) (List.mem_cons_of_mem _ hb)

end

mutual

/-- Without escapes in hexadecimal the reader makes the value. -/
theorem parsed_eq_value :
    (t : Tree) → t.Distinct → t.NoUnicode → t.parsed f64 = t.value f64
  | .null, _, _ => rfl
  | .bool _, _, _ => rfl
  | .number _, _, _ => rfl
  | .string s, _, hclear => by
    have hs : ∀ p ∈ s, ¬ p.IsUnicode := hclear s List.mem_cons_self
    exact congrArg JsonValue.string (readString_eq_chars hs)
  | .array blank items, hdistinct, hclear =>
    congrArg JsonValue.array (parsed_items items hdistinct.2 hclear.2)
  | .object blank members, hdistinct, hclear => by
    have hread := parsed_members members hdistinct.2 hclear.2 hclear.1
    have hnodup : ((members.parsed f64).map Prod.fst).Nodup := by
      rw [hread, members.map_fst_read]
      exact hdistinct.1
    exact congrArg JsonValue.object ((toMap_of_nodup hnodup).trans hread)

theorem parsed_items :
    (items : Items) → items.Forall (fun t => (t.keys.map chars).Nodup) →
    items.Forall (fun t => ∀ s ∈ t.strings, ∀ p ∈ s, ¬ p.IsUnicode) →
    items.parsed f64 = items.read f64 chars
  | .nil, _, _ => rfl
  | .cons _ item _ rest, hdistinct, hclear => by
    rw [Items.parsed, Items.read, parsed_eq_value item hdistinct.1 hclear.1,
      parsed_items rest hdistinct.2 hclear.2]
    rfl

theorem parsed_members :
    (members : Members) → members.Forall (fun t => (t.keys.map chars).Nodup) →
    members.Forall (fun t => ∀ s ∈ t.strings, ∀ p ∈ s, ¬ p.IsUnicode) →
    (∀ k ∈ members.keys, ∀ p ∈ k, ¬ p.IsUnicode) →
    members.parsed f64 = members.read f64 chars
  | .nil, _, _, _ => rfl
  | .cons _ key _ _ value _ rest, hdistinct, hclear, hkeys => by
    rw [Members.keys, List.forall_mem_cons] at hkeys
    rw [Members.parsed, Members.read, parsed_eq_value value hdistinct.1 hclear.1,
      parsed_members rest hdistinct.2 hclear.2 hkeys.2, readString_eq_chars hkeys.1]
    rfl

end

end Unicode

theorem JsonValue.Same.refl (v : JsonValue F) : Same v v :=
  match v with
  | .null => .null
  | .bool b => .bool b
  | .number x => .number x
  | .string s => .string s
  | .array items => by
    refine .array rfl fun i a b ha hb => ?_
    rw [ha] at hb
    cases hb
    have hmem := List.mem_of_getElem? ha
    exact Same.refl a
  | .object members => by
    refine .object (fun _ => rfl) fun k a b ha hb => ?_
    rw [ha] at hb
    cases hb
    have hmem := mem_of_lookup_eq_some ha
    exact Same.refl a
termination_by sizeOf v
decreasing_by
  · have hlt := List.sizeOf_lt_of_mem hmem
    simp only [JsonValue.array.sizeOf_spec]
    omega
  · have hlt := List.sizeOf_lt_of_mem hmem
    simp only [JsonValue.object.sizeOf_spec, Prod.mk.sizeOf_spec] at hlt ⊢
    omega

/-- **The reader returns the value of a JSON text** exactly when no key has a colon and no
character is written with hexadecimal digits. -/
theorem parseJsonValue_same_iff (parseF64 : Str → Option F) (f64 : NumberText → F) (t : Tree)
    (before after : Blank) (hdistinct : t.Distinct) (hnum : t.NumbersRead parseF64 f64) :
    (∃ v, parseJsonValue parseF64 (before.1 ++ t.text ++ after.1) = some v ∧
      v.Same (t.value f64)) ↔ t.KeysClear ∧ t.NoUnicode := by
  constructor
  · rintro ⟨v, hparse, hsame⟩
    have hclear := keysClear_of_same f64 t hdistinct v (colonFree_parseJsonValue _ v hparse) hsame
    rw [parse_tree t hnum hclear] at hparse
    cases hparse
    exact ⟨hclear, noUnicode_of_same f64 t hdistinct hsame⟩
  · rintro ⟨hclear, hplain⟩
    refine ⟨_, parse_tree t hnum hclear before after, ?_⟩
    rw [parsed_eq_value f64 t hdistinct hplain]
    exact .refl _

/-- A number of decimal digits only. -/
def parseDigits (s : Str) : Option ℕ :=
  if s ≠ [] ∧ s.all Char.isDigit then some (s.foldl (fun n c => n * 10 + (c.toNat - 48)) 0)
  else none

/-- `12` -/
def twelve : NumberText where
  negative := false
  int := ['1', '2']
  frac := none
  exp := none
  int_digits := ⟨by simp, forall_mem_of_all (by decide)⟩
  no_leading_zero := by decide
  frac_digits := by simp
  exp_digits := by simp

/-- `{ "a\n":12}`, the line feed escaped -/
def smallObject : Tree :=
  .object ⟨[' '], forall_mem_of_all (by decide)⟩
    (.cons .empty [.plain 'a' (by decide), .short .newline] .empty .empty (.number twelve) .empty
      .nil)

theorem smallObject_read : ∃ v,
    parseJsonValue parseDigits (Blank.empty.1 ++ smallObject.text ++ Blank.empty.1) = some v ∧
      v.Same (smallObject.value fun _ => 12) := by
  refine (parseJsonValue_same_iff parseDigits (fun _ => 12) smallObject .empty .empty ?_ ?_).mpr
    ⟨?_, ?_⟩
  · exact ⟨by decide, by simp [Tree.Forall, Tree.keys], trivial⟩
  · refine ⟨by simp, ?_, trivial⟩
    rintro x hx
    cases hx
    decide
  · exact ⟨by decide, by simp [Tree.Forall, Tree.keys], trivial⟩
  · refine ⟨?_, by simp [Tree.Forall, Tree.strings], trivial⟩
    simp [Tree.strings, Members.keys, Piece.IsUnicode]

/-- `"\u0041"`, the letter A -/
def letterUnit : Tree := .string [.unicode 'A' [['0', '0', '4', '1']] (by decide)]

/-- `{"a:b":true}` -/
def colonKey : Tree :=
  .object .empty
    (.cons .empty [.plain 'a' (by decide), .plain ':' (by decide), .plain 'b' (by decide)] .empty
      .empty (.bool true) .empty .nil)

theorem letterUnit_misread :
    (¬ ∃ v, parseJsonValue parseDigits letterUnit.text = some v ∧
      v.Same (letterUnit.value fun _ => 0)) ∧
    ¬ ∃ v, parseJsonValue parseDigits colonKey.text = some v ∧
      v.Same (colonKey.value fun _ => 0) := by
  constructor
  · rintro ⟨v, hparse, hsame⟩
    have hread : parseJsonValue parseDigits letterUnit.text =
        some (.string ['u', '0', '0', '4', '1']) := rfl
    rw [hread] at hparse
    cases hparse
    cases hsame
  · rintro ⟨v, hparse, -⟩
    have hread : parseJsonValue parseDigits colonKey.text = none := rfl
    rw [hread] at hparse
    cases hparse

end LatencyOS.Json
