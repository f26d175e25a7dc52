import LatencyOS.Lsp.ReaderTrees

/-!
# When the reader returns the value of a JSON text

The reader splits a pair at its first colon, and no key it returns has one; so it fails on
every value with a key that has.  On the other texts it finds the structure, and returns the
value exactly when no character is written with hexadecimal digits.
-/

namespace LatencyOS.Json

variable {F : Type}

/-- The map a sequence of pairs makes. -/
def toMap (pairs : List (Str × JsonValue F)) : List (Str × JsonValue F) :=
  pairs.foldl (fun map m => insertMember map m.1 m.2) []

section Parsed
variable (f64 : NumberText → F)

mutual

/-- What the reader makes of a tree. -/
def Tree.parsed : Tree → JsonValue F
  | .null => .null
  | .bool b => .bool b
  | .number x => .number (f64 x)
  | .string s => .string (readString s)
  | .array _ items => .array items.parsed
  | .object _ members => .object (toMap members.parsed)

def Items.parsed : Items → List (JsonValue F)
  | .nil => []
  | .cons _ item _ rest => item.parsed :: rest.parsed

def Members.parsed : Members → List (Str × JsonValue F)
  | .nil => []
  | .cons _ key _ _ value _ rest => (readString key, value.parsed) :: rest.parsed

end

end Parsed

/-- The parser of numbers is right on the numbers of a tree. -/
def Tree.NumbersRead (parseF64 : Str → Option F) (f64 : NumberText → F) (t : Tree) : Prop :=
  t.Forall fun t => ∀ x, t = .number x → parseF64 x.text = some (f64 x)

/-- No key of a tree has a colon. -/
def Tree.KeysClear (t : Tree) : Prop := t.Forall fun t => ∀ k ∈ t.keys, ':' ∉ chars k

/-- A colon in the text of a key is a colon of the key. -/
theorem colon_mem_chars {key : List Piece} (h : ':' ∈ key.flatMap Piece.text) :
    ':' ∈ chars key := by
  obtain ⟨p, hp, hcolon⟩ := List.mem_flatMap.mp h
  refine List.mem_map.mpr ⟨p, hp, ?_⟩
  cases p with
  | plain c hc => exact (List.mem_singleton.mp hcolon).symm
  | short e =>
    rcases List.mem_cons.mp hcolon with hcolon | hcolon
    · exact absurd hcolon (by decide)
    · have hletter := List.mem_singleton.mp hcolon
      revert hletter
      cases e <;> decide
  | unicode c units hu =>
    obtain ⟨u, hmem, hcolon⟩ := List.mem_flatMap.mp hcolon
    rcases List.mem_cons.mp hcolon with hcolon | hcolon
    · exact absurd hcolon (by decide)
    · rcases List.mem_cons.mp hcolon with hcolon | hcolon
      · exact absurd hcolon (by decide)
      · obtain ⟨n, hn⟩ := unitValue_of_mem hu hmem
        exact absurd (isHexDigit_of_unitValue hn ':' hcolon) (by decide)

theorem colon_not_mem_stringText {key : List Piece} (h : ':' ∉ chars key) :
    ':' ∉ stringText key := by
  intro hcolon
  rcases List.mem_cons.mp hcolon with hcolon | hcolon
  · exact absurd hcolon (by decide)
  · rcases List.mem_append.mp hcolon with hcolon | hcolon
    · exact h (colon_mem_chars hcolon)
    · exact absurd (List.mem_singleton.mp hcolon) (by decide)

/-- A pair is split at the colon between key and value. -/
theorem splitColon_append {key val : Str} (h : ':' ∉ key) :
    splitColon (key ++ ':' :: val) = some (key, val) := by
  have hkey : ∀ c ∈ key, (c != ':') = true := by
    intro c hc
    rw [bne_iff_ne]
    rintro rfl
    exact h hc
  rw [splitColon, if_pos (by simp), List.takeWhile_append_of_pos hkey,
    List.dropWhile_append_of_pos hkey]
  simp

theorem parseJsonValue_string (parseF64 : Str → Option F) (s : List Piece) :
    parseJsonValue parseF64 (stringText s) = some (.string (readString s)) := by
  rw [parseJsonValue_eq, parseStep_string ((solid_string s).trim_eq), unescape_pieces]

theorem trim_ne_nil_of_mem {s : Str} {c : Char} (hc : c ∈ s) (h : isWhitespace c = false) :
    trim s ≠ [] := by
  intro hnil
  obtain ⟨a, b, hs, ha, hb⟩ := exists_trim s
  rw [hnil, List.append_nil] at hs
  rw [hs] at hc
  have hw := (List.mem_append.mp hc).elim (ha c) (hb c)
  rw [h] at hw
  cases hw

theorem Solid.exists_mem {s : Str} (h : Solid s) : ∃ c ∈ s, isWhitespace c = false := by
  obtain ⟨c, -, hhead, -, hc, -⟩ := h
  exact ⟨c, List.mem_of_mem_head? hhead, hc⟩

theorem trim_items_ne_nil (items : Items) : ∀ x ∈ items.texts, trim x ≠ [] := by
  intro x hx
  cases items with
  | nil => cases hx
  | cons before item after rest =>
    rcases List.mem_cons.mp hx with rfl | hx
    · obtain ⟨c, hc, hsolid⟩ := (solid_tree item).exists_mem
      exact trim_ne_nil_of_mem (by simp [hc]) hsolid
    · exact trim_items_ne_nil rest x hx

theorem trim_members_ne_nil (members : Members) : ∀ x ∈ members.texts, trim x ≠ [] := by
  intro x hx
  cases members with
  | nil => cases hx
  | cons before key behindKey beforeValue value after rest =>
    rcases List.mem_cons.mp hx with rfl | hx
    · exact trim_ne_nil_of_mem (c := ':') (by simp) (by decide)
    · exact trim_members_ne_nil rest x hx

theorem mem_intercalate {c : Char} {x : Str} {texts : List Str} (hx : x ∈ texts) (hc : c ∈ x) :
    c ∈ [','].intercalate texts := by
  induction texts with
  | nil => cases hx
  | cons y texts ih =>
    cases texts with
    | nil =>
      rw [List.mem_singleton.mp hx] at hc
      simpa [List.intercalate] using hc
    | cons z texts =>
      have hcons : [','].intercalate (y :: z :: texts) =
          y ++ ',' :: [','].intercalate (z :: texts) := by
        simp [List.intercalate]
      rw [hcons, List.mem_append]
      rcases List.mem_cons.mp hx with rfl | hx
      · exact .inl hc
      · exact .inr (List.mem_cons_of_mem _ (ih hx))

/-- Between brackets there is nothing exactly when there are no items. -/
theorem trim_body_eq_nil_iff (blank : Blank) {texts : List Str}
    (htexts : ∀ x ∈ texts, trim x ≠ []) :
    trim (blank.1 ++ [','].intercalate texts) = [] ↔ texts = [] := by
  constructor
  · intro h
    cases texts with
    | nil => rfl
    | cons x texts =>
      have hx := htexts x (by simp)
      have hall : ∀ c ∈ x, isWhitespace c = true := by
        intro c hc
        by_contra hcw
        refine absurd h (trim_ne_nil_of_mem (c := c) ?_ (Bool.eq_false_iff.mpr hcw))
        exact List.mem_append_right _ (mem_intercalate (List.mem_cons_self) hc)
      exact absurd (trim_eq_nil hall) hx
  · rintro rfl
    exact trim_eq_nil (by simpa [List.intercalate] using blank.isWhitespace)

/-- A pair of an object is trimmed to its key, the colon and its value. -/
theorem insertPair_text {parseF64 : Str → Option F} {key : List Piece} (hkey : ':' ∉ chars key)
    {value : Tree} {v : JsonValue F} (hvalue : parseJsonValue parseF64 value.text = some v)
    (before behindKey beforeValue after : Blank) (map : List (Str × JsonValue F)) :
    insertPair (parseJsonValue parseF64) map
        (trim (before.1 ++ stringText key ++ behindKey.1 ++
          ':' :: (beforeValue.1 ++ value.text ++ after.1))) =
      some (insertMember map (readString key) v) := by
  have hcore : trim (before.1 ++ stringText key ++ behindKey.1 ++
      ':' :: (beforeValue.1 ++ value.text ++ after.1)) =
      stringText key ++ behindKey.1 ++ ':' :: (beforeValue.1 ++ value.text) := by
    have hsolid :
        Solid (stringText key ++ behindKey.1 ++ ':' :: (beforeValue.1 ++ value.text)) := by
      obtain ⟨c, -, hhead, -, hc, -⟩ := solid_string key
      obtain ⟨-, d, -, hlast, -, hd⟩ := solid_tree value
      refine ⟨c, d, ?_, ?_, hc, hd⟩
      · rw [List.append_assoc, List.head?_append, hhead, Option.some_or]
      · rw [← List.singleton_append, ← List.append_assoc, ← List.append_assoc,
          List.getLast?_append, hlast, Option.some_or]
    have hassoc : before.1 ++ stringText key ++ behindKey.1 ++
        ':' :: (beforeValue.1 ++ value.text ++ after.1) =
        before.1 ++ (stringText key ++ behindKey.1 ++ ':' :: (beforeValue.1 ++ value.text)) ++
          after.1 := by
      simp
    rw [hassoc, hsolid.trim_surround]
  have hcolon : ':' ∉ stringText key ++ behindKey.1 := by
    intro h
    rcases List.mem_append.mp h with h | h
    · exact colon_not_mem_stringText hkey h
    · exact absurd (behindKey.isWhitespace ':' h) (by decide)
  have hkeytrim : trim (stringText key ++ behindKey.1) = stringText key := by
    rw [trim_append behindKey.isWhitespace, (solid_string key).trim_eq]
  have hvaluetrim : trim (beforeValue.1 ++ value.text) = value.text := by
    have hsolid := (solid_tree value).trim_surround beforeValue .empty
    simpa [Blank.empty] using hsolid
  rw [hcore, insertPair, splitColon_append hcolon]
  dsimp only
  rw [hkeytrim, hvaluetrim, parseJsonValue_string, hvalue]
  rfl

mutual

/-- The reader finds the structure of a text whose keys have no colon. -/
theorem parse_tree {parseF64 : Str → Option F} {f64 : NumberText → F} :
    (t : Tree) → t.NumbersRead parseF64 f64 → t.KeysClear → (before after : Blank) →
    parseJsonValue parseF64 (before.1 ++ t.text ++ after.1) = some (t.parsed f64)
  | .null, _, _, before, after => by
    have htrim := (solid_tree .null).trim_surround before after
    rw [parseJsonValue_eq, parseStep, htrim]
    rfl
  | .bool b, _, _, before, after => by
    have htrim := (solid_tree (.bool b)).trim_surround before after
    rw [parseJsonValue_eq, parseStep, htrim]
    cases b <;> rfl
  | .number x, hnum, _, before, after => by
    have htrim := (solid_tree (.number x)).trim_surround before after
    obtain ⟨c, s, htext, hc⟩ := x.head
    have hread : parseF64 x.text = some (f64 x) := hnum x rfl
    rw [Tree.text, htext] at htrim
    rw [Tree.text, htext, parseJsonValue_eq, parseStep_number htrim hc, ← htext, hread]
    rfl
  | .string s, _, _, before, after => by
    have htrim := (solid_tree (.string s)).trim_surround before after
    rw [parseJsonValue_eq, parseStep_string htrim, unescape_pieces]
    rfl
  | .array blank items, hnum, hclear, before, after => by
    have htrim := (solid_tree (.array blank items)).trim_surround before after
    have hne := trim_items_ne_nil items
    rw [parseJsonValue_eq, parseStep_array htrim]
    by_cases hitems : items.texts = []
    · rw [if_pos ((trim_body_eq_nil_iff blank hne).mpr hitems)]
      cases items with
      | nil => rfl
      | cons b item a rest => cases hitems
    · rw [if_neg (mt (trim_body_eq_nil_iff blank hne).mp hitems),
        splitJsonItems_intercalate hitems (passes_items 0 (Int.le_refl 0) items) hne,
        parse_items items hnum.2 hclear.2]
      rfl
  | .object blank members, hnum, hclear, before, after => by
    have htrim := (solid_tree (.object blank members)).trim_surround before after
    have hne := trim_members_ne_nil members
    rw [parseJsonValue_eq, parseStep_object htrim]
    by_cases hmembers : members.texts = []
    · rw [if_pos ((trim_body_eq_nil_iff blank hne).mpr hmembers)]
      cases members with
      | nil => rfl
      | cons b key m v value a rest => cases hmembers
    · rw [if_neg (mt (trim_body_eq_nil_iff blank hne).mp hmembers),
        splitJsonItems_intercalate hmembers (passes_members 0 (Int.le_refl 0) members) hne,
        parse_members members hnum.2 hclear.2 hclear.1]
      rfl

theorem parse_items {parseF64 : Str → Option F} {f64 : NumberText → F} :
    (items : Items) →
    items.Forall (fun t => ∀ x, t = .number x → parseF64 x.text = some (f64 x)) →
    items.Forall (fun t => ∀ k ∈ t.keys, ':' ∉ chars k) →
    (items.texts.map trim).mapM (parseJsonValue parseF64) = some (items.parsed f64)
  | .nil, _, _ => rfl
  | .cons before item after rest, hnum, hclear => by
    have hitem : parseJsonValue parseF64 item.text = some (item.parsed f64) := by
      have hparse := parse_tree item hnum.1 hclear.1 .empty .empty
      simpa [Blank.empty] using hparse
    rw [Items.texts, List.map_cons, List.mapM_cons, (solid_tree item).trim_surround, hitem,
      parse_items rest hnum.2 hclear.2]
    rfl

theorem parse_members {parseF64 : Str → Option F} {f64 : NumberText → F} :
    (members : Members) →
    members.Forall (fun t => ∀ x, t = .number x → parseF64 x.text = some (f64 x)) →
    members.Forall (fun t => ∀ k ∈ t.keys, ':' ∉ chars k) →
    (∀ k ∈ members.keys, ':' ∉ chars k) → (map : List (Str × JsonValue F)) →
    (members.texts.map trim).foldlM (insertPair (parseJsonValue parseF64)) map =
      some ((members.parsed f64).foldl (fun map m => insertMember map m.1 m.2) map)
  | .nil, _, _, _, _ => rfl
  | .cons before key behindKey beforeValue value after rest, hnum, hclear, hkeys, map => by
    have hvalue : parseJsonValue parseF64 value.text = some (value.parsed f64) := by
      have hparse := parse_tree value hnum.1 hclear.1 .empty .empty
      simpa [Blank.empty] using hparse
    rw [Members.keys, List.forall_mem_cons] at hkeys
    rw [Members.texts, List.map_cons, List.foldlM_cons, insertPair_text hkeys.1 hvalue]
    exact parse_members rest hnum.2 hclear.2 hkeys.2 _

end

/-! ## Maps -/

/-- The same value, in whatever order the maps hold their members. -/
inductive JsonValue.Same : JsonValue F → JsonValue F → Prop
  | null : Same .null .null
  | bool (b : Bool) : Same (.bool b) (.bool b)
  | number (x : F) : Same (.number x) (.number x)
  | string (s : Str) : Same (.string s) (.string s)
  | array {as bs : List (JsonValue F)} (hlen : as.length = bs.length)
      (h : ∀ (i : ℕ) a b, as[i]? = some a → bs[i]? = some b → Same a b) :
      Same (.array as) (.array bs)
  | object {ms ns : List (Str × JsonValue F)}
      (hkeys : ∀ k, (ms.lookup k).isSome = (ns.lookup k).isSome)
      (h : ∀ k a b, ms.lookup k = some a → ns.lookup k = some b → Same a b) :
      Same (.object ms) (.object ns)

open JsonValue (Same)

theorem mem_of_lookup_eq_some {ms : List (Str × JsonValue F)} {k : Str} {v : JsonValue F}
    (h : ms.lookup k = some v) : (k, v) ∈ ms := by
  induction ms with
  | nil => cases h
  | cons m ms ih =>
    obtain ⟨k', v'⟩ := m
    rw [List.lookup_cons] at h
    split at h
    · next heq =>
      cases h
      rw [eq_of_beq heq]
      exact List.mem_cons_self
    · exact List.mem_cons_of_mem _ (ih h)

/-- With distinct keys every member is found. -/
theorem lookup_eq_some_of_mem {ms : List (Str × JsonValue F)} (hnodup : (ms.map Prod.fst).Nodup)
    {k : Str} {v : JsonValue F} (h : (k, v) ∈ ms) : ms.lookup k = some v := by
  induction ms with
  | nil => cases h
  | cons m ms ih =>
    obtain ⟨k', v'⟩ := m
    rw [List.map_cons, List.nodup_cons] at hnodup
    rw [List.lookup_cons]
    rcases List.mem_cons.mp h with heq | h
    · cases heq
      rw [beq_self_eq_true]
    · have hne : (k == k') = false := by
        rw [beq_eq_false_iff_ne]
        intro heq
        exact hnodup.1 (List.mem_map.mpr ⟨_, h, heq⟩)
      rw [hne]
      exact ih hnodup.2 h

theorem mem_insertMember {map : List (Str × JsonValue F)} {k : Str} {v : JsonValue F}
    {m : Str × JsonValue F} (h : m ∈ insertMember map k v) : m ∈ map ∨ m = (k, v) := by
  unfold insertMember at h
  split at h
  · obtain ⟨m', hm', heq⟩ := List.mem_map.mp h
    split at heq
    · exact .inr heq.symm
    · exact .inl (heq ▸ hm')
  · rcases List.mem_append.mp h with h | h
    · exact .inl h
    · exact .inr (List.mem_singleton.mp h)

/-- Pairs with distinct keys are the map they make. -/
theorem foldl_insertMember_of_nodup {map pairs : List (Str × JsonValue F)}
    (hnodup : ((map ++ pairs).map Prod.fst).Nodup) :
    pairs.foldl (fun map m => insertMember map m.1 m.2) map = map ++ pairs := by
  induction pairs generalizing map with
  | nil => exact (List.append_nil map).symm
  | cons m pairs ih =>
    have hnew : map.any (·.1 == m.1) = false := by
      rw [List.any_eq_false]
      intro m' hm' heq
      rw [List.map_append, List.nodup_append'] at hnodup
      refine hnodup.2.2 (List.mem_map_of_mem hm') ?_
      rw [eq_of_beq heq]
      exact List.mem_cons_self
    rw [List.foldl_cons, insertMember, hnew, if_neg Bool.false_ne_true]
    rw [ih (by simpa using hnodup), List.append_assoc, List.singleton_append]

theorem toMap_of_nodup {pairs : List (Str × JsonValue F)} (hnodup : (pairs.map Prod.fst).Nodup) :
    toMap pairs = pairs := by
  rw [toMap, foldl_insertMember_of_nodup (by simpa using hnodup), List.nil_append]

theorem mem_toMap {pairs : List (Str × JsonValue F)} {m : Str × JsonValue F}
    (h : m ∈ toMap pairs) : m ∈ pairs := by
  have hgeneral : ∀ (pairs map : List (Str × JsonValue F)),
      m ∈ pairs.foldl (fun map m => insertMember map m.1 m.2) map → m ∈ map ∨ m ∈ pairs := by
    intro pairs
    induction pairs with
    | nil => exact fun map h => .inl h
    | cons p pairs ih =>
      intro map h
      rcases ih (insertMember map p.1 p.2) h with h | h
      · rcases mem_insertMember h with h | rfl
        · exact .inl h
        · exact .inr List.mem_cons_self
      · exact .inr (List.mem_cons_of_mem _ h)
  exact (hgeneral pairs [] h).resolve_left (by simp)

end LatencyOS.Json
