import LatencyOS.Lib.Str
import LatencyOS.Lib.Json

/-!
# The JSON reader of the language server

`parse_json_value` looks at the first and last character of a trimmed text.  What is between
brackets or braces is split at the commas outside strings and brackets, what is between quotes
goes through a second scanner that undoes the escapes, and everything else is left to the
parser of floating-point numbers.
-/

namespace LatencyOS.Json

open Format

variable {F : Type}

/-- What an escaped character stands for; behind `\u` the digits stay. -/
def unescapeChar (c : Char) : Char :=
  if c = 'b' then '\x08' else if c = 'f' then '\x0c' else if c = 'n' then '\n'
  else if c = 'r' then '\r' else if c = 't' then '\t' else c

/-- The loop that undoes escapes. -/
def unescape : Str → Str
  | [] => []
  | c :: s =>
    if c = '\\' then
      match s with
      | [] => ['\\']
      | d :: s => unescapeChar d :: unescape s
    else c :: unescape s

/-- What `split_json_items` keeps from character to character. -/
structure ItemScan where
  depth : ℤ
  inStr : Bool
  escape : Bool

namespace ItemScan

def start : ItemScan := ⟨0, false, false⟩

/-- The state behind a character that is pushed. -/
def next (st : ItemScan) (c : Char) : ItemScan :=
  if st.escape then { st with escape := false }
  else if c = '\\' ∧ st.inStr then { st with escape := true }
  else if c = '"' then { st with inStr := !st.inStr }
  else if st.inStr then st
  else if c = '{' ∨ c = '[' then { st with depth := st.depth + 1 }
  else if c = '}' ∨ c = ']' then { st with depth := st.depth - 1 }
  else st

/-- A comma between two items. -/
def Splits (st : ItemScan) (c : Char) : Prop :=
  c = ',' ∧ st.escape = false ∧ st.inStr = false ∧ st.depth = 0

instance (st : ItemScan) (c : Char) : Decidable (st.Splits c) :=
  inferInstanceAs (Decidable (_ ∧ _ ∧ _ ∧ _))

end ItemScan

/-- The loop of `split_json_items`. -/
def splitFrom (st : ItemScan) (cur : Str) : Str → List Str
  | [] => if trim cur = [] then [] else [trim cur]
  | c :: s =>
    if st.Splits c then trim cur :: splitFrom st [] s else splitFrom (st.next c) (cur ++ [c]) s

/-- `split_json_items` -/
def splitJsonItems (s : Str) : List Str := splitFrom .start [] s

/-- `splitn(2, ':')`, if there are two parts. -/
def splitColon (pair : Str) : Option (Str × Str) :=
  if ':' ∈ pair then
    some (pair.takeWhile (· != ':'), (pair.dropWhile (· != ':')).drop 1)
  else none

/-- `HashMap::insert`, on an association list. -/
def insertMember (map : List (Str × JsonValue F)) (key : Str) (val : JsonValue F) :
    List (Str × JsonValue F) :=
  if map.any (·.1 == key) then map.map fun m => if m.1 = key then (key, val) else m
  else map ++ [(key, val)]

/-- A pair of an object, added to the map; what is not a pair with a string is left out. -/
def insertPair (parse : Str → Option (JsonValue F)) (map : List (Str × JsonValue F))
    (pair : Str) : Option (List (Str × JsonValue F)) :=
  match splitColon pair with
  | none => some map
  | some (key, val) =>
    match parse (trim key) with
    | none => none
    | some (.string k) => (parse (trim val)).map (insertMember map k)
    | some _ => some map

/-- The text without its first and last character. -/
def inner (s : Str) : Str := s.tail.dropLast

/-- `parse_json_value`, with the parser for the parts of the text. -/
def parseStep (parseF64 : Str → Option F) (parse : Str → Option (JsonValue F)) (text : Str) :
    Option (JsonValue F) :=
  let s := trim text
  if s = "null".toList then some .null
  else if s = "true".toList then some (.bool true)
  else if s = "false".toList then some (.bool false)
  else if s.head? = some '"' ∧ s.getLast? = some '"' ∧ 2 ≤ s.length then
    some (.string (unescape (inner s)))
  else if s.head? = some '[' ∧ s.getLast? = some ']' then
    let items := trim (inner s)
    if items = [] then some (.array [])
    else ((splitJsonItems items).mapM parse).map .array
  else if s.head? = some '{' ∧ s.getLast? = some '}' then
    let pairs := trim (inner s)
    if pairs = [] then some (.object [])
    else ((splitJsonItems pairs).foldlM (insertPair parse) []).map .object
  else (parseF64 s).map .number

/-- `parse_json_value`, to a depth. -/
def parseJsonDepth (parseF64 : Str → Option F) : ℕ → Str → Option (JsonValue F)
  | 0 => fun _ => none
  | depth + 1 => parseStep parseF64 (parseJsonDepth parseF64 depth)

/-- `parse_json_value`: every part is shorter than the text, so its length is a depth that is
enough. -/
def parseJsonValue (parseF64 : Str → Option F) (s : Str) : Option (JsonValue F) :=
  parseJsonDepth parseF64 (s.length + 1) s

/-! ## The depth is enough -/

theorem length_splitFrom_le {st : ItemScan} {cur s item : Str} (h : item ∈ splitFrom st cur s) :
    item.length ≤ cur.length + s.length := by
  induction s generalizing st cur with
  | nil =>
    rw [splitFrom] at h
    split at h
    · cases h
    · rw [List.mem_singleton.mp h]
      exact length_trim_le cur
  | cons c s ih =>
    rw [List.length_cons]
    rw [splitFrom] at h
    split at h
    · rcases List.mem_cons.mp h with rfl | h
      · exact (length_trim_le cur).trans (Nat.le_add_right _ _)
      · have hle := ih h
        rw [List.length_nil] at hle
        omega
    · have hle := ih h
      rw [List.length_append, List.length_singleton] at hle
      omega

/-- An item between brackets is shorter than the text. -/
theorem length_item_lt {text item : Str} {c : Char} (hhead : (trim text).head? = some c)
    (h : item ∈ splitJsonItems (trim (inner (trim text)))) : item.length < text.length := by
  have hitem := length_splitFrom_le h
  have hinner := length_trim_le (inner (trim text))
  have htrim := length_trim_le text
  have hlen : (inner (trim text)).length < (trim text).length := by
    obtain ⟨r, hr⟩ := List.head?_eq_some_iff.mp hhead
    rw [hr, inner, List.tail_cons, List.length_dropLast, List.length_cons]
    omega
  rw [List.length_nil, Nat.zero_add] at hitem
  omega

theorem splitColon_eq_some {pair key val : Str} (h : splitColon pair = some (key, val)) :
    pair = key ++ ':' :: val ∧ ':' ∉ key := by
  unfold splitColon at h
  split at h
  · next hmem =>
    cases h
    have hstop : pair.dropWhile (· != ':') ≠ [] := by
      rw [Ne, List.dropWhile_eq_nil_iff]
      intro hall
      simpa using hall ':' hmem
    cases hdrop : pair.dropWhile (· != ':') with
    | nil => exact absurd hdrop hstop
    | cons d rest =>
      have hd : d = ':' := by
        have hhead := List.head?_dropWhile_not (· != ':') pair
        rw [hdrop] at hhead
        simpa using hhead
      refine ⟨?_, fun hin => by simpa using List.mem_takeWhile_imp hin⟩
      subst hd
      rw [List.drop_succ_cons, List.drop_zero, ← hdrop, List.takeWhile_append_dropWhile]
  · cases h

/-- A step asks only for shorter texts. -/
theorem parseStep_congr {parseF64 : Str → Option F} {parse parse' : Str → Option (JsonValue F)}
    {text : Str} (h : ∀ t : Str, t.length < text.length → parse t = parse' t) :
    parseStep parseF64 parse text = parseStep parseF64 parse' text := by
  have hmap : ∀ items : List Str, (∀ t ∈ items, t.length < text.length) →
      items.mapM parse = items.mapM parse' := by
    intro items hitems
    induction items with
    | nil => rfl
    | cons t items ih =>
      rw [List.forall_mem_cons] at hitems
      rw [List.mapM_cons, List.mapM_cons, h t hitems.1, ih hitems.2]
  have hpair : ∀ (map : List (Str × JsonValue F)) (t : Str), t.length < text.length →
      insertPair parse map t = insertPair parse' map t := by
    intro map t ht
    unfold insertPair
    cases hsplit : splitColon t with
    | none => rfl
    | some kv =>
      obtain ⟨key, val⟩ := kv
      obtain ⟨rfl, -⟩ := splitColon_eq_some hsplit
      have hkey := length_trim_le key
      have hval := length_trim_le val
      rw [List.length_append, List.length_cons] at ht
      simp only [h (trim key) (by omega), h (trim val) (by omega)]
  have hfold : ∀ (pairs : List Str) (map : List (Str × JsonValue F)),
      (∀ t ∈ pairs, t.length < text.length) →
      pairs.foldlM (insertPair parse) map = pairs.foldlM (insertPair parse') map := by
    intro pairs map hpairs
    induction pairs generalizing map with
    | nil => rfl
    | cons t pairs ih =>
      rw [List.forall_mem_cons] at hpairs
      rw [List.foldlM_cons, List.foldlM_cons, hpair map t hpairs.1]
      simp only [ih _ hpairs.2]
  unfold parseStep
  dsimp only
  split
  · rfl
  split
  · rfl
  split
  · rfl
  split
  · rfl
  split
  · next harray =>
    split
    · rfl
    · rw [hmap _ fun _ ht => length_item_lt harray.1 ht]
  split
  · next hobject =>
    split
    · rfl
    · rw [hfold _ _ fun _ ht => length_item_lt hobject.1 ht]
  · rfl

theorem parseJsonDepth_eq (parseF64 : Str → Option F) {n m : ℕ} {s : Str} (hn : s.length < n)
    (hm : s.length < m) : parseJsonDepth parseF64 n s = parseJsonDepth parseF64 m s := by
  induction n generalizing m s with
  | zero => exact absurd hn (Nat.not_lt_zero _)
  | succ n ih =>
    cases m with
    | zero => exact absurd hm (Nat.not_lt_zero _)
    | succ m =>
      exact parseStep_congr fun _ ht => ih (by omega) (by omega)

/-- `parse_json_value` calls itself for the parts of the text. -/
theorem parseJsonValue_eq (parseF64 : Str → Option F) (s : Str) :
    parseJsonValue parseF64 s = parseStep parseF64 (parseJsonValue parseF64) s :=
  parseStep_congr fun _ ht => parseJsonDepth_eq parseF64 ht (Nat.lt_succ_self _)

end LatencyOS.Json
