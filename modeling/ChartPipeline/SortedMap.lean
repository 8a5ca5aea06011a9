/-!
# Maps kept in key order

A `SortedMap` is an association list whose keys strictly increase, so a map has one representation
and reading its entries off the list is reading them in key order.  Every update is one `upsert`:
the entry at a key is made from what is there, or created in its place.

* `mem_keys_upsert` : the keys after an update are the old ones and the new one
* `get?_upsert` : an update changes the value at its own key and no other
-/

namespace ChartPipeline

instance instTransText : Trans (α := String) (· < ·) (· < ·) (· < ·) :=
  ⟨fun h₁ h₂ => String.lt_trans h₁ h₂⟩

instance instIrreflText : Std.Irrefl (α := String) (· < ·) := ⟨String.lt_irrefl⟩

instance instTrichotomousText : Std.Trichotomous (α := String) (· < ·) :=
  ⟨fun _ _ h₁ h₂ => String.le_antisymm (String.not_lt.1 h₂) (String.not_lt.1 h₁)⟩

/-- An association list whose keys strictly increase. -/
structure SortedMap (κ : Type) [LT κ] (α : Type) where
  entries : List (κ × α)
  sorted : entries.Pairwise (fun a b => a.1 < b.1)

namespace SortedMap

variable {κ α β : Type} [LT κ]

/-- The map without entries. -/
def empty : SortedMap κ α := ⟨[], .nil⟩

instance : EmptyCollection (SortedMap κ α) := ⟨empty⟩
instance : Inhabited (SortedMap κ α) := ⟨empty⟩

/-- The keys, in order. -/
def keys (m : SortedMap κ α) : List κ := m.entries.map Prod.fst

/-- The values, in the order of their keys. -/
def values (m : SortedMap κ α) : List α := m.entries.map Prod.snd

/-- The number of entries. -/
def size (m : SortedMap κ α) : Nat := m.entries.length

/-- Whether there is no entry. -/
def isEmpty (m : SortedMap κ α) : Bool := m.entries.isEmpty

/-- The value at a key. -/
def get? [DecidableEq κ] (m : SortedMap κ α) (k : κ) : Option α :=
  (m.entries.find? (·.1 = k)).map Prod.snd

/-- Whether the key has an entry. -/
def contains [DecidableEq κ] (m : SortedMap κ α) (k : κ) : Bool := (m.get? k).isSome

variable [DecidableEq κ] [DecidableLT κ]

/-- Changes the value at `k` in a list with increasing keys, or inserts one in its place. -/
def upsertEntries (k : κ) (f : Option α → α) : List (κ × α) → List (κ × α)
  | [] => [(k, f none)]
  | e :: rest =>
    if k < e.1 then (k, f none) :: e :: rest
    else if e.1 = k then (k, f (some e.2)) :: rest
    else e :: upsertEntries k f rest

/-- The keys after an insertion are the old ones and the new one. -/
theorem mem_keys_upsertEntries (k : κ) (f : Option α → α) (es : List (κ × α)) (x : κ) :
    x ∈ (upsertEntries k f es).map Prod.fst ↔ x = k ∨ x ∈ es.map Prod.fst := by
  induction es with
  | nil => simp [upsertEntries]
  | cons e rest ih =>
    unfold upsertEntries
    split
    · simp
    · split
      · next h => subst h; simp
      -- the key goes in further on
      · simp only [List.map_cons, List.mem_cons, ih]
        constructor
        · rintro (h | h | h) <;> simp [h]
        · rintro (h | h | h) <;> simp [h]

variable [Trans (α := κ) (· < ·) (· < ·) (· < ·)] [Std.Trichotomous (α := κ) (· < ·)]

/-- An insertion keeps the keys in order. -/
theorem pairwise_upsertEntries (k : κ) (f : Option α → α) (es : List (κ × α))
    (h : es.Pairwise (fun a b => a.1 < b.1)) :
    (upsertEntries k f es).Pairwise (fun a b => a.1 < b.1) := by
  induction es with
  | nil => simp [upsertEntries]
  | cons e rest ih =>
    have ⟨hhead, htail⟩ := List.pairwise_cons.1 h
    unfold upsertEntries
    split
    · next hlt =>
      -- the new key stands in front of all others
      refine List.pairwise_cons.2 ⟨fun b hb => ?_, h⟩
      rcases List.mem_cons.1 hb with rfl | hb
      · exact hlt
      · exact Trans.trans (r := fun a b : κ => a < b) (s := fun a b : κ => a < b) hlt (hhead b hb)
    · next hnlt =>
      split
      · next heq => exact List.pairwise_cons.2 ⟨fun b hb => heq ▸ hhead b hb, htail⟩
      · next hne =>
        refine List.pairwise_cons.2 ⟨fun b hb => ?_, ih htail⟩
        -- what follows the first key is the new one or an old one; the first is below both
        have hmem := (mem_keys_upsertEntries k f rest b.1).1 (List.mem_map_of_mem hb)
        rcases hmem with hk | hmem
        · rw [hk]
          refine Classical.byContradiction fun hn => hne ?_
          exact Std.Trichotomous.trichotomous (r := fun a b : κ => a < b) e.1 k hn hnlt
        · obtain ⟨b', hb', hbeq⟩ := List.mem_map.1 hmem
          exact hbeq ▸ hhead b' hb'

/-- Changes the value at `k` from what is there, or creates it. -/
def upsert (m : SortedMap κ α) (k : κ) (f : Option α → α) : SortedMap κ α :=
  ⟨upsertEntries k f m.entries, pairwise_upsertEntries k f m.entries m.sorted⟩

/-- Sets the value at `k`. -/
def insert (m : SortedMap κ α) (k : κ) (v : α) : SortedMap κ α := m.upsert k fun _ => v

/-- Sets the value at `k` unless it has one. -/
def insertIfNew (m : SortedMap κ α) (k : κ) (v : α) : SortedMap κ α := m.upsert k (·.getD v)

/-- The map of a list of entries; the last of several for one key stays. -/
def ofList (es : List (κ × α)) : SortedMap κ α := es.foldl (fun m e => m.insert e.1 e.2) ∅

/-- Brings in the entries of another map; where both have a key, `f` joins the two values, the
value of `m` first. -/
def mergeWith (f : α → α → α) (m other : SortedMap κ α) : SortedMap κ α :=
  other.entries.foldl (fun acc e => acc.upsert e.1 fun
    | some v => f v e.2
    | none => e.2) m

/-- The entries of both maps; `m` wins where both have a key. -/
def union (m other : SortedMap κ α) : SortedMap κ α := mergeWith (fun v _ => v) m other

omit [DecidableLT κ] [Trans (α := κ) (· < ·) (· < ·) (· < ·)]
  [Std.Trichotomous (α := κ) (· < ·)] [DecidableEq κ] in
/-- Maps with the same entries are the same. -/
theorem ext {m n : SortedMap κ α} (h : m.entries = n.entries) : m = n := by
  cases m; cases n; cases h; rfl

/-- An update adds its own key and takes no other one away. -/
theorem mem_keys_upsert (m : SortedMap κ α) (k : κ) (f : Option α → α) (x : κ) :
    x ∈ (m.upsert k f).keys ↔ x = k ∨ x ∈ m.keys :=
  mem_keys_upsertEntries k f m.entries x

/-! ### The value at a key -/

omit [Std.Trichotomous (α := κ) (· < ·)] in
/-- What is found after an insertion: the new value at its key, and what was there at any other. -/
theorem find?_upsertEntries [Std.Irrefl (α := κ) (· < ·)] (k : κ) (f : Option α → α)
    (es : List (κ × α)) (h : es.Pairwise (fun a b => a.1 < b.1)) (x : κ) :
    (upsertEntries k f es).find? (·.1 = x) =
      if x = k then some (k, f ((es.find? (·.1 = k)).map Prod.snd))
      else es.find? (·.1 = x) := by
  induction es with
  | nil => by_cases hx : k = x <;> simp [upsertEntries, hx, eq_comm]
  | cons e rest ih =>
    have ⟨hhead, htail⟩ := List.pairwise_cons.1 h
    unfold upsertEntries
    split
    · next hlt =>
      -- all keys are greater, so nothing was at the new one
      have hnone : (e :: rest).find? (·.1 = k) = none := by
        refine List.find?_eq_none.2 fun b hb => ?_
        have : k < b.1 := by
          rcases List.mem_cons.1 hb with rfl | hb
          · exact hlt
          · exact Trans.trans (r := fun a b : κ => a < b) (s := fun a b : κ => a < b) hlt
              (hhead b hb)
        simpa using fun hk : b.1 = k => Std.Irrefl.irrefl (r := fun a b : κ => a < b) k (hk ▸ this)
      by_cases hx : x = k
      · subst hx; simp [hnone]
      · rw [List.find?_cons_of_neg (by simpa using fun hk : k = x => hx hk.symm), if_neg hx]
    · split
      · next heq =>
        subst heq
        by_cases hx : x = e.1
        · simp [hx]
        · have hex : ¬ e.1 = x := fun hk => hx hk.symm
          simp [hx, hex]
      · next hne =>
        by_cases hx : x = k
        · subst hx; simp [hne, ih htail]
        · by_cases hex : e.1 = x
          · simp [hex, hx]
          · simp [hex, hx, ih htail]

/-- An update changes the value at its own key and no other. -/
theorem get?_upsert [Std.Irrefl (α := κ) (· < ·)] (m : SortedMap κ α) (k : κ)
    (f : Option α → α) (x : κ) :
    (m.upsert k f).get? x = if x = k then some (f (m.get? k)) else m.get? x := by
  simp only [get?, upsert, find?_upsertEntries k f m.entries m.sorted x]
  split <;> simp

end SortedMap

end ChartPipeline
