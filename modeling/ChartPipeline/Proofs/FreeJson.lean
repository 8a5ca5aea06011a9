import ChartPipeline.Proofs.Lookup
import ChartPipeline.Value.Decode
import Mathlib.Data.List.Forall2
import Mathlib.Data.List.Perm.Basic

/-!
# JSON in a document

A document shows a JSON value with the fields of its objects in any order.  Records and parts with
several forms find the fields that they read there, and free JSON comes out as it was: its names
stand in order again.

## Key results

- `SortedMap.ofList_of_perm`: entries in any order make up the map
- `Json.ShownBy.toJson?`: free JSON that a document shows is read off it
- `Json.exists_toJson?`: the value of a JSON value shows it
- `Place.exists_record`, `Place.exists_variant`: the fields of a record are those shown
- `Place.exists_form`: the name of a form and what is shown under it
-/

namespace ChartPipeline

namespace SortedMap

variable {κ α : Type} [LT κ] [DecidableEq κ] [DecidableLT κ]

/-- A new entry is added and the others stay. -/
theorem upsertEntries_perm {k : κ} (f : Option α → α) {es : List (κ × α)}
    (hk : k ∉ es.map Prod.fst) : (upsertEntries k f es).Perm ((k, f none) :: es) := by
  induction es with
  | nil => exact .refl _
  | cons e rest ih =>
    obtain ⟨hne, hrest⟩ := not_or.1 (by simpa only [List.map_cons, List.mem_cons] using hk)
    unfold upsertEntries
    split
    · exact .refl _
    · rw [if_neg fun h => hne h.symm]
      exact ((ih hrest).cons e).trans (.swap _ _ _)

variable [Trans (α := κ) (· < ·) (· < ·) (· < ·)] [Std.Trichotomous (α := κ) (· < ·)]

/-- The entries of a map that is filled one by one. -/
theorem entries_foldl_insert (es : List (κ × α)) (m : SortedMap κ α) :
    (es.foldl (fun m e => m.insert e.1 e.2) m).entries =
      es.foldl (fun acc e => upsertEntries e.1 (fun _ => e.2) acc) m.entries := by
  induction es generalizing m with
  | nil => rfl
  | cons e rest ih => exact ih (m.insert e.1 e.2)

/-- Entries at new and distinct keys are all there, beside those of the map. -/
theorem entries_foldl_insert_perm (es : List (κ × α)) (m : SortedMap κ α)
    (h : ((m.entries ++ es).map Prod.fst).Nodup) :
    (es.foldl (fun m e => m.insert e.1 e.2) m).entries.Perm (m.entries ++ es) := by
  induction es generalizing m with
  | nil => rw [List.append_nil]; exact .refl _
  | cons e rest ih =>
    have hnew : e.1 ∉ m.entries.map Prod.fst := by
      rw [List.map_append, List.nodup_append] at h
      exact fun hmem => h.2.2 _ hmem e.1 (by simp) rfl
    have hinsert : (m.insert e.1 e.2).entries.Perm (e :: m.entries) :=
      upsertEntries_perm (fun _ => e.2) hnew
    -- what is left to insert stays apart from a map that has taken one entry over
    have hall : ((m.insert e.1 e.2).entries ++ rest).Perm (m.entries ++ e :: rest) :=
      (hinsert.append_right rest).trans List.perm_middle.symm
    exact (ih _ ((hall.map Prod.fst).nodup_iff.2 h)).trans hall

/-- A list with distinct keys has its entries in the map made of it. -/
theorem entries_ofList_perm {es : List (κ × α)} (h : (es.map Prod.fst).Nodup) :
    (ofList es).entries.Perm es :=
  entries_foldl_insert_perm es ∅ h

variable [Std.Irrefl (α := κ) (· < ·)]

omit [DecidableEq κ] [DecidableLT κ] [Std.Trichotomous (α := κ) (· < ·)]
  [Trans (α := κ) (· < ·) (· < ·) (· < ·)] in
/-- The keys of a map are distinct, as they ascend. -/
theorem nodup_keys (m : SortedMap κ α) : (m.entries.map Prod.fst).Nodup :=
  List.pairwise_map.2 (m.sorted.imp fun {a b} hlt (heq : a.1 = b.1) =>
    Std.Irrefl.irrefl (r := fun a b : κ => a < b) b.1 (heq ▸ hlt))

/-- The entries of a map, in any order, make it up. -/
theorem ofList_of_perm {es : List (κ × α)} {m : SortedMap κ α} (h : es.Perm m.entries) :
    ofList es = m := by
  have hperm : (ofList es).entries.Perm m.entries :=
    (entries_ofList_perm ((h.map Prod.fst).nodup_iff.2 m.nodup_keys)).trans h
  refine ext_get? fun k => Option.ext fun v => ?_
  have hmem : (k, v) ∈ (ofList es).entries ↔ (k, v) ∈ m.entries := hperm.mem_iff
  rwa [mem_entries_iff, mem_entries_iff] at hmem

end SortedMap

/-- The map with these values at string keys. -/
def Fields.toValue (fields : Fields) : Value := .map (fields.map fun e => (.str e.1, e.2))

/-! ### JSON values -/

namespace Json

mutual

/-- All floats are finite, and the names of an object are related as they stand. -/
def Tidy (r : String → String → Prop) : Json → Prop
  | float x => FloatText.finite x = true
  | arr items => TidyItems r items
  | obj fields => (fields.Pairwise fun e f => r e.1 f.1) ∧ TidyFields r fields
  | _ => True

/-- All items are tidy. -/
def TidyItems (r : String → String → Prop) : List Json → Prop
  | [] => True
  | j :: rest => Tidy r j ∧ TidyItems r rest

/-- All fields are tidy. -/
def TidyFields (r : String → String → Prop) : List (String × Json) → Prop
  | [] => True
  | (_, j) :: rest => Tidy r j ∧ TidyFields r rest

end

/-- Free JSON: floats are finite, and an object has its names in order, each once. -/
def IsFree (j : Json) : Prop := j.Tidy (· < ·)

/-- Floats are finite, and an object has each name once. -/
def IsSound (j : Json) : Prop := j.Tidy (· ≠ ·)

mutual

/-- Whether a value has the parts of a JSON value, with the fields of objects in any order. -/
def ShownBy : Json → Value → Prop
  | null, v => v = .null
  | bool b, v => v = .bool b
  | int n, v => v = .int n
  | float x, v => v = .float x
  | str s, v => v = .str s
  | arr items, v => ∃ vs, v = .list vs ∧ ItemsShownBy items vs
  | obj fields, v => ∃ es es' : Fields, v = es.toValue ∧ es.Perm es' ∧ FieldsShownBy fields es'

/-- Whether values show items. -/
def ItemsShownBy : List Json → List Value → Prop
  | [], vs => vs = []
  | j :: rest, vs => ∃ v ws, vs = v :: ws ∧ ShownBy j v ∧ ItemsShownBy rest ws

/-- Whether named values show fields. -/
def FieldsShownBy : List (String × Json) → Fields → Prop
  | [], es => es = []
  | (name, j) :: rest, es => ∃ v es', es = (name, v) :: es' ∧ ShownBy j v ∧ FieldsShownBy rest es'

end

variable {r : String → String → Prop} {j : Json} {v : Value}

/-- Tidy items, one by one. -/
theorem tidyItems_iff {js : List Json} : TidyItems r js ↔ ∀ j ∈ js, j.Tidy r := by
  induction js with
  | nil => simp [TidyItems]
  | cons j rest ih => simp [TidyItems, ih]

/-- Tidy fields, one by one. -/
theorem tidyFields_iff {fs : List (String × Json)} : TidyFields r fs ↔ ∀ e ∈ fs, e.2.Tidy r := by
  induction fs with
  | nil => simp [TidyFields]
  | cons e rest ih => simp [TidyFields, ih]

mutual

/-- Names that are related more strictly are related. -/
theorem Tidy.imp {s : String → String → Prop} (hrs : ∀ a b, r a b → s a b) :
    {j : Json} → j.Tidy r → j.Tidy s
  | null, _ | bool _, _ | int _, _ | str _, _ => trivial
  | float _, h => h
  | arr _, h => TidyItems.imp hrs h
  | obj _, ⟨hnames, h⟩ => ⟨hnames.imp fun hr => hrs _ _ hr, TidyFields.imp hrs h⟩

/-- So they are in items. -/
theorem TidyItems.imp {s : String → String → Prop} (hrs : ∀ a b, r a b → s a b) :
    {js : List Json} → TidyItems r js → TidyItems s js
  | [], _ => trivial
  | _ :: _, ⟨hj, hjs⟩ => ⟨hj.imp hrs, hjs.imp hrs⟩

/-- So they are in fields. -/
theorem TidyFields.imp {s : String → String → Prop} (hrs : ∀ a b, r a b → s a b) :
    {fs : List (String × Json)} → TidyFields r fs → TidyFields s fs
  | [], _ => trivial
  | (_, _) :: _, ⟨hj, hjs⟩ => ⟨hj.imp hrs, hjs.imp hrs⟩

end

/-- Names in order are distinct. -/
theorem IsFree.isSound (h : j.IsFree) : j.IsSound := by
  have hne (a b : String) (hlt : a < b) : a ≠ b := fun heq => String.lt_irrefl b (heq ▸ hlt)
  exact Tidy.imp hne h

/-- Values show items one by one. -/
theorem itemsShownBy_iff {js : List Json} {vs : List Value} :
    ItemsShownBy js vs ↔ List.Forall₂ ShownBy js vs := by
  induction js generalizing vs with
  | nil => simp [ItemsShownBy]
  | cons j rest ih =>
    simp only [ItemsShownBy, ih, List.forall₂_cons_left_iff]
    constructor
    · rintro ⟨v, ws, rfl, hv, hws⟩
      exact ⟨v, ws, hv, hws, rfl⟩
    · rintro ⟨v, ws, hv, hws, rfl⟩
      exact ⟨v, ws, rfl, hv, hws⟩

/-- Nothing but null is shown as null. -/
theorem eq_null_of_shownBy (h : j.ShownBy .null) : j = null := by
  cases j with
  | null => rfl
  | bool | int | float | str => rw [ShownBy] at h; cases h
  | arr => obtain ⟨_, h, _⟩ := h; cases h
  | obj => obtain ⟨_, _, h, _⟩ := h; cases h

/-- A named value that shows a field. -/
def FieldShownBy (f : String × Json) (e : String × Value) : Prop := f.1 = e.1 ∧ f.2.ShownBy e.2

/-- Named values show fields one by one, under their names. -/
theorem fieldsShownBy_iff {fs : List (String × Json)} {es : Fields} :
    FieldsShownBy fs es ↔ List.Forall₂ FieldShownBy fs es := by
  induction fs generalizing es with
  | nil => simp [FieldsShownBy]
  | cons f rest ih =>
    simp only [FieldsShownBy, ih, List.forall₂_cons_left_iff]
    constructor
    · rintro ⟨v, es', rfl, hv, hes'⟩
      exact ⟨(f.1, v), es', ⟨rfl, hv⟩, hes', rfl⟩
    · rintro ⟨⟨_, v⟩, es', ⟨rfl, hv⟩, hes', rfl⟩
      exact ⟨v, es', rfl, hv, hes'⟩

/-- Fields and what shows them have the same names in the same order. -/
theorem FieldsShownBy.names {fs : List (String × Json)} {es : Fields} (h : FieldsShownBy fs es) :
    es.map Prod.fst = fs.map Prod.fst := by
  induction fieldsShownBy_iff.1 h with
  | nil => rfl
  | cons hf _ ih => rw [List.map_cons, List.map_cons, hf.1, ih (fieldsShownBy_iff.2 ‹_›)]

/-- The values of fields under their names. -/
def namedValues (fs : List (String × Json)) : Fields := fs.map fun e => (e.1, .ofJson e.2)

/-- The value of an object is the map of its named values. -/
theorem ofJson_obj (fs : List (String × Json)) :
    Value.ofJson (obj fs) = (namedValues fs).toValue := by
  rw [Value.ofJson, Fields.toValue]
  refine congrArg Value.map ?_
  induction fs with
  | nil => rfl
  | cons f rest ih =>
    rw [Value.ofFields, ih]
    rfl

mutual

/-- The value of a JSON value shows it. -/
theorem shownBy_ofJson : (j : Json) → j.ShownBy (.ofJson j)
  | null | bool _ | int _ | float _ | str _ => rfl
  | arr items => ⟨_, rfl, itemsShownBy_ofItems items⟩
  | obj fields => ⟨_, _, ofJson_obj fields, .refl _, fieldsShownBy_namedValues fields⟩

/-- The values of items show them. -/
theorem itemsShownBy_ofItems : (js : List Json) → ItemsShownBy js (Value.ofItems js)
  | [] => rfl
  | j :: rest => ⟨_, _, rfl, shownBy_ofJson j, itemsShownBy_ofItems rest⟩

/-- The named values of fields show them. -/
theorem fieldsShownBy_namedValues : (fs : List (String × Json)) → FieldsShownBy fs (namedValues fs)
  | [] => rfl
  | (_, j) :: rest => ⟨_, _, rfl, shownBy_ofJson j, fieldsShownBy_namedValues rest⟩

end

end Json

/-! ### Values -/

namespace Value

/-- Entries carry no tags if no key and no value does. -/
theorem entriesPlain_eq (es : List (Value × Value)) :
    entriesPlain es = es.all fun e => e.1.isPlain && e.2.isPlain := by
  induction es with
  | nil => rfl
  | cons e rest ih => rw [entriesPlain, ih, List.all_cons]

/-- String keys carry no tags, so that only the values matter. -/
theorem isPlain_toValue (es : Fields) : es.toValue.isPlain = es.all fun e => e.2.isPlain := by
  rw [Fields.toValue, isPlain, entriesPlain_eq, List.all_map]
  rfl

/-- The items of a list are less deep than the list. -/
theorem depth_lt_of_mem {vs : List Value} {v : Value} (h : v ∈ vs) :
    v.depth < (list vs).depth := by
  rw [depth]
  induction vs with
  | nil => exact absurd h (by simp)
  | cons v' rest ih =>
    rw [itemsDepth]
    rcases List.mem_cons.1 h with rfl | h
    · omega
    · have := ih h
      omega

/-- The items of a list are read one by one. -/
theorem itemsToJson?_eq (vs : List Value) : itemsToJson? vs = vs.mapM toJson? := by
  induction vs with
  | nil => rfl
  | cons v rest ih => rw [itemsToJson?, ih, List.mapM_cons]

/-- The field that a named value makes up. -/
def namedToJson? (e : String × Value) : Option (String × Json) := e.2.toJson?.map (e.1, ·)

/-- The named values of a map are read one by one, and their names put in order. -/
theorem toJson?_toValue (es : Fields) :
    es.toValue.toJson? = (es.mapM namedToJson?).map .object := by
  have hentries (es : Fields) :
      entriesToJson? (es.map fun e => (.str e.1, e.2)) = es.mapM namedToJson? := by
    induction es with
    | nil => rfl
    | cons e rest ih =>
      rw [List.map_cons, entriesToJson?, ih, List.mapM_cons, namedToJson?]
      cases e.2.toJson? <;> rfl
  rw [Fields.toValue, toJson?, hentries]

end Value

/-- A partial map along a list succeeds if it does on every item. -/
theorem mapM_eq_some_iff {α β : Type} {f : α → Option β} {l : List α} {r : List β} :
    l.mapM f = some r ↔ List.Forall₂ (fun a b => f a = some b) l r := by
  induction l generalizing r with
  | nil => simp [eq_comm]
  | cons a l ih =>
    rw [List.mapM_cons, List.forall₂_cons_left_iff]
    simp only [Option.bind_eq_bind, Option.bind_eq_some_iff, Option.pure_def, Option.some.injEq, ih]
    constructor
    · rintro ⟨b, hb, bs, hbs, rfl⟩
      exact ⟨b, bs, hb, hbs, rfl⟩
    · rintro ⟨b, bs, hb, hbs, rfl⟩
      exact ⟨b, hb, bs, hbs, rfl⟩

/-- Reading each of several things that are shown. -/
theorem mapM_of_forall₂ {α β : Type} {f : β → Option α} {R : α → β → Prop} {l : List α}
    {l' : List β} (hf : ∀ a ∈ l, ∀ b, R a b → f b = some a) (h : List.Forall₂ R l l') :
    l'.mapM f = some l := by
  induction h with
  | nil => rfl
  | @cons a b l l' hab _ ih =>
    rw [List.mapM_cons, hf a List.mem_cons_self b hab,
      ih fun a' ha' => hf a' (List.mem_cons_of_mem _ ha')]
    rfl

/-- It then succeeds on the items in any order. -/
theorem exists_mapM_of_perm {α β : Type} {f : α → Option β} {l l' : List α} {r : List β}
    (h : l'.mapM f = some r) (hp : l.Perm l') : ∃ r', l.mapM f = some r' ∧ r'.Perm r := by
  obtain ⟨r', hr', hperm⟩ := List.perm_comp_forall₂ hp (mapM_eq_some_iff.1 h)
  exact ⟨r', mapM_eq_some_iff.2 hr', hperm⟩

namespace Json

variable {j : Json} {v : Value}

mutual

/-- A value that shows JSON carries no tags. -/
theorem ShownBy.isPlain : {j : Json} → {v : Value} → j.ShownBy v → v.isPlain = true
  | null, _, h | bool _, _, h | int _, _, h | float _, _, h | str _, _, h => by
    rw [ShownBy] at h
    subst h
    rfl
  | arr _, _, ⟨vs, hv, h⟩ => by
    subst hv
    exact h.itemsPlain
  | obj _, _, ⟨es, es', hv, hp, h⟩ => by
    subst hv
    rw [Value.isPlain_toValue, hp.all_eq]
    exact h.fieldsPlain

/-- So do items. -/
theorem ItemsShownBy.itemsPlain : {js : List Json} → {vs : List Value} → ItemsShownBy js vs →
    Value.itemsPlain vs = true
  | [], _, h => by subst h; rfl
  | _ :: _, _, ⟨v, ws, hvs, hv, hws⟩ => by
    subst hvs
    rw [Value.itemsPlain, hv.isPlain, hws.itemsPlain, Bool.and_self]

/-- So do named values. -/
theorem FieldsShownBy.fieldsPlain : {fs : List (String × Json)} → {es : Fields} →
    FieldsShownBy fs es → (es.all fun e => e.2.isPlain) = true
  | [], _, h => by subst h; rfl
  | _ :: _, _, ⟨v, es', hes, hv, hes'⟩ => by
    subst hes
    rw [List.all_cons, hv.isPlain, hes'.fieldsPlain, Bool.and_self]

end

mutual

/-- Free JSON that a document shows is read off it. -/
theorem ShownBy.toJson? : {j : Json} → {v : Value} → j.IsFree → j.ShownBy v → v.toJson? = some j
  | null, _, _, h | bool _, _, _, h | int _, _, _, h | str _, _, _, h => by
    rw [ShownBy] at h
    subst h
    rfl
  | float x, _, hx, h => by
    rw [ShownBy] at h
    subst h
    exact congrArg some (if_pos hx)
  | arr _, _, hj, ⟨vs, hv, h⟩ => by
    subst hv
    rw [Value.toJson?, Value.itemsToJson?_eq, h.mapM_toJson? hj]
    rfl
  | obj fields, _, ⟨hsorted, hj⟩, ⟨es, es', hv, hp, h⟩ => by
    subst hv
    obtain ⟨fs, hfs, hperm⟩ := exists_mapM_of_perm (h.mapM_toJson? hj) hp
    -- free JSON has its names in order, so its fields are a sorted map
    let whole : SortedMap String Json := ⟨fields, hsorted⟩
    have hwhole : SortedMap.ofList fs = whole := SortedMap.ofList_of_perm hperm
    rw [Value.toJson?_toValue, hfs, Option.map_some, Json.object]
    exact congrArg some (congrArg obj
      ((SortedMap.entries_foldl_insert fs ∅).symm.trans (congrArg SortedMap.entries hwhole)))

/-- So are items. -/
theorem ItemsShownBy.mapM_toJson? : {js : List Json} → {vs : List Value} →
    TidyItems (· < ·) js → ItemsShownBy js vs → vs.mapM Value.toJson? = some js
  | [], _, _, h => by subst h; rfl
  | _ :: _, _, ⟨hj, hjs⟩, ⟨v, ws, hvs, hv, hws⟩ => by
    subst hvs
    rw [List.mapM_cons, hv.toJson? hj, hws.mapM_toJson? hjs]
    rfl

/-- So are fields. -/
theorem FieldsShownBy.mapM_toJson? : {fs : List (String × Json)} → {es : Fields} →
    TidyFields (· < ·) fs → FieldsShownBy fs es → es.mapM Value.namedToJson? = some fs
  | [], _, _, h => by subst h; rfl
  | (name, j) :: _, _, ⟨hj, hjs⟩, ⟨v, es', hes, hv, hes'⟩ => by
    subst hes
    rw [List.mapM_cons, Value.namedToJson?, hv.toJson? hj, hes'.mapM_toJson? hjs]
    rfl

end

mutual

/-- Every JSON value with finite floats and distinct names has a free form, and this shows it. -/
theorem exists_toJson? : {j : Json} → j.IsSound →
    ∃ k, (Value.ofJson j).toJson? = some k ∧ j.ShownBy (.ofJson k)
  | null, _ | bool _, _ | int _, _ | str _, _ => ⟨_, rfl, rfl⟩
  | float _, hx => ⟨_, congrArg some (if_pos hx), rfl⟩
  | arr _, hj => by
    obtain ⟨ks, hks, hshown⟩ := exists_itemsToJson? hj
    exact ⟨arr ks, congrArg (Option.map arr) hks, _, rfl, hshown⟩
  | obj fields, ⟨hnames, hj⟩ => by
    obtain ⟨ks, hks, hshown⟩ := exists_entriesToJson? hj
    -- the free forms stand under the same names, so these are distinct as well
    have hnodup : (ks.map Prod.fst).Nodup := by
      have hkeys : ks.map Prod.fst = fields.map Prod.fst := by
        rw [← hshown.names, namedValues, List.map_map]
        rfl
      exact hkeys ▸ List.pairwise_map.2 hnames
    have hobject : object ks = obj (SortedMap.ofList ks).entries :=
      congrArg obj (SortedMap.entries_foldl_insert ks ∅).symm
    refine ⟨object ks, congrArg (Option.map object) hks,
      namedValues (SortedMap.ofList ks).entries, namedValues ks, ?_, ?_, hshown⟩
    · rw [hobject, ofJson_obj]
    · exact (SortedMap.entries_ofList_perm hnodup).map _

/-- So do items. -/
theorem exists_itemsToJson? : {js : List Json} → TidyItems (· ≠ ·) js →
    ∃ ks, Value.itemsToJson? (Value.ofItems js) = some ks ∧ ItemsShownBy js (Value.ofItems ks)
  | [], _ => ⟨[], rfl, rfl⟩
  | _ :: _, ⟨hj, hjs⟩ => by
    obtain ⟨k, hk, hshown⟩ := exists_toJson? hj
    obtain ⟨ks, hks, hrest⟩ := exists_itemsToJson? hjs
    refine ⟨k :: ks, ?_, _, _, rfl, hshown, hrest⟩
    rw [Value.ofItems, Value.itemsToJson?, hk, hks]
    rfl

/-- So do fields. -/
theorem exists_entriesToJson? : {fs : List (String × Json)} → TidyFields (· ≠ ·) fs →
    ∃ ks, Value.entriesToJson? (Value.ofFields fs) = some ks ∧
      FieldsShownBy fs (namedValues ks)
  | [], _ => ⟨[], rfl, rfl⟩
  | (name, _) :: _, ⟨hj, hjs⟩ => by
    obtain ⟨k, hk, hshown⟩ := exists_toJson? hj
    obtain ⟨ks, hks, hrest⟩ := exists_entriesToJson? hjs
    refine ⟨(name, k) :: ks, ?_, _, _, rfl, hshown, hrest⟩
    rw [Value.ofFields, Value.entriesToJson?, hk, hks]
    rfl

end

end Json

/-! ### Reading fields -/

namespace Fields

open Json

variable {α : Type} {names : List String} {fields : List (String × Json)} {fs : Fields}
  {name : String} {decode : Decoder α} {a : α} {j : Json}

/-- Fields read off a document that show the given ones, as far as they are named. -/
def Show (names : List String) (fields : List (String × Json)) (fs : Fields) : Prop :=
  ∀ name ∈ names, Option.Rel ShownBy ((obj fields).field? name) (fs.get? name)

namespace Show

/-- A field with a name that is read is shown. -/
theorem exists_get? (h : Show names fields fs) (name : String) (hname : name ∈ names)
    (hj : (obj fields).field? name = some j) : ∃ v, fs.get? name = some v ∧ j.ShownBy v := by
  have hrel := h name hname
  rw [hj] at hrel
  cases hv : fs.get? name with
  | none => rw [hv] at hrel; cases hrel
  | some v =>
    rw [hv] at hrel
    cases hrel with
    | some hshown => exact ⟨v, rfl, hshown⟩

/-- A field that is not there is not shown. -/
theorem get?_eq_none (h : Show names fields fs) (hname : name ∈ names)
    (hj : (obj fields).field? name = none) : fs.get? name = none := by
  have hrel := h name hname
  rw [hj] at hrel
  cases hv : fs.get? name with
  | none => rfl
  | some v => rw [hv] at hrel; cases hrel

/-- A required field is read off what shows it. -/
theorem required (h : Show names fields fs) (hname : name ∈ names)
    (hj : (obj fields).field? name = some j) (hd : ∀ v, j.ShownBy v → decode v = some a) :
    fs.required name decode = some a := by
  obtain ⟨v, hv, hshown⟩ := h.exists_get? name hname hj
  rw [Fields.required, hv, Option.bind_some, hd v hshown]

/-- Without the field, nothing is read. -/
theorem required_none (h : Show names fields fs) (hname : name ∈ names)
    (hj : (obj fields).field? name = none) : fs.required name decode = none := by
  rw [Fields.required, h.get?_eq_none hname hj, Option.bind_none]

/-- A field that is there is read, whatever stands for a missing one. -/
theorem withDefault {default : α} (h : Show names fields fs) (hname : name ∈ names)
    (hj : (obj fields).field? name = some j) (hd : ∀ v, j.ShownBy v → decode v = some a) :
    fs.withDefault name default decode = some a := by
  obtain ⟨v, hv, hshown⟩ := h.exists_get? name hname hj
  rw [Fields.withDefault, hv]
  exact hd v hshown

/-- So is an optional field, if it is not null. -/
theorem optional_some {place : Place} (h : Show names fields fs) (hname : name ∈ names)
    (hj : (obj fields).field? name = some j) (hnull : j ≠ .null)
    (hd : ∀ v, j.ShownBy v → decode v = some a) :
    fs.optional name place decode = some (some a) := by
  obtain ⟨v, hv, hshown⟩ := h.exists_get? name hname hj
  rw [Fields.optional, Fields.withDefault, hv]
  have hv : v ≠ .null := fun hv => hnull (eq_null_of_shownBy (hv ▸ hshown))
  show place.option decode v = _
  unfold Place.option
  split
  · exact absurd rfl hv
  · rw [hd v hshown, Option.map_some]

/-- A field that is left out where there is nothing to write. -/
theorem optional {place : Place} (h : Show names fields fs) (encode : α → Json) {x : Option α}
    (hname : name ∈ names) (hj : (obj fields).field? name = x.map encode)
    (hnull : ∀ a, encode a ≠ .null)
    (hd : ∀ a, x = some a → ∀ v, (encode a).ShownBy v → decode v = some a) :
    fs.optional name place decode = some x := by
  cases x with
  | none => rw [Fields.optional, Fields.withDefault, h.get?_eq_none hname hj]
  | some a => exact h.optional_some hname hj (hnull a) (hd a rfl)

/-- A field that is nothing where there is nothing to write. -/
theorem orNull {place : Place} {encode : α → Json} {x : Option α} (h : Show names fields fs)
    (hname : name ∈ names) (hj : (obj fields).field? name = some (Json.orNull encode x))
    (hnull : ∀ a, encode a ≠ .null)
    (hd : ∀ a, x = some a → ∀ v, (encode a).ShownBy v → decode v = some a) :
    fs.optional name place decode = some x := by
  cases x with
  | none =>
    obtain ⟨v, hv, hshown⟩ := h.exists_get? name hname hj
    rw [Json.orNull, ShownBy] at hshown
    rw [Fields.optional, Fields.withDefault, hv, hshown]
    rfl
  | some a => exact h.optional_some hname hj (hnull a) (hd a rfl)

end Show

/-- Among distinct names, the value at a name is the one that stands there. -/
theorem get?_eq_some_iff {es : Fields} (h : (es.map Prod.fst).Nodup) {v : Value} :
    get? es name = some v ↔ (name, v) ∈ es := by
  induction es with
  | nil => simp [get?]
  | cons e rest ih =>
    obtain ⟨hnew, hrest⟩ := List.nodup_cons.1 h
    rw [List.mem_cons, ← ih hrest, get?, List.find?_cons]
    by_cases he : e.1 = name
    · have hnone : ¬ get? rest name = some v := fun hget =>
        hnew (he ▸ List.mem_map_of_mem ((ih hrest).1 hget))
      simp [he, hnone, Prod.ext_iff, eq_comm]
    · simp [he, get?, Prod.ext_iff, Ne.symm he]

/-- The value at a name does not depend on the order of the fields. -/
theorem get?_of_perm {es es' : Fields} (hp : es.Perm es') (h : (es.map Prod.fst).Nodup)
    (name : String) : get? es name = get? es' name := by
  refine Option.ext fun v => ?_
  rw [get?_eq_some_iff h, get?_eq_some_iff ((hp.map _).nodup_iff.1 h)]
  exact hp.mem_iff

/-- Fields that are not read make no difference to those that are. -/
theorem get?_filter {es : Fields} (h : (es.map Prod.fst).Nodup) (hname : name ∈ names) :
    get? (es.filter fun e => names.contains e.1) name = get? es name := by
  refine Option.ext fun v => ?_
  rw [get?_eq_some_iff h, get?_eq_some_iff (h.sublist (List.filter_sublist.map _))]
  simp [hname]

/-- Named values are less deep than the map of them. -/
theorem depth_lt_of_mem {es : Fields} {e : String × Value} (h : e ∈ es) :
    e.2.depth < es.toValue.depth := by
  rw [toValue, Value.depth]
  induction es with
  | nil => exact absurd h (by simp)
  | cons e' rest ih =>
    rw [List.map_cons, Value.entriesDepth]
    rcases List.mem_cons.1 h with rfl | h
    · omega
    · have := ih h
      omega

/-- So is the value at a name. -/
theorem depth_lt_of_get? {fs : Fields} {n : Nat} (h : ∀ e ∈ fs, e.2.depth < n) {v : Value}
    (hv : get? fs name = some v) : v.depth < n := by
  obtain ⟨e, he, rfl⟩ := Option.map_eq_some_iff.1 hv
  exact h e (List.mem_of_find?_eq_some he)

/-- A map of values that are less deep than another map is no deeper than that. -/
theorem depth_le {es es' : Fields} (h : ∀ e ∈ es, e.2.depth < es'.toValue.depth) :
    es.toValue.depth ≤ es'.toValue.depth := by
  rw [toValue, Value.depth]
  induction es with
  | nil => rw [toValue, Value.depth]; exact Nat.succ_le_succ (Nat.zero_le _)
  | cons e rest ih =>
    have hhead := h e List.mem_cons_self
    have htail := ih fun e' he' => h e' (List.mem_cons_of_mem _ he')
    rw [List.map_cons, Value.entriesDepth]
    omega

/-- The value at a name shows the field of that name, and there is one exactly if there is the
    other. -/
theorem rel_get? {es : Fields} (h : FieldsShownBy fields es) (name : String) :
    Option.Rel ShownBy ((obj fields).field? name) (get? es name) := by
  induction fieldsShownBy_iff.1 h with
  | nil => exact .none
  | @cons f e rest es hf hrest ih =>
    rw [field?, get?, List.find?_cons, List.find?_cons, hf.1]
    cases decide (e.1 = name) with
    | true => exact .some hf.2
    | false => exact ih (fieldsShownBy_iff.2 hrest)

end Fields

namespace Place

open Json

variable {place : Place} {names : List String} {fields : List (String × Json)} {v : Value}

/-- Distinct names are all taken, if they are among those that are read. -/
theorem namedFields_toValue (place : Place) (names : List String) {es : Fields}
    (h : (es.map Prod.fst).Nodup) :
    place.namedFields names (es.map fun e => (.str e.1, e.2)) =
      some (es.filter fun e => names.contains e.1) := by
  induction es with
  | nil => rfl
  | cons e rest ih =>
    obtain ⟨hnew, hrest⟩ := List.nodup_cons.1 h
    have hany : ((rest.filter fun e => names.contains e.1).any (·.1 = e.1)) = false := by
      refine List.any_eq_false.2 fun e' he' => ?_
      have hmem := (List.mem_filter.1 he').1
      simpa using fun heq : e'.1 = e.1 => hnew (heq ▸ List.mem_map_of_mem hmem)
    rw [List.map_cons, namedFields, ih hrest, List.filter_cons]
    simp only [fieldName, Option.bind_eq_bind, Option.bind_some, hany]
    cases names.contains e.1 <;> rfl

/-- Reading the fields of a map finds what it shows, and nothing deeper than the map. -/
theorem exists_namedFields (place : Place) (names : List String)
    (hnames : (fields.map Prod.fst).Nodup) (h : (obj fields).ShownBy v) :
    ∃ entries fs, v = .map entries ∧ place.namedFields names entries = some fs ∧
      Fields.Show names fields fs ∧ ∀ e ∈ fs, e.2.depth < v.depth := by
  obtain ⟨es, es', rfl, hp, hshown⟩ := h
  have hnodup : (es.map Prod.fst).Nodup := (hp.map _).nodup_iff.2 (hshown.names ▸ hnames)
  refine ⟨_, _, rfl, namedFields_toValue place names hnodup, fun name hname => ?_, fun e he => ?_⟩
  · rw [Fields.get?_filter hnodup hname, Fields.get?_of_perm hp hnodup]
    exact Fields.rel_get? hshown name
  · exact Fields.depth_lt_of_mem (List.mem_of_mem_filter he)

/-- A record reads the fields that it knows, anywhere in a document. -/
theorem exists_record (place : Place) (names : List String) (hnames : (fields.map Prod.fst).Nodup)
    (h : (obj fields).ShownBy v) : ∃ fs, place.record names v = some fs ∧
      Fields.Show names fields fs ∧ ∀ e ∈ fs, e.2.depth < v.depth := by
  obtain ⟨entries, fs, rfl, hfs, hshow⟩ := exists_namedFields place names hnames h
  refine ⟨fs, ?_, hshow⟩
  have hview : place.view (.map entries) = .map entries := by cases place <;> rfl
  rw [record, hview]
  exact hfs

/-- So does a form of a part. -/
theorem exists_variant (names : List String) (hnames : (fields.map Prod.fst).Nodup)
    (h : (obj fields).ShownBy v) :
    ∃ fs, variant names v = some fs ∧ Fields.Show names fields fs := by
  obtain ⟨entries, fs, rfl, hfs, hshow, -⟩ := exists_namedFields .nested names hnames h
  exact ⟨fs, hfs, hshow⟩

/-- A form that needs a field which is not shown does not find it. -/
theorem exists_lacking (names : List String) (name : String) (hname : name ∈ names)
    (hnames : (fields.map Prod.fst).Nodup) (hnone : (obj fields).field? name = none)
    (h : (obj fields).ShownBy v) :
    ∃ fs, variant names v = some fs ∧
      ∀ {α : Type} (decode : Decoder α), Fields.required fs name decode = none := by
  obtain ⟨fs, hvariant, hshow⟩ := exists_variant names hnames h
  exact ⟨fs, hvariant, fun _ => hshow.required_none hname hnone⟩

/-- The entries of fields have a text at a key where the fields have it. -/
theorem find?_entries {es : Fields} {name : String} {w : Value} (h : es.get? name = some w) :
    (es.map fun e => (Value.str e.1, e.2)).find? (fun e => e.1.str? = some name) =
      some (.str name, w) := by
  obtain ⟨e, he, hvalue⟩ := Option.map_eq_some_iff.1 h
  have hname : e.1 = name := by simpa using List.find?_some he
  rw [List.find?_map]
  simpa [Function.comp_def, Value.str?, he] using ⟨hname, hvalue⟩

/-- Without a name that comes once, what stands under the others is left. -/
theorem filter_perm {es es' : Fields} {name : String} {w : Value}
    (hp : es.Perm ((name, w) :: es')) (hnew : name ∉ es'.map Prod.fst) :
    (es.filter fun e => e.1 ≠ name).Perm es' := by
  have hkeep : es'.filter (fun e => e.1 ≠ name) = es' := by
    refine List.filter_eq_self.2 fun e he => ?_
    exact decide_eq_true fun heq => hnew (heq ▸ List.mem_map_of_mem he)
  have hfilter := hp.filter fun e => decide (e.1 ≠ name)
  rwa [List.filter_cons_of_neg (by simp), hkeep] at hfilter

/-- The form of a part, and what it shows besides. -/
theorem exists_form (place : Place) (names : List String) {kind : String} (hkind : kind ∈ names)
    (hnames : ("type" :: fields.map Prod.fst).Nodup)
    (h : (obj (("type", .str kind) :: fields)).ShownBy v) :
    ∃ w, place.form names v = some (kind, w) ∧ (obj fields).ShownBy w ∧ w.depth ≤ v.depth := by
  have hplain := h.isPlain
  obtain ⟨es, _, rfl, hp, _, es', rfl, rfl, hshown⟩ := h
  have hnodup : (es.map Prod.fst).Nodup := by
    rw [(hp.map _).nodup_iff, List.map_cons, hshown.names]
    exact hnames
  -- the name of the form stands at one key, wherever in the map that is
  have hget : Fields.get? es "type" = some (.str kind) :=
    (Fields.get?_eq_some_iff hnodup).2 (hp.mem_iff.2 List.mem_cons_self)
  have hnew : "type" ∉ es'.map Prod.fst := hshown.names ▸ (List.nodup_cons.1 hnames).1
  -- the rest is what stands under the other names
  let rest : Fields := es.filter fun e => e.1 ≠ "type"
  have hrest : Value.map ((es.map fun e => (Value.str e.1, e.2)).filter
      fun e => e.1.str? ≠ some "type") = rest.toValue := by
    rw [List.filter_map]
    simp [Fields.toValue, rest, Function.comp_def, Value.str?]
  have hrestPlain : rest.toValue.isPlain = true := by
    rw [Value.isPlain_toValue] at hplain ⊢
    exact List.all_eq_true.2 fun e he =>
      List.all_eq_true.1 hplain e (List.mem_of_mem_filter he)
  refine ⟨rest.toValue, ?_, ⟨rest, es', rfl, filter_perm hp hnew, hshown⟩, ?_⟩
  · have htag : form.tagName place names (.str kind) = some kind := by
      cases place <;> simp [form.tagName, view, Value.untagged, hkind]
    rw [Fields.toValue, form, find?_entries hget]
    simp only [Option.bind_eq_bind, Option.bind_some, htag, hrest, hrestPlain]
    rfl
  · exact Fields.depth_le fun e he => Fields.depth_lt_of_mem (List.mem_of_mem_filter he)

end Place

end ChartPipeline
