import ChartPipeline.Proofs.FiniteNumbers
import ChartPipeline.Document
import ChartPipeline.Proofs.Inventory
import ChartPipeline.Proofs.RoundTrip

/-!
# What is read off a JSON text

The numbers in a JSON text stay in range: integers fit into 64 bits and floats are finite.  So are
those that decoders take from it, and free JSON comes out with its names in order.  Hence the
declarations of data in a chart that is read off a JSON text have finite floats.

## Key results

- `Json.inRange_of_read`: the numbers of a value that is read are in range
- `DataSource.finite_of_readJson`: a declaration read off a JSON text has finite floats
- `Chart.dataFinite_of_ofJson`: so have the declarations of a chart
-/

namespace ChartPipeline

/-! ### Values in range -/

namespace Value

mutual

/-- Floats are finite, and integers fit into 64 bits. -/
def InRange : Value → Prop
  | int n => n.natAbs < 2 ^ 64
  | float x => FloatText.finite x = true
  | list items => ItemsInRange items
  | map entries => EntriesInRange entries
  | tagged _ v => InRange v
  | _ => True

/-- All values of a list are in range. -/
def ItemsInRange : List Value → Prop
  | [] => True
  | v :: rest => InRange v ∧ ItemsInRange rest

/-- All values at the keys of a map are in range. -/
def EntriesInRange : List (Value × Value) → Prop
  | [] => True
  | (_, v) :: rest => InRange v ∧ EntriesInRange rest

end

/-- A list is in range exactly if its items are. -/
theorem inRange_list_iff {vs : List Value} : (list vs).InRange ↔ ∀ v ∈ vs, v.InRange := by
  rw [InRange]
  induction vs with
  | nil => simp [ItemsInRange]
  | cons v rest ih => simp [ItemsInRange, ih]

/-- A map is in range exactly if what is at its keys is. -/
theorem inRange_map_iff {es : List (Value × Value)} :
    (map es).InRange ↔ ∀ e ∈ es, e.2.InRange := by
  rw [InRange]
  induction es with
  | nil => simp [EntriesInRange]
  | cons e rest ih => simp [EntriesInRange, ih]

end Value

namespace Json

/-- The numbers of a JSON value are in range. -/
def InRange (j : Json) : Prop := (Value.ofJson j).InRange

/-- There is no number in null. -/
theorem inRange_null : null.InRange := trivial

/-- There is none in a truth value. -/
theorem inRange_bool (b : Bool) : (bool b).InRange := trivial

/-- There is none in a string. -/
theorem inRange_str (s : String) : (str s).InRange := trivial

/-- An array is in range exactly if its items are. -/
theorem inRange_arr_iff {js : List Json} : (arr js).InRange ↔ ∀ j ∈ js, j.InRange := by
  rw [InRange, Value.ofJson, Value.inRange_list_iff]
  induction js with
  | nil => simp [Value.ofItems]
  | cons j rest ih => simp [Value.ofItems, ih, InRange]

/-- An object is in range exactly if its fields are. -/
theorem inRange_obj_iff {fs : List (String × Json)} : (obj fs).InRange ↔ ∀ e ∈ fs, e.2.InRange := by
  rw [InRange, Value.ofJson, Value.inRange_map_iff]
  induction fs with
  | nil => simp [Value.ofFields]
  | cons e rest ih => rw [Value.ofFields, List.forall_mem_cons, List.forall_mem_cons, ih, InRange]

/-- An entry that is put into a sorted list is all that is new there. -/
theorem mem_upsertEntries {name : String} {j : Json} {fs : List (String × Json)}
    {e : String × Json} (h : e ∈ SortedMap.upsertEntries name (fun _ => j) fs) :
    e = (name, j) ∨ e ∈ fs := by
  induction fs with
  | nil => exact .inl (List.mem_singleton.1 h)
  | cons f rest ih =>
    unfold SortedMap.upsertEntries at h
    split_ifs at h with hlt heq
    · exact List.mem_cons.1 h
    · exact (List.mem_cons.1 h).imp id (List.mem_cons_of_mem f)
    · rcases List.mem_cons.1 h with rfl | h
      · exact .inr List.mem_cons_self
      · exact (ih h).imp id (List.mem_cons_of_mem f)

/-- So are several entries that are put in one after the other. -/
theorem mem_foldl_upsertEntries {fs es : List (String × Json)} {e : String × Json}
    (h : e ∈ fs.foldl (fun es e => SortedMap.upsertEntries e.1 (fun _ => e.2) es) es) :
    e ∈ fs ∨ e ∈ es := by
  induction fs generalizing es with
  | nil => exact .inr h
  | cons f rest ih =>
    rcases ih h with h | h
    · exact .inl (List.mem_cons_of_mem f h)
    · rcases mem_upsertEntries h with rfl | h
      · exact .inl List.mem_cons_self
      · exact .inr h

/-- An object is made of given fields in the order of their names. -/
theorem exists_object (fs : List (String × Json)) :
    ∃ m : SortedMap String Json, object fs = obj m.entries ∧ ∀ e ∈ m.entries, e ∈ fs := by
  have hentries := SortedMap.entries_foldl_insert fs (∅ : SortedMap String Json)
  refine ⟨SortedMap.ofList fs, congrArg obj hentries.symm, fun e he => ?_⟩
  rw [SortedMap.ofList, hentries] at he
  exact (mem_foldl_upsertEntries he).resolve_right (List.not_mem_nil)

/-- An object made of fields in range is in range. -/
theorem inRange_object {fs : List (String × Json)} (h : ∀ e ∈ fs, e.2.InRange) :
    (object fs).InRange := by
  obtain ⟨m, hm, hmem⟩ := exists_object fs
  rw [hm, inRange_obj_iff]
  exact fun e he => h e (hmem e he)

/-! ### Reading -/

namespace Read

variable {fuel depth : Nat} {first : Bool} {cs rest : List Char} {j : Json}

/-- A number that is read is an integer of 64 bits or a finite float. -/
theorem inRange_number (h : number cs = .ok (j, rest)) : j.InRange := by
  obtain ⟨⟨whole, rest₁⟩, -, h⟩ := bind_eq_ok h
  obtain ⟨⟨fraction, rest₂⟩, -, h⟩ := bind_eq_ok h
  obtain ⟨⟨exponent, rest₃⟩, -, h⟩ := bind_eq_ok h
  dsimp only at h
  -- a numeral that is neither fails
  split at h
  · next hvalue =>
    cases h
    exact Numeral.value_plain hvalue
  · next hvalue =>
    cases h
    exact Numeral.value_plain hvalue
  · cases h

/-- A word that is read gives what it stands for. -/
theorem eq_of_word {v : Json} {ws : List Char} (h : word v ws cs = .ok (j, rest)) : j = v := by
  induction ws generalizing cs with
  | nil =>
    cases h
    rfl
  | cons w ws ih =>
    cases cs with
    | nil => cases h
    | cons c cs =>
      rw [word] at h
      split at h
      · exact ih h
      · cases h

/-- So it gives something in range if it stands for that. -/
theorem inRange_word {v : Json} {ws : List Char} (hv : v.InRange)
    (h : word v ws cs = .ok (j, rest)) : j.InRange := by
  rw [eq_of_word h]
  exact hv

/-- What is read with the given fuel is in range, if what was read before is. -/
structure Tame (fuel : Nat) : Prop where
  value : ∀ {depth cs j rest}, value fuel depth cs = .ok (j, rest) → j.InRange
  items : ∀ {depth first acc cs js rest}, items fuel depth first acc cs = .ok (js, rest) →
    (∀ j ∈ acc, j.InRange) → ∀ j ∈ js, j.InRange
  fields : ∀ {depth first acc cs fs rest}, fields fuel depth first acc cs = .ok (fs, rest) →
    (∀ e ∈ acc, e.2.InRange) → ∀ e ∈ fs, e.2.InRange
  fieldRest : ∀ {depth acc cs fs rest}, fieldRest fuel depth acc cs = .ok (fs, rest) →
    (∀ e ∈ acc, e.2.InRange) → ∀ e ∈ fs, e.2.InRange

namespace Tame

/-- A value is in range: a word, a string or a number, or an array or object of what was read
    below. -/
theorem value_succ (ih : Tame fuel) (h : Read.value (fuel + 1) depth cs = .ok (j, rest)) :
    j.InRange := by
  rw [Read.value] at h
  -- by the first character: the words, a string, a list, an object, and numbers
  split at h
  · cases h
  · exact inRange_word inRange_null h
  · exact inRange_word (inRange_bool true) h
  · exact inRange_word (inRange_bool false) h
  · obtain ⟨a, -, ha⟩ := bind_eq_ok h
    cases ha
    exact inRange_str _
  · split at h
    · cases h
    · obtain ⟨⟨js, rest⟩, hjs, h⟩ := bind_eq_ok h
      cases h
      exact inRange_arr_iff.2 fun j hj => ih.items hjs (by simp) j (List.mem_reverse.1 hj)
  · split at h
    · cases h
    · obtain ⟨⟨fs, rest⟩, hfs, h⟩ := bind_eq_ok h
      cases h
      exact inRange_object fun e he => ih.fields hfs (by simp) e (List.mem_reverse.1 he)
  · split at h
    · exact inRange_number h
    · cases h

/-- The items that an array has after one more are in range. -/
theorem items_succ (ih : Tame fuel) {acc js : List Json}
    (h : Read.items (fuel + 1) depth first acc cs = .ok (js, rest))
    (hacc : ∀ j ∈ acc, j.InRange) : ∀ j ∈ js, j.InRange := by
  unfold Read.items at h
  split at h
  · cases h
  · cases h
    exact hacc
  -- after a comma an item has to follow, or the text is at fault
  · split at h
    · cases h
    · cases h
    · obtain ⟨⟨j, rest⟩, hj, h⟩ := bind_eq_ok h
      exact ih.items h (List.forall_mem_cons.2 ⟨ih.value hj, hacc⟩)
  · obtain ⟨⟨j, rest⟩, hj, h⟩ := bind_eq_ok h
    exact ih.items h (List.forall_mem_cons.2 ⟨ih.value hj, hacc⟩)
  · cases h

/-- The fields that an object has after one more are in range. -/
theorem fields_succ (ih : Tame fuel) {acc fs : List (String × Json)}
    (h : Read.fields (fuel + 1) depth first acc cs = .ok (fs, rest))
    (hacc : ∀ e ∈ acc, e.2.InRange) : ∀ e ∈ fs, e.2.InRange := by
  unfold Read.fields at h
  split at h
  · cases h
  · cases h
    exact hacc
  · split at h
    · cases h
    · exact ih.fieldRest h hacc
    · cases h
  · exact ih.fieldRest h hacc
  · cases h

/-- So they are after the part of a field from its name on. -/
theorem fieldRest_succ (ih : Tame fuel) {acc fs : List (String × Json)}
    (h : Read.fieldRest (fuel + 1) depth acc cs = .ok (fs, rest))
    (hacc : ∀ e ∈ acc, e.2.InRange) : ∀ e ∈ fs, e.2.InRange := by
  rw [Read.fieldRest] at h
  obtain ⟨⟨name, rest⟩, -, h⟩ := bind_eq_ok h
  dsimp only at h
  split at h
  · cases h
  · obtain ⟨⟨j, rest⟩, hj, h⟩ := bind_eq_ok h
    exact ih.fields h (List.forall_mem_cons.2 ⟨ih.value hj, hacc⟩)
  · cases h

end Tame

/-- Whatever the fuel, what is read is in range. -/
theorem tame (fuel : Nat) : Tame fuel := by
  induction fuel with
  | zero =>
    -- nothing is read without fuel
    refine ⟨fun h => ?_, fun h => ?_, fun h => ?_, fun h => ?_⟩ <;>
      simp [value, items, fields, fieldRest] at h
  | succ fuel ih => exact ⟨ih.value_succ, ih.items_succ, ih.fields_succ, ih.fieldRest_succ⟩

end Read

/-- The numbers of a value that is read off a text are in range. -/
theorem inRange_of_read {text : String} {j : Json} (h : read text = .ok j) : j.InRange := by
  obtain ⟨⟨k, rest⟩, hk, h⟩ := bind_eq_ok h
  dsimp only at h
  split at h
  · cases h
    exact (Read.tame _).value hk
  · cases h

end Json

/-! ### Decoding -/

namespace Value

variable {v : Value}

/-- A value in range is so without its tags. -/
theorem InRange.untagged : {v : Value} → v.InRange → v.untagged.InRange
  | .tagged _ v, h => InRange.untagged (v := v) h
  | .null, h | .bool _, h | .int _, h | .float _, h | .str _, h | .list _, h | .map _, h => h

/-- A list that has a JSON form has one for its first item and for the others. -/
theorem exists_itemsToJson?_cons {v : Value} {vs : List Value} {js : List Json}
    (h : itemsToJson? (v :: vs) = some js) :
    ∃ j rest, v.toJson? = some j ∧ itemsToJson? vs = some rest ∧ js = j :: rest := by
  obtain ⟨j, hj, h⟩ := Option.bind_eq_some_iff.1 h
  obtain ⟨rest, hrest, h⟩ := Option.bind_eq_some_iff.1 h
  exact ⟨j, rest, hj, hrest, (Option.some.inj h).symm⟩

/-- A map that has a JSON form has a string as its first key, and a form for what is there and for
    the other entries. -/
theorem exists_entriesToJson?_cons {e : Value × Value} {es : List (Value × Value)}
    {fs : List (String × Json)} (h : entriesToJson? (e :: es) = some fs) :
    ∃ name j rest, e.2.toJson? = some j ∧ entriesToJson? es = some rest ∧
      fs = (name, j) :: rest := by
  obtain ⟨k, v⟩ := e
  cases k with
  | str name =>
    obtain ⟨j, hj, h⟩ := Option.bind_eq_some_iff.1 h
    obtain ⟨rest, hrest, h⟩ := Option.bind_eq_some_iff.1 h
    exact ⟨name, j, rest, hj, hrest, (Option.some.inj h).symm⟩
  | _ => cases h

mutual

/-- The JSON value of a value has finite floats and its names in order. -/
theorem isFree_of_toJson? : {v : Value} → {j : Json} → v.toJson? = some j → j.IsFree
  | .null, _, h | .bool _, _, h | .int _, _, h | .str _, _, h => by
    cases h
    trivial
  | .float x, _, h => by
    obtain rfl := Option.some.inj h
    split
    · next hx => exact hx
    · trivial
  | .list vs, _, h => by
    obtain ⟨js, hjs, rfl⟩ := Option.map_eq_some_iff.1 h
    exact itemsFree_of_toJson? hjs
  | .map es, _, h => by
    obtain ⟨fs, hfs, rfl⟩ := Option.map_eq_some_iff.1 h
    -- an object has its fields in order, each of them read before
    obtain ⟨m, hm, hmem⟩ := Json.exists_object fs
    have hfree := Json.tidyFields_iff.1 (entriesFree_of_toJson? hfs)
    rw [hm]
    exact ⟨m.sorted, Json.tidyFields_iff.2 fun e he => hfree e (hmem e he)⟩
  | .tagged _ _, _, h => by cases h

/-- So have the JSON values of the items of a list. -/
theorem itemsFree_of_toJson? : {vs : List Value} → {js : List Json} →
    itemsToJson? vs = some js → Json.TidyItems (· < ·) js
  | [], _, h => by
    cases h
    trivial
  | v :: vs, _, h => by
    obtain ⟨j, rest, hj, hrest, rfl⟩ := exists_itemsToJson?_cons h
    exact ⟨isFree_of_toJson? hj, itemsFree_of_toJson? hrest⟩

/-- So have the JSON values of the entries of a map. -/
theorem entriesFree_of_toJson? : {es : List (Value × Value)} → {fs : List (String × Json)} →
    entriesToJson? es = some fs → Json.TidyFields (· < ·) fs
  | [], _, h => by
    cases h
    trivial
  | e :: es, _, h => by
    obtain ⟨name, j, rest, hj, hrest, rfl⟩ := exists_entriesToJson?_cons h
    exact ⟨isFree_of_toJson? hj, entriesFree_of_toJson? hrest⟩

end

end Value

/-! ### Reading fields -/

/-- Each of several things that are read was read off something. -/
theorem exists_of_mapM {α β : Type} {f : α → Option β} {l : List α} {r : List β}
    (h : l.mapM f = some r) : ∀ b ∈ r, ∃ a ∈ l, f a = some b := by
  induction mapM_eq_some_iff.1 h with
  | nil => simp
  | @cons a b l r hab hrest ih =>
    refine List.forall_mem_cons.2 ⟨⟨a, List.mem_cons_self, hab⟩, fun b' hb' => ?_⟩
    obtain ⟨a', ha', hab'⟩ := ih (mapM_eq_some_iff.2 hrest) b' hb'
    exact ⟨a', List.mem_cons_of_mem _ ha', hab'⟩

namespace Place

variable {place : Place} {names : List String} {v : Value} {fs : Fields}

/-- A value in range is so as a place sees it. -/
theorem inRange_view (hv : v.InRange) : (place.view v).InRange := by
  unfold view
  split
  · exact hv.untagged
  · exact hv

/-- The fields found among entries in range are in range. -/
theorem inRange_namedFields {entries : List (Value × Value)} (he : ∀ e ∈ entries, e.2.InRange)
    (h : place.namedFields names entries = some fs) : ∀ e ∈ fs, e.2.InRange := by
  induction entries generalizing fs with
  | nil =>
    obtain rfl := Option.some.inj h
    simp
  | cons e rest ih =>
    obtain ⟨name, -, h⟩ := Option.bind_eq_some_iff.1 h
    obtain ⟨fields, hfields, h⟩ := Option.bind_eq_some_iff.1 h
    have hrest := ih (fun e he' => he e (List.mem_cons_of_mem _ he')) hfields
    -- an entry whose name is not asked for is left out
    split at h
    · split_ifs at h
      · obtain rfl := Option.some.inj h
        exact List.forall_mem_cons.2 ⟨he e List.mem_cons_self, hrest⟩
      · obtain rfl := Option.some.inj h
        exact hrest
    · obtain rfl := Option.some.inj h
      exact hrest

/-- The fields of a record in range are in range, whether they come by name or by position. -/
theorem inRange_record (hv : v.InRange) (h : place.record names v = some fs) :
    ∀ e ∈ fs, e.2.InRange := by
  have hview : (place.view v).InRange := inRange_view hv
  unfold record at h
  split at h
  · next entries heq =>
    rw [heq, Value.inRange_map_iff] at hview
    exact inRange_namedFields hview h
  · next vs heq =>
    rw [heq, Value.inRange_list_iff] at hview
    split_ifs at h
    obtain rfl := Option.some.inj h
    exact fun e he => hview e.2 (List.of_mem_zip he).2
  · split_ifs at h
    obtain rfl := Option.some.inj h
    simp
  · cases h

/-- So are those of a variant. -/
theorem inRange_variant (hv : v.InRange) (h : variant names v = some fs) :
    ∀ e ∈ fs, e.2.InRange := by
  unfold variant at h
  split at h
  · exact inRange_namedFields (Value.inRange_map_iff.1 hv) h
  · cases h

/-- What comes with the kind of a form in range is in range. -/
theorem inRange_form {name : String} {w : Value} (hv : v.InRange)
    (h : place.form names v = some (name, w)) : w.InRange := by
  unfold form at h
  -- a map without its kind, or a list without its first item
  split at h
  · next entries =>
    obtain ⟨e, -, h⟩ := Option.bind_eq_some_iff.1 h
    obtain ⟨kind, -, h⟩ := Option.bind_eq_some_iff.1 h
    dsimp only at h
    split_ifs at h
    cases h
    exact Value.inRange_map_iff.2 fun e he =>
      Value.inRange_map_iff.1 hv e (List.mem_of_mem_filter he)
  · next tag rest =>
    obtain ⟨kind, -, h⟩ := Option.bind_eq_some_iff.1 h
    split_ifs at h
    cases h
    exact Value.inRange_list_iff.2 fun w hw =>
      Value.inRange_list_iff.1 hv w (List.mem_cons_of_mem _ hw)
  · cases h

/-- Each entry of a list that is read off a value in range was read off a value in range. -/
theorem exists_of_list {α : Type} {decode : Decoder α} {as : List α} (hv : v.InRange)
    (h : place.list decode v = some as) : ∀ a ∈ as, ∃ w, w.InRange ∧ decode w = some a := by
  have hview : (place.view v).InRange := inRange_view hv
  unfold list at h
  split at h
  · next vs heq =>
    rw [heq, Value.inRange_list_iff] at hview
    intro a ha
    obtain ⟨w, hw, hdecode⟩ := exists_of_mapM h a ha
    exact ⟨w, hview w hw, hdecode⟩
  · split_ifs at h
    obtain rfl := Option.some.inj h
    simp
  · cases h

/-- A float that is read off a value in range is finite, also if it is written as an integer. -/
theorem finite_of_float {x : Float} (hv : v.InRange) (h : place.float v = some x) :
    FloatText.finite x = true := by
  have hview : (place.view v).InRange := inRange_view hv
  unfold float at h
  split at h
  · next heq =>
    obtain rfl := Option.some.inj h
    rwa [heq] at hview
  · next heq =>
    obtain rfl := Option.some.inj h
    rw [heq] at hview
    exact finite_ofInt hview
  · cases h

end Place

namespace Fields

variable {α : Type} {fs : Fields} {name : String} {decode : Decoder α} {a : α} {place : Place}

/-- A field of a record in range is in range. -/
theorem inRange_get? {v : Value} (hfs : ∀ e ∈ fs, e.2.InRange) (h : fs.get? name = some v) :
    v.InRange := by
  obtain ⟨e, he, rfl⟩ := Option.map_eq_some_iff.1 h
  exact hfs e (List.mem_of_find?_eq_some he)

/-- A field that is there was read off a value in range. -/
theorem exists_of_required (hfs : ∀ e ∈ fs, e.2.InRange) (h : fs.required name decode = some a) :
    ∃ v, v.InRange ∧ decode v = some a := by
  obtain ⟨v, hv, ha⟩ := Option.bind_eq_some_iff.1 h
  exact ⟨v, inRange_get? hfs hv, ha⟩

/-- A field with a default has it, or was read off a value in range. -/
theorem exists_of_withDefault {default : α} (hfs : ∀ e ∈ fs, e.2.InRange)
    (h : fs.withDefault name default decode = some a) :
    a = default ∨ ∃ v, v.InRange ∧ decode v = some a := by
  unfold Fields.withDefault at h
  split at h
  · exact .inl (Option.some.inj h).symm
  · next v hv => exact .inr ⟨v, inRange_get? hfs hv, h⟩

/-- An optional field that is there was read off a value in range. -/
theorem exists_of_optional {x : Option α} (hfs : ∀ e ∈ fs, e.2.InRange)
    (h : fs.optional name place decode = some x) : ∀ a ∈ x, ∃ v, v.InRange ∧ decode v = some a := by
  rintro a rfl
  rcases exists_of_withDefault hfs h with hnone | ⟨v, hv, ha⟩
  · cases hnone
  · unfold Place.option at ha
    split at ha
    · cases ha
    · obtain ⟨a', ha', heq⟩ := Option.map_eq_some_iff.1 ha
      exact ⟨v, hv, ha'.trans heq⟩

end Fields

/-- What is read off a JSON text was read off a value in range. -/
theorem exists_of_readJson {α : Type} {decode : Decoder α} {text : String} {a : α}
    (h : readJson decode text = .ok a) : ∃ v : Value, v.InRange ∧ decode v = some a := by
  unfold readJson at h
  split at h
  · cases h
  · next j hj =>
    split at h
    · next hdecode =>
      cases h
      exact ⟨_, Json.inRange_of_read hj, hdecode⟩
    · cases h

/-! ### Declarations of data -/

variable {v : Value}

/-- The parameters of a sequence that are read off a value in range are finite. -/
theorem SequenceParams.finite_of_decode {place : Place}
    {params : SequenceParams} (hv : v.InRange) (h : SequenceParams.decode place v = some params) :
    params.Finite := by
  obtain ⟨fields, hfields, h⟩ := Option.bind_eq_some_iff.1 h
  obtain ⟨start, hstart, h⟩ := Option.bind_eq_some_iff.1 h
  obtain ⟨stop, hstop, h⟩ := Option.bind_eq_some_iff.1 h
  obtain ⟨step, hstep, h⟩ := Option.bind_eq_some_iff.1 h
  obtain ⟨output, -, h⟩ := Option.bind_eq_some_iff.1 h
  obtain rfl := Option.some.inj h
  have hfs := Place.inRange_record hv hfields
  obtain ⟨w, hw, hx⟩ := Fields.exists_of_required hfs hstart
  obtain ⟨w', hw', hx'⟩ := Fields.exists_of_required hfs hstop
  refine ⟨Place.finite_of_float hw hx, Place.finite_of_float hw' hx', fun y hy => ?_⟩
  obtain ⟨w'', hw'', hx''⟩ := Fields.exists_of_optional hfs hstep y hy
  exact Place.finite_of_float hw'' hx''

namespace DataSource

variable {data : DataSource}

/-- A declaration of data that is read off a value in range has finite floats. -/
theorem finite_of_decode (hv : v.InRange) (h : decode v = some data) : data.Finite := by
  unfold decode at h
  split_ifs at h
  simp only [Option.orElse_eq_or, Option.or_eq_some_iff] at h
  -- the forms in the order in which they are tried: values, an address, a sequence, a name
  rcases h with h | ⟨-, h | ⟨-, h | ⟨-, h⟩⟩⟩
  · obtain ⟨fields, hfields, h⟩ := Option.bind_eq_some_iff.1 h
    obtain ⟨rows, hrows, h⟩ := Option.bind_eq_some_iff.1 h
    obtain ⟨format, -, h⟩ := Option.bind_eq_some_iff.1 h
    obtain rfl := Option.some.inj h
    obtain ⟨w, hw, hlist⟩ := Fields.exists_of_required (Place.inRange_variant hv hfields) hrows
    intro j hj
    obtain ⟨u, -, hu⟩ := Place.exists_of_list hw hlist j hj
    exact Value.isFree_of_toJson? hu
  · obtain ⟨fields, -, h⟩ := Option.bind_eq_some_iff.1 h
    obtain ⟨address, -, h⟩ := Option.bind_eq_some_iff.1 h
    obtain ⟨format, -, h⟩ := Option.bind_eq_some_iff.1 h
    obtain rfl := Option.some.inj h
    trivial
  · obtain ⟨fields, hfields, h⟩ := Option.bind_eq_some_iff.1 h
    obtain ⟨params, hparams, h⟩ := Option.bind_eq_some_iff.1 h
    obtain rfl := Option.some.inj h
    obtain ⟨w, hw, hdecode⟩ := Fields.exists_of_required (Place.inRange_variant hv hfields) hparams
    exact SequenceParams.finite_of_decode hw hdecode
  · obtain ⟨fields, -, h⟩ := Option.bind_eq_some_iff.1 h
    obtain ⟨name, -, h⟩ := Option.bind_eq_some_iff.1 h
    obtain rfl := Option.some.inj h
    trivial

/-- A declaration of data that is read off a JSON text has finite floats. -/
theorem finite_of_readJson {text : String} (h : readJson decode text = .ok data) : data.Finite := by
  obtain ⟨v, hv, hdecode⟩ := exists_of_readJson h
  exact finite_of_decode hv hdecode

end DataSource

namespace Chart

/-- All data declared in a chart have finite floats. -/
def DataFinite (chart : Chart) : Prop :=
  ∀ (σ : Type) (inside : σ → Chart → σ) (outer : σ), ∀ x ∈ chart.inContext inside outer,
    ∀ data ∈ x.2.header.data, data.Finite

/-- What is inside several charts is inside one of them. -/
theorem mem_allInContext_iff {σ : Type} {inside : σ → Chart → σ} {outer : σ}
    {charts : List Chart} {x : σ × Chart} : x ∈ allInContext inside outer charts ↔
      ∃ c ∈ charts, x ∈ c.inContext inside outer := by
  induction charts with
  | nil => simp [allInContext]
  | cons c rest ih => rw [allInContext, List.mem_append, ih, List.exists_mem_cons_iff]

/-- The data of a chart are its own and those of the charts inside it. -/
theorem dataFinite_of_children {chart : Chart} (hd : ∀ data ∈ chart.header.data, data.Finite)
    (hc : ∀ c ∈ chart.children, c.DataFinite) : chart.DataFinite := by
  intro σ inside outer x hx
  rw [inContext_eq, List.mem_append, List.mem_singleton] at hx
  rcases hx with hx | rfl
  · obtain ⟨c, hmem, hx⟩ := mem_allInContext_iff.1 hx
    exact hc c hmem σ _ _ x hx
  · exact hd

/-- Charts that are read off values in range, which nest as deep as is given, declare data with
    finite floats; so they do when their header is read already. -/
structure Reliable (n : Nat) : Prop where
  within : ∀ {place v chart}, v.InRange → decodeWithin n place v = some chart → chart.DataFinite
  kind : ∀ {place header v chart}, v.InRange → (∀ data ∈ header.data, data.Finite) →
    decodeKind n place header v = some chart → chart.DataFinite

namespace Reliable

variable {n : Nat} {place : Place} {header : ChartHeader} {chart : Chart}

/-- A chart is reliable if its parts, which nest less deep, are. -/
theorem within_succ (ih : Reliable n) (hv : v.InRange)
    (h : decodeWithin (n + 1) place v = some chart) : chart.DataFinite := by
  rw [decodeWithin] at h
  obtain ⟨fields, hfields, h⟩ := Option.bind_eq_some_iff.1 h
  obtain ⟨name, -, h⟩ := Option.bind_eq_some_iff.1 h
  obtain ⟨data, hdata, h⟩ := Option.bind_eq_some_iff.1 h
  obtain ⟨transforms, -, h⟩ := Option.bind_eq_some_iff.1 h
  obtain ⟨config, -, h⟩ := Option.bind_eq_some_iff.1 h
  obtain ⟨requested, -, h⟩ := Option.bind_eq_some_iff.1 h
  obtain ⟨kind, hkind, h⟩ := Option.bind_eq_some_iff.1 h
  have hfs := Place.inRange_record hv hfields
  refine ih.kind (Fields.inRange_get? hfs hkind) (fun d hmem => ?_) h
  obtain ⟨w, hw, hdecode⟩ := Fields.exists_of_optional hfs hdata d hmem
  exact DataSource.finite_of_decode hw hdecode

/-- So it is where its header is read already. -/
theorem kind_succ (ih : Reliable n) (hv : v.InRange) (hd : ∀ data ∈ header.data, data.Finite)
    (h : decodeKind (n + 1) place header v = some chart) : chart.DataFinite := by
  rw [decodeKind] at h
  obtain ⟨⟨kind, rest⟩, hform, h⟩ := Option.bind_eq_some_iff.1 h
  have hrest := Place.inRange_form hv hform
  dsimp only at h
  -- one case for each kind that is tried: a unit, a layer and a facet
  split_ifs at h
  · obtain ⟨fields, -, h⟩ := Option.bind_eq_some_iff.1 h
    obtain ⟨mark, -, h⟩ := Option.bind_eq_some_iff.1 h
    obtain ⟨encoding, -, h⟩ := Option.bind_eq_some_iff.1 h
    obtain ⟨stack, -, h⟩ := Option.bind_eq_some_iff.1 h
    obtain rfl := Option.some.inj h
    exact dataFinite_of_children hd fun c hc => absurd hc (by simp [children])
  · obtain ⟨fields, hfields, h⟩ := Option.bind_eq_some_iff.1 h
    obtain ⟨children, hchildren, h⟩ := Option.bind_eq_some_iff.1 h
    obtain rfl := Option.some.inj h
    refine dataFinite_of_children hd fun c hc => ?_
    have hfs := Place.inRange_record hrest hfields
    rcases Fields.exists_of_withDefault hfs hchildren with rfl | ⟨w, hw, hlist⟩
    · cases hc
    · obtain ⟨u, hu, hdecode⟩ := Place.exists_of_list hw hlist c hc
      exact ih.within hu hdecode
  · obtain ⟨fields, hfields, h⟩ := Option.bind_eq_some_iff.1 h
    obtain ⟨mapping, -, h⟩ := Option.bind_eq_some_iff.1 h
    obtain ⟨child, hchild, h⟩ := Option.bind_eq_some_iff.1 h
    obtain rfl := Option.some.inj h
    refine dataFinite_of_children hd fun c hc => ?_
    obtain rfl := List.mem_singleton.1 hc
    have hfs := Place.inRange_record hrest hfields
    obtain ⟨w, hw, hdecode⟩ := Fields.exists_of_required hfs hchild
    exact ih.within hw hdecode

end Reliable

/-- Charts of any depth are reliable. -/
theorem reliable (n : Nat) : Reliable n := by
  induction n with
  -- no chart has depth zero
  | zero => refine ⟨fun _ h => ?_, fun _ _ h => ?_⟩ <;> simp [decodeWithin, decodeKind] at h
  | succ n ih => exact ⟨ih.within_succ, ih.kind_succ⟩

/-- A chart that is read off a value in range declares data with finite floats. -/
theorem dataFinite_of_decode {place : Place} {chart : Chart} (hv : v.InRange)
    (h : decode place v = some chart) : chart.DataFinite :=
  (reliable (v.depth + 2)).within hv h

/-- The value at a key of a map in range is in range. -/
theorem inRange_field? {name : String} {w : Value} (hv : v.InRange)
    (h : v.field? name = some w) : w.InRange := by
  unfold Value.field? at h
  split at h
  · obtain ⟨e, he, rfl⟩ := Option.map_eq_some_iff.1 h
    exact Value.inRange_map_iff.1 hv e (List.mem_of_find?_eq_some he)
  · cases h

/-- So does a document, with the chart in it or as the chart itself. -/
theorem dataFinite_of_decodeDocument {chart : Chart} (hv : v.InRange)
    (h : decodeDocument v = some chart) : chart.DataFinite := by
  unfold decodeDocument at h
  dsimp only at h
  split at h
  · next inner hinner =>
    split at h
    · exact dataFinite_of_decode (inRange_field? hv hinner) h
    · exact dataFinite_of_decode hv h
  · exact dataFinite_of_decode hv h

/-- The data declared in a chart that is read off a JSON text have finite floats. -/
theorem dataFinite_of_ofJson {text : String} {chart : Chart} (h : ofJson text = .ok chart) :
    chart.DataFinite := by
  unfold ofJson at h
  cases hread : readJson decodeDocument text with
  | error fault => rw [hread] at h; cases h
  | ok c =>
    rw [hread] at h
    cases h
    obtain ⟨v, hv, hdecode⟩ := exists_of_readJson hread
    exact dataFinite_of_decodeDocument hv hdecode

end Chart

end ChartPipeline
