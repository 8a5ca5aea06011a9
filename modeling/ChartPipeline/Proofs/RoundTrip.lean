import ChartPipeline.Chart.Decode
import ChartPipeline.Chart.Encode
import ChartPipeline.Proofs.FreeJson
import Mathlib.Data.List.Nodup

/-!
# Charts come back from their JSON form

A chart with finite floats is read off its JSON form again, wherever the form stands and in
whatever order its fields do.  A part that may have several forms is no problem: each form has a
field that no other one has, so what is written in one form fits no other.

## Key results

- `Chart.decodeWithin_shown`: a chart is read off any value that shows its JSON form
- `Chart.decode_toJson`: a chart with finite floats comes back from its JSON form
-/

namespace ChartPipeline

/-! ### Finite parts -/

/-- Whether a float is finite, where one is given. -/
def FiniteWhere (x : Option Float) : Prop := ∀ y ∈ x, FloatText.finite y = true

/-- Whether both bounds are finite. -/
def FiniteBounds (bounds : Float × Float) : Prop :=
  FloatText.finite bounds.1 = true ∧ FloatText.finite bounds.2 = true

/-- Binning by finite numbers, and by a number of bins that fits into 32 bits. -/
structure BinParams.Finite (p : BinParams) : Prop where
  extent : ∀ bounds ∈ p.extent, FiniteBounds bounds
  maxbins : ∀ n ∈ p.maxbins, n < 2 ^ 32
  step : FiniteWhere p.step
  minstep : FiniteWhere p.minstep
  base : FiniteWhere p.base

/-- Binning by finite numbers. -/
def BinSpec.Finite : BinSpec → Prop
  | flag _ => True
  | params p => p.Finite

/-- A field definition with finite numbers. -/
def FieldDef.Finite (f : FieldDef) : Prop := ∀ bin ∈ f.bin, bin.Finite

/-- A condition with finite numbers. -/
def Predicate.Finite : Predicate → Prop
  | expression _ => True
  | equal _ value => value.IsFree
  | range _ low high => FiniteBounds (low, high)
  | oneOf _ values => ∀ j ∈ values, j.IsFree

/-- A transform with finite numbers. -/
def Transform.Finite : Transform → Prop
  | filter predicate => predicate.Finite
  | calculate _ _ => True

/-- A sequence with finite numbers. -/
structure SequenceParams.Finite (p : SequenceParams) : Prop where
  start : FloatText.finite p.start = true
  stop : FloatText.finite p.stop = true
  step : FiniteWhere p.step

/-- A data declaration with finite numbers. -/
def DataSource.Finite : DataSource → Prop
  | values rows _ => ∀ j ∈ rows, j.IsFree
  | url _ _ => True
  | sequence params => params.Finite
  | named _ => True

/-- A header with finite numbers. -/
structure ChartHeader.Finite (h : ChartHeader) : Prop where
  data : ∀ data ∈ h.data, data.Finite
  transforms : ∀ t ∈ h.transforms, t.Finite

/-- The dimensions of a facet with finite numbers. -/
structure FacetMapping.Finite (f : FacetMapping) : Prop where
  row : ∀ d ∈ f.row, d.Finite
  column : ∀ d ∈ f.column, d.Finite

namespace Chart

mutual

/-- A chart all of whose floats are finite, with free JSON where any JSON may stand. -/
def Finite : Chart → Prop
  | unit header _ encoding _ => header.Finite ∧ ∀ e ∈ encoding.entries, e.2.Finite
  | layer header children => header.Finite ∧ AllFinite children
  | facet header mapping child => header.Finite ∧ mapping.Finite ∧ Finite child

/-- Charts all of whose floats are finite. -/
def AllFinite : List Chart → Prop
  | [] => True
  | chart :: rest => Finite chart ∧ AllFinite rest

end

end Chart

/-! ### Written forms -/

namespace Json

variable {α : Type} {j : Json} {name : String} {encode : α → Json} {x : Option α}

/-- An object is sound if its names are distinct and its values sound. -/
theorem isSound_obj_iff {fs : List (String × Json)} :
    (obj fs).IsSound ↔ (fs.map Prod.fst).Nodup ∧ ∀ e ∈ fs, e.2.IsSound := by
  rw [IsSound, Tidy, tidyFields_iff, List.Nodup, List.pairwise_map]
  rfl

/-- A list is sound if its items are. -/
theorem isSound_arr_iff {js : List Json} : (arr js).IsSound ↔ ∀ j ∈ js, j.IsSound := by
  rw [IsSound, Tidy, tidyItems_iff]
  rfl

/-- So is the list of what is written for several things. -/
theorem isSound_list {as : List α} (h : ∀ a ∈ as, (encode a).IsSound) :
    (arr (as.map encode)).IsSound := by
  refine isSound_arr_iff.2 fun j hj => ?_
  obtain ⟨a, ha, rfl⟩ := List.mem_map.1 hj
  exact h a ha

/-- Strings are sound. -/
theorem isSound_str (s : String) : (str s).IsSound := trivial

/-- What is left out or written soundly is sound. -/
theorem isSound_optional (h : ∀ a ∈ x, (encode a).IsSound) :
    ∀ e ∈ Json.optional name encode x, e.2.IsSound := by
  cases x with
  | none => exact fun e he => absurd he (by simp [Json.optional])
  | some a =>
    intro e he
    obtain rfl := List.mem_singleton.1 he
    exact h a rfl

/-- So is what is null or written soundly. -/
theorem isSound_orNull (h : ∀ a ∈ x, (encode a).IsSound) : (orNull encode x).IsSound := by
  cases x with
  | none => exact trivial
  | some a => exact h a rfl

/-- A field that may be left out has one name at most. -/
theorem names_optional (name : String) (encode : α → Json) (x : Option α) :
    ((Json.optional name encode x).map Prod.fst).Sublist [name] := by
  cases x with
  | none => exact List.nil_sublist _
  | some a => exact .refl _

/-- The first field with a name counts. -/
@[simp]
theorem field?_cons (e : String × Json) (fs : List (String × Json)) (name : String) :
    (obj (e :: fs)).field? name = if e.1 = name then some e.2 else (obj fs).field? name := by
  rw [field?, field?, List.find?_cons]
  by_cases h : e.1 = name <;> simp [h]

/-- An empty object has no fields. -/
@[simp]
theorem field?_nil (name : String) : (obj []).field? name = none := rfl

/-- A field that may be left out stands before the others if it is written. -/
@[simp]
theorem field?_optional_append (n : String) (encode : α → Json) (x : Option α)
    (fs : List (String × Json)) (name : String) :
    (obj (Json.optional n encode x ++ fs)).field? name =
      if n = name then (x.map encode).or ((obj fs).field? name) else (obj fs).field? name := by
  cases x with
  | none => simp [Json.optional]
  | some a => rw [Json.optional, List.singleton_append, field?_cons]; rfl

/-- Alone, it is all there is. -/
@[simp]
theorem field?_optional (n : String) (encode : α → Json) (x : Option α) (name : String) :
    (obj (Json.optional n encode x)).field? name = if n = name then x.map encode else none := by
  have h := field?_optional_append n encode x [] name
  rwa [List.append_nil, field?_nil, Option.or_none] at h

end Json

/-! ### Simple values -/

namespace Place

open Json

variable {α : Type} {place : Place} {v : Value}

/-- A string is read off what shows it. -/
theorem string_shown {s : String} (h : (Json.str s).ShownBy v) : place.string v = some s := by
  rw [ShownBy] at h
  subst h
  cases place <;> rfl

/-- So is a truth value. -/
theorem bool_shown {b : Bool} (h : (Json.bool b).ShownBy v) : place.bool v = some b := by
  rw [ShownBy] at h
  subst h
  cases place <;> rfl

/-- So is a float. -/
theorem float_shown {x : Float} (h : (Json.float x).ShownBy v) : place.float v = some x := by
  rw [ShownBy] at h
  subst h
  cases place <;> rfl

/-- So is a number within its bound. -/
theorem nat_shown {n bound : Nat} (hn : n < bound) (h : (Json.int n).ShownBy v) :
    place.nat bound v = some n := by
  rw [ShownBy] at h
  subst h
  have hview : place.view (.int n) = .int (.ofNat n) := by cases place <;> rfl
  rw [nat, hview]
  exact if_pos hn

/-- So are two bounds, which are written as a list. -/
theorem bounds_shown {bounds : Float × Float} (h : (encodeBounds bounds).ShownBy v) :
    decodeBounds place v = some bounds := by
  obtain ⟨_, rfl, low, _, rfl, hlow, high, _, rfl, hhigh, rfl⟩ := h
  have hview : place.view (.list [low, high]) = .list [low, high] := by cases place <;> rfl
  rw [decodeBounds, pair, hview]
  simp only [float_shown hlow, float_shown hhigh]
  rfl

/-- So is a list, if each of its items is. -/
theorem list_shown {encode : α → Json} {decode : Decoder α} {as : List α}
    (hd : ∀ a ∈ as, ∀ v, (encode a).ShownBy v → decode v = some a)
    (h : (arr (as.map encode)).ShownBy v) : place.list decode v = some as := by
  obtain ⟨vs, rfl, h⟩ := h
  -- a list is the same with the tags around it taken off, as it has none
  have hview : place.view (.list vs) = .list vs := by cases place <;> rfl
  rw [itemsShownBy_iff, List.forall₂_map_left_iff] at h
  rw [list, hview]
  exact mapM_of_forall₂ hd h

/-- Whether a name tells which of several things is meant. -/
def Tells (name : α → String) (all : List α) : Prop :=
  ∀ a, all.find? (fun b => name b = name a) = some a

/-- What tells different things has different names for them. -/
theorem Tells.injective {name : α → String} {all : List α} (h : Tells name all) :
    Function.Injective name := by
  intro a b hab
  have ha := h a
  rw [hab, h b] at ha
  exact (Option.some.inj ha).symm

/-- What a name tells is read off it. -/
theorem choice_shown {name : α → String} {all : List α} {a : α} (hn : Tells name all)
    (h : (Json.str (name a)).ShownBy v) : place.choice name all v = some a := by
  rw [ShownBy] at h
  subst h
  exact hn a

end Place

open Json

variable {place : Place} {v : Value}

/-- The names of channels tell them. -/
theorem Channel.name_tells : Place.Tells name all := fun a => by cases a <;> decide

/-- A channel is read off its name. -/
theorem Channel.decode_shown {channel : Channel} (h : (Json.str channel.name).ShownBy v) :
    Channel.decode place v = some channel :=
  Place.choice_shown name_tells h

/-- A time unit is read off its name. -/
theorem TimeUnit.decode_shown {unit : TimeUnit} (h : (Json.str unit.name).ShownBy v) :
    TimeUnit.decode place v = some unit :=
  Place.choice_shown (fun a => by cases a <;> decide) h

/-- The type of a field is read off its name. -/
theorem FieldType.decode_shown {type : FieldType} (h : (Json.str type.name).ShownBy v) :
    FieldType.decode place v = some type :=
  Place.choice_shown (fun a => by cases a <;> decide) h

/-- An aggregation is read off its name. -/
theorem AggregateOp.decode_shown {op : AggregateOp} (h : (Json.str op.name).ShownBy v) :
    AggregateOp.decode place v = some op :=
  Place.choice_shown (fun a => by cases a <;> decide) h

/-- The type of a scale is read off its name. -/
theorem ScaleType.decode_shown {type : ScaleType} (h : (Json.str type.name).ShownBy v) :
    ScaleType.decode place v = some type :=
  Place.choice_shown (fun a => by cases a <;> decide) h

/-- An order is read off its name. -/
theorem SortOrder.decode_shown {order : SortOrder} (h : (Json.str order.name).ShownBy v) :
    SortOrder.decode place v = some order :=
  Place.choice_shown (fun a => by cases a <;> decide) h

/-- A mark is read off its name. -/
theorem Mark.decode_shown {mark : Mark} (h : (Json.str mark.name).ShownBy v) :
    Mark.decode place v = some mark :=
  Place.choice_shown (fun a => by cases a <;> decide) h

/-- The offset of a stack is read off its name. -/
theorem StackOffset.decode_shown {offset : StackOffset} (h : (Json.str offset.name).ShownBy v) :
    StackOffset.decode place v = some offset :=
  Place.choice_shown (fun a => by cases a <;> decide) h

/-- An output is read off its name. -/
theorem DataOutput.decode_shown {output : DataOutput} (h : (Json.str output.name).ShownBy v) :
    DataOutput.decode place v = some output :=
  Place.choice_shown (fun a => by cases a <;> decide) h

/-! ### Binning -/

/-- Finite bounds are written soundly. -/
theorem encodeBounds_isSound {bounds : Float × Float} (h : FiniteBounds bounds) :
    (encodeBounds bounds).IsSound :=
  ⟨h.1, h.2, trivial⟩

/-- The parameters of finite bins are written soundly. -/
theorem BinParams.toJson_isSound {p : BinParams} (hp : p.Finite) : p.toJson.IsSound := by
  refine isSound_obj_iff.2 ⟨?_, ?_⟩
  · have hnames : ["extent", "maxbins", "step", "minstep", "nice", "base"].Nodup := by decide
    -- any of the fields may be left out, so what is written is a part of all their names
    refine List.Nodup.sublist ?_ hnames
    simp only [List.map_append]
    exact (((((names_optional _ _ _).append (names_optional _ _ _)).append
      (names_optional _ _ _)).append (names_optional _ _ _)).append (names_optional _ _ _)).append
      (names_optional _ _ _)
  · simp only [List.forall_mem_append]
    exact ⟨⟨⟨⟨⟨isSound_optional fun _ h => encodeBounds_isSound (hp.extent _ h),
      isSound_optional fun _ _ => trivial⟩, isSound_optional hp.step⟩, isSound_optional hp.minstep⟩,
      isSound_optional fun _ _ => trivial⟩, isSound_optional hp.base⟩

/-- The parameters of bins are read off what shows them. -/
theorem BinParams.decode_shown {p : BinParams} (hp : p.Finite) (h : p.toJson.ShownBy v) :
    BinParams.decode place v = some p := by
  obtain ⟨fs, hrecord, hshow, -⟩ := place.exists_record
    ["extent", "maxbins", "step", "minstep", "nice", "base"]
    (isSound_obj_iff.1 (toJson_isSound hp)).1 h
  -- each field is read by itself, as the names are distinct
  have hextent : Fields.optional fs "extent" place (decodeBounds place) = some p.extent :=
    hshow.optional encodeBounds (by decide) (by simp)
      (fun _ => nofun) fun _ _ _ => Place.bounds_shown
  have hmaxbins : Fields.optional fs "maxbins" place (place.nat (2 ^ 32)) = some p.maxbins :=
    hshow.optional (fun n : Nat => int n) (by decide) (by simp)
      (fun _ => nofun) fun n hn _ => Place.nat_shown (hp.maxbins n hn)
  have hstep : Fields.optional fs "step" place place.float = some p.step :=
    hshow.optional float (by decide) (by simp)
      (fun _ => nofun) fun _ _ _ => Place.float_shown
  have hminstep : Fields.optional fs "minstep" place place.float = some p.minstep :=
    hshow.optional float (by decide) (by simp)
      (fun _ => nofun) fun _ _ _ => Place.float_shown
  have hnice : Fields.optional fs "nice" place place.bool = some p.nice :=
    hshow.optional Json.bool (by decide) (by simp)
      (fun _ => nofun) fun _ _ _ => Place.bool_shown
  have hbase : Fields.optional fs "base" place place.float = some p.base :=
    hshow.optional float (by decide) (by simp)
      (fun _ => nofun) fun _ _ _ => Place.float_shown
  simp only [BinParams.decode, hrecord, hextent, hmaxbins, hstep, hminstep, hnice, hbase,
    Option.bind_eq_bind, Option.bind_some, Option.pure_def]

/-- A flag or parameters: either is written soundly. -/
theorem BinSpec.toJson_isSound {bin : BinSpec} (hb : bin.Finite) : bin.toJson.IsSound := by
  cases bin with
  | flag on => exact trivial
  | params p => exact BinParams.toJson_isSound hb

/-- Bins are read off what shows them, a flag before parameters. -/
theorem BinSpec.decode_shown {bin : BinSpec} (hb : bin.Finite) (h : bin.toJson.ShownBy v) :
    BinSpec.decode v = some bin := by
  rw [BinSpec.decode, if_pos h.isPlain]
  cases bin with
  | flag on => rw [Place.bool_shown h]; rfl
  | params p =>
    -- parameters are a map, which no flag is
    have hbool : Place.nested.bool v = none := by
      obtain ⟨_, _, rfl, -⟩ := h
      rfl
    rw [hbool, BinParams.decode_shown hb h]
    rfl

/-! ### Field definitions -/

/-- The type of a scale is read off the record that it stands in. -/
theorem decodeScale_shown {type : ScaleType} (h : (obj [("type", .str type.name)]).ShownBy v) :
    decodeScale place v = some type := by
  obtain ⟨fs, hrecord, hshow, -⟩ := place.exists_record ["type"] (by simp) h
  have htype : Fields.required fs "type" (ScaleType.decode place) = some type :=
    hshow.required (by decide) rfl fun _ => ScaleType.decode_shown
  simp only [decodeScale, hrecord, htype, Option.bind_eq_bind, Option.bind_some]

/-- An axis or a legend is read off what shows it. -/
theorem Guide.decode_shown {guide : Guide} (h : guide.toJson.ShownBy v) :
    Guide.decode place v = some guide := by
  obtain ⟨fs, hrecord, hshow, -⟩ := place.exists_record ["format"] (by simp) h
  have hformat : Fields.optional fs "format" place place.string = some guide.format :=
    hshow.orNull (by decide) rfl (fun _ => nofun) fun _ _ _ => Place.string_shown
  simp only [Guide.decode, hrecord, hformat, Option.bind_eq_bind, Option.bind_some, Option.pure_def]

/-- It is written soundly. -/
theorem Guide.toJson_isSound (guide : Guide) : guide.toJson.IsSound :=
  isSound_obj_iff.2 ⟨by simp, by simpa using isSound_orNull fun _ _ => isSound_str _⟩

/-- A field definition with finite numbers is written soundly. -/
theorem FieldDef.toJson_isSound {f : FieldDef} (hf : f.Finite) : f.toJson.IsSound := by
  refine isSound_obj_iff.2 ⟨by simp, ?_⟩
  simp only [List.forall_mem_cons]
  exact ⟨isSound_orNull fun _ _ => trivial, trivial, isSound_orNull fun _ _ => trivial,
    isSound_orNull fun bin hbin => BinSpec.toJson_isSound (hf bin hbin),
    isSound_orNull fun _ _ => trivial,
    isSound_orNull fun _ _ => isSound_obj_iff.2 ⟨by simp, by simpa using isSound_str _⟩,
    isSound_orNull fun _ _ => Guide.toJson_isSound _,
    isSound_orNull fun _ _ => Guide.toJson_isSound _,
    isSound_orNull fun _ _ => trivial, by simp⟩

/-- A field definition is read off what shows it. -/
theorem FieldDef.decode_shown {f : FieldDef} (hf : f.Finite) (h : f.toJson.ShownBy v) :
    FieldDef.decode place v = some f := by
  obtain ⟨fs, hrecord, hshow, -⟩ := place.exists_record
    ["field", "type", "aggregate", "bin", "time_unit", "scale", "axis", "legend", "sort"]
    (isSound_obj_iff.1 (toJson_isSound hf)).1 h
  -- each field of the record is read as it was written
  have hfield : Fields.optional fs "field" place place.string = some f.field :=
    hshow.orNull (by decide) rfl (fun _ => nofun) fun _ _ _ => Place.string_shown
  have htype : Fields.required fs "type" (FieldType.decode place) = some f.type :=
    hshow.required (by decide) rfl fun _ => FieldType.decode_shown
  have haggregate : Fields.optional fs "aggregate" place (AggregateOp.decode place) =
      some f.aggregate :=
    hshow.orNull (by decide) rfl (fun _ => nofun) fun _ _ _ => AggregateOp.decode_shown
  have hbin : Fields.optional fs "bin" place BinSpec.decode = some f.bin :=
    hshow.orNull (by decide) rfl (fun bin => by cases bin <;> nofun) fun bin hbin _ =>
      BinSpec.decode_shown (hf bin hbin)
  have hunit : Fields.optional fs "time_unit" place (TimeUnit.decode place) = some f.timeUnit :=
    hshow.orNull (by decide) rfl (fun _ => nofun) fun _ _ _ => TimeUnit.decode_shown
  have hscale : Fields.optional fs "scale" place (decodeScale place) = some f.scale :=
    hshow.orNull (by decide) rfl (fun _ => nofun) fun _ _ _ => decodeScale_shown
  have haxis : Fields.optional fs "axis" place (Guide.decode place) = some f.axis :=
    hshow.orNull (by decide) rfl (fun _ => nofun) fun _ _ _ => Guide.decode_shown
  have hlegend : Fields.optional fs "legend" place (Guide.decode place) = some f.legend :=
    hshow.orNull (by decide) rfl (fun _ => nofun) fun _ _ _ => Guide.decode_shown
  have hsort : Fields.optional fs "sort" place (SortOrder.decode place) = some f.sort :=
    hshow.orNull (by decide) rfl (fun _ => nofun) fun _ _ _ => SortOrder.decode_shown
  simp only [FieldDef.decode, hrecord, hfield, htype, haggregate, hbin, hunit, hscale, haxis,
    hlegend, hsort, Option.bind_eq_bind, Option.bind_some, Option.pure_def]

/-! ### Transforms -/

/-- A condition with finite numbers is written soundly. -/
theorem Predicate.toJson_isSound {predicate : Predicate} (hp : predicate.Finite) :
    predicate.toJson.IsSound := by
  cases predicate with
  | expression text => exact trivial
  | equal field value =>
    exact isSound_obj_iff.2 ⟨by simp, by simpa using ⟨isSound_str _, hp.isSound⟩⟩
  | range field low high =>
    exact isSound_obj_iff.2 ⟨by simp, by simpa using ⟨isSound_str _, encodeBounds_isSound hp⟩⟩
  | oneOf field values =>
    have hvalues : (arr values).IsSound := isSound_arr_iff.2 fun j hj => (hp j hj).isSound
    exact isSound_obj_iff.2 ⟨by simp, by simpa using ⟨isSound_str _, hvalues⟩⟩

/-- Free JSON in a list. -/
theorem toJson?_list_shown {rows : List Json} (hrows : ∀ j ∈ rows, j.IsFree)
    (h : (arr rows).ShownBy v) : place.list Value.toJson? v = some rows :=
  Place.list_shown (fun j hj _ => ShownBy.toJson? (hrows j hj)) (by rwa [List.map_id'])

/-- What compares to nothing is not read as a comparison. -/
theorem Predicate.decodeEqual_eq_none {fields : List (String × Json)}
    (hnames : (fields.map Prod.fst).Nodup) (hnone : (obj fields).field? "equal" = none)
    (h : (obj fields).ShownBy v) : decode.decodeEqual v = none := by
  obtain ⟨fs, hvariant, hlacks⟩ :=
    Place.exists_lacking ["field", "equal"] "equal" (by decide) hnames hnone h
  simp [decode.decodeEqual, hvariant, hlacks]

/-- A condition is read off what shows it. -/
theorem Predicate.decode_shown {predicate : Predicate} (hp : predicate.Finite)
    (h : predicate.toJson.ShownBy v) : Predicate.decode v = some predicate := by
  rw [Predicate.decode, if_pos h.isPlain]
  -- the forms are tried one after the other, and those before the right one each need a field that
  -- only they write
  cases predicate with
  | expression text =>
    rw [toJson, ShownBy] at h
    subst h
    rfl
  | equal field value =>
    have hequal : decode.decodeEqual v = some (equal field value) := by
      obtain ⟨fs, hvariant, hshow⟩ := Place.exists_variant ["field", "equal"] (by simp) h
      have hfield : Fields.required fs "field" Place.nested.string = some field :=
        hshow.required (by decide) rfl fun _ => Place.string_shown
      have hvalue : Fields.required fs "equal" Value.toJson? = some value :=
        hshow.required (by decide) rfl fun _ => ShownBy.toJson? hp
      simp only [decode.decodeEqual, hvariant, hfield, hvalue, Option.bind_eq_bind,
        Option.bind_some, Option.pure_def]
    obtain ⟨_, _, rfl, -⟩ := h
    rw [hequal]
    rfl
  | range field low high =>
    have hequal : decode.decodeEqual v = none := decodeEqual_eq_none (by simp) rfl h
    have hrange : decode.decodeRange v = some (range field low high) := by
      obtain ⟨fs, hvariant, hshow⟩ := Place.exists_variant ["field", "range"] (by simp) h
      have hfield : Fields.required fs "field" Place.nested.string = some field :=
        hshow.required (by decide) rfl fun _ => Place.string_shown
      have hbounds : Fields.required fs "range" (decodeBounds .nested) = some (low, high) :=
        hshow.required (by decide) rfl fun _ => Place.bounds_shown
      simp [decode.decodeRange, hvariant, hfield, hbounds]
    obtain ⟨_, _, rfl, -⟩ := h
    rw [hequal, hrange]
    rfl
  | oneOf field values =>
    have hequal : decode.decodeEqual v = none := decodeEqual_eq_none (by simp) rfl h
    have hrange : decode.decodeRange v = none := by
      obtain ⟨fs, hvariant, hlacks⟩ :=
        Place.exists_lacking ["field", "range"] "range" (by decide) (by simp) rfl h
      simp [decode.decodeRange, hvariant, hlacks]
    have honeOf : decode.decodeOneOf v = some (oneOf field values) := by
      obtain ⟨fs, hvariant, hshow⟩ := Place.exists_variant ["field", "one_of"] (by simp) h
      have hfield : Fields.required fs "field" Place.nested.string = some field :=
        hshow.required (by decide) rfl fun _ => Place.string_shown
      have hvalues : Fields.required fs "one_of" (Place.nested.list Value.toJson?) = some values :=
        hshow.required (by decide) rfl fun _ => toJson?_list_shown hp
      simp [decode.decodeOneOf, hvariant, hfield, hvalues]
    obtain ⟨_, _, rfl, -⟩ := h
    rw [hequal, hrange, honeOf]
    rfl

/-- A transform with finite numbers is written soundly. -/
theorem Transform.toJson_isSound {transform : Transform} (ht : transform.Finite) :
    transform.toJson.IsSound := by
  cases transform with
  | filter predicate =>
    exact isSound_obj_iff.2 ⟨by simp, by simpa using Predicate.toJson_isSound ht⟩
  | calculate expression output =>
    exact isSound_obj_iff.2 ⟨by simp, by simpa using ⟨isSound_str _, isSound_str _⟩⟩

/-- A transform is read off what shows it. -/
theorem Transform.decode_shown {transform : Transform} (ht : transform.Finite)
    (h : transform.toJson.ShownBy v) : Transform.decode v = some transform := by
  rw [Transform.decode, if_pos h.isPlain]
  cases transform with
  | filter predicate =>
    have hfilter : decode.decodeFilter v = some (filter predicate) := by
      obtain ⟨fs, hvariant, hshow⟩ := Place.exists_variant ["filter"] (by simp) h
      have hpredicate : Fields.required fs "filter" Predicate.decode = some predicate :=
        hshow.required (by decide) rfl fun _ => Predicate.decode_shown ht
      simp [decode.decodeFilter, hvariant, hpredicate]
    rw [hfilter]
    rfl
  | calculate expression output =>
    -- the first form does not fit, as it lacks its field
    have hfilter : decode.decodeFilter v = none := by
      obtain ⟨fs, hvariant, hlacks⟩ :=
        Place.exists_lacking ["filter"] "filter" (by decide) (by simp) rfl h
      simp [decode.decodeFilter, hvariant, hlacks]
    have hcalculate : decode.decodeCalculate v = some (calculate expression output) := by
      obtain ⟨fs, hvariant, hshow⟩ := Place.exists_variant ["calculate", "as"] (by simp) h
      have hexpression : Fields.required fs "calculate" Place.nested.string = some expression :=
        hshow.required (by decide) rfl fun _ => Place.string_shown
      have houtput : Fields.required fs "as" Place.nested.string = some output :=
        hshow.required (by decide) rfl fun _ => Place.string_shown
      simp [decode.decodeCalculate, hvariant, hexpression, houtput]
    rw [hfilter, hcalculate]
    rfl

/-! ### Data declarations -/

/-- Reading the entries of a map that shows the entries of a sorted map. -/
theorem exists_mapM_entries {κ α : Type} [LT κ] [DecidableEq κ] [DecidableLT κ]
    [Trans (α := κ) (· < ·) (· < ·) (· < ·)] [Std.Trichotomous (α := κ) (· < ·)]
    [Std.Irrefl (α := κ) (· < ·)] {m : SortedMap κ α} {field : κ × α → String × Json}
    (read : Value × Value → Option (κ × α))
    (hread : ∀ e ∈ m.entries, ∀ w, (field e).2.ShownBy w → read (.str (field e).1, w) = some e)
    (h : (obj (m.entries.map field)).ShownBy v) :
    ∃ entries es, v = .map entries ∧ entries.mapM read = some es ∧ SortedMap.ofList es = m := by
  obtain ⟨es, es', rfl, hp, hshown⟩ := h
  rw [fieldsShownBy_iff, List.forall₂_map_left_iff] at hshown
  -- first the entries in the order of the sorted map, then those in the order of the document
  have hall : es'.mapM (fun e => read (.str e.1, e.2)) = some m.entries := by
    refine mapM_of_forall₂ (fun e he w hw => ?_) hshown
    rw [← hw.1]
    exact hread e he w.2 hw.2
  obtain ⟨found, hfound, hperm⟩ := exists_mapM_of_perm hall hp
  refine ⟨_, found, rfl, ?_, SortedMap.ofList_of_perm hperm⟩
  rwa [List.mapM_map]

/-- A map of strings is written soundly. -/
theorem encodeStringMap_isSound (m : SortedMap String String) : (encodeStringMap m).IsSound := by
  refine isSound_obj_iff.2 ⟨?_, ?_⟩
  · rw [List.map_map]
    exact m.nodup_keys
  · intro e he
    obtain ⟨_, _, rfl⟩ := List.mem_map.1 he
    exact trivial

/-- A map of strings is read off what shows it. -/
theorem decodeStringMap_shown {m : SortedMap String String} (h : (encodeStringMap m).ShownBy v) :
    decodeStringMap v = some m := by
  let read (e : Value × Value) : Option (String × String) := do
    let k ← e.1.str?
    let s ← e.2.str?
    pure (k, s)
  have hread (e : String × String) (_ : e ∈ m.entries) (w : Value)
      (hw : (Json.str e.2).ShownBy w) : read (.str e.1, w) = some e := by
    rw [ShownBy] at hw
    subst hw
    rfl
  obtain ⟨entries, es, rfl, hes, rfl⟩ := exists_mapM_entries read hread h
  rw [decodeStringMap, hes]
  rfl

/-- The format of data is written soundly. -/
theorem DataFormat.toJson_isSound (format : DataFormat) : format.toJson.IsSound := by
  refine isSound_obj_iff.2 ⟨?_, ?_⟩
  · have hnames : ["type", "parse"].Nodup := by decide
    rw [List.map_append]
    exact hnames.sublist ((names_optional _ _ _).append (names_optional _ _ _))
  · rw [List.forall_mem_append]
    exact ⟨isSound_optional fun _ _ => trivial,
      isSound_optional fun _ _ => encodeStringMap_isSound _⟩

/-- The format of data is read off what shows it. -/
theorem DataFormat.decode_shown {format : DataFormat} (h : format.toJson.ShownBy v) :
    DataFormat.decode place v = some format := by
  obtain ⟨fs, hrecord, hshow, -⟩ := place.exists_record ["type", "parse"]
    (isSound_obj_iff.1 (toJson_isSound format)).1 h
  have htype : Fields.optional fs "type" place place.string = some format.type :=
    hshow.optional Json.str (by decide) (by simp) (fun _ => nofun) fun _ _ _ => Place.string_shown
  have hparse : Fields.optional fs "parse" place decodeStringMap = some format.parse :=
    hshow.optional encodeStringMap (by decide) (by simp) (fun _ => nofun) fun _ _ _ =>
      decodeStringMap_shown
  simp [DataFormat.decode, hrecord, htype, hparse]

/-- A finite sequence is written soundly. -/
theorem SequenceParams.fields_isSound {params : SequenceParams} (hp : params.Finite) :
    (obj params.fields).IsSound := by
  refine isSound_obj_iff.2 ⟨?_, ?_⟩
  · have hnames : ["start", "stop", "step", "as"].Nodup := by decide
    rw [fields, List.map_append, List.map_append]
    exact hnames.sublist (((List.Sublist.refl ["start", "stop"]).append
      (names_optional _ _ _)).append (names_optional _ _ _))
  · rw [fields, List.forall_mem_append, List.forall_mem_append]
    refine ⟨⟨?_, isSound_optional hp.step⟩, isSound_optional fun _ _ => trivial⟩
    simpa using ⟨hp.start, hp.stop⟩

/-- A sequence is read off what shows it. -/
theorem SequenceParams.decode_shown {params : SequenceParams} (hp : params.Finite)
    (h : (obj params.fields).ShownBy v) : SequenceParams.decode place v = some params := by
  obtain ⟨fs, hrecord, hshow, -⟩ := place.exists_record ["start", "stop", "step", "as"]
    (isSound_obj_iff.1 (fields_isSound hp)).1 h
  have hstart : Fields.required fs "start" place.float = some params.start :=
    hshow.required (by decide) (by simp [fields]) fun _ => Place.float_shown
  have hstop : Fields.required fs "stop" place.float = some params.stop :=
    hshow.required (by decide) (by simp [fields]) fun _ => Place.float_shown
  have hstep : Fields.optional fs "step" place place.float = some params.step :=
    hshow.optional Json.float (by decide) (by simp [fields]) (fun _ => nofun) fun _ _ _ =>
      Place.float_shown
  have houtput : Fields.optional fs "as" place place.string = some params.output :=
    hshow.optional Json.str (by decide) (by simp [fields]) (fun _ => nofun) fun _ _ _ =>
      Place.string_shown
  simp [SequenceParams.decode, hrecord, hstart, hstop, hstep, houtput]

/-- A data declaration with finite numbers is written soundly. -/
theorem DataSource.toJson_isSound {data : DataSource} (hd : data.Finite) : data.toJson.IsSound := by
  -- the fields of each form have distinct names
  cases data with
  | values rows format =>
    refine isSound_obj_iff.2 ⟨?_, ?_⟩
    · have hnames : ["values", "format"].Nodup := by decide
      exact hnames.sublist ((names_optional _ _ _).cons_cons _)
    · rw [List.forall_mem_cons]
      exact ⟨isSound_arr_iff.2 fun j hj => (hd j hj).isSound,
        isSound_optional fun format _ => format.toJson_isSound⟩
  | url address format =>
    refine isSound_obj_iff.2 ⟨?_, ?_⟩
    · have hnames : ["url", "format"].Nodup := by decide
      exact hnames.sublist ((names_optional _ _ _).cons_cons _)
    · rw [List.forall_mem_cons]
      exact ⟨trivial, isSound_optional fun format _ => format.toJson_isSound⟩
  | sequence params =>
    exact isSound_obj_iff.2 ⟨by simp, by simpa using SequenceParams.fields_isSound hd⟩
  | named name => exact isSound_obj_iff.2 ⟨by simp, by simpa using isSound_str _⟩

/-- Without rows nothing is read as inline data. -/
theorem DataSource.decodeValues_eq_none {fields : List (String × Json)}
    (hnames : (fields.map Prod.fst).Nodup) (hnone : (obj fields).field? "values" = none)
    (h : (obj fields).ShownBy v) : decode.decodeValues v = none := by
  obtain ⟨fs, hvariant, hlacks⟩ :=
    Place.exists_lacking ["values", "format"] "values" (by decide) hnames hnone h
  simp [decode.decodeValues, hvariant, hlacks]

/-- Without an address nothing is read as remote data. -/
theorem DataSource.decodeUrl_eq_none {fields : List (String × Json)}
    (hnames : (fields.map Prod.fst).Nodup) (hnone : (obj fields).field? "url" = none)
    (h : (obj fields).ShownBy v) : decode.decodeUrl v = none := by
  obtain ⟨fs, hvariant, hlacks⟩ :=
    Place.exists_lacking ["url", "format"] "url" (by decide) hnames hnone h
  simp [decode.decodeUrl, hvariant, hlacks]

/-- Without its parameters nothing is read as a sequence. -/
theorem DataSource.decodeSequence_eq_none {fields : List (String × Json)}
    (hnames : (fields.map Prod.fst).Nodup) (hnone : (obj fields).field? "sequence" = none)
    (h : (obj fields).ShownBy v) : decode.decodeSequence v = none := by
  obtain ⟨fs, hvariant, hlacks⟩ :=
    Place.exists_lacking ["sequence"] "sequence" (by decide) hnames hnone h
  simp [decode.decodeSequence, hvariant, hlacks]

/-- A data declaration is read off what shows it. -/
theorem DataSource.decode_shown {data : DataSource} (hd : data.Finite)
    (h : data.toJson.ShownBy v) : DataSource.decode v = some data := by
  have hsound := toJson_isSound hd
  rw [DataSource.decode, if_pos h.isPlain]
  cases data with
  | values rows format =>
    have hnames := (isSound_obj_iff.1 hsound).1
    have hvalues : decode.decodeValues v = some (values rows format) := by
      obtain ⟨fs, hvariant, hshow⟩ := Place.exists_variant ["values", "format"] hnames h
      have hrows : Fields.required fs "values" (Place.nested.list Value.toJson?) = some rows :=
        hshow.required (by decide) (by simp) fun _ => toJson?_list_shown hd
      have hformat : Fields.optional fs "format" .nested (DataFormat.decode .nested) =
          some format :=
        hshow.optional DataFormat.toJson (by decide) (by simp) (fun _ => nofun) fun _ _ _ =>
          DataFormat.decode_shown
      simp [decode.decodeValues, hvariant, hrows, hformat]
    rw [hvalues]
    rfl
  | url address format =>
    -- the forms that are tried before need a field that is not there
    have hnames := (isSound_obj_iff.1 hsound).1
    have hvalues := decodeValues_eq_none hnames (by simp) h
    have hurl : decode.decodeUrl v = some (url address format) := by
      obtain ⟨fs, hvariant, hshow⟩ := Place.exists_variant ["url", "format"] hnames h
      have haddress : Fields.required fs "url" Place.nested.string = some address :=
        hshow.required (by decide) (by simp) fun _ => Place.string_shown
      have hformat : Fields.optional fs "format" .nested (DataFormat.decode .nested) =
          some format :=
        hshow.optional DataFormat.toJson (by decide) (by simp) (fun _ => nofun) fun _ _ _ =>
          DataFormat.decode_shown
      simp [decode.decodeUrl, hvariant, haddress, hformat]
    rw [hvalues, hurl]
    rfl
  | sequence params =>
    have hnames := (isSound_obj_iff.1 hsound).1
    have hvalues := decodeValues_eq_none hnames rfl h
    have hurl := decodeUrl_eq_none hnames rfl h
    have hsequence : decode.decodeSequence v = some (sequence params) := by
      obtain ⟨fs, hvariant, hshow⟩ := Place.exists_variant ["sequence"] hnames h
      have hparams : Fields.required fs "sequence" (SequenceParams.decode .nested) = some params :=
        hshow.required (by decide) rfl fun _ => SequenceParams.decode_shown hd
      simp [decode.decodeSequence, hvariant, hparams]
    rw [hvalues, hurl, hsequence]
    rfl
  | named name =>
    have hnames := (isSound_obj_iff.1 hsound).1
    have hvalues := decodeValues_eq_none hnames rfl h
    have hurl := decodeUrl_eq_none hnames rfl h
    have hsequence := decodeSequence_eq_none hnames rfl h
    have hnamed : decode.decodeNamed v = some (named name) := by
      obtain ⟨fs, hvariant, hshow⟩ := Place.exists_variant ["name"] hnames h
      have hname : Fields.required fs "name" Place.nested.string = some name :=
        hshow.required (by decide) rfl fun _ => Place.string_shown
      simp [decode.decodeNamed, hvariant, hname]
    rw [hvalues, hurl, hsequence, hnamed]
    rfl

/-! ### Parts of charts -/

/-- A configuration is written soundly. -/
theorem ChartConfig.toJson_isSound (config : ChartConfig) : config.toJson.IsSound := by
  refine isSound_obj_iff.2 ⟨by simp, ?_⟩
  simpa using ⟨isSound_str _, isSound_orNull fun _ _ => trivial⟩

/-- A configuration is read off what shows it. -/
theorem ChartConfig.decode_shown {config : ChartConfig} (h : config.toJson.ShownBy v) :
    ChartConfig.decode place v = some config := by
  obtain ⟨fs, hrecord, hshow, -⟩ :=
    place.exists_record ["number_format", "filter_invalid"] (by simp) h
  have hformat : Fields.withDefault fs "number_format" "s" place.string =
      some config.numberFormat :=
    hshow.withDefault (by decide) rfl fun _ => Place.string_shown
  have hinvalid : Fields.optional fs "filter_invalid" place place.bool =
      some config.filterInvalid :=
    hshow.orNull (by decide) rfl (fun _ => nofun) fun _ _ _ => Place.bool_shown
  simp [ChartConfig.decode, hrecord, hformat, hinvalid]

/-- The properties of a stack are written soundly. -/
theorem StackProperties.toJson_isSound (s : StackProperties) : s.toJson.IsSound := by
  have hstackBy : (arr (s.stackBy.map fun c => .str c.name)).IsSound :=
    isSound_list fun c _ => isSound_str c.name
  refine isSound_obj_iff.2 ⟨by simp, ?_⟩
  simpa using ⟨isSound_str _, isSound_orNull fun _ _ => isSound_str _, hstackBy, isSound_str _⟩

/-- The properties of a stack are read off what shows them. -/
theorem StackProperties.decode_shown {s : StackProperties} (h : s.toJson.ShownBy v) :
    StackProperties.decode place v = some s := by
  obtain ⟨fs, hrecord, hshow, -⟩ := place.exists_record
    ["field_channel", "groupby_channel", "stack_by", "offset"] (by simp) h
  have hfield : Fields.required fs "field_channel" (Channel.decode place) = some s.fieldChannel :=
    hshow.required (by decide) rfl fun _ => Channel.decode_shown
  have hgroupby : Fields.optional fs "groupby_channel" place (Channel.decode place) =
      some s.groupbyChannel :=
    hshow.orNull (by decide) rfl (fun _ => nofun) fun _ _ _ => Channel.decode_shown
  have hstackBy : Fields.withDefault fs "stack_by" [] (place.list (Channel.decode place)) =
      some s.stackBy :=
    hshow.withDefault (by decide) rfl fun _ =>
      Place.list_shown fun _ _ _ => Channel.decode_shown
  have hoffset : Fields.withDefault fs "offset" .zero (StackOffset.decode place) =
      some s.offset :=
    hshow.withDefault (by decide) rfl fun _ => StackOffset.decode_shown
  simp [StackProperties.decode, hrecord, hfield, hgroupby, hstackBy, hoffset]

/-- The definitions of channels are written soundly, as the channels have different names. -/
theorem encodeEncoding_isSound {encoding : Encoding} (he : ∀ e ∈ encoding.entries, e.2.Finite) :
    (encodeEncoding encoding).IsSound := by
  refine isSound_obj_iff.2 ⟨?_, ?_⟩
  · have hnames := List.Nodup.map Channel.name_tells.injective encoding.nodup_keys
    rwa [List.map_map] at hnames ⊢
  · intro f hf
    obtain ⟨e, hmem, rfl⟩ := List.mem_map.1 hf
    exact FieldDef.toJson_isSound (he e hmem)

/-- The definitions of channels are read off what shows them. -/
theorem decodeEncoding_shown {encoding : Encoding} (he : ∀ e ∈ encoding.entries, e.2.Finite)
    (h : (encodeEncoding encoding).ShownBy v) : decodeEncoding v = some encoding := by
  let read (e : Value × Value) : Option (Channel × FieldDef) := do
    let channel ← Channel.decode .nested e.1
    let definition ← FieldDef.decode .nested e.2
    pure (channel, definition)
  have hread (e : Channel × FieldDef) (hmem : e ∈ encoding.entries) (w : Value)
      (hw : e.2.toJson.ShownBy w) : read (.str e.1.name, w) = some e := by
    have hchannel : Channel.decode .nested (.str e.1.name) = some e.1 := Channel.decode_shown rfl
    simp [read, hchannel, FieldDef.decode_shown (he e hmem) hw]
  obtain ⟨entries, es, rfl, hes, rfl⟩ := exists_mapM_entries read hread h
  rw [decodeEncoding, hes]
  rfl

/-- The dimensions of a facet are written soundly. -/
theorem FacetMapping.toJson_isSound {mapping : FacetMapping} (hm : mapping.Finite) :
    mapping.toJson.IsSound := by
  refine isSound_obj_iff.2 ⟨by simp, ?_⟩
  simpa using ⟨isSound_orNull fun d hd => FieldDef.toJson_isSound (hm.row d hd),
    isSound_orNull fun d hd => FieldDef.toJson_isSound (hm.column d hd)⟩

/-- The dimensions of a facet are read off what shows them. -/
theorem FacetMapping.decode_shown {mapping : FacetMapping} (hm : mapping.Finite)
    (h : mapping.toJson.ShownBy v) : FacetMapping.decode place v = some mapping := by
  obtain ⟨fs, hrecord, hshow, -⟩ := place.exists_record ["row", "column"] (by simp) h
  have hrow : Fields.optional fs "row" place (FieldDef.decode place) = some mapping.row :=
    hshow.orNull (by decide) rfl (fun _ => nofun) fun d hd _ =>
      FieldDef.decode_shown (hm.row d hd)
  have hcolumn : Fields.optional fs "column" place (FieldDef.decode place) = some mapping.column :=
    hshow.orNull (by decide) rfl (fun _ => nofun) fun d hd _ =>
      FieldDef.decode_shown (hm.column d hd)
  simp [FacetMapping.decode, hrecord, hrow, hcolumn]

/-! ### Charts -/

namespace Chart

/-- A header is read off, and what is left is the kind, which is less deep. -/
theorem decodeWithin_header (place : Place) {header : ChartHeader} (hh : header.Finite)
    {kind : Json} (h : (header.toJson kind).ShownBy v) :
    ∃ w, kind.ShownBy w ∧ w.depth < v.depth ∧
      ∀ n, decodeWithin (n + 1) place v = decodeKind n place header w := by
  obtain ⟨fs, hrecord, hshow, hdepth⟩ := place.exists_record
    ["name", "data", "transform", "config", "requested_data", "kind"] (by simp) h
  -- the fields before the kind are read by decoders that do not count the depth
  have hname : Fields.withDefault fs "name" "" place.string = some header.name :=
    hshow.withDefault (by decide) rfl fun _ => Place.string_shown
  have hdata : Fields.optional fs "data" place DataSource.decode = some header.data :=
    hshow.orNull (by decide) rfl (fun data => by cases data <;> nofun) fun data hdata _ =>
      DataSource.decode_shown (hh.data data hdata)
  have htransforms : Fields.withDefault fs "transform" [] (place.list Transform.decode) =
      some header.transforms :=
    hshow.withDefault (by decide) rfl fun _ =>
      Place.list_shown fun t ht _ => Transform.decode_shown (hh.transforms t ht)
  have hconfig : Fields.withDefault fs "config" {} (ChartConfig.decode place) =
      some header.config :=
    hshow.withDefault (by decide) rfl fun _ => ChartConfig.decode_shown
  have hrequested : Fields.withDefault fs "requested_data" []
      (place.list (DataOutput.decode place)) = some header.requested :=
    hshow.withDefault (by decide) rfl fun _ =>
      Place.list_shown fun _ _ _ => DataOutput.decode_shown
  obtain ⟨w, hw, hshown⟩ := hshow.exists_get? "kind" (by decide) rfl
  refine ⟨w, hshown, Fields.depth_lt_of_get? hdepth hw, fun n => ?_⟩
  simp [decodeWithin, hrecord, hname, hdata, htransforms, hconfig, hrequested, hw]

mutual

/-- A chart is read off any value that shows its JSON form. -/
theorem decodeWithin_shown : (chart : Chart) → chart.Finite → ∀ (place : Place) {v : Value},
    chart.toJson.ShownBy v → ∀ n, v.depth + 2 ≤ n → decodeWithin n place v = some chart
  | unit header mark encoding stack, ⟨hh, he⟩, place, v, h, n, hn => by
    obtain ⟨w, hw, hdepth, hheader⟩ := decodeWithin_header place hh h
    obtain ⟨rest, hform, hrest, -⟩ := place.exists_form ["unit", "layer", "facet"]
      (by decide) (by simp) hw
    obtain ⟨fs, hrecord, hshow, -⟩ :=
      Place.nested.exists_record ["mark", "encoding", "stack"] (by simp) hrest
    have hmark : Fields.required fs "mark" (Mark.decode .nested) = some mark :=
      hshow.required (by decide) rfl fun _ => Mark.decode_shown
    have hencoding : Fields.withDefault fs "encoding" ∅ decodeEncoding = some encoding :=
      hshow.withDefault (by decide) rfl fun _ => decodeEncoding_shown he
    have hstack : Fields.optional fs "stack" .nested (StackProperties.decode .nested) =
        some stack :=
      hshow.orNull (by decide) rfl (fun _ => nofun) fun _ _ _ => StackProperties.decode_shown
    obtain ⟨m, rfl⟩ : ∃ m, n = m + 2 := ⟨n - 2, by omega⟩
    rw [hheader]
    simp [decodeKind, hform, hrecord, hmark, hencoding, hstack]
  | layer header children, ⟨hh, hc⟩, place, v, h, n, hn => by
    -- the header and the kind take one unit of depth each, which leaves enough for the children
    obtain ⟨w, hw, hdepth, hheader⟩ := decodeWithin_header place hh h
    obtain ⟨rest, hform, hrest, hdepthRest⟩ :=
      place.exists_form ["unit", "layer", "facet"] (by decide) (by simp) hw
    obtain ⟨fs, hrecord, hshow, hdepthFields⟩ :=
      Place.nested.exists_record ["children"] (by simp) hrest
    obtain ⟨_, hget, vs, rfl, hvs⟩ := hshow.exists_get? "children" (by decide) rfl
    obtain ⟨m, rfl⟩ : ∃ m, n = m + 2 := ⟨n - 2, by omega⟩
    have hlist : vs.mapM (decodeWithin m .nested) = some children := by
      have hdepthList := Fields.depth_lt_of_get? hdepthFields hget
      refine decodeList_shown children hc hvs m fun c hmem => ?_
      have := Value.depth_lt_of_mem hmem
      omega
    have hchildren : Fields.withDefault fs "children" []
        (Place.nested.list (decodeWithin m .nested)) = some children := by
      rw [Fields.withDefault, hget]
      exact hlist
    rw [hheader]
    simp [decodeKind, hform, hrecord, hchildren]
  | facet header mapping child, ⟨hh, hm, hc⟩, place, v, h, n, hn => by
    obtain ⟨w, hw, hdepth, hheader⟩ := decodeWithin_header place hh h
    obtain ⟨rest, hform, hrest, hdepthRest⟩ :=
      place.exists_form ["unit", "layer", "facet"] (by decide) (by simp) hw
    obtain ⟨fs, hrecord, hshow, hdepthFields⟩ :=
      Place.nested.exists_record ["facet", "child"] (by simp) hrest
    have hmapping : Fields.required fs "facet" (FacetMapping.decode .nested) = some mapping :=
      hshow.required (by decide) rfl fun _ => FacetMapping.decode_shown hm
    obtain ⟨w', hget, hw'⟩ := hshow.exists_get? "child" (by decide) rfl
    have hdepthChild := Fields.depth_lt_of_get? hdepthFields hget
    obtain ⟨m, rfl⟩ : ∃ m, n = m + 2 := ⟨n - 2, by omega⟩
    have hchild : Fields.required fs "child" (decodeWithin m .nested) = some child := by
      rw [Fields.required, hget]
      exact decodeWithin_shown child hc .nested hw' m (by omega)
    rw [hheader]
    simp [decodeKind, hform, hrecord, hmapping, hchild]

/-- Charts are read off what shows them one by one. -/
theorem decodeList_shown : (charts : List Chart) → AllFinite charts → ∀ {vs : List Value},
    ItemsShownBy (listToJson charts) vs → ∀ n, (∀ v ∈ vs, v.depth + 2 ≤ n) →
    vs.mapM (decodeWithin n .nested) = some charts
  | [], _, _, h, _, _ => by subst h; rfl
  | chart :: rest, ⟨hc, hrest⟩, _, ⟨v, ws, rfl, hv, hws⟩, n, hn => by
    have hhead := decodeWithin_shown chart hc .nested hv n (hn v List.mem_cons_self)
    have htail := decodeList_shown rest hrest hws n fun w hw => hn w (List.mem_cons_of_mem _ hw)
    simp [hhead, htail]

end

/-- A header with finite numbers is written soundly around its kind. -/
theorem header_toJson_isSound {header : ChartHeader} (hh : header.Finite) {kind : Json}
    (hkind : kind.IsSound) : (header.toJson kind).IsSound := by
  refine isSound_obj_iff.2 ⟨by simp, ?_⟩
  simp only [List.forall_mem_cons]
  exact ⟨trivial, isSound_orNull fun data hdata => DataSource.toJson_isSound (hh.data data hdata),
    isSound_list fun t ht => Transform.toJson_isSound (hh.transforms t ht),
    header.config.toJson_isSound, isSound_list fun _ _ => isSound_str _, hkind, by simp⟩

mutual

/-- A chart with finite floats is written soundly. -/
theorem toJson_isSound : (chart : Chart) → chart.Finite → chart.toJson.IsSound
  | unit header mark encoding stack, ⟨hh, he⟩ => by
    refine header_toJson_isSound hh (isSound_obj_iff.2 ⟨by simp, ?_⟩)
    simpa using ⟨isSound_str _, isSound_str _, encodeEncoding_isSound he,
      isSound_orNull fun s _ => s.toJson_isSound⟩
  | layer header children, ⟨hh, hc⟩ => by
    refine header_toJson_isSound hh (isSound_obj_iff.2 ⟨by simp, ?_⟩)
    simpa using ⟨isSound_str _, isSound_arr_iff.2 (listToJson_isSound children hc)⟩
  | facet header mapping child, ⟨hh, hm, hc⟩ => by
    refine header_toJson_isSound hh (isSound_obj_iff.2 ⟨by simp, ?_⟩)
    simpa using ⟨isSound_str _, FacetMapping.toJson_isSound hm, toJson_isSound child hc⟩

/-- So are several charts. -/
theorem listToJson_isSound : (charts : List Chart) → AllFinite charts →
    ∀ j ∈ listToJson charts, j.IsSound
  | [], _ => by simp [listToJson]
  | chart :: rest, ⟨hc, hrest⟩ => by
    rw [listToJson, List.forall_mem_cons]
    exact ⟨toJson_isSound chart hc, listToJson_isSound rest hrest⟩

end

/-- A chart is read off any value that shows it, as its depth bounds the depth of its charts. -/
theorem decode_shown {chart : Chart} (h : chart.Finite) (hv : chart.toJson.ShownBy v) :
    decode place v = some chart :=
  decodeWithin_shown chart h place hv _ (Nat.le_refl _)

/-- A chart with finite floats comes back from its JSON form, wherever this stands: as it is
    written, and with the names of every object in order. -/
theorem decode_toJson {chart : Chart} (h : chart.Finite) (place : Place) :
    decode place (.ofJson chart.toJson) = some chart ∧
      ∃ j, (Value.ofJson chart.toJson).toJson? = some j ∧ decode place (.ofJson j) = some chart := by
  refine ⟨decode_shown h (shownBy_ofJson _), ?_⟩
  obtain ⟨j, hj, hshown⟩ := exists_toJson? (toJson_isSound chart h)
  exact ⟨j, hj, decode_shown h hshown⟩

/-- Bars of binned values. -/
def binnedBars : Chart :=
  .unit { requested := [.main] } .bar
    ⟨[(.x, { FieldDef.named "x" .quantitative with
        bin := some (.params { extent := some (0, 10), maxbins := some 20 })
        scale := some .log, sort := some .descending }), (.y, .count)], by simp; decide⟩
    (some { fieldChannel := .y, stackBy := [.color], offset := .normalize })

/-- The bars in cells by `k`, with predicates of all forms and rows that hold objects. -/
def binnedCells : Chart :=
  .facet { name := "cells"
           data := some (.values [.obj [("k", .str "a"), ("x", .obj [("low", .float 0.5)])], .null]
             (some { type := some "json", parse := some ⟨[("x", "number")], by simp⟩ }))
           transforms := [.filter (.expression "datum.x"), .filter (.equal "k" (.arr [.int 1])),
             .filter (.range "x" (-1.5) 10), .filter (.oneOf "k" [.bool true, .float 0.001]),
             .calculate "datum.x * 2" "y"] }
    { row := some { FieldDef.named "k" .nominal with axis := some {} } }
    (.layer { config := { filterInvalid := some false } } [binnedBars])

/-- The numbers of the bars are finite. -/
theorem binnedBars_finite : binnedBars.Finite := by
  have hbin : BinParams.Finite { extent := some (0, 10), maxbins := some 20 } := by
    refine ⟨fun bounds hb => ?_, fun n hn => ?_, nofun, nofun, nofun⟩
    · obtain rfl := Option.mem_some.1 hb
      exact ⟨by decide, by decide⟩
    · obtain rfl := Option.mem_some.1 hn
      decide
  refine ⟨⟨nofun, nofun⟩, fun e he => ?_⟩
  rcases List.mem_cons.1 he with rfl | he
  · intro bin hb
    obtain rfl := Option.mem_some.1 hb
    exact hbin
  · obtain rfl := List.mem_singleton.1 he
    exact nofun

/-- So are those of the cells around them. -/
theorem binnedCells_finite : binnedCells.Finite := by
  rw [binnedCells, Finite, Finite, AllFinite, AllFinite]
  refine ⟨⟨fun data hd => ?_, fun t ht => ?_⟩, ⟨fun d hd => ?_, fun _ hd => absurd hd (by simp)⟩,
    ⟨nofun, nofun⟩, binnedBars_finite, trivial⟩
  · obtain rfl := Option.mem_some.1 hd
    -- the names of a row stand in order
    have hnames : "k" < "x" := by decide +kernel
    have hhalf : FloatText.finite 0.5 = true := by decide
    have hrow : IsFree (.obj [("k", .str "a"), ("x", .obj [("low", .float 0.5)])]) :=
      ⟨List.pairwise_pair.2 hnames, trivial, ⟨List.pairwise_singleton _ _, hhalf, trivial⟩, trivial⟩
    exact List.forall_mem_cons.2 ⟨hrow, List.forall_mem_singleton.2 trivial⟩
  · simp only [List.mem_cons, List.not_mem_nil, or_false] at ht
    rcases ht with rfl | rfl | rfl | rfl | rfl
    · exact trivial
    · simp [Transform.Finite, Predicate.Finite, IsFree, Tidy, TidyItems]
    · exact ⟨by decide, by decide⟩
    · simp [Transform.Finite, Predicate.Finite, IsFree, Tidy]
      decide
    · exact trivial
  · obtain rfl := Option.mem_some.1 hd
    exact fun _ hd => absurd hd (by simp [FieldDef.named])

/-- The cells come back from YAML. -/
theorem decode_toJson_binnedCells : binnedCells.Finite ∧
    decode .yaml (.ofJson binnedCells.toJson) = some binnedCells ∧
      ∃ j, (Value.ofJson binnedCells.toJson).toJson? = some j ∧
        decode .yaml (.ofJson j) = some binnedCells :=
  ⟨binnedCells_finite, decode_toJson binnedCells_finite .yaml⟩

end Chart

end ChartPipeline
