import ChartPipeline.Dataset.Decode
import ChartPipeline.Dataset.Encode
import ChartPipeline.Proofs.RoundTrip

/-!
# Datasets come back from their JSON form

The JSON form of datasets leaves out lists that are empty, a stack's sorting where it names no
field, and whatever is not given.  What is left out is read as empty again, so datasets come back
from their form if their numbers are finite and every stack that sorts by no field has no
directions either.

## Key results

- `Step.decode_shown`: a step of any kind is read off any value that shows its JSON form
- `CompiledData.decode_ofJson_toJson`: datasets come back from their JSON form
-/

namespace ChartPipeline

open Json

/-! ### What the form tells -/

/-- A signal, or finite bounds. -/
def BinExtent.Finite : BinExtent → Prop
  | signal _ => True
  | bounds low high => FiniteBounds (low, high)

/-- Binning by finite numbers, and by a number of bins that fits into 32 bits. -/
structure BinStep.Finite (b : BinStep) : Prop where
  extent : b.extent.Finite
  maxbins : ∀ n ∈ b.maxbins, n < 2 ^ 32
  step : FiniteWhere b.step
  minstep : FiniteWhere b.minstep
  base : FiniteWhere b.base

/-- Fields to sort by that have a direction each. -/
def SortSpec.Paired (s : SortSpec) : Prop := s.orders.length = s.fields.length

/-- Without fields there are no directions that could get lost. -/
theorem SortSpec.Paired.eq_empty {s : SortSpec} (hs : s.Paired) (h : s.fields = []) : s = {} := by
  obtain ⟨fields, orders⟩ := s
  obtain rfl : fields = [] := h
  obtain rfl : orders = [] := List.eq_nil_of_length_eq_zero hs
  rfl

/-- A step whose JSON form tells everything about it. -/
def Step.Faithful : Step → Prop
  | bin b => b.Finite
  | stack s => s.sort.Paired
  | sequence params => params.Finite
  | _ => True

/-- A record whose JSON form tells everything about it. -/
structure DatasetRecord.Faithful (r : DatasetRecord) : Prop where
  values : ∀ rows ∈ r.values, ∀ j ∈ rows, j.IsFree
  steps : ∀ step ∈ r.steps, step.Faithful

/-- Datasets whose JSON form tells everything about them. -/
structure CompiledData.Faithful (d : CompiledData) : Prop where
  datasets : ∀ r ∈ d.datasets, r.Faithful
  facets : ∀ f ∈ d.facets, ∀ r ∈ f.datasets, r.Faithful

/-! ### Fields that are left out -/

namespace Json

variable {α : Type} {name : String} {encode : α → Json}

/-- A list field is one that is left out where the list is empty. -/
theorem nonempty_eq (name : String) (encode : α → Json) (as : List α) :
    Json.nonempty name encode as =
      Json.optional name (fun bs => arr (bs.map encode)) (Option.guard (!·.isEmpty) as) := by
  cases as <;> rfl

/-- What is left out where it is empty is sound if its items are. -/
theorem isSound_nonempty {as : List α} (h : ∀ a ∈ as, (encode a).IsSound) :
    ∀ e ∈ Json.nonempty name encode as, e.2.IsSound := by
  rw [nonempty_eq]
  refine isSound_optional fun bs hbs => ?_
  obtain ⟨rfl, -⟩ := Option.guard_eq_some_iff.1 hbs
  exact isSound_list h

/-- Lists of strings are sound. -/
theorem isSound_strings (ss : List String) : (strings ss).IsSound :=
  isSound_list fun s _ => isSound_str s

end Json

/-- A field that is left out where it has its default. -/
theorem Fields.Show.guarded {α : Type} {names : List String} {fields : List (String × Json)}
    {fs : Fields} {name : String} {decode : Decoder α} {a default : α}
    (h : Show names fields fs) (encode : α → Json) (p : α → Bool) (hname : name ∈ names)
    (hj : (obj fields).field? name = (Option.guard p a).map encode)
    (hp : p a = false → a = default) (hd : ∀ v, (encode a).ShownBy v → decode v = some a) :
    fs.withDefault name default decode = some a := by
  cases hpa : p a with
  | true =>
    rw [Option.guard_eq_some_iff.2 ⟨rfl, hpa⟩, Option.map_some] at hj
    exact h.withDefault hname hj hd
  | false =>
    rw [Option.guard_eq_none_iff.2 hpa, Option.map_none] at hj
    rw [Fields.withDefault, h.get?_eq_none hname hj, hp hpa]

variable {place : Place} {v : Value}

/-- A list of strings is read off what shows it. -/
theorem decodeStrings_shown {ss : List String} (h : (strings ss).ShownBy v) :
    decodeStrings place v = some ss :=
  Place.list_shown (fun _ _ _ => Place.string_shown) h

/-- Two strings in a list, such as the names of the fields that a step sets. -/
theorem Place.strings_shown {s t : String} (h : (strings [s, t]).ShownBy v) :
    place.pair place.string v = some (s, t) := by
  obtain ⟨_, rfl, first, _, rfl, hfirst, second, _, rfl, hsecond, rfl⟩ := h
  have hview : place.view (.list [first, second]) = .list [first, second] := by cases place <;> rfl
  rw [pair, hview]
  simp only [string_shown hfirst, string_shown hsecond]
  rfl

/-! ### Binning and sorting -/

/-- A finite extent is written soundly. -/
theorem BinExtent.toJson_isSound {extent : BinExtent} (he : extent.Finite) :
    extent.toJson.IsSound := by
  cases extent with
  | signal name => exact isSound_obj_iff.2 ⟨by simp, by simpa using isSound_str _⟩
  | bounds low high => exact encodeBounds_isSound he

/-- An extent is read off what shows it: a signal from an object, bounds from a list. -/
theorem BinExtent.decode_shown {extent : BinExtent} (h : extent.toJson.ShownBy v) :
    BinExtent.decode v = some extent := by
  rw [BinExtent.decode, if_pos h.isPlain]
  cases extent with
  | signal name =>
    obtain ⟨fs, hvariant, hshow⟩ := Place.exists_variant ["signal"] (by simp) h
    have hname : Fields.required fs "signal" Place.nested.string = some name :=
      hshow.required (by decide) rfl fun _ => Place.string_shown
    simp [decode.decodeSignal, hvariant, hname]
  | bounds low high =>
    have hsignal : decode.decodeSignal v = none := by
      obtain ⟨_, rfl, -⟩ := h
      rfl
    rw [hsignal, Place.bounds_shown h]
    rfl

/-- The fields to sort by are written soundly, with their directions. -/
theorem SortSpec.toJson_isSound (s : SortSpec) : s.toJson.IsSound :=
  isSound_obj_iff.2 ⟨by simp, by simpa using ⟨isSound_strings _, isSound_strings _⟩⟩

/-- They are read off what shows them. -/
theorem SortSpec.decode_shown {s : SortSpec} (h : s.toJson.ShownBy v) :
    SortSpec.decode place v = some s := by
  obtain ⟨fs, hrecord, hshow, -⟩ := place.exists_record ["field", "order"] (by simp) h
  have hfields : Fields.required fs "field" (decodeStrings place) = some s.fields :=
    hshow.required (by decide) rfl fun _ => decodeStrings_shown
  have horders : Fields.required fs "order" (decodeStrings place) = some s.orders :=
    hshow.required (by decide) rfl fun _ => decodeStrings_shown
  simp [SortSpec.decode, hrecord, hfields, horders]

/-! ### Steps -/

namespace Step

/-- The names that the form of a step may use after its kind. -/
def names : Step → List String
  | filter _ => ["expr"]
  | formula .. => ["expr", "as"]
  | extent .. => ["field", "signal"]
  | bin _ => ["field", "as", "signal", "extent", "maxbins", "step", "minstep", "nice", "base"]
  | aggregate .. => ["groupby", "fields", "ops", "as"]
  | stack _ => ["groupby", "field", "sort", "as", "offset"]
  | collect _ => ["sort"]
  | sequence _ => ["start", "stop", "step", "as"]

/-- The sorting of a stack is left out where it names no field. -/
theorem fields_stack (s : StackStep) : toJson.fields (.stack s) =
    Json.nonempty "groupby" .str s.groupby ++ [("field", .str s.field)] ++
      Json.optional "sort" SortSpec.toJson (Option.guard (!·.fields.isEmpty) s.sort) ++
      [("as", strings [s.start, s.stop]), ("offset", .str s.offset)] := by
  rw [toJson.fields, Option.guard]
  cases s.sort.fields <;> rfl

/-- A step uses none but the names of its kind, in their order. -/
theorem names_fields (step : Step) : ((toJson.fields step).map Prod.fst).Sublist step.names := by
  -- the names that are written are those of the record, but for the fields that are left out
  cases step with
  | filter | formula | extent | collect => exact List.Sublist.refl _
  | bin b =>
    simp only [toJson.fields, List.map_append]
    exact (((((List.Sublist.refl ["field", "as", "signal", "extent"]).append
      (names_optional _ _ _)).append (names_optional _ _ _)).append
      (names_optional _ _ _)).append (names_optional _ _ _)).append (names_optional _ _ _)
  | aggregate groupby fields ops outputs =>
    simp only [toJson.fields, nonempty_eq, List.map_append]
    exact (((names_optional _ _ _).append (names_optional _ _ _)).append
      (names_optional _ _ _)).append (names_optional _ _ _)
  | stack s =>
    simp only [fields_stack, nonempty_eq, List.map_append]
    exact (((names_optional _ _ _).append (.refl ["field"])).append
      (names_optional _ _ _)).append (.refl ["as", "offset"])
  | sequence params =>
    rw [toJson.fields, SequenceParams.fields, List.map_append, List.map_append]
    exact ((List.Sublist.refl ["start", "stop"]).append
      (names_optional _ _ _)).append (names_optional _ _ _)

/-- No name comes twice in a step, and none is that of its kind. -/
theorem nodup_fields (step : Step) : ("type" :: (toJson.fields step).map Prod.fst).Nodup := by
  have hnames : ("type" :: step.names).Nodup := by cases step <;> simp [names]
  exact hnames.sublist (step.names_fields.cons_cons _)

/-- A step whose form tells everything is written soundly. -/
theorem toJson_isSound {step : Step} (hs : step.Faithful) : step.toJson.IsSound := by
  refine isSound_obj_iff.2 ⟨step.nodup_fields, List.forall_mem_cons.2 ⟨trivial, ?_⟩⟩
  -- each field of a step is a text, a list of texts, or a number that is finite
  cases step with
  | filter | formula | extent => simp [toJson.fields, isSound_str]
  | bin b =>
    simp only [toJson.fields, List.forall_mem_append, List.forall_mem_cons]
    exact ⟨⟨⟨⟨⟨⟨isSound_str _, isSound_strings _, isSound_str _,
      BinExtent.toJson_isSound hs.extent, by simp⟩, isSound_optional fun _ _ => trivial⟩,
      isSound_optional hs.step⟩, isSound_optional hs.minstep⟩,
      isSound_optional fun _ _ => trivial⟩, isSound_optional hs.base⟩
  | aggregate groupby fields ops outputs =>
    have hlist {name : String} (ss : List String) :
        ∀ e ∈ Json.nonempty name Json.str ss, e.2.IsSound :=
      isSound_nonempty fun s _ => isSound_str s
    simp only [toJson.fields, List.forall_mem_append]
    exact ⟨⟨⟨hlist _, hlist _⟩, hlist _⟩, hlist _⟩
  | stack s =>
    simp only [fields_stack, List.forall_mem_append, List.forall_mem_cons]
    exact ⟨⟨⟨isSound_nonempty fun s _ => isSound_str s, isSound_str _, by simp⟩,
      isSound_optional fun sort _ => sort.toJson_isSound⟩, isSound_strings _, isSound_str _,
      by simp⟩
  | collect sort => simpa [toJson.fields] using sort.toJson_isSound
  | sequence params => exact (isSound_obj_iff.1 (SequenceParams.fields_isSound hs)).2

/-- A binning step is read off the fields beside its kind. -/
theorem decodeBin_shown {b : BinStep} (hb : b.Finite) {rest : Value}
    (h : (obj (toJson.fields (.bin b))).ShownBy rest) : decodeBin rest = some (.bin b) := by
  obtain ⟨fs, hrecord, hshow, -⟩ := Place.nested.exists_record
    ["field", "as", "signal", "extent", "maxbins", "step", "minstep", "nice", "base"]
    (nodup_fields (.bin b)).of_cons h
  -- each field of the record is read as it was written
  have hfield : Fields.required fs "field" Place.nested.string = some b.field :=
    hshow.required (by decide) (by simp [toJson.fields]) fun _ => Place.string_shown
  have hends : Fields.required fs "as" (Place.nested.pair Place.nested.string) =
      some (b.start, b.stop) :=
    hshow.required (by decide) (by simp [toJson.fields]) fun _ => Place.strings_shown
  have hsignal : Fields.required fs "signal" Place.nested.string = some b.signal :=
    hshow.required (by decide) (by simp [toJson.fields]) fun _ => Place.string_shown
  have hextent : Fields.required fs "extent" BinExtent.decode = some b.extent :=
    hshow.required (by decide) (by simp [toJson.fields]) fun _ => BinExtent.decode_shown
  have hmaxbins : Fields.optional fs "maxbins" .nested (Place.nested.nat (2 ^ 32)) =
      some b.maxbins :=
    hshow.optional (fun n : Nat => int n) (by decide) (by simp [toJson.fields])
      (fun _ => nofun) fun n hn _ => Place.nat_shown (hb.maxbins n hn)
  have hstep : Fields.optional fs "step" .nested Place.nested.float = some b.step :=
    hshow.optional float (by decide) (by simp [toJson.fields])
      (fun _ => nofun) fun _ _ _ => Place.float_shown
  have hminstep : Fields.optional fs "minstep" .nested Place.nested.float = some b.minstep :=
    hshow.optional float (by decide) (by simp [toJson.fields])
      (fun _ => nofun) fun _ _ _ => Place.float_shown
  have hnice : Fields.optional fs "nice" .nested Place.nested.bool = some b.nice :=
    hshow.optional Json.bool (by decide) (by simp [toJson.fields])
      (fun _ => nofun) fun _ _ _ => Place.bool_shown
  have hbase : Fields.optional fs "base" .nested Place.nested.float = some b.base :=
    hshow.optional float (by decide) (by simp [toJson.fields])
      (fun _ => nofun) fun _ _ _ => Place.float_shown
  simp only [decodeBin, hrecord, hfield, hends, hsignal, hextent, hmaxbins, hstep, hminstep, hnice,
    hbase, Option.bind_eq_bind, Option.bind_some, Option.pure_def]

/-- So is an aggregation. -/
theorem decodeAggregate_shown {groupby fields ops outputs : List String} {rest : Value}
    (h : (obj (toJson.fields (.aggregate groupby fields ops outputs))).ShownBy rest) :
    decodeAggregate rest = some (.aggregate groupby fields ops outputs) := by
  obtain ⟨fs, hrecord, hshow, -⟩ := Place.nested.exists_record ["groupby", "fields", "ops", "as"]
    (nodup_fields (.aggregate groupby fields ops outputs)).of_cons h
  -- all four lists are left out alike where they are empty
  have hlist (name : String) (ss : List String) (hname : name ∈ ["groupby", "fields", "ops", "as"])
      (hj : (obj (toJson.fields (.aggregate groupby fields ops outputs))).field? name =
        (Option.guard (!·.isEmpty) ss).map strings) :
      Fields.withDefault fs name [] (decodeStrings .nested) = some ss :=
    hshow.guarded strings _ hname hj (by simp) fun _ => decodeStrings_shown
  simp only [toJson.fields, nonempty_eq] at hlist
  have hgroupby := hlist "groupby" groupby (by decide) (by simp; rfl)
  have hfields := hlist "fields" fields (by decide) (by simp; rfl)
  have hops := hlist "ops" ops (by decide) (by simp; rfl)
  have houtputs := hlist "as" outputs (by decide) (by simp; rfl)
  simp [decodeAggregate, hrecord, hgroupby, hfields, hops, houtputs]

/-- So is a stack, if it sorts by as many fields as it gives directions for. -/
theorem decodeStack_shown {s : StackStep} (hs : s.sort.Paired) {rest : Value}
    (h : (obj (toJson.fields (.stack s))).ShownBy rest) : decodeStack rest = some (.stack s) := by
  obtain ⟨fs, hrecord, hshow, -⟩ := Place.nested.exists_record
    ["groupby", "field", "sort", "as", "offset"] (nodup_fields (.stack s)).of_cons h
  rw [fields_stack, nonempty_eq] at hshow
  have hgroupby : Fields.withDefault fs "groupby" [] (decodeStrings .nested) = some s.groupby :=
    hshow.guarded strings (!·.isEmpty) (by decide) (by simp; rfl) (by simp) fun _ =>
      decodeStrings_shown
  have hfield : Fields.required fs "field" Place.nested.string = some s.field :=
    hshow.required (by decide) (by simp) fun _ => Place.string_shown
  -- a sorting that was left out has no fields, and so no directions
  have hsort : Fields.withDefault fs "sort" {} (SortSpec.decode .nested) = some s.sort :=
    hshow.guarded SortSpec.toJson (!·.fields.isEmpty) (by decide) (by simp)
      (fun hnone => hs.eq_empty (by simpa using hnone)) fun _ => SortSpec.decode_shown
  have hends : Fields.required fs "as" (Place.nested.pair Place.nested.string) =
      some (s.start, s.stop) :=
    hshow.required (by decide) (by simp) fun _ => Place.strings_shown
  have hoffset : Fields.required fs "offset" Place.nested.string = some s.offset :=
    hshow.required (by decide) (by simp) fun _ => Place.string_shown
  simp [decodeStack, hrecord, hgroupby, hfield, hsort, hends, hoffset]

/-- A step is read off what shows it. -/
theorem decode_shown {step : Step} (hs : step.Faithful) (h : step.toJson.ShownBy v) :
    Step.decode place v = some step := by
  have hkind : step.kind ∈ kinds := by cases step <;> simp [kind, kinds]
  obtain ⟨rest, hform, hrest, -⟩ := place.exists_form kinds hkind step.nodup_fields h
  -- beside the kind, the fields are read that the kind has
  have hnames := step.nodup_fields.of_cons
  cases step with
  | filter expression =>
    obtain ⟨fs, hrecord, hshow, -⟩ := Place.nested.exists_record ["expr"] hnames hrest
    have hexpression : Fields.required fs "expr" Place.nested.string = some expression :=
      hshow.required (by decide) rfl fun _ => Place.string_shown
    simp [decode, hform, kind, hrecord, hexpression]
  | formula expression output =>
    obtain ⟨fs, hrecord, hshow, -⟩ := Place.nested.exists_record ["expr", "as"] hnames hrest
    have hexpression : Fields.required fs "expr" Place.nested.string = some expression :=
      hshow.required (by decide) rfl fun _ => Place.string_shown
    have houtput : Fields.required fs "as" Place.nested.string = some output :=
      hshow.required (by decide) rfl fun _ => Place.string_shown
    simp [decode, hform, kind, hrecord, hexpression, houtput]
  | extent field signal =>
    obtain ⟨fs, hrecord, hshow, -⟩ := Place.nested.exists_record ["field", "signal"] hnames hrest
    have hfield : Fields.required fs "field" Place.nested.string = some field :=
      hshow.required (by decide) rfl fun _ => Place.string_shown
    have hsignal : Fields.required fs "signal" Place.nested.string = some signal :=
      hshow.required (by decide) rfl fun _ => Place.string_shown
    simp [decode, hform, kind, hrecord, hfield, hsignal]
  | bin b => simp [decode, hform, kind, decodeBin_shown hs hrest]
  | aggregate groupby fields ops outputs =>
    simp [decode, hform, kind, decodeAggregate_shown hrest]
  | stack s => simp [decode, hform, kind, decodeStack_shown hs hrest]
  | collect sort =>
    obtain ⟨fs, hrecord, hshow, -⟩ := Place.nested.exists_record ["sort"] hnames hrest
    have hsort : Fields.required fs "sort" (SortSpec.decode .nested) = some sort :=
      hshow.required (by decide) rfl fun _ => SortSpec.decode_shown
    simp [decode, hform, kind, hrecord, hsort]
  | sequence params =>
    have hparams : SequenceParams.decode .nested rest = some params :=
      SequenceParams.decode_shown hs hrest
    simp [decode, hform, kind, hparams]

end Step

/-! ### Records -/

namespace DatasetRecord

/-- A record whose form tells everything is written soundly. -/
theorem toJson_isSound {r : DatasetRecord} (hr : r.Faithful) : r.toJson.IsSound := by
  refine isSound_obj_iff.2 ⟨?_, List.forall_mem_cons.2 ⟨trivial, ?_⟩⟩
  · have hnames : ["name", "source", "values", "url", "format", "transform"].Nodup := by decide
    -- only the name is always there
    refine hnames.sublist (List.Sublist.cons_cons _ ?_)
    simp only [nonempty_eq, List.map_append]
    exact ((((names_optional _ _ _).append (names_optional _ _ _)).append
      (names_optional _ _ _)).append (names_optional _ _ _)).append (names_optional _ _ _)
  · simp only [List.forall_mem_append]
    exact ⟨⟨⟨⟨isSound_optional fun _ _ => trivial, isSound_optional fun rows hrows =>
      isSound_arr_iff.2 fun j hj => (hr.values rows hrows j hj).isSound⟩,
      isSound_optional fun _ _ => trivial⟩,
      isSound_optional fun format _ => format.toJson_isSound⟩,
      isSound_nonempty fun step hstep => Step.toJson_isSound (hr.steps step hstep)⟩

/-- A record is read off what shows it. -/
theorem decode_shown {r : DatasetRecord} (hr : r.Faithful) (h : r.toJson.ShownBy v) :
    DatasetRecord.decode place v = some r := by
  obtain ⟨fs, hrecord, hshow, -⟩ := place.exists_record
    ["name", "source", "values", "url", "format", "transform"]
    (isSound_obj_iff.1 (toJson_isSound hr)).1 h
  rw [nonempty_eq] at hshow
  -- each field of the record is read as it was written
  have hname : Fields.required fs "name" place.string = some r.name :=
    hshow.required (by decide) (by simp) fun _ => Place.string_shown
  have hsource : Fields.optional fs "source" place place.string = some r.source :=
    hshow.optional Json.str (by decide) (by simp) (fun _ => nofun) fun _ _ _ => Place.string_shown
  have hvalues : Fields.optional fs "values" place (place.list Value.toJson?) = some r.values :=
    hshow.optional arr (by decide) (by simp) (fun _ => nofun) fun rows hrows _ =>
      toJson?_list_shown (hr.values rows hrows)
  have hurl : Fields.optional fs "url" place place.string = some r.url :=
    hshow.optional Json.str (by decide) (by simp) (fun _ => nofun) fun _ _ _ => Place.string_shown
  have hformat : Fields.optional fs "format" place (DataFormat.decode place) = some r.format :=
    hshow.optional DataFormat.toJson (by decide) (by simp) (fun _ => nofun) fun _ _ _ =>
      DataFormat.decode_shown
  have hsteps : Fields.withDefault fs "transform" [] (place.list (Step.decode place)) =
      some r.steps :=
    hshow.guarded (fun steps => arr (steps.map Step.toJson)) (!·.isEmpty) (by decide) (by simp)
      (by simp) fun _ =>
        Place.list_shown fun step hstep _ => Step.decode_shown (hr.steps step hstep)
  simp [DatasetRecord.decode, hrecord, hname, hsource, hvalues, hurl, hformat, hsteps]

end DatasetRecord

/-- The data of a facet are written soundly if its records are. -/
theorem FacetData.toJson_isSound {f : FacetData} (hf : ∀ r ∈ f.datasets, r.Faithful) :
    f.toJson.IsSound := by
  have hdatasets := isSound_list fun r hr => DatasetRecord.toJson_isSound (hf r hr)
  exact isSound_obj_iff.2 ⟨by simp, by
    simpa using ⟨isSound_str _, isSound_str _, isSound_strings _, hdatasets⟩⟩

/-- They are read off what shows them. -/
theorem FacetData.decode_shown {f : FacetData} (hf : ∀ r ∈ f.datasets, r.Faithful)
    (h : f.toJson.ShownBy v) : FacetData.decode place v = some f := by
  obtain ⟨fs, hrecord, hshow, -⟩ := place.exists_record ["name", "source", "groupby", "datasets"]
    (by simp) h
  have hname : Fields.required fs "name" place.string = some f.name :=
    hshow.required (by decide) rfl fun _ => Place.string_shown
  have hsource : Fields.required fs "source" place.string = some f.source :=
    hshow.required (by decide) rfl fun _ => Place.string_shown
  have hgroupby : Fields.required fs "groupby" (decodeStrings place) = some f.groupby :=
    hshow.required (by decide) rfl fun _ => decodeStrings_shown
  have hdatasets : Fields.withDefault fs "datasets" [] (place.list (DatasetRecord.decode place)) =
      some f.datasets :=
    hshow.withDefault (by decide) rfl fun _ =>
      Place.list_shown fun r hr _ => DatasetRecord.decode_shown (hf r hr)
  simp [FacetData.decode, hrecord, hname, hsource, hgroupby, hdatasets]

namespace CompiledData

/-- Datasets whose form tells everything are written soundly. -/
theorem toJson_isSound {d : CompiledData} (hd : d.Faithful) : d.toJson.IsSound := by
  refine isSound_obj_iff.2 ⟨?_, List.forall_mem_cons.2 ⟨?_, ?_⟩⟩
  · have hnames : ["datasets", "facets"].Nodup := by decide
    rw [nonempty_eq]
    exact hnames.sublist ((names_optional _ _ _).cons_cons _)
  · exact isSound_list fun r hr => DatasetRecord.toJson_isSound (hd.datasets r hr)
  · exact isSound_nonempty fun f hf => FacetData.toJson_isSound (hd.facets f hf)

/-- Datasets are read off what shows them. -/
theorem decode_shown {d : CompiledData} (hd : d.Faithful) (h : d.toJson.ShownBy v) :
    CompiledData.decode place v = some d := by
  obtain ⟨fs, hrecord, hshow, -⟩ := place.exists_record ["datasets", "facets"]
    (isSound_obj_iff.1 (toJson_isSound hd)).1 h
  rw [nonempty_eq] at hshow
  have hdatasets : Fields.required fs "datasets" (place.list (DatasetRecord.decode place)) =
      some d.datasets :=
    hshow.required (by decide) (by simp) fun _ =>
      Place.list_shown fun r hr _ => DatasetRecord.decode_shown (hd.datasets r hr)
  have hfacets : Fields.withDefault fs "facets" [] (place.list (FacetData.decode place)) =
      some d.facets :=
    hshow.guarded (fun facets => arr (facets.map FacetData.toJson)) (!·.isEmpty) (by decide)
      (by simp) (by simp) fun _ =>
        Place.list_shown fun f hf _ => FacetData.decode_shown (hd.facets f hf)
  simp [CompiledData.decode, hrecord, hdatasets, hfacets]

/-- Datasets whose form tells everything about them come back from it, wherever it stands: as it
    is written, and with the names of every object in order. -/
theorem decode_ofJson_toJson {d : CompiledData} (hd : d.Faithful) (place : Place) :
    decode place (.ofJson d.toJson) = some d ∧
      ∃ j, (Value.ofJson d.toJson).toJson? = some j ∧ decode place (.ofJson j) = some d := by
  refine ⟨decode_shown hd (shownBy_ofJson _), ?_⟩
  obtain ⟨j, hj, hshown⟩ := exists_toJson? (toJson_isSound hd)
  exact ⟨j, hj, decode_shown hd hshown⟩

end CompiledData

end ChartPipeline
