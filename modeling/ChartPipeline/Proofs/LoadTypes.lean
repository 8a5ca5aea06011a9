import ChartPipeline.Proofs.Contributing
import ChartPipeline.Proofs.Sharing

/-!
# What is converted on loading

A chart asks for conversions of the fields that its channels show as numbers or dates, but for those
that it calculates itself.  The conversions of all charts that draw on the same data come to stand
below the one source of these data, and its record names what they convert beside what is declared.
So a record converts a field that is not declared exactly if some chart that draws on its data needs
that.

## Key results

- `get?_parseTypes`: the types that a chart asks for, field by field
- `Building.converts_iff`: what the flow of a chart converts below each source
- `Forest.keeps_hoist`: passes that come to their ends keep what is converted below each source
- `compileChart_converts`: what the records of a compiled chart convert
-/

namespace ChartPipeline

/-! ### What a chart asks for -/

/-- A definition that shows a field as a number or a date, rather than counting rows. -/
structure FieldDef.Shows (f : FieldDef) (field type : String) : Prop where
  not_count : f.isCount = false
  field_eq : f.field = some field
  type_eq : f.type.parseType? = some type

instance (f : FieldDef) (field type : String) : Decidable (f.Shows field type) :=
  decidable_of_iff (f.isCount = false ∧ f.field = some field ∧ f.type.parseType? = some type)
    ⟨fun ⟨hc, hf, ht⟩ => ⟨hc, hf, ht⟩, fun ⟨hc, hf, ht⟩ => ⟨hc, hf, ht⟩⟩

/-- The fields that transforms calculate. -/
def calculated (transforms : List Transform) : List String :=
  transforms.filterMap Transform.output?

/-- A field that a chart needs to be converted when it is loaded: one of its channels shows it, and
    the chart does not calculate it itself. -/
structure Chart.Needs (chart : Chart) (field type : String) : Prop where
  shown : ∃ d ∈ chart.fieldDefs, d.2.Shows field type
  loaded : field ∉ calculated chart.header.transforms

instance (chart : Chart) (field type : String) : Decidable (chart.Needs field type) :=
  decidable_of_iff ((∃ d ∈ chart.fieldDefs, d.2.Shows field type) ∧
    field ∉ calculated chart.header.transforms) ⟨fun ⟨hs, hl⟩ => ⟨hs, hl⟩, fun ⟨hs, hl⟩ => ⟨hs, hl⟩⟩

/-- The type that a definition asks a field to be converted to, unless it is one of those left
    out. -/
def FieldDef.loadType? (out : List String) (field : String) (f : FieldDef) : Option String :=
  if f.isCount = false ∧ f.field = some field ∧ field ∉ out then f.type.parseType? else none

/-- What one more definition adds to the types asked for. -/
def FieldDef.addType (out : List String) (types : ParseTypes) (f : FieldDef) : ParseTypes :=
  if f.isCount then types
  else match f.field, f.type.parseType? with
    | some field, some type =>
      if out.contains field then types else types.insertIfNew field type
    | _, _ => types

namespace FieldDef

variable {f : FieldDef} {out : List String} {field type : String}

/-- A definition asks for a type if it shows the field, unless the field is left out. -/
theorem loadType?_eq_some : f.loadType? out field = some type ↔ f.Shows field type ∧ field ∉ out := by
  rw [loadType?]
  constructor
  · intro h
    split at h
    · next hf => exact ⟨⟨hf.1, hf.2.1, h⟩, hf.2.2⟩
    · exact absurd h (by simp)
  · rintro ⟨h, hout⟩
    rw [if_pos ⟨h.not_count, h.field_eq, hout⟩, h.type_eq]

/-- A type that is asked for already stays. -/
theorem get?_addType (out : List String) (types : ParseTypes) (f : FieldDef) (field : String) :
    (f.addType out types).get? field = (types.get? field).or (f.loadType? out field) := by
  rw [addType, loadType?]
  cases hc : f.isCount with
  | true => simp
  | false =>
    cases hf : f.field with
    | none => simp
    | some own =>
      cases ht : f.type.parseType? with
      | none => simp
      | some type =>
        -- the field may be left out, be the one that is looked up, or be another one
        by_cases hout : own ∈ out
        · have hnot : ¬ (own = field ∧ field ∉ out) := fun h => h.2 (h.1 ▸ hout)
          simp [hout, hnot]
        · by_cases he : field = own
          · subst he
            cases hget : SortedMap.get? types field <;>
              simp [hout, SortedMap.insertIfNew, SortedMap.get?_upsert, hget]
          · simp [hout, SortedMap.insertIfNew, SortedMap.get?_upsert, he, Ne.symm he]

end FieldDef

namespace Chart

variable {chart : Chart} {field type : String} {types : ParseTypes}

/-- The types that a chart asks for. -/
def askedTypes (chart : Chart) : ParseTypes :=
  chart.fieldDefs.foldl (fun types d => d.2.addType (calculated chart.header.transforms) types) ∅

/-- A chart that asks for no types has no conversion. -/
theorem parseTypes?_eq (chart : Chart) :
    parseTypes? chart = if chart.askedTypes.isEmpty then none else some chart.askedTypes := rfl

/-- Field by field, the first channel that asks for a type decides. -/
theorem get?_askedTypes (chart : Chart) (field : String) : chart.askedTypes.get? field =
    chart.fieldDefs.findSome? fun d => d.2.loadType? (calculated chart.header.transforms) field := by
  generalize hout : calculated chart.header.transforms = out
  -- by induction on the channels, from whatever types there are already
  have hfold (ds : List (Channel × FieldDef)) (types : ParseTypes) :
      (ds.foldl (fun types d => d.2.addType out types) types).get? field =
        (types.get? field).or (ds.findSome? fun d => d.2.loadType? out field) := by
    induction ds generalizing types with
    | nil => simp
    | cons d ds ih =>
      rw [List.foldl_cons, ih, FieldDef.get?_addType, List.findSome?_cons, Option.or_assoc]
      cases FieldDef.loadType? out field d.2 <;> simp
  rw [askedTypes, hout, hfold]
  exact Option.none_or

/-- Without any types there is no conversion. -/
theorem get?_parseTypes (chart : Chart) (field : String) :
    (parseTypes? chart).bind (SortedMap.get? · field) = chart.askedTypes.get? field := by
  rw [parseTypes?_eq]
  split
  · next hempty =>
    rw [SortedMap.get?, List.isEmpty_iff.1 hempty]
    rfl
  · rfl

/-- A chart asks for nothing that it does not need. -/
theorem needs_of_parseTypes (h : parseTypes? chart = some types)
    (ht : types.get? field = some type) : chart.Needs field type := by
  have hget := get?_parseTypes chart field
  rw [h, Option.bind_some, ht, get?_askedTypes] at hget
  obtain ⟨d, hd, hload⟩ := List.exists_of_findSome?_eq_some hget.symm
  obtain ⟨hshows, hout⟩ := FieldDef.loadType?_eq_some.1 hload
  exact ⟨⟨d, hd, hshows⟩, hout⟩

/-- A chart asks for all that it needs, though a field that two channels show with different types
    gets one of them. -/
theorem Needs.exists_parseTypes (h : chart.Needs field type) :
    ∃ types, parseTypes? chart = some types ∧ ∃ type', types.get? field = some type' := by
  obtain ⟨⟨d, hd, hshows⟩, hout⟩ := h
  have hsome : (chart.fieldDefs.findSome? fun d =>
      d.2.loadType? (calculated chart.header.transforms) field).isSome = true :=
    List.findSome?_isSome_iff.2
      ⟨d, hd, by rw [FieldDef.loadType?_eq_some.2 ⟨hshows, hout⟩, Option.isSome_some]⟩
  rw [← get?_askedTypes, ← get?_parseTypes] at hsome
  obtain ⟨type', htype⟩ := Option.isSome_iff_exists.1 hsome
  obtain ⟨types, hp, hget⟩ := Option.bind_eq_some_iff.1 htype
  exact ⟨types, hp, type', hget⟩

/-- The conversion in the pipeline of a chart is what the chart asks for. -/
theorem parse_mem_pipeline : .parse types ∈ chart.pipeline ↔ parseTypes? chart = some types := by
  have htransforms : Stage.parse types ∉ chart.transformStages := by
    rw [transformStages, List.mem_map]
    rintro ⟨t, -, ht⟩
    cases t <;> simp at ht
  cases hu : chart.isUnit <;>
    simp [pipeline, htransforms, hu, rawOutput, mainOutput, eq_comm]

/-- A field that one of the charts in a tree needs that draw on data with the hash of the given
    data. -/
def NeedsFrom (chart : Chart) (data : DataSource) (field type : String) : Prop :=
  ∃ x ∈ chart.inContext handsOn none,
    (∃ e ∈ x.2.drawn x.1, Source.hashOf e.1 = Source.hashOf data) ∧ x.2.Needs field type

instance (chart : Chart) (data : DataSource) (field type : String) :
    Decidable (chart.NeedsFrom data field type) :=
  inferInstanceAs (Decidable (∃ x ∈ chart.inContext handsOn none,
    (∃ e ∈ x.2.drawn x.1, Source.hashOf e.1 = Source.hashOf data) ∧ x.2.Needs field type))

/-! ### Conversions on the ways -/

/-- The conversions on the ways of charts are asked for by those that draw on the same data, or
    around them. -/
def AskedOn (outer : Option (DataSource × List Stage))
    (xs : List (Option (DataSource × List Stage) × Chart)) : Prop :=
  ∀ x ∈ xs, ∀ {data stages types}, x.2.drawn x.1 = some (data, stages) → .parse types ∈ stages →
    (∃ y ∈ xs, (∃ e ∈ y.2.drawn y.1, e.1 = data) ∧ parseTypes? y.2 = some types) ∨
      ∃ before, outer = some (data, before) ∧ .parse types ∈ before

/-- A conversion on the way of a chart is its own, or stands on the way that it goes on from. -/
theorem parse_of_drawn {outer : Option (DataSource × List Stage)} {data : DataSource}
    {stages : List Stage} (h : chart.drawn outer = some (data, stages)) (ht : .parse types ∈ stages) :
    parseTypes? chart = some types ∨ ∃ before, outer = some (data, before) ∧ .parse types ∈ before := by
  -- with data of its own a chart begins anew, and else it goes on from what is around it
  cases hd : chart.header.data with
  | some own =>
    rw [drawn_own hd] at h
    cases h
    exact .inl (parse_mem_pipeline.1 ht)
  | none =>
    rw [drawn_outer hd] at h
    obtain ⟨⟨d, before⟩, hout, heq⟩ := Option.map_eq_some_iff.1 h
    cases heq
    rcases List.mem_append.1 ht with ht | ht
    · exact .inr ⟨before, hout, ht⟩
    · exact .inl (parse_mem_pipeline.1 ht)

/-- Charts beside each other and inside each other ask for conversions in this way. -/
theorem askedOn_compositional : Compositional handsOn AskedOn where
  nil outer x hx := absurd hx (by simp)
  append hx hy := by
    intro x hmem data stages types h ht
    rcases List.mem_append.1 hmem with hmem | hmem
    · exact (hx x hmem h ht).imp (fun ⟨y, hy, hd⟩ => ⟨y, List.mem_append_left _ hy, hd⟩) id
    · exact (hy x hmem h ht).imp (fun ⟨y, hy, hd⟩ => ⟨y, List.mem_append_right _ hy, hd⟩) id
  inside {outer chart xs} h := by
    -- what is on the way of the chart itself, which its main output stands at the end of
    have hself {data : DataSource} {stages : List Stage} {types : ParseTypes}
        (hdrawn : chart.drawn outer = some (data, stages)) (ht : .parse types ∈ stages) :
        (∃ y ∈ xs ++ [(outer, chart)], (∃ e ∈ y.2.drawn y.1, e.1 = data) ∧
            parseTypes? y.2 = some types) ∨
          ∃ before, outer = some (data, before) ∧ .parse types ∈ before :=
      (parse_of_drawn hdrawn ht).imp
        (fun hp => ⟨(outer, chart), by simp, ⟨_, hdrawn, rfl⟩, hp⟩) id
    intro x hmem data stages types hdrawn ht
    rcases List.mem_append.1 hmem with hmem | hmem
    · rcases h x hmem hdrawn ht with ⟨y, hy, hd⟩ | ⟨before, hbefore, ht⟩
      · exact .inl ⟨y, List.mem_append_left _ hy, hd⟩
      · -- a facet hands on its partitions as well, which convert nothing
        obtain ⟨⟨d, own⟩, hown, heq⟩ := Option.map_eq_some_iff.1 hbefore
        cases heq
        refine hself hown ((List.mem_append.1 ht).resolve_right fun hfacet => ?_)
        obtain ⟨p, -, hp⟩ := List.mem_map.1 hfacet
        exact absurd hp (by simp)
    · obtain rfl := List.mem_singleton.1 hmem
      exact hself hdrawn ht

/-- The pipeline of a chart is on its way. -/
theorem pipeline_subset_drawn {outer : Option (DataSource × List Stage)} {data : DataSource}
    {stages : List Stage} (h : chart.drawn outer = some (data, stages)) :
    chart.pipeline ⊆ stages := by
  cases hd : chart.header.data with
  | some own =>
    rw [drawn_own hd] at h
    cases h
    exact fun _ ha => ha
  | none =>
    rw [drawn_outer hd] at h
    obtain ⟨⟨d, before⟩, -, heq⟩ := Option.map_eq_some_iff.1 h
    cases heq
    exact List.subset_append_right _ _

end Chart

namespace Forest

variable {α : Type} {f : Forest α} {v : Place α} {e x : Nat × α} {r : List (Nat × α)}

/-- What stands on the way to a place below a root stands below the root. -/
theorem mem_under_of_route (hn : f.walk.Nodup)
    (hv : v ∈ f.places []) (hr : v.route = e :: r)
    (hx : x ∈ r) : x ∈ (f.under e.1).toList := by
  have habove : ∃ r', v.above = e :: r' ∧ r = r' ++ [(v.id, v.content)] := by
    cases h : v.above with
    | nil =>
      rw [Place.route, h] at hr
      obtain rfl := (List.cons.inj hr).2
      exact absurd hx (by simp)
    | cons y r' =>
      rw [Place.route, h, List.cons_append] at hr
      obtain ⟨rfl, rfl⟩ := List.cons.inj hr
      exact ⟨r', rfl, rfl⟩
  obtain ⟨r', habove, rfl⟩ := habove
  have hunder := ((mem_places_under (nodup_roots hn) habove).1 hv).2
  exact route_subset_toList hunder hx

end Forest

/-! ### The flow of a chart -/

namespace Building

open Forest

variable {chart : Chart} {st : Building} {i : Nat} {s : Source} {field type : String}

/-- Every conversion below a source is on the way to the main output of a chart. -/
theorem exists_drawn_of_mem_under (hst : ofChart chart = .ok st)
    (hi : (i, .source s) ∈ st.flow.stages.heads) {id : Nat} {types : ParseTypes}
    (h : (id, .parse types) ∈ (st.flow.stages.under i).toList) :
    ∃ x ∈ chart.inContext Chart.handsOn none, ∃ data stages,
      x.2.drawn x.1 = some (data, stages) ∧ s.hash = Source.hashOf data ∧ .parse types ∈ stages := by
  have hn := (ofChart_lawful hst).nodup
  have hlaid := laid_of_ofChart hst
  rw [toList_eq_map_places _ []] at h
  obtain ⟨u, hu, he⟩ := List.mem_map.1 h
  obtain ⟨rfl, hcontent⟩ := Prod.mk.inj he
  let v : Forest.Place Stage := ⟨(i, .source s) :: u.above, u.id, u.content⟩
  have hv : v ∈ st.flow.stages.places [] :=
    (mem_places_under (nodup_roots hn) rfl).2 ⟨hi, hu⟩
  obtain ⟨⟨x, c⟩, hx, w, hw, hmain, hway⟩ := onWay_of_ofChart hst v hv
  -- a conversion is no header, so it is on the way to the main output of a chart
  have hpre : v.route <+: w.route := by
    refine hway.resolve_right ?_
    rintro ⟨-, -, -, ht⟩
    rw [show v.content = .parse types from hcontent] at ht
    simp [Stage.tag] at ht
  have hnoted : Noted st x c := List.forall₂_zip hlaid.noted hx
  rw [Noted] at hnoted
  split at hnoted
  · next data stages hdrawn =>
    obtain ⟨w', hw', hmain', declared, hhash, hroute⟩ := hnoted
    obtain rfl : w = w' :=
      place_inj hn hw hw' (Option.some.inj (hmain.symm.trans hmain'))
    obtain ⟨r, hr⟩ := hpre
    -- that way is what the chart draws, from its source down
    have hall : Stage.source s :: (u.route ++ r).map Prod.snd =
        .source (.ofData declared) :: stages := by
      rw [← hroute, ← hr]
      rfl
    obtain ⟨hsource, rfl⟩ := List.cons.inj hall
    obtain rfl := Stage.source.inj hsource
    refine ⟨x, (List.of_mem_zip hx).1, data, _, hdrawn, hhash, ?_⟩
    simp [Place.route, hcontent]
  · exact absurd (hmain.symm.trans hnoted.2) (by simp)

/-- What the flow of a chart converts below a source, a chart that draws on its data needs. -/
theorem needsFrom_of_converts (hst : ofChart chart = .ok st)
    (hi : (i, .source s) ∈ st.flow.stages.heads) {data : DataSource}
    (hs : s.hash = Source.hashOf data) (h : (st.flow.stages.under i).Converts field type) :
    chart.NeedsFrom data field type := by
  obtain ⟨⟨id, a⟩, he, ht⟩ := h
  obtain ⟨types, rfl, hget⟩ := Stage.target?_eq_some ht
  obtain ⟨x, hx, own, stages, hdrawn, hhash, hmem⟩ := exists_drawn_of_mem_under hst hi he
  obtain ⟨y, hy, ⟨e, he, rfl⟩, hasks⟩ :=
    (Chart.askedOn_compositional.inContext chart none x hx hdrawn hmem).resolve_right (by simp)
  exact ⟨y, hy, ⟨e, he, hhash.symm.trans hs⟩, Chart.needs_of_parseTypes hasks hget⟩

/-- What a chart needs that draws on the data of a source is converted below the source. -/
theorem converts_of_needsFrom (hst : ofChart chart = .ok st)
    (hi : (i, .source s) ∈ st.flow.stages.heads) {data : DataSource}
    (hs : s.hash = Source.hashOf data) (h : chart.NeedsFrom data field type) :
    ∃ type', (st.flow.stages.under i).Converts field type' := by
  obtain ⟨x, hx, ⟨⟨own, stages⟩, hdrawn, hhash⟩, hneeds⟩ := h
  obtain ⟨types, hasks, type', hget⟩ := hneeds.exists_parseTypes
  have hmem := Chart.pipeline_subset_drawn hdrawn (Chart.parse_mem_pipeline.2 hasks)
  -- the way of the chart, which begins with the source
  obtain ⟨c, -, hnoted⟩ := exists_mem_of_forall₂ (laid_of_ofChart hst).noted hx
  rw [Noted, Option.mem_def.1 hdrawn] at hnoted
  obtain ⟨w, hw, -, declared, hdeclared, hroute⟩ := hnoted
  obtain ⟨root, r, hr, hsource, hrest⟩ := List.map_eq_cons_iff.1 hroute
  have hhead : root ∈ st.flow.stages.heads := mem_heads_of_route hw (by rw [hr]; rfl)
  obtain ⟨j, a⟩ := root
  obtain rfl : a = .source (.ofData declared) := hsource
  obtain rfl : j = i := eq_of_hash_eq hst hhead hi (hdeclared.trans (hhash.trans hs.symm))
  rw [← hrest] at hmem
  obtain ⟨⟨id, a⟩, he, rfl⟩ := List.mem_map.1 hmem
  exact ⟨type', _, mem_under_of_route (ofChart_lawful hst).nodup hw hr he, hget⟩

end Building

/-! ### Passes -/

namespace Forest

variable {policy : FacetPolicy} {pass : Pass} {passes : List Pass} {n : Nat} {f : Forest Stage}
  {i : Nat} {a : Stage} {field type : String}

/-- Stages that convert nothing may be taken out. -/
theorem converts_prune {p : Stage → Bool}
    (hp : ∀ {a types}, p a = true → a ≠ .parse types) :
    (f.prune p).Converts field type ↔ f.Converts field type := by
  rw [Converts, Converts, toList_prune]
  refine exists_congr fun e => ?_
  rw [List.mem_filter, and_assoc]
  refine and_congr_right fun _ => and_iff_right_of_imp fun ht => ?_
  obtain ⟨types, he, -⟩ := Stage.target?_eq_some ht
  rw [Bool.not_eq_true', ← Bool.not_eq_true]
  exact fun hpe => hp hpe he

/-- A pass that comes to its end keeps what is converted below each source. -/
theorem keeps_rounds (hf : f.Lawful) (h : Rests pass policy (rounds pass policy n f))
    (hi : (i, a) ∈ f.heads) : Keeps (f.under i) ((rounds pass policy n f).under i) := by
  by_cases hparse : pass = .parse
  · subst hparse
    cases n with
    | zero => exact .refl _
    | succ n => exact keeps_under hf.grounded hi n policy
  · -- the other passes leave conversions where they are, but for the stages that they move
    obtain ⟨k, flow', hrun⟩ :=
      @Flow.settle_of_rests { stages := f } pass policy n 0 hf.grounded h
    obtain ⟨hst, -⟩ := Flow.rests_of_settle hf.grounded hrun
    obtain ⟨-, hf', -⟩ := Flow.settle_ok hrun hf
    have hprune := prune_of_steps (Flow.runPass_steps hrun hf.nodup).1
    rw [hst] at hprune hf'
    have hkept {a : Stage} {types : ParseTypes} (ha : pass.handles a.tag = true) :
        a ≠ .parse types := by
      rintro rfl
      exact Pass.not_parse ha hparse rfl
    have hroot {g : Forest Stage} (hg : g.Lawful) :
        ∀ e ∈ g.heads, pass.handles e.2.tag = false := by
      intro e he
      rw [hg.sourced e he]
      cases pass <;> rfl
    -- without the stages that are moved, what is below the source is the same
    have hunder := congrArg (under i) hprune
    rw [under_prune (hroot hf'), under_prune (hroot hf)] at hunder
    have hsame {field type : String} :
        ((rounds pass policy n f).under i).Converts field type ↔ (f.under i).Converts field type := by
      rw [← converts_prune hkept, hunder, converts_prune hkept]
    exact ⟨fun hc => ⟨_, hsame.2 hc⟩, hsame.1⟩

/-- So do several passes, one after the other. -/
theorem keeps_hoist (hf : f.Lawful) (h : Ends policy n passes f) (hi : (i, a) ∈ f.heads) :
    Keeps (f.under i) ((Forest.hoist policy n passes f).under i) := by
  -- pass by pass: the roots stay, and each pass keeps what is converted below them
  induction passes generalizing f with
  | nil => exact .refl _
  | cons pass passes ih =>
    obtain ⟨hrests, hends⟩ := h
    have hone : Ends policy n [pass] f := ⟨hrests, trivial⟩
    have hheads : (rounds pass policy n f).heads = f.heads :=
      @heads_hoist policy [pass] n f hf.sourced hf.nodup
    exact (keeps_rounds hf hrests hi).trans (ih (hf.hoist hone) hends (hheads ▸ hi))

/-- Where every stage stands where it may, a conversion below a root is right below it. -/
theorem converts_iff_heads (hn : f.roots.Nodup) (hs : ∀ v ∈ f.places [], v.Stands)
    (hi : (i, a) ∈ f.heads) : (∃ type, (f.under i).Converts field type) ↔
      ((f.under i).heads.findSome? fun e => e.2.target? field).isSome = true := by
  rw [List.findSome?_isSome_iff]
  constructor
  · rintro ⟨type, e, he, ht⟩
    refine ⟨e, ?_, by rw [ht, Option.isSome_some]⟩
    rw [toList_eq_map_places _ []] at he
    obtain ⟨u, hu, rfl⟩ := List.mem_map.1 he
    have hplace := (mem_places_under (v := ⟨(i, a) :: u.above, u.id, u.content⟩) hn rfl).2 ⟨hi, hu⟩
    obtain ⟨types, hcontent, -⟩ := Stage.target?_eq_some ht
    -- a conversion further down would stand below something that it goes above
    have habove := (hs _ hplace).parse (by rw [show u.content = .parse types from hcontent]; rfl)
    obtain ⟨above, id, content⟩ := u
    obtain rfl : above = [] := by simpa using habove
    exact mem_heads_iff.2 hu
  · rintro ⟨e, he, ht⟩
    obtain ⟨type, ht⟩ := Option.isSome_iff_exists.1 ht
    exact ⟨type, e, mem_toList_of_mem_heads he, ht⟩

/-- The children of a root are what stands right below it. -/
theorem children_of_mem_heads (hn : f.walk.Nodup) (hi : (i, a) ∈ f.heads) :
    f.children i = (f.under i).roots := by
  obtain ⟨before, after, heq⟩ := exists_append_of_mem_heads (nodup_roots hn) hi
  have hfill : f = fill [⟨before, i, a, after⟩] (f.under i) := heq
  have hchildren := @children_first _ [] ⟨before, i, a, after⟩ (f.under i) (hfill ▸ hn)
  rwa [← hfill] at hchildren

end Forest

/-! ### Records -/

namespace Compilation

open Forest

variable {options : CompilerOptions} {chart : Chart} {data : CompiledData} {built : Building}
  {flow : Flow} {i : Nat} {s : Source} {field type : String}

/-- In the flow that is assembled, every stage stands where it may. -/
theorem stands (h : Compilation options chart data built flow) :
    ∀ v ∈ flow.stages.places [], v.Stands := by
  obtain ⟨flow', hrun⟩ := (Flow.runPasses_iff h.lawful).2 h.ends
  obtain ⟨hst, -⟩ := Flow.stages_of_runPasses h.lawful hrun
  obtain ⟨passes, hpasses, -⟩ := options.exists_passes
  have hstands := stands_of_passes (Flow.runPasses_ok hrun h.lawful) h.lawful
    (Building.ofChart_orderly h.built_eq) (by rw [hpasses, List.getLast?_concat])
  rw [h.stages_eq, CompilerOptions.finished, finished, ← hst]
  exact stands_prune hstands

/-- The flow that is assembled converts below each source what the flow of the chart does. -/
theorem keeps (h : Compilation options chart data built flow)
    (hi : (i, .source s) ∈ built.flow.stages.heads) :
    Forest.Keeps (built.flow.stages.under i) (flow.stages.under i) := by
  have hkeeps := keeps_hoist h.lawful h.ends hi
  have hsourced := (h.lawful.hoist h.ends).sourced
  have hnot {a : Stage} {types : ParseTypes} (ha : a.isVacuous = true) : a ≠ .parse types := by
    rintro rfl
    exact absurd ha (by simp [Stage.isVacuous])
  rw [h.stages_eq, CompilerOptions.finished, finished, under_prune hsourced.not_vacuous]
  exact ⟨fun hc => (hkeeps.fields hc).imp fun _ => (converts_prune hnot).2,
    fun hc => hkeeps.types ((converts_prune hnot).1 hc)⟩

/-- The record of a root has the types that charts need which draw on its data. -/
theorem needs_of_loadedBy (h : Compilation options chart data built flow) {root : Nat}
    (hroot : root ∈ flow.stages.roots) {r : DatasetRecord} (hr : flow.LoadedBy root r) :
    ∃ d ∈ chart.declarations, ∃ types : String → Option String,
      (Source.ofData d).Converts types r ∧ ∀ field,
        ((types field).isSome = true ↔ ∃ type, chart.NeedsFrom d field type) ∧
          ∀ type, types field = some type → chart.NeedsFrom d field type := by
  obtain ⟨s, hs, hconverts⟩ := hr
  have hn := h.nodup_walk
  obtain ⟨a, hi⟩ := exists_mem_heads hroot
  obtain rfl : a = .source s := by
    have hcontent : flow.stage? root = some a :=
      Flow.stage?_of_content? (@content?_of_mem_heads _ _ _ _ [] hn hi)
    exact Option.some.inj (hcontent.symm.trans hs)
  have hi' : (root, .source s) ∈ built.flow.stages.heads := h.heads_eq ▸ hi
  obtain ⟨d, hd, rfl⟩ := Building.declared_of_head h.built_eq hi'
  have hst := h.built_eq
  have hkeeps := h.keeps hi'
  refine ⟨d, hd, _, hconverts, fun field => ?_⟩
  have hcs : (flow.stages.under root).toList ⊆ flow.stages.toList :=
    fun e he => mem_toList_of_mem_under he
  rw [children_of_mem_heads hn hi, Flow.firstType?_roots hn hcs,
    ← converts_iff_heads (nodup_roots hn) h.stands hi]
  -- from the flow that is assembled back to the one that was built, and the other way round
  refine ⟨⟨fun ⟨type, hc⟩ => ?_, fun ⟨type, hc⟩ => ?_⟩, fun type ht => ?_⟩
  · exact ⟨type, Building.needsFrom_of_converts hst hi' rfl (hkeeps.types hc)⟩
  · obtain ⟨type', hc⟩ := Building.converts_of_needsFrom hst hi' rfl hc
    exact hkeeps.fields hc
  · obtain ⟨e, he, ht⟩ := List.exists_of_findSome?_eq_some ht
    exact Building.needsFrom_of_converts hst hi' rfl
      (hkeeps.types ⟨e, mem_toList_of_mem_heads he, ht⟩)

end Compilation

/-- Each record of a compiled chart that does not come from another one loads declared data.  It has
    the conversions that are declared, and besides it converts exactly the fields that a chart drawing
    on these data shows as a number or a date and does not calculate itself, each to a type that one
    of these charts asks for. -/
theorem compileChart_converts {options : CompilerOptions} {chart : Chart} {data : CompiledData}
    (h : compileChart options chart = .ok data) :
    ∀ r ∈ data.records, r.source = none → ∃ d ∈ chart.declarations,
      ∃ types : String → Option String, (Source.ofData d).Converts types r ∧ ∀ field,
        ((types field).isSome = true ↔ ∃ type, chart.NeedsFrom d field type) ∧
          ∀ type, types field = some type → chart.NeedsFrom d field type := by
  intro r hr hsource
  obtain ⟨built, flow, hcompiled⟩ := compileChart_inv h
  obtain ⟨earlier, st, flow', hassemble⟩ := hcompiled.assembled
  obtain ⟨root, hroot, hby⟩ :=
    Flow.exists_loadedBy_of_mem hcompiled.nodup_walk hassemble hr hsource
  exact hcompiled.needs_of_loadedBy hroot hby

/-- A layer over a file that declares one type, of a unit that shows a number that it calculates
    beside one that it reads, and of one that shows the declared field as a number. -/
def declaredTypes : Chart :=
  .layer { data := some (.url "rows.csv" (some ⟨none, some ((∅ : ParseTypes).insert "k" "date")⟩)) }
    [.unit { name := "left", transforms := [.calculate "datum.x + 1" "y"] } .point
        (((∅ : Encoding).insert .x (.named "x" .quantitative)).insert .y (.named "y" .quantitative))
        none,
      .unit { name := "right" } .point
        ((∅ : Encoding).insert .x (.named "k" .quantitative)) none]

/-- The number that is read is converted, that which is calculated is not, and the declared type
    stays. -/
theorem compileChart_converts_declaredTypes : ∃ data r,
    compileChart {} declaredTypes = .ok data ∧ r ∈ data.records ∧ r.source = none ∧
      r.conversions.get? "k" = some "date" ∧ (r.conversions.get? "x").isSome = true ∧
      r.conversions.get? "y" = none := by
  obtain ⟨data, hdata, hrecords⟩ : ∃ data, compileChart {} declaredTypes = .ok data ∧
      (data.records.filter (·.source.isNone)).length = 1 :=
    exists_ok_of_map (by decide +kernel)
  obtain ⟨r, hr⟩ := List.length_eq_one_iff.1 hrecords
  obtain ⟨hr, hsource⟩ := List.mem_filter.1 (hr ▸ List.mem_singleton_self r)
  rw [Option.isNone_iff_eq_none] at hsource
  obtain ⟨d, hd, types, hconverts, hneeds⟩ := compileChart_converts hdata r hr hsource
  obtain rfl := List.mem_singleton.1
    (show d ∈ [.url "rows.csv" (some ⟨none, some ((∅ : ParseTypes).insert "k" "date")⟩)] from hd)
  refine ⟨data, r, hdata, hr, hsource, ?_, ?_, ?_⟩
  · rw [hconverts.get?]
    rfl
  · rw [hconverts.get?]
    exact (hneeds "x").1.2 ⟨"number", by decide +kernel⟩
  -- the chart that shows the calculated field leaves it out
  · have hout : ∀ x ∈ declaredTypes.inContext Chart.handsOn none,
        (∃ e ∈ x.2.fieldDefs, e.2.field = some "y") → "y" ∈ calculated x.2.header.transforms := by
      decide
    rw [hconverts.get?]
    refine Option.not_isSome_iff_eq_none.1 fun hsome => ?_
    obtain ⟨type, x, hx, -, ⟨e, he, hshows⟩, hnot⟩ := (hneeds "y").1.1 hsome
    exact hnot (hout x hx ⟨e, he, hshows.field_eq⟩)

/-- A layer over a row, and in it a layer that calculates a number, which the unit inside shows. -/
def calculatedAround : Chart :=
  .layer { name := "outer", data := some (.values [.obj [("a", .int 1)]] none) }
    [.layer { name := "middle", transforms := [.calculate "datum.a * 2" "b"] }
      [.unit { name := "inner" } .point ((∅ : Encoding).insert .x (.named "b" .quantitative)) none]]

/-- What a chart calculates is converted on loading all the same if a chart inside shows it. -/
theorem compileChart_converts_calculated : ¬ ∀ options chart data,
    compileChart options chart = .ok data → ∀ r ∈ data.records, r.source = none →
      ∃ d ∈ chart.declarations, ∀ field type, r.conversions.get? field = some type →
        (Source.ofData d).declared.get? field = none →
          ∃ x ∈ chart.inContext Chart.handsOn none, ∃ e ∈ x.2.drawn x.1,
            Source.hashOf e.1 = Source.hashOf d ∧ (∃ f ∈ x.2.fieldDefs, f.2.Shows field type) ∧
              field ∉ calculated (e.2.flatMap Stage.transforms) := by
  intro hall
  obtain ⟨data, hdata, hrecords⟩ : ∃ data, compileChart {} calculatedAround = .ok data ∧
      (data.records.filter (·.source.isNone)).map (·.conversions.get? "b") = [some "number"] :=
    exists_ok_of_map (by decide +kernel)
  obtain ⟨r, hr, hget⟩ := List.map_eq_singleton_iff.1 hrecords
  obtain ⟨hr, hsource⟩ := List.mem_filter.1 (hr ▸ List.mem_singleton_self r)
  rw [Option.isNone_iff_eq_none] at hsource
  obtain ⟨d, hd, hconverts⟩ := hall {} calculatedAround data hdata r hr hsource
  obtain rfl := List.mem_singleton.1
    (show d ∈ [.values [.obj [("a", .int 1)]] none] from hd)
  obtain ⟨x, hx, e, he, -, ⟨f, hf, -⟩, hnot⟩ := hconverts "b" "number" hget rfl
  -- whatever shows a field goes on from the calculation
  have hout : ∀ x ∈ calculatedAround.inContext Chart.handsOn none, ∀ e ∈ x.2.drawn x.1,
      x.2.fieldDefs.isEmpty = true ∨ "b" ∈ calculated (e.2.flatMap Stage.transforms) := by
    decide
  rcases hout x hx e he with hempty | hmem
  · exact absurd (List.isEmpty_iff.1 hempty ▸ hf) (by simp)
  · exact hnot hmem

end ChartPipeline
