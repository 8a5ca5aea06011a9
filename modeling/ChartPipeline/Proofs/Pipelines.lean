import ChartPipeline.Proofs.Inventory
import ChartPipeline.Proofs.Unfailing

/-!
# The pipeline of each chart

The flow of a chart is laid out as the charts in it ask: every chart has its own stages, in a fixed
order, below the source of the nearest data declared at it or around it and the stages of the charts
in between.  `Chart.drawn` says which these are for each chart, from the tree of charts alone.
Building lays exactly these ways: what is added for a chart is on the way to its main output or
hangs below it.

## Key results

- `addChart_laid`: what is added for a chart itself
- `Builds.laid`: what is added for charts and those inside them
- `ofChart_realizes`: the stages of a flow are those on the ways of its charts
-/

namespace ChartPipeline

namespace Chart

/-! ### Ways of charts -/

/-- The stages of a chart's own, those that have something to do: conversions, transforms in the
    order of their declaration, the filter for invalid values, bins, time units and the raw output;
    for a unit what it groups, sorts and stacks by, and the filter for positive values; at the end
    the main output. -/
def pipeline (chart : Chart) : List Stage :=
  (parseTypes? chart).toList.map .parse ++ chart.transformStages ++
    (nullFilter? chart).toList.map .nullFilter ++
    (Binning.ofChart? chart).toOption.join.toList.map .bin ++
    (TimeFormulas.ofChart? chart).toList.map .timeUnit ++ [chart.rawOutput] ++
    (if chart.isUnit then
      (Aggregation.ofChart? chart).toList.map .aggregate ++ (sortSpec? chart).toList.map .order ++
        (Stacking.ofChart? chart).toOption.join.toList.map .stack ++
        (positiveFilter? chart).toList.map .positiveFilter
    else []) ++ [chart.mainOutput]

/-- The data that a chart draws on and the stages from there down to its main output: the nearest
    data that are declared at the chart or around it, then the stages of the charts from there on.
    `outer` is what the chart around hands on; without any data there is nothing. -/
def drawn (outer : Option (DataSource × List Stage)) (chart : Chart) :
    Option (DataSource × List Stage) :=
  match chart.header.data with
  | some data => some (data, chart.pipeline)
  | none => outer.map fun (data, stages) => (data, stages ++ chart.pipeline)

/-- What a chart hands on to the charts inside: a facet puts its partitions after its main
    output. -/
def handsOn (outer : Option (DataSource × List Stage)) (chart : Chart) :
    Option (DataSource × List Stage) :=
  (chart.drawn outer).map fun (data, stages) =>
    (data, stages ++ (Partition.ofChart? chart).toList.map .facet)

variable {chart : Chart} {before after : List Stage}

/-- What a chart puts before and after its raw output is what its pipeline says. -/
theorem pipeline_eq (hb : chart.stagesBeforeRaw = .ok before)
    (ha : chart.stagesAfterRaw = .ok after) :
    chart.pipeline = before ++ chart.rawOutput :: (after ++ [chart.mainOutput]) := by
  obtain ⟨bins, hbins, rfl⟩ := stagesBeforeRaw_ok hb
  have hafter : after = if chart.isUnit then
      (Aggregation.ofChart? chart).toList.map .aggregate ++ (sortSpec? chart).toList.map .order ++
        (Stacking.ofChart? chart).toOption.join.toList.map .stack ++
        (positiveFilter? chart).toList.map .positiveFilter
    else [] := by
    cases hu : chart.isUnit with
    | false => exact stagesAfterRaw_eq_nil ha hu
    | true =>
      -- a stack that cannot be made would have been reported
      obtain ⟨stacking, hs, rfl⟩ := stagesAfterRaw_ok ha hu
      rw [hs, if_pos rfl]
      rfl
  rw [pipeline, hbins, ← hafter]
  simp [Except.toOption]

/-- A chart with data of its own draws on these, whatever is around it. -/
theorem drawn_own {outer : Option (DataSource × List Stage)} {data : DataSource}
    (hd : chart.header.data = some data) : chart.drawn outer = some (data, chart.pipeline) := by
  rw [drawn, hd]

/-- A chart without data of its own goes on from what the chart around hands on. -/
theorem drawn_outer {outer : Option (DataSource × List Stage)} (hd : chart.header.data = none) :
    chart.drawn outer = outer.map fun e => (e.1, e.2 ++ chart.pipeline) := by
  rw [drawn, hd]

/-- A layer without any data has no way. -/
theorem drawn_layer {header : ChartHeader} {children : List Chart} (hd : header.data = none) :
    (layer header children).drawn none = none :=
  drawn_outer hd

/-- Only facets have something below their main output: headers and partitions. -/
theorem facet_of_mem_ends {a : Stage} (h : a ∈ chart.ends) :
    (∃ header mapping child, chart = .facet header mapping child) ∧
      (a.tag = .facetHeader ∨ a.tag = .facet) := by
  constructor
  · cases chart with
    | facet => exact ⟨_, _, _, rfl⟩
    | _ => exact absurd h (by simp [ends, FacetHeader.ofChart?, facetField?, Partition.ofChart?])
  · simp only [ends, List.mem_append, List.mem_flatMap, List.mem_map] at h
    rcases h with ⟨-, -, -, -, rfl⟩ | ⟨-, -, rfl⟩
    · exact .inl rfl
    · exact .inr rfl

end Chart

namespace Building

open Forest

variable {st st₁ st' : Building} {id parent : Nat} {stage : Stage} {stages more : List Stage}
  {chart : Chart} {inherited : Option Nat} {c : Component} {v w : Place Stage}

/-- A place on the way to which data go through stages, and that is the last of these.  The way
    begins at the source of the data, or of other data that have the same hash. -/
def Carries (data : DataSource) (stages : List Stage) (v : Place Stage) : Prop :=
  ∃ declared, Source.hashOf declared = Source.hashOf data ∧
    v.route.map Prod.snd = .source (.ofData declared) :: stages

/-! ### Laying stages -/

/-- Stages were laid one after the other, from one place down to another, and nothing else was. -/
structure Lays (v : Place Stage) (stages : List Stage) (w : Place Stage) (st st' : Building) :
    Prop where
  sound : Sound st'
  grows : Grows st st'
  mem : w ∈ st'.flow.stages.places []
  route : w.route.map Prod.snd = v.route.map Prod.snd ++ stages
  goes_on : v.route <+: w.route
  components : st'.components = st.components
  new : ∀ u ∈ st'.flow.stages.places [], u ∈ st.flow.stages.places [] ∨ u.route <+: w.route

/-- To begin with, nothing was laid. -/
theorem Lays.refl (hst : Sound st) (hv : v ∈ st.flow.stages.places []) : Lays v [] v st st :=
  ⟨hst, .refl st, hv, by simp, List.prefix_refl _, rfl, fun _ hu => .inl hu⟩

/-- What was laid from one place to another, and on from there. -/
theorem Lays.trans {x : Place Stage} (h : Lays v stages w st st₁) (h' : Lays w more x st₁ st') :
    Lays v (stages ++ more) x st st' where
  sound := h'.sound
  grows := h.grows.trans h'.grows
  mem := h'.mem
  route := by rw [h'.route, h.route, List.append_assoc]
  goes_on := h.goes_on.trans h'.goes_on
  components := h'.components.trans h.components
  new u hu := by
    rcases h'.new u hu with hu | hu
    · exact (h.new u hu).imp id fun hu => hu.trans h'.goes_on
    · exact .inr hu

/-- A stage that was planted is laid by itself. -/
theorem Planted.lays (h : Planted v.id stage st id st') (hst : Sound st)
    (hv : v ∈ st.flow.stages.places []) : Lays v [stage] ⟨v.route, id, stage⟩ st st' where
  sound := h.sound hst
  grows := h.grows hst
  mem := (h.mem_places hst hv rfl).2 (.inr rfl)
  route := by simp [Place.route]
  goes_on := ⟨[(id, stage)], rfl⟩
  components := h.components_eq
  new u hu := by
    rcases (h.mem_places hst hv rfl).1 hu with hu | rfl
    · exact .inl hu
    · exact .inr (List.prefix_refl _)

/-- A chain of stages is laid from the place it begins at. -/
theorem chain_lays (h : chain v.id stages st = (.ok id, st')) (hst : Sound st)
    (hv : v ∈ st.flow.stages.places []) : ∃ w, w.id = id ∧ Lays v stages w st st' := by
  induction stages generalizing v st with
  | nil =>
    obtain ⟨hid, rfl⟩ := Prod.mk.inj h
    exact ⟨v, Except.ok.inj hid, .refl hst hv⟩
  | cons stage rest ih =>
    obtain ⟨id₁, st₁, hadd, hrest⟩ := Run.bind_eq_ok h
    have hlays := (edit_addChild_inv hadd hst).lays hst hv
    obtain ⟨w, hid, hlays'⟩ := ih (v := ⟨v.route, id₁, stage⟩) hrest hlays.sound hlays.mem
    exact ⟨w, hid, hlays.trans hlays'⟩

/-- What is added below one place hangs below it. -/
theorem Extends.hangs {notes : List Component} (h : Extends (· = v.id) stages notes st st')
    (hst : Sound st) (hs : ∀ a ∈ stages, a.tag ≠ .source) (hv : v ∈ st.flow.stages.places []) :
    ∀ u ∈ st'.flow.stages.places [],
      u ∈ st.flow.stages.places [] ∨ u.above = v.route ∧ u.content ∈ stages := by
  induction h with
  | nil => exact fun u hu => .inl hu
  | @child parent id stage rest notes st st₁ st' hp _ hadd _ ih =>
    subst hp
    have hplant := edit_addChild_inv hadd hst
    intro u hu
    -- what hung below the place before the first stage came still does
    have hrest := ih (hplant.sound hst) (fun a ha => hs a (List.mem_cons_of_mem _ ha))
      (hplant.grows hst v hv) u hu
    rcases hrest with hu | ⟨habove, hmem⟩
    · rcases (hplant.mem_places hst hv rfl).1 hu with hu | rfl
      · exact .inl hu
      · exact .inr ⟨rfl, List.mem_cons_self⟩
    · exact .inr ⟨habove, List.mem_cons_of_mem _ hmem⟩
  | source => exact absurd rfl (hs _ List.mem_cons_self)
  | note c _ ih => exact ih (sound_note hst c) hs hv

/-! ### A chart itself -/

/-- What a chart may go on from when it is built, and what is known of that. -/
structure Offers (outer : Option (DataSource × List Stage)) (inherited : Option Nat)
    (st : Building) : Prop where
  sound : Sound st
  some : ∀ id ∈ inherited, ∃ e ∈ outer, ∃ v ∈ st.flow.stages.places [],
    v.id = id ∧ Carries e.1 e.2 v
  none : inherited = none → outer = none

variable {outer : Option (DataSource × List Stage)}

/-- What a chart may go on from is still there when more was built. -/
theorem Offers.mono (h : Offers outer inherited st) (hst : Sound st') (hg : Grows st st') :
    Offers outer inherited st' where
  sound := hst
  some id hid := by
    obtain ⟨e, he, v, hv, hvid, hcarries⟩ := h.some id hid
    exact ⟨e, he, v, hg v hv, hvid, hcarries⟩
  none := h.none

/-- Where the stages of a chart begin: at the source of its data, or at what it goes on from. -/
theorem start_lays (h : start chart inherited st = (.ok id, st')) (ho : Offers outer inherited st) :
    ∃ v ∈ st'.flow.stages.places [], v.id = id ∧ Sound st' ∧ Grows st st' ∧
      st'.components = st.components ∧
      (∀ u ∈ st'.flow.stages.places [], u ∈ st.flow.stages.places [] ∨ u.route <+: v.route) ∧
      ∃ data stages, Carries data stages v ∧
        chart.drawn outer = some (data, stages ++ chart.pipeline) := by
  unfold start at h
  cases hd : chart.header.data with
  | none =>
    cases inherited with
    | none =>
      rw [hd] at h
      exact absurd h Run.throw_ne_ok
    | some i =>
      rw [hd] at h
      obtain ⟨hid, rfl⟩ := Prod.mk.inj h
      obtain rfl : i = id := by simpa using hid
      obtain ⟨⟨data, stages⟩, he, v, hv, hvid, hcarries⟩ := ho.some i rfl
      refine ⟨v, hv, hvid, ho.sound, .refl st, rfl, fun u hu => .inl hu, data, stages, hcarries, ?_⟩
      rw [Chart.drawn_outer hd, Option.mem_def.1 he]
      rfl
  | some data =>
    rw [hd] at h
    simp only [Run.bind_ok (Run.get_run st)] at h
    -- data with a hash that was noted have their source already
    cases hfind : st.sources.find? (·.1 = (Source.ofData data).hash) with
    | some e =>
      rw [hfind] at h
      obtain ⟨hid, rfl⟩ := Prod.mk.inj h
      obtain rfl : e.2 = id := by simpa using hid
      obtain ⟨declared, hdeclared, hmem⟩ := ho.sound.sources e (List.mem_of_find?_eq_some hfind)
      have hhash : e.1 = (Source.ofData data).hash := by simpa using List.find?_some hfind
      refine ⟨_, hmem, rfl, ho.sound, .refl st, rfl, fun u hu => .inl hu, data, [],
        ⟨declared, hdeclared.trans hhash, rfl⟩, ?_⟩
      rw [Chart.drawn_own hd, List.nil_append]
    | none =>
      rw [hfind] at h
      obtain ⟨hid, rfl⟩ := Prod.mk.inj h
      obtain rfl : st.flow.next = id := by simpa using hid
      refine ⟨⟨[], st.flow.next, .source (.ofData data)⟩, mem_places_addSource.2 (.inr rfl), rfl,
        ho.sound.addSource _, grows_addSource st _, rfl, fun u hu => ?_, data, [],
        ⟨_, rfl, rfl⟩, ?_⟩
      · exact (mem_places_addSource.1 hu).imp id fun hu =>
          (congrArg Place.route hu).symm ▸ List.prefix_refl _
      · rw [Chart.drawn_own hd, List.nil_append]

/-- A facet notes the headers and the partitions below its main output, which stays noted. -/
theorem main_addFacet {main : Nat} {c' : Component}
    (h : addFacet chart main c st = (.ok c', st')) : c'.main = c.main := by
  cases chart with
  | facet =>
    -- each of the three steps returns before the component is changed
    obtain ⟨_, _, -, h⟩ := Run.bind_eq_ok h
    obtain ⟨_, _, -, h⟩ := Run.bind_eq_ok h
    obtain ⟨_, _, -, h⟩ := Run.bind_eq_ok h
    obtain ⟨hc, -⟩ := Prod.mk.inj h
    rw [← Except.ok.inj hc]
  | _ =>
    obtain ⟨hc, -⟩ := Prod.mk.inj h
    rw [← Except.ok.inj hc]

/-- What is added for a chart that has data: the way to its main output, and what hangs below. -/
structure Laid (outer : Option (DataSource × List Stage)) (chart : Chart) (c : Component)
    (st st' : Building) : Prop where
  sound : Sound st'
  grows : Grows st st'
  components : st'.components = st.components
  main : ∃ e ∈ chart.drawn outer, ∃ w ∈ st'.flow.stages.places [], c.main = some w.id ∧
    Carries e.1 e.2 w ∧ ∀ u ∈ st'.flow.stages.places [], u ∈ st.flow.stages.places [] ∨
      u.route <+: w.route ∨ u.above = w.route ∧ u.content ∈ chart.ends
  head : ∃ id, c.inheritedHead = some id ∧
    ∃ e ∈ chart.handsOn outer, ∃ v ∈ st'.flow.stages.places [], v.id = id ∧ Carries e.1 e.2 v

/-- A chart with data is laid from its start to its main output, and its ends below that. -/
theorem addChain_laid (h : addChain chart inherited st = (.ok c, st'))
    (ho : Offers outer inherited st) : Laid outer chart c st st' := by
  unfold addChain at h
  obtain ⟨head, st₁, hstart, h⟩ := Run.bind_eq_ok h
  obtain ⟨before, hb, h⟩ := Run.lift_bind_ok h
  obtain ⟨head', st₂, hbefore, h⟩ := Run.bind_eq_ok h
  obtain ⟨raw, st₃, hraw, h⟩ := Run.bind_eq_ok h
  obtain ⟨after, ha, h⟩ := Run.lift_bind_ok h
  obtain ⟨head'', st₄, hafter, h⟩ := Run.bind_eq_ok h
  obtain ⟨main, st₅, hmain, h⟩ := Run.bind_eq_ok h
  obtain ⟨v, hv, rfl, hst₁, hg₁, hcomponents₁, hnew₁, data, stages, ⟨own, hown, hway⟩, hdrawn⟩ :=
    start_lays hstart ho
  -- from the start to the main output
  obtain ⟨v₂, rfl, hlays₂⟩ := chain_lays hbefore hst₁ hv
  have hlays₃ := (edit_addChild_inv hraw hlays₂.sound).lays hlays₂.sound hlays₂.mem
  obtain ⟨v₄, rfl, hlays₄⟩ := chain_lays (v := ⟨v₂.route, raw, chart.rawOutput⟩) hafter
    hlays₃.sound hlays₃.mem
  have hlays₅ := (edit_addChild_inv hmain hlays₄.sound).lays hlays₄.sound hlays₄.mem
  have hlays := ((hlays₂.trans hlays₃).trans hlays₄).trans hlays₅
  have hroute := hlays.route
  rw [show before ++ [chart.rawOutput] ++ after ++ [chart.mainOutput] = chart.pipeline by
    rw [Chart.pipeline_eq hb ha]; simp] at hroute
  -- the place of the main output, whose name is the one returned
  generalize hw : Place.mk v₄.route main chart.mainOutput = w at hlays hroute
  obtain rfl : w.id = main := by rw [← hw]
  have hcarries : Carries data (stages ++ chart.pipeline) w :=
    ⟨own, hown, by rw [hroute, hway]; rfl⟩
  -- and what hangs below that
  obtain ⟨head, hext, hroot, -, ⟨x, hx, hxid, hxway⟩, -⟩ := addFacet_inv (P := (· = w.id))
    h hlays.sound rfl ⟨w, hlays.mem, rfl, rfl⟩ rfl rfl (Nat.zero_le _)
    (Nat.zero_le _)
  have hhangs := hext.hangs hlays.sound Chart.not_source_of_mem_ends hlays.mem
  have hgrows := hext.grows hlays.sound
  refine ⟨hext.sound hlays.sound, (hg₁.trans hlays.grows).trans hgrows, ?_,
    ⟨_, hdrawn, w, hgrows w hlays.mem, main_addFacet h, hcarries, fun u hu => ?_⟩,
    head, hroot, (data, stages ++ chart.pipeline ++ (Partition.ofChart? chart).toList.map .facet),
    ?_, x, hx, hxid, own, hown, ?_⟩
  · rw [hext.components_eq hlays.sound, List.append_nil, hlays.components, hcomponents₁]
  · rcases hhangs u hu with hu | hu
    · rcases hlays.new u hu with hu | hu
      · exact (hnew₁ u hu).imp id fun hu => .inl (hu.trans hlays.goes_on)
      · exact .inr (.inl hu)
    · exact .inr (.inr hu)
  · rw [Chart.handsOn, hdrawn]
    rfl
  · rw [hxway, Chart.inside, hroute, hway]
    simp

/-- A chart that is built has a way of its own, but for a layer without data, which only groups
    charts. -/
theorem addChart_laid (h : addChart chart inherited st = (.ok c, st'))
    (ho : Offers outer inherited st) :
    Laid outer chart c st st' ∨
      ∃ header children, chart = .layer header children ∧ header.data = none ∧ outer = none ∧
        c = { chart := chart.name } ∧ st' = st := by
  -- only for a layer does it matter whether there are data
  have hchain (h : addChain chart inherited st = (.ok c, st')) := addChain_laid h ho
  cases chart with
  | unit => exact .inl (hchain h)
  | facet => exact .inl (hchain h)
  | layer header children =>
    cases hd : header.data with
    | some data => exact .inl (hchain (by simpa only [addChart, Chart.header, hd] using h))
    | none =>
      cases inherited with
      | some id => exact .inl (hchain (by simpa only [addChart, Chart.header, hd] using h))
      | none =>
        simp only [addChart, Chart.header, hd] at h
        obtain ⟨hc, rfl⟩ := Prod.mk.inj h
        exact .inr ⟨_, _, rfl, hd, ho.none rfl, (Except.ok.inj hc).symm, rfl⟩

/-! ### Charts inside charts -/

/-- What is noted for a chart: the main output at the end of its way; for a layer without data, its
    own or those around it, there is none. -/
def Noted (st : Building) (x : Option (DataSource × List Stage) × Chart) (c : Component) : Prop :=
  match x.2.drawn x.1 with
  | some (data, stages) =>
    ∃ w ∈ st.flow.stages.places [], c.main = some w.id ∧ Carries data stages w
  | none => (∃ header children, x.2 = .layer header children) ∧ c.main = none

/-- A place on the way to the main output of a chart, or of a header or the partitions of a facet
    right below its main output. -/
def OnWay (st : Building) (xs : List (Option (DataSource × List Stage) × Chart))
    (notes : List Component) (u : Place Stage) : Prop :=
  ∃ e ∈ xs.zip notes, ∃ w ∈ st.flow.stages.places [], e.2.main = some w.id ∧
    (u.route <+: w.route ∨ u.above = w.route ∧ u.content ∈ e.1.2.ends ∧
      (∃ header mapping child, e.1.2 = .facet header mapping child) ∧
      (u.content.tag = .facetHeader ∨ u.content.tag = .facet))

variable {xs ys : List (Option (DataSource × List Stage) × Chart)} {notes notes' : List Component}

/-- What was noted for a chart still holds when more was built. -/
theorem Noted.mono {x : Option (DataSource × List Stage) × Chart} (h : Noted st x c)
    (hg : Grows st st') : Noted st' x c := by
  unfold Noted at h ⊢
  split
  · next data stages heq =>
    rw [heq] at h
    obtain ⟨w, hw, hmain, hcarries⟩ := h
    exact ⟨w, hg w hw, hmain, hcarries⟩
  · next heq =>
    rw [heq] at h
    exact h

/-- A place on a way is still on it when more was built. -/
theorem OnWay.mono {u : Place Stage} (h : OnWay st xs notes u) (hg : Grows st st') :
    OnWay st' xs notes u := by
  obtain ⟨e, he, w, hw, hmain, hu⟩ := h
  exact ⟨e, he, w, hg w hw, hmain, hu⟩

/-- A place on the way of one of the first charts. -/
theorem OnWay.append_left {u : Place Stage} (h : OnWay st xs notes u)
    (hlen : xs.length = notes.length) (ys : List (Option (DataSource × List Stage) × Chart))
    (notes' : List Component) : OnWay st (xs ++ ys) (notes ++ notes') u := by
  obtain ⟨e, he, hw⟩ := h
  exact ⟨e, by rw [List.zip_append hlen]; exact List.mem_append_left _ he, hw⟩

/-- A place on the way of one of the later charts. -/
theorem OnWay.append_right {u : Place Stage} (h : OnWay st ys notes' u)
    (hlen : xs.length = notes.length) : OnWay st (xs ++ ys) (notes ++ notes') u := by
  obtain ⟨e, he, hw⟩ := h
  exact ⟨e, by rw [List.zip_append hlen]; exact List.mem_append_right _ he, hw⟩

/-- What is added for several charts, with what is noted for them. -/
structure LaidAll (xs : List (Option (DataSource × List Stage) × Chart)) (notes : List Component)
    (st st' : Building) : Prop where
  sound : Sound st'
  grows : Grows st st'
  components : st'.components = st.components ++ notes
  noted : List.Forall₂ (Noted st') xs notes
  covered : ∀ u ∈ st'.flow.stages.places [], u ∈ st.flow.stages.places [] ∨ OnWay st' xs notes u

/-- Charts that are added one after the other are all noted, with their ways. -/
theorem LaidAll.trans (h : LaidAll xs notes st st₁) (h' : LaidAll ys notes' st₁ st') :
    LaidAll (xs ++ ys) (notes ++ notes') st st' where
  sound := h'.sound
  grows := h.grows.trans h'.grows
  components := by rw [h'.components, h.components, List.append_assoc]
  noted := List.rel_append (h.noted.imp fun _ _ hx => hx.mono h'.grows) h'.noted
  covered u hu := by
    rcases h'.covered u hu with hu | hu
    · exact (h.covered u hu).imp id fun hu =>
        (hu.mono h'.grows).append_left h.noted.length_eq ys notes'
    · exact .inr (hu.append_right h.noted.length_eq)

/-- A chart that has data is noted after the charts inside it, with its way. -/
theorem Laid.laidAll (h : Laid outer chart c st st₁)
    (hinside : LaidAll xs notes st₁ st') :
    LaidAll (xs ++ [(outer, chart)]) (notes ++ [c]) st
      { st' with components := st'.components ++ [c] } := by
  obtain ⟨⟨data, stages⟩, hdrawn, w, hw, hmain, hcarries, hnew⟩ := h.main
  have hw' := hinside.grows w hw
  -- the charts inside come first among those noted
  have hlen := hinside.noted.length_eq
  refine ⟨Extends.sound_note hinside.sound c, h.grows.trans hinside.grows, ?_, ?_, fun u hu => ?_⟩
  · show st'.components ++ [c] = _
    rw [hinside.components, h.components, List.append_assoc]
  · refine List.rel_append hinside.noted (.cons ?_ .nil)
    show Noted st' (outer, chart) c
    rw [Noted, Option.mem_def.1 hdrawn]
    exact ⟨w, hw', hmain, hcarries⟩
  · rcases hinside.covered u hu with hu | hu
    · refine (hnew u hu).imp id fun hu => OnWay.append_right ?_ hlen
      exact ⟨((outer, chart), c), by simp, w, hw', hmain,
        hu.imp id fun ⟨habove, hends⟩ => ⟨habove, hends, Chart.facet_of_mem_ends hends⟩⟩
    · exact .inr (hu.append_left hlen _ _)

/-- A layer without any data is noted as well, without a way. -/
theorem LaidAll.note_layer {header : ChartHeader} {children : List Chart}
    (h : LaidAll xs notes st st') (hd : header.data = none) (name : String) :
    LaidAll (xs ++ [(none, .layer header children)]) (notes ++ [{ chart := name }]) st
      { st' with components := st'.components ++ [{ chart := name }] } where
  sound := Extends.sound_note h.sound _
  grows := h.grows
  components := by
    show st'.components ++ _ = _
    rw [h.components, List.append_assoc]
  noted := List.rel_append h.noted (.cons (by
    rw [Noted, Chart.drawn_layer hd]
    exact ⟨⟨_, _, rfl⟩, rfl⟩) .nil)
  covered u hu := (h.covered u hu).imp id fun hu => hu.append_left h.noted.length_eq _ _

/-- Building charts lays their ways and nothing else. -/
theorem Builds.laid {charts : List Chart} (h : Builds charts inherited st st')
    (ho : Offers outer inherited st) :
    ∃ notes, LaidAll (Chart.allInContext Chart.handsOn outer charts) notes st st' := by
  induction h generalizing outer with
  | nil inherited st =>
    exact ⟨[], ho.sound, .refl _, by simp, .nil, fun u hu => .inl hu⟩
  | @cons chart rest inherited c st st₁ st₂ st' hadd hinside hrest ih ihrest =>
    have hown : ∃ notes, LaidAll (chart.inContext Chart.handsOn outer) notes st
        { st₂ with components := st₂.components ++ [c] } := by
      rw [Chart.inContext_eq]
      rcases addChart_laid hadd ho with hlaid | ⟨header, inner, rfl, hd, rfl, rfl, rfl⟩
      · obtain ⟨id, hid, e, he, v, hv, hvid, hcarries⟩ := hlaid.head
        -- the charts inside go on from the end that is handed on
        have ho₁ : Offers (chart.handsOn outer) c.inheritedHead st₁ := by
          refine ⟨hlaid.sound, fun i hi => ?_, fun hn => absurd (hid.symm.trans hn) (by simp)⟩
          obtain rfl : id = i := Option.some.inj (hid.symm.trans hi)
          exact ⟨e, he, v, hv, hvid, hcarries⟩
        obtain ⟨notes, hall⟩ := ih ho₁
        exact ⟨_, hlaid.laidAll hall⟩
      -- below a layer without data, charts have to bring their own
      · have hnone : (Chart.layer header inner).handsOn none = none := by
          rw [Chart.handsOn, Chart.drawn_layer hd]
          rfl
        obtain ⟨notes, hall⟩ := ih ⟨ho.sound,
          fun i hi => absurd hi (by simp [Component.inheritedHead]), fun _ => hnone⟩
        rw [hnone] at hall ⊢
        exact ⟨_, hall.note_layer hd _⟩
    obtain ⟨notes, hall⟩ := hown
    obtain ⟨notes', hall'⟩ := ihrest (ho.mono hall.sound hall.grows)
    rw [Chart.allInContext]
    exact ⟨_, hall.trans hall'⟩

/-! ### The flow of a chart -/

/-- A flow that has the ways of the charts in a tree, and nothing else. -/
structure Realizes (chart : Chart) (st : Building) : Prop where
  nodup : st.flow.stages.walk.Nodup
  source_iff : ∀ v ∈ st.flow.stages.places [], v.content.tag = .source ↔ v.above = []
  /-- The sources are those of declarations in the tree. -/
  declared : ∀ s ∈ st.flow.stages.toList.filterMap (·.2.source?),
    ∃ data ∈ chart.declarations, s = Source.ofData data
  /-- There is one source for each hash of a declaration. -/
  nodup_hashes : ((st.flow.stages.toList.filterMap (·.2.source?)).map Source.hash).Nodup
  mem_hashes : ∀ hash, hash ∈ (st.flow.stages.toList.filterMap (·.2.source?)).map Source.hash ↔
    ∃ data ∈ chart.declarations, Source.hashOf data = hash
  /-- The way of every chart that has data ends at its main output. -/
  noted : List.Forall₂ (Noted st) (chart.inContext Chart.handsOn none) st.components
  onWay : ∀ u ∈ st.flow.stages.places [],
    OnWay st (chart.inContext Chart.handsOn none) st.components u

/-- Building a chart lays the ways of the charts in it. -/
theorem laid_of_ofChart (h : ofChart chart = .ok st) :
    LaidAll (chart.inContext Chart.handsOn none) st.components {} st := by
  have hoffers : Offers none none {} :=
    ⟨sound_empty, fun i hi => absurd hi (by simp), fun _ => rfl⟩
  obtain ⟨notes, hlaid⟩ := (builds_of_ofChart h).laid hoffers
  obtain rfl : notes = st.components := (List.nil_append _).symm.trans hlaid.components.symm
  rwa [Chart.allInContext_singleton] at hlaid

/-- Every stage of the flow of a chart is on the way of one of the charts in it. -/
theorem onWay_of_ofChart (h : ofChart chart = .ok st) : ∀ u ∈ st.flow.stages.places [],
    OnWay st (chart.inContext Chart.handsOn none) st.components u := fun u hu =>
  ((laid_of_ofChart h).covered u hu).resolve_left fun hu => absurd hu (by simp [places])

/-- The sources of the flow of a chart are its roots. -/
theorem source_iff_of_ofChart (h : ofChart chart = .ok st) {v : Forest.Place Stage}
    (hv : v ∈ st.flow.stages.places []) : v.content.tag = .source ↔ v.above = [] := by
  constructor
  · intro ht
    -- whatever stands above a stage, the stage may follow, and a source follows nothing
    rw [List.eq_nil_iff_forall_not_mem]
    intro e he
    have hfollows := ofChart_orderly h v hv
    rw [FollowsOn, Place.route, List.pairwise_append] at hfollows
    exact (hfollows.2.2 e he (v.id, v.content) (List.mem_singleton_self _)).2 ht
  · intro ha
    exact (ofChart_lawful h).rooted v hv (v.id, v.content) (by rw [Place.route, ha]; rfl)

/-- The sources of the flow of a chart have different hashes, those of its declarations. -/
theorem hashes_of_ofChart (h : ofChart chart = .ok st) :
    ((st.flow.stages.toList.filterMap (·.2.source?)).map Source.hash).Nodup ∧
      ∀ hash, hash ∈ (st.flow.stages.toList.filterMap (·.2.source?)).map Source.hash ↔
        ∃ data ∈ chart.declarations, Source.hashOf data = hash := by
  obtain ⟨stages, notes, hext, hsup⟩ := (builds_of_ofChart h).supplies ready_empty
  rw [Chart.allInContext_singleton] at hsup
  have hsources := hext.sources_eq ready_empty.sound
  -- the sources in the flow are those that were added, in another order
  have hhashes : ((st.flow.stages.toList.filterMap (·.2.source?)).map Source.hash).Perm
      ((stages.filterMap Stage.source?).map Source.hash) := by
    refine List.Perm.map _ ?_
    have hcontents := (hext.perm_contents ready_empty.sound).filterMap Stage.source?
    rwa [List.filterMap_map] at hcontents
  refine ⟨?_, fun hash => ⟨fun hm => ?_, ?_⟩⟩
  · have hn := hext.nodup_sources ready_empty.sound List.nodup_nil
    rw [hsources, List.map_nil, List.append_nil, List.nodup_reverse] at hn
    exact hhashes.nodup_iff.2 hn
  · obtain ⟨s, hs, rfl⟩ := List.mem_map.1 hm
    obtain ⟨data, hdata, rfl⟩ := declared_of_ofChart h s hs
    exact ⟨data, hdata, rfl⟩
  · -- a declaration is noted with its hash, and the hashes noted are those of the sources added
    rintro ⟨data, hdata, rfl⟩
    have hnoted := hsup.noted data (chart.declarations_eq ▸ hdata)
    rw [hsources, List.map_nil, List.append_nil, List.mem_reverse] at hnoted
    exact hhashes.mem_iff.2 hnoted

/-- Building a chart lays the ways of the charts in it, below one source for each hash of their
    data, and nothing else. -/
theorem ofChart_realizes (h : ofChart chart = .ok st) : Realizes chart st where
  nodup := (ofChart_lawful h).nodup
  source_iff _ := source_iff_of_ofChart h
  declared := declared_of_ofChart h
  nodup_hashes := (hashes_of_ofChart h).1
  mem_hashes := (hashes_of_ofChart h).2
  noted := (laid_of_ofChart h).noted
  onWay := onWay_of_ofChart h

/-- A layer without data of a unit that sorts out rows and of a facet in rows, which declare the
    same data, and a unit inside the facet. -/
def groupedCharts : Chart :=
  .layer { name := "all" }
    [.unit
        { name := "points", data := some (.named "records"),
          transforms := [.filter (.expression "datum.x > 0")] } .point ∅ none,
      .facet { name := "grid", data := some (.named "records") }
        { row := some (.named "k" .nominal) } (.unit { name := "bars" } .bar ∅ none)]

/-- The unit in the facet goes on with the partitions of the facet, and the layer has no way. -/
theorem ofChart_realizes_groupedCharts :
    (groupedCharts.inContext Chart.handsOn none).map (fun x =>
      (x.2.name, (x.2.drawn x.1).map fun e => e.2.map Stage.tag)) =
        [("points", some [.filter, .output, .output]),
          ("bars", some [.nullFilter, .output, .output, .facet, .output, .output]),
          ("grid", some [.nullFilter, .output, .output]), ("all", none)] ∧
      ∃ st, ofChart groupedCharts = .ok st ∧ Realizes groupedCharts st := by
  have hok : (ofChart groupedCharts).isOk = true := by decide +kernel
  cases h : ofChart groupedCharts with
  | error e => rw [h] at hok; exact absurd hok (by simp [Except.isOk, Except.toBool])
  | ok st => exact ⟨by decide, st, rfl, ofChart_realizes h⟩

end Building

end ChartPipeline
