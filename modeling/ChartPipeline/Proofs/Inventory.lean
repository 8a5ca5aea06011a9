import ChartPipeline.Analysis
import ChartPipeline.Proofs.Emitting
import ChartPipeline.Proofs.Lineage

/-!
# What the flow of a chart asks for

The flow that is assembled asks for what the charts in a tree ask for: their outputs that others
read, the headers of their dimensions and their facets, and one source for each declaration of
data.  Building adds stages for these, and no move of a pass and no elimination adds or loses one.

## Key results

- `Building.ofChart_wants`: what the stages that are built ask for
- `optimizeFlow_items`: what the stages that are assembled ask for
-/

namespace ChartPipeline

/-- What a stage asks to be made, if it is still there after elimination. -/
def Stage.wants (a : Stage) : List Item := if a.isVacuous then [] else a.item?.toList

/-- The source that a stage is. -/
def Stage.source? : Stage → Option Source
  | .source s => some s
  | _ => none

namespace Chart

/-! ### What charts ask for -/

/-- The outputs of a chart that others read. -/
def outputNames (chart : Chart) : List String :=
  (if chart.requests .raw then [chart.nameFor "raw"] else []) ++
    if chart.isUnit || chart.requests .main then [chart.nameFor "main"] else []

/-- The headers of the dimensions that a facet chart declares. -/
def headerNames (chart : Chart) : List String :=
  ([Channel.column, .row].filter chart.declares).map fun d => chart.nameFor d.name

/-- The facet of a facet chart. -/
def facetNames : Chart → List String
  | .facet h _ _ => [h.nameFor "facet"]
  | _ => []

/-- The charts of a tree, each with whether there are data around it. -/
def parts (chart : Chart) : List (Bool × Chart) :=
  chart.inContext (fun inherits c => Analysis.hasData c.header inherits) false

/-- The charts of a tree. -/
def charts (chart : Chart) : List Chart := chart.parts.map Prod.snd

/-- The charts of a tree that have data, their own or those around them. -/
def supplied (chart : Chart) : List Chart :=
  (chart.parts.filter fun x => Analysis.hasData x.2.header x.1).map Prod.snd

/-- The data that the charts of a tree declare. -/
def declarations (chart : Chart) : List DataSource :=
  chart.charts.filterMap fun c => c.header.data

/-- The charts of a tree are its parts, so their declarations are too. -/
theorem declarations_eq (chart : Chart) :
    chart.declarations = chart.parts.filterMap (·.2.header.data) :=
  List.filterMap_map

/-- What a chart asks to be made; it has outputs if it has data. -/
def asks (x : Bool × Chart) : List Item :=
  ((if Analysis.hasData x.2.header x.1 then x.2.outputNames else []) ++ x.2.headerNames).map
    Item.record ++ x.2.facetNames.map Item.facet

end Chart

/-! ### What the stages of a chart ask for -/

/-- Only outlets and sources ask for something. -/
theorem Stage.wants_eq_nil {a : Stage} (ho : a.isOutlet = false) (hs : a.tag ≠ .source) :
    a.wants = [] := by
  cases a <;> simp_all [Stage.isOutlet, Stage.tag, Stage.wants, Stage.item?]

namespace Chart

variable {chart : Chart} {outer : Option (List Stage)} {begin stages : List Stage}

/-- Of the stages from the start of a chart to its main output, only the outputs that others read
    ask for something. -/
theorem Chain.wants (h : Chain outer chart begin stages) :
    stages.flatMap Stage.wants = chart.outputNames.map Item.record := by
  cases h with | @mk before after _ hb ha
  have hbefore : ∀ a ∈ before, a.wants = [] := by
    intro a hm
    have ht := tag_of_mem_stagesBeforeRaw hb hm
    apply Stage.wants_eq_nil _ (not_source_of_mem_stagesBeforeRaw hb a hm)
    cases a <;> simp_all [Stage.isOutlet, Stage.tag]
  have hafter : ∀ a ∈ after, a.wants = [] := by
    intro a hm
    have ht := (stagesAfterRaw_grouping ha).1 a hm
    apply Stage.wants_eq_nil _ (not_source_of_mem_stagesAfterRaw ha a hm)
    cases a <;> simp_all [Stage.isOutlet, Stage.isGrouping, Stage.tag]
  simp only [List.flatMap_append, List.flatMap_cons, List.flatMap_nil, List.append_nil,
    List.flatMap_eq_nil_iff.2 hbefore, List.flatMap_eq_nil_iff.2 hafter, List.nil_append]
  rw [outputNames, List.map_append, rawOutput, mainOutput]
  cases chart.requests .raw <;> cases chart.isUnit || chart.requests .main <;> rfl

/-- Between the start of a chart and its main output is no source. -/
theorem Chain.not_source (h : Chain outer chart begin stages) : ∀ a ∈ stages, a.tag ≠ .source := by
  obtain ⟨-, hb, ha⟩ := h
  intro a hm
  simp only [List.mem_append, List.mem_cons, List.not_mem_nil, or_false] at hm
  rcases hm with hm | rfl | hm | rfl
  · exact not_source_of_mem_stagesBeforeRaw hb a hm
  · simp [rawOutput, Stage.tag]
  · exact not_source_of_mem_stagesAfterRaw ha a hm
  · simp [mainOutput, Stage.tag]

/-- Below its main output is none either. -/
theorem not_source_of_mem_ends : ∀ a ∈ chart.ends, a.tag ≠ .source := by
  intro a hm
  simp only [ends, List.mem_append, List.mem_flatMap, List.mem_map] at hm
  rcases hm with ⟨-, -, -, -, rfl⟩ | ⟨-, -, rfl⟩ <;> simp [Stage.tag]

/-- A dimension that a facet chart declares asks for its header, if the header can be made. -/
theorem header_of_declares {dimension : Channel}
    (h : chart.declares dimension = true → (FacetHeader.ofChart? chart dimension).isSome = true) :
    (FacetHeader.ofChart? chart dimension).toList.map (fun header => Item.record header.name) =
      if chart.declares dimension then [.record (chart.nameFor dimension.name)] else [] := by
  cases hheader : FacetHeader.ofChart? chart dimension with
  | none =>
    have hnot : chart.declares dimension = false := by
      rw [hheader] at h
      simpa using h
    simp [hnot]
  | some header =>
    unfold FacetHeader.ofChart? at hheader
    obtain ⟨field, hfield, rfl⟩ := Option.map_eq_some_iff.1 hheader
    -- a header has the field of a dimension, which is then declared
    have hdeclares : chart.declares dimension = true := by
      cases chart with
      | facet =>
        obtain ⟨f, hf, -⟩ := Option.bind_eq_some_iff.1 hfield
        rw [declares, hf]
        rfl
      | _ => exact absurd hfield (by simp [facetField?])
    simp [hdeclares]

/-- Below its main output, a facet asks for its declared dimensions and for its partitions. -/
theorem wants_ends (h : ∀ dimension, chart.declares dimension = true →
    (FacetHeader.ofChart? chart dimension).isSome = true) : chart.ends.flatMap Stage.wants =
      chart.headerNames.map Item.record ++ chart.facetNames.map Item.facet := by
  have hheaders (headers : List FacetHeader) : (headers.map Stage.facetHeader).flatMap Stage.wants =
      headers.map fun header => .record header.name := by
    induction headers with
    | nil => rfl
    | cons header headers ih => rw [List.map_cons, List.flatMap_cons, ih]; rfl
  have hpartition : ((Partition.ofChart? chart).toList.map Stage.facet).flatMap Stage.wants =
      chart.facetNames.map Item.facet := by
    cases chart <;> rfl
  rw [ends, List.flatMap_append, hpartition, headerNames]
  simp only [List.flatMap_cons, List.flatMap_nil, List.append_nil, List.flatMap_append, hheaders,
    header_of_declares (h _)]
  cases hc : chart.declares .column <;> cases hr : chart.declares .row <;> simp [hc, hr]

end Chart

namespace Building

open Forest

variable {P : Nat → Prop} {st st₁ st' : Building} {stages : List Stage} {notes : List Component}

/-- The sources that are noted are those that were added. -/
theorem Extends.sources_eq (h : Extends P stages notes st st') (hst : Sound st) :
    st'.sources.map Prod.fst =
      ((stages.filterMap Stage.source?).map Source.hash).reverse ++ st.sources.map Prod.fst := by
  induction h with
  | nil => rfl
  | @child parent id stage stages _ st st₁ st' _ hs h _ ih =>
    have hadd := edit_addChild_inv h hst
    have hnone : stage.source? = none := by
      cases stage <;> simp_all [Stage.tag, Stage.source?]
    rw [ih (hadd.sound hst), hadd.sources_eq, List.filterMap_cons_none hnone]
  | @source data stages _ st st' _ _ ih =>
    rw [ih (hst.addSource _)]
    simp [addSource, Stage.source?]
  | note c _ ih => exact ih (sound_note hst c)

/-- No hash is noted twice. -/
theorem Extends.nodup_sources (h : Extends P stages notes st st') (hst : Sound st)
    (hn : (st.sources.map Prod.fst).Nodup) : (st'.sources.map Prod.fst).Nodup := by
  induction h with
  | nil => exact hn
  | child _ _ h _ ih =>
    have hadd := edit_addChild_inv h hst
    exact ih (hadd.sound hst) (hadd.sources_eq ▸ hn)
  | source hnew _ ih => exact ih (hst.addSource _) (List.nodup_cons.2 ⟨hnew, hn⟩)
  | note c _ ih => exact ih (sound_note hst c) hn

/-- What was added for charts: what they ask for, and sources of their data. -/
structure Supplies (xs : List (Bool × Chart)) (st' : Building) (stages : List Stage) : Prop where
  wants : (stages.flatMap Stage.wants).Perm
    ((stages.filterMap Stage.source?).map Item.source ++ xs.flatMap Chart.asks)
  declared : ∀ s ∈ stages.filterMap Stage.source?, ∃ data ∈ xs.filterMap (·.2.header.data),
    s = Source.ofData data
  noted : ∀ data ∈ xs.filterMap (·.2.header.data),
    (Source.ofData data).hash ∈ st'.sources.map Prod.fst

/-- Nothing is added for no charts. -/
theorem supplies_nil (st : Building) : Supplies [] st [] := ⟨.refl _, by simp, by simp⟩

/-- What was added for some charts and then for others, was added for all of them. -/
theorem Supplies.append {xs ys : List (Bool × Chart)} {more : List Stage}
    (h : Supplies xs st₁ stages) (h' : Supplies ys st' more)
    (hsub : st₁.sources.map Prod.fst ⊆ st'.sources.map Prod.fst) :
    Supplies (xs ++ ys) st' (stages ++ more) where
  wants := by
    -- both lists of asked items are counted, as the sources come first in each
    classical
    refine List.perm_iff_count.2 fun i => ?_
    have := h.wants.count_eq i
    have := h'.wants.count_eq i
    simp only [List.flatMap_append, List.filterMap_append, List.map_append, List.count_append] at *
    omega
  declared s hs := by
    rw [List.filterMap_append, List.mem_append] at hs
    rw [List.filterMap_append]
    rcases hs with hs | hs
    · obtain ⟨data, hdata, heq⟩ := h.declared s hs
      exact ⟨data, List.mem_append_left _ hdata, heq⟩
    · obtain ⟨data, hdata, heq⟩ := h'.declared s hs
      exact ⟨data, List.mem_append_right _ hdata, heq⟩
  noted data hdata := by
    rw [List.filterMap_append, List.mem_append] at hdata
    exact hdata.elim (fun hdata => hsub (h.noted data hdata)) (h'.noted data)

/-- The order of the charts does not matter. -/
theorem Supplies.perm {xs ys : List (Bool × Chart)} (h : Supplies xs st stages) (hp : xs.Perm ys) :
    Supplies ys st stages where
  wants := h.wants.trans ((hp.flatMap_right _).append_left _)
  declared s hs := by
    obtain ⟨data, hdata, heq⟩ := h.declared s hs
    exact ⟨data, (hp.filterMap _).mem_iff.1 hdata, heq⟩
  noted data hdata := h.noted data ((hp.filterMap _).mem_iff.2 hdata)

variable {chart : Chart} {charts : List Chart} {inherited : Option Nat}
  {outer : Option (List Stage)} {c : Component} {first begin : List Stage} {head : Nat}

/-- A chart with stages of its own has data. -/
theorem Raised.hasData (h : Raised P outer inherited chart st c st' first begin stages head) :
    Analysis.hasData chart.header inherited.isSome = true := by
  cases hd : chart.header.data with
  | some data => simp [Analysis.hasData, hd]
  | none =>
    have hne := h.inherits hd
    cases inherited with
    | none => exact absurd rfl hne
    | some id => simp [Analysis.hasData]

/-- The stages of a chart itself ask for what the chart asks for. -/
theorem Raised.supplies (h : Raised P outer inherited chart st c st' first begin stages head) :
    Supplies [(inherited.isSome, chart)] st' (first ++ (stages ++ chart.ends)) := by
  -- a chart's only source is the one that it may start with
  have hown : (stages ++ chart.ends).filterMap Stage.source? = [] := by
    rw [List.filterMap_eq_nil_iff]
    intro a ha
    have hs := (List.mem_append.1 ha).elim (h.chain.not_source a) (Chart.not_source_of_mem_ends a)
    cases a <;> simp_all [Stage.source?, Stage.tag]
  have hfirst : first = [] ∨ ∃ data ∈ chart.header.data, first = [.source (.ofData data)] := by
    have hsub := h.first_sublist
    cases hd : chart.header.data with
    | none =>
      rw [hd] at hsub
      exact .inl (List.sublist_nil.1 hsub)
    | some data =>
      rw [hd] at hsub
      exact (List.sublist_singleton.1 hsub).imp id fun heq => ⟨data, rfl, heq⟩
  have hloads : first.flatMap Stage.wants = (first.filterMap Stage.source?).map Item.source := by
    rcases hfirst with rfl | ⟨data, -, rfl⟩ <;> rfl
  refine ⟨?_, ?_, ?_⟩
  · rw [List.flatMap_append, List.flatMap_append, List.filterMap_append, hown, List.append_nil,
      hloads, h.chain.wants, Chart.wants_ends h.declared]
    simp [Chart.asks, h.hasData]
  · intro s hs
    rw [List.filterMap_append, hown, List.append_nil] at hs
    rcases hfirst with rfl | ⟨data, hd, rfl⟩
    · exact absurd hs (by simp)
    · obtain rfl : s = .ofData data := by simpa [Stage.source?] using hs
      exact ⟨data, by simpa using hd, rfl⟩
  · intro data hd
    exact h.noted data (by simpa using hd)

/-- A layer without data, its own or those around it, asks for nothing. -/
theorem supplies_layer {header : ChartHeader} (hd : header.data = none) (children : List Chart)
    (st : Building) : Supplies [(false, .layer header children)] st [] := by
  have hdata : Analysis.hasData header false = false := by simp [Analysis.hasData, hd]
  refine ⟨?_, by simp, by simp [Chart.header, hd]⟩
  simp [Chart.asks, Chart.header, hdata, Chart.headerNames, Chart.declares, Chart.facetNames]

/-- What is added for charts that are built is what they ask for. -/
theorem Builds.supplies (h : Builds charts inherited st st')
    (hr : Ready (fun _ => True) outer inherited st) :
    ∃ stages notes, Extends (fun _ => True) stages notes st st' ∧
      Supplies (Chart.allInContext (fun inherits c => Analysis.hasData c.header inherits)
        inherited.isSome charts) st' stages := by
  induction h generalizing outer with
  | nil => exact ⟨[], [], .nil _, supplies_nil _⟩
  | @cons chart rest inherited c st st₁ st₂ st' hadd hinside hrest ih ihrest =>
    have hown : ∃ stages notes, Extends (fun _ => True) stages notes st st₂ ∧
        Supplies (chart.inContext (fun inherits c => Analysis.hasData c.header inherits)
          inherited.isSome) st₂ stages := by
      rw [Chart.inContext_eq]
      rcases addChart_inv hadd hr with
        ⟨first, begin, stages, head, hraised⟩ | ⟨header, inner, rfl, hd, rfl, hnone, rfl⟩
      -- a chart is listed after the charts inside it, but its stages are added before theirs
      · obtain ⟨inside, notes, hext, hsup⟩ := ih (hraised.ready hr)
        rw [hraised.head_eq, Option.isSome_some] at hsup
        rw [hraised.hasData]
        have hst₁ := (hraised.additions.ready hr).sound
        exact ⟨_, _, hraised.additions.trans hext,
          (hraised.supplies.append hsup (hext.sources_subset hst₁)).perm List.perm_append_comm⟩
      · -- the layer itself adds nothing, and what is inside it finds nothing to go on from
        obtain ⟨inside, notes, hext, hsup⟩ := ih (hnone ▸ hr.loose)
        rw [hnone, Option.isSome_none] at hsup
        refine ⟨_, _, hext, ?_⟩
        have hall := ((supplies_layer hd inner st₁).append hsup
          (hext.sources_subset hr.sound)).perm List.perm_append_comm
        simpa [Chart.header, Analysis.hasData, hd] using hall
    obtain ⟨own, notes, hext, hsup⟩ := hown
    have hnote : Extends (fun _ => True) [] [c] st₂
        { st₂ with components := st₂.components ++ [c] } := .note c (.nil _)
    obtain ⟨others, notes', hext', hsup'⟩ := ihrest (hnote.ready (hext.ready hr))
    have hst := (hext.ready hr).sound
    refine ⟨own ++ others, _, hext.trans (hnote.trans hext'), ?_⟩
    rw [Chart.allInContext]
    refine hsup.append hsup' ?_
    exact hext'.sources_subset (Extends.sound_note hst c)

/-- The stages that are built for a chart ask for what the charts in it ask for, and for one source
    for every hash of a declaration. -/
theorem ofChart_wants {chart : Chart} (h : ofChart chart = .ok st) : ∃ sources : List Source,
    (st.flow.stages.toList.flatMap (·.2.wants)).Perm
      (sources.map Item.source ++ chart.parts.flatMap Chart.asks) ∧
    (sources.map Source.hash).Nodup ∧
    (∀ s ∈ sources, ∃ data ∈ chart.declarations, s = Source.ofData data) ∧
    ∀ data ∈ chart.declarations, Source.hashOf data ∈ sources.map Source.hash := by
  obtain ⟨stages, notes, hext, hsup⟩ := (builds_of_ofChart h).supplies ready_empty
  rw [Chart.allInContext_singleton] at hsup
  -- the sources added are those noted, last one first
  have hsources := hext.sources_eq ready_empty.sound
  have hcontents : (st.flow.stages.toList.map Prod.snd).Perm stages :=
    hext.perm_contents ready_empty.sound
  rw [List.map_nil, List.append_nil] at hsources
  rw [chart.declarations_eq]
  refine ⟨stages.filterMap Stage.source?, ?_, ?_, hsup.declared, ?_⟩
  · refine List.Perm.trans ?_ hsup.wants
    rw [← List.flatMap_map]
    exact hcontents.flatMap_right _
  · have hn := hext.nodup_sources ready_empty.sound List.nodup_nil
    rwa [hsources, List.nodup_reverse] at hn
  · intro data hdata
    have hnoted := hsup.noted data hdata
    rwa [hsources, List.mem_reverse] at hnoted

/-- The sources of the flow of a chart are those of its declarations. -/
theorem declared_of_ofChart (h : ofChart chart = .ok st) :
    ∀ s ∈ st.flow.stages.toList.filterMap (·.2.source?),
      ∃ data ∈ chart.declarations, s = Source.ofData data := by
  obtain ⟨stages, notes, hext, hsup⟩ := (builds_of_ofChart h).supplies ready_empty
  rw [Chart.allInContext_singleton] at hsup
  have hcontents := (hext.perm_contents ready_empty.sound).filterMap Stage.source?
  rw [List.filterMap_map] at hcontents
  rw [chart.declarations_eq]
  exact fun s hs => hsup.declared s (hcontents.mem_iff.1 hs)

end Building

/-! ### From the stages built to those assembled -/

namespace Forest

variable {β : Type} {pass : Pass} {policy : FacetPolicy} {f f' : Forest Stage} {g : Stage → List β}

/-- What trees hold may be exchanged below any stages. -/
theorem perm_flatMap_fill (up : List (Frame Stage)) {t t' : Forest Stage}
    (h : (t'.toList.flatMap (g ·.2)).Perm (t.toList.flatMap (g ·.2))) :
    ((fill up t').toList.flatMap (g ·.2)).Perm ((fill up t).toList.flatMap (g ·.2)) := by
  -- from the frame next to the trees upwards
  induction up generalizing t t' with
  | nil => exact h
  | cons fr up ih =>
    apply ih
    rw [Frame.close, Frame.close, toList_append, toList_append, toList, toList]
    simp only [List.flatMap_append, List.flatMap_cons]
    exact ((h.append_right _).append_left _).append_left _

/-- A move neither brings nor takes what the stages that the pass moves do not hold. -/
theorem Rewrites.perm_flatMap (h : Rewrites pass policy f f')
    (hg : ∀ a : Stage, pass.handles a.tag = true → g a = []) :
    (f'.toList.flatMap (g ·.2)).Perm (f.toList.flatMap (g ·.2)) := by
  -- whatever moves, comes or goes is handled by the pass
  have hparse (hp : pass = .parse) (types : ParseTypes) : g (.parse types) = [] := by
    subst hp
    exact hg _ rfl
  cases h with
  | @join fr b c h up i gc =>
    have hb := hg b h.handled
    have ha := hg fr.content (h.tag_eq ▸ h.handled)
    have hc := hg c (Stage.tag_of_merge? h.merged ▸ h.tag_eq ▸ h.handled)
    refine perm_flatMap_fill up ?_
    simp [Frame.close, toList_append, toList, ha, hb, hc]
  | @rise fr b dims h up i gc =>
    have hb := hg b h.handled
    have hb' := hg (b.addDimensions dims) (Stage.tag_addDimensions dims b ▸ h.handled)
    refine perm_flatMap_fill up ?_
    simp [Frame.close, toList_append, toList, hb, hb']
  | @drop fr types h ht up cs =>
    refine perm_flatMap_fill up ?_
    simp [Frame.close, toList_append, toList, ht, hparse h]
  | @put fr h hs up cs i types =>
    refine perm_flatMap_fill up ?_
    simp [Frame.close, toList_append, toList, leaf, hparse h]
  | @widen fr types h ht types' up cs =>
    refine perm_flatMap_fill up ?_
    simp [Frame.close, toList_append, toList, ht, hparse h]

/-- Passes neither bring nor take what a stage asks for. -/
theorem perm_wants_of_passes {passes : List Pass} (h : Flow.Passes policy passes f f') :
    (f'.toList.flatMap (·.2.wants)).Perm (f.toList.flatMap (·.2.wants)) := by
  -- passes move neither outlets nor sources
  have hmoved {pass : Pass} (a : Stage) (ha : pass.handles a.tag = true) : a.wants = [] := by
    refine Stage.wants_eq_nil (Pass.not_isOutlet ha) fun ht => ?_
    have := Pass.not_mayFork ha
    simp [Stage.mayFork, ht] at this
  refine h.rel (R := fun f f' => (f'.toList.flatMap fun e => e.2.wants).Perm
    (f.toList.flatMap fun e => e.2.wants)) (fun _ => .refl _) ?_ fun h => h.perm_flatMap hmoved
  exact fun h h' => h'.trans h

/-- The stages that are left after elimination ask for what they asked for before. -/
theorem items_prune (f : Forest Stage) :
    (f.prune Stage.isVacuous).items = f.toList.flatMap (·.2.wants) := by
  rw [items, toList_prune]
  induction f.toList with
  | nil => rfl
  | cons e l ih =>
    rw [List.flatMap_cons, ← ih, Stage.wants]
    cases hv : e.2.isVacuous <;> cases hi : e.2.item? <;> simp [hv, hi]

end Forest

/-- The stages that are assembled ask for what the stages that were built ask for. -/
theorem optimizeFlow_items {chart : Chart} {built : Building} {options : CompilerOptions}
    {flow : Flow} (hb : Building.ofChart chart = .ok built)
    (hrun : options.optimizeFlow built.flow = (.ok (), flow)) :
    flow.stages.items.Perm (built.flow.stages.toList.flatMap (·.2.wants)) := by
  obtain ⟨f, hpasses, hst⟩ := options.passes_of_optimizeFlow (Building.ofChart_lawful hb) hrun
  rw [hst, Forest.items_prune]
  exact Forest.perm_wants_of_passes hpasses

end ChartPipeline
