import ChartPipeline.Proofs.Buildable
import ChartPipeline.Proofs.Converging
import ChartPipeline.Proofs.Copying
import ChartPipeline.Proofs.Printed
import ChartPipeline.Proofs.Provenance

/-!
# Charts side by side

The charts of a layer without data share the passes, the sources that several of them declare, and
the numbers of the assembly.  All the same they do not interfere: each one's outputs, headers and
facets come from the same data by the same steps as when it is compiled alone.  Only conversions
may be added to the record of a source that several charts share.

## Key results

- `Forest.Hosts.exists_outlet`: the way to an outlet of a copy is that to the outlet alone
- `compileChart_inv`, `compileChart_of_ends`: when a chart compiles, and how
- `compileChart_layer`: the charts of a layer without data do not interfere
-/

namespace ChartPipeline

namespace Forest

/-! ### The way to an outlet -/

variable {f : Forest Stage} {copies : List Copy} {k : Copy} {policy : FacetPolicy} {n : Nat}
  {passes : List Pass}

/-- Conversions add no steps. -/
theorem stepsOn_filter_parse (w : List (Nat × Stage)) :
    stepsOn (w.filter fun e => !decide (e.2.tag = .parse)) = stepsOn w := by
  induction w with
  | nil => rfl
  | cons e w ih =>
    rw [stepsOn_cons, ← ih]
    by_cases ht : e.2.tag = .parse
    · have hnone : e.2.steps = [] := by
        revert ht
        cases e.2 <;> simp [Stage.tag, Stage.steps]
      rw [List.filter_cons_of_neg (by simp [ht]), hnone, List.nil_append]
    · rw [List.filter_cons_of_pos (by simp [ht]), stepsOn_cons]

/-- Nor do other names or sources. -/
theorem stepsOn_recast {ρ : Nat → Nat} {σ : Source → Source} (w : List (Nat × Stage)) :
    stepsOn (w.map fun e => (ρ e.1, e.2.recast σ)) = stepsOn w := by
  simp [stepsOn, List.flatMap_map]

/-- The stages that are assembled once passes have come to their ends. -/
def finished (policy : FacetPolicy) (n : Nat) (passes : List Pass) (f : Forest Stage) :
    Forest Stage :=
  (Forest.hoist policy n passes f).prune Stage.isVacuous

/-- Where the roots are those of a forest in which no name stands twice, neither does that of a
    root. -/
theorem nodup_roots_of_heads {g : Forest Stage} (h : g.heads = f.heads) (hn : f.walk.Nodup) :
    g.roots.Nodup := by
  rw [← map_fst_heads, h, map_fst_heads]
  exact nodup_roots hn

/-- The roots are the same once passes have come to their ends. -/
theorem Lawful.heads_finished (hf : f.Lawful) : (f.finished policy n passes).heads = f.heads := by
  have hheads := @heads_hoist policy passes n _ hf.sourced hf.nodup
  rw [finished, heads_prune (by rw [hheads]; exact hf.sourced.not_vacuous), hheads]

/-- So they are without conversions and stages that do nothing. -/
theorem Lawful.heads_bare_hoist (hf : f.Lawful) (h : Ends policy n passes f) :
    (Forest.hoist policy n passes f).bare.heads = f.heads := by
  rw [(hf.hoist h).sourced.heads_bare, heads_hoist hf.sourced hf.nodup]

/-- The way to an outlet of a copy is that to the outlet alone: it begins with the source that the
    copy stands below, and has the same steps on it. -/
theorem Hosts.exists_outlet (h : Hosts f copies) (hp : .parse ∉ passes)
    (hends : ∀ c ∈ copies, Ends policy n (passes ++ [.parse]) c.stages) (hk : k ∈ copies)
    {v : Place Stage} (hv : v ∈ (k.stages.finished policy n (passes ++ [.parse])).places [])
    (ho : v.content.isOutlet = true) {i : Nat} {s s' : Source} {r : List (Nat × Stage)}
    (habove : v.above = (i, .source s) :: r) (hi : (k.rename i, .source s') ∈ f.heads) :
    ∃ v' ∈ (f.finished policy n (passes ++ [.parse])).places [], ∃ r',
      v'.content = v.content ∧ v'.above = (k.rename i, .source s') :: r' ∧
        stepsOn r' = stepsOn r := by
  have hρ := h.injective k hk
  have hlawful := h.copy_lawful k hk
  have hheads := h.lawful.heads_bare_hoist (h.ends hp hends)
  have htag : v.content.tag ≠ .parse ∧ v.content.tag ≠ .source := by
    constructor <;> intro ht <;> simp [Stage.isOutlet, ht] at ho
  let w := r.filter fun e => !decide (e.2.tag = .parse)
  let w' := w.map fun e => (k.rename e.1, e.2.recast fun _ => s')
  -- without conversions, what is above the outlet is there in the copy too
  have hbare : (⟨(i, .source s) :: w, v.id, v.content⟩ : Place Stage) ∈
      (Forest.hoist policy n (passes ++ [.parse]) k.stages).bare.places [] := by
    rw [← prune_parse_prune]
    have hkept := @mem_places_prune _ (fun a => decide (a.tag = .parse)) _ _ hv (by simp [htag])
    rwa [Place.prune, habove, List.filter_cons_of_pos (by simp [Stage.tag])] at hkept
  have hroots := nodup_roots_of_heads (hlawful.heads_bare_hoist (hends k hk)) hlawful.nodup
  have hunder := ((mem_places_under hroots rfl).1 hbare).2
  have hcopy : (⟨w', k.rename v.id, v.content⟩ : Place Stage) ∈
      ((Forest.hoist policy n (passes ++ [.parse]) f).bare.under (k.rename i)).places [] := by
    obtain ⟨left, right, heq⟩ := h.bare_under hp hends hk (fun _ => s') (k.rename i)
    have hplaces := @places_recast k.rename (fun _ => s')
      ((Forest.hoist policy n (passes ++ [.parse]) k.stages).bare.under i) []
    have hmem := List.mem_map_of_mem (f := Place.recast k.rename fun _ => s') hunder
    rw [← hplaces, ← under_recast hρ, Place.recast, Stage.recast_of_not_source htag.2] at hmem
    rw [heq, places_append, places_append]
    exact List.mem_append_right _ (List.mem_append_left _ hmem)
  have hplace : (⟨(k.rename i, .source s') :: w', k.rename v.id, v.content⟩ : Place Stage) ∈
      (Forest.hoist policy n (passes ++ [.parse]) f).bare.places [] :=
    (mem_places_under (nodup_roots_of_heads hheads h.lawful.nodup) rfl).2
      ⟨hheads ▸ hi, hcopy⟩
  -- with them, it still begins with the source
  rw [← prune_parse_prune] at hplace
  obtain ⟨v', hv', heq⟩ := exists_of_mem_places_prune hplace
  obtain ⟨habove', -, hcontent⟩ := Place.mk.inj heq
  refine ⟨v', hv', ?_⟩
  cases hx : v'.above with
  | nil => simp [hx] at habove'
  | cons x r' =>
    obtain ⟨j, a⟩ := x
    have hfinished := @Lawful.heads_finished _ policy n (passes ++ [.parse]) h.lawful
    have hroot := ((mem_places_under (nodup_roots_of_heads hfinished h.lawful.nodup) hx).1 hv').1
    have hsource : a.tag = .source := h.lawful.sourced _ (hfinished ▸ hroot)
    rw [hx, List.filter_cons_of_pos (by simp [hsource])] at habove'
    obtain ⟨he, hrest⟩ := List.cons.inj habove'
    refine ⟨r', hcontent, by rw [he], ?_⟩
    rw [← stepsOn_filter_parse r', hrest, ← stepsOn_filter_parse r]
    exact stepsOn_recast w

end Forest

/-! ### Compilations -/

namespace CompilerOptions

variable {options : CompilerOptions} {flow flow' : Flow}

/-- The passes end with that for conversions. -/
theorem exists_passes (options : CompilerOptions) :
    ∃ passes, options.passes = passes ++ [.parse] ∧ .parse ∉ passes := by
  unfold passes
  split
  · exact ⟨[.stack, .aggregate, .bin, .timeUnit, .nullFilter, .transforms], rfl, by decide⟩
  · exact ⟨[], rfl, by decide⟩

/-- The stages that are assembled. -/
def finished (options : CompilerOptions) (f : Forest Stage) : Forest Stage :=
  f.finished options.facetPolicy (options.iterations - 1) options.passes

/-- The passes come to their ends. -/
def Ends (options : CompilerOptions) (f : Forest Stage) : Prop :=
  Forest.Ends options.facetPolicy (options.iterations - 1) options.passes f

/-- A pass may sweep at least once. -/
theorem iterations_eq (options : CompilerOptions) :
    options.iterations = options.iterations - 1 + 1 := by
  have : 1 ≤ options.iterations := Nat.le_max_right _ _
  omega

/-- Where the passes come to their ends, a flow is optimized. -/
theorem optimizeFlow_of_ends (hf : flow.stages.Lawful) (h : options.Ends flow.stages) :
    ∃ flow', options.optimizeFlow flow = (.ok (), flow') := by
  obtain ⟨flow₁, hrun⟩ := (Flow.runPasses_iff hf).2 h
  rw [← iterations_eq] at hrun
  rw [optimizeFlow_eq, Run.bind_ok hrun]
  exact ⟨_, rfl⟩

/-- Where a flow is optimized, its passes have come to their ends, with the stages that are
    assembled. -/
theorem ends_of_optimizeFlow (hf : flow.stages.Lawful)
    (h : options.optimizeFlow flow = (.ok (), flow')) :
    options.Ends flow.stages ∧ flow'.stages = options.finished flow.stages := by
  rw [optimizeFlow_eq] at h
  obtain ⟨_, flow₁, hrun, h⟩ := Run.bind_eq_ok h
  obtain ⟨-, rfl⟩ := Prod.mk.inj h
  rw [iterations_eq] at hrun
  obtain ⟨hst, -⟩ := Flow.stages_of_runPasses hf hrun
  exact ⟨(Flow.runPasses_iff hf).1 ⟨_, hrun⟩, by rw [finished, Forest.finished, ← hst]⟩

end CompilerOptions

/-- How data were compiled: the flow of the chart, and the flow that was assembled. -/
structure Compilation (options : CompilerOptions) (chart : Chart) (data : CompiledData)
    (built : Building) (flow : Flow) : Prop where
  built_eq : Building.ofChart chart = .ok built
  ends : options.Ends built.flow.stages
  stages_eq : flow.stages = options.finished built.flow.stages
  items : flow.stages.items.Perm (built.flow.stages.toList.flatMap (·.2.wants))
  assembled : ∃ earlier st flow', flow.assembleAfter earlier = (.ok data, st, flow')

/-- Data that are compiled come from a flow that was built and assembled. -/
theorem compileChart_inv {options : CompilerOptions} {chart : Chart} {data : CompiledData}
    (h : compileChart options chart = .ok data) :
    ∃ built flow, Compilation options chart data built flow := by
  obtain ⟨-, built, flow, earlier, st, flow', hbuilt, hrun, hassemble⟩ := Compiler.compile_inv h
  obtain ⟨hends, hst⟩ :=
    CompilerOptions.ends_of_optimizeFlow (Building.ofChart_lawful hbuilt) hrun
  exact ⟨built, flow, hbuilt, hends, hst, optimizeFlow_items hbuilt hrun, earlier, st, flow',
    hassemble⟩

/-- A chart that makes sense compiles if its flow can be built and the passes over it come to their
    ends. -/
theorem compileChart_of_ends {options : CompilerOptions} {chart : Chart} {built : Building}
    (ha : Analysis.analyze chart = .ok ()) (hb : Building.ofChart chart = .ok built)
    (h : options.Ends built.flow.stages) : ∃ data, compileChart options chart = .ok data := by
  obtain ⟨compiler', hbuild⟩ : ∃ compiler',
      Compiler.buildFlow { options } chart = (.ok built.flow, compiler') := by
    unfold Compiler.buildFlow
    split
    · change ∃ compiler', ((Analysis.analyze chart).bind _, _) = _
      rw [ha, hb]
      exact ⟨_, rfl⟩
    · rw [hb]
      exact ⟨_, rfl⟩
  obtain ⟨-, hoptions⟩ := Compiler.buildFlow_ok hbuild
  obtain ⟨flow', hrun⟩ :=
    CompilerOptions.optimizeFlow_of_ends (Building.ofChart_lawful hb) h
  exact Compiler.compile_ok hbuild (by rw [hoptions]; exact hrun)

namespace Compilation

open Forest

variable {options : CompilerOptions} {chart : Chart} {data : CompiledData} {built : Building}
  {flow : Flow}

/-- The flow that was built is lawful. -/
theorem lawful (h : Compilation options chart data built flow) : built.flow.stages.Lawful :=
  Building.ofChart_lawful h.built_eq

/-- In the flow that is assembled no name stands twice. -/
theorem nodup_walk (h : Compilation options chart data built flow) : flow.stages.walk.Nodup := by
  rw [h.stages_eq]
  exact nodup_prune _ (h.lawful.hoist h.ends).nodup

/-- The data are made of that flow, and list what the chart asks for. -/
theorem made (h : Compilation options chart data built flow) :
    ∃ loaded named counted, data.Made flow.stages loaded named counted ∧
      data.Catalog chart flow.stages.rootSources loaded named counted := by
  obtain ⟨earlier, st, flow', hassemble⟩ := h.assembled
  obtain ⟨loaded, named, counted, hmade⟩ := Flow.assembleAfter_made hassemble
  obtain ⟨sources, hwants, hhashes, hdeclared, hnoted⟩ := Building.ofChart_wants h.built_eq
  exact ⟨loaded, named, counted, hmade,
    hmade.catalog (h.items.trans hwants) hhashes hdeclared hnoted⟩

/-- No two datasets have one name if no two charts have. -/
theorem nodup_names (h : Compilation options chart data built flow)
    (hn : (chart.charts.map Chart.name).Nodup) (hapart : chart.NamesApart) :
    (data.records.map DatasetRecord.name ++ data.facets.map FacetData.name).Nodup := by
  obtain ⟨loaded, named, counted, hmade, hcatalog⟩ := h.made
  exact hcatalog.nodup_names hmade.loaded_eq hn hapart

/-- What a chart asks for is asked for at an outlet. -/
theorem exists_outlet (h : Compilation options chart data built flow) {name : String}
    (hname : name ∈ chart.wantedNames) : ∃ v ∈ flow.stages.places [],
      v.content.isOutlet = true ∧ name ∈ v.content.names := by
  obtain ⟨loaded, named, counted, hmade, hcatalog⟩ := h.made
  have hitem : .record name ∈ flow.stages.items ∨ .facet name ∈ flow.stages.items := by
    rw [← hmade.asked.mem_iff, ← hmade.asked.mem_iff]
    rcases List.mem_append.1 hname with hname | hname
    · obtain ⟨r, hr, rfl⟩ := List.mem_map.1 (hcatalog.named_perm.mem_iff.2 hname)
      left
      simp only [List.mem_append, List.mem_map]
      exact .inr (.inl ⟨r, hr, rfl⟩)
    · obtain ⟨d, hd, rfl⟩ := List.mem_map.1 (hcatalog.facets_perm.mem_iff.2 hname)
      right
      simp only [List.mem_append, List.mem_map]
      exact .inr (.inr ⟨d, hd, rfl⟩)
  -- whatever is asked for is asked for at some place
  have place {item : Item} (hitem : item ∈ flow.stages.items) :
      ∃ v ∈ flow.stages.places [], v.content.item? = some item := by
    obtain ⟨e, he, hitem⟩ := List.mem_filterMap.1 hitem
    rw [toList_eq_map_places flow.stages []] at he
    obtain ⟨v, hv, rfl⟩ := List.mem_map.1 he
    exact ⟨v, hv, hitem⟩
  rcases hitem with hitem | hitem
  all_goals
    obtain ⟨v, hv, hitem⟩ := place hitem
    refine ⟨v, hv, ?_⟩
    cases hc : v.content <;> simp_all [Stage.item?, Stage.isOutlet, Stage.tag, Stage.names]

/-- What an outlet asks for is traced back to the record of the source above it. -/
theorem drawn (h : Compilation options chart data built flow) {v : Place Stage}
    (hv : v ∈ flow.stages.places []) (ho : v.content.isOutlet = true) :
    ∃ i s r name, v.Drawn flow.stages data i s r name := by
  obtain ⟨earlier, st, flow', hassemble⟩ := h.assembled
  exact Flow.assembleAfter_traced h.nodup_walk hassemble hv ho

/-- The roots are those of the flow that was built. -/
theorem heads_eq (h : Compilation options chart data built flow) :
    flow.stages.heads = built.flow.stages.heads := by
  rw [h.stages_eq]
  exact h.lawful.heads_finished

end Compilation

/-- The sources at the roots of a chart's flow are those of its declarations. -/
theorem Building.declared_of_head {chart : Chart} {built : Building}
    (h : ofChart chart = .ok built) {i : Nat} {s : Source}
    (hi : (i, .source s) ∈ built.flow.stages.heads) :
    ∃ d ∈ chart.declarations, s = Source.ofData d :=
  Building.declared_of_ofChart h s (List.mem_filterMap.2 ⟨_, Forest.mem_toList_of_mem_heads hi, rfl⟩)

namespace Chart

variable {header : ChartHeader} {children before after : List Chart} {c : Chart}

/-! ### The charts of a layer -/

/-- A layer without data changes nothing for the charts in it. -/
theorem parts_layer (hd : header.data = none) :
    (layer header children).parts = children.flatMap parts ++ [(false, layer header children)] := by
  have hnone : Analysis.hasData header false = false := by simp [Analysis.hasData, hd]
  have hall (cs : List Chart) :
      allInContext (fun inherits c => Analysis.hasData c.header inherits) false cs =
        cs.flatMap parts := by
    induction cs with
    | nil => rfl
    | cons c cs ih => rw [allInContext, ih, List.flatMap_cons, parts]
  rw [parts, inContext, ← hall]
  simp only [Chart.header, hnone]

/-- The charts in a layer without data are those in each of its charts, and itself. -/
theorem charts_layer (hd : header.data = none) :
    (layer header children).charts = children.flatMap charts ++ [layer header children] := by
  rw [charts, parts_layer hd, List.map_append, List.map_flatMap]
  rfl

/-- So those of one of them are among them, in order. -/
theorem charts_sublist (hd : header.data = none) (hc : c ∈ children) :
    c.charts.Sublist (layer header children).charts := by
  rw [charts_layer hd, List.flatMap_def]
  exact (List.sublist_flatten_of_mem (List.mem_map_of_mem hc)).trans (List.sublist_append_left _ _)

/-- The data that one of them declares are declared in the layer. -/
theorem declarations_subset (hd : header.data = none) (hc : c ∈ children) :
    c.declarations ⊆ (layer header children).declarations :=
  ((charts_sublist hd hc).filterMap _).subset

/-- Names that are kept apart in the layer are so in one of them. -/
theorem NamesApart.of_layer (hd : header.data = none) (hc : c ∈ children)
    (h : (layer header children).NamesApart) : c.NamesApart := by
  intro name hname
  obtain ⟨hnumbers, htexts⟩ := h name (declarations_subset hd hc hname)
  exact ⟨hnumbers, fun c' hc' => htexts c' ((charts_sublist hd hc).subset hc')⟩

/-- No two declarations in a chart have one hash, unless they are written alike: the digest tells
    them apart. -/
def HashesApart (chart : Chart) : Prop :=
  ∀ d ∈ chart.declarations, ∀ d' ∈ chart.declarations,
    Source.hashOf d = Source.hashOf d' → d.toJson.compact = d'.toJson.compact

end Chart

/-! ### Records of sources -/

/-- Data with a name of their own are loaded under it. -/
theorem Source.Loads.name_eq {s : Source} {r : DatasetRecord} {own : String} (h : s.Loads r)
    (hs : s.datasetName? = some own) : r.name = own := by
  rcases h.name with hname | ⟨hnone, -⟩
  · exact Option.some.inj (hname.symm.trans hs)
  · simp [hs] at hnone

/-- The record of a source depends on the name there only. -/
theorem Source.record_rename (s : Source) (name name' : String) :
    s.record name' = { s.record name with name := name' } := by
  unfold record
  split <;> rfl

namespace Assembly

variable {s s' : Source} {f : Forest Stage}

/-- Conversions are all that the record of a source takes from what stands below. -/
theorem sourceRecord_alike_record (s : Source) (name : String) (children : Forest Stage) :
    (sourceRecord s name children).Alike (s.record name) := by
  unfold sourceRecord
  split
  · refine ⟨rfl, rfl, ?_, rfl⟩
    cases hf : (s.record name).format <;> simp [formatType, hf]
  · exact .refl _

/-- Records of sources with data that are alike are alike. -/
theorem sourceRecord_alike (h : s.data.Alike s'.data) (name name' : String)
    (children children' : Forest Stage) :
    (sourceRecord s name children).Alike (sourceRecord s' name' children') :=
  (sourceRecord_alike_record s name children).trans
    ((Source.record_alike h name name').trans (sourceRecord_alike_record s' name' children').symm)

/-- The name and the format are all that records of one source differ in. -/
theorem sourceRecord_kept (s : Source) (name name' : String) (children children' : Forest Stage) :
    sourceRecord s name' children' = { sourceRecord s name children with
      name := (sourceRecord s name' children').name
      format := (sourceRecord s name' children').format } := by
  have hkept (children : Forest Stage) : sourceRecord s name' children =
      { s.record name' with format := (sourceRecord s name' children).format } := by
    unfold sourceRecord
    split <;> rfl
  have hrecord (children : Forest Stage) : s.record name =
      { sourceRecord s name children with format := (s.record name).format } := by
    unfold sourceRecord
    split <;> rfl
  rw [hkept, s.record_rename name name', hrecord children]

/-- The types that are taken from the conversions do not depend on names or sources. -/
theorem parseTypesUnder_recast {ρ : Nat → Nat} {σ : Source → Source} (declared : ParseTypes) :
    parseTypesUnder declared (f.recast ρ σ) = parseTypesUnder declared f := by
  induction f generalizing declared with
  | nil => rfl
  | node i a cs rest _ ih => cases a <;> simp [Stage.recast, parseTypesUnder, ih]

/-- The record of a source does not depend on the names of the stages, and on its own name only
    there. -/
theorem sourceRecord_recast {ρ : Nat → Nat} {σ : Source → Source} (name name' : String) :
    sourceRecord s name' (f.recast ρ σ) = { sourceRecord s name f with name := name' } := by
  simp only [sourceRecord, Forest.hasParse_recast, parseTypesUnder_recast, s.record_rename name name']
  split <;> rfl

end Assembly

/-! ### Layers -/

/-- A dataset or a facet comes from the same data by the same steps in the outcome for a chart alone
    and in that for charts side by side, which declare `all` data, and the other charts `others`. -/
structure CompiledData.Agree (own data : CompiledData) (name : String) (d : DataSource)
    (all others : List DataSource) (base base' : DatasetRecord) (steps : List Step) : Prop where
  /-- Alone, it comes from the record of a declaration. -/
  loads : (Source.ofData d).Loads base
  alone : ∀ record way, own.Traced name record way ↔ record = base ∧ way = steps
  beside : ∀ record way, data.Traced name record way ↔ record = base' ∧ way = steps
  /-- The record loads the same data, under the same name if the declaration has one. -/
  alike : base.Alike base'
  bound : ∀ own, d = .named own → base.name = own ∧ base'.name = own
  /-- Where only equal declarations have one hash, it differs in its name and format at most. -/
  kept : (∀ d' ∈ all, Source.hashOf d' = Source.hashOf d → d' = d) →
    base' = { base with name := base'.name, format := base'.format }
  /-- The format too is the same, unless others declare the same data. -/
  same : (∀ d' ∈ others, Source.hashOf d' ≠ Source.hashOf d) →
    base' = { base with name := base'.name }

namespace Forest

/-- The trees below a source that a copy has for itself are assembled as they are alone. -/
theorem Hosts.finished_of_sole {f : Forest Stage} {before after : List Copy} {k : Copy}
    {policy : FacetPolicy} {n : Nat} {passes : List Pass} (h : Hosts f (before ++ k :: after))
    {i : Nat} {s s' : Source} (hi : (i, .source s) ∈ k.stages.heads)
    (hi' : (k.rename i, .source s') ∈ f.heads)
    (hsole : ∀ k' ∈ before ++ after, k.rename i ∉ k'.stages.roots.map k'.rename) :
    (f.finished policy n passes).under (k.rename i) =
      ((k.stages.finished policy n passes).under i).recast k.rename fun _ => s' := by
  have hk := h.copy_lawful k (by simp)
  have hheads := @heads_hoist policy passes n _ h.lawful.sourced h.lawful.nodup
  have hheads' := @heads_hoist policy passes n _ hk.sourced hk.nodup
  rw [finished, finished, under_prune (by rw [hheads]; exact h.lawful.sourced.not_vacuous),
    under_prune (by rw [hheads']; exact hk.sourced.not_vacuous), prune_recast Stage.isVacuous_recast,
    h.under_of_sole hi hi' hsole]

end Forest

/-- Lists that are related item by item split alike. -/
theorem exists_split_of_forall₂ {α β : Type} {R : α → β → Prop} {l r : List α} {a : α} {bs : List β}
    (h : List.Forall₂ R (l ++ a :: r) bs) : ∃ l' b r', bs = l' ++ b :: r' ∧
      List.Forall₂ R l l' ∧ R a b ∧ List.Forall₂ R r r' := by
  -- item by item, up to the one at which the list is split
  induction l generalizing bs with
  | nil =>
    obtain ⟨b, bs, hab, hr, rfl⟩ := List.forall₂_cons_left_iff.1 h
    exact ⟨[], b, bs, rfl, .nil, hab, hr⟩
  | cons x l ih =>
    obtain ⟨y, bs, hxy, hrest, rfl⟩ := List.forall₂_cons_left_iff.1 h
    obtain ⟨l', b, r', rfl, hl, hab, hr⟩ := ih hrest
    exact ⟨y :: l', b, r', rfl, .cons hxy hl, hab, hr⟩

/-- A chart compiled alone, and as one copy among others in the flow of a chart around it. -/
structure Beside (options : CompilerOptions) (c : Chart) (own : CompiledData) (ownBuilt : Building)
    (ownFlow : Flow) (chart : Chart) (data : CompiledData) (built : Building) (flow : Flow)
    (before : List Forest.Copy) (k : Forest.Copy) (after : List Forest.Copy) : Prop where
  self : Compilation options c own ownBuilt ownFlow
  side : Compilation options chart data built flow
  hosts : Forest.Hosts built.flow.stages (before ++ k :: after)
  stages_eq : k.stages = ownBuilt.flow.stages
  ends : ∀ k' ∈ before ++ k :: after, options.Ends k'.stages
  roots : ∀ e ∈ k.stages.heads, ∃ s s', built.RootIn (before ++ after) k e s s'
  declared : c.declarations ⊆ chart.declarations

namespace Beside

open Forest

variable {options : CompilerOptions} {c chart : Chart} {own data : CompiledData}
  {ownBuilt built : Building} {ownFlow flow : Flow} {before after : List Copy} {k : Copy}

/-- What the chart asks for is drawn from a source, and beside the others from the one that stands
    for it there, by the same steps. -/
theorem exists_drawn
    (h : Beside options c own ownBuilt ownFlow chart data built flow before k after)
    {name : String} (hname : name ∈ c.wantedNames) :
    ∃ i s s' steps sname sname', built.RootIn (before ++ after) k (i, .source s) s s' ∧
      (i, .source s) ∈ k.stages.heads ∧
      s.Loads (Assembly.sourceRecord s sname (ownFlow.stages.under i)) ∧
      s'.Loads (Assembly.sourceRecord s' sname' (flow.stages.under (k.rename i))) ∧
      own.Traced name (Assembly.sourceRecord s sname (ownFlow.stages.under i)) steps ∧
      data.Traced name
        (Assembly.sourceRecord s' sname' (flow.stages.under (k.rename i))) steps := by
  obtain ⟨passes, hpasses, hparse⟩ := options.exists_passes
  have hends := h.ends
  simp only [CompilerOptions.Ends, hpasses] at hends
  have hfinished : flow.stages = built.flow.stages.finished options.facetPolicy
      (options.iterations - 1) (passes ++ [.parse]) := by
    rw [h.side.stages_eq, CompilerOptions.finished, hpasses]
  obtain ⟨v, hv, ho, hmade⟩ := h.self.exists_outlet hname
  obtain ⟨i, s, r, sname, hdrawn⟩ := h.self.drawn hv ho
  have hi : (i, .source s) ∈ k.stages.heads := by
    rw [h.stages_eq, ← h.self.heads_eq]
    exact hdrawn.head
  obtain ⟨s₁, s', hroot⟩ := h.roots _ hi
  obtain rfl : s = s₁ := Stage.source.inj hroot.content
  -- the outlet stands in the other flow too
  rw [h.self.stages_eq, CompilerOptions.finished, hpasses, ← h.stages_eq] at hv
  obtain ⟨v', hv', r', hcontent, habove, hsteps⟩ :=
    h.hosts.exists_outlet hparse hends (by simp) hv ho hdrawn.above hroot.mem
  rw [← hfinished] at hv'
  obtain ⟨j, s₂, r₂, sname', hdrawn'⟩ := h.side.drawn hv' (hcontent ▸ ho)
  obtain ⟨he, rfl⟩ := List.cons.inj (habove.symm.trans hdrawn'.above)
  obtain ⟨rfl, hs⟩ := Prod.mk.inj he
  obtain rfl := Stage.source.inj hs
  refine ⟨i, s, s', _, sname, sname', hroot, hi, hdrawn.loads, hdrawn'.loads,
    hdrawn.traced name hmade, ?_⟩
  have htraced := hdrawn'.traced name (hcontent ▸ hmade)
  rwa [hsteps, hcontent] at htraced

/-- The record of a source that the chart has for itself is the one it has alone. -/
theorem sourceRecord_of_sole
    (h : Beside options c own ownBuilt ownFlow chart data built flow before k after) {i : Nat}
    {s : Source} (hi : (i, .source s) ∈ k.stages.heads)
    (hi' : (k.rename i, .source s) ∈ built.flow.stages.heads)
    (hsole : ∀ k' ∈ before ++ after, k.rename i ∉ k'.stages.roots.map k'.rename)
    (name name' : String) :
    Assembly.sourceRecord s name' (flow.stages.under (k.rename i)) =
      { Assembly.sourceRecord s name (ownFlow.stages.under i) with name := name' } := by
  rw [h.side.stages_eq, h.self.stages_eq, ← h.stages_eq, CompilerOptions.finished,
    CompilerOptions.finished, h.hosts.finished_of_sole hi hi' hsole]
  exact Assembly.sourceRecord_recast name name'

/-- What the chart asks for comes from the same data by the same steps, alone and beside the
    others. -/
theorem agree (h : Beside options c own ownBuilt ownFlow chart data built flow before k after)
    (hhashes : chart.HashesApart)
    (hown : (own.records.map DatasetRecord.name ++ own.facets.map FacetData.name).Nodup)
    (hall : (data.records.map DatasetRecord.name ++ data.facets.map FacetData.name).Nodup)
    {others : List DataSource}
    (hothers : ∀ k' ∈ before ++ after, ∀ hash ∈ k'.stages.rootSources.map Source.hash,
      ∃ d ∈ others, Source.hashOf d = hash) {name : String} (hname : name ∈ c.wantedNames) :
    ∃ d ∈ c.declarations, ∃ base base' steps,
      own.Agree data name d chart.declarations others base base' steps := by
  obtain ⟨i, s, s', steps, sname, sname', hroot, hi, hloads, hloads', htraced, htraced'⟩ :=
    h.exists_drawn hname
  obtain ⟨d, hd, rfl⟩ := Building.declared_of_head h.self.built_eq (h.stages_eq ▸ hi)
  obtain ⟨d', hd', rfl⟩ := Building.declared_of_head h.side.built_eq hroot.mem
  -- declarations with one hash are of the same data
  have halike : d.Alike d' := DataSource.alike_of_compact
    (hhashes d (h.declared hd) d' hd' hroot.hash_eq.symm)
  refine ⟨d, hd, _, _, steps, hloads, fun record way => ⟨fun ht => ht.unique hown htraced, ?_⟩,
    fun record way => ⟨fun ht => ht.unique hall htraced', ?_⟩,
    Assembly.sourceRecord_alike halike _ _ _ _, ?_, fun honly => ?_, fun hnone => ?_⟩
  · rintro ⟨rfl, rfl⟩
    exact htraced
  · rintro ⟨rfl, rfl⟩
    exact htraced'
  · rintro bound rfl
    cases halike
    exact ⟨hloads.name_eq rfl, hloads'.name_eq rfl⟩
  -- with no other such declaration the record keeps its conversions
  · obtain rfl := honly d' hd' hroot.hash_eq
    exact Assembly.sourceRecord_kept _ _ _ _ _
  -- without any other chart on this source the whole record is the same
  · obtain ⟨hsame, hsole⟩ := hroot.sole fun k' hk' hmem => by
      obtain ⟨d₁, hd₁, hhash⟩ := hothers k' hk' _ hmem
      exact hnone d₁ hd₁ hhash
    have hi' := hroot.mem
    rw [hsame] at hi' ⊢
    rw [Assembly.sourceRecord_name]
    exact h.sourceRecord_of_sole hi hi' hsole _ _

end Beside

/-- A layer without data of charts that each compile compiles, and the charts do not interfere:
    whatever one of them asks for comes from the same data by the same steps as when it is compiled
    alone, and with the same conversions unless another one declares the same data. -/
theorem compileChart_layer {options : CompilerOptions} {header : ChartHeader}
    {children : List Chart} (hd : header.data = none)
    (ha : Analysis.analyze (.layer header children) = .ok ())
    (hnames : (Chart.layer header children).NamesApart)
    (hhashes : (Chart.layer header children).HashesApart)
    (halone : ∀ c ∈ children, ∃ own, compileChart options c = .ok own) :
    ∃ data, compileChart options (.layer header children) = .ok data ∧
      ∀ before c after, children = before ++ c :: after →
        ∀ own, compileChart options c = .ok own → ∀ name ∈ c.wantedNames,
          ∃ d ∈ c.declarations, ∃ base base' steps,
            own.Agree data name d (Chart.layer header children).declarations
              ((before ++ after).flatMap Chart.declarations) base base' steps := by
  have hbuilds : ∀ c ∈ children, ∃ own, Building.ofChart c = .ok own := by
    intro c hc
    obtain ⟨own, hown⟩ := halone c hc
    obtain ⟨ownBuilt, _, hself⟩ := compileChart_inv hown
    exact ⟨ownBuilt, hself.built_eq⟩
  obtain ⟨built, copies, hbuilt, hhosts, hcopies, hroots⟩ := Building.ofChart_layer hd hbuilds
  -- the passes end for each copy, as they do for the chart alone
  have hends : ∀ k ∈ copies, options.Ends k.stages := by
    intro k hk
    obtain ⟨c, hc, ownBuilt, hownBuilt, hstages⟩ := exists_mem_of_forall₂ hcopies.flip hk
    obtain ⟨own, hown⟩ := halone c hc
    obtain ⟨ownBuilt', _, hself⟩ := compileChart_inv hown
    obtain rfl := Except.ok.inj (hownBuilt.symm.trans hself.built_eq)
    rw [hstages]
    exact hself.ends
  -- so they end for all copies side by side
  have hall : options.Ends built.flow.stages := by
    obtain ⟨passes, hpasses, hparse⟩ := options.exists_passes
    simp only [CompilerOptions.Ends, hpasses] at hends ⊢
    exact hhosts.ends hparse hends
  obtain ⟨data, hdata⟩ := compileChart_of_ends ha hbuilt hall
  refine ⟨data, hdata, ?_⟩
  rintro before c after rfl own hown name hname
  have hc : c ∈ before ++ c :: after := by simp
  have hn := Analysis.nodup_names_of_analyzeAfter ha
  obtain ⟨built', flow, hside⟩ := compileChart_inv hdata
  obtain rfl := Except.ok.inj (hbuilt.symm.trans hside.built_eq)
  obtain ⟨ownBuilt, ownFlow, hself⟩ := compileChart_inv hown
  obtain ⟨kb, k, ka, rfl, hkb, ⟨ownBuilt', hownBuilt, hstages⟩, hka⟩ :=
    exists_split_of_forall₂ hcopies
  obtain rfl := Except.ok.inj (hownBuilt.symm.trans hself.built_eq)
  -- one of the children, beside the copies of all others
  have hbeside : Beside options c own ownBuilt' ownFlow _ data built flow kb k ka :=
    ⟨hself, hside, hhosts, hstages, hends, hroots kb k ka rfl, Chart.declarations_subset hd hc⟩
  refine hbeside.agree hhashes (hself.nodup_names ?_ (hnames.of_layer hd hc))
    (hside.nodup_names hn hnames) (fun k' hk' hash hmem => ?_) hname
  · exact hn.sublist ((Chart.charts_sublist hd hc).map _)
  · -- what another copy loads is declared in its chart
    obtain ⟨i, s, hi, rfl⟩ := Building.mem_hashes.1 hmem
    obtain ⟨c', hc', ownBuilt, hownBuilt, heq⟩ :=
      exists_mem_of_forall₂ (List.rel_append hkb hka).flip hk'
    obtain ⟨d, hdecl, rfl⟩ := Building.declared_of_head hownBuilt (heq ▸ hi)
    exact ⟨d, List.mem_flatMap.2 ⟨c', hc', hdecl⟩, rfl⟩

/-- A facet in rows, the units of which draw a number from a file. -/
def griddedFile : Chart :=
  .facet { name := "grid", data := some (.url "cars.csv" none) }
    { row := some (.named "k" .nominal) }
    (.unit { name := "bars" } .bar
      ((∅ : Encoding).insert .y (FieldDef.named "b" .quantitative)) none)

/-- A unit that draws another number from the same file, once rows are sorted out. -/
def filteredFile : Chart :=
  .unit
    { name := "points", data := some (.url "cars.csv" none),
      transforms := [.filter (.expression "datum.a > 0")] }
    .point ((∅ : Encoding).insert .x (FieldDef.named "a" .quantitative)) none

/-- A unit with a sequence of its own. -/
def ownRows : Chart :=
  .unit { name := "ticks", data := some (.values [.int 1, .int 2] none) } .tick ∅ none

/-- The rows of the facet's bars are made alike, alone and beside a unit that shares their file. -/
theorem compileChart_layer_sharedFile : ∃ data own,
    compileChart {} (.layer {} [filteredFile, griddedFile, ownRows]) = .ok data ∧
      compileChart {} griddedFile = .ok own ∧ "bars_main" ∈ griddedFile.wantedNames ∧
      ∃ d ∈ griddedFile.declarations, ∃ base base' steps, own.Agree data "bars_main" d
        (Chart.layer {} [filteredFile, griddedFile, ownRows]).declarations
        (filteredFile.declarations ++ ownRows.declarations) base base' steps := by
  have exists_ok {ε α : Type} {r : Except ε α} (h : r.isOk = true) : ∃ a, r = .ok a := by
    cases r with
    | error e => exact absurd h (by simp [Except.isOk, Except.toBool])
    | ok a => exact ⟨a, rfl⟩
  have hdeclared : (Chart.layer {} [filteredFile, griddedFile, ownRows]).declarations =
      [.url "cars.csv" none, .url "cars.csv" none, .values [.int 1, .int 2] none] := rfl
  have hhash : Source.hashOf (.url "cars.csv" none) ≠
      Source.hashOf (.values [.int 1, .int 2] none) := by decide +kernel
  have ha : Analysis.analyze (.layer {} [filteredFile, griddedFile, ownRows]) = .ok () :=
    (exists_ok (by decide +kernel)).choose_spec
  have hnames : (Chart.layer {} [filteredFile, griddedFile, ownRows]).NamesApart := by
    intro name hname
    simp [hdeclared] at hname
  have hhashes : (Chart.layer {} [filteredFile, griddedFile, ownRows]).HashesApart := by
    rw [Chart.HashesApart, hdeclared]
    simp [hhash, hhash.symm]
  have hok : ∀ c ∈ [filteredFile, griddedFile, ownRows], (compileChart {} c).isOk = true := by
    decide +kernel
  have halone : ∀ c ∈ [filteredFile, griddedFile, ownRows], ∃ own, compileChart {} c = .ok own :=
    fun c hc => exists_ok (hok c hc)
  obtain ⟨data, hdata, hagree⟩ := compileChart_layer rfl ha hnames hhashes halone
  obtain ⟨own, hown⟩ := halone griddedFile (by simp)
  have hwanted : "bars_main" ∈ griddedFile.wantedNames := by decide +kernel
  have hbars := hagree [filteredFile] griddedFile [ownRows] rfl own hown _ hwanted
  rw [List.flatMap_append, List.flatMap_singleton, List.flatMap_singleton] at hbars
  exact ⟨data, own, hdata, hown, hwanted, hbars⟩

end ChartPipeline
