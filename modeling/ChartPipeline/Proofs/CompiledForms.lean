import ChartPipeline.Proofs.Catalog
import ChartPipeline.Proofs.FiniteStages

/-!
# What is compiled comes back from its JSON form

Assembling only collects the steps of stages into records.  The JSON form of the steps of
finite stages tells everything about them: bins have finite numbers, and a stack sorts by as many
fields as it gives directions for.  So what a chart with finite floats compiles to comes back from its form.

## Key results

- `Assembly.Descends.faithful`, `Assembly.Grows.faithful`: what walking finite trees makes
- `Compiler.decode_toJson_compile`: compiled data come back from their JSON form
-/

namespace ChartPipeline

/-- What is so of the steps of a binning: of the one for its extent, unless this is fixed, of the
    bins and of their label. -/
theorem BinEntry.forall_steps {Q : Step → Prop} {e : BinEntry}
    (hextent : ∀ name, e.step.extent = .signal name → Q (.extent e.step.field name))
    (hbin : Q (.bin e.step)) (hlabel : ∀ label ∈ e.label, Q (.formula label.1 label.2)) :
    ∀ step ∈ e.steps, Q step := by
  rw [steps, List.forall_mem_append, List.forall_mem_cons, List.forall_mem_map]
  refine ⟨?_, hbin, fun label hmem => hlabel label (Option.mem_toList.1 hmem)⟩
  cases he : e.step.extent with
  | signal name => exact List.forall_mem_singleton.2 (hextent name he)
  | bounds => exact List.forall_mem_nil _

/-- The forms of the steps of a binning tell everything about them if its numbers are finite. -/
theorem BinEntry.steps_faithful {e : BinEntry} (he : e.step.Finite) :
    ∀ step ∈ e.steps, step.Faithful :=
  BinEntry.forall_steps (fun _ _ => trivial) he fun _ _ => trivial

/-- A stack sorts by every field in a direction, so that its form tells everything about it. -/
theorem Stacking.step_faithful (s : Stacking) : s.step.Faithful := List.length_map _

/-- What is so of the steps of bins and stacks, and of all steps of other kinds. -/
theorem Stage.forall_steps {Q : Step → Prop} {a : Stage} (hfilter : ∀ text, Q (.filter text))
    (hformula : ∀ text output, Q (.formula text output))
    (haggregate : ∀ groupby fields ops outputs, Q (.aggregate groupby fields ops outputs))
    (hcollect : ∀ sort, Q (.collect sort)) (hstack : ∀ s : Stacking, Q s.step)
    (hbin : ∀ bins, a = .bin bins → ∀ step ∈ bins.steps, Q step) : ∀ step ∈ a.steps, Q step := by
  cases a with
  | bin bins => exact hbin bins rfl
  | filter | calculate | aggregate | order | stack =>
    rw [steps, List.forall_mem_singleton]
    apply_assumption
  | nullFilter flags =>
    intro step hstep
    rw [steps, Option.mem_toList, nullFilterStep?] at hstep
    split at hstep
    · exact absurd hstep (by simp)
    · obtain rfl := Option.some.inj hstep
      exact hfilter _
  | timeUnit formulas =>
    rw [steps, TimeFormulas.steps, List.forall_mem_map]
    exact fun _ _ => hformula _ _
  | positiveFilter flags =>
    rw [steps, positiveFilterSteps, List.forall_mem_map]
    exact fun _ _ => hfilter _
  | source | parse | output | facetHeader | facet =>
    rw [steps]
    exact List.forall_mem_nil _

/-- The forms of the steps of a finite stage tell everything about them. -/
theorem Stage.steps_faithful {a : Stage} (ha : a.Finite) : ∀ step ∈ a.steps, step.Faithful := by
  apply Stage.forall_steps (fun _ => trivial) (fun _ _ => trivial) (fun _ _ _ _ => trivial)
    (fun _ => trivial) Stacking.step_faithful
  rintro bins rfl
  rw [Binning.steps, List.forall_mem_flatMap]
  exact fun e he => BinEntry.steps_faithful (ha e he)

/-- A record without inline rows only has its steps to tell. -/
theorem DatasetRecord.Faithful.of_steps {r : DatasetRecord} (hv : r.values = none)
    (hs : ∀ step ∈ r.steps, step.Faithful) : r.Faithful :=
  ⟨fun rows hrows => absurd (hv ▸ hrows) (Option.not_mem_none rows), hs⟩

/-- The record that loads finite data tells everything about them. -/
theorem Source.record_faithful {s : Source} (hs : s.data.Finite) (name : String) :
    (s.record name).Faithful := by
  obtain ⟨data, hash⟩ := s
  cases data with
  | values rows format =>
    refine ⟨fun rows' hrows => ?_, List.forall_mem_nil _⟩
    obtain rfl := Option.some.inj hrows
    exact hs
  | url | named => exact .of_steps rfl (List.forall_mem_nil _)
  | sequence params => exact .of_steps rfl (List.forall_mem_singleton.2 hs)

/-- Pending steps whose forms tell everything about them. -/
def Pending.Faithful (p : Pending) : Prop := ∀ step ∈ p.steps, step.Faithful

/-- Where no steps are pending there is nothing to tell. -/
theorem Pending.faithful_source (source : String) : Pending.Faithful { source } :=
  List.forall_mem_nil _

namespace Assembly

variable {p q : Pending} {st st' st₁ : Assembly} {name : String} {id : Nat} {stage : Stage}
  {children f : Forest Stage} {underSource : Bool}

/-- The records made so far have forms that tell everything, and what is put off is finite. -/
structure Faithful (st : Assembly) : Prop where
  records : ∀ r ∈ st.records, r.Faithful
  deferred : ∀ d ∈ st.deferred, ∀ e ∈ d.stages.toList, e.2.Finite

/-- A record of steps that tell everything tells everything. -/
theorem derived_faithful {source : String} {steps : List Step}
    (h : ∀ step ∈ steps, step.Faithful) : (DatasetRecord.derived name source steps).Faithful :=
  .of_steps rfl h

/-- One more such record may be made. -/
theorem Faithful.emit {r : DatasetRecord} (hst : st.Faithful) (hr : r.Faithful) :
    ∀ r' ∈ st.records ++ [r], r'.Faithful :=
  List.forall_mem_append.2 ⟨hst.records, List.forall_mem_singleton.2 hr⟩

/-- So may the record of pending steps. -/
theorem Materializes.faithful (h : Materializes p st name st') (hp : p.Faithful)
    (hst : st.Faithful) : st'.Faithful := by
  cases h with
  | same => exact hst
  | record => exact ⟨hst.emit (derived_faithful hp), hst.deferred⟩

/-- Where the flow forks, the steps so far are told before the way goes on. -/
theorem Forks.faithful (h : Forks children p st q st') (hp : p.Faithful) (hst : st.Faithful) :
    q.Faithful ∧ st'.Faithful := by
  cases h with
  | only => exact ⟨hp, hst⟩
  | several _ hm => exact ⟨Pending.faithful_source _, hm.faithful hp hst⟩

/-- A stage that is entered adds steps, a record or trees that are put off, all of which are finite
    if it is. -/
theorem Enters.faithful {r : Option Pending} (h : Enters underSource id children p st stage r st')
    (ha : stage.Finite) (hc : ∀ e ∈ children.toList, e.2.Finite) (hp : p.Faithful)
    (hst : st.Faithful) : (∀ q ∈ r, q.Faithful) ∧ st'.Faithful := by
  cases h with
  | parse => exact ⟨fun q hq => Option.mem_some.1 hq ▸ hp, hst⟩
  | facet hm =>
    have hst₁ := hm.faithful hp hst
    exact ⟨fun q hq => absurd hq (Option.not_mem_none q), hst₁.records,
      List.forall_mem_append.2 ⟨hst₁.deferred, List.forall_mem_singleton.2 hc⟩⟩
  | @header header _ =>
    have hsteps : ∀ step ∈ p.steps ++ [header.step], step.Faithful :=
      List.forall_mem_append.2 ⟨hp, List.forall_mem_singleton.2 trivial⟩
    exact ⟨fun q hq => absurd hq (Option.not_mem_none q), hst.emit (derived_faithful hsteps),
      hst.deferred⟩
  | output hm =>
    have hst₁ := hm.faithful hp hst
    refine ⟨fun q hq => ?_, hst₁.emit (derived_faithful (List.forall_mem_nil _)), hst₁.deferred⟩
    exact Option.mem_some.1 hq ▸ Pending.faithful_source _
  | plain =>
    refine ⟨fun q hq => ?_, hst⟩
    obtain rfl := Option.mem_some.1 hq
    exact List.forall_mem_append.2 ⟨hp, Stage.steps_faithful ha⟩

/-- Walking finite trees makes records that tell everything. -/
theorem Descends.faithful (h : Descends underSource f p st st')
    (hf : ∀ e ∈ f.toList, e.2.Finite) (hp : p.Faithful) (hst : st.Faithful) : st'.Faithful := by
  -- the induction is on the walk: where it stops at a stage the trees below are not walked, but put
  -- off
  induction h with
  | nil => exact hst
  | stop he _ ih =>
    simp only [Forest.toList, List.forall_mem_cons, List.forall_mem_append] at hf
    exact ih hf.2.2 hp (he.faithful hf.1 hf.2.1 hp hst).2
  | enter he hfork _ _ ihc ihr =>
    simp only [Forest.toList, List.forall_mem_cons, List.forall_mem_append] at hf
    obtain ⟨hq, hst₁⟩ := he.faithful hf.1 hf.2.1 hp hst
    obtain ⟨hq', hst₂⟩ := hfork.faithful (hq _ rfl) hst₁
    exact ihr hf.2.2 hp (ihc hf.2.1 hq' hst₂)

/-- The record of a source tells everything, with the conversions that it takes over. -/
theorem sourceRecord_faithful {source : Source} (hs : source.data.Finite) (name : String)
    (children : Forest Stage) : (sourceRecord source name children).Faithful := by
  have hr := Source.record_faithful hs name
  unfold sourceRecord
  dsimp only
  split
  · exact ⟨hr.values, hr.steps⟩
  · exact hr

/-- So does every record that is made for the trees of a flow. -/
theorem Grows.faithful (h : Grows f st st') (hf : ∀ e ∈ f.toList, e.2.Finite)
    (hst : st.Faithful) : st'.Faithful := by
  induction h with
  | nil => exact hst
  | @tree id source children rest name q st st₁ st₂ st₃ st' hn hfork hc _ ih =>
    simp only [Forest.toList, List.forall_mem_cons, List.forall_mem_append] at hf
    obtain ⟨hsource, hchildren, hrest⟩ := hf
    have hst₁ : st₁.Faithful := by
      cases hn with
      | own => exact hst
      | numbered => exact ⟨hst.records, hst.deferred⟩
    have hrecord := sourceRecord_faithful hsource name children
    obtain ⟨hq, hst₂⟩ := hfork.faithful (Pending.faithful_source name)
      ⟨hst₁.emit hrecord, hst₁.deferred⟩
    exact ih hrest (hc.faithful hchildren hq hst₂)

/-- And so do the records made for the facets that were put off. -/
theorem Resumes.faithful {n : Nat} {data : List FacetData} (h : Resumes n st data st')
    (hst : st.Faithful) : ∀ f ∈ data, ∀ r ∈ f.datasets, r.Faithful := by
  induction h with
  | out | done => exact fun f hf => absurd hf (by simp)
  | facet h hfork hd _ ih =>
    -- the list of records starts over, and the other facets are still put off
    obtain ⟨hstages, hrest⟩ := List.forall_mem_cons.1 (h ▸ hst.deferred)
    obtain ⟨hq, hst₁⟩ := hfork.faithful (Pending.faithful_source _) ⟨List.forall_mem_nil _, hrest⟩
    have hst₂ := hd.faithful hstages hq hst₁
    exact List.forall_mem_cons.2 ⟨hst₂.records, ih hst₂⟩

end Assembly

/-- Finite stages are assembled to data whose form tells everything about them. -/
theorem Flow.assembleAfter_faithful {flow flow' : Flow} {earlier st : Assembly}
    {data : CompiledData} (h : flow.assembleAfter earlier = (.ok data, st, flow'))
    (hf : ∀ e ∈ flow.stages.toList, e.2.Finite) : data.Faithful := by
  obtain ⟨hall, -⟩ := assembleAfter_ok h
  obtain ⟨st₁, hgrows, hdatasets, hresumes⟩ := Assembly.all_ok hall
  have hempty : (earlier.reset flow).Faithful := ⟨List.forall_mem_nil _, List.forall_mem_nil _⟩
  have hst := hgrows.faithful hf hempty
  exact ⟨hdatasets ▸ hst.records, hresumes.faithful hst⟩

namespace Compiler

variable {compiler : Compiler} {chart : Chart} {data : CompiledData}

/-- What a chart with finite floats compiles to, under any options, comes back from its JSON form,
    wherever this stands: as it is written, and with the names of every object in order. -/
theorem decode_toJson_compile (h : (compiler.compile chart).1 = .ok data) (hc : chart.Finite)
    (place : Place) : CompiledData.decode place (.ofJson data.toJson) = some data ∧
      ∃ j, (Value.ofJson data.toJson).toJson? = some j ∧
        CompiledData.decode place (.ofJson j) = some data := by
  obtain ⟨-, built, flow, earlier, st, flow', hbuilt, hrun, hassemble⟩ := compile_inv h
  have hfinite := optimizeFlow_finite hbuilt hrun hc
  exact CompiledData.decode_ofJson_toJson (Flow.assembleAfter_faithful hassemble hfinite) place

/-- Stacked bars of bins within bounds, by colours that are bins as well. -/
def boundedBars : Chart :=
  .unit { name := "bars" } .bar
    ⟨[(.x, (FieldDef.named "x" .quantitative).withBin (.params { extent := some (0, 10) })),
      (.y, .count), (.color, (FieldDef.named "y" .quantitative).withBin (.flag true))],
      by simp; decide⟩
    (some { fieldChannel := .y, groupbyChannel := some .x, stackBy := [.color] })

/-- The bars in cells by `k`, beside a line of numbers that are counted. -/
def stackedCells : Chart :=
  .layer { name := "all" }
    [.facet
      { name := "cells"
        data := some (.values [.obj [("k", .str "a"), ("x", .float 0.5)]]
          (some { type := some "json" }))
        transforms := [.filter (.expression "datum.x"), .calculate "datum.x * 2" "y"] }
      { row := some (.named "k" .nominal) } boundedBars,
    .unit
      { name := "wave", data := some (.sequence { start := 0, stop := 1.5, step := some 0.5 }) }
      .line ⟨[(.x, .named "data" .quantitative)], by simp⟩ none]

/-- A compiler that leaves aggregations and stacks in the partitions of facets. -/
def partitioning : Compiler := { options := { facetPolicy := .keepPartitioned } }

/-- The bounds of the bars are finite. -/
theorem boundedBars_finite : boundedBars.Finite := by
  have hbounded : BinParams.Finite { extent := some (0, 10) } := by
    refine ⟨fun bounds hb => ?_, nofun, nofun, nofun, nofun⟩
    obtain rfl := Option.mem_some.1 hb
    exact ⟨by decide, by decide⟩
  refine ⟨⟨nofun, nofun⟩, fun e he => ?_⟩
  simp only [List.mem_cons, List.not_mem_nil, or_false] at he
  rcases he with rfl | rfl | rfl
  · intro bin hbin
    obtain rfl := Option.mem_some.1 hbin
    exact hbounded
  · exact nofun
  · intro bin hbin
    obtain rfl := Option.mem_some.1 hbin
    trivial

/-- So are all numbers of the cells and of the line beside them. -/
theorem stackedCells_finite : stackedCells.Finite := by
  have hunbinned (field : String) (type : FieldType) : (FieldDef.named field type).Finite :=
    fun bin hbin => absurd hbin (Option.not_mem_none bin)
  rw [stackedCells, Chart.Finite, Chart.AllFinite, Chart.AllFinite, Chart.AllFinite]
  refine ⟨⟨fun data hd => absurd hd (Option.not_mem_none data), List.forall_mem_nil _⟩,
    ⟨⟨fun data hd => ?_, fun t ht => ?_⟩,
      ⟨fun d hd => ?_, fun d hd => absurd hd (Option.not_mem_none d)⟩, boundedBars_finite⟩,
    ⟨⟨fun data hd => ?_, List.forall_mem_nil _⟩, fun e he => ?_⟩, trivial⟩
  · obtain rfl := Option.mem_some.1 hd
    have hnames : "k" < "x" := by decide +kernel
    have hhalf : FloatText.finite 0.5 = true := by decide
    have hrow : Json.IsFree (.obj [("k", .str "a"), ("x", .float 0.5)]) :=
      ⟨List.pairwise_pair.2 hnames, trivial, hhalf, trivial⟩
    exact List.forall_mem_singleton.2 hrow
  · simp only [List.mem_cons, List.not_mem_nil, or_false] at ht
    rcases ht with rfl | rfl <;> trivial
  · obtain rfl := Option.mem_some.1 hd
    exact hunbinned "k" .nominal
  · obtain rfl := Option.mem_some.1 hd
    refine ⟨by decide, by decide, fun x hx => ?_⟩
    obtain rfl := Option.mem_some.1 hx
    decide
  · obtain rfl := List.mem_singleton.1 he
    exact hunbinned "data" .quantitative

/-- Bins of both kinds, a sequence and a facet with records of its own come back. -/
theorem decode_toJson_compile_stackedCells : ∃ data,
    (partitioning.compile stackedCells).1 = .ok data ∧ stackedCells.Finite ∧
      CompiledData.decode .json (.ofJson data.toJson) = some data ∧
      ∃ j, (Value.ofJson data.toJson).toJson? = some j ∧
        CompiledData.decode .json (.ofJson j) = some data := by
  have hok : (partitioning.compile stackedCells).1.isOk = true := by decide +kernel
  cases h : (partitioning.compile stackedCells).1 with
  | error e => rw [h] at hok; exact absurd hok (by simp [Except.isOk, Except.toBool])
  | ok data =>
    exact ⟨data, rfl, stackedCells_finite, decode_toJson_compile h stackedCells_finite .json⟩

end Compiler

end ChartPipeline
