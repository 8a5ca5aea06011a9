import ChartPipeline.Proofs.Signals

/-!
# Where stages and steps come from

Each stage of a flow that is built was declared by a chart in the tree: it is the source of the
chart's data, it is in its pipeline, or it hangs below it.  What is so of these, and is kept where
stages are joined, group by more fields or convert fields, is so of all stages that are assembled,
and the steps of compiled data are steps of those.

## Key results

- `Chart.Owns.declaredBy`: what a chart declares that makes the stages it owns
- `Building.owns_of_mem`: each stage that is built was declared by a chart in the tree
- `optimizeFlow_owned`: what is so of all stages that are assembled
- `Compiler.compile_owned`: what is so of all steps of compiled data
-/

namespace ChartPipeline

/-- The stages that a chart declares itself. -/
def Chart.Owns (chart : Chart) (a : Stage) : Prop :=
  (∃ data, chart.header.data = some data ∧ a = .source (.ofData data)) ∨ a ∈ chart.pipeline ∨
    a ∈ chart.ends

/-- What a chart declares that makes stages of each kind. -/
def Stage.DeclaredBy (chart : Chart) : Stage → Prop
  | filter ps => ∃ p, ps = [p] ∧ .filter p ∈ chart.header.transforms
  | calculate text target => .calculate text target ∈ chart.header.transforms
  | nullFilter flags => nullFilter? chart = some flags
  | bin bins => Binning.ofChart? chart = .ok (some bins)
  | timeUnit formulas => TimeFormulas.ofChart? chart = some formulas
  | aggregate a => Aggregation.ofChart? chart = some a
  | positiveFilter flags => positiveFilter? chart = some flags
  | _ => True

/-- Each stage that a chart owns is of a kind that the chart declares, and as it declares it. -/
theorem Chart.Owns.declaredBy {chart : Chart} {a : Stage} (h : chart.Owns a) :
    a.DeclaredBy chart := by
  rcases h with ⟨data, -, rfl⟩ | hpipeline | hends
  · trivial
  -- the parts of a pipeline, from its conversions down to its main output
  · simp only [pipeline, List.mem_append] at hpipeline
    rcases hpipeline with ((((((hparse | htransform) | hnull) | hbin) | htime) | hraw) | hunit) | hmain
    · obtain ⟨_, -, rfl⟩ := List.mem_map.1 hparse
      trivial
    · obtain ⟨t, ht, rfl⟩ := List.mem_map.1 htransform
      cases t with
      | filter p => exact ⟨p, rfl, ht⟩
      | calculate text output => exact ht
    · obtain ⟨flags, hflags, rfl⟩ := List.mem_map.1 hnull
      exact Option.mem_toList.1 hflags
    · obtain ⟨bins, hbins, rfl⟩ := List.mem_map.1 hbin
      cases hchart : Binning.ofChart? chart with
      | error fault => simp [hchart, Except.toOption] at hbins
      | ok found =>
        obtain rfl : found = some bins := by simpa [hchart, Except.toOption] using hbins
        exact hchart
    · obtain ⟨formulas, hformulas, rfl⟩ := List.mem_map.1 htime
      exact Option.mem_toList.1 hformulas
    · obtain rfl := List.mem_singleton.1 hraw
      trivial
    · split at hunit
      -- only a unit groups rows
      · simp only [List.mem_append] at hunit
        rcases hunit with ((hagg | hsort) | hstack) | hpositive
        · obtain ⟨aggregation, haggregation, rfl⟩ := List.mem_map.1 hagg
          exact Option.mem_toList.1 haggregation
        · obtain ⟨_, -, rfl⟩ := List.mem_map.1 hsort
          trivial
        · obtain ⟨_, -, rfl⟩ := List.mem_map.1 hstack
          trivial
        · obtain ⟨flags, hflags, rfl⟩ := List.mem_map.1 hpositive
          exact Option.mem_toList.1 hflags
      · exact absurd hunit List.not_mem_nil
    · obtain rfl := List.mem_singleton.1 hmain
      trivial
  · rw [ends, List.mem_append] at hends
    rcases hends with hheader | hfacet
    · obtain ⟨_, -, hheader⟩ := List.mem_flatMap.1 hheader
      obtain ⟨_, -, rfl⟩ := List.mem_map.1 hheader
      trivial
    · obtain ⟨_, -, rfl⟩ := List.mem_map.1 hfacet
      trivial

namespace Building

variable {st st' : Building} {chart : Chart} {inherited : Option Nat}
  {outer : Option (List Stage)} {P : Nat → Prop} {c : Component} {first begin stages : List Stage}
  {head : Nat}

/-- A chart owns all stages that are put into the flow for it. -/
theorem Raised.owns (h : Raised P outer inherited chart st c st' first begin stages head) :
    ∀ a ∈ first ++ (stages ++ chart.ends), chart.Owns a := by
  intro a ha
  simp only [List.mem_append] at ha
  rcases ha with ha | ha | ha
  · obtain ⟨data, hdata, rfl⟩ := List.mem_map.1 (h.first_sublist.subset ha)
    exact .inl ⟨data, Option.mem_toList.1 hdata, rfl⟩
  -- what is above its dataset and below it are the two halves of its pipeline
  · refine .inr (.inl ?_)
    obtain ⟨-, hb, hafter⟩ := h.chain
    rw [Chart.pipeline_eq hb hafter]
    simpa using ha
  · exact .inr (.inr ha)

/-- Each stage that is built was declared by a chart in the tree. -/
theorem owns_of_mem (h : ofChart chart = .ok st) :
    ∀ e ∈ st.flow.stages.toList, ∃ c ∈ chart.charts, c.Owns e.2 := by
  -- by induction on the charts that are built; each puts its own stages into the flow
  obtain ⟨stages, notes, hext, hall⟩ := (builds_of_ofChart h).extends_forall ready_empty
    (C := fun c => c.charts ⊆ chart.charts) (Q := fun a => ∃ c ∈ chart.charts, c.Owns a)
    (List.forall_mem_singleton.2 (List.Subset.refl _))
    (fun _ hc _ hd => List.Subset.trans (Chart.charts_subset_of_mem_children hd) hc)
    fun hraised hc a ha => ⟨_, hc (Chart.mem_charts _), hraised.owns a ha⟩
  have hcontents : (st.flow.stages.toList.map Prod.snd).Perm stages :=
    hext.perm_contents ready_empty.sound
  exact fun e he => hall e.2 (hcontents.mem_iff.1 (List.mem_map_of_mem he))

end Building

variable {chart : Chart} {built : Building} {options : CompilerOptions} {flow : Flow}
  {P : Stage → Prop}

/-- What is so of the stages that the charts in a tree declare, and kept by the moves of passes, is
    so of the stages that are assembled. -/
theorem optimizeFlow_owned (hb : Building.ofChart chart = .ok built)
    (hrun : options.optimizeFlow built.flow = (.ok (), flow)) (hP : Stage.Hereditary P)
    (howned : ∀ c ∈ chart.charts, ∀ a, c.Owns a → P a) : ∀ e ∈ flow.stages.toList, P e.2 := by
  -- it is so of what is built, and so of what the moves make of that
  refine optimizeFlow_forall hb hrun hP fun e he => ?_
  obtain ⟨c, hc, ha⟩ := Building.owns_of_mem hb e he
  exact howned c hc e.2 ha

/-- What follows for the steps of stages from what is so of the stages, and is so of steps that load
    data, is so of all steps of compiled data. -/
theorem Compiler.compile_owned {compiler : Compiler} {data : CompiledData} {Q : Step → Prop}
    (h : (compiler.compile chart).1 = .ok data) (hP : Stage.Hereditary P)
    (howned : ∀ c ∈ chart.charts, ∀ a, c.Owns a → P a)
    (hsteps : ∀ a, P a → ∀ step ∈ a.steps ++ a.headerSteps, Q step)
    (hload : ∀ params, Q (.sequence params)) : ∀ r ∈ data.records, ∀ step ∈ r.steps, Q step := by
  obtain ⟨-, built, flow, earlier, st, flow', hb, hrun, hassemble⟩ := compile_inv h
  exact Flow.forall_steps_of_assembleAfter (optimizeFlow_nodup hb hrun) hassemble hload
    fun e he => hsteps e.2 (optimizeFlow_owned hb hrun hP howned e he)

end ChartPipeline
