import ChartPipeline.Proofs.Growing
import ChartPipeline.Proofs.Naming

/-!
# Records stand for the ways through a flow

A record follows the record it is made from.  Going back from the record of an output to the
record of its source, the steps on the way are those of the stages above the output: none is lost
where the flow forks or where a record is made in between, none is done twice, and none comes from
another branch.  Inside a facet the same holds from the facet on.

## Key results

- `Assembly.Descends.reached`, `Assembly.Resumes.reached`: what walking trees and facets reaches
- `assembleAfter_linear`: the records of an assembled flow stand for its ways
-/

namespace ChartPipeline

/-- The steps on the way from a base to a dataset, following sources in a list of records. -/
inductive Traces (records : List DatasetRecord) (base : String) : String → List Step → Prop
  | base : Traces records base base []
  | record {r : DatasetRecord} {source : String} {steps : List Step} (hr : r ∈ records)
      (hs : r.source = some source) (h : Traces records base source steps) :
      Traces records base r.name (steps ++ r.steps)

namespace Traces

variable {records records' : List DatasetRecord} {base name source : String} {steps steps' : List Step}

/-- More records trace what fewer do. -/
theorem mono (h : Traces records base name steps) (hsub : records ⊆ records') :
    Traces records' base name steps := by
  induction h with
  | base => exact .base
  | record hr hs _ ih => exact .record (hsub hr) hs ih

/-- A record made from a dataset goes on with its own steps. -/
theorem derived (h : Traces records base source steps)
    (hr : .derived name source steps' ∈ records) : Traces records base name (steps ++ steps') :=
  .record hr rfl h

/-- Where names are distinct and the base is made from nothing, the steps to a dataset are
    determined. -/
theorem unique (hn : (records.map DatasetRecord.name).Nodup)
    (hb : ∀ r ∈ records, r.name = base → r.source = none) (h : Traces records base name steps)
    (h' : Traces records base name steps') : steps = steps' := by
  induction h generalizing steps' with
  | base =>
    -- a record with the name of the base would be made from nothing
    generalize hname : base = n at h'
    cases h' with
    | base => rfl
    | record hr hs => exact absurd (hs.symm.trans (hb _ hr hname.symm)) (by simp)
  | @record r source steps hr hs _ ih =>
    generalize hname : r.name = n at h'
    cases h' with
    | base => exact absurd (hs.symm.trans (hb _ hr hname)) (by simp)
    | @record r' source' steps' hr' hs' h' =>
      obtain rfl : r = r' := List.inj_on_of_nodup_map hn hr hr' hname
      obtain rfl : source = source' := Option.some.inj (hs.symm.trans hs')
      rw [ih h']

end Traces

/-- The steps of the stages on a way. -/
def stepsOn (w : List (Nat × Stage)) : List Step := w.flatMap fun e => e.2.steps

@[simp] theorem stepsOn_nil : stepsOn [] = [] := rfl

/-- The steps of a way begin with those of its first stage. -/
@[simp] theorem stepsOn_cons (e : Nat × Stage) (w : List (Nat × Stage)) :
    stepsOn (e :: w) = e.2.steps ++ stepsOn w := by
  simp [stepsOn]

/-- Whether a stage is a facet. -/
def Stage.isFacet (a : Stage) : Bool := a.tag = .facet

/-! ### What is reached -/

open Forest

/-- What is reached at a place, from a base on: the dataset that its stage came out as and the
    steps to there.  A facet is to be put off. -/
def Forest.Place.Reached (records : List DatasetRecord) (resolved : List (Nat × String))
    (putOff : Partition → String → Prop) (base : String) (steps : List Step) (v : Place Stage) :
    Prop :=
  match v.content with
  | .output name _ => ∃ source, (v.id, source) ∈ resolved ∧ .derived name source [] ∈ records ∧
      Traces records base source steps
  | .facetHeader header => (v.id, header.name) ∈ resolved ∧
      (∃ source own, .derived header.name source (own ++ [header.step]) ∈ records) ∧
      Traces records base header.name (steps ++ [header.step])
  | .facet partition => ∃ source, (v.id, source) ∈ resolved ∧ putOff partition source ∧
      Traces records base source steps
  | _ => True

/-- With more records, more stages that came out and more facets put off, as much is reached. -/
theorem Forest.Place.Reached.mono {records records' : List DatasetRecord}
    {resolved resolved' : List (Nat × String)} {putOff putOff' : Partition → String → Prop}
    {base : String} {steps : List Step} {v : Place Stage}
    (h : v.Reached records resolved putOff base steps) (hrec : records ⊆ records')
    (hres : resolved ⊆ resolved') (hput : ∀ p s, putOff p s → putOff' p s) :
    v.Reached records' resolved' putOff' base steps := by
  obtain ⟨above, id, content⟩ := v
  -- each part only says that something is there
  cases content with
  | output name required =>
    obtain ⟨source, hs, hr, ht⟩ := h
    exact ⟨source, hres hs, hrec hr, ht.mono hrec⟩
  | facetHeader header =>
    obtain ⟨hs, ⟨source, own, hr⟩, ht⟩ := h
    exact ⟨hres hs, ⟨source, own, hrec hr⟩, ht.mono hrec⟩
  | facet partition =>
    obtain ⟨source, hs, hp, ht⟩ := h
    exact ⟨source, hres hs, hput _ _ hp, ht.mono hrec⟩
  | _ => trivial

namespace Assembly

variable {p q : Pending} {st st₁ st₂ st' : Assembly} {name base : String} {id : Nat}
  {stage : Stage} {children f : Forest Stage} {underSource : Bool} {steps : List Step}
  {old : List (Nat × String)}

/-- A facet that was put off, with the dataset that it partitions. -/
def PutOff (st : Assembly) (partition : Partition) (source : String) : Prop :=
  ∃ d ∈ st.deferred, d.partition = partition ∧ d.source = source

/-- What stages came out as since `old` was noted. -/
def Since (old : List (Nat × String)) (st : Assembly) (resolved : List (Nat × String)) : Prop :=
  st.resolved = resolved ++ old

/-- What is reached at a place when the state is as said. -/
def Reached (old : List (Nat × String)) (st : Assembly) (base : String) (steps : List Step)
    (v : Place Stage) : Prop :=
  ∃ resolved, Since old st resolved ∧ v.Reached st.records resolved st.PutOff base steps

/-- What came out before is noted after what comes out next. -/
theorem Since.of_progress {names : List String} {ids : List Nat} {resolved : List (Nat × String)}
    (h : Since old st resolved) (hp : Progress names ids st st') :
    ∃ resolved', Since old st' resolved' ∧ resolved ⊆ resolved' := by
  obtain ⟨records, deferred, more, hp⟩ := hp
  refine ⟨more ++ resolved, ?_, List.subset_append_right _ _⟩
  rw [Since, hp.resolved_eq, h, List.append_assoc]

/-- The records made before are still there. -/
theorem Progress.records_subset {names : List String} {ids : List Nat}
    (h : Progress names ids st st') : st.records ⊆ st'.records := by
  obtain ⟨records, deferred, resolved, h⟩ := h
  rw [h.records_eq]
  exact List.subset_append_left _ _

/-- So are the facets put off before. -/
theorem Progress.putOff {names : List String} {ids : List Nat} (h : Progress names ids st st')
    {d : Deferred} (hd : d ∈ st.deferred) : d ∈ st'.deferred := by
  obtain ⟨records, deferred, resolved, h⟩ := h
  rw [h.deferred_eq]
  exact List.mem_append_left _ hd

/-- What is reached stays reached. -/
theorem Reached.of_progress {names : List String} {ids : List Nat} {v : Place Stage}
    (h : Reached old st base steps v) (hp : Progress names ids st st') :
    Reached old st' base steps v := by
  obtain ⟨resolved, hold, h⟩ := h
  obtain ⟨resolved', hold', hsub⟩ := hold.of_progress hp
  refine ⟨resolved', hold', h.mono hp.records_subset hsub ?_⟩
  rintro p s ⟨d, hd, hpart, hs⟩
  exact ⟨d, hp.putOff hd, hpart, hs⟩

/-- The steps to a dataset stay what they are. -/
theorem traces_of_progress {names : List String} {ids : List Nat}
    (h : Traces st.records base name steps) (hp : Progress names ids st st') :
    Traces st'.records base name steps := h.mono hp.records_subset

/-- The pending steps stand at the end of a way from the base. -/
structure Stands (old : List (Nat × String)) (st : Assembly) (base : String) (p : Pending)
    (steps : List Step) : Prop where
  since : ∃ resolved, Since old st resolved
  traces : ∃ before, Traces st.records base p.source before ∧ before ++ p.steps = steps

/-- Without pending steps the way ends at a record. -/
theorem stands_source (hold : ∃ resolved, Since old st resolved)
    (h : Traces st.records base name steps) : Stands old st base { source := name } steps :=
  ⟨hold, steps, h, List.append_nil _⟩

/-- The pending steps stand where they did. -/
theorem Stands.of_progress {names : List String} {ids : List Nat}
    (h : Stands old st base p steps) (hp : Progress names ids st st') :
    Stands old st' base p steps := by
  obtain ⟨⟨resolved, hold⟩, before, ht, hsteps⟩ := h
  obtain ⟨resolved', hold', -⟩ := hold.of_progress hp
  exact ⟨⟨resolved', hold'⟩, before, traces_of_progress ht hp, hsteps⟩

/-- The record that is made carries the pending steps. -/
theorem Materializes.traces (h : Materializes p st name st') (hp : Stands old st base p steps) :
    Traces st'.records base name steps := by
  obtain ⟨-, before, ht, rfl⟩ := hp
  cases h with
  | same hnone =>
    rw [hnone, List.append_nil]
    exact ht
  | record =>
    refine Traces.derived (ht.mono ?_) ?_
    · exact List.subset_append_left _ _
    · simp

/-- Where the flow goes on, the steps are those of the way up to there. -/
theorem Forks.stands (h : Forks children p st q st') (hp : Stands old st base p steps) :
    Stands old st' base q steps := by
  have hp' := hp.of_progress h.progress
  cases h with
  | only => exact hp
  | several _ hm => exact stands_source hp'.since (hm.traces hp)

/-- A stage below which nothing goes on is reached. -/
theorem Enters.reached_stop (h : Enters underSource id children p st stage none st')
    (hp : Stands old st base p steps) : Reached old st' base steps ⟨[], id, stage⟩ := by
  cases h with
  | @facet partition source st₁ hm =>
    obtain ⟨resolved, hold⟩ := (hp.of_progress hm.progress).since
    refine ⟨(id, source) :: resolved, by simpa [Since] using hold, source, by simp, ?_, hm.traces hp⟩
    exact ⟨⟨partition, source, children⟩, by simp, rfl, rfl⟩
  | @header header hc =>
    obtain ⟨⟨resolved, hold⟩, before, ht, rfl⟩ := hp
    refine ⟨(id, header.name) :: resolved, by simpa [Since] using hold, by simp,
      ⟨p.source, p.steps, by simp⟩, ?_⟩
    rw [List.append_assoc]
    -- the record of the header has the pending steps and then its own
    refine Traces.derived (ht.mono ?_) ?_
    · exact List.subset_append_left _ _
    · simp

/-- A stage below which something goes on is reached, and its steps are done there. -/
theorem Enters.reached_enter (h : Enters underSource id children p st stage (some q) st')
    (hp : Stands old st base p steps) :
    Reached old st' base steps ⟨[], id, stage⟩ ∧ Stands old st' base q (steps ++ stage.steps) := by
  have hp' := hp.of_progress h.progress_enter
  obtain ⟨resolved', hold'⟩ := hp'.since
  -- an output begins a new dataset, and all others add their steps
  cases h with
  | parse => exact ⟨⟨resolved', hold', trivial⟩, by rwa [Stage.steps, List.append_nil]⟩
  | @output name required source st₁ hm =>
    have ht := hm.traces hp
    obtain ⟨resolved, hold⟩ := (hp.of_progress hm.progress).since
    rw [Stage.steps, List.append_nil]
    refine ⟨⟨(id, source) :: resolved, by simpa [Since] using hold, source, by simp, by simp,
      ht.mono ?_⟩, stands_source hp'.since (ht.mono ?_)⟩
    · exact List.subset_append_left _ _
    · exact List.subset_append_left _ _
  | plain hplain =>
    refine ⟨⟨resolved', hold', ?_⟩, ?_⟩
    · cases stage <;> trivial
    · obtain ⟨hsince, before, ht, rfl⟩ := hp
      exact ⟨hsince, before, ht, by simp⟩

/-- Walking trees reaches every place that is not inside a facet. -/
theorem Descends.reached (h : Descends underSource f p st st') (hp : Stands old st base p steps)
    {v : Place Stage} (hv : v ∈ f.places []) (hfacet : ∀ e ∈ v.above, e.2.isFacet = false) :
    Reached old st' base (steps ++ stepsOn v.above) v := by
  -- by the walk, as the steps up to a tree differ from place to place
  induction h generalizing steps v with
  | nil => exact absurd hv (by simp)
  | @stop underSource id stage children rest p st st₁ st' he hr ih =>
    rcases mem_places_node.1 hv with rfl | ⟨u, hu, rfl⟩ | hv
    · rw [stepsOn_nil, List.append_nil]
      exact (he.reached_stop hp).of_progress hr.progress
    · -- below such a stage is nothing, unless it is a facet
      cases he with
      | @facet partition =>
        exact absurd (hfacet (id, .facet partition) List.mem_cons_self)
          (by simp [Stage.isFacet, Stage.tag])
      | header hc =>
        subst hc
        exact absurd hu (by simp)
    · exact ih (hp.of_progress he.progress_stop) hv hfacet
  | @enter underSource id stage children rest p q q' st st₁ st₂ st₃ st' he hf hc hr ihc ihr =>
    obtain ⟨hreached, hq⟩ := he.reached_enter hp
    have hlater := hf.progress.trans (hc.progress.trans hr.progress)
    rcases mem_places_node.1 hv with rfl | ⟨u, hu, rfl⟩ | hv
    · rw [stepsOn_nil, List.append_nil]
      exact hreached.of_progress hlater
    · have hu' := ihc (hf.stands hq) hu fun e he => hfacet e (List.mem_cons_of_mem _ he)
      rw [stepsOn_cons, ← List.append_assoc]
      exact hu'.of_progress hr.progress
    · exact ihr (hp.of_progress (he.progress_enter.trans (hf.progress.trans hc.progress))) hv hfacet

/-- Walking trees puts off every facet that is not inside another one, with all that is inside. -/
theorem Descends.putOff (h : Descends underSource f p st st') {v : Place Stage}
    (hv : v ∈ f.places []) {l r : List (Nat × Stage)} {i : Nat} {partition : Partition}
    (hl : ∀ e ∈ l, e.2.isFacet = false) (habove : v.above = l ++ (i, .facet partition) :: r) :
    ∃ d ∈ st'.deferred, d.partition = partition ∧ ∃ u ∈ d.stages.places [],
      u.above = r ∧ u.id = v.id ∧ u.content = v.content := by
  induction h generalizing v l with
  | nil => exact absurd hv (by simp)
  | @stop underSource id stage children rest p st st₁ st' he hr ih =>
    rcases mem_places_node.1 hv with rfl | ⟨u, hu, rfl⟩ | hv
    · simp at habove
    · cases he with
      | @facet partition' source st₁ hm =>
        -- whether this facet is the outermost one on the way
        cases l with
        | nil =>
          obtain ⟨he, hu'⟩ := List.cons.inj habove
          obtain rfl := Stage.facet.inj (Prod.mk.inj he).2
          exact ⟨⟨partition', source, children⟩, hr.progress.putOff (by simp), rfl, u, hu, hu', rfl, rfl⟩
        | cons e l =>
          obtain ⟨rfl, -⟩ := List.cons.inj habove
          exact absurd (hl _ List.mem_cons_self) (by simp [Stage.isFacet, Stage.tag])
      | header hc =>
        subst hc
        exact absurd hu (by simp)
    · exact ih hv hl habove
  | @enter underSource id stage children rest p q q' st st₁ st₂ st₃ st' he hf hc hr ihc ihr =>
    rcases mem_places_node.1 hv with rfl | ⟨u, hu, rfl⟩ | hv
    · simp at habove
    -- the flow goes on below the stage, so it is no facet
    · cases l with
      | nil =>
        obtain ⟨hstage, -⟩ := List.cons.inj habove
        obtain rfl := (Prod.mk.inj hstage).2
        cases he with
        | plain hplain => exact absurd hplain (by simp [Stage.isPlain, Stage.tag])
      | cons e l =>
        obtain ⟨d, hd, hpart, u', hu', h⟩ := ihc hu (fun e he => hl e (List.mem_cons_of_mem _ he))
          (List.cons.inj habove).2
        exact ⟨d, hr.progress.putOff hd, hpart, u', hu', h⟩
    · exact ihr hv hl habove

/-! ### Facets -/

/-- The number of stages that are put off, with the facets themselves. -/
def weight (st : Assembly) : Nat := (st.deferred.map fun d => d.stages.size + 1).sum

/-- The state in which the walk through the first facet that was put off begins. -/
def resume (st : Assembly) (rest : List Deferred) : Assembly :=
  { st with deferred := rest, records := [] }

/-- What a facet adds once its walk is done. -/
theorem progress_of_facet {d : Deferred} {rest : List Deferred}
    (hf : Forks d.stages { source := d.partition.name } (resume st rest) q st₁)
    (hd : Descends false d.stages q st₁ st₂) :
    Progress d.stages.names d.stages.walk (resume st rest) st₂ :=
  hf.progress.trans hd.progress

/-- Walking trees puts off no more stages than are in them. -/
theorem Progress.weight_le {names : List String} {ids : List Nat} (h : Progress names ids st st') :
    weight st' ≤ weight st + ids.length := by
  obtain ⟨records, deferred, resolved, h⟩ := h
  have := h.size_le
  simp only [weight, h.deferred_eq, List.map_append, List.sum_append]
  omega

/-- One facet less, and those inside it: the bound for the rest still suffices. -/
theorem weight_of_facet {n : Nat} {d : Deferred} {rest : List Deferred}
    (h : st.deferred = d :: rest)
    (hp : Progress d.stages.names d.stages.walk (resume st rest) st₂) (hn : weight st ≤ n + 1) :
    weight st₂ ≤ n := by
  have hle := hp.weight_le
  rw [← size_eq_length_walk] at hle
  have hweight : weight st = d.stages.size + 1 + weight (resume st rest) := by
    simp [weight, h, resume]
  omega

/-- Without anything to walk through no facet was put off. -/
theorem deferred_eq_nil_of_weight (h : weight st ≤ 0) : st.deferred = [] := by
  cases hd : st.deferred with
  | nil => rfl
  | cons d rest => simp [weight, hd] at h

/-- A facet's datasets, as they come out. -/
def Comes (data : List FacetData) (partition : Partition) (source : String) : Prop :=
  ∃ d ∈ data, d.name = partition.name ∧ d.source = source ∧ d.groupby = partition.groupby

/-- Every facet that was put off comes out, with the dataset that it partitions. -/
theorem Resumes.comes {n : Nat} {data : List FacetData} (h : Resumes n st data st')
    (hn : weight st ≤ n) {partition : Partition} {source : String}
    (hput : PutOff st partition source) : Comes data partition source := by
  obtain ⟨d, hd, rfl, rfl⟩ := hput
  induction h with
  | out st => exact absurd (deferred_eq_nil_of_weight hn ▸ hd) (by simp)
  | done h => exact absurd (h ▸ hd) (by simp)
  | @facet n first rest q st st₁ st₂ st' others h hf hdesc hr ih =>
    have hp := progress_of_facet hf hdesc
    rw [h] at hd
    -- the facet is the first one, or is still put off after it
    rcases List.mem_cons.1 hd with rfl | hd
    · exact ⟨_, List.mem_cons_self, rfl, rfl, rfl⟩
    · obtain ⟨e, he, hcomes⟩ := ih (weight_of_facet h hp hn) (hp.putOff hd)
      exact ⟨e, List.mem_cons_of_mem _ he, hcomes⟩

/-- Each stage inside the facets put off comes out at most once, and those from before stay. -/
theorem Resumes.resolved {n : Nat} {data : List FacetData} (h : Resumes n st data st') :
    ∃ resolved, st'.resolved = resolved ++ st.resolved ∧ ∀ id,
      (resolved.map Prod.fst).count id ≤ (st.deferred.flatMap (·.stages.walk)).count id := by
  -- by induction on the facets, of which each resolves names of its own stages
  induction h with
  | out | done => exact ⟨[], rfl, by simp⟩
  | @facet n d rest q st st₁ st₂ st' others h hf hdesc hr ih =>
    obtain ⟨records, deferred, resolved, hp⟩ := progress_of_facet hf hdesc
    obtain ⟨resolved', heq, hcount⟩ := ih
    refine ⟨resolved' ++ resolved, ?_, fun id => ?_⟩
    · rw [heq, hp.resolved_eq, List.append_assoc]
      rfl
    · have hle := hp.ids_le id
      have hle' := hcount id
      rw [hp.deferred_eq] at hle'
      rw [h]
      simp only [resume, List.map_append, List.flatMap_append, List.flatMap_cons,
        List.count_append] at hle hle' ⊢
      omega

/-- Names that are not made of numbers. -/
def Unnumbered (names : List String) : Prop :=
  ∀ name ∈ names, ∀ n, name ≠ dataName n ∧ name ≠ numberedSource n

/-- A name that is not made of a number is not among those made. -/
theorem Unnumbered.notMem_generated {names : List String} (h : Unnumbered names)
    (hname : name ∈ names) (st st' : Assembly) : name ∉ generated st st' := by
  intro hg
  rcases mem_generated hg with ⟨n, hn⟩ | ⟨n, hn⟩
  · exact (h name hname n).1 hn
  · exact (h name hname n).2 hn

/-- Distinct names that are not made of numbers, and names made of numbers, are distinct. -/
theorem count_add_generated_le {names : List String} (hone : names.Nodup) (hun : Unnumbered names)
    (name : String) (st st' : Assembly) :
    names.count name + (generated st st').count name ≤ 1 := by
  by_cases hname : name ∈ names
  · have := List.count_eq_zero.2 (hun.notMem_generated hname st st')
    have := List.nodup_iff_count_le_one.1 hone name
    omega
  · have := List.count_eq_zero.2 hname
    have := List.nodup_iff_count_le_one.1 (nodup_generated st st') name
    omega

/-- What uses distinct names, none of them made of numbers, makes records with distinct names, and
    puts off others like that. -/
theorem Adds.distinct {names : List String} {ids : List Nat} {records : List DatasetRecord}
    {deferred : List Deferred} {resolved : List (Nat × String)}
    (h : Adds names ids st st' records deferred resolved) (hone : names.Nodup)
    (hun : Unnumbered names) : (records.map DatasetRecord.name).Nodup ∧
      (deferred.flatMap Deferred.names).Nodup ∧ Unnumbered (deferred.flatMap Deferred.names) := by
  refine ⟨List.nodup_iff_count_le_one.2 fun name => ?_,
    List.nodup_iff_count_le_one.2 fun name => ?_, fun name hname => ?_⟩
  · have := h.names_le name
    have := count_add_generated_le hone hun name st st'
    omega
  · exact Nat.le_trans (h.inner_le name) (List.nodup_iff_count_le_one.1 hone name)
  · have := List.count_pos_iff.2 hname
    have := h.inner_le name
    exact hun name (List.count_pos_iff.1 (by omega))

/-- The facets that come out have distinct names, and so have the records in each of them, with
    that of the facet itself. -/
theorem Resumes.names {n : Nat} {data : List FacetData} (h : Resumes n st data st')
    (hone : (st.deferred.flatMap Deferred.names).Nodup)
    (hun : Unnumbered (st.deferred.flatMap Deferred.names)) :
    (∀ name, (data.map FacetData.name).count name ≤
      (st.deferred.flatMap Deferred.names).count name) ∧
    ∀ d ∈ data, (d.datasets.map DatasetRecord.name).Nodup ∧
      d.name ∉ d.datasets.map DatasetRecord.name := by
  induction h with
  | out | done => exact ⟨by simp, by simp⟩
  | @facet n d rest q st st₁ st₂ st' others h hf hdesc hr ih =>
    obtain ⟨records, deferred, resolved, hp⟩ := progress_of_facet hf hdesc
    rw [h, List.flatMap_cons] at hone hun
    have hrest : st₂.deferred = rest ++ deferred := hp.deferred_eq
    have hrecords : st₂.records = records := hp.records_eq
    -- what is inside is named apart from the facets that were put off before
    have hcount (name : String) : (st₂.deferred.flatMap Deferred.names).count name ≤
        d.stages.names.count name + (rest.flatMap Deferred.names).count name := by
      have := hp.inner_le name
      rw [hrest, List.flatMap_append, List.count_append]
      omega
    have hall (name : String) : (d.names ++ rest.flatMap Deferred.names).count name ≤ 1 :=
      List.nodup_iff_count_le_one.1 hone name
    simp only [Deferred.names, List.cons_append, List.count_cons, List.count_append] at hall
    have hone₂ : (st₂.deferred.flatMap Deferred.names).Nodup := by
      refine List.nodup_iff_count_le_one.2 fun name => ?_
      have := hcount name
      have := hall name
      omega
    have hun₂ : Unnumbered (st₂.deferred.flatMap Deferred.names) := by
      intro name hname
      refine hun name ?_
      have hpos := List.count_pos_iff.2 hname
      have := hcount name
      refine List.count_pos_iff.1 ?_
      simp only [Deferred.names, List.cons_append, List.count_cons, List.count_append]
      omega
    obtain ⟨hnames, hinside⟩ := ih hone₂ hun₂
    refine ⟨fun name => ?_, fun e he => ?_⟩
    · have := hnames name
      have := hcount name
      rw [h]
      simp only [Deferred.names, List.flatMap_cons, List.cons_append, List.map_cons,
        List.count_cons, List.count_append]
      omega
    · rcases List.mem_cons.1 he with rfl | he
      · have hone₁ : (d.partition.name :: d.stages.names).Nodup := (List.nodup_append.1 hone).1
        have hun₁ : Unnumbered (d.partition.name :: d.stages.names) :=
          fun name hname => hun name (List.mem_append_left _ hname)
        -- in the facet itself each name is used once, its own for the base
        have hle (name : String) : (records.map DatasetRecord.name).count name +
            (if d.partition.name == name then 1 else 0) ≤ 1 := by
          have := hp.names_le name
          have := count_add_generated_le hone₁ hun₁ name (resume st rest) st₂
          rw [List.count_cons] at this
          omega
        show (st₂.records.map DatasetRecord.name).Nodup ∧
          d.partition.name ∉ st₂.records.map DatasetRecord.name
        rw [hrecords]
        refine ⟨List.nodup_iff_count_le_one.2 fun name => ?_, List.count_eq_zero.1 ?_⟩
        · have := hle name
          omega
        · have := hle d.partition.name
          simp only [beq_self_eq_true, if_true] at this
          omega
      · exact hinside e he

/-- A way with a facet splits at its first one. -/
theorem exists_first_facet {w l r : List (Nat × Stage)} {e : Nat × Stage} (h : w = l ++ e :: r)
    (he : e.2.isFacet = true) : ∃ l₁ j partition r₁ l₂, w = l₁ ++ (j, .facet partition) :: r₁ ∧
      (∀ x ∈ l₁, x.2.isFacet = false) ∧ (j, .facet partition) :: r₁ = l₂ ++ e :: r := by
  have facet_of {e : Nat × Stage} (he : e.2.isFacet = true) :
      ∃ j partition, e = (j, .facet partition) := by
    obtain ⟨j, stage⟩ := e
    cases stage <;> simp [Stage.isFacet, Stage.tag] at he
    exact ⟨j, _, rfl⟩
  subst h
  -- by induction on what comes before the facet that is known
  induction l with
  | nil =>
    obtain ⟨j, partition, rfl⟩ := facet_of he
    exact ⟨[], j, partition, r, [], rfl, by simp, rfl⟩
  | cons x l ih =>
    by_cases hx : x.2.isFacet = true
    · obtain ⟨j, partition, rfl⟩ := facet_of hx
      exact ⟨[], j, partition, l ++ e :: r, (j, .facet partition) :: l, rfl, by simp, rfl⟩
    · obtain ⟨l₁, j, partition, r₁, l₂, heq, hall, hsplit⟩ := ih
      refine ⟨x :: l₁, j, partition, r₁, l₂, by rw [List.cons_append, heq]; rfl, fun y hy => ?_,
        hsplit⟩
      rcases List.mem_cons.1 hy with rfl | hy
      · simpa using hx
      · exact hall y hy

/-- A way with a facet splits at its last one. -/
theorem exists_last_facet {w : List (Nat × Stage)} (h : ∃ e ∈ w, e.2.isFacet = true) :
    ∃ l i partition r, w = l ++ (i, .facet partition) :: r ∧ ∀ e ∈ r, e.2.isFacet = false := by
  induction w with
  | nil => exact absurd h (by simp)
  | cons x w ih =>
    by_cases hw : ∃ e ∈ w, e.2.isFacet = true
    · obtain ⟨l, i, partition, r, rfl, hr⟩ := ih hw
      exact ⟨x :: l, i, partition, r, rfl, hr⟩
    · obtain ⟨e, he, hfacet⟩ := h
      rcases List.mem_cons.1 he with rfl | he
      · obtain ⟨i, stage⟩ := e
        cases stage <;> simp [Stage.isFacet, Stage.tag] at hfacet
        refine ⟨[], i, _, w, rfl, fun e he => ?_⟩
        by_contra hne
        exact hw ⟨e, he, by simpa using hne⟩
      · exact absurd ⟨e, he, hfacet⟩ hw

/-- Walking the facets reaches every place inside them, in the records of its innermost facet. -/
theorem Resumes.reached {n : Nat} {data : List FacetData} (h : Resumes n st data st')
    (hn : weight st ≤ n) {d : Deferred} (hd : d ∈ st.deferred) {w : Place Stage}
    (hw : w ∈ d.stages.places []) {l r : List (Nat × Stage)} {i j : Nat} {partition : Partition}
    (habove : (j, .facet d.partition) :: w.above = l ++ (i, .facet partition) :: r)
    (hr : ∀ e ∈ r, e.2.isFacet = false) {resolved' : List (Nat × String)}
    (hold : ∃ resolved, Since old st resolved) (hold' : Since old st' resolved') :
    ∃ e ∈ data, e.name = partition.name ∧
      w.Reached e.datasets resolved' (Comes data) partition.name (stepsOn r) := by
  induction h generalizing d w l j with
  | out st => exact absurd (deferred_eq_nil_of_weight hn ▸ hd) (by simp)
  | done h => exact absurd (h ▸ hd) (by simp)
  | @facet n first rest q st st₁ st₂ st' others h hf hdesc hrest ih =>
    have hp := progress_of_facet hf hdesc
    have hn₂ := weight_of_facet h hp hn
    have hsince₂ : ∃ resolved, Since old st₂ resolved := by
      obtain ⟨resolved, hold⟩ := hold
      have hresume : Since old (resume st rest) resolved := hold
      obtain ⟨resolved₂, hsince, -⟩ := hresume.of_progress hp
      exact ⟨resolved₂, hsince⟩
    have comes_cons (e : FacetData) (p : Partition) (s : String) (hc : Comes others p s) :
        Comes (e :: others) p s := by
      obtain ⟨d, hd, hc⟩ := hc
      exact ⟨d, List.mem_cons_of_mem _ hd, hc⟩
    have later {u : Place Stage} {e : FacetData} (hu : ∃ e ∈ others, e.name = partition.name ∧
        u.Reached e.datasets resolved' (Comes others) partition.name (stepsOn r)) :
        ∃ d ∈ e :: others, d.name = partition.name ∧
          u.Reached d.datasets resolved' (Comes (e :: others)) partition.name (stepsOn r) := by
      obtain ⟨d, hd, hname, hu⟩ := hu
      exact ⟨d, List.mem_cons_of_mem _ hd, hname,
        hu.mono (List.Subset.refl _) (List.Subset.refl _) (comes_cons e)⟩
    rw [h] at hd
    rcases List.mem_cons.1 hd with rfl | hd
    · cases l with
      | nil =>
        -- the place is in the facet itself
        obtain ⟨hpart, rfl⟩ := List.cons.inj habove
        obtain rfl := Stage.facet.inj (Prod.mk.inj hpart).2
        have hbase : Stands old (resume st rest) d.partition.name
            { source := d.partition.name } [] :=
          stands_source hold .base
        obtain ⟨resolved, hsince, hreached⟩ := hdesc.reached (hf.stands hbase) hw hr
        rw [List.nil_append] at hreached
        refine ⟨_, List.mem_cons_self, rfl, hreached.mono (List.Subset.refl _) ?_ ?_⟩
        · obtain ⟨more, heq, -⟩ := hrest.resolved
          rw [Since, heq, hsince, ← List.append_assoc] at hold'
          rw [← List.append_cancel_right hold']
          exact List.subset_append_right _ _
        · exact fun p s hput => comes_cons _ p s (hrest.comes hn₂ hput)
      | cons x l =>
        -- the place is in a facet inside, which was put off in this walk
        obtain ⟨l₁, j₁, p₁, r₁, l₂, heq, hall, hsplit⟩ :=
          exists_first_facet (List.cons.inj habove).2 rfl
        obtain ⟨d', hd', rfl, u, hu, rfl, hid, hcontent⟩ := hdesc.putOff hw hall heq
        obtain hreached := later (ih hn₂ hd' hu hsplit hsince₂ hold')
        simp only [Place.Reached, hid, hcontent] at hreached
        exact hreached
    · exact later (ih hn₂ (hp.putOff hd) hw habove hsince₂ hold')

/-! ### Trees -/

/-- The names of the records of the sources that trees begin with, after `n` sources without names
    of their own. -/
def sourceNames : Nat → Forest Stage → List (Nat × String)
  | n, .node i (.source s) _ rest =>
    match s.datasetName? with
    | some name => (i, name) :: sourceNames n rest
    | none => (i, numberedSource n) :: sourceNames (n + 1) rest
  | n, .node _ _ _ rest => sourceNames n rest
  | _, .nil => []

/-- The record of a source is made from no other. -/
theorem sourceRecord_source (source : Source) (name : String) (children : Forest Stage) :
    (sourceRecord source name children).source = none := by
  have hrecord : (source.record name).source = none := by
    unfold Source.record
    split <;> rfl
  unfold sourceRecord
  split <;> exact hrecord

/-- Making a record draws no number of a source. -/
theorem Materializes.nextSource (h : Materializes p st name st') :
    st'.nextSource = st.nextSource := by
  cases h <;> rfl

/-- Nor does finding out where the flow goes on. -/
theorem Forks.nextSource (h : Forks children p st q st') : st'.nextSource = st.nextSource := by
  cases h with
  | only => rfl
  | several _ hm => exact hm.nextSource

/-- Nor does entering a stage. -/
theorem Enters.nextSource {r : Option Pending}
    (h : Enters underSource id children p st stage r st') : st'.nextSource = st.nextSource := by
  cases h with
  | parse | header | plain => rfl
  | facet hm | output hm => exact hm.nextSource

/-- Only sources draw the numbers of sources. -/
theorem Descends.nextSource (h : Descends underSource f p st st') :
    st'.nextSource = st.nextSource := by
  induction h with
  | nil => rfl
  | stop he _ ih => rw [ih, he.nextSource]
  | enter he hf _ _ ihc ihr => rw [ihr, ihc, hf.nextSource, he.nextSource]

/-- The first source has the name that its walk gives it. -/
theorem sourceNames_names {source : Source} (h : Names source st name st₁) (id : Nat)
    (children rest : Forest Stage) :
    sourceNames st.nextSource (.node id (.source source) children rest) =
      (id, name) :: sourceNames st₁.nextSource rest := by
  cases h with
  | own h | numbered h => simp only [sourceNames, h]

/-- Walking whole trees reaches every place that is not inside a facet, from the record of its
    source on. -/
theorem Grows.reached (h : Grows f st st') (hn : f.walk.Nodup) {v : Place Stage}
    (hv : v ∈ f.places []) {i : Nat} {a : Stage} {r : List (Nat × Stage)}
    (habove : v.above = (i, a) :: r) (hr : ∀ e ∈ r, e.2.isFacet = false)
    (hold : ∃ resolved, Since old st resolved) :
    ∃ s name cs, a = .source s ∧ (i, name) ∈ sourceNames st.nextSource f ∧
      f.find? i = some (.source s, cs) ∧ sourceRecord s name cs ∈ st'.records ∧
      Reached old st' name (stepsOn r) v := by
  induction h with
  | nil => exact absurd hv (by simp)
  | @tree id source children rest name q st st₁ st₂ st₃ st' hname hf hc hrest ih =>
    obtain ⟨⟨-, hid⟩, -, hnrest, hapart⟩ := nodup_walk_node.1 hn
    have hnext : st₃.nextSource = st₁.nextSource := hc.nextSource.trans hf.nextSource
    rw [sourceNames_names hname, ← hnext]
    rcases mem_places_node.1 hv with rfl | ⟨u, hu, rfl⟩ | hv
    · simp at habove
    · obtain ⟨hi, rfl⟩ := List.cons.inj habove
      obtain ⟨rfl, rfl⟩ := Prod.mk.inj hi
      obtain ⟨resolved, hsince⟩ := hold
      obtain ⟨resolved₁, hsince₁, -⟩ := hsince.of_progress (hname.progress children)
      -- below the source the base is its record, and no step has been done
      have hbase : Stands old
          { st₁ with records := st₁.records ++ [sourceRecord source name children] }
          name { source := name } [] :=
        stands_source ⟨resolved₁, hsince₁⟩ .base
      have hreached : Reached old st₃ name (stepsOn u.above) u := hc.reached (hf.stands hbase) hu hr
      refine ⟨source, name, children, rfl, List.mem_cons_self, by simp [find?], ?_,
        hreached.of_progress hrest.progress⟩
      exact (hf.progress.trans (hc.progress.trans hrest.progress)).records_subset (by simp)
    · obtain ⟨resolved, hsince⟩ := hold
      obtain ⟨resolved₃, hsince₃, -⟩ := hsince.of_progress
        ((hname.progress children).trans (hf.progress.trans hc.progress))
      obtain ⟨s, name', cs, rfl, hmem, hfind, hrec, hreached⟩ :=
        ih hnrest hv ⟨resolved₃, hsince₃⟩
      refine ⟨s, name', cs, rfl, List.mem_cons_of_mem _ hmem, ?_, hrec, hreached⟩
      -- the root is in the trees after this one, and no name stands twice
      have hi : i ∈ rest.walk := by
        rw [← contains_iff, contains, hfind]
        rfl
      have hne : id ≠ i := fun h => hid (h ▸ hi)
      have hnot : i ∉ children.walk := fun h => hapart i h hi
      rw [find?, if_neg hne, find?_eq_none.2 hnot]
      exact hfind

/-- Walking whole trees puts off every facet that is not inside another one, with all that is
    inside. -/
theorem Grows.putOff (h : Grows f st st') {v : Place Stage} (hv : v ∈ f.places [])
    {l r : List (Nat × Stage)} {i : Nat} {partition : Partition}
    (hl : ∀ e ∈ l, e.2.isFacet = false) (habove : v.above = l ++ (i, .facet partition) :: r) :
    ∃ d ∈ st'.deferred, d.partition = partition ∧ ∃ u ∈ d.stages.places [],
      u.above = r ∧ u.id = v.id ∧ u.content = v.content := by
  induction h with
  | nil => exact absurd hv (by simp)
  | @tree id source children rest name q st st₁ st₂ st₃ st' hname hf hc hrest ih =>
    rcases mem_places_node.1 hv with rfl | ⟨u, hu, rfl⟩ | hv
    · simp at habove
    · cases l with
      | nil => simp at habove
      | cons e l =>
        obtain ⟨d, hd, hpart, hplace⟩ := hc.putOff hu (fun e he => hl e (List.mem_cons_of_mem _ he))
          (List.cons.inj habove).2
        exact ⟨d, hrest.progress.putOff hd, hpart, hplace⟩
    · exact ih hv

/-- No more is put off than there are stages. -/
theorem Grows.weight_le (h : Grows f st st') (hst : st.deferred = []) : weight st' ≤ f.size := by
  have hle := h.progress.weight_le
  have hzero : weight st = 0 := by rw [weight, hst]; rfl
  rwa [hzero, Nat.zero_add, ← size_eq_length_walk] at hle

/-- Every tree that was walked begins with a source. -/
theorem Grows.rooted (h : Grows f st st') {v : Place Stage} (hv : v ∈ f.places [])
    (hnone : v.above = []) : ∃ s, v.content = .source s := by
  induction h with
  | nil => exact absurd hv (by simp)
  | @tree id source children rest _ _ _ _ _ _ _ _ _ _ _ ih =>
    rcases mem_places_node.1 hv with rfl | ⟨u, hu, rfl⟩ | hv
    · exact ⟨source, rfl⟩
    · simp at hnone
    · exact ih hv

end Assembly

/-! ### The whole flow -/

/-- The records that a place belongs to, the base that they begin with, and the stages from there
    down to the place: those of its tree, or those of its innermost facet. -/
inductive Forest.Place.Belongs (stages : Forest Stage) (data : CompiledData) (v : Place Stage) :
    List DatasetRecord → String → List (Nat × Stage) → Prop
  | tree {i : Nat} {s : Source} {name : String} {cs : Forest Stage} {r : List (Nat × Stage)}
      (habove : v.above = (i, .source s) :: r) (hr : ∀ e ∈ r, e.2.isFacet = false)
      (hname : (i, name) ∈ Assembly.sourceNames 0 stages)
      (hfind : stages.find? i = some (.source s, cs))
      (hrec : Assembly.sourceRecord s name cs ∈ data.datasets) :
      Belongs stages data v data.datasets name r
  | facet {l r : List (Nat × Stage)} {i : Nat} {partition : Partition} {d : FacetData}
      (habove : v.above = l ++ (i, .facet partition) :: r) (hr : ∀ e ∈ r, e.2.isFacet = false)
      (hd : data.facet? partition.name = some d) :
      Belongs stages data v d.datasets partition.name r

/-- A place whose dataset stands for the way to it: going back from the dataset to the base, the
    steps are as said. -/
def Forest.Place.Linear (flow : Flow) (data : CompiledData) (records : List DatasetRecord)
    (base : String) (steps : List Step) (v : Place Stage) : Prop :=
  match v.content with
  | .output name _ => ∃ source, flow.resolved? v.id = some source ∧
      .derived name source [] ∈ records ∧
      ∀ steps', Traces records base source steps' ↔ steps' = steps
  | .facetHeader header => flow.resolved? v.id = some header.name ∧
      (∃ source own, .derived header.name source (own ++ [header.step]) ∈ records) ∧
      ∀ steps', Traces records base header.name steps' ↔ steps' = steps ++ [header.step]
  | .facet partition => ∃ d, data.facet? partition.name = some d ∧ d.groupby = partition.groupby ∧
      flow.resolved? v.id = some d.source ∧
      ∀ steps', Traces records base d.source steps' ↔ steps' = steps
  | _ => True

/-- The first entry of a list with distinct keys before others. -/
theorem find?_append_of_nodup {new old : List (Nat × String)} (hn : (new.map Prod.fst).Nodup)
    {id : Nat} {name : String} (h : (id, name) ∈ new) :
    ((new ++ old).find? (·.1 = id)).map Prod.snd = some name := by
  have hsome : (new.find? (·.1 = id)).isSome := by
    rw [List.find?_isSome]
    exact ⟨_, h, by simp⟩
  obtain ⟨e, he⟩ := Option.isSome_iff_exists.1 hsome
  have hid : e.1 = id := by simpa using List.find?_some he
  have hmem := List.mem_of_find?_eq_some he
  obtain rfl : e = (id, name) := List.inj_on_of_nodup_map hn hmem h hid
  rw [List.find?_append, he]
  rfl

/-- A facet that came out is found by its name. -/
theorem CompiledData.facet?_of_mem {data : CompiledData}
    (hn : (data.facets.map FacetData.name).Nodup) {d : FacetData} (hd : d ∈ data.facets) :
    data.facet? d.name = some d := by
  have hsome : (data.facet? d.name).isSome := by
    rw [facet?, List.find?_isSome]
    exact ⟨d, hd, by simp⟩
  obtain ⟨e, he⟩ := Option.isSome_iff_exists.1 hsome
  have hname : e.name = d.name := by simpa using List.find?_some he
  rw [he, List.inj_on_of_nodup_map hn (List.mem_of_find?_eq_some he) hd hname]

/-- What is reached in records with distinct names, the base of which is made from nothing, stands
    for the way to it. -/
theorem Forest.Place.Reached.linear {flow : Flow} {data : CompiledData}
    {records : List DatasetRecord} {resolved : List (Nat × String)} {base : String}
    {steps : List Step} {v : Place Stage}
    (h : v.Reached records resolved (Assembly.Comes data.facets) base steps)
    (hn : (records.map DatasetRecord.name).Nodup)
    (hb : ∀ r ∈ records, r.name = base → r.source = none)
    (hresolved : ∀ id name, (id, name) ∈ resolved → flow.resolved? id = some name)
    (hfacets : (data.facets.map FacetData.name).Nodup) :
    v.Linear flow data records base steps := by
  -- records with distinct names determine the steps
  have determined {name : String} {steps : List Step} (ht : Traces records base name steps)
      (steps' : List Step) : Traces records base name steps' ↔ steps' = steps :=
    ⟨fun ht' => ht'.unique hn hb ht, fun he => he ▸ ht⟩
  obtain ⟨above, id, content⟩ := v
  cases content with
  | output name required =>
    obtain ⟨source, hs, hr, ht⟩ := h
    exact ⟨source, hresolved _ _ hs, hr, determined ht⟩
  | facetHeader header =>
    obtain ⟨hs, hr, ht⟩ := h
    exact ⟨hresolved _ _ hs, hr, determined ht⟩
  | facet partition =>
    obtain ⟨source, hs, ⟨d, hd, hname, rfl, hgroupby⟩, ht⟩ := h
    refine ⟨d, ?_, hgroupby, hresolved _ _ hs, determined ht⟩
    rw [← hname]
    exact CompiledData.facet?_of_mem hfacets hd
  | _ => trivial

namespace Flow

open Assembly

variable {earlier st : Assembly} {flow flow' : Flow} {data : CompiledData}

/-- Assembling a flow that succeeds has assembled its stages and noted what came out. -/
theorem assembleAfter_ok (h : flow.assembleAfter earlier = (.ok data, st, flow')) :
    Assembly.all flow.stages (earlier.reset flow) = (.ok data, st) ∧
      flow' = { flow with resolved := st.resolved } := by
  cases hrun : (Assembly.all flow.stages).run.run (earlier.reset flow) with
  | mk result st₁ =>
    rw [assembleAfter, hrun] at h
    obtain ⟨hdata, hrest⟩ := Prod.mk.inj h
    obtain ⟨rfl, rfl⟩ := Prod.mk.inj hrest
    exact ⟨hdata ▸ hrun, rfl⟩

/-- Assembling a flow whose names are distinct, and not made of numbers, is linear: at every output,
    header and facet, the dataset that the stage came out as stands for the way to it, from the
    record of its source or from its innermost facet on. -/
theorem assembleAfter_linear (hwalk : flow.stages.walk.Nodup) (hone : flow.stages.names.Nodup)
    (hun : Unnumbered flow.stages.names) (h : flow.assembleAfter earlier = (.ok data, st, flow'))
    {v : Place Stage} (hv : v ∈ flow.stages.places []) (ho : v.content.isOutlet = true) :
    ∃ records base r, v.Belongs flow.stages data records base r ∧
      v.Linear flow' data records base (stepsOn r) := by
  obtain ⟨hall, rfl⟩ := assembleAfter_ok h
  obtain ⟨st₁, hgrows, hdatasets, hresumes⟩ := all_ok hall
  obtain ⟨records, deferred, resolved, hp⟩ := hgrows.progress
  have hrecords : st₁.records = records := hp.records_eq
  have hdeferred : st₁.deferred = deferred := hp.deferred_eq
  obtain ⟨hnames, hone₁, hun₁⟩ := hp.distinct hone hun
  rw [← hrecords, ← hdatasets] at hnames
  rw [← hdeferred] at hone₁ hun₁
  obtain ⟨hfacetNames, hinside⟩ := hresumes.names hone₁ hun₁
  have hfacets : (data.facets.map FacetData.name).Nodup :=
    List.nodup_iff_count_le_one.2 fun name =>
      Nat.le_trans (hfacetNames name) (List.nodup_iff_count_le_one.1 hone₁ name)
  -- every stage came out once
  obtain ⟨resolved', hst, hcount⟩ := hresumes.resolved
  have hnodup : ((resolved' ++ resolved).map Prod.fst).Nodup := by
    refine List.nodup_iff_count_le_one.2 fun id => ?_
    have := hcount id
    have := hp.ids_le id
    have := List.nodup_iff_count_le_one.1 hwalk id
    rw [hdeferred] at *
    rw [List.map_append, List.count_append]
    omega
  have hsince : Since flow.resolved (earlier.reset flow) [] := rfl
  have hsince₁ : Since flow.resolved st₁ resolved := hp.resolved_eq
  have hsince' : Since flow.resolved st (resolved' ++ resolved) := by
    rw [Since, hst, hsince₁, List.append_assoc]
  have hresolved (id : Nat) (name : String) (hmem : (id, name) ∈ resolved' ++ resolved) :
      Flow.resolved? { flow with resolved := st.resolved } id = some name := by
    rw [resolved?, hsince']
    exact find?_append_of_nodup hnodup hmem
  have hweight : weight st₁ ≤ flow.stages.size := hgrows.weight_le rfl
  by_cases hin : ∃ e ∈ v.above, e.2.isFacet = true
  · -- the place was put off with the outermost facet, and belongs to the innermost one
    obtain ⟨l, i, partition, r, habove, hr⟩ := exists_last_facet hin
    obtain ⟨l₁, j, partition₁, r₁, l₂, hfirst, hl₁, hsplit⟩ := exists_first_facet habove rfl
    obtain ⟨d, hd, rfl, u, hu, rfl, hid, hcontent⟩ := hgrows.putOff hv hl₁ hfirst
    obtain ⟨e, he, hname, hreached⟩ :=
      hresumes.reached hweight hd hu hsplit hr ⟨resolved, hsince₁⟩ hsince'
    have hfacet : data.facet? partition.name = some e := by
      rw [← hname]
      exact CompiledData.facet?_of_mem hfacets he
    obtain ⟨hnodup, hbase⟩ := hinside e he
    refine ⟨e.datasets, partition.name, r, .facet habove hr hfacet, ?_⟩
    have hmade : ∀ r ∈ e.datasets, r.name = partition.name → r.source = none := by
      intro r hr hn
      have hmem := List.mem_map_of_mem (f := DatasetRecord.name) hr
      rw [hn, ← hname] at hmem
      exact absurd hmem hbase
    have hlinear := hreached.linear hnodup hmade hresolved hfacets
    simp only [Place.Linear, hid, hcontent] at hlinear
    exact hlinear
  · have hr : ∀ e ∈ v.above, e.2.isFacet = false := by
      intro e he
      by_contra hne
      exact hin ⟨e, he, by simpa using hne⟩
    cases habove : v.above with
    | nil =>
      -- a root is no outlet
      obtain ⟨s, hs⟩ := hgrows.rooted hv habove
      rw [hs] at ho
      exact absurd ho (by simp [Stage.isOutlet, Stage.tag])
    | cons x r =>
      rw [habove] at hr
      obtain ⟨s, name, cs, hx, hmem, hfind, hrec, resolved₁, hold, hreached⟩ :=
        hgrows.reached hwalk hv habove (fun e he => hr e (List.mem_cons_of_mem _ he)) ⟨[], hsince⟩
      obtain rfl : resolved = resolved₁ :=
        List.append_cancel_right (hsince₁.symm.trans hold)
      have hrec' : sourceRecord s name cs ∈ data.datasets := hdatasets ▸ hrec
      refine ⟨data.datasets, name, r, .tree (by rw [habove, ← hx]) (fun e he =>
        hr e (List.mem_cons_of_mem _ he)) hmem hfind hrec', ?_⟩
      rw [← hdatasets] at hreached
      have hlater : v.Reached data.datasets (resolved' ++ resolved) (Comes data.facets) name
          (stepsOn r) :=
        hreached.mono (List.Subset.refl _) (List.subset_append_right _ _)
          fun p s hput => hresumes.comes hweight hput
      refine hlater.linear hnames (fun r hr hn => ?_) hresolved hfacets
      obtain rfl : r = sourceRecord s name cs :=
        List.inj_on_of_nodup_map hnames hr hrec' (by rw [hn, sourceRecord_name])
      exact sourceRecord_source s name cs

/-- Rows that are cleaned and read by name, with the values of `k` for headers and a calculated field
    in each partition by `k`. -/
def partitionedRows : Flow where
  stages :=
    .node 0 (.source ⟨.named "rows", ""⟩)
      (.node 1 (.filter [.expression "datum.x > 0"])
        (.node 2 (.output "cleaned" true)
          (.node 3 (.facetHeader ⟨"columns", "k", .column⟩) .nil
            (.node 4 (.facet ⟨"cells", ["k"]⟩)
              (.node 5 (.calculate "datum.x * 2" "y") (.node 6 (.output "bars" true) .nil .nil) .nil)
              .nil)) .nil) .nil) .nil

/-- The calculated field is made inside the facet, from its name on. -/
theorem assembleAfter_linear_partitionedRows : ∃ data st flow',
    partitionedRows.stages.walk.Nodup ∧ partitionedRows.stages.names.Nodup ∧
      Unnumbered partitionedRows.stages.names ∧
      partitionedRows.assembleAfter {} = (.ok data, st, flow') ∧
      ∃ records base r, Place.Belongs partitionedRows.stages data
          ⟨[(0, .source ⟨.named "rows", ""⟩), (1, .filter [.expression "datum.x > 0"]),
            (2, .output "cleaned" true), (4, .facet ⟨"cells", ["k"]⟩),
            (5, .calculate "datum.x * 2" "y")], 6, .output "bars" true⟩ records base r ∧
        Place.Linear flow' data records base (stepsOn r)
          ⟨[(0, .source ⟨.named "rows", ""⟩), (1, .filter [.expression "datum.x > 0"]),
            (2, .output "cleaned" true), (4, .facet ⟨"cells", ["k"]⟩),
            (5, .calculate "datum.x * 2" "y")], 6, .output "bars" true⟩ := by
  have hwalk : partitionedRows.stages.walk.Nodup := by decide
  have hone : partitionedRows.stages.names.Nodup := by decide
  -- numbered names begin with these letters
  have hheads : ∀ name ∈ partitionedRows.stages.names,
      name.toList.head? ≠ some 'd' ∧ name.toList.head? ≠ some 's' := by decide
  have hun : Unnumbered partitionedRows.stages.names := by
    intro name hname n
    obtain ⟨hd, hs⟩ := hheads name hname
    constructor <;> rintro rfl
    · exact hd (by simp [dataName, String.toList_append])
    · exact hs (by simp [numberedSource, String.toList_append])
  exact ⟨_, _, _, hwalk, hone, hun, rfl, assembleAfter_linear hwalk hone hun rfl
    (by simp [partitionedRows, places]) rfl⟩

end Flow

end ChartPipeline
