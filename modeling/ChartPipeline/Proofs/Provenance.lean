import ChartPipeline.Proofs.Catalog
import ChartPipeline.Proofs.Hosting

/-!
# Where datasets come from

Going back from a dataset to the dataset it is made from, and from a facet to the dataset that it
partitions, one comes to the record of a source.  The steps on the way, through all facets, are
those of the stages from the source down to the stage that asked for the dataset.

## Key results

- `CompiledData.Traced.unique`: a dataset comes from one record by one list of steps
- `Flow.assembleAfter_traced`: the steps are those of the stages above
-/

namespace ChartPipeline

/-- The record without a source that a dataset or a facet comes from, and the steps on the way:
    through the datasets it is made from, and out of the facets that these are in. -/
inductive CompiledData.Traced (data : CompiledData) : String → DatasetRecord → List Step → Prop
  | loaded {r : DatasetRecord} (hr : r ∈ data.records) (hs : r.source = none) :
      Traced data r.name r []
  | record {r base : DatasetRecord} {source : String} {steps : List Step}
      (hr : r ∈ data.records) (hs : r.source = some source) (h : Traced data source base steps) :
      Traced data r.name base (steps ++ r.steps)
  | facet {d : FacetData} {base : DatasetRecord} {steps : List Step} (hd : d ∈ data.facets)
      (h : Traced data d.source base steps) : Traced data d.name base steps

namespace CompiledData.Traced

variable {data : CompiledData} {name : String} {base base' : DatasetRecord}
  {steps steps' : List Step}

/-- Where no two datasets and facets have one name, each comes from one record by one list of
    steps. -/
theorem unique
    (hn : (data.records.map DatasetRecord.name ++ data.facets.map FacetData.name).Nodup)
    (h : data.Traced name base steps) (h' : data.Traced name base' steps') :
    base = base' ∧ steps = steps' := by
  obtain ⟨hrecords, hfacets, hapart⟩ := List.nodup_append.1 hn
  -- a name tells which record it is, and that it is no facet
  have same {r r' : DatasetRecord} (hr : r ∈ data.records) (hr' : r' ∈ data.records)
      (h : r.name = r'.name) : r = r' := List.inj_on_of_nodup_map hrecords hr hr' h
  have apart {r : DatasetRecord} {d : FacetData} (hr : r ∈ data.records) (hd : d ∈ data.facets) :
      r.name ≠ d.name :=
    hapart _ (List.mem_map_of_mem hr) _ (List.mem_map_of_mem hd)
  -- by induction on the first trace; the name says how the other one ends
  induction h generalizing base' steps' with
  | @loaded r hr hs =>
    generalize hname : r.name = n at h'
    cases h' with
    | loaded hr' => exact ⟨same hr hr' hname, rfl⟩
    | record hr' hs' =>
      rw [same hr hr' hname] at hs
      exact absurd (hs.symm.trans hs') (by simp)
    | facet hd => exact absurd hname (apart hr hd)
  | @record r base source steps hr hs h ih =>
    generalize hname : r.name = n at h'
    cases h' with
    | loaded hr' hs' =>
      rw [same hr hr' hname] at hs
      exact absurd (hs'.symm.trans hs) (by simp)
    | @record r' _ source' _ hr' hs' h' =>
      obtain rfl := same hr hr' hname
      obtain rfl : source = source' := Option.some.inj (hs.symm.trans hs')
      obtain ⟨rfl, rfl⟩ := ih h'
      exact ⟨rfl, rfl⟩
    | facet hd => exact absurd hname (apart hr hd)
  | @facet d base steps hd h ih =>
    generalize hname : d.name = n at h'
    cases h' with
    | loaded hr' => exact absurd hname.symm (apart hr' hd)
    | record hr' => exact absurd hname.symm (apart hr' hd)
    | facet hd' h' =>
      obtain rfl := List.inj_on_of_nodup_map hfacets hd hd' hname
      exact ih h'

/-- From a base on, steps are traced through the records of one list. -/
theorem of_traces {records : List DatasetRecord} {source : String} {before : List Step}
    (hb : data.Traced source base before) (h : Traces records source name steps)
    (hsub : records ⊆ data.records) : data.Traced name base (before ++ steps) := by
  -- by induction on the records that are passed
  induction h with
  | base => rwa [List.append_nil]
  | record hr hs _ ih =>
    rw [← List.append_assoc]
    exact .record (hsub hr) hs ih

end CompiledData.Traced

/-- The step that a header itself adds. -/
def Stage.headerSteps : Stage → List Step
  | .facetHeader h => [h.step]
  | _ => []

namespace Forest

open Assembly

variable {data : CompiledData} {f : Forest Stage} {v : Place Stage}

/-- What is reached at an outlet is traced back to where the base comes from. -/
theorem Place.Reached.traced {records : List DatasetRecord} {resolved : List (Nat × String)}
    {source : String} {base : DatasetRecord} {steps before : List Step}
    (h : v.Reached records resolved (Comes data.facets) source steps)
    (hsub : records ⊆ data.records) (hb : data.Traced source base before) {made : String}
    (hmade : made ∈ v.content.names) (ho : v.content.isOutlet = true) :
    data.Traced made base (before ++ (steps ++ v.content.headerSteps)) := by
  obtain ⟨above, id, content⟩ := v
  cases content with
  | output name required =>
    -- an output has a record of its own, and its steps end there
    obtain rfl : made = name := by simpa [Stage.names] using hmade
    obtain ⟨source', -, hr, ht⟩ := h
    have hrecord := CompiledData.Traced.record (hsub hr) rfl (hb.of_traces ht hsub)
    simpa [DatasetRecord.derived, Stage.headerSteps] using hrecord
  | facetHeader header =>
    -- the record of a header ends with its own step, so no step is missing
    obtain rfl : made = header.name := by simpa [Stage.names] using hmade
    obtain ⟨-, -, ht⟩ := h
    exact hb.of_traces ht hsub
  | facet partition =>
    -- a facet goes back to the dataset that it partitions
    obtain rfl : made = partition.name := by simpa [Stage.names] using hmade
    obtain ⟨source', -, ⟨d, hd, hname, rfl, -⟩, ht⟩ := h
    have hfacet := CompiledData.Traced.facet hd (hb.of_traces ht hsub)
    simpa [hname, Stage.headerSteps] using hfacet
  | _ => exact absurd ho (by simp [Stage.isOutlet, Stage.tag])

/-- The nodes on the way to a place stand at places. -/
theorem mem_places_of_above {α : Type} {f : Forest α} {v : Place α} (hv : v ∈ f.places [])
    {l r : List (Nat × α)} {i : Nat} {a : α} (h : v.above = l ++ (i, a) :: r) :
    ⟨l, i, a⟩ ∈ f.places [] := by
  -- the node is this root, or among its children, or among those after it
  induction f generalizing v l with
  | nil => exact absurd hv (by simp)
  | node j b cs rest ihc ihr =>
    rw [mem_places_node] at hv ⊢
    rcases hv with rfl | ⟨u, hu, rfl⟩ | hv
    · simp at h
    · cases l with
      | nil =>
        obtain ⟨he, -⟩ := List.cons.inj h
        obtain ⟨rfl, rfl⟩ := Prod.mk.inj he
        exact .inl rfl
      | cons e l =>
        obtain ⟨rfl, habove⟩ := List.cons.inj h
        exact .inr (.inl ⟨_, ihc hu habove, rfl⟩)
    · exact .inr (.inr (ihr hv h))

/-- What is found at the name of a head is the head, with its children. -/
theorem find?_of_head (hn : f.walk.Nodup) {i : Nat} {a : Stage}
    (h : (i, a) ∈ f.heads) : f.find? i = some (a, f.under i) := by
  obtain ⟨before, after, heq⟩ := exists_append_of_mem_heads (nodup_roots hn) h
  generalize f.under i = cs at heq
  subst heq
  have hapart := separate_of_nodup hn
  have hnot : i ∉ before.walk := fun hi => hapart i hi (by simp)
  rw [find?_append_of_notMem hnot, node_append, find?, if_pos rfl]

/-- The name of a source's record is its own, or made of a number. -/
theorem head_of_sourceNames {n i : Nat} {name : String} (h : (i, name) ∈ sourceNames n f) :
    ∃ s, (i, .source s) ∈ f.heads ∧
      (s.datasetName? = some name ∨ s.datasetName? = none ∧ ∃ m, name = numberedSource m) := by
  induction f generalizing n with
  | nil => exact absurd h (by simp [sourceNames])
  | node j a cs rest _ ih =>
    -- the pair is among the later ones, or that of the first root
    have hcases : (∃ m, (i, name) ∈ sourceNames m rest) ∨ ∃ s, (i, .source s) = (j, a) ∧
        (s.datasetName? = some name ∨ s.datasetName? = none ∧ ∃ m, name = numberedSource m) := by
      cases a with
      | source s =>
        cases hs : s.datasetName? with
        | some own =>
          rw [sourceNames, hs] at h
          rcases List.mem_cons.1 h with he | h
          · obtain ⟨rfl, rfl⟩ := Prod.mk.inj he
            exact .inr ⟨s, rfl, .inl hs⟩
          · exact .inl ⟨_, h⟩
        | none =>
          rw [sourceNames, hs] at h
          rcases List.mem_cons.1 h with he | h
          · obtain ⟨rfl, rfl⟩ := Prod.mk.inj he
            exact .inr ⟨s, rfl, .inr ⟨hs, n, rfl⟩⟩
          · exact .inl ⟨_, h⟩
      | _ => exact .inl ⟨_, h⟩
    rcases hcases with ⟨m, h⟩ | ⟨s, he, hname⟩
    · obtain ⟨s, hs, hname⟩ := ih h
      exact ⟨s, List.mem_cons_of_mem _ hs, hname⟩
    · exact ⟨s, he ▸ List.mem_cons_self, hname⟩

/-- What an outlet asks for comes from the record of the source above it, by the steps of the stages
    in between. -/
structure Place.Drawn (f : Forest Stage) (data : CompiledData) (v : Place Stage) (i : Nat)
    (s : Source) (r : List (Nat × Stage)) (name : String) : Prop where
  above : v.above = (i, .source s) :: r
  head : (i, .source s) ∈ f.heads
  loads : s.Loads (sourceRecord s name (f.under i))
  traced : ∀ made ∈ v.content.names, data.Traced made (sourceRecord s name (f.under i))
    (stepsOn r ++ v.content.headerSteps)

end Forest

namespace Flow

open Assembly Forest

variable {earlier st : Assembly} {flow flow' : Flow} {data : CompiledData}

/-- In the data of an assembled flow, what an outlet asks for comes from the record of the source
    above it, by the steps of the stages in between, through all facets. -/
theorem assembleAfter_traced (hwalk : flow.stages.walk.Nodup)
    (h : flow.assembleAfter earlier = (.ok data, st, flow')) {v : Place Stage}
    (hv : v ∈ flow.stages.places []) (ho : v.content.isOutlet = true) :
    ∃ i s r name, v.Drawn flow.stages data i s r name := by
  obtain ⟨hall, -⟩ := assembleAfter_ok h
  obtain ⟨st₁, hgrows, hdatasets, hresumes⟩ := all_ok hall
  have hsince : Since flow.resolved (earlier.reset flow) [] := rfl
  obtain ⟨resolved, hsince₁, -⟩ := hsince.of_progress hgrows.progress
  obtain ⟨more, hst, -⟩ := hresumes.resolved
  have hsince' : Since flow.resolved st (more ++ resolved) := by
    rw [Since, hst, hsince₁, List.append_assoc]
  -- the bound on the walks is the size of the flow, so all that was put off is walked
  have hweight : weight st₁ ≤ flow.stages.size := hgrows.weight_le rfl
  -- a facet stands above what is inside it, and is traced first
  induction hlen : v.above.length using Nat.strong_induction_on generalizing v with
  | _ n ih =>
  subst hlen
  -- the last facet above splits the way in two; without one the way begins at a source
  by_cases hin : ∃ e ∈ v.above, e.2.isFacet = true
  · obtain ⟨l, j, partition, r, habove, hr⟩ := exists_last_facet hin
    -- what is below the first facet was put off when its subtree was cut
    obtain ⟨l₁, j₁, partition₁, r₁, l₂, hfirst, hl₁, hsplit⟩ := exists_first_facet habove rfl
    obtain ⟨d, hd, rfl, u, hu, rfl, hid, hcontent⟩ := hgrows.putOff hv hl₁ hfirst
    obtain ⟨e, he, hname, hreached⟩ :=
      hresumes.reached hweight hd hu hsplit hr ⟨resolved, hsince₁⟩ hsince'
    obtain ⟨i, s, r₀, name, hdrawn⟩ :=
      ih _ (by simp [habove]) (mem_places_of_above hv habove) rfl rfl
    have hl : l = (i, .source s) :: r₀ := hdrawn.above
    have hbase := hdrawn.traced partition.name (by simp [Stage.names])
    have hsub : e.datasets ⊆ data.records := fun r hr =>
      List.mem_append_right _ (List.mem_flatMap.2 ⟨e, he, hr⟩)
    refine ⟨i, s, r₀ ++ (j, .facet partition) :: r, name, by rw [habove, hl, List.cons_append],
      hdrawn.head, hdrawn.loads, fun made hmade => ?_⟩
    have hmade' := hreached.traced hsub hbase (hcontent ▸ hmade) (hcontent ▸ ho)
    rw [hcontent] at hmade'
    simpa [stepsOn, Stage.headerSteps, Stage.steps] using hmade'
  · have hr : ∀ e ∈ v.above, e.2.isFacet = false := by
      intro e he
      by_contra hne
      exact hin ⟨e, he, by simpa using hne⟩
    cases habove : v.above with
    | nil =>
      -- a root is no outlet
      obtain ⟨s, hs⟩ := hgrows.rooted hv habove
      rw [hs] at ho
      exact absurd ho (by simp [Stage.isOutlet, Stage.tag])
    | cons x r =>
      rw [habove] at hr
      obtain ⟨s, name, cs, hx, hmem, hfind, hrec, resolved', -, hreached⟩ :=
        hgrows.reached hwalk hv habove (fun e he => hr e (List.mem_cons_of_mem _ he)) ⟨[], hsince⟩
      obtain ⟨i, a⟩ := x
      obtain rfl : a = .source s := hx
      have hi := ((mem_places_under (nodup_roots hwalk) habove).1 hv).1
      obtain rfl : flow.stages.under i = cs := by
        rw [find?_of_head hwalk hi] at hfind
        exact (Prod.mk.inj (Option.some.inj hfind)).2
      rw [← hdatasets] at hrec hreached
      have hsub : data.datasets ⊆ data.records := List.subset_append_left _ _
      -- the source's record loads its rows, and what is below it reads that one
      have hbase : data.Traced name (sourceRecord s name (flow.stages.under i)) [] := by
        have hloaded := CompiledData.Traced.loaded (hsub hrec) (sourceRecord_source ..)
        rwa [sourceRecord_name] at hloaded
      refine ⟨i, s, r, name, habove, hi, ⟨⟨flow.stages.under i, by rw [sourceRecord_name]⟩, ?_⟩,
        fun made hmade => ?_⟩
      · obtain ⟨s', hs', hname⟩ := head_of_sourceNames hmem
        obtain rfl : s = s' := by
          have hsame := List.inj_on_of_nodup_map (map_fst_heads flow.stages ▸ nodup_roots hwalk)
            hi hs' rfl
          simpa using hsame
        rwa [sourceRecord_name]
      · have hlater := hreached.mono (List.Subset.refl _) (List.Subset.refl _)
          fun p source hput => hresumes.comes hweight hput
        simpa using hlater.traced hsub hbase hmade ho

end Flow

end ChartPipeline
