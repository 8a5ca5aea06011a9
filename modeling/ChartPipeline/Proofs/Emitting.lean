import ChartPipeline.Proofs.Linearizing
import Mathlib.Data.List.Range

/-!
# What assembling makes

Assembling makes records of pending steps where it needs a dataset to go on from, and numbers them.
Besides these it makes exactly what the stages ask for: a record for every source, output and
header, and a list of records for every facet.  The account is kept over the facets that are put
off: what was made, and what the stages put off still ask for, is together what was asked for.

## Key results

- `Assembly.Descends.makes`, `Assembly.Grows.makes`: the account after walking trees
- `Assembly.Resumes.makes`: the account after walking the facets that were put off
- `Flow.assembleAfter_made`: what an assembled flow consists of
-/

namespace ChartPipeline

/-- What a stage asks to be made. -/
inductive Item where
  | source (source : Source)
  | record (name : String)
  | facet (name : String)

/-- What a stage asks to be made, if anything. -/
def Stage.item? : Stage → Option Item
  | .source s => some (.source s)
  | .output name _ => some (.record name)
  | .facetHeader h => some (.record h.name)
  | .facet p => some (.facet p.name)
  | _ => none

namespace Forest

/-- What the stages of a forest ask to be made. -/
def items (f : Forest Stage) : List Item := f.toList.filterMap fun e => e.2.item?

@[simp] theorem items_nil : (nil : Forest Stage).items = [] := rfl

/-- The items of a tree are those of its root, then those below, then those after it. -/
@[simp] theorem items_node (i : Nat) (a : Stage) (cs rest : Forest Stage) :
    (node i a cs rest).items = a.item?.toList ++ (cs.items ++ rest.items) := by
  cases h : a.item? <;> simp [items, toList, h]

/-- The sources that trees begin with. -/
def rootSources : Forest Stage → List Source
  | .node _ (.source s) _ rest => s :: rootSources rest
  | .node _ _ _ rest => rootSources rest
  | .nil => []

end Forest

/-- What a facet that was put off asks to be made. -/
def Deferred.items (d : Deferred) : List Item := .facet d.partition.name :: d.stages.items

/-- What a record stands for. -/
def DatasetRecord.item (r : DatasetRecord) : Item := .record r.name

/-- What the datasets of a facet stand for. -/
def FacetData.item (d : FacetData) : Item := .facet d.name

/-- The record that loads the data of a source, under the name of the data or a numbered one. -/
structure Source.Loads (s : Source) (r : DatasetRecord) : Prop where
  record_eq : ∃ children, r = Assembly.sourceRecord s r.name children
  name : s.datasetName? = some r.name ∨
    s.datasetName? = none ∧ ∃ n, r.name = Assembly.numberedSource n

namespace Assembly

open Forest

variable {p q : Pending} {st st₁ st₂ st' : Assembly} {name : String} {id : Nat} {stage : Stage}
  {children f : Forest Stage} {underSource : Bool} {items items' : List Item}

/-- The names of the numbered datasets made between two states. -/
def dataNames (st st' : Assembly) : List String :=
  (List.range' st.nextData (st'.nextData - st.nextData)).map dataName

/-- Numbers drawn one after the other are those drawn in both parts. -/
theorem dataNames_append (h : st.nextData ≤ st₁.nextData) (h' : st₁.nextData ≤ st'.nextData) :
    dataNames st st₁ ++ dataNames st₁ st' = dataNames st st' := by
  have hsplit := @List.range'_append_1 st.nextData (st₁.nextData - st.nextData)
    (st'.nextData - st₁.nextData)
  rw [show st.nextData + (st₁.nextData - st.nextData) = st₁.nextData by omega,
    show st₁.nextData - st.nextData + (st'.nextData - st₁.nextData) =
      st'.nextData - st.nextData by omega] at hsplit
  rw [dataNames, dataNames, dataNames, ← List.map_append, hsplit]

/-! ### Records with a name of their own, and numbered ones -/

/-- Records that are made from others: those that stages asked for, and those of pending steps. -/
structure Derives (named counted : List DatasetRecord) (st st' : Assembly) : Prop where
  data_le : st.nextData ≤ st'.nextData
  counted_eq : counted.map DatasetRecord.name = dataNames st st'
  steps : ∀ r ∈ counted, r.steps ≠ []
  derived : ∀ r ∈ named ++ counted, r.source.isSome = true

/-- Nothing is derived where nothing happens. -/
theorem Derives.nil (st : Assembly) : Derives [] [] st st :=
  ⟨Nat.le_refl _, by simp [dataNames], by simp, by simp⟩

/-- What is derived one after the other. -/
theorem Derives.append {named named' counted counted' : List DatasetRecord}
    (h : Derives named counted st st₁) (h' : Derives named' counted' st₁ st') :
    Derives (named ++ named') (counted ++ counted') st st' where
  data_le := Nat.le_trans h.data_le h'.data_le
  counted_eq := by
    rw [List.map_append, h.counted_eq, h'.counted_eq, dataNames_append h.data_le h'.data_le]
  steps r hr := (List.mem_append.1 hr).elim (h.steps r) (h'.steps r)
  derived r hr := by
    have := h.derived r
    have := h'.derived r
    simp only [List.mem_append] at *
    tauto

/-- What was made between two states, as it was asked for. -/
structure Makes (items : List Item) (sources : List Source) (loaded : List DatasetRecord)
    (st st' : Assembly) (records named counted : List DatasetRecord) (deferred : List Deferred) :
    Prop where
  records_eq : st'.records = st.records ++ records
  deferred_eq : st'.deferred = st.deferred ++ deferred
  split : records.Perm (loaded ++ (named ++ counted))
  loads : List.Forall₂ Source.Loads sources loaded
  derives : Derives named counted st st'
  asked : (sources.map Item.source ++
    (named.map DatasetRecord.item ++ deferred.flatMap Deferred.items)).Perm items

/-- Three lists in two parts each, part by part. -/
theorem perm_append_parts {α : Type} (a a' b b' c c' : List α) :
    (a ++ a' ++ (b ++ b' ++ (c ++ c'))).Perm (a ++ (b ++ c) ++ (a' ++ (b' ++ c'))) := by
  classical
  refine List.perm_iff_count.2 fun x => ?_
  simp only [List.count_append]
  omega

/-- What may be made when some items are asked for. -/
def Making (items : List Item) (sources : List Source) (loaded : List DatasetRecord)
    (st st' : Assembly) : Prop :=
  ∃ records named counted deferred,
    Makes items sources loaded st st' records named counted deferred

/-- Nothing is made where nothing is asked for. -/
theorem Making.refl (st : Assembly) : Making [] [] [] st st :=
  ⟨[], [], [], [], by simp, by simp, .nil, .nil, .nil st, .nil⟩

/-- What is made one after the other. -/
theorem Making.trans {sources sources' : List Source} {loaded loaded' : List DatasetRecord}
    (h : Making items sources loaded st st₁) (h' : Making items' sources' loaded' st₁ st') :
    Making (items ++ items') (sources ++ sources') (loaded ++ loaded') st st' := by
  obtain ⟨records, named, counted, deferred, h⟩ := h
  obtain ⟨records', named', counted', deferred', h'⟩ := h'
  refine ⟨records ++ records', named ++ named', counted ++ counted', deferred ++ deferred', ?_, ?_,
    ?_, List.rel_append h.loads h'.loads, h.derives.append h'.derives, ?_⟩
  · rw [h'.records_eq, h.records_eq, List.append_assoc]
  · rw [h'.deferred_eq, h.deferred_eq, List.append_assoc]
  · exact (h.split.append h'.split).trans (perm_append_parts ..).symm
  · rw [List.map_append, List.map_append, List.flatMap_append]
    exact (perm_append_parts ..).trans (h.asked.append h'.asked)

/-! ### Trees -/

/-- A record that a stage asks for. -/
theorem making_record {r : DatasetRecord} (hr : r.source.isSome = true)
    (hrecords : st'.records = st.records ++ [r]) (hdeferred : st'.deferred = st.deferred)
    (hdata : st'.nextData = st.nextData) : Making [.record r.name] [] [] st st' := by
  refine ⟨[r], [r], [], [], hrecords, by simp [hdeferred], .refl _, .nil,
    ⟨Nat.le_of_eq hdata.symm, by simp [dataNames, hdata], by simp, by simpa using hr⟩, .refl _⟩

/-- A facet that is put off. -/
theorem making_deferred {d : Deferred} (hrecords : st'.records = st.records)
    (hdeferred : st'.deferred = st.deferred ++ [d]) (hdata : st'.nextData = st.nextData) :
    Making d.items [] [] st st' := by
  refine ⟨[], [], [], [d], by simp [hrecords], hdeferred, .refl _, .nil,
    ⟨Nat.le_of_eq hdata.symm, by simp [dataNames, hdata], by simp, by simp⟩, by simp⟩

/-- A record of pending steps is numbered, and was not asked for. -/
theorem Materializes.makes (h : Materializes p st name st') : Making [] [] [] st st' := by
  cases h with
  | same => exact .refl st
  | record h =>
    refine ⟨[_], [], [_], [], rfl, by simp, .refl _, .nil,
      ⟨Nat.le_succ _, by simp [dataNames, DatasetRecord.derived], ?_, ?_⟩, .refl _⟩
    · simpa [DatasetRecord.derived] using h
    · simp [DatasetRecord.derived]

/-- So is one that is made where the flow forks. -/
theorem Forks.makes (h : Forks children p st q st') : Making [] [] [] st st' := by
  cases h with
  | only => exact .refl st
  | several _ hm => exact hm.makes

/-- A facet is put off with all that is asked for inside it, and a header is made. -/
theorem Enters.makes_stop (h : Enters underSource id children p st stage none st') :
    Making (stage.item?.toList ++ children.items) [] [] st st' := by
  cases h with
  | @facet partition source st₁ hm =>
    exact hm.makes.trans (@making_deferred st₁ _ ⟨partition, source, children⟩ rfl rfl rfl)
  | @header header hc =>
    subst hc
    exact @making_record st _ (.derived header.name p.source (p.steps ++ [header.step])) rfl rfl rfl rfl

/-- An output is made as it is asked for, and other stages ask for nothing. -/
theorem Enters.makes_enter (h : Enters underSource id children p st stage (some q) st') :
    Making stage.item?.toList [] [] st st' := by
  cases h with
  | parse => exact .refl st
  | @output name required source st₁ hm =>
    exact hm.makes.trans (@making_record st₁ _ (.derived name source []) rfl rfl rfl rfl)
  | plain h =>
    have hnone : stage.item? = none := by
      cases stage <;> simp_all [Stage.isPlain, Stage.tag, Stage.item?]
    rw [hnone]
    exact .refl st

/-- Walking trees makes what the stages in them ask for. -/
theorem Descends.makes (h : Descends underSource f p st st') : Making f.items [] [] st st' := by
  induction h with
  | nil => exact .refl _
  | stop he _ ih =>
    -- the subtree is put off as a whole, or empty
    rw [items_node, ← List.append_assoc]
    exact he.makes_stop.trans ih
  | enter he hf _ _ ihc ihr =>
    rw [items_node]
    exact he.makes_enter.trans (hf.makes.trans (ihc.trans ihr))

/-- The record of a source. -/
theorem Names.makes {source : Source} (h : Names source st name st₁) (children : Forest Stage) :
    Making [.source source] [source] [sourceRecord source name children] st
      { st₁ with records := st₁.records ++ [sourceRecord source name children] } := by
  -- naming a source draws a number at most
  have hstays : st₁.records = st.records ∧ st₁.deferred = st.deferred ∧
      st₁.nextData = st.nextData := by
    cases h <;> exact ⟨rfl, rfl, rfl⟩
  obtain ⟨hrecords, hdeferred, hdata⟩ := hstays
  refine ⟨[sourceRecord source name children], [], [], [], by simp [hrecords], by simp [hdeferred],
    .refl _, .cons ⟨⟨children, by rw [sourceRecord_name]⟩, ?_⟩ .nil,
    ⟨Nat.le_of_eq hdata.symm, by simp [dataNames, hdata], by simp, by simp⟩, .refl _⟩
  rw [sourceRecord_name]
  cases h with
  | own h => exact .inl h
  | numbered h => exact .inr ⟨h, _, rfl⟩

/-- Walking whole trees makes what the stages in them ask for, and loads their sources. -/
theorem Grows.makes (h : Grows f st st') : ∃ loaded, Making f.items f.rootSources loaded st st' ∧
    loaded.map DatasetRecord.name = (sourceNames st.nextSource f).map Prod.snd := by
  induction h with
  | nil st => exact ⟨[], .refl st, rfl⟩
  | @tree id source children rest name q st st₁ st₂ st₃ st' hn hf hc _ ih =>
    obtain ⟨loaded, hmaking, hnames⟩ := ih
    refine ⟨sourceRecord source name children :: loaded, ?_, ?_⟩
    · rw [items_node]
      exact (hn.makes children).trans (hf.makes.trans (hc.makes.trans hmaking))
    -- below the source no number of a source is drawn
    · have hnext : st₃.nextSource = st₁.nextSource := by
        rw [hc.nextSource, hf.nextSource]
      rw [sourceNames_names hn, List.map_cons, List.map_cons, hnames, hnext, sourceRecord_name]

/-! ### Facets -/

/-- Walking the facets that were put off makes what their stages ask for. -/
theorem Resumes.makes {n : Nat} {data : List FacetData} (h : Resumes n st data st')
    (hn : weight st ≤ n) : ∃ named counted,
      (data.flatMap FacetData.datasets).Perm (named ++ counted) ∧ Derives named counted st st' ∧
        (named.map DatasetRecord.item ++ data.map FacetData.item).Perm
          (st.deferred.flatMap Deferred.items) := by
  induction h with
  | out st =>
    rw [deferred_eq_nil_of_weight hn]
    exact ⟨[], [], .refl _, .nil st, .refl _⟩
  | @done n st h =>
    rw [h]
    exact ⟨[], [], .refl _, .nil st, .refl _⟩
  | @facet n d rest q st st₁ st₂ st' others h hf hdesc hr ih =>
    have hp := progress_of_facet hf hdesc
    obtain ⟨named', counted', hsplit', hderives', hasked'⟩ := ih (weight_of_facet h hp hn)
    obtain ⟨records, named, counted, deferred, hm⟩ := hf.makes.trans hdesc.makes
    -- a facet has records of its own, but the numbers go on
    have hrecords : st₂.records = records := hm.records_eq
    have hdeferred : st₂.deferred = rest ++ deferred := hm.deferred_eq
    have hderives : Derives named counted st st₂ :=
      ⟨hm.derives.data_le, hm.derives.counted_eq, hm.derives.steps, hm.derives.derived⟩
    refine ⟨named ++ named', counted ++ counted', ?_, hderives.append hderives', ?_⟩
    · rw [List.flatMap_cons, hrecords]
      refine (hm.split.append hsplit').trans ?_
      exact (perm_append_parts [] [] named named' counted counted').symm
    · -- what the facet put off in turn is asked for later
      classical
      have hasked := hm.asked
      rw [hdeferred] at hasked'
      rw [h]
      refine List.perm_iff_count.2 fun x => ?_
      have hcount := hasked.count_eq x
      have hcount' := hasked'.count_eq x
      simp only [List.map_nil, List.nil_append, List.map_append, List.map_cons, List.flatMap_append,
        List.flatMap_cons, Deferred.items, FacetData.item, List.count_append, List.count_cons,
        List.cons_append] at hcount hcount' ⊢
      omega

end Assembly

/-- All records, those of the facets after the others. -/
def CompiledData.records (data : CompiledData) : List DatasetRecord :=
  data.datasets ++ data.facets.flatMap FacetData.datasets

/-- What compiled data consist of: records that load sources, records that stages ask for, and
    numbered records of steps. -/
structure CompiledData.Made (data : CompiledData) (f : Forest Stage)
    (loaded named counted : List DatasetRecord) : Prop where
  split : data.records.Perm (loaded ++ (named ++ counted))
  loaded_subset : loaded ⊆ data.datasets
  loads : List.Forall₂ Source.Loads f.rootSources loaded
  loaded_eq : loaded.map DatasetRecord.name = (Assembly.sourceNames 0 f).map Prod.snd
  counted_eq : counted.map DatasetRecord.name =
    (List.range counted.length).map Assembly.dataName
  steps : ∀ r ∈ counted, r.steps ≠ []
  derived : ∀ r ∈ named ++ counted, r.source.isSome = true
  asked : (f.rootSources.map Item.source ++
    (named.map DatasetRecord.item ++ data.facets.map FacetData.item)).Perm f.items

namespace Flow

open Assembly

/-- An assembled flow consists of what its stages ask for, and numbered records of steps. -/
theorem assembleAfter_made {earlier st : Assembly} {flow flow' : Flow} {data : CompiledData}
    (h : flow.assembleAfter earlier = (.ok data, st, flow')) :
    ∃ loaded named counted, data.Made flow.stages loaded named counted := by
  obtain ⟨hall, -⟩ := assembleAfter_ok h
  obtain ⟨st₁, hgrows, hdatasets, hresumes⟩ := all_ok hall
  -- the bound on the walks is the size of the flow, so all that was put off is walked
  have hweight : weight st₁ ≤ flow.stages.size := hgrows.weight_le rfl
  obtain ⟨loaded, ⟨records, named, counted, deferred, hm⟩, hloaded⟩ := hgrows.makes
  obtain ⟨named', counted', hsplit', hderives', hasked'⟩ := hresumes.makes hweight
  have hrecords : data.datasets = records := hdatasets.trans hm.records_eq
  have hdeferred : st₁.deferred = deferred := hm.deferred_eq
  have hderives : Derives (named ++ named') (counted ++ counted') (earlier.reset flow) st :=
    hm.derives.append hderives'
  refine ⟨loaded, named ++ named', counted ++ counted', ?_, ?_, hm.loads, hloaded, ?_,
    hderives.steps, hderives.derived, ?_⟩
  · rw [CompiledData.records, hrecords]
    refine (hm.split.append hsplit').trans ?_
    rw [List.append_assoc]
    exact (perm_append_parts [] [] named named' counted counted').symm.append_left loaded
  · rw [hrecords]
    intro r hr
    exact hm.split.mem_iff.2 (List.mem_append_left _ hr)
  -- the numbers begin with zero when assembling starts over
  · have hlen : (counted ++ counted').length = st.nextData := by
      have := congrArg List.length hderives.counted_eq
      simpa [dataNames, reset] using this
    rw [hlen, hderives.counted_eq, List.range_eq_range']
    rfl
  · rw [hdeferred] at hasked'
    rw [List.map_append, List.append_assoc]
    refine List.Perm.trans ?_ hm.asked
    exact ((hasked'.append_left _)).append_left _

end Flow

end ChartPipeline
