import ChartPipeline.Proofs.Linearizing

/-!
# Datasets are made from datasets before them

The records of a list are made in an order in which they can be loaded: each is made from nothing
or from a record before it, inside a facet also from the facet itself.  A facet partitions a dataset
of the trees, or one that came with a facet before it; no name stands for something that is only
made later or inside a facet that is not yet there.

## Key results

- `Assembly.Descends.refers`, `Assembly.Resumes.refers`: what walking trees and facets refers to
- `assembleAfter_inOrder`: all references of an assembled flow go to what is before them
-/

namespace ChartPipeline

/-- Every record is made from nothing, from a known dataset or from a record before it. -/
def InOrder (known : List String) (records : List DatasetRecord) : Prop :=
  ∀ before r after, records = before ++ r :: after → ∀ source, r.source = some source →
    source ∈ known ++ before.map DatasetRecord.name

namespace InOrder

variable {known : List String} {records : List DatasetRecord} {r : DatasetRecord}

/-- Where no record is made, all are in order. -/
theorem nil (known : List String) : InOrder known [] := by
  intro before r after h
  simp at h

/-- A record may follow if it is made from nothing or from what is there. -/
theorem concat (h : InOrder known records) (hr : ∀ source, r.source = some source →
    source ∈ known ++ records.map DatasetRecord.name) : InOrder known (records ++ [r]) := by
  intro before r' after heq
  -- the split is at the new record, or before it
  rcases List.eq_nil_or_concat after with rfl | ⟨after', last, rfl⟩
  · obtain ⟨rfl, hlast⟩ := List.append_inj' heq rfl
    obtain rfl := (List.cons.inj hlast).1
    exact hr
  · rw [List.concat_eq_append, ← List.cons_append, ← List.append_assoc] at heq
    exact h before r' after' (List.append_inj' heq rfl).1

end InOrder

/-- The names that a facet brings: its own and those of its records. -/
def FacetData.brings (d : FacetData) : List String := d.name :: d.datasets.map DatasetRecord.name

namespace Assembly

variable {p q : Pending} {st st₁ st₂ st' : Assembly} {name : String} {id : Nat} {stage : Stage}
  {children f : Forest Stage} {underSource : Bool} {known : List String} {earlier : List Deferred}

/-- A known dataset, or one of the list being made. -/
def Known (known : List String) (st : Assembly) (name : String) : Prop :=
  name ∈ known ++ st.records.map DatasetRecord.name

/-- What is there stays there. -/
theorem Known.of_progress {names : List String} {ids : List Nat} (h : Known known st name)
    (hp : Progress names ids st st') : Known known st' name := by
  obtain ⟨records, deferred, resolved, hp⟩ := hp
  rw [Known, hp.records_eq, List.map_append, ← List.append_assoc]
  exact List.mem_append_left _ h

/-- The records stand in order, and the facets put off since `earlier` partition a dataset that is
    there. -/
structure Refers (known : List String) (earlier : List Deferred) (st : Assembly) : Prop where
  inOrder : InOrder known st.records
  deferred : ∀ d ∈ st.deferred, d ∈ earlier ∨ Known known st d.source

/-- A record that is made from nothing or from what is there. -/
theorem Refers.emit {r : DatasetRecord} (h : Refers known earlier st)
    (hr : ∀ source, r.source = some source → Known known st source)
    (hrecords : st'.records = st.records ++ [r]) (hdeferred : st'.deferred = st.deferred) :
    Refers known earlier st' where
  inOrder := hrecords ▸ h.inOrder.concat hr
  deferred d hd := by
    rw [Known, hrecords, List.map_append, ← List.append_assoc]
    exact (h.deferred d (hdeferred ▸ hd)).imp_right (List.mem_append_left _)

/-- A record that is made from what is there refers to it, and can be referred to. -/
theorem refers_derived {steps : List Step} (h : Refers known earlier st)
    (hp : Known known st p.source)
    (hrecords : st'.records = st.records ++ [.derived name p.source steps])
    (hdeferred : st'.deferred = st.deferred) : Refers known earlier st' ∧ Known known st' name := by
  refine ⟨h.emit (fun source hs => ?_) hrecords hdeferred, ?_⟩
  · rwa [← Option.some.inj hs]
  · rw [Known, hrecords]
    simp [DatasetRecord.derived]

/-- So does the record of pending steps. -/
theorem Materializes.refers (h : Materializes p st name st') (hst : Refers known earlier st)
    (hp : Known known st p.source) : Refers known earlier st' ∧ Known known st' name := by
  cases h with
  | same => exact ⟨hst, hp⟩
  | record => exact refers_derived hst hp rfl rfl

/-- And what a fork writes. -/
theorem Forks.refers (h : Forks children p st q st') (hst : Refers known earlier st)
    (hp : Known known st p.source) : Refers known earlier st' ∧ Known known st' q.source := by
  cases h with
  | only => exact ⟨hst, hp⟩
  | several _ hm => exact hm.refers hst hp

/-- Entering a tree refers to what is there, and what goes on from it does so as well. -/
theorem Enters.refers {r : Option Pending} (h : Enters underSource id children p st stage r st')
    (hst : Refers known earlier st) (hp : Known known st p.source) :
    Refers known earlier st' ∧ ∀ q, r = some q → Known known st' q.source := by
  cases h with
  | parse => exact ⟨hst, fun q hq => Option.some.inj hq ▸ hp⟩
  | @facet partition source st₁ hm =>
    -- the facet is put off together with what it partitions
    obtain ⟨hst₁, hsource⟩ := hm.refers hst hp
    refine ⟨⟨hst₁.inOrder, fun d hd => ?_⟩, by simp⟩
    rcases List.mem_append.1 hd with hd | hd
    · exact hst₁.deferred d hd
    · obtain rfl := List.mem_singleton.1 hd
      exact .inr hsource
  | @header header =>
    exact And.imp_right (fun _ => by simp) (refers_derived hst hp rfl rfl)
  | @output name required source st₁ hm =>
    obtain ⟨hst₁, hsource⟩ := hm.refers hst hp
    have hp₁ : Known known st₁ ({ source } : Pending).source := hsource
    refine And.imp_right (fun _ q hq => ?_) (refers_derived hst₁ hp₁ rfl rfl)
    rw [← Option.some.inj hq, Known, List.map_append, ← List.append_assoc]
    exact List.mem_append_left _ hsource
  | plain => exact ⟨hst, fun q hq => Option.some.inj hq ▸ hp⟩

/-- Walking trees refers to what is there. -/
theorem Descends.refers (h : Descends underSource f p st st') (hst : Refers known earlier st)
    (hp : Known known st p.source) : Refers known earlier st' := by
  -- on the walk: what was there before a tree is still there after it
  induction h with
  | nil => exact hst
  | stop he _ ih =>
    obtain ⟨hst₁, -⟩ := he.refers hst hp
    exact ih hst₁ (hp.of_progress he.progress_stop)
  | enter he hf hc _ ihc ihr =>
    obtain ⟨hst₁, hq⟩ := he.refers hst hp
    obtain ⟨hst₂, hq'⟩ := hf.refers hst₁ (hq _ rfl)
    have hp' := hp.of_progress (he.progress_enter.trans (hf.progress.trans hc.progress))
    exact ihr (ihc hst₂ hq') hp'

/-- The record of a source is made from nothing, and what is below it refers to it. -/
theorem Grows.refers (h : Grows f st st') (hst : Refers known earlier st) :
    Refers known earlier st' := by
  induction h with
  | nil => exact hst
  | @tree id source children rest name q st st₁ st₂ st₃ st' hn hf hc _ ih =>
    have hst₁ : Refers known earlier
        { st₁ with records := st₁.records ++ [sourceRecord source name children] } := by
      have hnone : ∀ s, (sourceRecord source name children).source = some s → Known known st s :=
        fun s hs => absurd ((sourceRecord_source source name children).symm.trans hs) (by simp)
      cases hn <;> exact hst.emit hnone rfl rfl
    have hname : Known known
        { st₁ with records := st₁.records ++ [sourceRecord source name children] } name := by
      simp [Known, sourceRecord_name]
    obtain ⟨hst₂, hq⟩ := hf.refers hst₁ hname
    exact ih (hc.refers hst₂ hq)

/-- Each facet partitions a dataset that was seen before or that came with a facet before it, and
    its records stand in order. -/
theorem Resumes.refers {n : Nat} {data : List FacetData} (h : Resumes n st data st')
    {seen : List String} (hst : ∀ d ∈ st.deferred, d.source ∈ seen) :
    (∀ d ∈ data, InOrder [d.name] d.datasets) ∧ ∀ before d after, data = before ++ d :: after →
      d.source ∈ seen ++ before.flatMap FacetData.brings := by
  -- facet by facet: those after it see what it brings
  induction h generalizing seen with
  | out | done => exact ⟨by simp, fun before d after h => by simp at h⟩
  | @facet n first rest q st st₁ st₂ st' others h hf hdesc hr ih =>
    rw [h] at hst
    have hresume : Refers [first.partition.name] rest { st with deferred := rest, records := [] } :=
      ⟨.nil _, fun d hd => .inl hd⟩
    obtain ⟨hst₁, hq⟩ := hf.refers hresume (List.mem_append_left _ (List.mem_singleton_self _))
    have hst₂ := hdesc.refers hst₁ hq
    -- what this facet brings is seen by those after it
    generalize hd₀ : (FacetData.mk first.partition.name first.source first.partition.groupby
      st₂.records) = d₀ at *
    have hbrings : d₀.brings = first.partition.name :: st₂.records.map DatasetRecord.name := by
      rw [← hd₀, FacetData.brings]
    obtain ⟨horder, hsource⟩ := @ih (seen ++ d₀.brings) fun d hd =>
      (hst₂.deferred d hd).elim
        (fun hrest => List.mem_append_left _ (hst d (List.mem_cons_of_mem _ hrest)))
        (fun hknown => List.mem_append_right _ (hbrings ▸ hknown))
    refine ⟨fun d hd => ?_, fun before d after heq => ?_⟩
    · rcases List.mem_cons.1 hd with rfl | hd
      · rw [← hd₀]
        exact hst₂.inOrder
      · exact horder d hd
    · cases before with
      | nil =>
        obtain rfl := (List.cons.inj heq).1
        rw [List.flatMap_nil, List.append_nil, ← hd₀]
        exact hst first List.mem_cons_self
      | cons e before =>
        obtain ⟨rfl, hothers⟩ := List.cons.inj heq
        rw [List.flatMap_cons, ← List.append_assoc]
        exact hsource before d after hothers

end Assembly

namespace Flow

open Assembly

variable {earlier st : Assembly} {flow flow' : Flow} {data : CompiledData}

/-- All references of an assembled flow go to what is before them: in the list of the trees to an
    earlier record, in the list of a facet to the facet or to an earlier record, and from a facet to
    a dataset of the trees or to one that came with an earlier facet. -/
theorem assembleAfter_inOrder (h : flow.assembleAfter earlier = (.ok data, st, flow')) :
    InOrder [] data.datasets ∧ (∀ d ∈ data.facets, InOrder [d.name] d.datasets) ∧
      ∀ before d after, data.facets = before ++ d :: after →
        d.source ∈ data.datasets.map DatasetRecord.name ++ before.flatMap FacetData.brings := by
  obtain ⟨hall, -⟩ := assembleAfter_ok h
  obtain ⟨st₁, hgrows, hdatasets, hresumes⟩ := all_ok hall
  have hstart : Refers [] [] (earlier.reset flow) :=
    ⟨.nil _, fun d hd => absurd hd List.not_mem_nil⟩
  have hst₁ := hgrows.refers hstart
  rw [hdatasets]
  refine ⟨hst₁.inOrder, hresumes.refers fun d hd => ?_⟩
  exact (hst₁.deferred d hd).resolve_left List.not_mem_nil

/-- Rows in partitions by `k`, which are cleaned and then both drawn and partitioned again. -/
def nestedPartitions : Flow where
  stages :=
    .node 0 (.source ⟨.named "rows", ""⟩)
      (.node 1 (.facet ⟨"outer", ["k"]⟩)
        (.node 2 (.filter [.expression "datum.x > 0"])
          (.node 3 (.facet ⟨"inner", ["j"]⟩)
            (.node 4 (.calculate "datum.x * 2" "y") (.node 5 (.output "bars" true) .nil .nil) .nil)
            (.node 6 (.output "points" true) .nil .nil)) .nil) .nil) .nil

/-- The inner facet partitions a record that is made inside the outer one. -/
theorem assembleAfter_inOrder_nestedPartitions : ∃ data st flow',
    nestedPartitions.assembleAfter {} = (.ok data, st, flow') ∧
      data.facets.map (fun d => (d.name, d.source, d.datasets.map DatasetRecord.name)) =
        [("outer", "rows", ["data_0", "points"]), ("inner", "data_0", ["data_1", "bars"])] ∧
      InOrder [] data.datasets ∧ (∀ d ∈ data.facets, InOrder [d.name] d.datasets) ∧
      ∀ before d after, data.facets = before ++ d :: after →
        d.source ∈ data.datasets.map DatasetRecord.name ++ before.flatMap FacetData.brings := by
  have hnames : (nestedPartitions.assembleAfter {}).1.toOption.map (fun data => data.facets.map
      fun d => (d.name, d.source, d.datasets.map DatasetRecord.name)) = some
        [("outer", "rows", ["data_0", "points"]), ("inner", "data_0", ["data_1", "bars"])] := by
    decide +kernel
  cases h : nestedPartitions.assembleAfter {} with
  | mk result rest =>
    cases result with
    | error e => simp [h, Except.toOption] at hnames
    | ok data =>
      rw [h] at hnames
      exact ⟨data, _, _, rfl, Option.some.inj hnames, assembleAfter_inOrder h⟩

end Flow

end ChartPipeline
