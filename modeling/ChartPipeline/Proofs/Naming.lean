import ChartPipeline.Proofs.Assembling
import Mathlib.Algebra.GroupWithZero.Nat
import Mathlib.Data.List.Nodup

/-!
# What assembling adds

Assembling only adds to its state.  What it adds is accounted for by the names that stages give
and by the numbers it draws: each is used for one record, or kept for a facet put off, and each
stage comes out once.

## Key results

- `Assembly.Descends.adds`, `Assembly.Grows.adds`: what walking trees adds
- `Assembly.count_generated_le_one`: no number is drawn twice
-/

namespace ChartPipeline

/-- The name that a stage gives to a dataset or to a facet. -/
def Stage.names : Stage → List String
  | .source s => s.datasetName?.toList
  | .output name _ => [name]
  | .facetHeader h => [h.name]
  | .facet p => [p.name]
  | _ => []

namespace Forest

/-- The names that the stages of a forest give. -/
def names (f : Forest Stage) : List String := f.toList.flatMap fun e => e.2.names

@[simp] theorem names_nil : (nil : Forest Stage).names = [] := rfl

/-- The names of a tree are those of its root, then those below, then those after it. -/
@[simp] theorem names_node (i : Nat) (a : Stage) (cs rest : Forest Stage) :
    (node i a cs rest).names = a.names ++ (cs.names ++ rest.names) := by
  simp [names, toList]

/-- The size is the number of names in the walk. -/
theorem size_eq_length_walk {α : Type} (f : Forest α) : f.size = f.walk.length := by
  rw [size, walk, List.length_map]

end Forest

/-- The names given inside a facet that was put off, and its own. -/
def Deferred.names (d : Deferred) : List String := d.partition.name :: d.stages.names

namespace Assembly

open Forest

variable {p q : Pending} {st st₁ st₂ st' : Assembly} {name : String} {id : Nat} {stage : Stage}
  {children f : Forest Stage} {underSource : Bool}

/-! ### Numbers -/

/-- A number can be read back from its digits. -/
theorem toString_inj {m n : Nat} (h : toString m = toString n) : m = n := by
  rw [Nat.toString_eq_ofList_toDigits, Nat.toString_eq_ofList_toDigits, String.ofList_inj] at h
  rw [← @Nat.ofDigitChars_ten_toDigits m, h, Nat.ofDigitChars_ten_toDigits]

/-- Different numbers make different names of datasets. -/
theorem dataName_inj {m n : Nat} (h : dataName m = dataName n) : m = n :=
  toString_inj ((String.append_right_inj _).1 h)

/-- Different numbers make different names of sources. -/
theorem numberedSource_inj {m n : Nat} (h : numberedSource m = numberedSource n) : m = n :=
  toString_inj ((String.append_right_inj _).1 h)

/-- No dataset is named like a source by its number. -/
theorem dataName_ne_numberedSource (m n : Nat) : dataName m ≠ numberedSource n := by
  intro h
  have h := congrArg (fun s => s.toList.head?) h
  -- the first letters differ
  simp [dataName, numberedSource, String.toList_append] at h

/-- The names made of the numbers drawn between two states. -/
def generated (st st' : Assembly) : List String :=
  (List.range' st.nextData (st'.nextData - st.nextData)).map dataName ++
    (List.range' st.nextSource (st'.nextSource - st.nextSource)).map numberedSource

/-- A name made of a number is that of a dataset or of a source. -/
theorem mem_generated (h : name ∈ generated st st') :
    (∃ n, name = dataName n) ∨ ∃ n, name = numberedSource n := by
  rcases List.mem_append.1 h with h | h
  · obtain ⟨n, -, rfl⟩ := List.mem_map.1 h
    exact .inl ⟨n, rfl⟩
  · obtain ⟨n, -, rfl⟩ := List.mem_map.1 h
    exact .inr ⟨n, rfl⟩

/-- No name is made twice. -/
theorem nodup_generated (st st' : Assembly) : (generated st st').Nodup := by
  refine List.nodup_append.2 ⟨?_, ?_, ?_⟩
  · exact (List.nodup_range' ..).map fun _ _ => dataName_inj
  · exact (List.nodup_range' ..).map fun _ _ => numberedSource_inj
  · intro a ha b hb hab
    obtain ⟨m, -, rfl⟩ := List.mem_map.1 ha
    obtain ⟨n, -, rfl⟩ := List.mem_map.1 hb
    exact dataName_ne_numberedSource m n hab

/-- Numbers drawn one after the other are those drawn in the first part and in the second. -/
theorem count_generated_add (hd : st.nextData ≤ st₁.nextData) (hd' : st₁.nextData ≤ st'.nextData)
    (hs : st.nextSource ≤ st₁.nextSource) (hs' : st₁.nextSource ≤ st'.nextSource) (name : String) :
    (generated st st').count name =
      (generated st st₁).count name + (generated st₁ st').count name := by
  -- the numbers from one state to another go through those in between
  have split {a b c : Nat} (hab : a ≤ b) (hbc : b ≤ c) :
      List.range' a (c - a) = List.range' a (b - a) ++ List.range' b (c - b) := by
    have h := @List.range'_append_1 a (b - a) (c - b)
    rw [show a + (b - a) = b by omega, show b - a + (c - b) = c - a by omega] at h
    exact h.symm
  simp only [generated, split hd hd', split hs hs', List.map_append, List.count_append]
  omega

/-! ### What a walk adds -/

/-- What was added to the state, accounted for by names and stages: each stands for at most one of
    the things added. -/
structure Adds (names : List String) (ids : List Nat) (st st' : Assembly)
    (records : List DatasetRecord) (deferred : List Deferred) (resolved : List (Nat × String)) :
    Prop where
  records_eq : st'.records = st.records ++ records
  deferred_eq : st'.deferred = st.deferred ++ deferred
  resolved_eq : st'.resolved = resolved ++ st.resolved
  data_le : st.nextData ≤ st'.nextData
  source_le : st.nextSource ≤ st'.nextSource
  names_le (name : String) : (records.map DatasetRecord.name).count name +
    (deferred.flatMap Deferred.names).count name ≤
      names.count name + (generated st st').count name
  inner_le (name : String) : (deferred.flatMap Deferred.names).count name ≤ names.count name
  ids_le (id : Nat) : (resolved.map Prod.fst).count id +
    (deferred.flatMap (·.stages.walk)).count id ≤ ids.count id
  size_le : (deferred.map fun d => d.stages.size + 1).sum ≤ ids.length

/-- What may be added using some names and stages. -/
def Progress (names : List String) (ids : List Nat) (st st' : Assembly) : Prop :=
  ∃ records deferred resolved, Adds names ids st st' records deferred resolved

/-- Nothing is added. -/
theorem Progress.refl (st : Assembly) : Progress [] [] st st :=
  ⟨[], [], [], by simp, by simp, by simp, Nat.le_refl _, Nat.le_refl _, by simp, by simp,
    by simp, by simp⟩

/-- What is added one after the other. -/
theorem Progress.trans {names names' : List String} {ids ids' : List Nat}
    (h : Progress names ids st st₁) (h' : Progress names' ids' st₁ st') :
    Progress (names ++ names') (ids ++ ids') st st' := by
  obtain ⟨records, deferred, resolved, h⟩ := h
  obtain ⟨records', deferred', resolved', h'⟩ := h'
  refine ⟨records ++ records', deferred ++ deferred', resolved' ++ resolved, ?_, ?_, ?_,
    Nat.le_trans h.data_le h'.data_le, Nat.le_trans h.source_le h'.source_le, fun name => ?_,
    fun name => ?_, fun id => ?_, ?_⟩
  · rw [h'.records_eq, h.records_eq, List.append_assoc]
  · rw [h'.deferred_eq, h.deferred_eq, List.append_assoc]
  · rw [h'.resolved_eq, h.resolved_eq, List.append_assoc]
  -- the numbers drawn on the way are counted in both parts
  · have := h.names_le name
    have := h'.names_le name
    rw [count_generated_add h.data_le h'.data_le h.source_le h'.source_le]
    simp only [List.map_append, List.flatMap_append, List.count_append]
    omega
  · have := h.inner_le name
    have := h'.inner_le name
    simp only [List.flatMap_append, List.count_append]
    omega
  · have := h.ids_le id
    have := h'.ids_le id
    simp only [List.map_append, List.flatMap_append, List.count_append]
    omega
  · have := h.size_le
    have := h'.size_le
    simp only [List.map_append, List.sum_append, List.length_append]
    omega

/-- More names and stages account for as much. -/
theorem Progress.mono {names names' : List String} {ids ids' : List Nat}
    (h : Progress names ids st st') (hnames : ∀ name, names.count name ≤ names'.count name)
    (hids : ∀ id, ids.count id ≤ ids'.count id) (hlen : ids.length ≤ ids'.length) :
    Progress names' ids' st st' := by
  obtain ⟨records, deferred, resolved, h⟩ := h
  exact ⟨records, deferred, resolved, h.records_eq, h.deferred_eq, h.resolved_eq, h.data_le,
    h.source_le, fun name => Nat.le_trans (h.names_le name) (Nat.add_le_add_right (hnames name) _),
    fun name => Nat.le_trans (h.inner_le name) (hnames name),
    fun id => Nat.le_trans (h.ids_le id) (hids id), Nat.le_trans h.size_le hlen⟩

/-- A stage that comes out as a dataset, with a record of a given name. -/
theorem progress_record (st : Assembly) (r : DatasetRecord) (id : Nat) (source : String) :
    Progress [r.name] [id] st
      { st with records := st.records ++ [r], resolved := (id, source) :: st.resolved } := by
  refine ⟨[r], [], [(id, source)], rfl, by simp, rfl, Nat.le_refl _, Nat.le_refl _, fun name => ?_,
    by simp, by simp, by simp⟩
  simp [generated]

/-- A facet that is put off. -/
theorem progress_deferred (st : Assembly) (d : Deferred) (id : Nat) (source : String) :
    Progress d.names (id :: d.stages.walk) st
      { st with resolved := (id, source) :: st.resolved, deferred := st.deferred ++ [d] } := by
  refine ⟨[], [d], [(id, source)], by simp, rfl, rfl, Nat.le_refl _, Nat.le_refl _, fun name => ?_,
    by simp, fun i => ?_, ?_⟩
  · simp [generated]
  · simp only [List.map_cons, List.map_nil, List.flatMap_cons, List.flatMap_nil, List.append_nil,
      List.count_cons, List.count_nil]
    omega
  · simp [size_eq_length_walk]

/-- Making a record uses a number, if it is made. -/
theorem Materializes.progress (h : Materializes p st name st') : Progress [] [] st st' := by
  cases h with
  | same => exact .refl st
  | record h =>
    refine ⟨[.derived (dataName st.nextData) p.source p.steps], [], [], rfl, by simp, by simp,
      Nat.le_succ _, Nat.le_refl _, fun name => ?_, by simp, by simp, by simp⟩
    simp [generated, DatasetRecord.derived, List.range'_one]

/-- So does finding out where the flow goes on. -/
theorem Forks.progress (h : Forks children p st q st') : Progress [] [] st st' := by
  cases h with
  | only => exact .refl st
  | several _ hm => exact hm.progress

/-- A stage that nothing goes on below uses its name and all that is below it. -/
theorem Enters.progress_stop (h : Enters underSource id children p st stage none st') :
    Progress (stage.names ++ children.names) (id :: children.walk) st st' := by
  cases h with
  | @facet partition source st₁ hm =>
    exact hm.progress.trans (progress_deferred st₁ ⟨partition, source, children⟩ id source)
  | @header header hc =>
    subst hc
    exact progress_record st (.derived header.name p.source (p.steps ++ [header.step])) id header.name

/-- A stage that the flow goes on below uses its own name. -/
theorem Enters.progress_enter (h : Enters underSource id children p st stage (some q) st') :
    Progress stage.names [id] st st' := by
  have stays (names : List String) : Progress names [id] st st :=
    (Progress.refl st).mono (by simp) (by simp) (by simp)
  cases h with
  | parse => exact stays _
  | @output name required source st₁ hm =>
    exact hm.progress.trans (progress_record st₁ (.derived name source []) id source)
  | plain => exact stays _

/-- Walking trees uses the names and stages in them. -/
theorem Descends.progress (h : Descends underSource f p st st') :
    Progress f.names f.walk st st' := by
  induction h with
  | nil => exact .refl _
  | stop he _ ih =>
    have h := he.progress_stop.trans ih
    rw [List.append_assoc, List.cons_append] at h
    rwa [names_node, walk_node]
  | enter he hf _ _ ihc ihr =>
    have h := he.progress_enter.trans (hf.progress.trans (ihc.trans ihr))
    rwa [names_node, walk_node]

/-- The record of a source has the name that it is given. -/
theorem sourceRecord_name (source : Source) (name : String) (children : Forest Stage) :
    (sourceRecord source name children).name = name := by
  have hrecord : (source.record name).name = name := by
    unfold Source.record
    split <;> rfl
  unfold sourceRecord
  split <;> exact hrecord

/-- The record of a source uses the name of the source, or a number. -/
theorem Names.progress {source : Source} (h : Names source st name st') (children : Forest Stage) :
    Progress (source.datasetName?.toList) [] st
      { st' with records := st'.records ++ [sourceRecord source name children] } := by
  cases h with
  | own h =>
    refine ⟨[_], [], [], rfl, by simp, by simp, Nat.le_refl _, Nat.le_refl _, fun n => ?_, by simp,
      by simp, by simp⟩
    simp [generated, sourceRecord_name, h]
  | numbered h =>
    refine ⟨[_], [], [], rfl, by simp, by simp, Nat.le_refl _, Nat.le_succ _, fun n => ?_, by simp,
      by simp, by simp⟩
    simp [generated, sourceRecord_name, List.range'_one]

/-- Walking whole trees uses the names and stages in them. -/
theorem Grows.progress (h : Grows f st st') : Progress f.names f.walk st st' := by
  induction h with
  | nil => exact .refl _
  | @tree id source children _ _ _ _ _ _ _ _ hn hf hc _ ih =>
    have h := (hn.progress children).trans (hf.progress.trans (hc.progress.trans ih))
    rw [names_node, walk_node]
    exact h.mono (fun _ => Nat.le_refl _) (fun i => List.count_le_count_cons) (by simp)

end Assembly

end ChartPipeline
