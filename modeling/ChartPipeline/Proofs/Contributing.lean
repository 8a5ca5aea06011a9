import ChartPipeline.Proofs.Conversions
import ChartPipeline.Proofs.Eliminating
import ChartPipeline.Proofs.Emitting
import ChartPipeline.Proofs.Filing
import ChartPipeline.Proofs.Provenance

/-!
# Each step once

Assembling writes every step of every stage into one record, and no step twice: steps that several
branches share are written where the flow forks, steps that are left at the end of a branch are
written there, and what is below a facet is written when its turn comes.  The account holds what is
written, what the facets that are put off will contribute, and what is pending.

A record that loads data has the conversions that are declared, and for another field the type that
the first conversion below the source gives.

## Key results

- `Assembly.Descends.contributes`, `Assembly.Grows.contributes`: the account after walking trees
- `Assembly.Resumes.written`: what walking the facets that were put off writes
- `Flow.assembleAfter_contributes`: what the records of an assembled flow hold
-/

namespace ChartPipeline

/-- The steps of records that are made from others. -/
def derivedSteps (records : List DatasetRecord) : List Step :=
  (records.filter (·.source.isSome)).flatMap DatasetRecord.steps

/-- The derived steps of two lists of records are those of both. -/
@[simp] theorem derivedSteps_append (rs rs' : List DatasetRecord) :
    derivedSteps (rs ++ rs') = derivedSteps rs ++ derivedSteps rs' := by
  rw [derivedSteps, List.filter_append, List.flatMap_append]
  rfl

/-- A record that is made from another one has only derived steps. -/
@[simp] theorem derivedSteps_derived (name source : String) (steps : List Step) :
    derivedSteps [.derived name source steps] = steps :=
  List.append_nil steps

/-- The steps of all stages of a forest; that of a header is its aggregate. -/
def Forest.contributed (f : Forest Stage) : List Step :=
  f.toList.flatMap fun e => e.2.steps ++ e.2.headerSteps

/-- A forest without trees has no steps. -/
@[simp] theorem Forest.contributed_nil : (nil : Forest Stage).contributed = [] := rfl

/-- The steps of the first stage come before those below it, and these before the ones of the other
    trees. -/
@[simp] theorem Forest.contributed_node (i : Nat) (a : Stage) (cs rest : Forest Stage) :
    (node i a cs rest).contributed =
      a.steps ++ a.headerSteps ++ (cs.contributed ++ rest.contributed) := by
  simp [contributed, toList]

namespace Assembly

open Forest

variable {p q : Pending} {st st₁ st' : Assembly} {name : String} {id : Nat} {stage : Stage}
  {children f : Forest Stage} {underSource : Bool}

/-! ### The account -/

/-- The steps that are written, and those that the facets that are put off will contribute. -/
def account (st : Assembly) : List Step :=
  derivedSteps st.records ++ st.deferred.flatMap fun d => d.stages.contributed

/-- From one state with pending steps to another, so many steps are added in all. -/
def Contributes (added : List Step) (st : Assembly) (pending : List Step) (st' : Assembly)
    (pending' : List Step) : Prop :=
  (st'.account ++ pending').Perm (st.account ++ pending ++ added)

/-- Where nothing happens, nothing is added. -/
theorem Contributes.refl (st : Assembly) (pending : List Step) :
    Contributes [] st pending st pending := by
  rw [Contributes, List.append_nil]

/-- What is added one after the other is added in all. -/
theorem Contributes.trans {added added' pending pending₁ pending' : List Step}
    (h : Contributes added st pending st₁ pending₁) (h' : Contributes added' st₁ pending₁ st' pending') :
    Contributes (added ++ added') st pending st' pending' := by
  rw [Contributes, ← List.append_assoc]
  exact List.Perm.trans h' (h.append_right added')

/-- A record is made, of the pending steps and more. -/
theorem contributes_record {r : DatasetRecord} {added pending : List Step}
    (hr : derivedSteps [r] = pending ++ added) (hrecords : st'.records = st.records ++ [r])
    (hdeferred : st'.deferred = st.deferred) : Contributes added st pending st' [] := by
  classical
  refine List.perm_iff_count.2 fun x => ?_
  rw [account, account, hrecords, hdeferred, derivedSteps_append, hr]
  simp only [List.count_append, List.count_nil]
  omega

/-- Pending steps become a record. -/
theorem Materializes.contributes (h : Materializes p st name st') :
    Contributes [] st p.steps st' [] := by
  cases h with
  | same h =>
    rw [h]
    exact .refl st []
  | record =>
    refine contributes_record ?_ rfl rfl
    rw [derivedSteps_derived, List.append_nil]

/-- A fork writes the pending steps once, for all branches. -/
theorem Forks.contributes (h : Forks children p st q st') : Contributes [] st p.steps st' q.steps := by
  cases h with
  | only => exact .refl st p.steps
  | several _ hm => exact hm.contributes

/-- After a fork nothing is pending, unless there is one branch only. -/
theorem Forks.pending (h : Forks children p st q st') :
    q.steps = [] ∨ ∃ i a cs, children = node i a cs nil := by
  cases h with
  | only h => exact .inr ⟨_, _, _, h⟩
  | several => exact .inl rfl

/-- Where a walk stops, everything of the tree is accounted for: a header writes its aggregate, and
    what a facet has below it is put off. -/
theorem Enters.contributes_stop (h : Enters underSource id children p st stage none st') :
    Contributes (node id stage children nil).contributed st p.steps st' [] := by
  rw [contributed_node, contributed_nil, List.append_nil]
  cases h with
  | @facet partition source st₁ hm =>
    -- what is below the facet is put off
    have hfacet : Contributes children.contributed st₁ []
        { st₁ with
          resolved := (id, source) :: st₁.resolved
          deferred := st₁.deferred ++ [⟨partition, source, children⟩] } [] := by
      rw [Contributes, List.append_nil, List.append_nil, account, account, List.flatMap_append,
        ← List.append_assoc, List.flatMap_singleton]
    exact hm.contributes.trans hfacet
  | @header header hc =>
    subst hc
    exact contributes_record (derivedSteps_derived ..) rfl rfl

/-- Where a walk goes on, the steps of the stage are written or pending. -/
theorem Enters.contributes_enter (h : Enters underSource id children p st stage (some q) st') :
    Contributes (stage.steps ++ stage.headerSteps) st p.steps st' q.steps := by
  cases h with
  | parse => exact .refl st p.steps
  | output hm => exact hm.contributes.trans (contributes_record (derivedSteps_derived ..) rfl rfl)
  | plain hplain =>
    have hheader : stage.headerSteps = [] := by
      cases stage <;> first | rfl | exact absurd hplain (by simp [Stage.isPlain, Stage.tag])
    rw [Contributes, hheader, List.append_nil, List.append_assoc]

/-- One tree is entered, and then what is below it is walked. -/
theorem Descends.contributes_tree {q' : Pending} {st₂ st₃ : Assembly}
    (he : Enters underSource id children p st stage (some q) st₁)
    (hf : Forks children q st₁ q' st₂)
    (hc : Contributes children.contributed st₂ q'.steps st₃ []) :
    Contributes (node id stage children .nil).contributed st p.steps st₃ [] := by
  rw [contributed_node, contributed_nil, List.append_nil]
  exact he.contributes_enter.trans (hf.contributes.trans hc)

/-- After the first tree the others are walked; if there are any, nothing is pending. -/
theorem Descends.contributes_cons {rest : Forest Stage}
    (hp : p.steps = [] ∨ ∃ i a cs, node id stage children rest = node i a cs .nil)
    (htree : Contributes (node id stage children .nil).contributed st p.steps st₁ [])
    (hr : Descends underSource rest p st₁ st')
    (ih : p.steps = [] → Contributes rest.contributed st₁ p.steps st' []) :
    Contributes (node id stage children rest).contributed st p.steps st' [] := by
  rcases hp with hp | ⟨i, a, cs, heq⟩
  · have hrest := ih hp
    rw [hp] at hrest
    have hboth := htree.trans hrest
    rw [contributed_node, contributed_nil, List.append_nil, List.append_assoc] at hboth
    rwa [contributed_node]
  · obtain ⟨-, -, -, rfl⟩ := node.inj heq
    cases hr
    exact htree

/-- Walking trees writes the pending steps and those of all their stages, where steps are pending
    only if one tree goes on. -/
theorem Descends.contributes (h : Descends underSource f p st st')
    (hp : p.steps = [] ∨ ∃ i a cs, f = node i a cs .nil) :
    Contributes f.contributed st p.steps st' [] := by
  -- on the walk: a tree is accounted for before the ones beside it, which find nothing pending
  induction h with
  | nil _ p st =>
    rw [hp.resolve_right (by simp)]
    exact .refl st []
  | stop he hr ih => exact contributes_cons hp he.contributes_stop hr fun hp => ih (.inl hp)
  | enter he hf _ hr ihc ihr =>
    have htree := contributes_tree he hf (ihc hf.pending)
    exact contributes_cons hp htree hr fun hp => ihr (.inl hp)

/-- Walking whole trees writes the steps of all their stages. -/
theorem Grows.contributes (h : Grows f st st') : Contributes f.contributed st [] st' [] := by
  -- tree by tree; what is below a source begins with nothing pending
  induction h with
  | nil st => exact .refl st []
  | @tree id source children rest name q st st₁ st₂ st₃ st' hn hf hc _ ih =>
    -- the record of the source itself is not made from another one
    have hsource : Contributes [] st []
        { st₁ with records := st₁.records ++ [sourceRecord source name children] } [] := by
      refine @contributes_record _ _ (sourceRecord source name children) _ _ ?_ ?_ ?_
      · simp [derivedSteps, sourceRecord_source]
      · cases hn <;> rfl
      · cases hn <;> rfl
    rw [contributed_node]
    exact hsource.trans ((hf.contributes.trans (hc.contributes hf.pending)).trans ih)

/-- Walking the facets that were put off writes what they contribute. -/
theorem Resumes.written {n : Nat} {data : List FacetData} (h : Resumes n st data st')
    (hn : weight st ≤ n) :
    (derivedSteps (data.flatMap FacetData.datasets)).Perm
      (st.deferred.flatMap fun d => d.stages.contributed) := by
  -- facet by facet: one leaves the list, and those inside it are put off in its place
  induction h with
  | out st =>
    rw [deferred_eq_nil_of_weight hn]
    exact .nil
  | done h =>
    rw [h]
    exact .nil
  | @facet n d rest q st st₁ st₂ st' others h hf hdesc _ ih =>
    have hothers := ih (weight_of_facet h (progress_of_facet hf hdesc) hn)
    have hfacet := hf.contributes.trans (hdesc.contributes hf.pending)
    -- both sides hold the steps of the facet, and of those that are left or have been put off
    classical
    rw [h]
    refine List.perm_iff_count.2 fun x => ?_
    have hx := hfacet.count_eq x
    have hx' := hothers.count_eq x
    have hnone : derivedSteps [] = [] := rfl
    simp only [account, hnone, List.flatMap_cons, derivedSteps_append, List.count_append,
      List.count_nil] at hx hx' ⊢
    omega

end Assembly

/-! ### The records of sources -/

/-- The conversions that a source declares. -/
def Source.declared (s : Source) : ParseTypes := (s.data.format?.bind DataFormat.parse).getD ∅

/-- A record that loads the data of a source, with a type also for fields for which none is
    declared. -/
structure Source.Converts (s : Source) (type? : String → Option String) (r : DatasetRecord) :
    Prop where
  record_eq : r = { s.record r.name with format := r.format }
  type_eq : r.format.bind DataFormat.type = s.data.format?.bind DataFormat.type
  get? : ∀ field, r.conversions.get? field = (s.declared.get? field).or (type? field)

/-- A record has the format that the data declare. -/
theorem Source.format_record (s : Source) (name : String) :
    (s.record name).format = s.data.format? := by
  unfold record
  cases s.data <;> rfl

/-- So its conversions are those that are declared. -/
theorem Source.conversions_record (s : Source) (name : String) :
    (s.record name).conversions = s.declared := by
  rw [DatasetRecord.conversions, declared, s.format_record]
  cases s.data.format? <;> rfl

namespace Assembly

open Forest

/-- The conversions below a source come after those declared, the first before the others. -/
theorem get?_parseTypesUnder (declared : ParseTypes) (f : Forest Stage) (field : String) :
    (parseTypesUnder declared f).get? field =
      (declared.get? field).or (f.heads.findSome? fun e => e.2.target? field) := by
  -- on the trees in order, where each conversion adds the fields that have no type yet
  induction f generalizing declared with
  | nil => simp [parseTypesUnder, heads]
  | node i a cs rest _ ih =>
    cases a with
    | parse types =>
      rw [parseTypesUnder, ih, heads, List.findSome?_cons, SortedMap.union, SortedMap.get?_mergeWith,
        show (Stage.parse types).target? field = types.get? field from rfl]
      cases SortedMap.get? declared field <;> cases SortedMap.get? types field <;> rfl
    | _ => exact ih declared

/-- The record of a source is converted as declared, and by the conversions among the children. -/
theorem converts_sourceRecord (s : Source) (name : String) (f : Forest Stage) :
    s.Converts (fun field => f.heads.findSome? fun e => e.2.target? field)
      (sourceRecord s name f) := by
  have hget (field : String) :
      (parseTypesUnder (s.record name).conversions f).get? field =
        (s.declared.get? field).or (f.heads.findSome? fun e => e.2.target? field) := by
    rw [get?_parseTypesUnder, s.conversions_record]
  have hname := sourceRecord_name s name f
  -- the record is only changed if there is a conversion
  cases hparse : hasParse f with
  | true =>
    have hrecord := sourceRecord_of_hasParse s name hparse
    refine ⟨?_, ?_, fun field => ?_⟩
    · rw [hname, hrecord]
    · rw [hrecord, Option.bind_some, s.format_record]
      cases s.data.format? <;> rfl
    · rw [← hget, hrecord]
      rfl
  | false =>
    have hrecord := sourceRecord_of_not_hasParse s name hparse
    refine ⟨?_, ?_, fun field => ?_⟩
    · rw [hname, hrecord]
    · rw [hrecord, s.format_record]
    · rw [← hget, hrecord, parseTypesUnder_of_not_hasParse _ hparse]

end Assembly

namespace Flow

open Assembly Forest

variable {flow flow' : Flow} {earlier st st' : Assembly} {data : CompiledData}

/-- The type for a field that the first of the conversions among some stages gives. -/
def firstType? (flow : Flow) (ids : List Nat) (field : String) : Option String :=
  ids.findSome? fun id => (flow.stage? id).bind (Stage.target? field)

/-- A record is that of a root: it loads the data of the source there, converted as declared and as
    the first conversion among the children says. -/
def LoadedBy (flow : Flow) (root : Nat) (r : DatasetRecord) : Prop :=
  ∃ s, flow.stage? root = some (.source s) ∧
    s.Converts (flow.firstType? (flow.stages.children root)) r

/-- The types that the roots of a part give are those that their stages name. -/
theorem firstType?_roots (hn : flow.stages.walk.Nodup) {cs : Forest Stage}
    (hcs : cs.toList ⊆ flow.stages.toList) (field : String) :
    flow.firstType? cs.roots field = cs.heads.findSome? fun e => e.2.target? field := by
  induction cs with
  | nil => rfl
  | node i a gc rest _ ih =>
    have hstage := stage?_of_mem_toList hn (hcs List.mem_cons_self)
    have hrest : rest.toList ⊆ flow.stages.toList := fun e he =>
      hcs (List.mem_cons_of_mem _ (List.mem_append_right _ he))
    rw [firstType?] at ih ⊢
    rw [roots, heads, List.findSome?_cons, List.findSome?_cons, hstage, Option.bind_some, ih hrest]

/-- The record that is made at a root is that of the root. -/
theorem loadedBy_sourceRecord (hn : flow.stages.walk.Nodup) {done cs rest : Forest Stage}
    {root : Nat} {s : Source} (hst : flow.stages = done ++ node root (.source s) cs rest)
    (name : String) : flow.LoadedBy root (sourceRecord s name cs) := by
  have hfill : flow.stages = fill [⟨done, root, .source s, rest⟩] cs := hst
  have hchildren : flow.stages.children root = cs.roots := by
    rw [hfill] at hn ⊢
    exact children_first hn
  have hmem : (root, .source s) ∈ flow.stages.toList := by simp [hst, toList]
  have hcs : cs.toList ⊆ flow.stages.toList := by
    intro e he
    simp [hst, toList, he]
  refine ⟨s, stage?_of_mem_toList hn hmem, ?_⟩
  have h := converts_sourceRecord s name cs
  rw [hchildren]
  exact { h with get? := fun field => by rw [h.get?, firstType?_roots hn hcs] }

end Flow

namespace Assembly

open Forest

variable {flow : Flow} {st st₁ st' : Assembly} {p : Pending} {f : Forest Stage}

/-- The records that are not made from others. -/
def loaded (records : List DatasetRecord) : List DatasetRecord :=
  records.filter (·.source.isNone)

/-- Records that are made from others load nothing. -/
theorem loaded_eq_nil {records : List DatasetRecord} (h : ∀ r ∈ records, r.source.isSome = true) :
    loaded records = [] := by
  refine List.filter_eq_nil_iff.2 fun r hr => ?_
  simpa [Option.isSome_iff_ne_none] using h r hr

/-- Trees below a root do not load data. -/
theorem Making.loaded_eq {items : List Item} (h : Making items [] [] st st') :
    loaded st'.records = loaded st.records := by
  obtain ⟨records, named, counted, deferred, hm⟩ := h
  have hnone : loaded records = [] :=
    loaded_eq_nil fun r hr => hm.derives.derived r (hm.split.mem_iff.1 hr)
  rw [hm.records_eq, loaded, List.filter_append]
  exact (congrArg _ hnone).trans (List.append_nil _)

/-- Walking whole trees loads the data of their roots, in order. -/
theorem Grows.loadedBy (h : Grows f st st') (hn : flow.stages.walk.Nodup) {done : Forest Stage}
    (hst : flow.stages = done ++ f) : ∃ records, loaded st'.records = loaded st.records ++ records ∧
      List.Forall₂ flow.LoadedBy f.roots records := by
  induction h generalizing done with
  | nil st => exact ⟨[], (List.append_nil _).symm, .nil⟩
  | @tree id source children rest name q st st₁ st₂ st₃ st' hname hf hc _ ih =>
    have hrest : flow.stages = done ++ node id (.source source) children .nil ++ rest := by
      rw [append_assoc]
      exact hst
    obtain ⟨records, hrecords, hloaded⟩ := ih hrest
    refine ⟨sourceRecord source name children :: records, ?_,
      .cons (Flow.loadedBy_sourceRecord hn hst name) hloaded⟩
    have hsame : st₁.records = st.records := by cases hname <;> rfl
    have hone : loaded [sourceRecord source name children] = [sourceRecord source name children] := by
      simp [loaded, sourceRecord_source]
    rw [hrecords, (hf.makes.trans hc.makes).loaded_eq, hsame]
    simp only [loaded, List.filter_append] at hone ⊢
    rw [hone, List.append_assoc]
    rfl

end Assembly

namespace Flow

open Assembly Forest

variable {flow flow' : Flow} {earlier st : Assembly} {data : CompiledData}

/-- Each step of the stages of an assembled flow is written in one record. -/
theorem derivedSteps_of_assembleAfter (h : flow.assembleAfter earlier = (.ok data, st, flow')) :
    (derivedSteps data.records).Perm flow.stages.contributed := by
  obtain ⟨hall, -⟩ := assembleAfter_ok h
  obtain ⟨st₁, hgrows, hdatasets, hresumes⟩ := all_ok hall
  have haccount := hgrows.contributes
  have hwritten := hresumes.written (hgrows.weight_le rfl)
  rw [CompiledData.records, derivedSteps_append, hdatasets]
  rw [Contributes, List.append_nil, List.append_nil,
    show (earlier.reset flow).account = [] from rfl, List.nil_append] at haccount
  exact (hwritten.append_left _).trans haccount

/-- The datasets of an assembled flow that are not made from others are those of its roots. -/
theorem loadedBy_of_assembleAfter (hn : flow.stages.walk.Nodup)
    (h : flow.assembleAfter earlier = (.ok data, st, flow')) :
    List.Forall₂ flow.LoadedBy flow.stages.roots (loaded data.datasets) := by
  obtain ⟨hall, -⟩ := assembleAfter_ok h
  obtain ⟨st₁, hgrows, hdatasets, -⟩ := all_ok hall
  obtain ⟨records, hrecords, hloaded⟩ := hgrows.loadedBy hn (nil_append _).symm
  rw [hdatasets, hrecords]
  exact hloaded

/-- The datasets of facets are all made from others. -/
theorem loaded_facet_of_assembleAfter (h : flow.assembleAfter earlier = (.ok data, st, flow'))
    {facet : FacetData} (hfacet : facet ∈ data.facets) : loaded facet.datasets = [] := by
  obtain ⟨hall, -⟩ := assembleAfter_ok h
  obtain ⟨st₁, hgrows, -, hresumes⟩ := all_ok hall
  obtain ⟨named, counted, hsplit, hderives, -⟩ := hresumes.makes (hgrows.weight_le rfl)
  refine loaded_eq_nil fun r hr => ?_
  have hmem : r ∈ data.facets.flatMap FacetData.datasets := List.mem_flatMap.2 ⟨facet, hfacet, hr⟩
  exact hderives.derived r (hsplit.mem_iff.1 hmem)

/-- A record that is not made from another one is that of a root. -/
theorem exists_loadedBy_of_mem (hn : flow.stages.walk.Nodup)
    (h : flow.assembleAfter earlier = (.ok data, st, flow')) {r : DatasetRecord}
    (hr : r ∈ data.records) (hsource : r.source = none) :
    ∃ root ∈ flow.stages.roots, flow.LoadedBy root r := by
  have hload {records : List DatasetRecord} (hr : r ∈ records) : r ∈ loaded records :=
    List.mem_filter.2 ⟨hr, by rw [hsource]; rfl⟩
  rw [CompiledData.records, List.mem_append, List.mem_flatMap] at hr
  -- it is no record of a facet, since all of these are made from others
  rcases hr with hr | ⟨facet, hfacet, hr⟩
  · exact exists_mem_of_forall₂ (loadedBy_of_assembleAfter hn h).flip (hload hr)
  · exact absurd (loaded_facet_of_assembleAfter h hfacet ▸ hload hr) (by simp)

/-- An assembled flow has each step of its stages in one record, once for each time that a stage
    has it.  Besides, its datasets are those of the roots, one for each in order, with the
    conversions that are declared and then those below the root.  Facets have no datasets that are
    not made from others.  Assembling from stage to stage, which writes conversions back into
    records by their places, comes out with the same records. -/
theorem assembleAfter_contributes (hn : flow.stages.walk.Nodup)
    (h : flow.assembleAfter earlier = (.ok data, st, flow')) :
    (derivedSteps data.records).Perm flow.stages.contributed ∧
      List.Forall₂ flow.LoadedBy flow.stages.roots (loaded data.datasets) ∧
      (∀ facet ∈ data.facets, loaded facet.datasets = []) ∧
      (flow.fileAfter earlier).1 = .ok data := by
  refine ⟨derivedSteps_of_assembleAfter h, loadedBy_of_assembleAfter hn h,
    fun _ hfacet => loaded_facet_of_assembleAfter h hfacet, ?_⟩
  rw [(fileAfter_eq hn earlier).1, h]
  rfl

/-- Types for two fields. -/
def typedRows : ParseTypes :=
  ((∅ : ParseTypes).insert "x" "number").insert "k" "string"

/-- Rows with one type declared, two conversions, and steps that a fork, a header and facets in a
    facet share. -/
def convertedRows : Flow where
  stages :=
    .node 0 (.source ⟨.url "rows.csv" (some ⟨none, some ((∅ : ParseTypes).insert "x" "date")⟩), ""⟩)
      (.node 1 (.parse typedRows)
        (.node 2 (.filter [.expression "datum.x > 0"])
          (.leaf 3 (.facetHeader ⟨"columns", "k", .column⟩) ++
            .node 4 (.facet ⟨"cells", ["k"]⟩)
              (.node 5 (.calculate "datum.x * 2" "y")
                (.node 6 (.facet ⟨"parts", ["x"]⟩) (.leaf 7 (.calculate "datum.y + 1" "z")) .nil)
                .nil) .nil)
          .nil)
        (.leaf 8 (.parse ((∅ : ParseTypes).insert "k" "boolean")))) .nil

/-- The filter is written once, before the header and the facet, and the steps in the facets are
    written where they end; the declared type and then the first one stay. -/
theorem assembleAfter_contributes_convertedRows : ∃ data st flow',
    convertedRows.stages.walk.Nodup ∧ convertedRows.assembleAfter {} = (.ok data, st, flow') ∧
      (derivedSteps data.records).Perm
        [.filter "datum.x > 0", .aggregate ["k"] [] [] [], .formula "datum.x * 2" "y",
          .formula "datum.y + 1" "z"] ∧
      ∃ r, loaded data.datasets = [r] ∧
        r.conversions.get? "x" = some "date" ∧ r.conversions.get? "k" = some "string" := by
  have hn : convertedRows.stages.walk.Nodup := by decide
  obtain ⟨data, st, flow', hrun⟩ : ∃ data st flow',
      convertedRows.assembleAfter {} = (.ok data, st, flow') := ⟨_, _, _, rfl⟩
  obtain ⟨hsteps, hloaded, -⟩ := assembleAfter_contributes hn hrun
  obtain ⟨r, rs, ⟨s, hs, hconverts⟩, hrest, hr⟩ := List.forall₂_cons_left_iff.1
    (show List.Forall₂ convertedRows.LoadedBy [0] (loaded data.datasets) from hloaded)
  obtain rfl := List.forall₂_nil_left_iff.1 hrest
  obtain rfl := Stage.source.inj (Option.some.inj hs)
  refine ⟨data, st, flow', hn, hrun, hsteps, r, hr, ?_, ?_⟩
  · rw [hconverts.get?]
    rfl
  · rw [hconverts.get?]
    rfl

end Flow

end ChartPipeline
