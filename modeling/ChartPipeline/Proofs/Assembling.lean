import ChartPipeline.Flow.Assembly
import ChartPipeline.Proofs.Places
import ChartPipeline.Proofs.Climbing

/-!
# What assembling does

Assembling threads its state through the trees of a forest.  `Descends` says what one walk of it
does, step by step, and `Enters` what a stage can do to the state.  Assembling can only fail at a
stage in a wrong place: where sources stand first, conversions right below them, and nothing
below a header, it succeeds.

## Key results

- `Assembly.all_ok`: assembling that succeeds has walked all trees and then the facets put off
- `Assembly.all_total`: a forest whose stages are placed right is assembled
-/

namespace ChartPipeline

/-- Whether the steps of a stage only join the pending ones. -/
def Stage.isPlain (a : Stage) : Bool :=
  match a.tag with
  | .source | .parse | .facet | .facetHeader | .output => false
  | _ => true

namespace Assembly

open Forest

variable {p q : Pending} {st st' st₁ : Assembly} {name : String} {id : Nat} {stage : Stage}
  {children f : Forest Stage} {underSource : Bool}

/-! ### The steps of assembling -/

/-- The name of a dataset without a name of its own. -/
def dataName (n : Nat) : String := "data_" ++ toString n

/-- The name of a source without a name of its own. -/
def numberedSource (n : Nat) : String := "source_" ++ toString n

/-- A record of the pending steps is made, if there are any. -/
inductive Materializes (p : Pending) (st : Assembly) : String → Assembly → Prop
  | same (h : p.steps = []) : Materializes p st p.source st
  | record (h : p.steps ≠ []) :
      Materializes p st (dataName st.nextData)
        { st with
          nextData := st.nextData + 1
          records := st.records ++ [.derived (dataName st.nextData) p.source p.steps] }

/-- Making a record always succeeds. -/
theorem materialize_run (p : Pending) (st : Assembly) :
    ∃ name st', materialize p st = (.ok name, st') ∧ Materializes p st name st' := by
  by_cases h : p.steps = []
  · refine ⟨_, _, ?_, .same h⟩
    rw [materialize, h, List.isEmpty_nil, if_pos rfl]
    rfl
  · refine ⟨_, _, ?_, .record h⟩
    rw [materialize, if_neg (by simpa using h)]
    rfl

/-- What making a record has done. -/
theorem materialize_ok (h : materialize p st = (.ok name, st')) : Materializes p st name st' := by
  obtain ⟨name', st₁, hrun, hm⟩ := materialize_run p st
  obtain ⟨hname, rfl⟩ := Prod.mk.inj (hrun.symm.trans h)
  exact Except.ok.inj hname ▸ hm

/-- Where the flow goes on: with the pending steps to an only child, and else from a record of
    them. -/
inductive Forks (children : Forest Stage) (p : Pending) (st : Assembly) : Pending → Assembly → Prop
  | only {i a cs} (h : children = node i a cs nil) : Forks children p st p st
  | several {name : String} {st' : Assembly} (h : children.single? = none)
      (hm : Materializes p st name st') :
      Forks children p st { source := name } st'

/-- Finding out where the flow goes on always succeeds. -/
theorem fork_run (children : Forest Stage) (p : Pending) (st : Assembly) :
    ∃ q st', fork children p st = (.ok q, st') ∧ Forks children p st q st' := by
  cases h : children.single? with
  | some tree =>
    obtain ⟨i, a, cs⟩ := tree
    refine ⟨p, st, ?_, .only (single?_eq_some.1 h)⟩
    rw [fork, h]
    rfl
  | none =>
    obtain ⟨name, st', hrun, hm⟩ := materialize_run p st
    refine ⟨_, st', ?_, .several h hm⟩
    rw [fork, h]
    exact Run.bind_ok hrun

/-- What this has done. -/
theorem fork_ok (h : fork children p st = (.ok q, st')) : Forks children p st q st' := by
  obtain ⟨q', st₁, hrun, hf⟩ := fork_run children p st
  obtain ⟨hq, rfl⟩ := Prod.mk.inj (hrun.symm.trans h)
  exact Except.ok.inj hq ▸ hf

/-- What a stage does to the state, and how the flow goes on below it, if it does. -/
inductive Enters (underSource : Bool) (id : Nat) (children : Forest Stage) (p : Pending)
    (st : Assembly) : Stage → Option Pending → Assembly → Prop
  | parse {types} (h : underSource = true) :
      Enters underSource id children p st (.parse types) (some p) st
  | facet {partition : Partition} {source : String} {st' : Assembly}
      (hm : Materializes p st source st') :
      Enters underSource id children p st (.facet partition) none
        { st' with
          resolved := (id, source) :: st'.resolved
          deferred := st'.deferred ++ [⟨partition, source, children⟩] }
  | header {header} (h : children = nil) :
      Enters underSource id children p st (.facetHeader header) none
        { st with
          records := st.records ++ [.derived header.name p.source (p.steps ++ [header.step])]
          resolved := (id, header.name) :: st.resolved }
  | output {name : String} {required : Bool} {source : String} {st' : Assembly}
      (hm : Materializes p st source st') :
      Enters underSource id children p st (.output name required) (some { source })
        { st' with
          records := st'.records ++ [.derived name source []]
          resolved := (id, source) :: st'.resolved }
  | plain {stage : Stage} (h : stage.isPlain = true) :
      Enters underSource id children p st stage (some { p with steps := p.steps ++ stage.steps }) st

/-- What entering a stage has done, if it succeeded. -/
theorem enter_ok {r : Option Pending}
    (h : enter underSource id stage children p st = (.ok r, st')) :
    Enters underSource id children p st stage r st' := by
  -- each kind of stage that is entered without failing is one case of the relation
  cases stage with
  | source s => exact absurd h Run.throw_ne_ok
  | parse types =>
    cases underSource with
    | false => exact absurd h Run.throw_ne_ok
    | true =>
      obtain ⟨hr, rfl⟩ := Prod.mk.inj h
      obtain rfl := Except.ok.inj hr
      exact .parse rfl
  | facet partition =>
    obtain ⟨source, st₁, hm, h⟩ := Run.bind_eq_ok h
    obtain ⟨hr, rfl⟩ := Prod.mk.inj h
    obtain rfl := Except.ok.inj hr
    exact .facet (materialize_ok hm)
  | facetHeader header =>
    cases hc : children.isEmpty with
    | false =>
      rw [enter, hc] at h
      exact absurd h Run.throw_ne_ok
    | true =>
      rw [enter, hc, if_pos rfl] at h
      obtain ⟨hr, rfl⟩ := Prod.mk.inj h
      obtain rfl := Except.ok.inj hr
      exact .header (isEmpty_iff.1 hc)
  | output name required =>
    obtain ⟨source, st₁, hm, h⟩ := Run.bind_eq_ok h
    obtain ⟨hr, rfl⟩ := Prod.mk.inj h
    obtain rfl := Except.ok.inj hr
    exact .output (materialize_ok hm)
  | filter | calculate | nullFilter | bin | timeUnit | aggregate | order | stack | positiveFilter =>
    obtain ⟨hr, rfl⟩ := Prod.mk.inj h
    obtain rfl := Except.ok.inj hr
    exact .plain rfl

/-- The walk through trees that go on from one point. -/
inductive Descends : Bool → Forest Stage → Pending → Assembly → Assembly → Prop
  | nil (underSource : Bool) (p : Pending) (st : Assembly) : Descends underSource nil p st st
  /-- Nothing goes on below the stage. -/
  | stop {underSource : Bool} {id : Nat} {stage : Stage} {children rest : Forest Stage}
      {p : Pending} {st st₁ st' : Assembly}
      (he : Enters underSource id children p st stage none st₁)
      (hr : Descends underSource rest p st₁ st') :
      Descends underSource (node id stage children rest) p st st'
  | enter {underSource : Bool} {id : Nat} {stage : Stage} {children rest : Forest Stage}
      {p q q' : Pending} {st st₁ st₂ st₃ st' : Assembly}
      (he : Enters underSource id children p st stage (some q) st₁)
      (hf : Forks children q st₁ q' st₂) (hc : Descends false children q' st₂ st₃)
      (hr : Descends underSource rest p st₃ st') :
      Descends underSource (node id stage children rest) p st st'

/-- What walking through trees below a source has done, if it succeeded. -/
theorem descend_ok (h : descend underSource f p st = (.ok (), st')) :
    Descends underSource f p st st' := by
  induction f generalizing underSource p st st' with
  | nil =>
    obtain ⟨-, rfl⟩ := Prod.mk.inj h
    exact .nil _ _ _
  | node id stage children rest ihc ihr =>
    obtain ⟨r, st₁, he, h⟩ := Run.bind_eq_ok h
    cases r with
    | none => exact .stop (enter_ok he) (ihr h)
    | some q =>
      obtain ⟨q', st₂, hf, h⟩ := Run.bind_eq_ok h
      obtain ⟨_, st₃, hc, hr⟩ := Run.bind_eq_ok h
      exact .enter (enter_ok he) (fork_ok hf) (ihc hc) (ihr hr)

/-! ### Trees and facets -/

/-- The name of a source's record. -/
inductive Names (source : Source) (st : Assembly) : String → Assembly → Prop
  | own {name : String} (h : source.datasetName? = some name) : Names source st name st
  | numbered (h : source.datasetName? = none) :
      Names source st (numberedSource st.nextSource) { st with nextSource := st.nextSource + 1 }

/-- A source always gets a name. -/
theorem sourceName_run (source : Source) (st : Assembly) :
    ∃ name st', sourceName source st = (.ok name, st') ∧ Names source st name st' := by
  cases h : source.datasetName? with
  | some name =>
    refine ⟨name, st, ?_, .own h⟩
    rw [sourceName, h]
    rfl
  | none =>
    refine ⟨_, _, ?_, .numbered h⟩
    rw [sourceName, h]
    rfl

/-- The walk through trees that begin with sources. -/
inductive Grows : Forest Stage → Assembly → Assembly → Prop
  | nil (st : Assembly) : Grows nil st st
  | tree {id : Nat} {source : Source} {children rest : Forest Stage} {name : String} {q : Pending}
      {st st₁ st₂ st₃ st' : Assembly} (hn : Names source st name st₁)
      (hf : Forks children { source := name }
        { st₁ with records := st₁.records ++ [sourceRecord source name children] } q st₂)
      (hc : Descends true children q st₂ st₃) (hr : Grows rest st₃ st') :
      Grows (node id (.source source) children rest) st st'

/-- What walking through whole trees has done, if it succeeded. -/
theorem trees_ok (h : trees f st = (.ok (), st')) : Grows f st st' := by
  induction f generalizing st st' with
  | nil =>
    obtain ⟨-, rfl⟩ := Prod.mk.inj h
    exact .nil _
  | node id stage children rest ihc ihr =>
    cases stage with
    | source source =>
      obtain ⟨name, st₁, hname, hn⟩ := sourceName_run source st
      obtain ⟨name', st₁', hname', h⟩ := Run.bind_eq_ok h
      obtain ⟨he, rfl⟩ := Prod.mk.inj (hname.symm.trans hname')
      obtain rfl := Except.ok.inj he
      obtain ⟨_, st₂, hemit, h⟩ := Run.bind_eq_ok h
      obtain ⟨-, rfl⟩ := Prod.mk.inj hemit
      -- the record of the source comes first, then the fork below it, then the other trees
      obtain ⟨q, st₂, hf, h⟩ := Run.bind_eq_ok h
      obtain ⟨_, st₃, hc, hr⟩ := Run.bind_eq_ok h
      exact .tree hn (fork_ok hf) (descend_ok hc) (ihr hr)
    | _ => exact absurd h Run.throw_ne_ok

/-- The walks through the facets that were put off, at most so many. -/
inductive Resumes : Nat → Assembly → List FacetData → Assembly → Prop
  | out (st : Assembly) : Resumes 0 st [] st
  | done {n : Nat} {st : Assembly} (h : st.deferred = []) : Resumes (n + 1) st [] st
  | facet {n : Nat} {d : Deferred} {rest : List Deferred} {q : Pending}
      {st st₁ st₂ st' : Assembly} {others : List FacetData} (h : st.deferred = d :: rest)
      (hf : Forks d.stages { source := d.partition.name }
        { st with deferred := rest, records := [] } q st₁)
      (hd : Descends false d.stages q st₁ st₂) (hr : Resumes n st₂ others st') :
      Resumes (n + 1) st
        ({ name := d.partition.name, source := d.source, groupby := d.partition.groupby,
           datasets := st₂.records } :: others) st'

/-- What walking through the facets put off has done, if it succeeded. -/
theorem facets_ok {n : Nat} {data : List FacetData} (h : facets n st = (.ok data, st')) :
    Resumes n st data st' := by
  -- by the number of facets that may still be walked through
  induction n generalizing st data with
  | zero =>
    obtain ⟨hd, rfl⟩ := Prod.mk.inj h
    obtain rfl := Except.ok.inj hd
    exact .out _
  | succ n ih =>
    rw [facets, Run.bind_ok (Run.get_run st)] at h
    cases hst : st.deferred with
    | nil =>
      rw [hst] at h
      obtain ⟨hd, rfl⟩ := Prod.mk.inj h
      obtain rfl := Except.ok.inj hd
      exact .done hst
    | cons d rest =>
      rw [hst] at h
      obtain ⟨_, st₀, hset, h⟩ := Run.bind_eq_ok h
      obtain ⟨-, rfl⟩ := Prod.mk.inj hset
      obtain ⟨q, st₁, hf, h⟩ := Run.bind_eq_ok h
      obtain ⟨_, st₂, hdesc, h⟩ := Run.bind_eq_ok h
      rw [Run.bind_ok (Run.get_run st₂)] at h
      obtain ⟨others, st₃, hrest, h⟩ := Run.bind_eq_ok h
      obtain ⟨hdata, rfl⟩ := Prod.mk.inj h
      obtain rfl := Except.ok.inj hdata
      exact .facet hst (fork_ok hf) (descend_ok hdesc) (ih hrest)

/-- Assembling that succeeds has walked all trees and then the facets put off. -/
theorem all_ok {stages : Forest Stage} {data : CompiledData}
    (h : all stages st = (.ok data, st')) :
    ∃ st₁, Grows stages st st₁ ∧ data.datasets = st₁.records ∧
      Resumes stages.size st₁ data.facets st' := by
  obtain ⟨_, st₁, ht, h⟩ := Run.bind_eq_ok h
  rw [Run.bind_ok (Run.get_run st₁)] at h
  obtain ⟨others, st₂, hf, h⟩ := Run.bind_eq_ok h
  obtain ⟨hdata, rfl⟩ := Prod.mk.inj h
  obtain rfl := Except.ok.inj hdata
  exact ⟨st₁, trees_ok ht, rfl, facets_ok hf⟩

/-! ### Assembling that cannot fail -/

/-- Trees below a source in which every stage stands where it may: no source again, conversions
    only right below the source, and nothing below a header. -/
def Placed (underSource : Bool) : Forest Stage → Prop
  | .nil => True
  | .node _ a cs rest =>
    a.tag ≠ .source ∧ (a.tag = .parse → underSource = true) ∧ (a.tag = .facetHeader → cs = .nil) ∧
      Placed false cs ∧ Placed underSource rest

/-- Trees that begin with sources and are placed right below. -/
def Rooted : Forest Stage → Prop
  | .nil => True
  | .node _ a cs rest => a.tag = .source ∧ Placed true cs ∧ Rooted rest

/-- Entering a stage succeeds where it may stand. -/
theorem enter_total (hs : stage.tag ≠ .source) (hp : stage.tag = .parse → underSource = true)
    (hh : stage.tag = .facetHeader → children = nil) (id : Nat) (p : Pending) (st : Assembly) :
    ∃ r st', enter underSource id stage children p st = (.ok r, st') := by
  -- the conditions exclude the kinds that fail, and the others always end
  cases stage with
  | source => exact absurd rfl hs
  | parse =>
    obtain rfl := hp rfl
    exact ⟨_, _, rfl⟩
  | facetHeader =>
    obtain rfl := hh rfl
    exact ⟨_, _, rfl⟩
  | facet =>
    obtain ⟨name, st', hm, -⟩ := materialize_run p st
    exact ⟨_, _, (Run.bind_ok hm).trans rfl⟩
  | output =>
    obtain ⟨name, st', hm, -⟩ := materialize_run p st
    exact ⟨_, _, (Run.bind_ok hm).trans rfl⟩
  | filter | calculate | nullFilter | bin | timeUnit | aggregate | order | stack | positiveFilter =>
    exact ⟨_, _, rfl⟩

/-- Walking through trees succeeds where each stage stands in its place. -/
theorem descend_total (hf : Placed underSource f) (p : Pending) (st : Assembly) :
    ∃ st', descend underSource f p st = (.ok (), st') := by
  induction f generalizing underSource p st with
  | nil => exact ⟨st, rfl⟩
  | node id stage children rest ihc ihr =>
    obtain ⟨hs, hp, hh, hc, hr⟩ := hf
    obtain ⟨r, st₁, he⟩ := enter_total hs hp hh id p st
    cases r with
    | none =>
      obtain ⟨st', hrest⟩ := ihr hr p st₁
      exact ⟨st', (Run.bind_ok he).trans hrest⟩
    | some q =>
      obtain ⟨q', st₂, hfork, -⟩ := fork_run children q st₁
      obtain ⟨st₃, hchildren⟩ := ihc hc q' st₂
      obtain ⟨st', hrest⟩ := ihr hr p st₃
      -- the stage, the way on below it, its children, and the trees after it
      refine ⟨st', (Run.bind_ok he).trans ((Run.bind_ok hfork).trans ?_)⟩
      exact (Run.bind_ok hchildren).trans hrest

/-- Every facet put off has its stages placed right. -/
def Postponed (st : Assembly) : Prop := ∀ d ∈ st.deferred, Placed false d.stages

/-- Making a record puts off no facet. -/
theorem Materializes.deferred (h : Materializes p st name st') : st'.deferred = st.deferred := by
  cases h <;> rfl

/-- Finding out where the flow goes on puts off no facet. -/
theorem Forks.deferred (h : Forks children p st q st') : st'.deferred = st.deferred := by
  cases h with
  | only => rfl
  | several _ hm => exact hm.deferred

/-- A facet is put off with the stages below it, which are placed right. -/
theorem Enters.postponed {r : Option Pending} (h : Enters underSource id children p st stage r st')
    (hc : Placed false children) (hst : Postponed st) : Postponed st' := by
  cases h with
  | parse | header | plain => exact hst
  | output hm =>
    intro d hd
    exact hst d (hm.deferred ▸ hd)
  | facet hm =>
    intro d hd
    rcases List.mem_append.1 hd with hd | hd
    · exact hst d (hm.deferred ▸ hd)
    · obtain rfl := List.mem_singleton.1 hd
      exact hc

/-- Walking through well placed trees puts off well placed ones. -/
theorem Descends.postponed (h : Descends underSource f p st st') (hf : Placed underSource f)
    (hst : Postponed st) : Postponed st' := by
  induction h with
  | nil => exact hst
  | stop he _ ih =>
    obtain ⟨-, -, -, hc, hr⟩ := hf
    exact ih hr (he.postponed hc hst)
  | enter he hfork _ _ ihc ihr =>
    obtain ⟨-, -, -, hc, hr⟩ := hf
    refine ihr hr (ihc hc fun d hd => ?_)
    exact he.postponed hc hst d (hfork.deferred ▸ hd)

/-- Walking through whole trees succeeds if each begins with a source and is placed right. -/
theorem trees_total (hf : Rooted f) (hst : Postponed st) :
    ∃ st', trees f st = (.ok (), st') ∧ Postponed st' := by
  induction f generalizing st with
  | nil => exact ⟨st, rfl, hst⟩
  | node id stage children rest _ ih =>
    obtain ⟨hs, hc, hr⟩ := hf
    obtain ⟨source, rfl⟩ : ∃ source, stage = .source source := by
      cases stage <;> simp_all [Stage.tag]
    obtain ⟨name, st₁, hname, hn⟩ := sourceName_run source st
    have hst₁ : Postponed st₁ := by cases hn <;> exact hst
    obtain ⟨q, st₂, hfork, hforks⟩ := fork_run children { source := name }
      { st₁ with records := st₁.records ++ [sourceRecord source name children] }
    have hst₂ : Postponed st₂ := fun d hd => hst₁ d (hforks.deferred ▸ hd)
    obtain ⟨st₃, hdesc⟩ := descend_total hc q st₂
    obtain ⟨st', hrest, hst'⟩ := ih hr ((descend_ok hdesc).postponed hc hst₂)
    refine ⟨st', (Run.bind_ok hname).trans ?_, hst'⟩
    exact (Run.bind_ok rfl).trans ((Run.bind_ok hfork).trans ((Run.bind_ok hdesc).trans hrest))

/-- Walking through the facets put off succeeds if their stages are placed right. -/
theorem facets_total (n : Nat) (hst : Postponed st) :
    ∃ data st', facets n st = (.ok data, st') := by
  induction n generalizing st with
  | zero => exact ⟨[], st, rfl⟩
  | succ n ih =>
    rw [facets, Run.bind_ok (Run.get_run st)]
    cases h : st.deferred with
    | nil => exact ⟨[], st, rfl⟩
    | cons d rest =>
      have hd : Placed false d.stages := hst d (by simp [h])
      obtain ⟨q, st₁, hfork, hforks⟩ := fork_run d.stages { source := d.partition.name }
        { st with deferred := rest, records := [] }
      -- the first facet is taken from those put off, and the others stay
      have hst₁ : Postponed st₁ := fun d' hd' =>
        hst d' (by rw [hforks.deferred] at hd'; simp [h, show d' ∈ rest from hd'])
      obtain ⟨st₂, hdesc⟩ := descend_total hd q st₁
      obtain ⟨others, st', hrest⟩ := ih ((descend_ok hdesc).postponed hd hst₁)
      have hset : (set { st with deferred := rest, records := [] } : Assemble Unit) st = (.ok (), _) :=
        rfl
      refine ⟨{ name := d.partition.name, source := d.source, groupby := d.partition.groupby,
                datasets := st₂.records } :: others, st', (Run.bind_ok hset).trans ?_⟩
      refine (Run.bind_ok hfork).trans ?_
      refine (Run.bind_ok hdesc).trans ((Run.bind_ok (Run.get_run st₂)).trans ?_)
      exact (Run.bind_ok hrest).trans rfl

/-- A forest whose stages are placed right is assembled. -/
theorem all_total {stages : Forest Stage} (hf : Rooted stages) (hst : Postponed st) :
    ∃ data st', all stages st = (.ok data, st') := by
  obtain ⟨st₁, htrees, hst₁⟩ := trees_total hf hst
  obtain ⟨facets, st', hfacets⟩ := facets_total stages.size hst₁
  refine ⟨{ datasets := st₁.records, facets }, st', (Run.bind_ok htrees).trans ?_⟩
  refine (Run.bind_ok (Run.get_run st₁)).trans ?_
  exact (Run.bind_ok hfacets).trans rfl

end Assembly

end ChartPipeline
