import ChartPipeline.Compiler
import ChartPipeline.Proofs.Linearizing

/-!
# Every compilation starts over

A compiler keeps the names that its last analysis saw and the state that its last assembly ended
in, whether they succeeded or stopped halfway; the stages of a flow keep what they came out as.  An
analysis starts with no names and an assembly with new numbers, so neither reads what is kept.
Assembling puts its notes before those from earlier and never looks at the earlier ones: `Blind`
says so of each of its steps.

## Key results

- `Assembly.blind_all`: assembling does not depend on what stages came out as before
- `Assembly.Resumes.notes`: assembling that succeeds notes every output, header and facet
- `Compiler.compileAll_afresh`: neither compiling nor assembling depends on what was done before
-/

namespace ChartPipeline

namespace Assembly

open Forest

/-! ### Notes from earlier -/

/-- The state with notes from earlier after its own. -/
def noted (earlier : List (Nat × String)) (st : Assembly) : Assembly :=
  { st with resolved := st.resolved ++ earlier }

/-- A step that does the same whatever notes there are from earlier, and leaves these. -/
def Blind {α : Type} (step : Assemble α) : Prop :=
  ∀ earlier st, step (st.noted earlier) = ((step st).1, (step st).2.noted earlier)

namespace Blind

variable {α β : Type} {step : Assemble α}

/-- Doing nothing reads no notes. -/
theorem pure (a : α) : Blind (Pure.pure a : Assemble α) := fun _ _ => rfl

/-- Failing reads no notes. -/
theorem throw (e : CompileError) : Blind (throw e : Assemble α) := fun _ _ => rfl

/-- Steps that read no notes follow one another. -/
theorem bind {next : α → Assemble β} (h : Blind step) (hn : ∀ a, Blind (next a)) :
    Blind (step >>= next) := by
  intro earlier st
  have hstep := h earlier st
  cases hrun : step st with
  | mk result st' =>
    rw [hrun] at hstep
    cases result with
    | error e => rw [Run.bind_error hrun, Run.bind_error hstep]
    | ok a => rw [Run.bind_ok hrun, Run.bind_ok hstep, hn a earlier st']

/-- A step may go on with the records made so far. -/
theorem records {next : List DatasetRecord → Assemble β} (h : ∀ records, Blind (next records)) :
    Blind (get >>= fun st => next st.records) :=
  fun earlier st => h st.records earlier st

end Blind

/-- Writing a record reads no notes. -/
theorem blind_emit (record : DatasetRecord) : Blind (emit record) := fun _ _ => rfl

/-- Noting what a stage came out as reads no notes. -/
theorem blind_resolve (id : Nat) (name : String) : Blind (resolve id name) := fun _ _ => rfl

/-- Making a record of the pending steps reads no notes. -/
theorem blind_materialize (p : Pending) : Blind (materialize p) := by
  intro earlier st
  cases h : p.steps.isEmpty <;> simp only [materialize, h] <;> rfl

/-- Finding out where the flow goes on reads no notes. -/
theorem blind_fork (children : Forest Stage) (p : Pending) : Blind (fork children p) := by
  unfold fork
  split
  · exact .pure p
  · exact (blind_materialize p).bind fun _ => .pure _

/-- Entering a stage reads no notes. -/
theorem blind_enter (underSource : Bool) (id : Nat) (stage : Stage) (children : Forest Stage)
    (p : Pending) : Blind (enter underSource id stage children p) := by
  -- no kind of stage reads what was resolved; it only adds to that
  cases stage with
  | source => exact .throw _
  | parse =>
    cases underSource with
    | false => exact .throw _
    | true => exact .pure _
  | facet partition =>
    refine (blind_materialize p).bind fun source => (blind_resolve id source).bind fun _ => ?_
    exact fun _ _ => rfl
  | facetHeader header =>
    unfold enter
    cases children.isEmpty with
    | false => exact .throw _
    | true =>
      exact (blind_emit _).bind fun _ => (blind_resolve id header.name).bind fun _ => .pure _
  | output name =>
    refine (blind_materialize p).bind fun source => (blind_emit _).bind fun _ => ?_
    exact (blind_resolve id source).bind fun _ => .pure _
  | filter | calculate | nullFilter | bin | timeUnit | aggregate | order | stack | positiveFilter =>
    exact .pure _

/-- Walking trees reads no notes. -/
theorem blind_descend (underSource : Bool) (f : Forest Stage) (p : Pending) :
    Blind (descend underSource f p) := by
  induction f generalizing underSource p with
  | nil => exact .pure ()
  | node id stage children rest ihc ihr =>
    refine (blind_enter underSource id stage children p).bind fun r => ?_
    cases r with
    | none => exact ihr underSource p
    | some q =>
      refine (blind_fork children q).bind fun q' => (ihc false q').bind fun _ => ?_
      exact ihr underSource p

/-- Naming a source reads no notes. -/
theorem blind_sourceName (source : Source) : Blind (sourceName source) := by
  unfold sourceName
  split
  · exact .pure _
  · exact fun _ _ => rfl

/-- Walking whole trees reads no notes. -/
theorem blind_trees (f : Forest Stage) : Blind (trees f) := by
  induction f with
  | nil => exact .pure ()
  | node id stage children rest _ ih =>
    cases stage with
    | source source =>
      refine (blind_sourceName source).bind fun name => (blind_emit _).bind fun _ => ?_
      exact (blind_fork children _).bind fun q => (blind_descend true children q).bind fun _ => ih
    | _ => exact .throw _

/-- Walking the facets put off reads no notes. -/
theorem blind_facets (n : Nat) : Blind (facets n) := by
  induction n with
  | zero => exact .pure []
  | succ n ih =>
    intro earlier st
    rw [facets, Run.bind_ok (Run.get_run st), Run.bind_ok (Run.get_run (st.noted earlier))]
    have hdeferred : (st.noted earlier).deferred = st.deferred := rfl
    rw [hdeferred]
    cases st.deferred with
    | nil => rfl
    | cons d rest =>
      -- both go on from the same state but for the notes
      have hwalk := (blind_fork d.stages { source := d.partition.name }).bind fun q =>
        (blind_descend false d.stages q).bind fun _ => Blind.records fun datasets =>
          ih.bind fun others => Blind.pure (
            ({ name := d.partition.name, source := d.source, groupby := d.partition.groupby,
               datasets } : FacetData) :: others)
      exact hwalk earlier { st with deferred := rest, records := [] }

/-- Assembling does not depend on what stages came out as before. -/
theorem blind_all (stages : Forest Stage) : Blind (all stages) :=
  (blind_trees stages).bind fun _ => Blind.records fun _ =>
    (blind_facets stages.size).bind fun _ => .pure _

/-! ### What is noted -/

variable {p q : Pending} {st st₁ st₂ st' : Assembly} {id : Nat} {stage : Stage}
  {children f : Forest Stage} {underSource : Bool} {e : Nat × Stage}

/-- A stage that came out as a dataset, or that is inside a facet put off. -/
def Accounted (st : Assembly) (e : Nat × Stage) : Prop :=
  e.1 ∈ st.resolved.map Prod.fst ∨ ∃ d ∈ st.deferred, e ∈ d.stages.toList

/-- What is accounted for stays so. -/
theorem Accounted.of_progress {names : List String} {ids : List Nat} (h : Accounted st e)
    (hp : Progress names ids st st') : Accounted st' e := by
  obtain ⟨records, deferred, resolved, hp⟩ := hp
  refine h.imp (fun h => ?_) fun ⟨d, hd, he⟩ => ⟨d, ?_, he⟩
  · rw [hp.resolved_eq, List.map_append]
    exact List.mem_append_right _ h
  · rw [hp.deferred_eq]
    exact List.mem_append_left _ hd

/-- An outlet is noted when it is entered. -/
theorem Enters.notes {r : Option Pending} (h : Enters underSource id children p st stage r st')
    (ho : stage.isOutlet = true) : Accounted st' (id, stage) := by
  cases h with
  | facet | header | output => exact .inl (by simp)
  | parse => exact absurd ho (by simp [Stage.isOutlet, Stage.tag])
  | plain hplain => cases stage <;> simp [Stage.isPlain, Stage.isOutlet, Stage.tag] at hplain ho

/-- What is below a stage where nothing goes on is inside a facet put off. -/
theorem Enters.notes_below (h : Enters underSource id children p st stage none st')
    (he : e ∈ children.toList) : Accounted st' e := by
  cases h with
  | @facet partition source st₁ => exact .inr ⟨⟨partition, source, children⟩, by simp, he⟩
  | header hc =>
    rw [hc] at he
    exact absurd he (by simp [toList])

/-- Walking trees accounts for every outlet in them. -/
theorem Descends.notes (h : Descends underSource f p st st') (he : e ∈ f.toList)
    (ho : e.2.isOutlet = true) : Accounted st' e := by
  induction h with
  | nil => exact absurd he (by simp [toList])
  | stop henter hr ih =>
    rw [toList, List.mem_cons, List.mem_append] at he
    rcases he with rfl | he | he
    · exact (henter.notes ho).of_progress hr.progress
    · exact (henter.notes_below he).of_progress hr.progress
    · exact ih he
  | enter henter hf hc hr ihc ihr =>
    rw [toList, List.mem_cons, List.mem_append] at he
    rcases he with rfl | he | he
    · exact (henter.notes ho).of_progress (hf.progress.trans (hc.progress.trans hr.progress))
    · exact (ihc he).of_progress hr.progress
    · exact ihr he

/-- Walking whole trees accounts for every outlet in them. -/
theorem Grows.notes (h : Grows f st st') (he : e ∈ f.toList) (ho : e.2.isOutlet = true) :
    Accounted st' e := by
  induction h with
  | nil => exact absurd he (by simp [toList])
  | tree hn hf hc hr ih =>
    rw [toList, List.mem_cons, List.mem_append] at he
    rcases he with rfl | he | he
    · exact absurd ho (by simp [Stage.isOutlet, Stage.tag])
    · exact (hc.notes he ho).of_progress hr.progress
    · exact ih he

/-- Walking the facets put off notes every outlet that is accounted for. -/
theorem Resumes.notes {n : Nat} {data : List FacetData} (h : Resumes n st data st')
    (hn : weight st ≤ n) (he : Accounted st e) (ho : e.2.isOutlet = true) :
    e.1 ∈ st'.resolved.map Prod.fst := by
  have hnone {st : Assembly} (hst : st.deferred = []) (he : Accounted st e) :
      e.1 ∈ st.resolved.map Prod.fst := he.resolve_right (by simp [hst])
  induction h with
  | out st => exact hnone (deferred_eq_nil_of_weight hn) he
  | done h => exact hnone h he
  | @facet n first rest q st st₁ st₂ st' others h hf hdesc hr ih =>
    have hp := progress_of_facet hf hdesc
    refine ih (weight_of_facet h hp hn) ?_
    -- noted already, inside the facet that is walked now, or inside one that still waits
    rcases he with he | ⟨d, hd, he⟩
    · have hkept : Accounted (resume st rest) e := .inl he
      exact hkept.of_progress hp
    · rw [h] at hd
      rcases List.mem_cons.1 hd with rfl | hd
      · exact hdesc.notes he ho
      · have hkept : Accounted (resume st rest) e := .inr ⟨d, hd, he⟩
        exact hkept.of_progress hp

end Assembly

/-! ### Flows -/

namespace Flow

open Assembly

variable {flow flow' : Flow} {st : Assembly} {data : CompiledData}

/-- The flow without notes of what its stages came out as. -/
def unnoted (flow : Flow) : Flow := { flow with resolved := [] }

/-- Assembling reads nothing of the state of an earlier assembly. -/
theorem assembleAfter_eq (flow : Flow) (earlier : Assembly) :
    flow.assembleAfter earlier = flow.assembleAfter {} := rfl

/-- Notes of the flow stay behind those of its assembly and change nothing. -/
theorem assembleAfter_noted (flow : Flow) : flow.assembleAfter {} =
    ((flow.unnoted.assembleAfter {}).1, (flow.unnoted.assembleAfter {}).2.1.noted flow.resolved,
      { flow with resolved := (flow.unnoted.assembleAfter {}).2.2.resolved ++ flow.resolved }) := by
  have hrun : (Assembly.all flow.stages).run.run (({} : Assembly).reset flow) = _ :=
    blind_all flow.stages flow.resolved (({} : Assembly).reset flow.unnoted)
  rw [assembleAfter, hrun]
  rfl

/-- Of two lists of notes the first one counts, where it says something. -/
theorem resolved?_append (flow : Flow) (notes earlier : List (Nat × String)) (id : Nat) :
    resolved? { flow with resolved := notes ++ earlier } id =
      (resolved? { flow with resolved := notes } id).or
        (resolved? { flow with resolved := earlier } id) := by
  rw [resolved?, resolved?, resolved?, List.find?_append]
  cases notes.find? (·.1 == id) <;> rfl

/-- What a stage comes out as is noted before what it came out as earlier. -/
theorem resolved?_assembleAfter (flow : Flow) (earlier : Assembly) (id : Nat) :
    (flow.assembleAfter earlier).2.2.resolved? id =
      ((flow.unnoted.assembleAfter {}).2.2.resolved? id).or (flow.resolved? id) := by
  rw [assembleAfter_eq, assembleAfter_noted]
  exact resolved?_append flow _ _ id

/-- Assembling that succeeds notes every output, header and facet. -/
theorem isSome_resolved?_of_ok (h : flow.assembleAfter {} = (.ok data, st, flow'))
    {e : Nat × Stage} (he : e ∈ flow.stages.toList) (ho : e.2.isOutlet = true) :
    (flow'.resolved? e.1).isSome = true := by
  obtain ⟨hall, rfl⟩ := assembleAfter_ok h
  obtain ⟨st₁, hgrows, -, hresumes⟩ := all_ok hall
  obtain ⟨note, hnote, hid⟩ :=
    List.mem_map.1 (hresumes.notes (hgrows.weight_le rfl) (hgrows.notes he ho) ho)
  rw [resolved?, Option.isSome_map, List.find?_isSome]
  exact ⟨note, hnote, decide_eq_true hid⟩

/-- Assembling again what was assembled gives the same, and what stages come out as stays. -/
theorem assembleAfter_again (flow : Flow) (earlier later : Assembly) :
    ((flow.assembleAfter earlier).2.2.assembleAfter later).1 = (flow.assembleAfter earlier).1 ∧
      ∀ id, ((flow.assembleAfter earlier).2.2.assembleAfter later).2.2.resolved? id =
        (flow.assembleAfter earlier).2.2.resolved? id := by
  have hunnoted : (flow.assembleAfter earlier).2.2.unnoted = flow.unnoted := rfl
  constructor
  · rw [assembleAfter_eq, assembleAfter_noted, hunnoted, assembleAfter_eq flow,
      assembleAfter_noted flow]
  · intro id
    rw [resolved?_assembleAfter, hunnoted, resolved?_assembleAfter flow]
    cases (flow.unnoted.assembleAfter {}).2.2.resolved? id <;> rfl

end Flow

/-! ### Compilers -/

namespace Compiler

/-- Building a flow reads nothing but the options, and leaves these. -/
theorem buildFlow_afresh (compiler : Compiler) (chart : Chart) :
    (compiler.buildFlow chart).1 = (buildFlow { options := compiler.options } chart).1 ∧
      (compiler.buildFlow chart).2.options = compiler.options := by
  unfold buildFlow
  cases compiler.options.analyze <;> exact ⟨rfl, rfl⟩

/-- A chart compiles to the same whatever was compiled before, and the options stay. -/
theorem compile_afresh (compiler : Compiler) (chart : Chart) :
    (compiler.compile chart).1 = compileChart compiler.options chart ∧
      (compiler.compile chart).2.options = compiler.options := by
  obtain ⟨hresult, hoptions⟩ := compiler.buildFlow_afresh chart
  obtain ⟨-, hoptions'⟩ := buildFlow_afresh { options := compiler.options } chart
  rw [compileChart, compile, compile]
  cases hrun : compiler.buildFlow chart with
  | mk result after =>
    cases hfresh : buildFlow { options := compiler.options } chart with
    | mk result' after' =>
      -- both go on with the same flow under the same options
      simp only [hrun, hfresh] at hresult hoptions hoptions'
      subst hresult
      cases result with
      | error e => exact ⟨rfl, hoptions⟩
      | ok flow =>
        simp only [hoptions, hoptions']
        cases compiler.options.optimizeFlow flow with
        | mk done flow =>
          cases done with
          | error e => exact ⟨rfl, hoptions⟩
          | ok _ => exact ⟨rfl, rfl⟩

/-- Charts compiled one after the other give what each gives on its own. -/
theorem compileAll_eq_map (compiler : Compiler) (charts : List Chart) :
    compiler.compileAll charts = charts.map (compileChart compiler.options) := by
  induction charts generalizing compiler with
  | nil => rfl
  | cons chart rest ih =>
    obtain ⟨hresult, hoptions⟩ := compiler.compile_afresh chart
    -- the compiler that goes on has the same options
    change (compiler.compile chart).1 :: (compiler.compile chart).2.compileAll rest = _
    rw [ih, hresult, hoptions, List.map_cons]

/-- Neither compiling nor assembling depends on what was done before.  Charts compiled one after
    the other give what each gives on its own.  A flow that was assembled before, in full or not,
    is assembled as one that never was: the data is the same, a stage comes out as it does there,
    or else as before, and where the assembly succeeds that is so of every output, header and facet.
    Assembling once more changes nothing. -/
theorem compileAll_afresh :
    (∀ (compiler : Compiler) (charts : List Chart),
      compiler.compileAll charts = charts.map (compileChart compiler.options)) ∧
    ∀ (flow : Flow) (earlier later : Assembly),
      (flow.assembleAfter earlier).1 = (flow.unnoted.assembleAfter {}).1 ∧
      (∀ id, (flow.assembleAfter earlier).2.2.resolved? id =
        ((flow.unnoted.assembleAfter {}).2.2.resolved? id).or (flow.resolved? id)) ∧
      (∀ data, (flow.assembleAfter earlier).1 = .ok data → ∀ e ∈ flow.stages.toList,
        e.2.isOutlet = true → ∃ name, (flow.assembleAfter earlier).2.2.resolved? e.1 = some name ∧
          (flow.unnoted.assembleAfter {}).2.2.resolved? e.1 = some name) ∧
      ((flow.assembleAfter earlier).2.2.assembleAfter later).1 = (flow.assembleAfter earlier).1 ∧
      ∀ id, ((flow.assembleAfter earlier).2.2.assembleAfter later).2.2.resolved? id =
        (flow.assembleAfter earlier).2.2.resolved? id := by
  refine ⟨compileAll_eq_map, fun flow earlier later => ?_⟩
  -- the result is that of a first assembly of a flow without notes
  have hresult : (flow.assembleAfter earlier).1 = (flow.unnoted.assembleAfter {}).1 := by
    rw [Flow.assembleAfter_eq, Flow.assembleAfter_noted]
  refine ⟨hresult, flow.resolved?_assembleAfter earlier, fun data hdata e he ho => ?_,
    flow.assembleAfter_again earlier later⟩
  rw [hresult] at hdata
  have hsome : ((flow.unnoted.assembleAfter {}).2.2.resolved? e.1).isSome = true :=
    Flow.isSome_resolved?_of_ok (Prod.ext hdata rfl) he ho
  obtain ⟨name, hname⟩ := Option.isSome_iff_exists.1 hsome
  exact ⟨name, by rw [flow.resolved?_assembleAfter, hname]; rfl, hname⟩

/-- Partitioned rows, with notes of an assembly that came as far as the bars and then stopped, when
    these still had another source. -/
def annotatedRows : Flow :=
  { Flow.partitionedRows with resolved := [(6, "halfway"), (2, "halfway")] }

/-- The bars come out as in the flow without notes. -/
theorem compileAll_afresh_annotatedRows : ∃ data, (annotatedRows.assembleAfter {}).1 = .ok data ∧
    (6, Stage.output "bars" true) ∈ annotatedRows.stages.toList ∧
    (Stage.output "bars" true).isOutlet = true ∧ ∃ name,
      (annotatedRows.assembleAfter {}).2.2.resolved? 6 = some name ∧
        (annotatedRows.unnoted.assembleAfter {}).2.2.resolved? 6 = some name := by
  cases hdata : (annotatedRows.assembleAfter {}).1 with
  | error e =>
    have hok : (annotatedRows.assembleAfter {}).1.isOk = true := by decide +kernel
    simp [hdata, Except.isOk, Except.toBool] at hok
  | ok data =>
    have hbars : (6, Stage.output "bars" true) ∈ annotatedRows.stages.toList := by
      simp [annotatedRows, Flow.partitionedRows, Forest.toList]
    exact ⟨data, rfl, hbars, rfl,
      (compileAll_afresh.2 annotatedRows {} {}).2.2.1 data hdata _ hbars rfl⟩

end Compiler

end ChartPipeline
