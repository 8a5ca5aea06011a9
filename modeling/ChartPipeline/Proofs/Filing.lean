import ChartPipeline.Proofs.Linearizing

/-!
# Assembling from stage to stage

Assembling can go from stage to stage by their names.  It then keeps the place of every source's
record in the list of records, and adds each conversion to the record at that place when it comes to
it, and it keeps the names of the facets that wait, which it looks up when their turn comes.  That
could fail where assembling trees cannot: a place may lie outside the list, a name that waits may be
no facet's, or a facet may have come out as no dataset.  None of this happens, and the outcome is
the same.

## Key results

- `Sim.walk`, `Sim.walkUnderSource`: a walk from stage to stage does what walking trees does
- `Sim.drain`: the facets that wait are those that are put off
- `Flow.fileAfter_eq`: assembling from stage to stage comes out as assembling trees
-/

namespace ChartPipeline

/-- Adds conversions to those of a record, field by field; a field that has one keeps it. -/
def DatasetRecord.convert (types : ParseTypes) (r : DatasetRecord) : DatasetRecord :=
  let format := r.format.getD {}
  let parse := types.entries.foldl (fun target e => target.insertIfNew e.1 e.2)
    (format.parse.getD ∅)
  { r with format := some { format with parse := some parse } }

/-- Why assembling from stage to stage fails. -/
inductive FilingFault where
  /-- A stage is in a wrong place. -/
  | compile (error : CompileError)
  /-- Among the facets that wait is another stage. -/
  | notFacet (id : Nat)
  /-- The facet came out as no dataset. -/
  | noSource (name : String)
  /-- There are not so many records. -/
  | outside (slot : Nat)

/-- The state of assembling from stage to stage. -/
structure Desk where
  assembly : Assembly := {}
  /-- The sources, each with the place of its record. -/
  slots : List (Nat × Nat) := []
  /-- The facets that wait. -/
  queue : List Nat := []

/-- A step of assembling from stage to stage. -/
abbrev Filing (α : Type) := ExceptT FilingFault (StateM Desk) α

namespace Filing

open Assembly

/-- A step of assembling that concerns neither places nor facets that wait. -/
def step (m : Assemble α) : Filing α := fun desk =>
  match m desk.assembly with
  | (.ok a, st) => (.ok a, { desk with assembly := st })
  | (.error e, st) => (.error (.compile e), { desk with assembly := st })

/-- A step that ends well does so from stage to stage. -/
theorem step_ok {α : Type} {m : Assemble α} {desk : Desk} {a : α} {st : Assembly}
    (h : m desk.assembly = (.ok a, st)) : step m desk = (.ok a, { desk with assembly := st }) := by
  rw [step, h]

/-- The place of a source's record. -/
def slot? (desk : Desk) (id : Nat) : Option Nat := (desk.slots.find? (·.1 = id)).map Prod.snd

/-- Adds conversions to the record at a place. -/
def convertAt (slot : Nat) (types : ParseTypes) : Filing Unit := fun desk =>
  match desk.assembly.records[slot]? with
  | none => (.error (.outside slot), desk)
  | some record =>
    (.ok (), { desk with assembly :=
      { desk.assembly with records := desk.assembly.records.set slot (record.convert types) } })

/-- Goes on below a stage: with the pending steps to an only child, and else from a record of them
to each child in turn. -/
def below (walk : Nat → Pending → Filing Unit) (children : List Nat) (p : Pending) : Filing Unit :=
  match children with
  | [] => do
    let _ ← step (materialize p)
    pure ()
  | [only] => walk only p
  | children => do
    let shared ← step (materialize p)
    children.forM fun child => walk child { source := shared }

/-- Walks on from a stage, for so many generations. -/
def walk (stages : Forest Stage) : Nat → Nat → Pending → Filing Unit
  | 0, _, _ => pure ()
  | n + 1, id, p =>
    let children := stages.children id
    match stages.content? id with
    | none => pure ()
    | some (.source _) => throw (.compile (.flow (.nestedSource id)))
    | some (.parse types) => do
      let desk ← get
      match (stages.parent? id).bind (slot? desk) with
      | none => throw (.compile (.parseNotUnderSource types.keys))
      | some slot =>
        convertAt slot types
        below (walk stages n) children p
    | some (.facet _) => do
      let source ← step (materialize p)
      step (resolve id source)
      modify fun desk => { desk with queue := desk.queue ++ [id] }
    | some (.facetHeader header) =>
      if 0 < children.length then
        throw (.compile (.facetHeaderHasChildren header.name children.length))
      else do
        step (emit (.derived header.name p.source (p.steps ++ [header.step])))
        step (resolve id header.name)
    | some (.output name _) => do
      let source ← step (materialize p)
      step (emit (.derived name source []))
      step (resolve id source)
      below (walk stages n) children { source }
    | some other => below (walk stages n) children { p with steps := p.steps ++ other.steps }

/-- Walks the trees of roots; no tree is deeper than there are stages. -/
def trees (stages : Forest Stage) : List Nat → Filing Unit
  | [] => pure ()
  | root :: rest =>
    match stages.content? root with
    | none => pure ()
    | some (.source source) => do
      let name ← step (sourceName source)
      modify fun desk => { desk with slots := (root, desk.assembly.records.length) :: desk.slots }
      step (emit (source.record name))
      below (walk stages stages.size) (stages.children root) { source := name }
      trees stages rest
    | some stage => throw (.compile (.flow (.rootNotSource root stage.tag)))

/-- Walks what is below the facets that wait, in order, at most `n` of them. -/
def drain (stages : Forest Stage) : Nat → Filing (List FacetData)
  | 0 => pure []
  | n + 1 => do
    let desk ← get
    match desk.queue with
    | [] => pure []
    | id :: rest =>
      match stages.content? id with
      | some (.facet partition) =>
        match (desk.assembly.resolved.find? (·.1 = id)).map Prod.snd with
        | none => throw (.noSource partition.name)
        | some source => do
          set { desk with assembly := { desk.assembly with records := [] }, queue := rest }
          below (walk stages stages.size) (stages.children id) { source := partition.name }
          let datasets := (← get).assembly.records
          let others ← drain stages n
          pure ({ name := partition.name, source, groupby := partition.groupby, datasets } ::
            others)
      | _ => throw (.notFacet id)

/-- Makes all records of a forest. -/
def all (stages : Forest Stage) : Filing CompiledData := do
  trees stages stages.roots
  let datasets := (← get).assembly.records
  let facets ← drain stages stages.size
  pure { datasets, facets }

end Filing

/-- Assembles the datasets of a flow from stage to stage, starting over from an earlier state. -/
def Flow.fileAfter (earlier : Assembly) (flow : Flow) : Except FilingFault CompiledData × Desk :=
  (Filing.all flow.stages).run.run { assembly := earlier.reset flow }

/-! ### Runs side by side -/

/-- From states that fit before, both runs succeed with one result and states that fit after, or
    both fail alike. -/
def Sim {α : Type} (P Q : Desk → Assembly → Prop) (m : Filing α) (m' : Assemble α) : Prop :=
  ∀ desk st, P desk st →
    (∃ a desk' st', m desk = (.ok a, desk') ∧ m' st = (.ok a, st') ∧ Q desk' st') ∨
    ∃ e desk' st', m desk = (.error (.compile e), desk') ∧ m' st = (.error e, st') ∧
      desk'.assembly.resolved = st'.resolved

namespace Sim

variable {α β : Type} {P P' Q Q' R : Desk → Assembly → Prop} {m : Filing α} {m' : Assemble α}

/-- Both runs have ended. -/
theorem pure (h : ∀ desk st, P desk st → Q desk st) (a : α) :
    Sim P Q (pure a : Filing α) (pure a : Assemble α) :=
  fun desk st hP => .inl ⟨a, desk, st, rfl, rfl, h desk st hP⟩

/-- Both runs fail alike. -/
theorem throw (h : ∀ desk st, P desk st → desk.assembly.resolved = st.resolved)
    (e : CompileError) :
    Sim P Q (throw (.compile e) : Filing α) (throw e : Assemble α) :=
  fun desk st hP => .inr ⟨e, desk, st, rfl, rfl, h desk st hP⟩

/-- Runs side by side go on side by side. -/
theorem bind {k : α → Filing β} {k' : α → Assemble β} (h : Sim P Q m m')
    (hk : ∀ a, Sim Q R (k a) (k' a)) : Sim P R (m >>= k) (m' >>= k') := by
  intro desk st hP
  rcases h desk st hP with ⟨a, desk₁, st₁, hrun, hrun', hQ⟩ | ⟨e, desk₁, st₁, hrun, hrun', hres⟩
  · rw [Run.bind_ok hrun, Run.bind_ok hrun']
    exact hk a desk₁ st₁ hQ
  · exact .inr ⟨e, desk₁, st₁, Run.bind_error hrun, Run.bind_error hrun', hres⟩

/-- States may fit better before, and less well after. -/
theorem mono (h : Sim P Q m m') (hP : ∀ desk st, P' desk st → P desk st)
    (hQ : ∀ desk st, Q desk st → Q' desk st) : Sim P' Q' m m' := by
  intro desk st h'
  rcases h desk st (hP desk st h') with ⟨a, desk₁, st₁, hrun, hrun', hq⟩ | herr
  · exact .inl ⟨a, desk₁, st₁, hrun, hrun', hQ desk₁ st₁ hq⟩
  · exact .inr herr

end Sim

open Assembly Forest

/-- A facet that waits is put off: it is one, holds what is put off, and came out as the dataset
    that goes with it. -/
structure Waits (stages : Forest Stage) (resolved : List (Nat × String)) (id : Nat) (d : Deferred) :
    Prop where
  find?_eq : stages.find? id = some (.facet d.partition, d.stages)
  resolved_eq : resolved.find? (·.1 = id) = some (id, d.source)

/-- States fit while there are stages to do: after what was written before, the lists go on with
    the same records, and the facets that wait are those put off.  Stages to do, those that wait
    and those that are put off are different ones. -/
structure Fits (stages : Forest Stage) (slots : List (Nat × Nat)) (old old' : List DatasetRecord)
    (todo : List Nat) (desk : Desk) (st : Assembly) : Prop where
  nextData : desk.assembly.nextData = st.nextData
  nextSource : desk.assembly.nextSource = st.nextSource
  resolved : desk.assembly.resolved = st.resolved
  records : ∃ new, desk.assembly.records = old ++ new ∧ st.records = old' ++ new
  slots_eq : desk.slots = slots
  queue : List.Forall₂ (Waits stages st.resolved) desk.queue st.deferred
  apart (id : Nat) : todo.count id + desk.queue.count id +
    (st.deferred.flatMap (·.stages.walk)).count id ≤ 1

section

variable {stages : Forest Stage} {slots : List (Nat × Nat)} {old old' : List DatasetRecord}
  {todo todo' : List Nat} {desk : Desk} {st : Assembly} {id : Nat}

/-- With fewer stages to do, states still fit. -/
theorem Fits.fewer (h : Fits stages slots old old' todo desk st)
    (hle : ∀ i, todo'.count i ≤ todo.count i) : Fits stages slots old old' todo' desk st :=
  { h with
    apart := fun i => by
      have := h.apart i
      have := hle i
      omega }

/-- A record that is added to both lists is among what they go on with. -/
theorem Fits.append (h : Fits stages slots old old' todo desk st) (r : DatasetRecord) :
    ∃ new, desk.assembly.records ++ [r] = old ++ new ∧ st.records ++ [r] = old' ++ new := by
  obtain ⟨new, hrecords, hrecords'⟩ := h.records
  refine ⟨new ++ [r], ?_, ?_⟩
  · rw [hrecords, List.append_assoc]
  · rw [hrecords', List.append_assoc]

/-- Both runs write a record. -/
theorem Sim.emit (r : DatasetRecord) :
    Sim (Fits stages slots old old' todo) (Fits stages slots old old' todo)
      (Filing.step (emit r)) (emit r) := by
  intro desk st h
  exact .inl ⟨(), _, _, rfl, rfl, { h with records := h.append r }⟩

/-- Both runs make a record of the pending steps, with the same number. -/
theorem Sim.materialize (p : Pending) :
    Sim (Fits stages slots old old' todo) (Fits stages slots old old' todo)
      (Filing.step (materialize p)) (materialize p) := by
  -- without pending steps neither run does anything
  by_cases hp : p.steps = []
  · have hsame : Assembly.materialize p = Pure.pure p.source := by
      rw [Assembly.materialize, hp, List.isEmpty_nil, if_pos rfl]
    rw [hsame]
    exact fun desk st h => .inl ⟨p.source, desk, st, rfl, rfl, h⟩
  · intro desk st h
    have hrun (st : Assembly) : Assembly.materialize p st = (.ok (dataName st.nextData),
        { st with
          nextData := st.nextData + 1
          records := st.records ++ [.derived (dataName st.nextData) p.source p.steps] }) := by
      rw [Assembly.materialize, if_neg (by simpa using hp)]
      rfl
    have hstep := Filing.step_ok (hrun desk.assembly)
    rw [h.nextData] at hstep
    exact .inl ⟨_, _, _, hstep, hrun st, { h with nextData := rfl, records := h.append _ }⟩

/-- Both runs give a source its name, or the same number. -/
theorem Sim.sourceName (source : Source) :
    Sim (Fits stages slots old old' todo) (Fits stages slots old old' todo)
      (Filing.step (sourceName source)) (sourceName source) := by
  -- a name of its own is taken as it is; else both runs count the same number
  cases hname : source.datasetName? with
  | some name =>
    have hown : Assembly.sourceName source = Pure.pure name := by
      rw [Assembly.sourceName, hname]
    rw [hown]
    exact fun desk st h => .inl ⟨name, desk, st, rfl, rfl, h⟩
  | none =>
    intro desk st h
    have hrun (st : Assembly) : Assembly.sourceName source st = (.ok (numberedSource st.nextSource),
        { st with nextSource := st.nextSource + 1 }) := by
      rw [Assembly.sourceName, hname]
      rfl
    have hstep := Filing.step_ok (hrun desk.assembly)
    rw [h.nextSource] at hstep
    exact .inl ⟨_, _, _, hstep, hrun st, { h with nextSource := rfl }⟩

/-- Noting what another stage came out as does not concern a facet that waits. -/
theorem Waits.resolve {resolved : List (Nat × String)} {i : Nat} {d : Deferred} {name : String}
    (h : Waits stages resolved i d) (hne : id ≠ i) : Waits stages ((id, name) :: resolved) i d where
  find?_eq := h.find?_eq
  resolved_eq := by
    rw [List.find?_cons_of_neg (by simpa using hne), h.resolved_eq]

/-- A stage that is to do does not wait, so what is noted of those that do stays. -/
theorem Fits.queue_resolve (h : Fits stages slots old old' todo desk st) (hid : id ∈ todo)
    (name : String) :
    List.Forall₂ (Waits stages ((id, name) :: st.resolved)) desk.queue st.deferred := by
  have hnot : id ∉ desk.queue := by
    have := h.apart id
    rw [← List.count_pos_iff] at hid
    rw [← List.count_eq_zero]
    omega
  have hqueue := (List.forall₂_and_left _ _).2 ⟨fun i hi => hi, h.queue⟩
  exact hqueue.imp fun i d ⟨hi, hd⟩ => hd.resolve fun e => hnot (e ▸ hi)

/-- Both runs note what a stage to do came out as. -/
theorem Sim.resolve (hid : id ∈ todo) (name : String) :
    Sim (Fits stages slots old old' todo) (Fits stages slots old old' todo)
      (Filing.step (resolve id name)) (resolve id name) := by
  intro desk st h
  refine .inl ⟨(), _, _, rfl, rfl, { h with resolved := ?_, queue := h.queue_resolve hid name }⟩
  show (id, name) :: desk.assembly.resolved = (id, name) :: st.resolved
  rw [h.resolved]

/-! ### Walks -/

/-- A step made of two is one step after the other. -/
theorem Filing.step_bind {α β : Type} (m : Assemble α) (k : α → Assemble β) :
    Filing.step (m >>= k) = Filing.step m >>= fun a => Filing.step (k a) := by
  funext desk
  cases hrun : m desk.assembly with
  | mk result st =>
    cases result with
    | ok a =>
      rw [Run.bind_ok (Filing.step_ok hrun), Filing.step, Run.bind_ok hrun]
      rfl
    | error e =>
      have hstep : Filing.step m desk = (.error (.compile e), { desk with assembly := st }) := by
        rw [Filing.step, hrun]
      rw [Run.bind_error hstep, Filing.step, Run.bind_error hrun]

/-- A step that does nothing. -/
theorem Filing.step_pure {α : Type} (a : α) : Filing.step (pure a) = (pure a : Filing α) := rfl

/-- Going on below a stage is one walk for each of its children, from where it forks. -/
theorem Filing.below_eq (walk : Nat → Pending → Filing Unit) (cs : Forest Stage) (p : Pending) :
    Filing.below walk cs.roots p =
      Filing.step (fork cs p) >>= fun q => cs.roots.forM fun child => walk child q := by
  -- as many children as the walk tells apart: none, one, or several
  cases cs with
  | nil =>
    have hfork : fork nil p = materialize p >>= fun name => pure { source := name } := rfl
    rw [hfork, Filing.step_bind, bind_assoc]
    rfl
  | node i a gc rest =>
    cases rest with
    | nil =>
      have hfork : fork (node i a gc nil) p = pure p := rfl
      rw [hfork, Filing.step_pure, pure_bind]
      exact (bind_pure_unit (x := walk i p)).symm
    | node j b gc' rest' =>
      have hfork : fork (node i a gc (node j b gc' rest')) p =
        materialize p >>= fun name => pure { source := name } := rfl
      rw [hfork, Filing.step_bind, bind_assoc]
      rfl

/-- The records of one tree. -/
def Assembly.tree (underSource : Bool) (id : Nat) (stage : Stage) (children : Forest Stage)
    (p : Pending) : Assemble Unit := do
  match ← enter underSource id stage children p with
  | some q => descend false children (← fork children q)
  | none => pure ()

/-- Walking trees is walking the first one and then the others. -/
theorem Assembly.descend_node (underSource : Bool) (id : Nat) (stage : Stage)
    (children rest : Forest Stage) (p : Pending) :
    descend underSource (.node id stage children rest) p =
      tree underSource id stage children p >>= fun _ => descend underSource rest p := by
  rw [descend, tree, bind_assoc]
  congr 1
  funext r
  cases r with
  | none => rfl
  | some q => simp only [bind_assoc]

/-- Both runs find the same point to go on from. -/
theorem Sim.fork (cs : Forest Stage) (p : Pending) :
    Sim (Fits stages slots old old' todo) (Fits stages slots old old' todo)
      (Filing.step (fork cs p)) (fork cs p) := by
  rw [Assembly.fork]
  cases cs.single? with
  | some tree => exact Sim.pure (fun _ _ h => h) p
  | none =>
    rw [Filing.step_bind]
    exact Sim.bind (Sim.materialize p) fun name =>
      Sim.pure (fun _ _ h => h) ({ source := name } : Pending)

variable {n : Nat} {stage : Stage} {cs f : Forest Stage} {underSource : Bool}

/-- The walks through the trees of roots do what walking the trees does. -/
def WalksAlike (stages : Forest Stage) (slots : List (Nat × Nat)) (old old' : List DatasetRecord)
    (n : Nat) (f : Forest Stage) : Prop :=
  ∀ todo p, Sim (Fits stages slots old old' (f.walk ++ todo)) (Fits stages slots old old' todo)
    (f.roots.forM fun id => Filing.walk stages n id p) (descend false f p)

/-- Going on below a stage does what walking the trees below it does. -/
theorem WalksAlike.below (h : WalksAlike stages slots old old' n cs) (p : Pending) :
    Sim (Fits stages slots old old' (cs.walk ++ todo)) (Fits stages slots old old' todo)
      (Filing.below (Filing.walk stages n) cs.roots p)
      (fork cs p >>= fun q => descend false cs q) := by
  rw [Filing.below_eq]
  exact Sim.bind (Sim.fork cs p) fun q => h todo q

/-- A tree that does not begin with a conversion. -/
theorem Sim.tree (hfind : stages.find? id = some (stage, cs)) (hparse : stage.tag ≠ .parse)
    (hcs : stage.tag ≠ .source → WalksAlike stages slots old old' n cs) (p : Pending) :
    Sim (Fits stages slots old old' (id :: (cs.walk ++ todo))) (Fits stages slots old old' todo)
      (Filing.walk stages (n + 1) id p) (tree underSource id stage cs p) := by
  have hcontent : stages.content? id = some stage := by rw [content?, hfind, Option.map_some]
  have hchildren : stages.children id = cs.roots := by rw [children, hfind]
  have hfewer (desk : Desk) (st : Assembly)
      (h : Fits stages slots old old' (id :: (cs.walk ++ todo)) desk st) :
      Fits stages slots old old' (cs.walk ++ todo) desk st :=
    h.fewer fun _ => List.count_le_count_cons
  rw [Filing.walk, hcontent, hchildren]
  cases stage with
  | source s => exact Sim.throw (fun desk st h => h.resolved) _
  | parse types => exact absurd rfl hparse
  | facet partition =>
    rw [Assembly.tree, enter, bind_assoc]
    refine Sim.bind (Sim.materialize p) fun source desk st h => ?_
    refine .inl ⟨(), _, _, rfl, rfl, { h with resolved := ?_, queue := ?_, apart := ?_ }⟩
    · show (id, source) :: desk.assembly.resolved = (id, source) :: st.resolved
      rw [h.resolved]
    · refine List.rel_append (h.queue_resolve List.mem_cons_self source) (.cons ⟨hfind, ?_⟩ .nil)
      exact List.find?_cons_of_pos (by simp)
    · intro i
      have hi := h.apart i
      -- the facet is no longer to do, but waits, and what is below it is put off
      show todo.count i + (desk.queue ++ [id]).count i +
        ((st.deferred ++ [(⟨partition, source, cs⟩ : Deferred)]).flatMap
          fun d => d.stages.walk).count i ≤ 1
      simp only [List.count_append, List.count_cons, List.count_nil, List.flatMap_append,
        List.flatMap_cons, List.flatMap_nil] at hi ⊢
      omega
  | facetHeader header =>
    rw [Assembly.tree, enter]
    cases cs with
    | nil =>
      let r : DatasetRecord := .derived header.name p.source (p.steps ++ [header.step])
      show Sim _ _ (Filing.step (Assembly.emit r) >>= fun _ =>
          Filing.step (Assembly.resolve id header.name))
        (Assembly.emit r >>= fun _ => Assembly.resolve id header.name)
      refine Sim.bind (Sim.emit r) fun _ => ?_
      refine (Sim.resolve List.mem_cons_self header.name).mono (fun _ _ h => h) fun _ _ h => ?_
      exact h.fewer fun i => by simp [List.count_cons]
    | node j b gc rest => exact Sim.throw (fun desk st h => h.resolved) _
  | output name required =>
    rw [Assembly.tree, enter, bind_assoc]
    refine Sim.bind (Sim.materialize p) fun source => ?_
    rw [bind_assoc]
    refine Sim.bind (Sim.emit _) fun _ => ?_
    rw [bind_assoc]
    refine Sim.bind (Sim.resolve List.mem_cons_self source) fun _ => ?_
    -- the walk below the output has one stage less to do
    exact ((hcs (by simp [Stage.tag])).below { source }).mono hfewer fun _ _ h => h
  | filter | calculate | nullFilter | bin | timeUnit | aggregate | order | stack | positiveFilter =>
    exact ((hcs (by simp [Stage.tag])).below _).mono hfewer fun _ _ h => h

/-- Of sources alone the place of a record is kept. -/
def Sourcely (stages : Forest Stage) (slots : List (Nat × Nat)) : Prop :=
  ∀ e ∈ slots, ∃ s, stages.content? e.1 = some (.source s)

/-- A stage that is no source has no place. -/
theorem Sourcely.find?_eq_none (h : Sourcely stages slots) (hid : stages.content? id = some stage)
    (hs : stage.tag ≠ .source) : slots.find? (·.1 = id) = none := by
  refine List.find?_eq_none.2 fun e he hsame => ?_
  obtain ⟨s, hcontent⟩ := h e he
  rw [of_decide_eq_true hsame, hid, Option.some_inj] at hcontent
  exact hs (congrArg Stage.tag hcontent)

/-- A conversion that is not below a source has no record to go into. -/
theorem Sim.parse_deep {types : ParseTypes} {parent : Nat}
    (hcontent : stages.content? id = some (.parse types)) (hparent : stages.parent? id = some parent)
    (hslot : slots.find? (·.1 = parent) = none) (p : Pending) :
    Sim (Fits stages slots old old' todo) (Fits stages slots old old' todo')
      (Filing.walk stages (n + 1) id p) (Assembly.tree false id (.parse types) cs p) := by
  intro desk st h
  have hnone : (stages.parent? id).bind (Filing.slot? desk) = none := by
    rw [hparent, Option.bind_some, Filing.slot?, h.slots_eq, hslot]
    rfl
  refine .inr ⟨.parseNotUnderSource types.keys, desk, st, ?_, rfl, h.resolved⟩
  rw [Filing.walk, hcontent]
  refine (Run.bind_ok (Run.get_run desk)).trans ?_
  rw [hnone]
  rfl

/-- A walk below a stage that is no source does what walking trees does. -/
theorem walksAlike {before : Forest Stage} {fr : Frame Stage} {up : List (Frame Stage)}
    (hn : stages.walk.Nodup) (hst : stages = fill (fr :: up) (before ++ f))
    (hslots : Sourcely stages slots) (hfr : fr.content.tag ≠ .source) (hd : f.size ≤ n) :
    WalksAlike stages slots old old' n f := by
  -- the trees before those walked become the children done so far
  induction f generalizing n before fr up with
  | nil => exact fun todo p => Sim.pure (fun _ _ h => h) ()
  | node id stage cs rest ihc ihr =>
    intro todo p
    have hsize : (node id stage cs rest).size = cs.size + rest.size + 1 := by
      simp [size, toList]
    obtain ⟨n, rfl⟩ := Nat.exists_eq_add_of_le' (show 1 ≤ n by omega)
    have hst' : stages = fill (⟨before, id, stage, rest⟩ :: fr :: up) cs := hst
    have hfind : stages.find? id = some (stage, cs) := by
      rw [hst'] at hn ⊢
      exact find?_first hn
    have hrest : stages = fill (fr :: up) ((before ++ node id stage cs nil) ++ rest) := by
      rw [append_assoc]
      exact hst
    rw [descend_node]
    refine Sim.bind (?_ : Sim _ (Fits stages slots old old' (rest.walk ++ todo))
      (Filing.walk stages (n + 1) id p) _) fun _ => ihr hrest hfr (by omega) todo p
    rw [walk_node, List.cons_append, List.append_assoc]
    by_cases hparse : stage.tag = .parse
    · -- the stage above is no source, so it has no place
      obtain ⟨types, rfl⟩ : ∃ types, stage = .parse types := by
        cases stage <;> simp_all [Stage.tag]
      have hparent : stages.parent? id = some fr.id := by
        rw [hst'] at hn ⊢
        exact parent?_first (fr :: up) hn
      have habove : stages.content? fr.id = some fr.content := by
        rw [hst] at hn ⊢
        exact content?_first hn
      refine Sim.parse_deep ?_ hparent (hslots.find?_eq_none habove hfr) p
      rw [content?, hfind]
      rfl
    · exact Sim.tree hfind hparse (fun hs => @ihc n nil _ _ hst' hs (by omega)) p

/-! ### Below a source -/

/-- Bringing in the types one by one brings them all in. -/
theorem union_eq_foldl (declared types : ParseTypes) :
    types.entries.foldl (fun target e => target.insertIfNew e.1 e.2) declared =
      declared.union types := by
  rw [SortedMap.union, SortedMap.mergeWith]
  congr 1

/-- Two forests have a conversion among their roots if one of them has. -/
theorem hasParse_append (f g : Forest Stage) : hasParse (f ++ g) = (hasParse f || hasParse g) := by
  induction f with
  | nil => rfl
  | node i a cs rest _ ih => rw [node_append, hasParse, hasParse, ih, Bool.or_assoc]

/-- The conversions of two forests are brought in one after the other. -/
theorem parseTypesUnder_append (declared : ParseTypes) (f g : Forest Stage) :
    parseTypesUnder declared (f ++ g) = parseTypesUnder (parseTypesUnder declared f) g := by
  induction f generalizing declared with
  | nil => rfl
  | node i a cs rest _ ih => cases a <;> exact ih _

/-- Without conversions nothing is brought in. -/
theorem parseTypesUnder_of_not_hasParse (declared : ParseTypes) (h : hasParse f = false) :
    parseTypesUnder declared f = declared := by
  induction f with
  | nil => rfl
  | node i a cs rest _ ih =>
    obtain ⟨ha, hrest⟩ := Bool.or_eq_false_iff.1 h
    cases a with
    | parse types => exact absurd ha (by simp [Stage.tag])
    | _ => exact ih hrest

/-- The conversions of a record. -/
def DatasetRecord.conversions (r : DatasetRecord) : ParseTypes := (r.format.getD {}).parse.getD ∅

/-- Adding conversions one by one adds them all. -/
theorem DatasetRecord.convert_eq (types : ParseTypes) (r : DatasetRecord) :
    r.convert types =
      { r with format := some { r.format.getD {} with parse := some (r.conversions.union types) } } := by
  rw [convert, ← union_eq_foldl]
  rfl

/-- A source with conversions below has a record that carries them. -/
theorem sourceRecord_of_hasParse (source : Source) (name : String) (h : hasParse f = true) :
    sourceRecord source name f =
      { source.record name with
        format := some { (source.record name).format.getD {} with
          parse := some (parseTypesUnder (source.record name).conversions f) } } := by
  rw [sourceRecord, h]
  rfl

/-- Without conversions below, the record is that of the source itself. -/
theorem sourceRecord_of_not_hasParse (source : Source) (name : String) (h : hasParse f = false) :
    sourceRecord source name f = source.record name := by
  rw [sourceRecord, h]
  rfl

/-- The record of a source with the conversions of one more child. -/
theorem sourceRecord_concat_parse (source : Source) (name : String) (done : Forest Stage)
    (types : ParseTypes) :
    sourceRecord source name (done ++ node id (.parse types) cs nil) =
      (sourceRecord source name done).convert types := by
  have hparse : hasParse (done ++ node id (.parse types) cs nil) = true := by
    rw [hasParse_append]
    exact Bool.or_true _
  rw [sourceRecord_of_hasParse source name hparse, parseTypesUnder_append,
    DatasetRecord.convert_eq]
  -- whether this conversion is the first one below the source
  cases hd : hasParse done with
  | true =>
    rw [sourceRecord_of_hasParse source name hd]
    rfl
  | false =>
    rw [sourceRecord_of_not_hasParse source name hd, parseTypesUnder_of_not_hasParse _ hd]
    rfl

/-- Other children leave it as it is. -/
theorem sourceRecord_concat_other (source : Source) (name : String) (done : Forest Stage)
    (hparse : stage.tag ≠ .parse) :
    sourceRecord source name (done ++ node id stage cs nil) = sourceRecord source name done := by
  have hnone : hasParse (node id stage cs nil) = false := by simp [hasParse, hparse]
  have hsame : hasParse (done ++ node id stage cs nil) = hasParse done := by
    rw [hasParse_append, hnone, Bool.or_false]
  cases hd : hasParse done with
  | true =>
    rw [sourceRecord_of_hasParse source name (hsame.trans hd), sourceRecord_of_hasParse source name hd,
      parseTypesUnder_append, parseTypesUnder_of_not_hasParse _ hnone]
  | false =>
    rw [sourceRecord_of_not_hasParse source name (hsame.trans hd),
      sourceRecord_of_not_hasParse source name hd]

/-- Conversions are added to the record at a place, wherever this is in the list. -/
theorem convertAt_run {base new : List DatasetRecord} {r : DatasetRecord} {desk : Desk}
    (h : desk.assembly.records = base ++ [r] ++ new) (types : ParseTypes) :
    Filing.convertAt base.length types desk =
      (.ok (), { desk with assembly :=
        { desk.assembly with records := base ++ [r.convert types] ++ new } }) := by
  -- the place is behind the base
  have hat : desk.assembly.records[base.length]? = some r := by
    rw [h, List.append_assoc, List.getElem?_append_right (Nat.le_refl _), Nat.sub_self]
    rfl
  have hset : desk.assembly.records.set base.length (r.convert types) =
      base ++ [r.convert types] ++ new := by
    rw [h, List.append_assoc, List.set_append_right _ _ (Nat.le_refl _), Nat.sub_self]
    simp
  rw [Filing.convertAt, hat]
  simp only [hset]

variable {base : List DatasetRecord} {whole : DatasetRecord} {root : Frame Stage} {source : Source}
  {name : String}

/-- A conversion below a source is added to the source's record. -/
theorem Sim.parse_underSource {types : ParseTypes} {done : Forest Stage}
    (hfind : stages.find? id = some (.parse types, cs)) (hparent : stages.parent? id = some root.id)
    (hslot : slots.find? (·.1 = root.id) = some (root.id, base.length))
    (hcs : WalksAlike stages slots
      (base ++ [sourceRecord source name (done ++ node id (.parse types) cs nil)]) (base ++ [whole])
      n cs) (p : Pending) :
    Sim
      (Fits stages slots (base ++ [sourceRecord source name done]) (base ++ [whole])
        (id :: (cs.walk ++ todo)))
      (Fits stages slots
        (base ++ [sourceRecord source name (done ++ node id (.parse types) cs nil)])
        (base ++ [whole]) todo)
      (Filing.walk stages (n + 1) id p) (Assembly.tree true id (.parse types) cs p) := by
  intro desk st h
  have hcontent : stages.content? id = some (.parse types) := by rw [content?, hfind, Option.map_some]
  have hchildren : stages.children id = cs.roots := by rw [children, hfind]
  have hat : (stages.parent? id).bind (Filing.slot? desk) = some base.length := by
    rw [hparent, Option.bind_some, Filing.slot?, h.slots_eq, hslot]
    rfl
  obtain ⟨new, hrecords, hrecords'⟩ := h.records
  have hconvert := convertAt_run hrecords types
  -- from stage to stage the record is converted first, then the walk goes on
  have hwalk : Filing.walk stages (n + 1) id p desk =
      Filing.below (Filing.walk stages n) cs.roots p { desk with assembly :=
        { desk.assembly with records :=
          base ++ [(sourceRecord source name done).convert types] ++ new } } := by
    rw [Filing.walk, hcontent, hchildren]
    refine (Run.bind_ok (Run.get_run desk)).trans ?_
    rw [hat]
    exact Run.bind_ok hconvert
  have htree : Assembly.tree true id (.parse types) cs p st =
      (Assembly.fork cs p >>= fun q => descend false cs q) st := rfl
  rw [hwalk, htree]
  have hfewer : Fits stages slots (base ++ [sourceRecord source name done]) (base ++ [whole])
      (cs.walk ++ todo) desk st := h.fewer fun _ => List.count_le_count_cons
  refine hcs.below p _ st { hfewer with records := ⟨new, ?_, hrecords'⟩ }
  rw [sourceRecord_concat_parse]

/-- A walk below a source does what walking trees does, and the record of the source comes to have
    the conversions of all children. -/
theorem Sim.walkUnderSource {done : Forest Stage} (hn : stages.walk.Nodup)
    (hst : stages = root.close (done ++ f)) (hslots : Sourcely stages slots)
    (hslot : slots.find? (·.1 = root.id) = some (root.id, base.length)) (hd : f.size ≤ n)
    (p : Pending) :
    Sim
      (Fits stages slots (base ++ [sourceRecord source name done]) (base ++ [whole])
        (f.walk ++ todo))
      (Fits stages slots (base ++ [sourceRecord source name (done ++ f)]) (base ++ [whole]) todo)
      (f.roots.forM fun id => Filing.walk stages n id p) (descend true f p) := by
  -- the children that were walked already have added their conversions
  induction f generalizing n done with
  | nil =>
    rw [append_nil]
    exact Sim.pure (fun _ _ h => h) ()
  | node id stage cs rest _ ihr =>
    have hsize : (node id stage cs rest).size = cs.size + rest.size + 1 := by
      simp [size, toList]
    obtain ⟨n, rfl⟩ := Nat.exists_eq_add_of_le' (show 1 ≤ n by omega)
    have hst' : stages = fill (⟨done, id, stage, rest⟩ :: [root]) cs := hst
    have hfind : stages.find? id = some (stage, cs) := by
      rw [hst'] at hn ⊢
      exact find?_first hn
    have hparent : stages.parent? id = some root.id := by
      rw [hst'] at hn ⊢
      exact parent?_first [root] hn
    have hconcat : done ++ node id stage cs rest = done ++ node id stage cs nil ++ rest := by
      rw [append_assoc]
      rfl
    rw [hconcat] at hst ⊢
    rw [descend_node, walk_node, List.cons_append, List.append_assoc]
    refine Sim.bind (?_ : Sim _ (Fits stages slots
      (base ++ [sourceRecord source name (done ++ node id stage cs nil)]) (base ++ [whole])
      (rest.walk ++ todo)) (Filing.walk stages (n + 1) id p) _)
      fun _ => ihr hst (by omega)
    have hdeep {old old' : List DatasetRecord} (hs : stage.tag ≠ .source) :
        WalksAlike stages slots old old' n cs :=
      @walksAlike _ _ _ _ n cs nil _ _ hn hst' hslots hs (by omega)
    by_cases hparse : stage.tag = .parse
    · obtain ⟨types, rfl⟩ : ∃ types, stage = .parse types := by
        cases stage <;> simp_all [Stage.tag]
      exact Sim.parse_underSource hfind hparent hslot (hdeep (by simp [Stage.tag])) p
    · rw [sourceRecord_concat_other source name done hparse]
      exact Sim.tree hfind hparse hdeep p

/-! ### Trees and the facets that wait -/

/-- What is in a hole has no more nodes than the whole. -/
theorem size_le_fill {α : Type} (up : List (Frame α)) (t : Forest α) : t.size ≤ (fill up t).size := by
  rw [size_eq_length_walk, size_eq_length_walk, (walk_fill_perm up t).length_eq, List.length_append]
  omega

/-- States fit with the same records in both lists. -/
def Level (stages : Forest Stage) (todo : List Nat) (desk : Desk) (st : Assembly) : Prop :=
  ∃ slots, Sourcely stages slots ∧ Fits stages slots [] [] todo desk st

/-- States that fit have the same records. -/
theorem Level.records_eq (h : Level stages todo desk st) :
    desk.assembly.records = st.records := by
  obtain ⟨slots, -, h⟩ := h
  obtain ⟨new, hrecords, hrecords'⟩ := h.records
  exact hrecords.trans hrecords'.symm

/-- Lists that go on with the same records from the same ones are the same. -/
theorem Fits.level (h : Fits stages slots old old todo desk st) (hslots : Sourcely stages slots) :
    Level stages todo desk st := by
  obtain ⟨new, hrecords, hrecords'⟩ := h.records
  exact ⟨slots, hslots, { h with records := ⟨old ++ new, hrecords, hrecords'⟩ }⟩

/-- The record of a source is written first, and its place is kept. -/
theorem Fits.write_source (source : Source) (name : String)
    (h : Fits stages slots [] [] (id :: (cs.walk ++ todo)) desk st) :
    Fits stages ((id, desk.assembly.records.length) :: slots)
      (desk.assembly.records ++ [sourceRecord source name nil])
      (desk.assembly.records ++ [sourceRecord source name cs]) (cs.walk ++ todo)
      { assembly :=
          { desk.assembly with records := desk.assembly.records ++ [source.record name] }
        slots := (id, desk.assembly.records.length) :: desk.slots
        queue := desk.queue }
      { st with records := st.records ++ [sourceRecord source name cs] } := by
  obtain ⟨new, hrecords, hrecords'⟩ := h.records
  -- the source itself is done, and what it has below it is still to do
  have hfewer : Fits stages slots [] [] (cs.walk ++ todo) desk st :=
    h.fewer fun _ => List.count_le_count_cons
  refine { hfewer with records := ⟨[], ?_, ?_⟩, slots_eq := ?_ }
  · rw [List.append_nil]
    rfl
  · show st.records ++ _ = _
    rw [List.append_nil, hrecords, hrecords']
  · show _ :: desk.slots = _
    rw [h.slots_eq]

/-- Walking the trees of all roots does what walking the trees does. -/
theorem Sim.trees {done : Forest Stage} (hn : stages.walk.Nodup) (hst : stages = done ++ f) :
    Sim (Level stages (f.walk ++ todo)) (Level stages todo) (Filing.trees stages f.roots)
      (Assembly.trees f) := by
  induction f generalizing done with
  | nil => exact Sim.pure (fun _ _ h => h) ()
  | node id stage cs rest _ ih =>
    have hroot : stages = fill [⟨done, id, stage, rest⟩] cs := hst
    have hcontent : stages.content? id = some stage := by
      rw [hroot] at hn ⊢
      exact content?_first hn
    have hrest : stages = done ++ node id stage cs nil ++ rest := by
      rw [append_assoc]
      exact hst
    rw [roots, Filing.trees, hcontent]
    cases stage with
    | source source =>
      rintro desk st ⟨slots, hslots, h⟩
      refine Sim.bind (Sim.sourceName source) (fun name => ?_) desk st h
      intro desk st h
      have hchildren : stages.children id = cs.roots := by
        rw [hroot] at hn ⊢
        exact children_first hn
      rw [walk_node, List.cons_append, List.append_assoc] at h
      have hslots' : Sourcely stages ((id, desk.assembly.records.length) :: slots) := by
        intro e he
        rcases List.mem_cons.1 he with rfl | he
        · exact ⟨source, hcontent⟩
        · exact hslots e he
      -- the record is written without conversions, and has all of them after the walk below
      have hwalk := @Sim.walkUnderSource stages _ (rest.walk ++ todo) stages.size cs
        desk.assembly.records (sourceRecord source name cs) ⟨done, id, .source source, rest⟩ source
        name nil hn hroot hslots' (List.find?_cons_of_pos (by simp)) (hroot ▸ size_le_fill _ cs)
      have hbelow := Sim.bind (Sim.bind (Sim.fork cs ⟨name, []⟩) hwalk) fun _ =>
        (ih hrest).mono (fun desk st (h : Fits _ _ _ _ _ desk st) => h.level hslots') fun _ _ h => h
      rw [← Filing.below_eq, bind_assoc] at hbelow
      rw [hchildren]
      exact hbelow _ _ (h.write_source source name)
    | _ =>
      refine Sim.throw (fun desk st h => ?_) _
      obtain ⟨slots, -, h⟩ := h
      exact h.resolved

/-- The walk below a facet that waits. -/
theorem Waits.walksAlike {resolved : List (Nat × String)} {d : Deferred}
    (h : Waits stages resolved id d) (hn : stages.walk.Nodup) (hslots : Sourcely stages slots) :
    WalksAlike stages slots old old' stages.size d.stages := by
  have hmem : id ∈ stages.walk := by
    rw [← contains_iff, contains, h.find?_eq]
    rfl
  obtain ⟨fr, up, cs, rfl, rfl⟩ := exists_fill_of_mem hmem
  have hfind := h.find?_eq
  rw [find?_first hn, Option.some_inj] at hfind
  obtain ⟨hcontent, rfl⟩ := Prod.mk.inj hfind
  refine @ChartPipeline.walksAlike _ _ _ _ _ d.stages nil fr up hn rfl hslots ?_
    (size_le_fill (fr :: up) d.stages)
  rw [hcontent]
  simp [Stage.tag]

/-- Walking what is below the facets that wait does what walking those put off does. -/
theorem Sim.drain (hn : stages.walk.Nodup) (n : Nat) :
    Sim (Level stages []) (Level stages []) (Filing.drain stages n) (Assembly.facets n) := by
  induction n with
  | zero => exact Sim.pure (fun _ _ h => h) []
  | succ n ih =>
    rintro desk st ⟨slots, hslots, h⟩
    rw [Filing.drain, Run.bind_ok (Run.get_run desk), Assembly.facets, Run.bind_ok (Run.get_run st)]
    cases hqueue : desk.queue with
    | nil =>
      have hnone : st.deferred = [] := by
        have := h.queue
        rw [hqueue] at this
        exact List.forall₂_nil_left_iff.1 this
      rw [hnone]
      exact .inl ⟨[], desk, st, rfl, rfl, slots, hslots, h⟩
    | cons id queue =>
      have hfacets := h.queue
      rw [hqueue] at hfacets
      obtain ⟨d, deferred, hd, hrest, hdeferred⟩ := List.forall₂_cons_left_iff.1 hfacets
      have hcontent : stages.content? id = some (.facet d.partition) := by
        rw [content?, hd.find?_eq, Option.map_some]
      have hchildren : stages.children id = d.stages.roots := by rw [children, hd.find?_eq]
      have hsource : (desk.assembly.resolved.find? (·.1 = id)).map Prod.snd = some d.source := by
        rw [h.resolved, hd.resolved_eq, Option.map_some]
      -- the records of the facet are collected, and then those of the others
      have hcollect : Sim (Level stages []) (Level stages [])
          (get >>= fun desk => Filing.drain stages n >>= fun others =>
            Pure.pure ({ name := d.partition.name, source := d.source,
                         groupby := d.partition.groupby,
                         datasets := desk.assembly.records } :: others))
          (get >>= fun st => Assembly.facets n >>= fun others =>
            Pure.pure ({ name := d.partition.name, source := d.source,
                         groupby := d.partition.groupby, datasets := st.records } :: others)) := by
        intro desk st h
        rw [Run.bind_ok (Run.get_run desk), Run.bind_ok (Run.get_run st), h.records_eq]
        exact Sim.bind ih (fun others => Sim.pure (fun _ _ h => h) _) desk st h
      -- what is below the facet is now to do instead of waiting
      have hapart : Fits stages slots [] [] (d.stages.walk ++ [])
          { desk with assembly := { desk.assembly with records := [] }, queue }
          { st with deferred, records := [] } := by
        refine { h with records := ⟨[], rfl, rfl⟩, queue := hrest, apart := fun i => ?_ }
        have hi := h.apart i
        rw [hqueue, hdeferred] at hi
        simp only [List.flatMap_cons, List.count_append, List.count_cons, List.count_nil] at hi ⊢
        omega
      have hbelow := Sim.bind ((hd.walksAlike hn hslots).below { source := d.partition.name })
        fun _ => hcollect.mono (fun desk st (h : Fits stages slots [] [] [] desk st) =>
          h.level hslots) fun _ _ h => h
      rw [bind_assoc] at hbelow
      simp only [hdeferred, hcontent, hsource, hchildren]
      exact hbelow _ _ hapart

/-- Assembling from stage to stage does what assembling trees does. -/
theorem Sim.all (hn : stages.walk.Nodup) :
    Sim (Level stages stages.walk) (Level stages []) (Filing.all stages) (Assembly.all stages) := by
  have htrees := @Sim.trees stages [] stages nil hn rfl
  rw [List.append_nil] at htrees
  refine Sim.bind htrees fun _ desk st h => ?_
  rw [Run.bind_ok (Run.get_run desk), Run.bind_ok (Run.get_run st), h.records_eq]
  exact Sim.bind (Sim.drain hn stages.size) (fun facets => Sim.pure (fun _ _ h => h) _) desk st h

end

/-- With as many walks as there are stages below facets put off, none is left. -/
theorem Assembly.Resumes.deferred_eq_nil {n : Nat} {data : List FacetData} {st st' : Assembly}
    (h : Resumes n st data st') (hn : weight st ≤ n) : st'.deferred = [] := by
  induction h with
  | out st => exact deferred_eq_nil_of_weight hn
  | done h => exact h
  | facet h hf hdesc _ ih => exact ih (weight_of_facet h (progress_of_facet hf hdesc) hn)

/-- Assembling trees comes to its end: no facet is left. -/
theorem Assembly.deferred_of_all {stages : Forest Stage} {data : CompiledData} {st st' : Assembly}
    (h : all stages st = (.ok data, st')) (hst : st.deferred = []) : st'.deferred = [] := by
  obtain ⟨st₁, hgrows, -, hresumes⟩ := all_ok h
  exact hresumes.deferred_eq_nil (hgrows.weight_le hst)

namespace Flow

variable {flow : Flow} {earlier : Assembly}

/-- How assembling a flow comes out, from how assembling its stages does. -/
theorem assembleAfter_run {r : Except CompileError CompiledData} {st : Assembly}
    (h : Assembly.all flow.stages (earlier.reset flow) = (r, st)) :
    flow.assembleAfter earlier = (r, st, { flow with resolved := st.resolved }) := by
  have hrun : (Assembly.all flow.stages).run.run (earlier.reset flow) = (r, st) := h
  rw [assembleAfter, hrun]

/-- Assembling from stage to stage comes out as assembling trees, also where it fails: none of its
    own faults arises.  The stages come out as the same datasets, and where it succeeds, no facet
    waits any more. -/
theorem fileAfter_eq (hn : flow.stages.walk.Nodup) (earlier : Assembly) :
    (flow.fileAfter earlier).1 = (flow.assembleAfter earlier).1.mapError .compile ∧
      (flow.fileAfter earlier).2.assembly.resolved = (flow.assembleAfter earlier).2.2.resolved ∧
      ∀ data, (flow.fileAfter earlier).1 = .ok data → (flow.fileAfter earlier).2.queue = [] := by
  -- before the first tree both runs are at the same point
  have hlevel : Level flow.stages flow.stages.walk { assembly := earlier.reset flow }
      (earlier.reset flow) := by
    refine ⟨[], fun e he => absurd he (by simp), rfl, rfl, rfl, ⟨[], rfl, rfl⟩, rfl, .nil, fun i => ?_⟩
    exact List.nodup_iff_count.1 hn i
  rcases Sim.all hn _ _ hlevel with ⟨data, desk, st, hrun, hrun', slots, hslots, hfits⟩ |
    ⟨e, desk, st, hrun, hrun', hres⟩
  · have hfile : flow.fileAfter earlier = (.ok data, desk) := hrun
    rw [hfile, assembleAfter_run hrun']
    refine ⟨rfl, hfits.resolved, fun _ _ => ?_⟩
    have hqueue := hfits.queue
    rw [deferred_of_all hrun' rfl] at hqueue
    exact List.forall₂_nil_right_iff.1 hqueue
  · have hfile : flow.fileAfter earlier = (.error (.compile e), desk) := hrun
    rw [hfile, assembleAfter_run hrun']
    exact ⟨rfl, hres, fun data h => absurd h (by simp)⟩

end Flow

end ChartPipeline
