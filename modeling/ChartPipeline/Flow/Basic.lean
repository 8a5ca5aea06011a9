import ChartPipeline.Flow.Forest
import ChartPipeline.Stage.Basic

/-!
# The flow of a chart's data

A flow holds the stages of charts as a forest: data run from each root down.  Stages are named by
numbers in the order in which they were added.  A stage that was taken out is kept aside with what
it holds; it may be joined into another stage, or be put back.

Edits may fail, and what they did until then stays: `Edit` returns the flow also after a fault.
Two edits do something before they fail: `addChild` leaves its new stage as a root, and `merge`
has joined what the stage held that it then cannot take out.
-/

namespace ChartPipeline

/-- A precondition that an edit of a flow, or its assembly, did not find. -/
inductive FlowFault where
  /-- A stage would be below itself. -/
  | cycle (id parent : Nat)
  /-- A stage cannot follow one that was taken out. -/
  | parentRemoved (id parent : Nat)
  /-- A stage was taken out before. -/
  | alreadyRemoved (id : Nat)
  /-- A root has no parent to be exchanged with. -/
  | noParent (id : Nat)
  /-- A stage has siblings, so it cannot be exchanged with its parent. -/
  | notOnlyChild (id parent : Nat)
  /-- A stage cannot be joined into itself. -/
  | mergeIntoItself (id : Nat)
  /-- Stages of these kinds do not join. -/
  | notMergeable (other keep : Tag)
  /-- A conversion has no source above it. -/
  | notRootedAtSource (id : Nat)
  /-- A tree does not begin with a source. -/
  | rootNotSource (id : Nat) (tag : Tag)
  /-- A source is not the beginning of a tree. -/
  | nestedSource (id : Nat)
deriving DecidableEq, Repr

/-- The words for a fault. -/
def FlowFault.message : FlowFault → String
  | cycle id parent =>
    "reparenting n" ++ toString id ++ " under n" ++ toString parent ++ " would create a cycle"
  | parentRemoved id parent =>
    "cannot attach n" ++ toString id ++ " to removed node n" ++ toString parent
  | alreadyRemoved id => "n" ++ toString id ++ " was already removed"
  | noParent id => "n" ++ toString id ++ " has no parent to swap with"
  | notOnlyChild id parent =>
    "n" ++ toString id ++ " is not the only child of n" ++ toString parent
  | mergeIntoItself id => "cannot merge n" ++ toString id ++ " into itself"
  | notMergeable other keep => "cannot merge " ++ other.name ++ " into " ++ keep.name
  | notRootedAtSource id => "n" ++ toString id ++ " is not rooted at a source"
  | rootNotSource id tag => "root n" ++ toString id ++ " is a " ++ tag.name ++ ", not a source"
  | nestedSource id => "source n" ++ toString id ++ " is not a root"

/-- The stages of charts. -/
structure Flow where
  stages : Forest Stage := .nil
  /-- The stages that were taken out. -/
  removed : List (Nat × Stage) := []
  /-- The name of the next stage. -/
  next : Nat := 0
  /-- The number of changes to the structure. -/
  revision : Nat := 0
  /-- The datasets that stages came out as when the flow was last assembled, the latest first. -/
  resolved : List (Nat × String) := []
deriving Inhabited

/-- An edit of a flow. -/
abbrev Edit (ε α : Type) := ExceptT ε (StateM Flow) α

namespace Flow

/-- Whether a stage is in the forest. -/
def isAttached (flow : Flow) (id : Nat) : Bool := flow.stages.contains id

/-- What a stage holds, also after it was taken out. -/
def stage? (flow : Flow) (id : Nat) : Option Stage :=
  (flow.stages.content? id).orElse fun _ =>
    (flow.removed.find? (·.1 = id)).map Prod.snd

/-- The kind of a stage. -/
def tag? (flow : Flow) (id : Nat) : Option Tag := (flow.stage? id).map Stage.tag

/-- The dataset that a stage came out as. -/
def resolved? (flow : Flow) (id : Nat) : Option String :=
  (flow.resolved.find? (·.1 = id)).map Prod.snd

/-- The stages of the forest, one on a line. -/
def render (flow : Flow) : String := flow.stages.render Stage.label 0

/-- Changes the forest and counts the change. -/
def restructure (flow : Flow) (f : Forest Stage → Forest Stage) : Flow :=
  { flow with stages := f flow.stages, revision := flow.revision + 1 }

/-- Changes what a stage holds, in the forest or outside. -/
def updateStage (flow : Flow) (id : Nat) (f : Stage → Stage) : Flow :=
  { flow with
    stages := flow.stages.update id f
    removed := flow.removed.map fun e => if e.1 = id then (e.1, f e.2) else e }

/-! ### Edits -/

/-- Adds a stage as a new root. -/
def add (stage : Stage) : Edit ε Nat := fun flow =>
  (.ok flow.next,
    { flow.restructure (· ++ .leaf flow.next stage) with next := flow.next + 1 })

/-- Puts a stage with everything below it after the children of another one; a stage that was
taken out comes back alone. -/
def setParent (id parent : Nat) : Edit FlowFault Unit := fun flow =>
  if id = parent || flow.stages.isAncestor id parent then (.error (.cycle id parent), flow)
  else if !flow.isAttached parent then (.error (.parentRemoved id parent), flow)
  else match flow.stages.find? id with
    | some (stage, children) =>
      (.ok (), flow.restructure fun f =>
        (f.without id).attach parent (.node id stage children .nil))
    | none =>
      -- its children have taken its place long since, so it comes back alone
      match flow.removed.find? (·.1 = id) with
      | some (_, stage) =>
        (.ok (), { flow.restructure (·.attach parent (.leaf id stage)) with
          removed := flow.removed.filter (·.1 ≠ id) })
      | none => (.error (.alreadyRemoved id), flow)

/-- Adds a stage after the children of another one. -/
def addChild (parent : Nat) (stage : Stage) : Edit FlowFault Nat := do
  let id ← add stage
  setParent id parent
  pure id

/-- Takes a stage out; its children take its place. -/
def remove (id : Nat) : Edit FlowFault Unit := fun flow =>
  match flow.stages.content? id with
  | some stage =>
    (.ok (), { flow.restructure (·.splice id) with removed := (id, stage) :: flow.removed })
  | none => (.error (.alreadyRemoved id), flow)

/-- Exchanges a stage with its parent, of which it has to be the only child. -/
def swapWithParent (id : Nat) : Edit FlowFault Unit := fun flow =>
  match flow.stages.parent? id with
  | none => (.error (.noParent id), flow)
  | some parent =>
    if flow.stages.children parent = [id] then (.ok (), flow.restructure (·.lift id))
    else (.error (.notOnlyChild id parent), flow)

/-- Joins what a stage holds into another stage of its kind. -/
def absorb (keep other : Nat) : Edit FlowFault Unit := fun flow =>
  match flow.stage? keep, flow.stage? other with
  | some a, some b =>
    match a.merge? b with
    | some joined => (.ok (), flow.updateStage keep fun _ => joined)
    | none => (.error (.notMergeable b.tag a.tag), flow)
  | _, _ => (.error (.alreadyRemoved other), flow)

/-- Joins a stage into another one of its kind and takes it out. -/
def merge (keep other : Nat) : Edit FlowFault Unit := do
  if keep = other then throw (.mergeIntoItself keep)
  absorb keep other
  -- what was joined stays, even if the other stage is not there to be taken out
  remove other

/-- Groups a stage by more fields. -/
def addDimensions (id : Nat) (fields : List String) : Edit ε Unit := fun flow =>
  (.ok (), flow.updateStage id (Stage.addDimensions fields))

/-- Takes out every stage that does nothing, and counts them. -/
def eliminate : Edit ε Nat := fun flow =>
  let vacuous := flow.stages.toList.filter fun e => e.2.isVacuous
  (.ok vacuous.length,
    { flow with
      stages := flow.stages.prune Stage.isVacuous
      removed := vacuous.reverse ++ flow.removed
      revision := flow.revision + vacuous.length })

end Flow

/-- Runs an edit with another type of faults. -/
def Edit.mapFault (f : ε → ε') (edit : Edit ε α) : Edit ε' α := fun flow =>
  match edit flow with
  | (.ok a, flow) => (.ok a, flow)
  | (.error e, flow) => (.error (f e), flow)

end ChartPipeline
