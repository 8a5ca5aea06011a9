import ChartPipeline.Proofs.Editing
import ChartPipeline.Proofs.Growing

/-!
# Edits that fail

An edit that finds a precondition broken returns a fault, and what it did until then stays.  Most
edits look before they do anything, so the flow is what it was.  Two do something first: a stage
that cannot be put below a parent is left as a root, and a stage that was taken out before is still
joined into the one that is kept.

## Key results

- `setParent_error`, `remove_error`, `swapWithParent_error`, `absorb_error`: edits that look first
- `oneMoreRoot_add`, `holds_updateStage`: what the other two leave behind
- `unspoiled_after`: what is left of a failed operation, after any operations before it
-/

namespace ChartPipeline

/-! ### Kinds of which two stages make one -/

/-- Whether two stages of a kind can be joined into one. -/
def Tag.mergeable : Tag → Bool
  | parse | filter | nullFilter | bin | timeUnit | aggregate | positiveFilter => true
  | _ => false

/-- Two stages can be joined exactly if they are of one kind, and of one that can be. -/
theorem Stage.exists_merge?_iff {a b : Stage} :
    (∃ c, a.merge? b = some c) ↔ b.tag = a.tag ∧ a.tag.mergeable = true := by
  cases a <;> cases b <;> simp [merge?, tag, Tag.mergeable]

namespace Forest

variable {α : Type} {f : Forest α} {id i : Nat}

/-! ### A new tree at the end -/

/-- A new tree at the end is not found for other names. -/
theorem find?_append_leaf (h : i ≠ id) (a : α) : (f ++ leaf i a).find? id = f.find? id := by
  induction f with
  | nil => simp [leaf, find?, h]
  | node j b cs rest _ ih => rw [node_append, find?, find?, ih]

/-- It stands above no other names. -/
theorem ancestors?_append_leaf (h : i ≠ id) (a : α) :
    (f ++ leaf i a).ancestors? id = f.ancestors? id := by
  induction f with
  | nil => simp [leaf, ancestors?, h]
  | node j b cs rest _ ih => rw [node_append, ancestors?, ancestors?, ih]

/-- It is found for its own name. -/
theorem find?_append_new (h : i ∉ f.walk) (a : α) : (f ++ leaf i a).find? i = some (a, nil) := by
  rw [find?_append_of_notMem h, leaf, find?, if_pos rfl]

/-- Nothing stands above it. -/
theorem ancestors_append_new (h : i ∉ f.walk) (a : α) : (f ++ leaf i a).ancestors i = [] := by
  rw [ancestors, ancestors?_append_of_notMem h, leaf, ancestors?, if_pos rfl, Option.getD_some]

/-! ### A changed content -/

/-- A node is found as before with its content and what is below it changed. -/
theorem find?_update (u : α → α) : (f.update i u).find? id =
    (f.find? id).map fun e => (if id = i then u e.1 else e.1, e.2.update i u) := by
  induction f with
  | nil => rfl
  | node j b cs rest ihc ihr =>
    rw [update, find?, find?]
    split
    next h => rw [h, Option.map_some]
    next => rw [ihc, ihr]; cases cs.find? id <;> rfl

/-- Changing contents keeps the roots. -/
@[simp] theorem roots_update (u : α → α) : (f.update i u).roots = f.roots := by
  induction f with
  | nil => rfl
  | node j b cs rest _ ih => rw [update, roots, roots, ih]

/-- It keeps what stands above each node. -/
@[simp] theorem ancestors?_update (u : α → α) : (f.update i u).ancestors? id = f.ancestors? id := by
  induction f with
  | nil => rfl
  | node j b cs rest ihc ihr => rw [update, ancestors?, ancestors?, ihc, ihr]

/-- It keeps the children. -/
theorem children_update (u : α → α) : (f.update i u).children id = f.children id := by
  rw [children, children, find?_update]
  cases f.find? id with
  | none => rfl
  | some e => exact roots_update u

/-- It changes the content of the given name only. -/
theorem content?_update (u : α → α) :
    (f.update i u).content? id = (f.content? id).map fun a => if id = i then u a else a := by
  rw [content?, content?, find?_update, Option.map_map, Option.map_map]
  rfl

end Forest

namespace Flow

open Forest

variable {flow flow' : Flow} {id parent keep other : Nat} {fault : FlowFault}

/-- What an operation returns, but for the name of a new stage. -/
def Operation.result (flow : Flow) : Operation → Except FlowFault Unit
  | add stage => ((Flow.add stage : Edit FlowFault Nat) flow).1.map fun _ => ()
  | addChild parent stage => (Flow.addChild parent stage flow).1.map fun _ => ()
  | setParent id parent => (Flow.setParent id parent flow).1
  | remove id => (Flow.remove id flow).1
  | swapWithParent id => (Flow.swapWithParent id flow).1
  | merge keep other => (Flow.merge keep other flow).1

/-! ### Edits that look first -/

/-- A stage that cannot be put below another one is left where it was. -/
theorem setParent_error (h : setParent id parent flow = (.error fault, flow')) :
    flow' = flow := by
  unfold setParent at h
  split at h
  · exact (Prod.mk.inj h).2.symm
  · split at h
    · exact (Prod.mk.inj h).2.symm
    · split at h
      · exact absurd (Prod.mk.inj h).1 (by simp)
      · split at h
        · exact absurd (Prod.mk.inj h).1 (by simp)
        · exact (Prod.mk.inj h).2.symm

/-- Nothing is taken out if it is not there. -/
theorem remove_error (h : remove id flow = (.error fault, flow')) : flow' = flow := by
  unfold remove at h
  split at h
  · exact absurd (Prod.mk.inj h).1 (by simp)
  · exact (Prod.mk.inj h).2.symm

/-- A stage that cannot be exchanged with its parent is left where it was. -/
theorem swapWithParent_error (h : swapWithParent id flow = (.error fault, flow')) :
    flow' = flow := by
  unfold swapWithParent at h
  split at h
  · exact (Prod.mk.inj h).2.symm
  · split at h
    · exact absurd (Prod.mk.inj h).1 (by simp)
    · exact (Prod.mk.inj h).2.symm

/-- Stages that are joined hold things of one kind. -/
theorem absorb_ok (h : absorb keep other flow = (.ok (), flow')) : ∃ a b joined,
    flow.stage? keep = some a ∧ flow.stage? other = some b ∧ a.merge? b = some joined ∧
      flow' = flow.updateStage keep fun _ => joined := by
  unfold absorb at h
  split at h
  next a b ha hb =>
    split at h
    next joined hjoin => exact ⟨a, b, joined, ha, hb, hjoin, (Prod.mk.inj h).2.symm⟩
    next => exact absurd (Prod.mk.inj h).1 (by simp)
  next => exact absurd (Prod.mk.inj h).1 (by simp)

/-- Stages that cannot be joined are left as they were. -/
theorem absorb_error (h : absorb keep other flow = (.error fault, flow')) : flow' = flow := by
  unfold absorb at h
  split at h
  · split at h
    · exact absurd (Prod.mk.inj h).1 (by simp)
    · exact (Prod.mk.inj h).2.symm
  · exact (Prod.mk.inj h).2.symm

/-- A stage in the forest can be taken out. -/
theorem remove_of_mem (h : id ∈ flow.stages.walk) :
    ∃ flow', remove id flow = (.ok (), flow') := by
  obtain ⟨e, he⟩ := Option.isSome_iff_exists.1 (contains_iff.2 h)
  simp only [remove, content?, he, Option.map_some]
  exact ⟨_, rfl⟩

/-- What is not in the forest and holds something was taken out. -/
theorem mem_removedNames_of_stage? {a : Stage} (h : flow.stage? id = some a)
    (hout : id ∉ flow.stages.walk) : id ∈ flow.removedNames := by
  rw [stage?, content?, find?_eq_none.2 hout] at h
  obtain ⟨e, he, -⟩ := Option.map_eq_some_iff.1 h
  obtain rfl : e.1 = id := by simpa using List.find?_some he
  exact List.mem_map_of_mem (List.mem_of_find?_eq_some he)

/-- Nothing goes below itself or below a stage that is not in the forest. -/
theorem setParent_of_notMem (h : id ≠ parent → parent ∉ flow.stages.walk) :
    setParent id parent flow =
      (.error (if id = parent then .cycle id parent else .parentRemoved id parent), flow) := by
  by_cases hne : id = parent
  · rw [setParent, if_pos hne, decide_eq_true hne, Bool.true_or, if_pos rfl]
  · have hroot : flow.stages.isAncestor id parent = false := by
      rw [isAncestor, ancestors_of_notMem (h hne)]
      rfl
    rw [setParent, if_neg hne, hroot, decide_eq_false hne, isAttached_eq_false_iff.2 (h hne)]
    rfl

/-! ### What the other two leave behind -/

/-- A stage hangs together with the others as it did. -/
structure SameLinks (flow flow' : Flow) (id : Nat) : Prop where
  parent : flow'.stages.parent? id = flow.stages.parent? id
  children : flow'.stages.children id = flow.stages.children id
  attached : flow'.isAttached id = flow.isAttached id

/-- Another flow in which a new stage is the last root, alone; that is one change, and all other
    stages hang together as they did and hold what they held. -/
structure OneMoreRoot (flow : Flow) (stage : Stage) (flow' : Flow) : Prop where
  roots : flow'.stages.roots = flow.stages.roots ++ [flow.next]
  alone : flow'.stages.parent? flow.next = none ∧ flow'.stages.children flow.next = []
  held : flow'.stage? flow.next = some stage
  links : ∀ id, id ≠ flow.next → flow.SameLinks flow' id
  stage? : ∀ id, id ≠ flow.next → flow'.stage? id = flow.stage? id
  removed : flow'.removed = flow.removed
  next : flow'.next = flow.next + 1
  revision : flow'.revision = flow.revision + 1
  resolved : flow'.resolved = flow.resolved

/-- Another flow that differs in what one stage holds, and in nothing else. -/
structure Holds (flow : Flow) (keep : Nat) (joined : Stage) (flow' : Flow) : Prop where
  roots : flow'.stages.roots = flow.stages.roots
  links : ∀ id, flow.SameLinks flow' id
  stage? : ∀ id, flow'.stage? id = if id = keep then some joined else flow.stage? id
  removed : flow'.removedNames = flow.removedNames
  next : flow'.next = flow.next
  revision : flow'.revision = flow.revision
  resolved : flow'.resolved = flow.resolved

/-- A stage that is added is one more root. -/
theorem oneMoreRoot_add (h : flow.Accounted) (stage : Stage) :
    flow.OneMoreRoot stage ((Flow.add stage : Edit FlowFault Nat) flow).2 where
  roots := roots_append _ _
  alone := by
    constructor
    · show (flow.stages ++ leaf flow.next stage).parent? flow.next = none
      rw [parent?, ancestors_append_new h.next_notMem, List.head?_nil]
    · show (flow.stages ++ leaf flow.next stage).children flow.next = []
      rw [children, find?_append_new h.next_notMem]
      rfl
  held := stage?_of_content? <| by
    show (flow.stages ++ leaf flow.next stage).content? flow.next = some stage
    rw [content?, find?_append_new h.next_notMem, Option.map_some]
  -- the new tree comes last, so it is looked at only for its own name
  links id hid := by
    constructor
    · show (flow.stages ++ leaf flow.next stage).parent? id = _
      rw [parent?, ancestors, ancestors?_append_leaf hid.symm, parent?, ancestors]
    · show (flow.stages ++ leaf flow.next stage).children id = _
      rw [children, find?_append_leaf hid.symm, children]
    · show (flow.stages ++ leaf flow.next stage).contains id = _
      rw [contains, find?_append_leaf hid.symm, isAttached, contains]
  stage? id hid := by
    show ((flow.stages ++ leaf flow.next stage).content? id).orElse _ = _
    rw [content?, find?_append_leaf hid.symm, Flow.stage?, content?]
    rfl
  removed := rfl
  next := rfl
  revision := rfl
  resolved := rfl

/-- A stage that is changed holds the new thing, wherever it is. -/
theorem stage?_updateStage (flow : Flow) (keep id : Nat) (u : Stage → Stage) :
    (flow.updateStage keep u).stage? id =
      (flow.stage? id).map fun a => if id = keep then u a else a := by
  have hkey : (fun e : Nat × Stage => decide (e.1 = id)) ∘
      (fun e => if e.1 = keep then (e.1, u e.2) else e) = fun e => decide (e.1 = id) := by
    funext e
    simp only [Function.comp_apply]
    split <;> rfl
  -- among the stages that were taken out, it is the first one of its name that counts
  have hout : ((flow.updateStage keep u).removed.find? (·.1 = id)).map Prod.snd =
      ((flow.removed.find? (·.1 = id)).map Prod.snd).map fun a => if id = keep then u a else a := by
    rw [updateStage, List.find?_map, hkey]
    cases h : flow.removed.find? (·.1 = id) with
    | none => rfl
    | some e =>
      obtain rfl : e.1 = id := by simpa using List.find?_some h
      simp only [Option.map_some]
      split <;> rfl
  rw [stage?, stage?, hout, updateStage, content?_update]
  cases flow.stages.content? id <;> rfl

/-- A flow in which one stage is changed differs in what that holds. -/
theorem holds_updateStage {stage : Stage} (h : flow.stage? keep = some stage) (joined : Stage) :
    flow.Holds keep joined (flow.updateStage keep fun _ => joined) where
  roots := roots_update _
  links id := by
    constructor
    · rw [updateStage, parent?, ancestors, ancestors?_update, parent?, ancestors]
    · rw [updateStage, children_update]
    · rw [isAttached, updateStage, contains, find?_update, Option.isSome_map, isAttached, contains]
  stage? id := by
    rw [stage?_updateStage]
    split
    next hid => rw [hid, h, Option.map_some]
    next => exact Option.map_id'
  removed := removedNames_updateStage flow keep _
  next := rfl
  revision := rfl
  resolved := rfl

/-- A stage that cannot be put below a parent is left as a root. -/
theorem addChild_run_of_notMem (stage : Stage) (h : parent ∉ flow.stages.walk) :
    addChild parent stage flow =
      (.error (if flow.next = parent then .cycle flow.next parent
        else .parentRemoved flow.next parent),
        ((Flow.add stage : Edit FlowFault Nat) flow).2) := by
  have hout : flow.next ≠ parent →
      parent ∉ ((Flow.add stage : Edit FlowFault Nat) flow).2.stages.walk := by
    intro hne
    show parent ∉ (flow.stages ++ leaf flow.next stage).walk
    rw [walk_append, List.mem_append, leaf, walk_node]
    simpa [h] using fun e => hne e.symm
  exact (Run.bind_ok rfl).trans (Run.bind_error (setParent_of_notMem hout))

/-- A stage that was taken out before is joined into the one that is kept. -/
theorem merge_run_of_notMem {a b joined : Stage} (hne : keep ≠ other)
    (ha : flow.stage? keep = some a) (hb : flow.stage? other = some b)
    (hjoin : a.merge? b = some joined) (h : other ∉ flow.stages.walk) :
    merge keep other flow =
      (.error (.alreadyRemoved other), flow.updateStage keep fun _ => joined) := by
  have habsorb : absorb keep other flow = (.ok (), flow.updateStage keep fun _ => joined) := by
    simp only [absorb, ha, hb, hjoin]
  have hremove : remove other (flow.updateStage keep fun _ => joined) =
      (.error (.alreadyRemoved other), flow.updateStage keep fun _ => joined) := by
    have hnone : (flow.updateStage keep fun _ => joined).stages.content? other = none := by
      rw [updateStage, content?, find?_eq_none.2 (by rwa [walk_update]), Option.map_none]
    simp only [remove, hnone]
  rw [merge, if_neg hne]
  exact (Run.bind_ok (k := fun _ => remove other) habsorb).trans hremove

/-! ### All operations -/

/-- What is left of operations that fail.  They leave the flow as it was, structure, contents and
count of changes, with two exceptions that always occur: a stage added below one that was taken out
is left as the last root, and a stage that was taken out before is joined into one of its kind. -/
structure Unspoiled (flow : Flow) : Prop where
  /-- A name that was not given out yet is no stage, and a new stage cannot go below it either. -/
  failed : ∀ (operation : Operation) (fault : FlowFault), operation.result flow = .error fault →
    operation.apply flow = flow ∨
    (∃ parent stage, operation = .addChild parent stage ∧
      (parent ∈ flow.removedNames ∨ flow.next ≤ parent) ∧
      flow.OneMoreRoot stage (operation.apply flow)) ∨
    ∃ keep other a b joined, operation = .merge keep other ∧ keep ≠ other ∧
      other ∈ flow.removedNames ∧ flow.stage? keep = some a ∧ flow.stage? other = some b ∧
      b.tag = a.tag ∧ a.tag.mergeable = true ∧ a.merge? b = some joined ∧
      flow.Holds keep joined (operation.apply flow)
  addChild : ∀ parent stage, parent ∈ flow.removedNames →
    (Operation.addChild parent stage).result flow = .error (.parentRemoved flow.next parent) ∧
    flow.OneMoreRoot stage ((Operation.addChild parent stage).apply flow)
  merge : ∀ keep other a b, keep ≠ other → other ∈ flow.removedNames →
    flow.stage? keep = some a → flow.stage? other = some b → b.tag = a.tag →
    a.tag.mergeable = true →
    (Operation.merge keep other).result flow = .error (.alreadyRemoved other) ∧
    ∃ joined, a.merge? b = some joined ∧
      flow.Holds keep joined ((Operation.merge keep other).apply flow)

/-- A stage that cannot be added below a parent is one more root. -/
theorem addChild_failed (h : flow.Accounted) {stage : Stage}
    (hfail : (addChild parent stage flow).1.map (fun _ => ()) = .error fault) :
    (parent ∈ flow.removedNames ∨ flow.next ≤ parent) ∧
      flow.OneMoreRoot stage (addChild parent stage flow).2 := by
  -- it fails only where the parent is not in the forest
  by_cases hp : parent ∈ flow.stages.walk
  · obtain ⟨flow', hrun, -⟩ := addChild_run stage h.nodup_walk hp h.next_notMem
    rw [hrun] at hfail
    cases hfail
  · rw [addChild_run_of_notMem stage hp]
    refine ⟨?_, oneMoreRoot_add h stage⟩
    rcases Nat.lt_or_ge parent flow.next with hlt | hge
    · exact .inl ((h.lt_next_iff.1 hlt).resolve_left hp)
    · exact .inr hge

/-- A merge that fails has joined the stages only if the other one was taken out before. -/
theorem merge_failed (h : (merge keep other flow).1 = .error fault) :
    (merge keep other flow).2 = flow ∨ ∃ a b joined, keep ≠ other ∧ other ∈ flow.removedNames ∧
      flow.stage? keep = some a ∧ flow.stage? other = some b ∧ b.tag = a.tag ∧
      a.tag.mergeable = true ∧ a.merge? b = some joined ∧
      flow.Holds keep joined (merge keep other flow).2 := by
  by_cases hne : keep = other
  · rw [merge, if_pos hne]
    exact .inl rfl
  have hmerge : merge keep other flow = (do absorb keep other; remove other : Edit _ _) flow := by
    rw [merge, if_neg hne]
  cases habsorb : absorb keep other flow with
  | mk result flow₁ =>
  cases result with
  | error fault' =>
    rw [hmerge, Run.bind_error habsorb]
    exact .inl (absorb_error habsorb)
  | ok =>
    obtain ⟨a, b, joined, ha, hb, hjoin, rfl⟩ := absorb_ok habsorb
    -- joining has succeeded, so it is the removal that failed
    have hout : other ∉ flow.stages.walk := by
      intro hmem
      have hmem : other ∈ (flow.updateStage keep fun _ => joined).stages.walk := by
        rwa [updateStage, walk_update]
      obtain ⟨flow₂, hremove⟩ := remove_of_mem hmem
      rw [hmerge, Run.bind_ok habsorb, hremove] at h
      cases h
    rw [merge_run_of_notMem hne ha hb hjoin hout]
    obtain ⟨htag, hkind⟩ := Stage.exists_merge?_iff.1 ⟨joined, hjoin⟩
    exact .inr ⟨a, b, joined, hne, mem_removedNames_of_stage? hb hout, ha, hb, htag, hkind, hjoin,
      holds_updateStage ha joined⟩

/-- Where every name is accounted for, a failing operation leaves no more than was said. -/
theorem Accounted.unspoiled (h : flow.Accounted) : flow.Unspoiled where
  failed operation fault hfail := by
    -- adding never fails; the others that look first leave everything
    cases operation with
    | add stage => cases hfail
    | addChild parent stage => exact .inr (.inl ⟨parent, stage, rfl, addChild_failed h hfail⟩)
    | setParent id parent => exact .inl (setParent_error (Prod.ext hfail rfl))
    | remove id => exact .inl (remove_error (Prod.ext hfail rfl))
    | swapWithParent id => exact .inl (swapWithParent_error (Prod.ext hfail rfl))
    | merge keep other =>
      refine (merge_failed hfail).imp id fun hleft => .inr ?_
      obtain ⟨a, b, joined, hleft⟩ := hleft
      exact ⟨keep, other, a, b, joined, rfl, hleft⟩
  addChild parent stage hout := by
    have hrun := addChild_run_of_notMem stage (h.notMem_of_removed hout)
    have hnew : flow.next ≠ parent := fun e =>
      absurd (e ▸ h.lt_next_iff.2 (.inr hout)) (Nat.lt_irrefl _)
    refine ⟨?_, ?_⟩
    · rw [Operation.result, hrun, if_neg hnew]
      rfl
    · rw [Operation.apply, hrun]
      exact oneMoreRoot_add h stage
  merge keep other a b hne hout ha hb htag hkind := by
    obtain ⟨joined, hjoin⟩ := Stage.exists_merge?_iff.2 ⟨htag, hkind⟩
    have hrun := merge_run_of_notMem hne ha hb hjoin (h.notMem_of_removed hout)
    refine ⟨?_, joined, hjoin, ?_⟩
    · rw [Operation.result, hrun]
    · rw [Operation.apply, hrun]
      exact holds_updateStage ha joined

/-- Whatever operations were asked for before, an operation that fails leaves no more than this. -/
theorem unspoiled_after (operations : List Operation) : (after operations).Unspoiled :=
  (accounted_after operations).unspoiled

end Flow

end ChartPipeline
