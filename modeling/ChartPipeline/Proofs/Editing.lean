import ChartPipeline.Flow.Basic
import ChartPipeline.Proofs.Links
import ChartPipeline.Proofs.Climbing
import Mathlib.Data.List.Range

/-!
# Edits keep a flow a forest

Stages are added, put elsewhere, taken out, exchanged and joined, in any order, and edits may fail.
Whatever is asked for, every name that was given out is at one place: in the forest, or among the
stages that were taken out.  That is all that the links between stages rest on.

## Key results

- `Accounted.apply`: an operation keeps every name at one place, whether it fails or not
- `Accounted.linked`: where that holds, the links between the stages are those of a forest
-/

namespace ChartPipeline

/-- What holds after the first part of a program, and after the second if this is run at all, holds
    after the program, whether it fails or not. -/
theorem Run.snd_bind {ε σ α β : Type} {P : σ → Prop} {e : ExceptT ε (StateM σ) α}
    {k : α → ExceptT ε (StateM σ) β} {s : σ} (he : P (e s).2)
    (hk : ∀ a s', e s = (.ok a, s') → P (k a s').2) : P ((e >>= k) s).2 := by
  cases hrun : e s with
  | mk result s' =>
    cases result with
    | error x =>
      rw [Run.bind_error hrun]
      rwa [hrun] at he
    | ok a =>
      rw [Run.bind_ok hrun]
      exact hk a s' hrun

namespace Forest

variable {α : Type} {f : Forest α} {id p : Nat}

/-! ### The names of an edited forest -/

/-- Trees put below a node come to what was there. -/
theorem perm_walk_attach (hn : f.walk.Nodup) (hp : p ∈ f.walk) (trees : Forest α) :
    (f.attach p trees).walk.Perm (f.walk ++ trees.walk) := by
  obtain ⟨fr, up, cs, rfl, rfl⟩ := exists_fill_of_mem hp
  rw [attach_first hn, List.perm_iff_count]
  intro i
  simp only [fill, count_walk_fill, count_walk_close, walk_append, List.count_append]
  omega

/-- Everything but the node and what is below it is left when these are taken out. -/
theorem perm_walk_without (hn : f.walk.Nodup) {a : α} {cs : Forest α}
    (hfind : f.find? id = some (a, cs)) :
    f.walk.Perm ((f.without id).walk ++ (node id a cs nil).walk) := by
  have hmem : id ∈ f.walk := by
    rw [← contains_iff, contains, hfind]
    rfl
  obtain ⟨fr, up, ds, rfl, rfl⟩ := exists_fill_of_mem hmem
  rw [find?_first hn, Option.some.injEq] at hfind
  obtain ⟨rfl, rfl⟩ := Prod.mk.inj hfind
  rw [without_first hn, List.perm_iff_count]
  intro i
  simp only [fill, count_walk_fill, count_walk_close, walk_append, walk_node, walk_nil,
    List.count_append, List.count_cons, List.count_nil, beq_iff_eq]
  omega

/-- What is not below a node stays when this is taken out with all below it. -/
theorem mem_walk_without (hn : f.walk.Nodup) (hne : p ≠ id) (hp : p ∈ f.walk)
    (habove : id ∉ f.ancestors p) : p ∈ (f.without id).walk := by
  by_cases hmem : id ∈ f.walk
  · obtain ⟨fr, up, cs, rfl, rfl⟩ := exists_fill_of_mem hmem
    -- below the node the name cannot be, because then this would be above it
    have hnot : p ∉ cs.walk := by
      intro hin
      obtain ⟨fr', up', ds, rfl, rfl⟩ := exists_fill_of_mem hin
      refine habove ?_
      rw [← fill_append, List.cons_append] at hn ⊢
      rw [ancestors_first hn]
      simp
    -- so the name is around the hole, and stays there
    rw [without_first hn]
    rw [(walk_fill_perm _ _).mem_iff, outside_cons, Frame.names] at hp
    rw [(walk_fill_perm _ _).mem_iff, walk_append]
    simp only [List.mem_append, List.mem_cons] at hp ⊢
    tauto
  · rwa [without_of_notMem hmem]

/-- A node taken out leaves the names of all others. -/
theorem perm_walk_splice (hn : f.walk.Nodup) (hmem : id ∈ f.walk) :
    f.walk.Perm (id :: (f.splice id).walk) := by
  obtain ⟨fr, up, cs, rfl, rfl⟩ := exists_fill_of_mem hmem
  rw [splice_first hn, List.perm_iff_count]
  intro i
  simp only [fill, count_walk_fill, count_walk_close, walk_append, List.count_append,
    List.count_cons, beq_iff_eq]
  omega

/-- An only child is the only node in the hole below its parent. -/
theorem exists_fill_of_only (hn : f.walk.Nodup) (hp : p ∈ f.walk) (hc : f.children p = [id]) :
    ∃ fr up cs b, f = fill (fr :: up) (node id b cs nil) ∧ fr.id = p := by
  obtain ⟨fr, up, cs, rfl, rfl⟩ := exists_fill_of_mem hp
  rw [children_first hn] at hc
  -- the forest in the hole has one root, so it is one tree
  cases cs with
  | nil => exact absurd hc (by simp [roots])
  | node i b cs rest =>
    obtain ⟨rfl, hrest⟩ := List.cons.inj hc
    obtain rfl := length_roots_eq_zero.1 (congrArg List.length hrest)
    exact ⟨fr, up, cs, b, rfl, rfl⟩

/-- An exchange of an only child with its parent keeps the names. -/
theorem perm_walk_lift (hn : f.walk.Nodup) (hp : f.parent? id = some p)
    (hc : f.children p = [id]) : f.walk.Perm (f.lift id).walk := by
  obtain ⟨parent, up, cs, b, rfl, rfl⟩ :=
    exists_fill_of_only hn (mem_walk_of_parent? hn hp) hc
  rw [lift_first hn, List.perm_iff_count]
  intro j
  simp only [fill, count_walk_fill, count_walk_close, walk_node, walk_nil, List.count_append,
    List.count_cons, List.count_nil, beq_iff_eq]
  omega

end Forest

namespace Flow

open Forest

variable {flow flow' : Flow} {id : Nat}

/-! ### Every name at one place -/

/-- The names of the stages that were taken out. -/
def removedNames (flow : Flow) : List Nat := flow.removed.map Prod.fst

/-- Every name that was given out is in the forest or among those taken out, and at one place
    only. -/
def Accounted (flow : Flow) : Prop :=
  (flow.stages.walk ++ flow.removedNames).Perm (List.range flow.next)

/-- In the empty flow no name was given out. -/
theorem accounted_empty : Accounted {} := List.Perm.refl _

/-- No name is at two places. -/
theorem Accounted.nodup (h : flow.Accounted) : (flow.stages.walk ++ flow.removedNames).Nodup :=
  h.nodup_iff.2 List.nodup_range

/-- No name stands twice in the forest. -/
theorem Accounted.nodup_walk (h : flow.Accounted) : flow.stages.walk.Nodup :=
  (List.nodup_append.1 h.nodup).1

/-- The names that were given out are those of the forest and those taken out. -/
theorem Accounted.lt_next_iff (h : flow.Accounted) :
    id < flow.next ↔ id ∈ flow.stages.walk ∨ id ∈ flow.removedNames := by
  rw [← List.mem_append, h.mem_iff, List.mem_range]

/-- A stage that was taken out is not in the forest. -/
theorem Accounted.notMem_of_removed (h : flow.Accounted) (hid : id ∈ flow.removedNames) :
    id ∉ flow.stages.walk :=
  fun hmem => (List.nodup_append.1 h.nodup).2.2 id hmem id hid rfl

/-- The next name is new. -/
theorem Accounted.next_notMem (h : flow.Accounted) : flow.next ∉ flow.stages.walk :=
  fun hmem => absurd (h.lt_next_iff.2 (.inl hmem)) (Nat.lt_irrefl _)

/-- Where names only change places, they are still at one place each. -/
theorem Accounted.of_perm (h : flow.Accounted) (hnext : flow'.next = flow.next)
    (hperm : (flow'.stages.walk ++ flow'.removedNames).Perm
      (flow.stages.walk ++ flow.removedNames)) : flow'.Accounted := by
  rw [Accounted, hnext]
  exact hperm.trans h

/-! ### One edit after the other -/

/-- The next name is given out to a new root. -/
theorem Accounted.add (h : flow.Accounted) (stage : Stage) :
    ((Flow.add stage : Edit FlowFault Nat) flow).2.Accounted := by
  show ((flow.stages ++ leaf flow.next stage).walk ++ flow.removedNames).Perm
    (List.range (flow.next + 1))
  rw [walk_append, leaf, walk_node, walk_nil, List.append_nil, List.range_succ]
  refine List.Perm.trans ?_ (h.append_right [flow.next])
  simp only [List.append_assoc]
  exact List.Perm.append_left _ List.perm_append_comm

/-- A stage put elsewhere keeps its name, and all below it theirs; one that comes back is no longer
    among those taken out. -/
theorem Accounted.setParent (h : flow.Accounted) (id parent : Nat) :
    (Flow.setParent id parent flow).2.Accounted := by
  have hn := h.nodup_walk
  unfold Flow.setParent
  split
  · exact h
  next hcycle =>
  split
  · exact h
  next hat =>
  rw [Bool.or_eq_true, decide_eq_true_eq, not_or] at hcycle
  obtain ⟨hne, habove⟩ := hcycle
  -- past the two guards the parent is in the forest, and the stage is not above it
  have hparent : parent ∈ flow.stages.walk := by
    rw [← contains_iff]
    simpa [isAttached] using hat
  cases hfind : flow.stages.find? id with
  | some e =>
    -- the tree of the stage is taken out and put below the parent
    obtain ⟨stage, children⟩ := e
    have hrest := perm_walk_without hn hfind
    have hin : parent ∈ (flow.stages.without id).walk :=
      mem_walk_without hn (fun e => hne e.symm) hparent (by simpa [isAncestor] using habove)
    have hnrest : (flow.stages.without id).walk.Nodup :=
      (List.nodup_append.1 (hrest.nodup_iff.1 hn)).1
    refine h.of_perm rfl (List.Perm.append_right _ ?_)
    exact (perm_walk_attach hnrest hin _).trans hrest.symm
  | none =>
    cases hremoved : flow.removed.find? (·.1 = id) with
    | none => exact h
    | some e =>
      -- a stage that was taken out comes back alone
      obtain ⟨i, stage⟩ := e
      obtain rfl : i = id := by simpa using List.find?_some hremoved
      have hmem : i ∈ flow.removedNames :=
        List.mem_map_of_mem (List.mem_of_find?_eq_some hremoved)
      have hnames : (flow.removed.filter (·.1 ≠ i)).map Prod.fst = flow.removedNames.erase i := by
        have hnodup := (List.nodup_append.1 h.nodup).2.1
        rw [hnodup.erase_eq_filter, removedNames, List.filter_map]
        congr 1
        refine List.filter_congr fun e _ => ?_
        rw [Bool.eq_iff_iff]
        simp
      refine h.of_perm rfl ?_
      show ((flow.stages.attach parent (leaf i stage)).walk ++
        (flow.removed.filter (·.1 ≠ i)).map Prod.fst).Perm _
      rw [hnames]
      refine ((perm_walk_attach hn hparent _).append_right _).trans ?_
      rw [leaf, walk_node, walk_nil, List.append_nil, List.append_assoc, List.singleton_append]
      exact List.Perm.append_left _ (List.perm_cons_erase hmem).symm

/-- A new stage below another one, also where it can only become a root. -/
theorem Accounted.addChild (h : flow.Accounted) (parent : Nat) (stage : Stage) :
    (Flow.addChild parent stage flow).2.Accounted := by
  unfold Flow.addChild
  -- the two edits are taken one by one, as the second may fail after the first
  refine Run.snd_bind (h.add stage) fun id flow₁ hadd => ?_
  have h₁ : flow₁.Accounted := by
    have := h.add stage
    rwa [hadd] at this
  refine Run.snd_bind (h₁.setParent id parent) fun _ flow₂ hset => ?_
  have := h₁.setParent id parent
  rwa [hset] at this

/-- The name of a stage that is taken out goes from the forest to those taken out. -/
theorem Accounted.remove (h : flow.Accounted) (id : Nat) : (Flow.remove id flow).2.Accounted := by
  unfold Flow.remove
  cases hc : flow.stages.content? id with
  | none => exact h
  | some stage =>
    refine h.of_perm rfl ?_
    show ((flow.stages.splice id).walk ++ id :: flow.removedNames).Perm _
    refine List.perm_middle.trans ?_
    rw [← List.cons_append]
    exact ((perm_walk_splice h.nodup_walk (mem_walk_of_content? hc)).symm.append_right _)

/-- An exchange keeps the names in the forest. -/
theorem Accounted.swapWithParent (h : flow.Accounted) (id : Nat) :
    (Flow.swapWithParent id flow).2.Accounted := by
  unfold Flow.swapWithParent
  cases hp : flow.stages.parent? id with
  | none => exact h
  | some parent =>
    by_cases hc : flow.stages.children parent = [id]
    · simp only [hc, if_pos]
      exact h.of_perm rfl (List.Perm.append_right _ (perm_walk_lift h.nodup_walk hp hc).symm)
    · simp only [hc, if_neg, not_false_eq_true]
      exact h

/-- What is held by stages that were taken out may change, but not their names. -/
theorem removedNames_updateStage (flow : Flow) (id : Nat) (u : Stage → Stage) :
    (flow.updateStage id u).removedNames = flow.removedNames := by
  rw [removedNames, Flow.updateStage, List.map_map]
  refine List.map_congr_left fun e _ => ?_
  simp only [Function.comp_apply]
  split <;> rfl

/-- Changing what a stage holds leaves all names where they are. -/
theorem Accounted.updateStage (h : flow.Accounted) (id : Nat) (u : Stage → Stage) :
    (flow.updateStage id u).Accounted := by
  refine h.of_perm rfl ?_
  rw [removedNames_updateStage, Flow.updateStage, walk_update]

/-- Joining what stages hold moves no names. -/
theorem Accounted.absorb (h : flow.Accounted) (keep other : Nat) :
    (Flow.absorb keep other flow).2.Accounted := by
  unfold Flow.absorb
  split
  · split
    · exact h.updateStage _ _
    · exact h
  · exact h

/-- A merge that fails may have joined what the stages hold, which moves no names. -/
theorem Accounted.merge (h : flow.Accounted) (keep other : Nat) :
    (Flow.merge keep other flow).2.Accounted := by
  unfold Flow.merge
  split
  · exact h
  · refine Run.snd_bind (h.absorb keep other) fun _ flow₁ habsorb => ?_
    have h₁ := h.absorb keep other
    rw [habsorb] at h₁
    exact h₁.remove other

/-! ### Operations in any order -/

/-- An edit of the structure that can be asked for, with whatever names. -/
inductive Operation where
  | add (stage : Stage)
  | addChild (parent : Nat) (stage : Stage)
  | setParent (id parent : Nat)
  | remove (id : Nat)
  | swapWithParent (id : Nat)
  | merge (keep other : Nat)

/-- The flow after an operation, whether this has failed or not. -/
def Operation.apply (flow : Flow) : Operation → Flow
  | add stage => ((Flow.add stage : Edit FlowFault Nat) flow).2
  | addChild parent stage => (Flow.addChild parent stage flow).2
  | setParent id parent => (Flow.setParent id parent flow).2
  | remove id => (Flow.remove id flow).2
  | swapWithParent id => (Flow.swapWithParent id flow).2
  | merge keep other => (Flow.merge keep other flow).2

/-- The flow after operations, starting with nothing. -/
def after (operations : List Operation) : Flow := operations.foldl Operation.apply {}

/-- Whatever an operation does, and whether it fails or not, every name is at one place. -/
theorem Accounted.apply (h : flow.Accounted) (operation : Operation) :
    (operation.apply flow).Accounted := by
  cases operation with
  | add stage => exact h.add stage
  | addChild parent stage => exact h.addChild parent stage
  | setParent id parent => exact h.setParent id parent
  | remove id => exact h.remove id
  | swapWithParent id => exact h.swapWithParent id
  | merge keep other => exact h.merge keep other

/-- After any operations every name is at one place. -/
theorem accounted_after (operations : List Operation) : (after operations).Accounted := by
  rw [after]
  exact List.foldlRecOn operations Operation.apply accounted_empty
    fun flow h operation _ => h.apply operation

/-! ### The links of a flow -/

/-- How stages hang together, where the roots, the parents, the children and what is in the forest are
    each kept by itself. -/
structure LinkedBy (roots : List Nat) (parent? : Nat → Option Nat) (children : Nat → List Nat)
    (isAttached : Nat → Bool) : Prop where
  /-- A stage of the forest is one of the roots and nobody's child, or a child of one stage of the
  forest, its parent, and nobody else's. -/
  attached : ∀ id, isAttached id = true →
    (parent? id = none ∧ roots.count id = 1 ∧ ∀ q, id ∉ children q) ∨
    ∃ p, parent? id = some p ∧ isAttached p = true ∧ (children p).count id = 1 ∧ id ∉ roots ∧
      ∀ q, id ∈ children q → q = p
  /-- Other stages are no roots and nobody's children, and have neither parent nor children. -/
  detached : ∀ id, isAttached id = false →
    id ∉ roots ∧ (∀ q, id ∉ children q) ∧ parent? id = none ∧ children id = []
  /-- From parent to parent the way leads to a root. -/
  rooted : ∀ id, isAttached id = true → ∃ r ∈ roots, parent? r = none ∧
    Relation.ReflTransGen (fun a b => parent? a = some b) id r
  /-- It never comes back to where it was. -/
  acyclic : ∀ id, ¬ Relation.TransGen (fun a b => parent? a = some b) id id

/-- How the stages of a flow hang together. -/
structure Linked (flow : Flow) : Prop extends
    LinkedBy flow.stages.roots flow.stages.parent? flow.stages.children flow.isAttached where
  /-- Of the stages that were added, those taken out and no others are not in the forest. -/
  removed : ∀ id, id ∈ flow.removed.map Prod.fst ↔ id < flow.next ∧ flow.isAttached id = false

/-- The stages of the forest are those that its walk names. -/
theorem isAttached_iff : flow.isAttached id = true ↔ id ∈ flow.stages.walk := contains_iff

/-- Other names are in no tree. -/
theorem isAttached_eq_false_iff : flow.isAttached id = false ↔ id ∉ flow.stages.walk := by
  rw [Bool.eq_false_iff, ne_eq, isAttached_iff]

/-- Where every name is at one place, the stages hang together. -/
theorem Accounted.linked (h : flow.Accounted) : flow.Linked where
  attached id hid := by
    have hn := h.nodup_walk
    rw [isAttached_iff] at hid
    cases hp : flow.stages.parent? id with
    | none =>
      -- without a parent a stage of the forest is a root
      have hroot := (mem_roots_iff hn).2 ⟨hid, hp⟩
      refine .inl ⟨rfl, (nodup_roots hn).count.trans (if_pos hroot), fun q hq => ?_⟩
      rw [mem_children_iff hn, hp] at hq
      exact absurd hq (by simp)
    | some p =>
      -- with a parent it is among the children of this one and no other
      have hchild := (mem_children_iff hn).2 hp
      refine .inr ⟨p, rfl, isAttached_iff.2 (mem_walk_of_parent? hn hp),
        (nodup_children hn p).count.trans (if_pos hchild), fun hroot => ?_, fun q hq => ?_⟩
      · rw [mem_roots_iff hn, hp] at hroot
        exact absurd hroot.2 (by simp)
      · rw [mem_children_iff hn, hp] at hq
        exact (Option.some.inj hq).symm
  detached id hid := by
    have hn := h.nodup_walk
    rw [isAttached_eq_false_iff] at hid
    have hp := parent?_of_notMem hid
    refine ⟨fun hroot => hid (mem_walk_of_mem_roots hroot), fun q hq => ?_, hp,
      children_of_notMem hid⟩
    rw [mem_children_iff hn, hp] at hq
    exact absurd hq (by simp)
  rooted id hid := by
    obtain ⟨r, hr, hway⟩ := exists_root_above h.nodup_walk (isAttached_iff.1 hid)
    exact ⟨r, hr, ((mem_roots_iff h.nodup_walk).1 hr).2, hway⟩
  acyclic := not_transGen_parent h.nodup_walk
  removed id := by
    rw [isAttached_eq_false_iff, h.lt_next_iff]
    exact ⟨fun hid => ⟨.inr hid, h.notMem_of_removed hid⟩, fun hid => hid.1.resolve_left hid.2⟩

end Flow

end ChartPipeline
