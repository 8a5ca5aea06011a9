import ChartPipeline.Proofs.Loading
import ChartPipeline.Proofs.SideBySide

/-!
# Taking stages out on the way down

Elimination can be done from the roots down: a stage that does nothing is taken out, and the visit
goes on with the children that it had, which by then are among its siblings.  The lists of roots and
of children are those from before anything was taken out.  Nothing is missed and nothing is visited
twice, so the visit comes out as pruning the forest at once.

## Key results

- `foldlM_visit`: what a visit of trees does to the forest around them
- `eliminateDown_eq`: a visit of all trees is the elimination of the flow
- `eliminate_exact`: what is taken out, and what the other stages keep
-/

namespace ChartPipeline

/-- A stage that does nothing contributes no steps. -/
theorem Stage.steps_of_isVacuous {a : Stage} (h : a.isVacuous = true) : a.steps = [] := by
  cases a with
  | nullFilter flags =>
    rw [steps, nullFilterStep?, FieldFlags.isVacuous_iff.1 h]
    rfl
  | positiveFilter flags =>
    rw [steps, positiveFilterSteps, FieldFlags.isVacuous_iff.1 h]
    rfl
  | output name required => rfl
  | _ => exact absurd h (by simp [isVacuous])

namespace Forest

variable {α : Type} {p : α → Bool} {f : Forest α} {id : Nat}

/-- How often a name stands among the nodes that are left. -/
theorem count_walk_prune_le (p : α → Bool) (f : Forest α) (i : Nat) :
    (f.prune p).walk.count i ≤ f.walk.count i := by
  rw [walk, toList_prune, walk]
  exact (List.filter_sublist.map Prod.fst).count_le i

/-- What was left is left again. -/
theorem prune_prune (p : α → Bool) (f : Forest α) : (f.prune p).prune p = f.prune p := by
  induction f with
  | nil => rfl
  | node i a cs rest ihc ihr =>
    rw [prune]
    split
    · rw [prune_append, ihc, ihr]
    · next ha => rw [prune, if_neg ha, ihc, ihr]

/-- Trees between others in a hole have no name twice after nodes of theirs are taken out. -/
theorem nodup_fill_prune (p : α → Bool) {up : List (Frame α)} {before t after : Forest α}
    (hn : (fill up (before ++ (t ++ after))).walk.Nodup) :
    (fill up (before ++ (t.prune p ++ after))).walk.Nodup := by
  rw [List.nodup_iff_count] at hn ⊢
  intro i
  have hi := hn i
  have hle := count_walk_prune_le p t i
  simp only [count_walk_fill, walk_append, List.count_append] at hi ⊢
  omega

/-- The way down to a node. -/
theorem reverse_ancestors (hn : f.walk.Nodup) {v : Place α} (hv : v ∈ f.places []) :
    (v.id :: f.ancestors v.id).reverse = v.route.map Prod.fst := by
  rw [List.reverse_cons, ancestors_of_mem_places hn hv, List.reverse_reverse, Place.route,
    List.map_append]
  rfl

/-- What stands on the way to a place is in the forest. -/
theorem route_subset_toList {v : Place α} (hv : v ∈ f.places []) : v.route ⊆ f.toList := by
  intro e he
  rw [toList_eq_map_places f []]
  rcases List.mem_append.1 he with he | he
  · obtain ⟨l, r, habove⟩ := List.append_of_mem he
    exact List.mem_map.2 ⟨_, mem_places_of_above hv habove, rfl⟩
  · exact List.mem_map.2 ⟨v, hv, (List.mem_singleton.1 he).symm⟩

end Forest

namespace Flow

open Forest

variable {flow : Flow} {id : Nat}

/-! ### A visit from the roots down -/

/-- Whether the stage of a name does nothing. -/
def isVacuous (flow : Flow) (id : Nat) : Bool := (flow.stage? id).any Stage.isVacuous

/-- Takes a stage out if it does nothing, and goes on with the children that it had; so many
generations are visited.  Returns the given number and that of the stages taken out. -/
def visit : Nat → Nat → Nat → Edit FlowFault Nat
  | 0, count, _ => pure count
  | depth + 1, count, id => do
    let flow ← get
    let children := flow.stages.children id
    if flow.isVacuous id then do
      remove id
      children.foldlM (visit depth) (count + 1)
    else children.foldlM (visit depth) count

/-- Visits the trees of all roots; no tree is deeper than there are stages. -/
def eliminateDown : Edit FlowFault Nat := do
  let flow ← get
  flow.stages.roots.foldlM (visit flow.stages.size) 0

/-- The stages of trees that do nothing. -/
def vacuous (t : Forest Stage) : List (Nat × Stage) := t.toList.filter fun e => e.2.isVacuous

/-- The flow with another forest, once stages are taken out. -/
def dropping (flow : Flow) (stages : Forest Stage) (out : List (Nat × Stage)) : Flow :=
  { flow with
    stages := stages
    removed := out.reverse ++ flow.removed
    revision := flow.revision + out.length }

/-- The flow without the stages that do nothing. -/
def eliminated (flow : Flow) : Flow :=
  flow.dropping (flow.stages.prune Stage.isVacuous) (vacuous flow.stages)

/-- Elimination counts the stages that do nothing and leaves the others. -/
theorem eliminate_run (ε : Type) (flow : Flow) :
    (eliminate : Edit ε Nat) flow = (.ok (vacuous flow.stages).length, flow.eliminated) :=
  rfl

/-- Where nothing is taken out, the flow is the same. -/
theorem dropping_nil (h : flow.stages = f) : flow.dropping f [] = flow := by
  cases h
  rfl

/-- Stages may be taken out in two steps. -/
theorem dropping_append (f g : Forest Stage) (out out' : List (Nat × Stage)) :
    (flow.dropping f out).dropping g out' = flow.dropping g (out ++ out') := by
  simp [dropping, Nat.add_assoc]

/-- What does nothing at the root of the first tree comes before the rest. -/
theorem vacuous_node (i : Nat) (a : Stage) (cs rest : Forest Stage) :
    vacuous (.node i a cs rest) =
      (if a.isVacuous then [(i, a)] else []) ++ (vacuous cs ++ vacuous rest) := by
  rw [vacuous, toList, List.filter_cons, List.filter_append]
  split <;> rfl

variable {up : List (Frame Stage)} {fr : Frame Stage} {before t after cs : Forest Stage}
  {depth count : Nat}

/-- The stage in a hole is looked up by its name. -/
theorem isVacuous_first (hst : flow.stages = fill (fr :: up) cs) (hn : flow.stages.walk.Nodup) :
    flow.isVacuous fr.id = fr.content.isVacuous := by
  rw [hst] at hn
  have hcontent := content?_first hn
  rw [← hst] at hcontent
  rw [isVacuous, stage?, hcontent]
  rfl

/-- Taking out a stage puts what is below it in its place. -/
theorem remove_first (hst : flow.stages = fill (fr :: up) cs) (hn : flow.stages.walk.Nodup) :
    remove fr.id flow =
      (.ok (), flow.dropping (fill up (fr.before ++ (cs ++ fr.after))) [(fr.id, fr.content)]) := by
  rw [hst] at hn
  have hcontent := content?_first hn
  have hsplice := splice_first hn
  rw [← hst] at hcontent hsplice
  simp only [remove, hcontent, restructure, hsplice]
  rfl

/-- Visiting trees in a hole takes out their stages that do nothing, whatever is around them. -/
theorem foldlM_visit (hst : flow.stages = fill up (before ++ (t ++ after)))
    (hn : flow.stages.walk.Nodup) (hd : t.size ≤ depth) :
    t.roots.foldlM (visit depth) count flow =
      (.ok (count + (vacuous t).length),
        flow.dropping (fill up (before ++ (t.prune Stage.isVacuous ++ after))) (vacuous t)) := by
  -- on the trees, for every hole: what is below a stage that is taken out is visited where the
  -- stage stood
  induction t generalizing flow up before after depth count with
  | nil =>
    rw [prune, show vacuous .nil = [] from rfl, dropping_nil hst]
    rfl
  | node i a cs rest ihc ihr =>
    have hsize : (node i a cs rest).size = cs.size + rest.size + 1 := by
      simp [size, toList]
    obtain ⟨depth, rfl⟩ := Nat.exists_eq_add_of_le' (show 1 ≤ depth by omega)
    have hst' : flow.stages = fill (⟨before, i, a, rest ++ after⟩ :: up) cs := hst
    have hchildren : flow.stages.children i = cs.roots := by
      rw [hst'] at hn ⊢
      exact children_first hn
    -- the first tree is visited, with what is left of it among the trees before the others
    have htree : visit (depth + 1) count i flow =
        (.ok (count + (vacuous (.node i a cs nil)).length),
          flow.dropping (fill up (before ++ ((node i a cs nil).prune Stage.isVacuous ++
            (rest ++ after)))) (vacuous (.node i a cs nil))) := by
      rw [visit, Run.bind_ok (Run.get_run flow), hchildren,
        show flow.isVacuous i = a.isVacuous from isVacuous_first hst' hn, vacuous_node, prune]
      cases ha : a.isVacuous with
      | true =>
        -- the children stand among the siblings by now, and are visited there
        have hrun : remove i flow =
            (.ok (), flow.dropping (fill up (before ++ (cs ++ (rest ++ after)))) [(i, a)]) :=
          remove_first hst' hn
        have hn' : (fill up (before ++ (cs ++ (rest ++ after)))).walk.Nodup := by
          rw [hst'] at hn
          exact (nodup_fill_drop hn).1
        rw [if_pos rfl, Run.bind_ok hrun, ihc rfl hn' (by omega), dropping_append]
        simp [vacuous, toList, prune, Nat.add_assoc, Nat.add_comm 1]
      | false =>
        -- the stage stays, so the children are visited in the hole below it
        have hst₀ : flow.stages =
            fill (⟨before, i, a, rest ++ after⟩ :: up) (nil ++ (cs ++ nil)) := by
          rw [hst', append_nil, nil_append]
        rw [if_neg (by simp), ihc hst₀ hn (by omega)]
        simp [vacuous, toList, fill, Frame.close, prune]
    rw [roots, List.foldlM_cons, Run.bind_ok htree, ← append_assoc]
    have hrest := @nodup_fill_prune _ Stage.isVacuous up before (node i a cs nil) (rest ++ after)
      (hst ▸ hn)
    rw [← append_assoc] at hrest
    rw [ihr rfl hrest (by omega), dropping_append, append_assoc, ← append_assoc _ _ after,
      ← prune_append, Nat.add_assoc, ← List.length_append, vacuous_node, vacuous_node,
      show vacuous nil = [] from rfl, List.append_nil, List.append_assoc]
    rfl

/-- Visiting all trees is the elimination. -/
theorem eliminateDown_eq (hn : flow.stages.walk.Nodup) :
    eliminateDown flow = (eliminate : Edit FlowFault Nat) flow := by
  have hst : flow.stages = fill [] (nil ++ (flow.stages ++ nil)) := (append_nil _).symm
  rw [eliminateDown, Run.bind_ok (Run.get_run flow), foldlM_visit hst hn (Nat.le_refl _),
    Nat.zero_add, nil_append, append_nil]
  rfl

/-! ### What the other stages keep -/

/-- The steps of the stages from the root down to a stage. -/
def stepsTo (flow : Flow) (id : Nat) : List Step :=
  (id :: flow.stages.ancestors id).reverse.flatMap fun i => (flow.stage? i).elim [] Stage.steps

/-- A flow without the stages that did nothing in an earlier one. -/
structure Spares (flow flow' : Flow) : Prop where
  /-- The other stages are left, in their order. -/
  walk : flow'.stages.walk = flow.stages.walk.filter fun id => !flow.isVacuous id
  /-- One is above another if it was. -/
  isAncestor : ∀ above ∈ flow'.stages.walk, ∀ id ∈ flow'.stages.walk,
    flow'.stages.isAncestor above id = flow.stages.isAncestor above id
  /-- Every stage holds what it held, also if it was taken out. -/
  stage? : ∀ id, flow'.stage? id = flow.stage? id
  /-- The way to each of them has the same steps. -/
  stepsTo : ∀ id ∈ flow'.stages.walk, flow'.stepsTo id = flow.stepsTo id

/-- A stage of the forest is found under its name. -/
theorem stage?_of_mem_toList (hn : flow.stages.walk.Nodup) {e : Nat × Stage}
    (he : e ∈ flow.stages.toList) : flow.stage? e.1 = some e.2 :=
  stage?_of_content? (content?_of_mem_toList hn he)

/-- So it does nothing exactly if it is found to do nothing. -/
theorem isVacuous_of_mem_toList (hn : flow.stages.walk.Nodup) {e : Nat × Stage}
    (he : e ∈ flow.stages.toList) : flow.isVacuous e.1 = e.2.isVacuous := by
  rw [isVacuous, stage?_of_mem_toList hn he]
  rfl

/-- The stages that do nothing, by their names. -/
theorem map_fst_vacuous (hn : flow.stages.walk.Nodup) :
    (vacuous flow.stages).map Prod.fst = flow.stages.walk.filter flow.isVacuous := by
  rw [Forest.walk, List.filter_map, vacuous]
  congr 1
  exact List.filter_congr fun e he => (isVacuous_of_mem_toList hn he).symm

/-- The steps down to a place are those on the way to it. -/
theorem stepsTo_of_place (hn : flow.stages.walk.Nodup) {v : Place Stage}
    (hv : v ∈ flow.stages.places []) : flow.stepsTo v.id = stepsOn v.route := by
  rw [stepsTo, reverse_ancestors hn hv, List.flatMap_map, stepsOn]
  refine List.flatMap_congr fun e he => ?_
  have hmem := route_subset_toList hv he
  rw [stage?_of_mem_toList hn hmem]
  rfl

/-- No name stands twice after elimination. -/
theorem nodup_eliminated (hn : flow.stages.walk.Nodup) : flow.eliminated.stages.walk.Nodup :=
  nodup_prune Stage.isVacuous hn

/-- The stages that are left are those that do something. -/
theorem walk_eliminated (hn : flow.stages.walk.Nodup) :
    flow.eliminated.stages.walk = flow.stages.walk.filter fun id => !flow.isVacuous id := by
  rw [eliminated, dropping, Forest.walk, toList_prune, Forest.walk, List.filter_map]
  congr 1
  refine List.filter_congr fun e he => ?_
  rw [Function.comp_apply, isVacuous_of_mem_toList hn he]

/-- A stage that is left, with what is left on the way to it. -/
theorem exists_place_of_eliminated (h : id ∈ flow.eliminated.stages.walk) :
    ∃ v ∈ flow.stages.places [], v.id = id ∧
      v.prune Stage.isVacuous ∈ flow.eliminated.stages.places [] := by
  obtain ⟨u, hu, rfl⟩ := mem_walk_iff.1 h
  obtain ⟨v, hv, rfl⟩ := exists_of_mem_places_prune hu
  exact ⟨v, hv, rfl, hu⟩

/-- What does nothing is held as before once it is taken out, and so is everything else. -/
theorem stage?_eliminated (hn : flow.stages.walk.Nodup) (id : Nat) :
    flow.eliminated.stage? id = flow.stage? id := by
  by_cases hid : id ∈ flow.eliminated.stages.walk
  · -- a stage that is left
    obtain ⟨e, he, rfl⟩ := List.mem_map.1 hid
    have hold : e ∈ flow.stages.toList := by
      rw [eliminated, dropping, toList_prune] at he
      exact (List.mem_filter.1 he).1
    rw [stage?_of_mem_toList hn hold]
    exact stage?_of_mem_toList (nodup_eliminated hn) he
  · have hout : flow.eliminated.stages.content? id = none := by
      rw [content?, find?_eq_none.2 hid]
      rfl
    by_cases hmem : id ∈ flow.stages.walk
    · -- a stage that is taken out
      obtain ⟨e, he, rfl⟩ := List.mem_map.1 hmem
      have hvacuous : e ∈ vacuous flow.stages := by
        rw [walk_eliminated hn, List.mem_filter, isVacuous_of_mem_toList hn he] at hid
        exact List.mem_filter.2 ⟨he, by simpa [hmem] using hid⟩
      rw [stage?_of_mem_toList hn he, stage?, hout, eliminated, dropping, List.find?_append]
      -- it is found among those taken out, and no other stage has its name
      cases hfind : (vacuous flow.stages).reverse.find? (·.1 = e.1) with
      | none =>
        exact absurd (List.find?_eq_none.1 hfind e (List.mem_reverse.2 hvacuous)) (by simp)
      | some e' =>
        have hsame : e'.1 = e.1 := by simpa using List.find?_some hfind
        have hin := (List.mem_filter.1 (List.mem_reverse.1 (List.mem_of_find?_eq_some hfind))).1
        obtain rfl := List.inj_on_of_nodup_map hn hin he hsame
        rfl
    · -- one that was not in the forest
      have hnone : (vacuous flow.stages).reverse.find? (·.1 = id) = none := by
        refine List.find?_eq_none.2 fun e he hsame => hmem ?_
        rw [← of_decide_eq_true hsame]
        exact List.mem_map_of_mem (List.mem_filter.1 (List.mem_reverse.1 he)).1
      have hcontent : flow.stages.content? id = none := by
        rw [content?, find?_eq_none.2 hmem]
        rfl
      rw [stage?, stage?, hout, hcontent, eliminated, dropping, List.find?_append, hnone]
      rfl

/-- The stages above one that is left are the ones above it before that do something. -/
theorem isAncestor_eliminated (hn : flow.stages.walk.Nodup) {above : Nat}
    (habove : above ∈ flow.eliminated.stages.walk) (hid : id ∈ flow.eliminated.stages.walk) :
    flow.eliminated.stages.isAncestor above id = flow.stages.isAncestor above id := by
  obtain ⟨v, hv, rfl, hv'⟩ := exists_place_of_eliminated hid
  have hleft := reverse_ancestors (nodup_eliminated hn) hv'
  have hall := reverse_ancestors hn hv
  simp only [Place.route, Place.prune, List.map_append, List.reverse_cons, List.map_cons,
    List.map_nil, List.append_cancel_right_eq] at hleft hall
  rw [isAncestor, isAncestor, Bool.eq_iff_iff, List.contains_iff_mem, List.contains_iff_mem]
  rw [← @List.mem_reverse _ _ (ancestors v.id flow.eliminated.stages), hleft,
    ← @List.mem_reverse _ _ (ancestors v.id flow.stages), hall, List.mem_map, List.mem_map]
  rw [walk_eliminated hn, List.mem_filter] at habove
  -- what is above and left was above; what was above and does something is left
  constructor
  · rintro ⟨e, he, rfl⟩
    exact ⟨e, (List.mem_filter.1 he).1, rfl⟩
  · rintro ⟨e, he, rfl⟩
    refine ⟨e, List.mem_filter.2 ⟨he, ?_⟩, rfl⟩
    have hmem := route_subset_toList hv (List.mem_append_left _ he)
    rw [← isVacuous_of_mem_toList hn hmem]
    exact habove.2

/-- Elimination leaves all stages that do something, and what they hold, with the ways to them. -/
theorem spares_eliminated (hn : flow.stages.walk.Nodup) : flow.Spares flow.eliminated where
  walk := walk_eliminated hn
  isAncestor above habove id hid := isAncestor_eliminated hn habove hid
  stage? := stage?_eliminated hn
  stepsTo id hid := by
    obtain ⟨v, hv, rfl, hv'⟩ := exists_place_of_eliminated hid
    have hleft := stepsTo_of_place (nodup_eliminated hn) hv'
    simp only [Place.route, Place.prune, stepsOn, List.flatMap_append] at hleft
    rw [stepsTo_of_place hn hv, hleft, flatMap_prune fun _ => Stage.steps_of_isVacuous, stepsOn,
      Place.route, List.flatMap_append]

/-- A second elimination finds nothing to take out. -/
theorem eliminate_eliminated (ε : Type) (flow : Flow) :
    (eliminate : Edit ε Nat) flow.eliminated = (.ok 0, flow.eliminated) := by
  have hnone : vacuous flow.eliminated.stages = [] := by
    rw [vacuous, eliminated, dropping, toList_prune, List.filter_filter, List.filter_eq_nil_iff]
    simp
  have hstages : flow.eliminated.stages.prune Stage.isVacuous = flow.eliminated.stages :=
    prune_prune Stage.isVacuous flow.stages
  rw [eliminate_run, hnone]
  congr 1
  rw [eliminated, hnone, hstages]
  exact dropping_nil rfl

/-- Elimination from the roots down does not fail, and takes out exactly the stages of the forest
    that do nothing, also where these are roots, follow each other or have several children: the
    other stages are left in their order, below what they were below, with what they hold and with
    the same steps on the way to them.  After that it finds nothing more. -/
theorem eliminate_exact (hn : flow.stages.walk.Nodup) : ∃ flow',
    eliminateDown flow = (.ok (flow.stages.walk.filter flow.isVacuous).length, flow') ∧
      (∀ ε, (eliminate : Edit ε Nat) flow =
        (.ok (flow.stages.walk.filter flow.isVacuous).length, flow')) ∧
      flow.Spares flow' ∧
      eliminateDown flow' = (.ok 0, flow') ∧
      ∀ ε, (eliminate : Edit ε Nat) flow' = (.ok 0, flow') := by
  have hcount : (flow.stages.walk.filter flow.isVacuous).length = (vacuous flow.stages).length := by
    rw [← map_fst_vacuous hn, List.length_map]
  rw [hcount]
  refine ⟨flow.eliminated, ?_, fun ε => eliminate_run ε flow, spares_eliminated hn, ?_,
    fun ε => eliminate_eliminated ε flow⟩
  · rw [eliminateDown_eq hn]
    rfl
  · rw [eliminateDown_eq (nodup_eliminated hn)]
    exact eliminate_eliminated FlowFault flow

/-- An output that is not required begins a tree, and two filters that do nothing follow it, the
second one with two branches; another root does nothing and is alone. -/
def paddedBranches : Flow :=
  { stages :=
      .node 0 (.output "raw" false)
        (.node 1 (.nullFilter ((∅ : FieldFlags).insert "x" false))
          (.node 2 (.positiveFilter ∅)
            (.node 3 (.filter [.expression "datum.x > 0"]) (.leaf 4 (.output "left" true))
              (.leaf 5 (.nullFilter ((∅ : FieldFlags).insert "y" true))))
            .nil) .nil)
        (.leaf 6 (.output "spare" false)),
    next := 7 }

/-- Both branches become trees of their own. -/
theorem eliminate_exact_paddedBranches : ∃ flow',
    paddedBranches.stages.walk.Nodup ∧
      eliminateDown paddedBranches = (.ok 4, flow') ∧
      flow'.stages.roots = [3, 5] ∧ flow'.stages.walk = [3, 4, 5] ∧
      paddedBranches.Spares flow' ∧ eliminateDown flow' = (.ok 0, flow') := by
  have hn : paddedBranches.stages.walk.Nodup := by decide
  obtain ⟨flow', hdown, hrun, hspares, hagain, -⟩ := eliminate_exact hn
  have hflow : flow' = paddedBranches.eliminated := congrArg Prod.snd (hrun FlowFault).symm
  refine ⟨flow', hn, hdown, ?_, ?_, hspares, hagain⟩
  · rw [hflow]
    rfl
  · rw [hflow]
    rfl

end Flow

end ChartPipeline
