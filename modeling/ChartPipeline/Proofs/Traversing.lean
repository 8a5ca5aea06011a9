import ChartPipeline.Proofs.EditOrder
import ChartPipeline.Proofs.Tables

/-!
# Views of a table

Each view of a flow in a table is a loop or a recursion of its own: the walk and the leaves take
names from a stack, the text goes down from child to child, and the other two go up from parent to
parent.  What hangs in the table bounds the turns of all of them.  So they end, and since they all
come out with the views of one forest, they agree.

## Key results

- `StageTable.walkFrom_hangs`, `StageTable.leavesFrom_hangs`: what a loop does to the roots of a
  forest on its stack
- `StageTable.foldlM_renderNode`: the text of what hangs in a table
- `StageTable.traversed_after`: the views of the table after any changes
-/

namespace ChartPipeline

namespace Forest

/-! ### The depth of a line -/

variable {α : Type} {f : Forest α} {id : Nat}

/-- The names of the frames are among all names around the hole. -/
theorem map_id_sublist_outside (up : List (Frame α)) : (up.map Frame.id).Sublist (outside up) := by
  induction up with
  | nil => exact .slnil
  | cons fr up ih =>
    rw [List.map_cons, outside_cons, Frame.names, List.append_assoc, List.cons_append]
    exact List.sublist_append_of_sublist_right
      ((ih.trans (List.sublist_append_right _ _)).cons_cons fr.id)

/-- No name is above a node twice. -/
theorem nodup_ancestors (hn : f.walk.Nodup) (id : Nat) : (f.ancestors id).Nodup := by
  by_cases hid : id ∈ f.walk
  · obtain ⟨fr, up, cs, rfl, rfl⟩ := exists_fill_of_mem hid
    have hnames : (outside up).Nodup :=
      (List.nodup_append.1 ((walk_fill_perm up (fr.close cs)).nodup_iff.1 hn)).1
    rw [ancestors_first hn]
    exact hnames.sublist (map_id_sublist_outside up)
  · rw [ancestors_of_notMem hid]
    exact List.nodup_nil

/-- As many stages are above a node as its line is moved to the right. -/
theorem countP_isAncestor (hn : f.walk.Nodup) (id : Nat) :
    f.walk.countP (f.isAncestor · id) = (f.ancestors id).length := by
  rw [List.countP_eq_length_filter]
  -- both lists have the same names, each once
  refine List.Perm.length_eq ((List.perm_ext_iff_of_nodup (hn.filter _) (nodup_ancestors hn id)).2
    fun a => ?_)
  have habove : f.isAncestor a id = true ↔ a ∈ f.ancestors id := by
    rw [isAncestor, List.contains_iff_mem]
  rw [List.mem_filter, habove]
  exact and_iff_right_of_imp fun h => mem_walk_of_over ((isAncestor_iff hn).1 (habove.2 h))

/-- The text of a forest has a line for each place, moved to the right by what is above it. -/
theorem render_eq_join (label : α → String) (above : List (Nat × α)) (f : Forest α) :
    f.render label above.length = String.join ((f.places above).map fun v =>
      String.ofList (List.replicate (2 * v.above.length) ' ') ++ "n" ++ toString v.id ++ " " ++
        label v.content ++ "\n") := by
  -- on the trees, under what is above them
  induction f generalizing above with
  | nil => rfl
  | node i a cs rest ihc ihr =>
    have hcs := ihc (above ++ [(i, a)])
    rw [List.length_append, List.length_singleton] at hcs
    rw [render, hcs, ihr above, places, List.map_cons, List.map_append]
    simp [String.join_append, String.join_cons, String.append_assoc]

end Forest

namespace StageTable

/-! ### Views -/

/-- The number of stages in the forest. -/
def size (t : StageTable) : Nat := (t.entries.filter StageEntry.attached).length

/-- Goes from parent to parent. -/
def rootOf (t : StageTable) (id : Nat) : Nat → Option Nat
  | 0 => none
  | turns + 1 =>
    match t.parent? id with
    | some parent => t.rootOf parent turns
    | none => some id

/-- Takes a name from a stack, the top of which comes first, and puts its children there. -/
def walkFrom (t : StageTable) : List Nat → List Nat → Nat → Option (List Nat)
  | [], order, _ => some order
  | _ :: _, _, 0 => none
  | id :: stack, order, turns + 1 => t.walkFrom (t.children id ++ stack) (order ++ [id]) turns

/-- The names of the stages, each before its children. -/
def walk (t : StageTable) : Nat → Option (List Nat) := t.walkFrom t.roots []

/-- Takes a name from a stack, and puts its children there if it has any. -/
def leavesFrom (t : StageTable) : List Nat → List Nat → Nat → Option (List Nat)
  | [], leaves, _ => some leaves
  | _ :: _, _, 0 => none
  | id :: stack, leaves, turns + 1 =>
    if (t.children id).isEmpty then t.leavesFrom stack (leaves ++ [id]) turns
    else t.leavesFrom (t.children id ++ stack) leaves turns

/-- The stages without children, in order. -/
def leaves (t : StageTable) : Nat → Option (List Nat) := t.leavesFrom t.roots []

/-- The text of one stage. -/
def line (t : StageTable) (depth id : Nat) : String :=
  String.ofList (List.replicate (2 * depth) ' ') ++ "n" ++ toString id ++ " " ++
    ((t.stage? id).map Stage.label).getD "" ++ "\n"

/-- Writes a stage and then its children, further to the right; here the turns are those that may be
within each other. -/
def renderNode (t : StageTable) (id depth : Nat) (out : String) : Nat → Option String
  | 0 => none
  | turns + 1 =>
    (t.children id).foldlM (fun out child => t.renderNode child (depth + 1) out turns)
      (out ++ t.line depth id)

/-- The text of all stages. -/
def render (t : StageTable) (turns : Nat) : Option String :=
  t.roots.foldlM (fun out root => t.renderNode root 0 out turns) ""

/-- A list has stages with all that is below them, each before its children, which are in order. -/
inductive Preorder (t : StageTable) : List Nat → List Nat → Prop
  | nil : Preorder t [] []
  | cons {id : Nat} {ids below after : List Nat} (hbelow : Preorder t (t.children id) below)
    (hafter : Preorder t ids after) : Preorder t (id :: ids) (id :: (below ++ after))

open Forest

variable {t : StageTable} {flow : Flow} {f cs : Forest Stage} {parent : Option Nat}
  {fr : Frame Stage} {up : List (Frame Stage)} {id a n r : Nat}

/-! ### Loops over what hangs in a table -/

/-- A forest without roots is empty. -/
theorem isEmpty_roots (f : Forest Stage) : f.roots.isEmpty = f.isEmpty := by
  cases f <;> rfl

/-- The children of a stage are those of its entry. -/
theorem children_of_entry {i : Nat} {e : StageEntry} (h : t.entries[i]? = some e) :
    t.children i = e.children := by
  rw [children, h, Option.map_some, Option.getD_some]

/-- The turns for a tree and those beside it: one for its root, and then those for either part. -/
theorem length_walk_node_add (i : Nat) (a : Stage) (cs rest : Forest Stage) (turns : Nat) :
    (node i a cs rest).walk.length + turns =
      cs.walk.length + (rest.walk.length + turns) + 1 := by
  rw [walk_node, List.length_cons, List.length_append]
  omega

/-- The walk takes the roots of a forest from the stack and lists the whole forest, in as many turns
    as this has stages. -/
theorem walkFrom_hangs (h : t.Hangs parent f) (stack order : List Nat) (turns : Nat) :
    t.walkFrom (f.roots ++ stack) order (f.walk.length + turns) =
      t.walkFrom stack (order ++ f.walk) turns := by
  -- what is below the first root is on the stack before the other roots
  induction f generalizing parent stack order turns with
  | nil => simp [Forest.roots]
  | node i a cs rest ihc ihr =>
    obtain ⟨hi, hcs, hrest⟩ := h
    rw [length_walk_node_add, Forest.roots, List.cons_append, walkFrom, children_of_entry hi,
      ihc hcs, ihr hrest, walk_node]
    simp only [List.append_assoc, List.cons_append, List.nil_append]

/-- The other loop lists the leaves of the forest in as many turns. -/
theorem leavesFrom_hangs (h : t.Hangs parent f) (stack leaves : List Nat) (turns : Nat) :
    t.leavesFrom (f.roots ++ stack) leaves (f.walk.length + turns) =
      t.leavesFrom stack (leaves ++ f.leaves) turns := by
  induction f generalizing parent stack leaves turns with
  | nil => simp [Forest.roots, Forest.leaves]
  | node i a cs rest ihc ihr =>
    obtain ⟨hi, hcs, hrest⟩ := h
    rw [length_walk_node_add, Forest.roots, List.cons_append, leavesFrom, children_of_entry hi,
      isEmpty_roots, Forest.leaves]
    by_cases hempty : cs.isEmpty = true
    · cases cs with
      | node => cases hempty
      | nil => rw [if_pos hempty, if_pos hempty, walk_nil, List.length_nil, Nat.zero_add,
          ihr hrest, List.append_assoc]
    · rw [if_neg hempty, if_neg hempty, ihc hcs, ihr hrest, List.append_assoc]

/-- Writing the roots of a forest writes the whole forest. -/
theorem foldlM_renderNode (h : t.Hangs parent f) (depth : Nat) (out : String) {turns : Nat}
    (hturns : f.walk.length ≤ turns) :
    f.roots.foldlM (fun out id => t.renderNode id depth out turns) out =
      some (out ++ f.render Stage.label depth) := by
  induction f generalizing parent depth out turns with
  | nil => simp [Forest.roots, Forest.render]
  | node i a cs rest ihc ihr =>
    obtain ⟨hi, hcs, hrest⟩ := h
    rw [walk_node, List.length_cons, List.length_append] at hturns
    have hline : t.line depth i = String.ofList (List.replicate (2 * depth) ' ') ++ "n" ++
        toString i ++ " " ++ a.label ++ "\n" := by
      rw [line, stage?, hi]
      rfl
    -- a stage takes one of the turns within each other, and what is below it the others
    have hnode : t.renderNode i depth out turns =
        some (out ++ t.line depth i ++ cs.render Stage.label (depth + 1)) := by
      obtain ⟨turns, rfl⟩ := Nat.exists_eq_add_of_lt (show 0 < turns by omega)
      rw [Nat.zero_add, renderNode, children_of_entry hi]
      exact ihc hcs (depth + 1) _ (by omega)
    rw [Forest.roots, List.foldlM_cons, hnode, Option.bind_eq_bind, Option.bind_some,
      ihr hrest depth _ (by omega), hline, Forest.render]
    simp only [String.append_assoc]

/-- The forest that hangs in a table is in order. -/
theorem preorder_hangs (h : t.Hangs parent f) : t.Preorder f.roots f.walk := by
  induction f generalizing parent with
  | nil => exact .nil
  | node i a cs rest ihc ihr =>
    obtain ⟨hi, hcs, hrest⟩ := h
    rw [Forest.roots, walk_node]
    refine .cons ?_ (ihr hrest)
    rw [children_of_entry hi]
    exact ihc hcs

/-- There is only one order for the trees of given roots. -/
theorem Preorder.unique {ids l l' : List Nat} (h : t.Preorder ids l) (h' : t.Preorder ids l') :
    l = l' := by
  induction h generalizing l' with
  | nil =>
    cases h'
    rfl
  | cons _ _ ihb iha =>
    cases h' with
    | cons hbelow hafter => rw [ihb hbelow, iha hafter]

/-- One stage comes before everything below it. -/
theorem Preorder.single {below : List Nat} (h : t.Preorder (t.children id) below) :
    t.Preorder [id] (id :: below) := by
  have hcons := Preorder.cons h .nil
  rwa [List.append_nil] at hcons

/-- A stage with everything below it. -/
theorem Shows.preorder (h : t.Shows (fill (fr :: up) cs)) :
    t.Preorder [fr.id] (fr.id :: cs.walk) := by
  refine .single ?_
  rw [h.children]
  exact preorder_hangs (shows_fill.1 h).2

/-- The leaves of the forest are the stages without children in the table. -/
theorem leaves_eq_filter (h : t.Hangs parent f) :
    f.leaves = f.walk.filter fun id => (t.children id).isEmpty := by
  induction f generalizing parent with
  | nil => rfl
  | node i a cs rest ihc ihr =>
    obtain ⟨hi, hcs, hrest⟩ := h
    rw [Forest.leaves, walk_node, List.filter_cons, List.filter_append, ← ihc hcs, ← ihr hrest,
      children_of_entry hi, isEmpty_roots]
    cases cs <;> simp [isEmpty, Forest.leaves]

/-! ### All views -/

/-- The views of a table that stores a flow. -/
structure Traversed (t : StageTable) (flow : Flow) : Prop where
  walk : Ends t.walk flow.stages.walk
  leaves : Ends t.leaves flow.stages.leaves
  rootOf : ∀ id, Ends (t.rootOf id) (flow.stages.rootOf id)
  isAncestor : ∀ ancestor id, Ends (t.isAncestor ancestor id) (flow.stages.isAncestor ancestor id)
  render : Ends t.render flow.render
  /-- The walk has the stages of the forest, each once and before all that is below it. -/
  preorder : t.Preorder t.roots flow.stages.walk
  nodup : flow.stages.walk.Nodup
  attached : ∀ id, id ∈ flow.stages.walk ↔ t.isAttached id = true
  length : flow.stages.walk.length = t.size
  childless : flow.stages.leaves = flow.stages.walk.filter fun id => (t.children id).isEmpty
  /-- The text has a line for each stage of the walk, moved to the right by those above it. -/
  lines : flow.render = String.join (flow.stages.walk.map fun id =>
    t.line (flow.stages.walk.countP (flow.stages.isAncestor · id)) id)
  below : ∀ a n, Ends (t.isAncestor a n) true ↔ ∃ below, t.Preorder [a] (a :: below) ∧ n ∈ below
  root : ∀ n, t.isAttached n = true → ∀ r, Ends (t.rootOf n) r ↔
    r ∈ t.roots ∧ ∃ tree, t.Preorder [r] tree ∧ n ∈ tree

/-- As many entries are attached as the walk has names. -/
theorem Stores.length_walk (h : t.Stores flow) (ha : flow.Accounted) :
    flow.stages.walk.length = t.size := by
  -- the names of the attached entries
  let names := (t.entries.zipIdx.filter (·.1.attached)).map Prod.snd
  have hsize : names.length = t.size := by
    have hentries : t.entries = t.entries.zipIdx.map Prod.fst := by simp
    rw [size, hentries, List.filter_map, List.length_map, List.length_map]
    simp [Function.comp_def]
  have hnames : names.Nodup := by
    refine List.Nodup.sublist (List.filter_sublist.map Prod.snd) ?_
    rw [List.zipIdx_map_snd]
    exact List.nodup_range'
  have hmem (id : Nat) : id ∈ names ↔ t.isAttached id = true := by
    cases hentry : t.entries[id]? <;>
      simp [names, isAttached, List.mem_zipIdx_iff_getElem?, hentry]
  rw [← hsize]
  refine List.Perm.length_eq ((List.perm_ext_iff_of_nodup ha.nodup_walk hnames).2 fun id => ?_)
  rw [hmem, h.isAttached_eq ha, Flow.isAttached_iff]

/-- Going up to the root takes one turn more than there are stages above. -/
theorem Stores.rootOf_eq (h : t.Stores flow) (ha : flow.Accounted) {turns : Nat} (id : Nat)
    (hturns : (flow.stages.ancestors id).length < turns) :
    t.rootOf id turns = some (flow.stages.rootOf id) := by
  rw [Forest.rootOf]
  induction turns generalizing id with
  | zero => exact absurd hturns (Nat.not_lt_zero _)
  | succ turns ih =>
    rw [StageTable.rootOf, h.parent?_eq ha]
    cases hp : flow.stages.parent? id with
    | none =>
      have hnone : flow.stages.ancestors id = [] := List.head?_eq_none_iff.1 hp
      rw [hnone]
      rfl
    | some p =>
      rw [ancestors_of_parent? ha.nodup_walk hp] at hturns ⊢
      rw [List.getLastD_cons]
      exact ih p (by simpa using hturns)

/-- The way up to the root comes to its end. -/
theorem Stores.ends_rootOf (h : t.Stores flow) (ha : flow.Accounted) (id : Nat) :
    Ends (t.rootOf id) (flow.stages.rootOf id) :=
  ⟨_, fun _ => h.rootOf_eq ha id⟩

/-- A stage is above those in the list of everything below it. -/
theorem Stores.isAncestor_iff (h : t.Stores flow) (ha : flow.Accounted) (a n : Nat) :
    Ends (t.isAncestor a n) true ↔ ∃ below, t.Preorder [a] (a :: below) ∧ n ∈ below := by
  have hn := ha.nodup_walk
  rw [(h.ends_isAncestor ha a n).eq_iff]
  by_cases hmem : a ∈ flow.stages.walk
  · have hshows := h.shows
    obtain ⟨fr, up, cs, hf, rfl⟩ := exists_fill_of_mem hmem
    rw [hf] at hn hshows ⊢
    rw [isAncestor_first hn]
    -- what is below the stage is the rest of its preorder
    constructor
    · exact fun hbelow => ⟨cs.walk, hshows.preorder, hbelow⟩
    · rintro ⟨below, hpreorder, hbelow⟩
      rwa [(List.cons.inj (hshows.preorder.unique hpreorder)).2]
  · -- nothing is below a stage that is not in the forest
    have hnone : t.children a = [] := (h.children_eq ha a).trans (children_of_notMem hmem)
    have halone : t.Preorder [a] [a] := by
      refine .single ?_
      rw [hnone]
      exact .nil
    constructor
    · exact fun habove => absurd (mem_walk_of_over ((Forest.isAncestor_iff hn).1 habove)) hmem
    · rintro ⟨below, hpreorder, hbelow⟩
      rw [← (List.cons.inj (halone.unique hpreorder)).2] at hbelow
      exact absurd hbelow List.not_mem_nil

/-- A root with everything below it. -/
theorem preorder_under (h : t.Hangs parent f) (hr : r ∈ f.roots) :
    t.Preorder [r] (r :: (f.under r).walk) := by
  induction f generalizing parent with
  | nil => exact absurd hr List.not_mem_nil
  | node i a cs rest _ ih =>
    obtain ⟨hi, hcs, hrest⟩ := h
    by_cases hir : i = r
    · subst hir
      rw [under, if_pos rfl]
      refine .single ?_
      rw [children_of_entry hi]
      exact preorder_hangs hcs
    · rw [under, if_neg hir]
      exact ih hrest ((List.mem_cons.1 hr).resolve_left (Ne.symm hir))

/-- A root is that of a stage exactly if this is in its tree. -/
theorem Stores.rootOf_iff (h : t.Stores flow) (ha : flow.Accounted)
    (hmem : n ∈ flow.stages.walk) (r : Nat) : Ends (t.rootOf n) r ↔
      r ∈ t.roots ∧ ∃ tree, t.Preorder [r] tree ∧ n ∈ tree := by
  have hn := ha.nodup_walk
  rw [(h.ends_rootOf ha n).eq_iff, h.shows.1]
  constructor
  · rintro rfl
    -- a stage is a root itself, or below one
    rcases mem_roots_or_under (nodup_roots hn) hmem with hroot | ⟨i, hi, hbelow⟩
    · rw [rootOf_of_mem_roots hn hroot]
      exact ⟨hroot, _, preorder_under h.shows.2 hroot, List.mem_cons_self⟩
    · rw [rootOf_of_mem_under hn hbelow]
      exact ⟨hi, _, preorder_under h.shows.2 hi, List.mem_cons_of_mem _ hbelow⟩
  · rintro ⟨hr, tree, hpreorder, htree⟩
    obtain rfl := (preorder_under h.shows.2 hr).unique hpreorder
    rcases List.mem_cons.1 htree with rfl | hbelow
    · exact rootOf_of_mem_roots hn hr
    · exact rootOf_of_mem_under hn hbelow

/-- The lines stand in the order of the walk. -/
theorem Stores.lines (h : t.Stores flow) (ha : flow.Accounted) :
    flow.render = String.join (flow.stages.walk.map fun id =>
      t.line (flow.stages.walk.countP (flow.stages.isAncestor · id)) id) := by
  have hn := ha.nodup_walk
  refine (render_eq_join Stage.label [] flow.stages).trans ?_
  rw [← map_id_places [] flow.stages, List.map_map]
  congr 1
  refine List.map_congr_left fun v hv => ?_
  have hmem : (v.id, v.content) ∈ flow.stages.toList :=
    route_subset_toList hv (by simp [Place.route])
  have hstage : t.stage? v.id = some v.content := by
    rw [h.stage?_eq ha, Flow.stage?_of_mem_toList hn hmem]
  rw [Function.comp_apply, map_id_places, countP_isAncestor hn, ancestors_of_mem_places hn hv, line,
    hstage, List.length_reverse, List.length_map]
  rfl

/-- The views of a table that stores a flow come to their ends, and agree. -/
theorem Stores.traversed (h : t.Stores flow) (ha : flow.Accounted) : t.Traversed flow where
  -- the stack begins with the roots, and as many turns as there are stages empty it
  walk := by
    refine ⟨flow.stages.walk.length, fun turns hturns => ?_⟩
    obtain ⟨rest, rfl⟩ := Nat.exists_eq_add_of_le hturns
    have hwalk := walkFrom_hangs h.shows.2 [] [] rest
    rw [List.append_nil, walkFrom] at hwalk
    rw [StageTable.walk, h.shows.1]
    exact hwalk
  leaves := by
    refine ⟨flow.stages.walk.length, fun turns hturns => ?_⟩
    obtain ⟨rest, rfl⟩ := Nat.exists_eq_add_of_le hturns
    have hleaves := leavesFrom_hangs h.shows.2 [] [] rest
    rw [List.append_nil, leavesFrom] at hleaves
    rw [StageTable.leaves, h.shows.1]
    exact hleaves
  rootOf := h.ends_rootOf ha
  isAncestor := h.ends_isAncestor ha
  render := by
    refine ⟨flow.stages.walk.length, fun turns hturns => ?_⟩
    rw [StageTable.render, h.shows.1, foldlM_renderNode h.shows.2 0 "" hturns, String.empty_append]
    rfl
  preorder := h.shows.1 ▸ preorder_hangs h.shows.2
  nodup := ha.nodup_walk
  attached id := by rw [h.isAttached_eq ha, Flow.isAttached_iff]
  length := h.length_walk ha
  childless := leaves_eq_filter h.shows.2
  lines := h.lines ha
  below := h.isAncestor_iff ha
  root n hn r := by
    rw [h.isAttached_eq ha, Flow.isAttached_iff] at hn
    exact h.rootOf_iff ha hn r

/-- Whatever is asked for, one after the other, from the empty table on: all looking up in edits
    ends, and so do the views of the table after them, which agree with each other. -/
theorem traversed_after (changes : List Change) :
    ∃ t, Ends (after changes) t ∧ t.Traversed (Flow.afterChanges changes) := by
  obtain ⟨t, ht, hstores, ha⟩ := stores_after changes
  exact ⟨t, ht, hstores.traversed ha⟩

end StageTable

end ChartPipeline
