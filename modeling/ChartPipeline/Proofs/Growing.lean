import ChartPipeline.Flow.Construction
import ChartPipeline.Proofs.Climbing
import Mathlib.Data.List.Nodup

/-!
# Growing a flow

Building a flow puts one stage after the other at the end of what is there.  A new stage is a new
place at the end of the way of its parent, and all other places stay what they are.

## Key results

- `mem_places_attach`: the places after a stage was added
- `Flow.addChild_run`, `Flow.add_run`: what adding a stage does to a lawful flow
-/

namespace ChartPipeline.Forest

variable {α : Type} {f : Forest α} {id : Nat}

/-- Trees that come after a node do not change what is above it. -/
theorem ancestors?_append_left {path : List Nat} (h : f.ancestors? id = some path)
    (g : Forest α) : (f ++ g).ancestors? id = some path := by
  induction f with
  | nil => simp [ancestors?] at h
  | node i a cs rest _ ih =>
    rw [ancestors?] at h
    rw [node_append, ancestors?]
    split at h
    · next hi => rw [if_pos hi]; exact h
    · next hi =>
      rw [if_neg hi]
      cases hc : cs.ancestors? id with
      | some p => rw [hc] at h; exact h
      | none => rw [hc] at h; exact ih h

/-- Taking out a root that was put at the end. -/
theorem without_append_leaf (h : id ∉ f.walk) (a : α) : (f ++ leaf id a).without id = f := by
  rw [without_append_of_notMem h, leaf, without, if_pos rfl, append_nil]

/-! ### Places of a grown forest -/

/-- The place of a node around a hole. -/
theorem mem_places_fill (fr : Frame α) (up : List (Frame α)) (cs : Forest α) :
    ⟨trail up, fr.id, fr.content⟩ ∈ (fill (fr :: up) cs).places [] := by
  obtain ⟨l, r, hp⟩ := places_fill_node fr.before fr.after up
  rw [show fr = ⟨fr.before, fr.id, fr.content, fr.after⟩ from rfl, hp]
  simp

/-- A name is in the forest where a place has it. -/
theorem mem_walk_iff : id ∈ f.walk ↔ ∃ v ∈ f.places [], v.id = id := by
  rw [← map_id_places [], List.mem_map]

/-- A name stands in one place. -/
theorem place_inj (hn : f.walk.Nodup) {v w : Place α} (hv : v ∈ f.places [])
    (hw : w ∈ f.places []) (h : v.id = w.id) : v = w := by
  rw [← map_id_places []] at hn
  exact List.inj_on_of_nodup_map hn hv hw h

/-- No name stands twice on the way to a place. -/
theorem nodup_route (hn : f.walk.Nodup) {v : Place α} (hv : v ∈ f.places []) :
    (v.route.map Prod.fst).Nodup := by
  -- the names on the way are in the walk in their order, below any nodes
  have hwalk (f : Forest α) (above : List (Nat × α)) : ∀ v ∈ f.places above,
      ∃ m, v.above = above ++ m ∧ (m.map Prod.fst ++ [v.id]).Sublist f.walk := by
    induction f generalizing above with
    | nil => exact fun v hv => absurd hv (by simp)
    | node i a cs rest ihc ihr =>
      intro v hv
      rw [places, List.mem_cons, List.mem_append] at hv
      rw [walk_node]
      rcases hv with rfl | hv | hv
      · exact ⟨[], by simp, by simp⟩
      · obtain ⟨m, habove, hsub⟩ := ihc _ v hv
        refine ⟨(i, a) :: m, by rw [habove]; simp, ?_⟩
        exact (hsub.trans (List.sublist_append_left _ _)).cons_cons i
      · obtain ⟨m, habove, hsub⟩ := ihr _ v hv
        exact ⟨m, habove, (hsub.trans (List.sublist_append_right _ _)).cons i⟩
  obtain ⟨m, habove, hsub⟩ := hwalk f [] v hv
  rw [Place.route, habove, List.nil_append, List.map_append]
  exact hn.sublist hsub

/-- Every place is around a hole. -/
theorem exists_fill_of_place (hn : f.walk.Nodup) {v : Place α} (hv : v ∈ f.places []) :
    ∃ before after up cs, f = fill (⟨before, v.id, v.content, after⟩ :: up) cs ∧
      trail up = v.above := by
  obtain ⟨fr, up, cs, rfl, hfr⟩ := exists_fill_of_mem (mem_walk_iff.2 ⟨v, hv, rfl⟩)
  obtain rfl := place_inj hn hv (mem_places_fill fr up cs) hfr.symm
  exact ⟨fr.before, fr.after, up, cs, rfl, rfl⟩

/-- The ancestors of a node are those on the way to its place, read upwards. -/
theorem ancestors_of_mem_places (hn : f.walk.Nodup) {v : Place α} (hv : v ∈ f.places []) :
    f.ancestors v.id = (v.above.map Prod.fst).reverse := by
  obtain ⟨before, after, up, cs, rfl, hup⟩ := exists_fill_of_place hn hv
  have habove := ancestors_first hn
  simp only at habove
  rw [habove, ← hup, trail]
  simp

/-- A stage added below a place is a new place at the end of its way. -/
theorem mem_places_attach (hn : f.walk.Nodup) {v : Place α} (hv : v ∈ f.places []) (a : α)
    {w : Place α} :
    w ∈ (f.attach v.id (leaf id a)).places [] ↔ w ∈ f.places [] ∨ w = ⟨v.route, id, a⟩ := by
  obtain ⟨before, after, up, cs, rfl, hup⟩ := exists_fill_of_place hn hv
  obtain ⟨l, r, hp⟩ := places_fill_node before after up
  have hattach := attach_first hn (leaf id a)
  simp only at hattach
  rw [hattach, hp, hp, places_append, Place.route, ← hup]
  simp only [List.mem_append, List.mem_cons, leaf, places, List.append_nil,
    List.not_mem_nil, or_false]
  constructor
  · rintro (h | h | (h | h) | h) <;> simp [h]
  · rintro ((h | h | h | h) | h) <;> simp [h]

/-- A new name below a node is a leaf, and stands there once. -/
theorem nodup_attach (hn : f.walk.Nodup) {parent : Nat} (hp : parent ∈ f.walk)
    (hid : id ∉ f.walk) (a : α) :
    (f.attach parent (leaf id a)).walk.Nodup ∧ (f.attach parent (leaf id a)).children id = [] := by
  obtain ⟨fr, up, cs, rfl, rfl⟩ := exists_fill_of_mem hp
  have hput := nodup_fill_put hn hid a
  rw [attach_first hn]
  refine ⟨hput, ?_⟩
  -- the new leaf is a frame around nothing
  have hlast : fill (fr :: up) (cs ++ leaf id a) = fill (⟨cs, id, a, nil⟩ :: fr :: up) nil := rfl
  rw [hlast] at hput ⊢
  exact children_first hput

/-- A stage may be added below one that may fork, or that has no children. -/
theorem narrow_attach {f : Forest Stage} (hn : f.walk.Nodup) (hf : f.Narrow) {v : Place Stage}
    (hv : v ∈ f.places []) (ho : v.content.mayFork = true ∨ f.children v.id = []) (a : Stage) :
    (f.attach v.id (leaf id a)).Narrow := by
  obtain ⟨before, after, up, cs, rfl, -⟩ := exists_fill_of_place hn hv
  have hattach := attach_first hn (leaf id a)
  have hchildren := children_first hn
  simp only at hattach hchildren
  rw [hchildren] at ho
  rw [hattach]
  obtain ⟨hb, hle, hcs, ha⟩ := narrow_close.1 (Narrow.of_fill up hf)
  refine Narrow.fill up hf (narrow_close.2 ⟨hb, ?_, narrow_append.2 ⟨hcs, ?_⟩, ha⟩) (by simp)
  · refine ho.symm.imp (fun h => ?_) (fun h => h)
    simp [leaf, roots, h]
  · simp [leaf, Narrow, roots]

/-- A new root is a place that nothing stands above. -/
theorem mem_places_append_leaf (a : α) {w : Place α} :
    w ∈ (f ++ leaf id a).places [] ↔ w ∈ f.places [] ∨ w = ⟨[], id, a⟩ := by
  simp [places_append, leaf, places]

end ChartPipeline.Forest

namespace ChartPipeline.Flow

open Forest

variable {flow : Flow}

/-- A stage is added as a root, with the next number. -/
theorem add_run (ε : Type) (flow : Flow) (stage : Stage) :
    ∃ flow', (add stage : Edit ε Nat) flow = (.ok flow.next, flow') ∧
      flow'.stages = flow.stages ++ leaf flow.next stage ∧ flow'.next = flow.next + 1 :=
  ⟨_, rfl, rfl, rfl⟩

/-- A stage is added below one that is there. -/
theorem addChild_run {parent : Nat} (stage : Stage) (hn : flow.stages.walk.Nodup)
    (hp : parent ∈ flow.stages.walk) (hnext : flow.next ∉ flow.stages.walk) :
    ∃ flow', addChild parent stage flow = (.ok flow.next, flow') ∧
      flow'.stages = flow.stages.attach parent (leaf flow.next stage) ∧
      flow'.next = flow.next + 1 := by
  have hne : flow.next ≠ parent := fun e => hnext (e ▸ hp)
  have hfind : (flow.stages ++ leaf flow.next stage).find? flow.next = some (stage, nil) := by
    rw [find?_append_of_notMem hnext]
    simp [leaf, find?]
  have hin : (flow.stages ++ leaf flow.next stage).contains parent = true := by
    rw [contains_iff, walk_append]
    exact List.mem_append_left _ hp
  -- the new stage is a root, so it is above nothing
  have habove : flow.next ∉ (flow.stages ++ leaf flow.next stage).ancestors parent := by
    obtain ⟨fr, up, cs, hst, rfl⟩ := exists_fill_of_mem hp
    rw [hst] at hn hnext ⊢
    rw [ancestors, ancestors?_append_left (ancestors?_first hn), Option.getD_some]
    intro hmem
    obtain ⟨fr', hfr', hid⟩ := List.mem_map.1 hmem
    refine hnext ((walk_fill_perm _ _).mem_iff.2 ?_)
    rw [outside_cons, List.mem_append, List.mem_append]
    exact .inl (.inr (List.mem_flatMap.2 ⟨fr', hfr', by simp [Frame.names, hid]⟩))
  -- so it is in no tree but its own, and is put below its parent
  have hrun : ∃ flow', setParent flow.next parent
      { flow.restructure (· ++ leaf flow.next stage) with next := flow.next + 1 } =
        (.ok (), flow') ∧
      flow'.stages = flow.stages.attach parent (leaf flow.next stage) ∧
      flow'.next = flow.next + 1 := by
    simp only [setParent, restructure, isAncestor, isAttached, hfind, hin, hne, List.contains_eq_mem,
      habove, decide_false, Bool.or_self, Bool.not_true, Bool.false_eq_true, if_false,
      without_append_leaf hnext]
    exact ⟨_, rfl, rfl, rfl⟩
  obtain ⟨flow', hrun, h⟩ := hrun
  exact ⟨flow', (Run.bind_ok rfl).trans ((Run.bind_ok hrun).trans rfl), h⟩

end ChartPipeline.Flow
