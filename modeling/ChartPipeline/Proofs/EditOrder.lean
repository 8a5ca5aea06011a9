import ChartPipeline.Proofs.Editing
import ChartPipeline.Proofs.Eliminating
import ChartPipeline.Proofs.Sharing

/-!
# The order that edits leave

The children of a stage are in an order, and datasets get their numbers in that order.  So it
matters what an edit does to the walk of a flow: a stage taken out leaves a gap that closes, an
exchange turns two neighbours round, and a stage that is put elsewhere takes the block of
everything below it along.

What stands above a node is read off the places of a forest.  Two forests around one hole differ
only in the places of what is in the hole, and the names before and after it are the same.

## Key results

- `subtree_first`: a node with all below it is a block of the walk
- `Spliced`, `Exchanged`, `Moved`: what the three edits do to the order of a forest
- `Flow.order_of_edits`: that they do
-/

namespace ChartPipeline

namespace Forest

variable {α : Type} {f g : Forest α} {id p a b : Nat} {above : List (Nat × α)}

/-- A node and all nodes below it, in order; a node that is not in the forest stands alone. -/
def subtree (id : Nat) (f : Forest α) : List Nat := id :: f.walk.filter (f.isAncestor id ·)

/-! ### What stands above a node -/

/-- The parent of a node is the last one above its place. -/
theorem parent?_of_mem_places (hn : f.walk.Nodup) {v : Place α} (hv : v ∈ f.places []) :
    f.parent? v.id = v.above.getLast?.map Prod.fst := by
  rw [parent?, ancestors_of_mem_places hn hv, List.head?_reverse, List.getLast?_map]

/-- Below the nodes `above`, `a` stands over `b`. -/
def Over (above : List (Nat × α)) (f : Forest α) (a b : Nat) : Prop :=
  ∃ v ∈ f.places above, v.id = b ∧ a ∈ v.above.map Prod.fst

/-- In trees side by side, nodes stand over each other in one of them. -/
theorem over_append : (f ++ g).Over above a b ↔ f.Over above a b ∨ g.Over above a b := by
  simp only [Over, places_append, List.mem_append, or_and_right, exists_or]

/-- The root of a tree stands below the given nodes, and over all that is below it. -/
theorem over_node {i : Nat} {c : α} : (node i c f g).Over above a b ↔
    (i = b ∧ a ∈ above.map Prod.fst) ∨ f.Over (above ++ [(i, c)]) a b ∨ g.Over above a b := by
  simp only [Over, places, List.mem_cons, List.mem_append, or_and_right, exists_or,
    exists_eq_left]

/-- Nothing stands over anything where nothing is. -/
theorem not_over_nil : ¬ (nil : Forest α).Over above a b := by simp [Over]

/-- What stands over a forest stands over all of its nodes. -/
theorem over_iff : f.Over above a b ↔ (a ∈ above.map Prod.fst ∧ b ∈ f.walk) ∨ f.Over [] a b := by
  rw [Over, Over, mem_walk_iff, places_eq_map_under above]
  simp only [List.mem_map, exists_exists_and_eq_and]
  constructor
  · rintro ⟨u, hu, rfl, e, he, rfl⟩
    rcases List.mem_append.1 he with he | he
    · exact .inl ⟨⟨e, he, rfl⟩, u, hu, rfl⟩
    · exact .inr ⟨u, hu, rfl, e, he, rfl⟩
  · rintro (⟨⟨e, he, rfl⟩, u, hu, rfl⟩ | ⟨u, hu, rfl, e, he, rfl⟩)
    · exact ⟨u, hu, rfl, e, List.mem_append_left _ he, rfl⟩
    · exact ⟨u, hu, rfl, e, List.mem_append_right _ he, rfl⟩

/-- Around a hole, the same nodes stand over each other whatever is in it. -/
theorem over_fill (up : List (Frame α)) (a b : Nat) :
    ∃ P : Prop, ∀ t, (fill up t).Over [] a b ↔ P ∨ t.Over (trail up) a b := by
  obtain ⟨l, r, hp⟩ := places_fill up
  -- l and r are the places around the hole
  refine ⟨∃ v ∈ l ++ r, v.id = b ∧ a ∈ v.above.map Prod.fst, fun t => ?_⟩
  simp only [Over, hp, List.mem_append, or_and_right, exists_or]
  rw [or_assoc]
  exact or_congr_right or_comm

/-- One node is an ancestor of another one exactly if it stands over it. -/
theorem isAncestor_iff (hn : f.walk.Nodup) : f.isAncestor a b = true ↔ f.Over [] a b := by
  rw [isAncestor, List.contains_iff_mem]
  constructor
  · intro h
    obtain ⟨v, hv, rfl⟩ := mem_walk_iff.1 (mem_walk_of_mem_ancestors h)
    rw [ancestors_of_mem_places hn hv, List.mem_reverse] at h
    exact ⟨v, hv, rfl, h⟩
  · rintro ⟨v, hv, rfl, h⟩
    rwa [ancestors_of_mem_places hn hv, List.mem_reverse]

/-- What stands over a node is in the forest. -/
theorem mem_walk_of_over (h : f.Over [] a b) : a ∈ f.walk := by
  obtain ⟨v, hv, -, ha⟩ := h
  obtain ⟨e, he, rfl⟩ := List.mem_map.1 ha
  exact List.mem_map_of_mem (route_subset_toList hv (List.mem_append_left _ he))

/-! ### A node with what is below it -/

/-- The names before and after a hole do not depend on what is in it. -/
theorem walk_fill (up : List (Frame α)) :
    ∃ l r, ∀ t : Forest α, (fill up t).walk = l ++ (t.walk ++ r) := by
  obtain ⟨l, r, hp⟩ := places_fill up
  refine ⟨l.map Place.id, r.map Place.id, fun t => ?_⟩
  rw [← map_id_places [], hp, List.map_append, List.map_append, map_id_places]

/-- The same for the place of a node, with whatever name, and for that place without it. -/
theorem walk_fill_node (fr : Frame α) (up : List (Frame α)) : ∃ l r,
    (∀ i c cs, (fill ({ fr with id := i, content := c } :: up) cs).walk =
      l ++ (i :: cs.walk ++ r)) ∧
    ∀ t, (fill up (fr.before ++ (t ++ fr.after))).walk = l ++ (t.walk ++ r) := by
  obtain ⟨l, r, hw⟩ := walk_fill up
  have ht (t : Forest α) : (fill up (fr.before ++ (t ++ fr.after))).walk =
      l ++ fr.before.walk ++ (t.walk ++ (fr.after.walk ++ r)) := by
    rw [hw, walk_append, walk_append]
    simp only [List.append_assoc]
  refine ⟨l ++ fr.before.walk, fr.after.walk ++ r, fun i c cs => ?_, ht⟩
  refine (ht (node i c cs nil)).trans ?_
  rw [walk_node, walk_nil, List.append_nil]

variable {fr : Frame α} {up : List (Frame α)} {cs : Forest α}

/-- Below the node of the first frame is what is in the hole. -/
theorem isAncestor_first (hn : (fill (fr :: up) cs).walk.Nodup) :
    (fill (fr :: up) cs).isAncestor fr.id b = true ↔ b ∈ cs.walk := by
  rw [isAncestor, List.contains_iff_mem]
  constructor
  · intro h
    obtain ⟨fr', up', cs', hf, rfl⟩ := exists_fill_of_mem (mem_walk_of_mem_ancestors h)
    rw [hf, ancestors_first (hf ▸ hn)] at h
    obtain ⟨g, hg, hid⟩ := List.mem_map.1 h
    -- the frame of the node is one of those above `b`
    obtain ⟨xs, ys, rfl⟩ := List.append_of_mem hg
    rw [← List.cons_append, fill_append] at hf
    obtain ⟨-, -, rfl⟩ := fill_first_inj hn hid.symm hf
    rw [(walk_fill_perm _ _).mem_iff]
    simp [Frame.names]
  · intro h
    obtain ⟨fr', up', cs', rfl, rfl⟩ := exists_fill_of_mem h
    rw [← fill_append, List.cons_append] at hn ⊢
    rw [ancestors_first hn]
    simp

/-- What is kept of a list without repetitions by a part of it, and what is not. -/
theorem filter_middle {l m r : List Nat} (h : (l ++ (m ++ r)).Nodup) :
    (l ++ (m ++ r)).filter (· ∈ m) = m ∧ (l ++ (m ++ r)).filter (· ∉ m) = l ++ r := by
  obtain ⟨-, hmr, hl⟩ := List.nodup_append.1 h
  obtain ⟨-, -, hr⟩ := List.nodup_append.1 hmr
  have hleft : ∀ y ∈ l, y ∉ m := fun y hy hm => hl y hy y (List.mem_append_left _ hm) rfl
  have hright : ∀ y ∈ r, y ∉ m := fun y hy hm => hr y hm y hy rfl
  have hnone (s : List Nat) (hs : ∀ y ∈ s, y ∉ m) : s.filter (· ∈ m) = [] :=
    List.filter_eq_nil_iff.2 fun y hy => by simpa using hs y hy
  have hall (s : List Nat) (hs : ∀ y ∈ s, y ∉ m) : s.filter (· ∉ m) = s :=
    List.filter_eq_self.2 fun y hy => by simpa using hs y hy
  constructor
  · rw [List.filter_append, List.filter_append, hnone l hleft, hnone r hright,
      List.filter_eq_self.2 fun y hy => decide_eq_true hy, List.nil_append, List.append_nil]
  · rw [List.filter_append, List.filter_append, hall l hleft, hall r hright,
      List.filter_eq_nil_iff.2 fun y hy => by simpa using hy, List.nil_append]

/-- The node of the first frame with all below it is a block of the walk: its name, and then the
    names in the hole. -/
theorem subtree_first (hn : (fill (fr :: up) cs).walk.Nodup) :
    (fill (fr :: up) cs).subtree fr.id = fr.id :: cs.walk := by
  obtain ⟨l, r, hw, -⟩ := walk_fill_node fr up
  have hwalk : (fill (fr :: up) cs).walk = (l ++ [fr.id]) ++ (cs.walk ++ r) :=
    (hw fr.id fr.content cs).trans (by simp)
  rw [subtree, List.cons_inj_right, List.filter_congr (q := fun b => decide (b ∈ cs.walk))
    fun b _ => by rw [Bool.eq_iff_iff, isAncestor_first hn, decide_eq_true_eq], hwalk]
  exact (filter_middle (hwalk ▸ hn)).1

/-- A name that is not in the forest is a block by itself. -/
theorem subtree_of_notMem (hn : f.walk.Nodup) (h : id ∉ f.walk) : f.subtree id = [id] := by
  rw [subtree, List.filter_eq_nil_iff.2]
  exact fun b _ habove => h (mem_walk_of_over ((isAncestor_iff hn).1 habove))

/-- The block of a node stands together in the walk. -/
theorem subtree_block (hn : f.walk.Nodup) (h : id ∈ f.walk) : f.subtree id <:+: f.walk := by
  obtain ⟨fr, up, cs, rfl, rfl⟩ := exists_fill_of_mem h
  obtain ⟨l, r, hw, -⟩ := walk_fill_node fr up
  refine ⟨l, r, ?_⟩
  rw [subtree_first hn, List.append_assoc]
  exact (hw fr.id fr.content cs).symm

/-! ### A node taken out -/

/-- A forest from which one node is gone: the walk without its name, and everything else above
    what it was above. -/
structure Spliced (id : Nat) (f f' : Forest α) : Prop where
  walk : f'.walk = f.walk.erase id
  isAncestor : ∀ a b, a ≠ id → b ≠ id → f'.isAncestor a b = f.isAncestor a b

/-- Taking out a node leaves all others over what they stood over. -/
theorem isAncestor_splice (hn : f.walk.Nodup) (hid : id ∈ f.walk) (ha : a ≠ id) (hb : b ≠ id) :
    (f.splice id).isAncestor a b = f.isAncestor a b := by
  obtain ⟨fr, up, cs, rfl, rfl⟩ := exists_fill_of_mem hid
  -- around the node nothing changes; in the hole only what names the node itself is lost
  obtain ⟨P, hP⟩ := over_fill up a b
  rw [splice_first hn, Bool.eq_iff_iff, isAncestor_iff (nodup_fill_drop hn).1,
    isAncestor_iff hn, fill, hP, hP, Frame.close, over_append, over_append, over_append,
    over_node, over_iff (f := cs), @over_iff _ cs _ _ (trail up ++ _)]
  simp only [List.map_append, List.map_cons, List.map_nil, List.mem_append, List.mem_singleton,
    ha, hb.symm, false_and, or_false, false_or]

/-- Taking out a node takes its name out of the walk and leaves everything else. -/
theorem spliced_splice (hn : f.walk.Nodup) (hid : id ∈ f.walk) : f.Spliced id (f.splice id) where
  walk := by
    obtain ⟨fr, up, cs, rfl, rfl⟩ := exists_fill_of_mem hid
    obtain ⟨l, r, hnode, hwithout⟩ := walk_fill_node fr up
    have hwalk : (fill (fr :: up) cs).walk = l ++ (fr.id :: cs.walk ++ r) :=
      hnode fr.id fr.content cs
    rw [splice_first hn, hwithout, hwalk]
    rw [hwalk] at hn
    have hl : fr.id ∉ l := fun hmem =>
      (List.nodup_append.1 hn).2.2 fr.id hmem fr.id (by simp) rfl
    rw [List.erase_append_right _ hl, List.cons_append, List.erase_cons_head]
  isAncestor _ _ := isAncestor_splice hn hid

/-! ### An exchange -/

/-- A forest in which a node has changed places with its parent: two neighbours of the walk are
    turned round, and of all pairs only these two stand over each other the other way. -/
structure Exchanged (id parent : Nat) (f f' : Forest α) : Prop where
  walk : ∃ before after, f.walk = before ++ parent :: id :: after ∧
    f'.walk = before ++ id :: parent :: after
  down : f.isAncestor parent id = true ∧ f.isAncestor id parent = false
  up : f'.isAncestor id parent = true ∧ f'.isAncestor parent id = false
  isAncestor : ∀ a b, ¬ (a = parent ∧ b = id) → ¬ (a = id ∧ b = parent) →
    f'.isAncestor a b = f.isAncestor a b

/-- An exchange leaves all pairs but the two nodes themselves. -/
theorem isAncestor_rise {i : Nat} {c : α} (hn : (fill (fr :: up) (node i c cs nil)).walk.Nodup)
    (hdown : ¬ (a = fr.id ∧ b = i)) (hup : ¬ (a = i ∧ b = fr.id)) :
    (fill ({ fr with id := i, content := c } :: up) (node fr.id fr.content cs nil)).isAncestor a b =
      (fill (fr :: up) (node i c cs nil)).isAncestor a b := by
  -- both names stand above all that is below the node, before the exchange and after it
  obtain ⟨P, hP⟩ := over_fill up a b
  rw [Bool.eq_iff_iff, isAncestor_iff (nodup_fill_rise hn c fr.content), isAncestor_iff hn, fill,
    fill, hP, hP]
  simp only [Frame.close, over_append, over_node, not_over_nil, or_false]
  rw [@over_iff _ cs _ _ (trail up ++ _ ++ _), @over_iff _ cs _ _ (trail up ++ _ ++ _)]
  simp only [List.map_append, List.map_cons, List.map_nil, List.mem_append, List.mem_singleton]
  grind

/-- Where a node is the only one in a hole, it is below the node of the first frame and not
    above it. -/
theorem isAncestor_only {i : Nat} {c : α} (hn : (fill (fr :: up) (node i c cs nil)).walk.Nodup) :
    (fill (fr :: up) (node i c cs nil)).isAncestor fr.id i = true ∧
      (fill (fr :: up) (node i c cs nil)).isAncestor i fr.id = false := by
  refine ⟨(isAncestor_first hn).2 (by simp), ?_⟩
  have hinner : (fill (⟨nil, i, c, nil⟩ :: fr :: up) cs).walk.Nodup := hn
  have hout := (notMem_of_nodup_fill hn).2.2.1
  rw [Bool.eq_false_iff]
  intro habove
  have hmem := (isAncestor_first hinner).1 habove
  exact hout (by simp [hmem])

/-- A node that rises above the node of the first frame is exchanged with it. -/
theorem exchanged_rise {i : Nat} {c : α} (hn : (fill (fr :: up) (node i c cs nil)).walk.Nodup) :
    (fill (fr :: up) (node i c cs nil)).Exchanged i fr.id
      (fill ({ fr with id := i, content := c } :: up) (node fr.id fr.content cs nil)) where
  walk := by
    obtain ⟨l, r, hw, -⟩ := walk_fill_node fr up
    refine ⟨l, cs.walk ++ r, (hw fr.id fr.content (node i c cs nil)).trans ?_,
      (hw i c (node fr.id fr.content cs nil)).trans ?_⟩ <;> simp
  down := isAncestor_only hn
  up := isAncestor_only (nodup_fill_rise hn c fr.content)
  isAncestor _ _ := isAncestor_rise hn

/-! ### A node put elsewhere -/

/-- A forest in which a node is the last child of another one.  The block of the node, which was
    one of the walk if the node was in the forest and is the node alone if it was not, comes to the
    end of the parent's block; the names of all other nodes are in the order they were in, and each
    of them has the parent it had. -/
structure Moved (id parent : Nat) (f f' : Forest α) : Prop where
  block : id ∈ f.walk → f.subtree id <:+: f.walk
  alone : id ∉ f.walk → f.subtree id = [id]
  walk : ∃ before after,
    f.walk.filter (· ∉ f.subtree id) =
      before ++ ((f.subtree parent).filter (· ∉ f.subtree id) ++ after) ∧
    f'.walk =
      before ++ ((f.subtree parent).filter (· ∉ f.subtree id) ++ f.subtree id ++ after)
  below : f'.subtree parent = (f.subtree parent).filter (· ∉ f.subtree id) ++ f.subtree id
  within : f'.subtree id = f.subtree id
  parent : f'.parent? id = some parent
  parents : ∀ b, b ≠ id → f'.parent? b = f.parent? b

/-- Another forest that lacks exactly the names of a block, with the ways to all others as they
    are. -/
structure Cut (f : Forest α) (block : List Nat) (g : Forest α) : Prop where
  walk : g.walk = f.walk.filter (· ∉ block)
  places : g.places [] ⊆ f.places []

/-- Where a block is cut out, no name stands twice. -/
theorem Cut.nodup {block : List Nat} (h : f.Cut block g) (hn : f.walk.Nodup) : g.walk.Nodup :=
  h.walk ▸ hn.filter _

/-- What is left stands below the same nodes as before. -/
theorem Cut.isAncestor {block : List Nat} (h : f.Cut block g) (hn : f.walk.Nodup)
    (hb : b ∈ g.walk) : g.isAncestor a b = f.isAncestor a b := by
  obtain ⟨v, hv, rfl⟩ := mem_walk_iff.1 hb
  rw [Forest.isAncestor, Forest.isAncestor, ancestors_of_mem_places (h.nodup hn) hv,
    ancestors_of_mem_places hn (h.places hv)]

/-- The block of what is left lacks the block that is cut out. -/
theorem Cut.subtree {block : List Nat} (h : f.Cut block g) (hn : f.walk.Nodup) (hp : p ∉ block) :
    g.subtree p = (f.subtree p).filter (· ∉ block) := by
  have hsame : g.walk.filter (g.isAncestor p ·) = g.walk.filter (f.isAncestor p ·) :=
    List.filter_congr fun b hb => h.isAncestor hn hb
  rw [Forest.subtree, Forest.subtree, hsame, h.walk, List.filter_cons, if_pos (by simpa using hp),
    List.filter_filter, List.filter_filter]
  simp only [Bool.and_comm]

/-- Taking out the tree of a node cuts out its block. -/
theorem cut_without (hn : (fill (fr :: up) cs).walk.Nodup) :
    (fill (fr :: up) cs).Cut (fr.id :: cs.walk) (fill up (fr.before ++ fr.after)) where
  walk := by
    obtain ⟨l, r, hnode, hwithout⟩ := walk_fill_node fr up
    have hwalk : (fill (fr :: up) cs).walk = l ++ (fr.id :: cs.walk ++ r) :=
      hnode fr.id fr.content cs
    rw [hwalk, (filter_middle (hwalk ▸ hn)).2]
    exact hwithout nil
  places := by
    obtain ⟨l, r, hp⟩ := places_fill up
    intro v hv
    rw [fill, hp, Frame.places_close]
    rw [hp, places_append] at hv
    simp only [List.mem_append, List.mem_cons] at hv ⊢
    tauto

/-- Nothing is cut out with a name that is not there. -/
theorem cut_of_notMem (h : id ∉ f.walk) : f.Cut [id] f where
  walk := (List.filter_eq_self.2 fun b hb => by
    rw [decide_eq_true_eq, List.mem_singleton]
    exact fun e => h (e ▸ hb)).symm
  places := List.Subset.refl _

/-- Trees put below a node come to the end of its block. -/
theorem walk_attach (hn : f.walk.Nodup) (hp : p ∈ f.walk) (t : Forest α) :
    ∃ before after, f.walk = before ++ (f.subtree p ++ after) ∧
      (f.attach p t).walk = before ++ (f.subtree p ++ t.walk ++ after) := by
  obtain ⟨fr, up, cs, rfl, rfl⟩ := exists_fill_of_mem hp
  obtain ⟨l, r, hw, -⟩ := walk_fill_node fr up
  rw [attach_first hn, subtree_first hn]
  refine ⟨l, r, hw fr.id fr.content cs, (hw fr.id fr.content (cs ++ t)).trans ?_⟩
  rw [walk_append]
  rfl

/-- The block of a node takes in what is put below it. -/
theorem subtree_attach (hn : f.walk.Nodup) (hp : p ∈ f.walk) {t : Forest α}
    (hn' : (f.attach p t).walk.Nodup) : (f.attach p t).subtree p = f.subtree p ++ t.walk := by
  obtain ⟨fr, up, cs, rfl, rfl⟩ := exists_fill_of_mem hp
  rw [attach_first hn] at hn' ⊢
  rw [subtree_first hn, subtree_first hn', walk_append, List.cons_append]

/-- Trees put below a place go on its way; all other places are as they were. -/
theorem mem_places_attach_trees (hn : f.walk.Nodup) {v w : Place α} (hv : v ∈ f.places [])
    (t : Forest α) : w ∈ (f.attach v.id t).places [] ↔
      w ∈ f.places [] ∨ ∃ u ∈ t.places [], u.under v.route = w := by
  obtain ⟨before, after, up, cs, rfl, hup⟩ := exists_fill_of_place hn hv
  obtain ⟨l, r, hp⟩ := places_fill_node before after up
  have hattach := attach_first hn t
  simp only at hattach
  rw [hattach, hp, hp, places_append, Place.route, ← hup, ← mem_places_concat]
  simp only [List.mem_append, List.mem_cons]
  grind

/-- A tree that is put below a node is the block of its root. -/
theorem subtree_attach_node (hn : f.walk.Nodup) (hp : p ∈ f.walk) {c : α}
    (hn' : (f.attach p (node id c cs nil)).walk.Nodup) :
    (f.attach p (node id c cs nil)).subtree id = id :: cs.walk := by
  obtain ⟨fr, up, ds, rfl, rfl⟩ := exists_fill_of_mem hp
  rw [attach_first hn] at hn' ⊢
  have hinner : (fill (⟨ds, id, c, nil⟩ :: fr :: up) cs).walk.Nodup := hn'
  exact subtree_first hinner

/-- What a node has for its parent within trees does not depend on where these are. -/
theorem parent?_under {x : Nat × α} {above above' : List (Nat × α)} {u : Place α}
    (hf : f.walk.Nodup) (hg : g.walk.Nodup) (hu : u.under (above ++ [x]) ∈ f.places [])
    (hu' : u.under (above' ++ [x]) ∈ g.places []) : f.parent? u.id = g.parent? u.id := by
  have h := parent?_of_mem_places hf hu
  have h' := parent?_of_mem_places hg hu'
  simp only [Place.under, List.getLast?_append, List.getLast?_singleton, Option.some_or] at h h'
  rw [h, h']

/-- The tree of a node is moved by putting it into what is left without it. -/
theorem moved_attach {c : α} (hn : f.walk.Nodup) (hcut : f.Cut (id :: cs.walk) g)
    (hblock : f.subtree id = id :: cs.walk) (hnb : (id :: cs.walk).Nodup) (hp : p ∈ g.walk)
    (hcs : ∀ u ∈ cs.places [], ∃ above, u.under (above ++ [(id, c)]) ∈ f.places []) :
    f.Moved id p (g.attach p (node id c cs nil)) := by
  have hg := hcut.nodup hn
  have ht : (node id c cs nil).walk = id :: cs.walk := by simp
  have hpb : p ∉ id :: cs.walk := by
    rw [hcut.walk, List.mem_filter, decide_eq_true_eq] at hp
    exact hp.2
  have hperm := perm_walk_attach hg hp (node id c cs nil)
  have hn' : (g.attach p (node id c cs nil)).walk.Nodup := by
    rw [hperm.nodup_iff, ht, List.nodup_append]
    refine ⟨hg, hnb, fun b hb b' hb' e => ?_⟩
    rw [hcut.walk, List.mem_filter, decide_eq_true_eq] at hb
    exact hb.2 (e ▸ hb')
  -- the walk and the blocks follow from the names, the parents from the places
  obtain ⟨v, hv, rfl⟩ := mem_walk_iff.1 hp
  have hput (w : Place α) := mem_places_attach_trees (w := w) hg hv (node id c cs nil)
  have hsub : g.subtree v.id = (f.subtree v.id).filter (· ∉ id :: cs.walk) := hcut.subtree hn hpb
  constructor
  case block => exact subtree_block hn
  case alone => exact subtree_of_notMem hn
  case walk =>
    obtain ⟨before, after, hw, hw'⟩ := walk_attach hg hp (node id c cs nil)
    rw [hblock, ← hsub, ← hcut.walk, ← ht]
    exact ⟨before, after, hw, hw'⟩
  case below =>
    rw [hblock, ← hsub, ← ht]
    exact subtree_attach hg hp hn'
  case within => rw [hblock, subtree_attach_node hg hp hn']
  case parent =>
    have hat : ⟨v.route, id, c⟩ ∈ (g.attach v.id (node id c cs nil)).places [] :=
      (hput _).2 (.inr ⟨⟨[], id, c⟩, by simp [places], by simp [Place.under]⟩)
    refine (parent?_of_mem_places hn' hat).trans ?_
    rw [Place.route, List.getLast?_concat]
    rfl
  case parents =>
    intro b hb
    by_cases hin : b ∈ (g.attach v.id (node id c cs nil)).walk
    · obtain ⟨w, hw, rfl⟩ := mem_walk_iff.1 hin
      rcases (hput w).1 hw with hold | ⟨u, hu, rfl⟩
      · rw [parent?_of_mem_places hn' hw, parent?_of_mem_places hn (hcut.places hold)]
      · -- a node of the tree: the node itself is not meant, and what is below it stays there
        rw [places, places_nil, List.append_nil, List.mem_cons, List.nil_append] at hu
        rcases hu with rfl | hu
        · exact absurd rfl hb
        · obtain ⟨u, hu', rfl⟩ := mem_places_iff.1 hu
          obtain ⟨above, habove⟩ := hcs u hu'
          have hroute : (u.under [(id, c)]).under v.route = u.under (v.route ++ [(id, c)]) := by
            simp [Place.under]
          exact parent?_under (u := u) hn' hn (hroute ▸ hw) habove
    · -- no name is lost, so this one was not in the forest before either
      have hout : b ∉ f.walk := fun hmem => hin <| by
        rw [hperm.mem_iff, ht, List.mem_append, hcut.walk, List.mem_filter, decide_eq_true_eq]
        tauto
      rw [parent?_of_notMem hin, parent?_of_notMem hout]

end Forest

namespace Flow

open Forest

variable {flow flow' : Flow} {id p : Nat}

/-- A stage that is removed is taken out. -/
theorem spliced_of_remove (hn : flow.stages.walk.Nodup) (h : remove id flow = (.ok (), flow')) :
    flow.stages.Spliced id flow'.stages := by
  rw [remove] at h
  split at h
  next stage hstage =>
    obtain ⟨-, rfl⟩ := Prod.mk.inj h
    exact spliced_splice hn (mem_walk_of_content? hstage)
  next => exact absurd (Prod.mk.inj h).1 (by simp)

/-- A stage that changes places with its parent is exchanged with it, and exchanging the parent
    gives back what there was. -/
theorem exchanged_of_swapWithParent (hn : flow.stages.walk.Nodup)
    (h : swapWithParent id flow = (.ok (), flow')) :
    ∃ parent, flow.stages.parent? id = some parent ∧
      flow.stages.Exchanged id parent flow'.stages ∧
      swapWithParent parent flow' = (.ok (), { flow with revision := flow.revision + 2 }) := by
  rw [swapWithParent] at h
  split at h
  next => exact absurd (Prod.mk.inj h).1 (by simp)
  next parent hp =>
  split at h
  next hc =>
    obtain ⟨-, rfl⟩ := Prod.mk.inj h
    obtain ⟨fr, up, cs, c, hst, rfl⟩ := exists_fill_of_only hn (mem_walk_of_parent? hn hp) hc
    rw [hst] at hn
    have hn' := nodup_fill_rise hn c fr.content
    have hlift : flow.stages.lift id =
        fill ({ fr with id := id, content := c } :: up) (node fr.id fr.content cs nil) := by
      rw [hst, lift_first hn]
    refine ⟨fr.id, hp, ?_, ?_⟩
    · rw [restructure, hlift, hst]
      exact exchanged_rise hn
    · -- the parent is now an only child, and going up again it comes to where it was
      have hp' : (flow.restructure (·.lift id)).stages.parent? fr.id = some id := by
        rw [restructure, hlift]
        have hinner : (fill (⟨nil, fr.id, fr.content, nil⟩ ::
            { fr with id := id, content := c } :: up) cs).walk.Nodup := hn'
        exact parent?_first _ hinner
      have hc' : (flow.restructure (·.lift id)).stages.children id = [fr.id] := by
        rw [restructure, hlift]
        exact children_first hn'
      have hback : (flow.stages.lift id).lift fr.id = flow.stages := by
        rw [hlift, hst]
        exact lift_first hn'
      rw [swapWithParent_run hp' hc', restructure, restructure, hback]
  next => exact absurd (Prod.mk.inj h).1 (by simp)

/-- A stage that is given another parent is moved there. -/
theorem moved_of_setParent (hn : flow.stages.walk.Nodup)
    (h : setParent id p flow = (.ok (), flow')) : flow.stages.Moved id p flow'.stages := by
  rw [setParent] at h
  split at h
  next => exact absurd (Prod.mk.inj h).1 (by simp)
  next hcycle =>
  split at h
  next => exact absurd (Prod.mk.inj h).1 (by simp)
  next hat =>
  rw [Bool.or_eq_true, decide_eq_true_eq, not_or] at hcycle
  have hp : p ∈ flow.stages.walk := isAttached_iff.1 (by simpa using hat)
  split at h
  next stage cs hfind =>
    -- the tree of the stage is taken out and put below the parent
    obtain ⟨-, rfl⟩ := Prod.mk.inj h
    have hid : id ∈ flow.stages.walk := by
      by_contra hid
      rw [find?_eq_none.2 hid] at hfind
      cases hfind
    have hleft := mem_walk_without hn (fun e => hcycle.1 e.symm) hp
      (by simpa [isAncestor] using hcycle.2)
    obtain ⟨fr, up, ds, hst, rfl⟩ := exists_fill_of_mem hid
    rw [restructure, hst]
    rw [hst] at hn hfind hleft
    rw [find?_first hn, Option.some.injEq] at hfind
    obtain ⟨rfl, rfl⟩ := Prod.mk.inj hfind
    rw [without_first hn] at hleft ⊢
    refine moved_attach hn (cut_without hn) (subtree_first hn) ?_ hleft fun u hu => ?_
    · exact subtree_first hn ▸ hn.sublist (subtree_block hn (hst ▸ hid)).sublist
    · obtain ⟨l, r, hpl⟩ := places_fill up
      refine ⟨trail up, ?_⟩
      rw [fill, hpl, Frame.places_close]
      have hunder : u.under (trail up ++ [(fr.id, fr.content)]) ∈
          ds.places (trail up ++ [(fr.id, fr.content)]) := mem_places_concat.2 ⟨u, hu, rfl⟩
      simp [hunder]
  next hfind =>
    split at h
    next stage _ =>
      -- a stage that was taken out comes back alone
      obtain ⟨-, rfl⟩ := Prod.mk.inj h
      have hid := find?_eq_none.1 hfind
      have hmoved := @moved_attach _ _ _ _ _ nil stage hn (cut_of_notMem hid)
        (subtree_of_notMem hn hid) (List.nodup_singleton _) hp (by simp)
      exact hmoved
    next => exact absurd (Prod.mk.inj h).1 (by simp)

/-- What edits that succeed do to the order of stages.  A stage taken out is gone from the walk,
    and all others stand over each other as before.  An exchange turns the stage and its parent
    round, in the walk and as to which stands over the other, and nothing else; exchanging the
    parent in turn gives back the flow, two changes later.  A stage put below a parent takes the
    block of all that is below it to the end of the parent's block, and one that had been taken out
    comes there alone; all others keep their order and their parents. -/
theorem order_of_edits (hn : flow.stages.walk.Nodup) (id : Nat) :
    (∀ flow', remove id flow = (.ok (), flow') → flow.stages.Spliced id flow'.stages) ∧
    (∀ flow', swapWithParent id flow = (.ok (), flow') →
      ∃ parent, flow.stages.parent? id = some parent ∧
        flow.stages.Exchanged id parent flow'.stages ∧
        swapWithParent parent flow' = (.ok (), { flow with revision := flow.revision + 2 })) ∧
    (∀ parent flow', setParent id parent flow = (.ok (), flow') →
      flow.stages.Moved id parent flow'.stages) :=
  ⟨fun _ => spliced_of_remove hn, fun _ => exchanged_of_swapWithParent hn,
    fun _ _ => moved_of_setParent hn⟩

/-- Below a data stage, a stage has an only child, and this has two outputs; another output is
beside them, and a filter was taken out. -/
def twoBranches : Flow :=
  { stages :=
      .node 0 (.output "raw" false)
        (.node 1 (.filter [.expression "datum.x > 0"])
          (.node 2 (.calculate "datum.x * 2" "y")
            (.node 3 (.output "left" true) .nil (.leaf 4 (.output "right" true))) .nil)
          (.leaf 5 (.output "beside" true))) .nil,
    removed := [(6, .filter [.expression "datum.y > 0"])],
    next := 7 }

/-- The calculation in the middle is taken out, exchanged with the filter over it, and put with its
    outputs below the output beside; the filter that was taken out comes below the other one. -/
theorem order_of_edits_twoBranches : twoBranches.stages.walk.Nodup ∧ ∃ spliced exchanged moved back,
    remove 2 twoBranches = (.ok (), spliced) ∧ spliced.stages.walk = [0, 1, 3, 4, 5] ∧
    twoBranches.stages.Spliced 2 spliced.stages ∧
    swapWithParent 2 twoBranches = (.ok (), exchanged) ∧
    exchanged.stages.walk = [0, 2, 1, 3, 4, 5] ∧
    twoBranches.stages.Exchanged 2 1 exchanged.stages ∧
    swapWithParent 1 exchanged = (.ok (), { twoBranches with revision := 2 }) ∧
    setParent 2 5 twoBranches = (.ok (), moved) ∧ moved.stages.walk = [0, 1, 5, 2, 3, 4] ∧
    twoBranches.stages.Moved 2 5 moved.stages ∧
    setParent 6 1 twoBranches = (.ok (), back) ∧ back.stages.walk = [0, 1, 2, 3, 4, 6, 5] ∧
    twoBranches.stages.Moved 6 1 back.stages := by
  have hn : twoBranches.stages.walk.Nodup := by decide
  obtain ⟨hspliced, hexchanged, hmoved⟩ := order_of_edits hn 2
  obtain ⟨parent, hp, hexchange, hback⟩ := hexchanged _ rfl
  obtain rfl : 1 = parent := Option.some.inj hp
  exact ⟨hn, _, _, _, _, rfl, rfl, hspliced _ rfl, rfl, rfl, hexchange, hback, rfl, rfl,
    hmoved 5 _ rfl, rfl, rfl, (order_of_edits hn 6).2.2 1 _ rfl⟩

end Flow

end ChartPipeline
