import ChartPipeline.Proofs.Places
import Mathlib.Logic.Relation

/-!
# Parents and children

A forest says who the children of a node are, and what is above a node.  Where no name stands
twice these are two views of the same links: a node is among the children of its parent and of no
other node, nodes without a parent are roots, and going from parent to parent ends at a root.

## Key results

- `mem_roots_iff`, `mem_children_iff`: the links seen from above and from below
- `exists_root_above`, `not_transGen_parent`: where the way up ends
-/

namespace ChartPipeline.Forest

variable {α : Type} {f : Forest α} {id p : Nat}

/-- The roots stand in the walk in their order. -/
theorem roots_sublist_walk (f : Forest α) : f.roots.Sublist f.walk := by
  induction f with
  | nil => exact List.Sublist.refl _
  | node i a cs rest _ ih =>
    rw [roots, walk_node]
    exact (ih.trans (List.sublist_append_right _ _)).cons_cons i

/-- So do the leaves. -/
theorem leaves_sublist_walk (f : Forest α) : f.leaves.Sublist f.walk := by
  induction f with
  | nil => exact .slnil
  | node i a cs rest ihc ihr =>
    rw [leaves, walk_node, ← List.cons_append]
    refine List.Sublist.append ?_ ihr
    -- a node without children is a leaf itself
    cases cs with
    | nil => exact .refl _
    | node => exact ihc.cons i

theorem leaves_subset_walk (f : Forest α) : f.leaves ⊆ f.walk := (leaves_sublist_walk f).subset

/-- Every root has a frame of its own. -/
theorem exists_close_of_mem_roots (h : id ∈ f.roots) :
    ∃ (fr : Frame α) (cs : Forest α), f = fr.close cs ∧ fr.id = id := by
  induction f with
  | nil => exact absurd h (by simp [roots])
  | node i a cs rest _ ih =>
    rcases List.mem_cons.1 h with rfl | h
    · exact ⟨⟨nil, id, a, rest⟩, cs, rfl, rfl⟩
    · obtain ⟨fr, ds, hrest, hid⟩ := ih h
      refine ⟨{ fr with before := node i a cs fr.before }, ds, ?_, hid⟩
      rw [hrest]
      rfl

/-! ### Links from above -/

/-- A name that is not in the forest has no children. -/
theorem children_of_notMem (h : id ∉ f.walk) : f.children id = [] := by
  rw [children, find?_eq_none.2 h]

/-- Nothing is above a name that is not in the forest. -/
theorem ancestors_of_notMem (h : id ∉ f.walk) : f.ancestors id = [] := by
  rw [ancestors, ancestors?_of_notMem h]
  rfl

/-- What has ancestors is in the forest. -/
theorem mem_walk_of_mem_ancestors {a : Nat} (h : a ∈ f.ancestors id) : id ∈ f.walk := by
  by_contra hid
  rw [ancestors_of_notMem hid] at h
  exact absurd h List.not_mem_nil

/-- A name that is not in the forest has no parent. -/
theorem parent?_of_notMem (h : id ∉ f.walk) : f.parent? id = none := by
  rw [parent?, ancestors_of_notMem h]
  rfl

/-- No root stands twice. -/
theorem nodup_roots (hn : f.walk.Nodup) : f.roots.Nodup := hn.sublist (roots_sublist_walk f)

/-- No child of a node stands twice. -/
theorem nodup_children (hn : f.walk.Nodup) (p : Nat) : (f.children p).Nodup := by
  by_cases hp : p ∈ f.walk
  · obtain ⟨fr, up, cs, rfl, rfl⟩ := exists_fill_of_mem hp
    rw [children_first hn]
    refine nodup_roots ?_
    -- the children are counted in the hole, and so among all nodes
    rw [List.nodup_iff_count] at hn ⊢
    intro i
    have := hn i
    rw [fill, count_walk_fill, count_walk_close] at this
    omega
  · rw [children_of_notMem hp]
    exact List.nodup_nil

/-- The parent of a node is the next frame, if there is one. -/
theorem parent?_first {fr : Frame α} (up : List (Frame α)) {cs : Forest α}
    (hn : (fill (fr :: up) cs).walk.Nodup) :
    (fill (fr :: up) cs).parent? fr.id = (up.map Frame.id).head? := by
  rw [parent?, ancestors_first hn]

/-- The roots are the nodes without a parent. -/
theorem mem_roots_iff (hn : f.walk.Nodup) :
    id ∈ f.roots ↔ id ∈ f.walk ∧ f.parent? id = none := by
  constructor
  · intro h
    obtain ⟨fr, cs, rfl, rfl⟩ := exists_close_of_mem_roots h
    exact ⟨mem_walk_of_mem_roots h, parent?_first [] hn⟩
  · rintro ⟨hmem, hp⟩
    obtain ⟨fr, up, cs, rfl, rfl⟩ := exists_fill_of_mem hmem
    rw [parent?_first up hn] at hp
    obtain rfl : up = [] := by simpa using hp
    simp [fill, Frame.close, roots]

/-- The children of a node are the nodes whose parent it is. -/
theorem mem_children_iff (hn : f.walk.Nodup) :
    id ∈ f.children p ↔ f.parent? id = some p := by
  constructor
  · intro h
    have hp : p ∈ f.walk := by
      by_contra hp
      rw [children_of_notMem hp] at h
      exact absurd h (by simp)
    obtain ⟨fr, up, cs, rfl, rfl⟩ := exists_fill_of_mem hp
    rw [children_first hn] at h
    -- the child is a frame of its own inside the hole of its parent
    obtain ⟨fr', cs', rfl, rfl⟩ := exists_close_of_mem_roots h
    exact parent?_first (fr :: up) hn
  · intro h
    have hmem : id ∈ f.walk := by
      by_contra hmem
      rw [parent?_of_notMem hmem] at h
      exact absurd h (by simp)
    obtain ⟨fr, up, cs, rfl, rfl⟩ := exists_fill_of_mem hmem
    rw [parent?_first up hn] at h
    cases up with
    | nil => exact absurd h (by simp)
    | cons fr' up =>
      obtain rfl : fr'.id = p := by simpa using h
      have hn' : (fill (fr' :: up) (fr.close cs)).walk.Nodup := hn
      rw [fill, children_first hn']
      simp [Frame.close, roots]

/-! ### The way up -/

/-- Above a node stand its parent and what is above that. -/
theorem ancestors_of_parent? (hn : f.walk.Nodup) (h : f.parent? id = some p) :
    f.ancestors id = p :: f.ancestors p := by
  have hmem : id ∈ f.walk := by
    by_contra hmem
    rw [parent?_of_notMem hmem] at h
    exact absurd h (by simp)
  obtain ⟨fr, up, cs, rfl, rfl⟩ := exists_fill_of_mem hmem
  rw [parent?_first up hn] at h
  cases up with
  | nil => exact absurd h (by simp)
  | cons fr' up =>
    obtain rfl : fr'.id = p := by simpa using h
    have hn' : (fill (fr' :: up) (fr.close cs)).walk.Nodup := hn
    rw [ancestors_first hn, fill, ancestors_first hn', List.map_cons]

/-- A parent is in the forest. -/
theorem mem_walk_of_parent? (hn : f.walk.Nodup) (h : f.parent? id = some p) : p ∈ f.walk := by
  have hc := (mem_children_iff hn).2 h
  by_contra hp
  rw [children_of_notMem hp] at hc
  exact absurd hc (by simp)

/-- Going from parent to parent ends at a root. -/
theorem exists_root_above (hn : f.walk.Nodup) (hmem : id ∈ f.walk) :
    ∃ r ∈ f.roots, Relation.ReflTransGen (fun a b => f.parent? a = some b) id r := by
  -- by the number of nodes above, which falls from a node to its parent
  generalize hlen : (f.ancestors id).length = n
  induction n generalizing id with
  | zero =>
    refine ⟨id, (mem_roots_iff hn).2 ⟨hmem, ?_⟩, .refl⟩
    rw [parent?, List.length_eq_zero_iff.1 hlen]
    rfl
  | succ n ih =>
    obtain ⟨p, above, habove⟩ := List.exists_cons_of_length_eq_add_one hlen
    have hp : f.parent? id = some p := by rw [parent?, habove]; rfl
    have hlen' : (f.ancestors p).length = n := by
      have := congrArg List.length (ancestors_of_parent? hn hp)
      rw [List.length_cons] at this
      omega
    obtain ⟨r, hr, hway⟩ := ih (mem_walk_of_parent? hn hp) hlen'
    exact ⟨r, hr, hway.head hp⟩

/-- Going from parent to parent never comes back: less and less stands above. -/
theorem not_transGen_parent (hn : f.walk.Nodup) (id : Nat) :
    ¬ Relation.TransGen (fun a b => f.parent? a = some b) id id := by
  have hlt {a b : Nat} (h : Relation.TransGen (fun a b => f.parent? a = some b) a b) :
      (f.ancestors b).length < (f.ancestors a).length := by
    induction h with
    | single h =>
      rw [ancestors_of_parent? hn h, List.length_cons]
      omega
    | tail _ h ih =>
      rw [ancestors_of_parent? hn h, List.length_cons] at ih
      omega
  exact fun h => absurd (hlt h) (Nat.lt_irrefl _)

end ChartPipeline.Forest
