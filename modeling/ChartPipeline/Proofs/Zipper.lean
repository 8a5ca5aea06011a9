import ChartPipeline.Flow.Forest
import Mathlib.Data.List.Basic
import Mathlib.Data.List.Induction

/-!
# Forests around a hole

A `Frame` is a node with the trees before and after it but without its children.  A list of
frames, the innermost first, is a forest with a hole where the children of the first frame go, and
`fill` puts them there.  An edit of a node that is not in the frames happens in the hole, and the
path from the hole up is the list of the frames' names.

## Key results

- `exists_fill_of_mem`: every node of a forest is the first frame of some way to fill it
- `update_fill`, `splice_fill`, `attach_fill`, `lift_fill`: edits in the hole
- `ancestors_fill`: the ancestors of what is in the hole
-/

namespace ChartPipeline.Forest

variable {α : Type}

/-! ### Forests one after the other -/

@[simp] theorem nil_append (f : Forest α) : nil ++ f = f := rfl

@[simp] theorem node_append (i : Nat) (a : α) (cs rest f : Forest α) :
    node i a cs rest ++ f = node i a cs (rest ++ f) := rfl

@[simp] theorem append_nil (f : Forest α) : f ++ nil = f := by
  induction f with
  | nil => rfl
  | node i a cs rest _ ih => rw [node_append, ih]

/-- Forests are put one after the other in any grouping. -/
theorem append_assoc (f g h : Forest α) : f ++ g ++ h = f ++ (g ++ h) := by
  induction f with
  | nil => rfl
  | node i a cs rest _ ih => simp only [node_append, ih]

/-- The nodes of two forests are those of the first, then those of the second. -/
@[simp] theorem toList_append (f g : Forest α) : (f ++ g).toList = f.toList ++ g.toList := by
  induction f with
  | nil => rfl
  | node i a cs rest _ ih => simp [toList, ih]

@[simp] theorem walk_nil : (nil : Forest α).walk = [] := rfl

/-- The root stands before everything below it, and that before the trees after it. -/
@[simp] theorem walk_node (i : Nat) (a : α) (cs rest : Forest α) :
    (node i a cs rest).walk = i :: (cs.walk ++ rest.walk) := by
  simp [walk, toList]

@[simp] theorem walk_append (f g : Forest α) : (f ++ g).walk = f.walk ++ g.walk := by
  simp [walk]

@[simp] theorem roots_append (f g : Forest α) : (f ++ g).roots = f.roots ++ g.roots := by
  induction f with
  | nil => rfl
  | node i a cs rest _ ih => simp [roots, ih]

@[simp] theorem leaves_append (f g : Forest α) : (f ++ g).leaves = f.leaves ++ g.leaves := by
  induction f with
  | nil => rfl
  | node i a cs rest _ ih => simp [leaves, ih]

/-- A node is changed in whichever of two forests it is. -/
@[simp] theorem update_append (id : Nat) (u : α → α) (f g : Forest α) :
    (f ++ g).update id u = f.update id u ++ g.update id u := by
  induction f with
  | nil => rfl
  | node i a cs rest _ ih => simp [update, ih]

/-- Nodes are taken out of each of two forests by itself. -/
@[simp] theorem prune_append (p : α → Bool) (f g : Forest α) :
    (f ++ g).prune p = f.prune p ++ g.prune p := by
  induction f with
  | nil => rfl
  | node i a cs rest _ ih =>
    simp only [node_append, prune, ih]
    -- the root may give place to its children, which then come between the two rests
    split
    · rw [append_assoc]
    · rfl

/-- Roots are nodes. -/
theorem mem_walk_of_mem_roots {f : Forest α} {id : Nat} (h : id ∈ f.roots) : id ∈ f.walk := by
  induction f with
  | nil => simp [roots] at h
  | node i a cs rest _ ih =>
    simp only [roots, List.mem_cons] at h
    rcases h with rfl | h
    · simp
    · simp [ih h]

/-- Only the empty forest has no root. -/
theorem length_roots_eq_zero {f : Forest α} : f.roots.length = 0 ↔ f = nil := by
  cases f <;> simp [roots]

theorem isEmpty_iff {f : Forest α} : f.isEmpty = true ↔ f = nil := by
  cases f <;> simp [isEmpty]

/-! ### Nodes that are not there -/

/-- A name that is not in a forest is neither that of its first root nor below or after it. -/
theorem notMem_walk_node {i id : Nat} {a : α} {cs rest : Forest α} :
    id ∉ (node i a cs rest).walk ↔ i ≠ id ∧ id ∉ cs.walk ∧ id ∉ rest.walk := by
  rw [walk_node, List.mem_cons, List.mem_append, not_or, not_or, eq_comm]

/-- Where no name stands twice, the root, what is below it and the trees after it have different
    names. -/
theorem nodup_walk_node {i : Nat} {a : α} {cs rest : Forest α} :
    (node i a cs rest).walk.Nodup ↔ (i ∉ cs.walk ∧ i ∉ rest.walk) ∧ cs.walk.Nodup ∧
      rest.walk.Nodup ∧ ∀ id ∈ cs.walk, id ∉ rest.walk := by
  have hapart : (∀ id ∈ cs.walk, ∀ id' ∈ rest.walk, id ≠ id') ↔ ∀ id ∈ cs.walk, id ∉ rest.walk :=
    forall₂_congr fun id _ => ⟨fun h hr => h id hr rfl, fun h id' hr he => h (he ▸ hr)⟩
  rw [walk_node, List.nodup_cons, List.mem_append, not_or, List.nodup_append, hapart]

/-- A lookup fails exactly for the names that are not in the forest. -/
theorem find?_eq_none {f : Forest α} {id : Nat} : f.find? id = none ↔ id ∉ f.walk := by
  induction f with
  | nil => simp [find?]
  | node i a cs rest ihc ihr =>
    by_cases h : i = id
    · simp [find?, h]
    · have h' : ¬ id = i := fun e => h e.symm
      simp [find?, h, h', ← ihc, ← ihr]

/-- The test agrees with the list of the names. -/
theorem contains_iff {f : Forest α} {id : Nat} : f.contains id = true ↔ id ∈ f.walk := by
  rw [contains, Option.isSome_iff_ne_none, ne_eq, find?_eq_none, Decidable.not_not]

/-- A node that holds something is in the forest. -/
theorem mem_walk_of_content? {f : Forest α} {id : Nat} {a : α} (h : f.content? id = some a) :
    id ∈ f.walk := by
  rw [← contains_iff, contains]
  rw [content?] at h
  cases hf : f.find? id with
  | none => rw [hf] at h; exact absurd h (by simp)
  | some e => rfl

/-- A name that is not in the first forest is looked up in the second one. -/
theorem find?_append_of_notMem {f : Forest α} {id : Nat} (h : id ∉ f.walk) (g : Forest α) :
    (f ++ g).find? id = g.find? id := by
  induction f with
  | nil => rfl
  | node i a cs rest _ ih =>
    obtain ⟨hi, hc, hr⟩ := notMem_walk_node.1 h
    rw [node_append, find?, if_neg hi, find?_eq_none.2 hc, ih hr]
    rfl

/-- A name that is not in a forest has no path in it. -/
theorem ancestors?_of_notMem {f : Forest α} {id : Nat} (h : id ∉ f.walk) :
    f.ancestors? id = none := by
  induction f with
  | nil => rfl
  | node i a cs rest ihc ihr =>
    obtain ⟨hi, hc, hr⟩ := notMem_walk_node.1 h
    rw [ancestors?, if_neg hi, ihc hc, ihr hr]

/-- The path to a name that is not in the first forest is that in the second one. -/
theorem ancestors?_append_of_notMem {f : Forest α} {id : Nat} (h : id ∉ f.walk)
    (g : Forest α) : (f ++ g).ancestors? id = g.ancestors? id := by
  induction f with
  | nil => rfl
  | node i a cs rest _ ih =>
    obtain ⟨hi, hc, hr⟩ := notMem_walk_node.1 h
    rw [node_append, ancestors?, if_neg hi, ancestors?_of_notMem hc, ih hr]

/-- Nothing changes with a name that is not there. -/
theorem update_of_notMem {f : Forest α} {id : Nat} (h : id ∉ f.walk) (u : α → α) :
    f.update id u = f := by
  induction f with
  | nil => rfl
  | node i a cs rest ihc ihr =>
    obtain ⟨hi, hc, hr⟩ := notMem_walk_node.1 h
    rw [update, if_neg hi, ihc hc, ihr hr]

/-- Changing contents keeps the names. -/
@[simp] theorem walk_update (id : Nat) (u : α → α) (f : Forest α) :
    (f.update id u).walk = f.walk := by
  induction f with
  | nil => rfl
  | node i a cs rest ihc ihr => rw [update, walk_node, ihc, ihr, walk_node]

/-- Nothing is taken out with a name that is not there. -/
theorem splice_of_notMem {f : Forest α} {id : Nat} (h : id ∉ f.walk) : f.splice id = f := by
  induction f with
  | nil => rfl
  | node i a cs rest ihc ihr =>
    obtain ⟨hi, hc, hr⟩ := notMem_walk_node.1 h
    rw [splice, if_neg hi, ihc hc, ihr hr]

/-- A name that is not in the first forest is taken out of the second one. -/
theorem splice_append_of_notMem {f : Forest α} {id : Nat} (h : id ∉ f.walk) (g : Forest α) :
    (f ++ g).splice id = f ++ g.splice id := by
  induction f with
  | nil => rfl
  | node i a cs rest _ ih =>
    obtain ⟨hi, hc, hr⟩ := notMem_walk_node.1 h
    rw [node_append, splice, if_neg hi, splice_of_notMem hc, ih hr, node_append]

/-- No tree is taken out with a name that is not there. -/
theorem without_of_notMem {f : Forest α} {id : Nat} (h : id ∉ f.walk) : f.without id = f := by
  induction f with
  | nil => rfl
  | node i a cs rest ihc ihr =>
    obtain ⟨hi, hc, hr⟩ := notMem_walk_node.1 h
    rw [without, if_neg hi, ihc hc, ihr hr]

/-- A tree whose root is not in the first forest is taken out of the second one. -/
theorem without_append_of_notMem {f : Forest α} {id : Nat} (h : id ∉ f.walk)
    (g : Forest α) : (f ++ g).without id = f ++ g.without id := by
  induction f with
  | nil => rfl
  | node i a cs rest _ ih =>
    obtain ⟨hi, hc, hr⟩ := notMem_walk_node.1 h
    rw [node_append, without, if_neg hi, without_of_notMem hc, ih hr,
      node_append]

/-- Nothing is put below a name that is not there. -/
theorem attach_of_notMem {f : Forest α} {id : Nat} (h : id ∉ f.walk) (trees : Forest α) :
    f.attach id trees = f := by
  induction f with
  | nil => rfl
  | node i a cs rest ihc ihr =>
    obtain ⟨hi, hc, hr⟩ := notMem_walk_node.1 h
    rw [attach, if_neg hi, ihc hc, ihr hr]

/-- What goes below a name that is not in the first forest goes into the second one. -/
theorem attach_append_of_notMem {f : Forest α} {id : Nat} (h : id ∉ f.walk)
    (g trees : Forest α) : (f ++ g).attach id trees = f ++ g.attach id trees := by
  induction f with
  | nil => rfl
  | node i a cs rest _ ih =>
    obtain ⟨hi, hc, hr⟩ := notMem_walk_node.1 h
    rw [node_append, attach, if_neg hi, attach_of_notMem hc, ih hr, node_append]

/-- A forest has an only tree exactly if nothing comes after its first one. -/
theorem single?_eq_some {f : Forest α} {i : Nat} {a : α} {cs : Forest α} :
    f.single? = some (i, a, cs) ↔ f = node i a cs nil := by
  cases f with
  | nil => simp [single?]
  | node j b cs' rest => cases rest <;> simp [single?]

/-- The children of a node are not lifted by a node that is not their root. -/
theorem lift_node_of_notMem {cs : Forest α} {id : Nat} (h : id ∉ cs.roots) (p : Nat) (a : α)
    (rest : Forest α) : (node p a cs rest).lift id = node p a (cs.lift id) (rest.lift id) := by
  rw [lift]
  cases hs : cs.single? with
  | none => rfl
  | some t =>
    -- there is an only child, but it has another name
    obtain ⟨i, b, gc⟩ := t
    have hi : i ≠ id := fun e => h (by rw [single?_eq_some.1 hs, e]; simp [roots])
    simp only [if_neg hi]

/-- Nothing is exchanged with a name that is not there. -/
theorem lift_of_notMem {f : Forest α} {id : Nat} (h : id ∉ f.walk) : f.lift id = f := by
  induction f with
  | nil => rfl
  | node i a cs rest ihc ihr =>
    obtain ⟨hi, hc, hr⟩ := notMem_walk_node.1 h
    rw [lift_node_of_notMem (fun hm => hc (mem_walk_of_mem_roots hm)), ihc hc, ihr hr]

/-- A name that is not in the first forest is exchanged with its parent in the second one. -/
theorem lift_append_of_notMem {f : Forest α} {id : Nat} (h : id ∉ f.walk) (g : Forest α) :
    (f ++ g).lift id = f ++ g.lift id := by
  induction f with
  | nil => rfl
  | node i a cs rest _ ih =>
    obtain ⟨hi, hc, hr⟩ := notMem_walk_node.1 h
    rw [node_append, lift_node_of_notMem (fun hm => hc (mem_walk_of_mem_roots hm)),
      lift_of_notMem hc, ih hr, node_append]

/-! ### Frames -/

/-- A node without its children, and the trees before and after it. -/
structure Frame (α : Type) where
  before : Forest α
  id : Nat
  content : α
  after : Forest α

namespace Frame

/-- Puts the children into a frame. -/
def close (fr : Frame α) (children : Forest α) : Forest α :=
  fr.before ++ node fr.id fr.content children fr.after

/-- The names of the nodes of a frame. -/
def names (fr : Frame α) : List Nat := fr.before.walk ++ fr.id :: fr.after.walk

/-- Changes the content of a node in a frame. -/
def update (id : Nat) (u : α → α) (fr : Frame α) : Frame α where
  before := fr.before.update id u
  id := fr.id
  content := if fr.id = id then u fr.content else fr.content
  after := fr.after.update id u

@[simp] theorem update_before (id : Nat) (u : α → α) (fr : Frame α) :
    (fr.update id u).before = fr.before.update id u :=
  rfl

@[simp] theorem update_after (id : Nat) (u : α → α) (fr : Frame α) :
    (fr.update id u).after = fr.after.update id u :=
  rfl

@[simp] theorem update_id (id : Nat) (u : α → α) (fr : Frame α) : (fr.update id u).id = fr.id :=
  rfl

/-- A closed frame is changed in the frame and in the children. -/
theorem update_close (id : Nat) (u : α → α) (fr : Frame α) (cs : Forest α) :
    (fr.close cs).update id u = (fr.update id u).close (cs.update id u) := by
  simp [close, Forest.update, Frame.update]

/-- Nothing in a frame changes with a name that is not there. -/
theorem update_of_notMem {id : Nat} {fr : Frame α} (h : id ∉ fr.names) (u : α → α) :
    fr.update id u = fr := by
  simp only [names, List.mem_append, List.mem_cons, not_or] at h
  rw [update, Forest.update_of_notMem h.1, Forest.update_of_notMem h.2.2,
    if_neg (fun e => h.2.1 e.symm)]

/-- The children in a frame add no roots to it. -/
@[simp] theorem length_roots_close (fr : Frame α) (cs : Forest α) :
    (fr.close cs).roots.length = fr.before.roots.length + 1 + fr.after.roots.length := by
  simp [close, roots]
  omega

end Frame

/-- Puts trees into the hole of a forest: below the first frame, which is below the second. -/
def fill : List (Frame α) → Forest α → Forest α
  | [], t => t
  | fr :: up, t => fill up (fr.close t)

/-- The names of the nodes around the hole. -/
def outside (up : List (Frame α)) : List Nat := up.flatMap Frame.names

/-- The names around a hole are those of the first frame and those around that. -/
@[simp] theorem outside_cons (fr : Frame α) (up : List (Frame α)) :
    outside (fr :: up) = fr.names ++ outside up := by
  simp [outside]

/-- A name that is not around a hole is in no part of the first frame, nor around that. -/
theorem notMem_outside_cons {id : Nat} {fr : Frame α} {up : List (Frame α)} :
    id ∉ outside (fr :: up) ↔
      (id ∉ fr.before.walk ∧ fr.id ≠ id ∧ id ∉ fr.after.walk) ∧ id ∉ outside up := by
  rw [outside_cons, Frame.names, List.mem_append, List.mem_append, List.mem_cons, not_or, not_or,
    not_or, eq_comm]

/-- A hole may be filled in two steps: with the inner frames first, and with the outer ones around
    that. -/
theorem fill_append (xs ys : List (Frame α)) (t : Forest α) :
    fill (xs ++ ys) t = fill ys (fill xs t) := by
  induction xs generalizing t with
  | nil => rfl
  | cons fr xs ih => exact ih (fr.close t)

/-- The nodes of a forest are those around the hole and those in it. -/
theorem walk_fill_perm (up : List (Frame α)) (t : Forest α) :
    (fill up t).walk.Perm (outside up ++ t.walk) := by
  induction up generalizing t with
  | nil => exact .refl _
  | cons fr up ih =>
    -- the walk has the names in another order, so they are counted
    refine (ih (fr.close t)).trans ?_
    simp only [List.perm_iff_count, Frame.close, walk_append, walk_node, outside_cons, Frame.names,
      List.count_append, List.count_cons]
    omega

/-- With trees before a forest, each of its nodes is the first frame of a way to fill both. -/
private theorem exists_fill_append (id : Nat) (f : Forest α) (h : id ∈ f.walk) (pre : Forest α) :
    ∃ fr up cs, pre ++ f = fill (fr :: up) cs ∧ fr.id = id := by
  -- the trees before are general, because those passed on the way become part of them
  induction f generalizing pre with
  | nil => simp at h
  | node i a cs rest ihc ihr =>
    simp only [walk_node, List.mem_cons, List.mem_append] at h
    rcases h with rfl | h | h
    · exact ⟨⟨pre, id, a, rest⟩, [], cs, rfl, rfl⟩
    -- below the root, whose frame is then the outermost one
    · obtain ⟨fr, up, t, ht, hid⟩ := ihc h nil
      refine ⟨fr, up ++ [⟨pre, i, a, rest⟩], t, ?_, hid⟩
      rw [← List.cons_append, fill_append, ← ht]
      rfl
    -- after the root, whose tree joins those before
    · obtain ⟨fr, up, t, ht, hid⟩ := ihr h (pre ++ node i a cs nil)
      exact ⟨fr, up, t, by rw [← ht, append_assoc]; rfl, hid⟩

/-- Every node of a forest is the first frame of a way to fill it. -/
theorem exists_fill_of_mem {f : Forest α} {id : Nat} (h : id ∈ f.walk) :
    ∃ fr up cs, f = fill (fr :: up) cs ∧ fr.id = id :=
  exists_fill_append id f h nil

/-! ### Views and edits of the hole -/

/-- Changing a node changes it in the frames and in the hole. -/
theorem update_fill (id : Nat) (u : α → α) (up : List (Frame α)) (t : Forest α) :
    (fill up t).update id u = fill (up.map (Frame.update id u)) (t.update id u) := by
  induction up generalizing t with
  | nil => rfl
  | cons fr up ih => rw [fill, ih, Frame.update_close]; rfl

/-- Nothing around a hole changes with a name that is not there. -/
theorem map_update_of_notMem {id : Nat} {up : List (Frame α)} (h : id ∉ outside up) (u : α → α) :
    up.map (Frame.update id u) = up := by
  induction up with
  | nil => rfl
  | cons fr up ih =>
    simp only [outside_cons, List.mem_append, not_or] at h
    rw [List.map_cons, Frame.update_of_notMem h.1, ih h.2]

variable {id : Nat} {up : List (Frame α)}

/-- A name that is not around the hole is looked up in it. -/
theorem find?_fill (h : id ∉ outside up) (t : Forest α) : (fill up t).find? id = t.find? id := by
  induction up generalizing t with
  | nil => rfl
  | cons fr up ih =>
    obtain ⟨⟨hb, hi, ha⟩, hup⟩ := notMem_outside_cons.1 h
    rw [fill, ih hup, Frame.close, find?_append_of_notMem hb, find?,
      if_neg hi, find?_eq_none.2 ha]
    cases t.find? id <;> rfl

/-- A node that is not around the hole is taken out in it. -/
theorem splice_fill (h : id ∉ outside up) (t : Forest α) :
    (fill up t).splice id = fill up (t.splice id) := by
  induction up generalizing t with
  | nil => rfl
  | cons fr up ih =>
    obtain ⟨⟨hb, hi, ha⟩, hup⟩ := notMem_outside_cons.1 h
    rw [fill, ih hup, Frame.close, splice_append_of_notMem hb, splice,
      if_neg hi, splice_of_notMem ha]
    rfl

/-- A tree whose root is not around the hole is taken out in it. -/
theorem without_fill (h : id ∉ outside up) (t : Forest α) :
    (fill up t).without id = fill up (t.without id) := by
  induction up generalizing t with
  | nil => rfl
  | cons fr up ih =>
    obtain ⟨⟨hb, hi, ha⟩, hup⟩ := notMem_outside_cons.1 h
    rw [fill, ih hup, Frame.close, without_append_of_notMem hb, without,
      if_neg hi, without_of_notMem ha]
    rfl

/-- What goes below a name that is not around the hole goes into it. -/
theorem attach_fill (h : id ∉ outside up) (t trees : Forest α) :
    (fill up t).attach id trees = fill up (t.attach id trees) := by
  induction up generalizing t with
  | nil => rfl
  | cons fr up ih =>
    obtain ⟨⟨hb, hi, ha⟩, hup⟩ := notMem_outside_cons.1 h
    rw [fill, ih hup, Frame.close, attach_append_of_notMem hb, attach,
      if_neg hi, attach_of_notMem ha]
    rfl

/-- A node below the roots of the hole is lifted there. -/
theorem lift_fill (h : id ∉ outside up) {t : Forest α} (ht : id ∉ t.roots) :
    (fill up t).lift id = fill up (t.lift id) := by
  induction up generalizing t with
  | nil => rfl
  | cons fr up ih =>
    obtain ⟨⟨hb, hi, ha⟩, hup⟩ := notMem_outside_cons.1 h
    -- seen from the frame around the hole, the node is no root there either
    have hroots : id ∉ (fr.close t).roots := by
      simp only [Frame.close, roots_append, roots, List.mem_append, List.mem_cons, not_or]
      exact ⟨fun hm => hb (mem_walk_of_mem_roots hm), hi.symm,
        fun hm => ha (mem_walk_of_mem_roots hm)⟩
    rw [fill, ih hup hroots, Frame.close, lift_append_of_notMem hb, lift_node_of_notMem ht,
      lift_of_notMem ha]
    rfl

/-- The path to a node in the hole goes on through the frames. -/
theorem ancestors?_fill (h : id ∉ outside up) (t : Forest α) {path : List Nat}
    (ht : t.ancestors? id = some path) :
    (fill up t).ancestors? id = some (path ++ up.map Frame.id) := by
  induction up generalizing t path with
  | nil => simpa [fill] using ht
  | cons fr up ih =>
    obtain ⟨⟨hb, hi, ha⟩, hup⟩ := notMem_outside_cons.1 h
    -- one frame: its node comes last on the path, as it is the farthest up
    have hclose : (fr.close t).ancestors? id = some (path ++ [fr.id]) := by
      rw [Frame.close, ancestors?_append_of_notMem hb, ancestors?, if_neg hi, ht]
    rw [fill, ih hup _ hclose, List.map_cons, List.append_assoc]
    rfl

/-- The hole is in the tree of the outermost frame. -/
theorem fill_concat (up : List (Frame α)) (root : Frame α) (t : Forest α) :
    fill (up ++ [root]) t = fill [root] (fill up t) :=
  fill_append up [root] t

theorem fill_cons_concat (fr : Frame α) (up : List (Frame α)) (root : Frame α) (t : Forest α) :
    fill (fr :: (up ++ [root])) t = fill [root] (fill (fr :: up) t) :=
  fill_concat (fr :: up) root t

/-! ### The node of the first frame -/

/-- How often a name stands in a forest around a hole. -/
theorem count_walk_fill (i : Nat) (t : Forest α) :
    (fill up t).walk.count i = (outside up).count i + t.walk.count i := by
  rw [(walk_fill_perm up t).count_eq, List.count_append]

variable {fr : Frame α} {cs : Forest α}

/-- How often a name stands in a closed frame. -/
theorem count_walk_close (i : Nat) (fr : Frame α) (cs : Forest α) :
    (fr.close cs).walk.count i =
      fr.before.walk.count i + (if fr.id = i then 1 else 0) + cs.walk.count i +
        fr.after.walk.count i := by
  simp only [Frame.close, walk_append, walk_node, List.count_append, List.count_cons, beq_iff_eq]
  omega

/-- In a forest without a name twice, the name of the first frame is nowhere else. -/
theorem notMem_of_nodup_fill (h : (fill (fr :: up) cs).walk.Nodup) :
    fr.id ∉ outside up ∧ fr.id ∉ fr.before.walk ∧ fr.id ∉ cs.walk ∧ fr.id ∉ fr.after.walk := by
  -- the name is counted once at the frame, which leaves nothing for the other parts
  have := List.nodup_iff_count.1 h fr.id
  rw [fill, count_walk_fill, count_walk_close, if_pos rfl] at this
  simp only [← List.count_eq_zero]
  omega

/-- Without the node of the first frame, its name is nowhere. -/
theorem nodup_fill_drop (h : (fill (fr :: up) cs).walk.Nodup) :
    (fill up (fr.before ++ (cs ++ fr.after))).walk.Nodup ∧
      fr.id ∉ (fill up (fr.before ++ (cs ++ fr.after))).walk := by
  -- each name stands as often as before, but for the one that is left out
  have hcount (i : Nat) : (fill up (fr.before ++ (cs ++ fr.after))).walk.count i +
      (if fr.id = i then 1 else 0) = (fill (fr :: up) cs).walk.count i := by
    rw [fill, count_walk_fill, count_walk_fill, count_walk_close]
    simp only [walk_append, List.count_append]
    omega
  have hle := List.nodup_iff_count.1 h
  constructor
  · rw [List.nodup_iff_count]
    intro i
    have := hcount i
    have := hle i
    omega
  · rw [← List.count_eq_zero]
    have := hcount fr.id
    have := hle fr.id
    rw [if_pos rfl] at *
    omega

/-- Without a node below the first frame, no name stands twice. -/
theorem nodup_fill_join {i : Nat} {b : α} (h : (fill (fr :: up) (node i b cs nil)).walk.Nodup)
    (a : α) : (fill ({ fr with content := a } :: up) cs).walk.Nodup := by
  rw [List.nodup_iff_count] at h ⊢
  intro j
  have := h j
  simp only [fill, count_walk_fill, count_walk_close, walk_node, List.count_cons,
    List.count_append] at this ⊢
  omega

/-- After an exchange with the node below the first frame, no name stands twice. -/
theorem nodup_fill_rise {i : Nat} {b : α} (h : (fill (fr :: up) (node i b cs nil)).walk.Nodup)
    (b' a : α) :
    (fill ({ fr with id := i, content := b' } :: up) (node fr.id a cs nil)).walk.Nodup := by
  rw [List.nodup_iff_count] at h ⊢
  intro j
  have := h j
  simp only [fill, count_walk_fill, count_walk_close, walk_node, List.count_cons,
    List.count_append, beq_iff_eq] at this ⊢
  omega

/-- With a new last child below the first frame, no name stands twice. -/
theorem nodup_fill_put {i : Nat} (h : (fill (fr :: up) cs).walk.Nodup)
    (hi : i ∉ (fill (fr :: up) cs).walk) (b : α) :
    (fill (fr :: up) (cs ++ leaf i b)).walk.Nodup := by
  -- each name stands as often as before, but for the new one
  have hcount (j : Nat) : (fill (fr :: up) (cs ++ leaf i b)).walk.count j =
      (fill (fr :: up) cs).walk.count j + if i = j then 1 else 0 := by
    simp only [fill, count_walk_fill, count_walk_close, leaf, walk_append, walk_node, walk_nil,
      List.append_nil, List.count_append, List.count_cons, List.count_nil, beq_iff_eq]
    omega
  rw [List.nodup_iff_count] at h ⊢
  intro j
  rw [hcount]
  have := h j
  by_cases hj : i = j
  · have := List.count_eq_zero.2 (hj ▸ hi)
    rw [if_pos hj]
    omega
  · rw [if_neg hj]
    omega

/-- The node of the first frame, with what is in the hole below it. -/
theorem find?_first (h : (fill (fr :: up) cs).walk.Nodup) :
    (fill (fr :: up) cs).find? fr.id = some (fr.content, cs) := by
  obtain ⟨hup, hb, -, -⟩ := notMem_of_nodup_fill h
  rw [fill, find?_fill hup, Frame.close, find?_append_of_notMem hb, find?, if_pos rfl]

/-- The content of the node of the first frame. -/
theorem content?_first (h : (fill (fr :: up) cs).walk.Nodup) :
    (fill (fr :: up) cs).content? fr.id = some fr.content := by
  rw [content?, find?_first h, Option.map_some]

/-- The children of the node of the first frame are the roots in the hole. -/
theorem children_first (h : (fill (fr :: up) cs).walk.Nodup) :
    (fill (fr :: up) cs).children fr.id = cs.roots := by
  rw [children, find?_first h]

/-- The path to the node of the first frame is through the other frames. -/
theorem ancestors?_first (h : (fill (fr :: up) cs).walk.Nodup) :
    (fill (fr :: up) cs).ancestors? fr.id = some (up.map Frame.id) := by
  obtain ⟨hup, hb, -, -⟩ := notMem_of_nodup_fill h
  have hhere : (fr.close cs).ancestors? fr.id = some [] := by
    rw [Frame.close, ancestors?_append_of_notMem hb, ancestors?, if_pos rfl]
  rw [fill, ancestors?_fill hup _ hhere, List.nil_append]

/-- The ancestors of the node of the first frame are the nodes of the other frames. -/
theorem ancestors_first (h : (fill (fr :: up) cs).walk.Nodup) :
    (fill (fr :: up) cs).ancestors fr.id = up.map Frame.id := by
  rw [ancestors, ancestors?_first h, Option.getD_some]

/-- A change of the node of the first frame leaves everything else. -/
theorem update_first (h : (fill (fr :: up) cs).walk.Nodup) (u : α → α) :
    (fill (fr :: up) cs).update fr.id u =
      fill ({ fr with content := u fr.content } :: up) cs := by
  obtain ⟨hup, hb, hc, ha⟩ := notMem_of_nodup_fill h
  rw [update_fill, update_of_notMem hc, List.map_cons, map_update_of_notMem hup, Frame.update,
    update_of_notMem hb, update_of_notMem ha, if_pos rfl]

/-- The node of the first frame taken out, with what was in the hole in its place. -/
theorem splice_first (h : (fill (fr :: up) cs).walk.Nodup) :
    (fill (fr :: up) cs).splice fr.id = fill up (fr.before ++ (cs ++ fr.after)) := by
  obtain ⟨hup, hb, -, -⟩ := notMem_of_nodup_fill h
  rw [fill, splice_fill hup, Frame.close, splice_append_of_notMem hb, splice, if_pos rfl]

/-- The tree of the first frame taken out. -/
theorem without_first (h : (fill (fr :: up) cs).walk.Nodup) :
    (fill (fr :: up) cs).without fr.id = fill up (fr.before ++ fr.after) := by
  obtain ⟨hup, hb, -, -⟩ := notMem_of_nodup_fill h
  rw [fill, without_fill hup, Frame.close, without_append_of_notMem hb, without, if_pos rfl]

/-- Trees put below the node of the first frame come after what was in the hole. -/
theorem attach_first (h : (fill (fr :: up) cs).walk.Nodup) (trees : Forest α) :
    (fill (fr :: up) cs).attach fr.id trees = fill (fr :: up) (cs ++ trees) := by
  obtain ⟨hup, hb, -, -⟩ := notMem_of_nodup_fill h
  rw [fill, attach_fill hup, Frame.close, attach_append_of_notMem hb, attach, if_pos rfl]
  rfl

/-- The node of the first frame, an only child, exchanged with its parent. -/
theorem lift_first {i : Nat} {b : α} (h : (fill (fr :: up) (node i b cs nil)).walk.Nodup) :
    (fill (fr :: up) (node i b cs nil)).lift i =
      fill ({ fr with id := i, content := b } :: up) (node fr.id fr.content cs nil) := by
  -- the child is the first frame of a longer way, with its own children in the hole
  have h' : (fill (⟨nil, i, b, nil⟩ :: fr :: up) cs).walk.Nodup := h
  obtain ⟨hout, -, -, -⟩ := notMem_of_nodup_fill h'
  obtain ⟨⟨hb, hi, ha⟩, hup⟩ := notMem_outside_cons.1 hout
  have hroots : i ∉ (fr.close (node i b cs nil)).roots := by
    simp only [Frame.close, roots_append, roots, List.mem_append, List.mem_cons, not_or]
    exact ⟨fun hm => hb (mem_walk_of_mem_roots hm), hi.symm,
      fun hm => ha (mem_walk_of_mem_roots hm)⟩
  rw [fill, lift_fill hup hroots, Frame.close, lift_append_of_notMem hb, lift]
  simp only [single?, if_pos]
  rfl

/-! ### One place for every name -/

/-- A node that is no root before itself divides a list of trees in one way only. -/
private theorem append_node_inj {i : Nat} {b b' a a' t t' : Forest α} {c c' : α}
    (hb : i ∉ b.roots) (hb' : i ∉ b'.roots) (h : b ++ node i c t a = b' ++ node i c' t' a') :
    b = b' ∧ c = c' ∧ t = t' ∧ a = a' := by
  induction b generalizing b' with
  | nil =>
    cases b' with
    | nil => simpa using h
    | node j => exact absurd (node.inj h).1 (by simp [roots] at hb'; omega)
  | node j d ds rest _ ih =>
    simp only [roots, List.mem_cons, not_or] at hb
    cases b' with
    | nil => exact absurd (node.inj h).1 (fun e => hb.1 e.symm)
    | node j' d' ds' rest' =>
      simp only [roots, List.mem_cons, not_or] at hb'
      obtain ⟨rfl, rfl, rfl, hrest⟩ := node.inj h
      obtain ⟨rfl, h'⟩ := ih hb.2 hb'.2 hrest
      exact ⟨rfl, h'⟩

/-- In a forest without a name twice, the names on the way to a hole determine the hole. -/
theorem fill_inj {up' : List (Frame α)} {t t' : Forest α} (hn : (fill up t).walk.Nodup)
    (hid : up.map Frame.id = up'.map Frame.id) (h : fill up t = fill up' t') :
    up = up' ∧ t = t' := by
  -- from the outermost frame inward: the roots are compared first, and then what is below them
  induction up using List.reverseRecOn generalizing up' with
  | nil =>
    obtain rfl : up' = [] := by simpa using hid.symm
    exact ⟨rfl, h⟩
  | append_singleton up root ih =>
    obtain rfl | ⟨up', root', rfl⟩ := List.eq_nil_or_concat' up'
    · simp at hid
    rw [List.map_append, List.map_append] at hid
    obtain ⟨hup, hroot⟩ := List.append_inj' hid rfl
    have hroot : root.id = root'.id := (List.cons.inj hroot).1
    have hn' := hn
    rw [h, fill_concat] at hn'
    rw [fill_concat] at hn
    obtain ⟨rb, ri, rc, ra⟩ := root
    obtain ⟨rb', ri', rc', ra'⟩ := root'
    obtain rfl : ri = ri' := hroot
    rw [fill_concat, fill_concat] at h
    have hb := (notMem_of_nodup_fill hn).2.1
    have hb' := (notMem_of_nodup_fill hn').2.1
    obtain ⟨rfl, rfl, ht, rfl⟩ := append_node_inj (fun hm => hb (mem_walk_of_mem_roots hm))
      (fun hm => hb' (mem_walk_of_mem_roots hm)) h
    -- the names in the hole are among those of the whole
    have hin : (fill up t).walk.Nodup := by
      rw [List.nodup_iff_count] at hn ⊢
      intro i
      have := hn i
      rw [count_walk_fill] at this
      omega
    obtain ⟨rfl, rfl⟩ := ih hin hup ht
    exact ⟨rfl, rfl⟩

/-- A node is in one place. -/
theorem fill_first_inj {fr fr' : Frame α} {up' : List (Frame α)} {cs cs' : Forest α}
    (hn : (fill (fr :: up) cs).walk.Nodup) (hid : fr.id = fr'.id)
    (h : fill (fr :: up) cs = fill (fr' :: up') cs') : fr = fr' ∧ up = up' ∧ cs = cs' := by
  -- the name determines the ancestors, and with them the frames
  have hup : up.map Frame.id = up'.map Frame.id := by
    rw [← ancestors_first hn, hid, h]
    exact ancestors_first (h ▸ hn)
  obtain ⟨he, rfl⟩ := fill_inj hn (by rw [List.map_cons, List.map_cons, hid, hup]) h
  obtain ⟨rfl, rfl⟩ := List.cons.inj he
  exact ⟨rfl, rfl, rfl⟩

/-! ### Trees after a forest -/

/-- Trees put after those of a forest come after the outermost frame. -/
def withSibling (trees : Forest α) : List (Frame α) → List (Frame α)
  | [] => []
  | [fr] => [{ fr with after := fr.after ++ trees }]
  | fr :: fr' :: up => fr :: withSibling trees (fr' :: up)

/-- The trees come after the whole forest, whatever is in the hole. -/
theorem fill_withSibling (trees : Forest α) (fr : Frame α) (up : List (Frame α)) (t : Forest α) :
    fill (withSibling trees (fr :: up)) t = fill (fr :: up) t ++ trees := by
  induction up generalizing fr t with
  | nil => simp [withSibling, fill, Frame.close, append_assoc]
  | cons fr' up ih => exact ih fr' (fr.close t)

/-- The first frame keeps its name, and so do the others. -/
theorem exists_withSibling_cons (trees : Forest α) (fr : Frame α) (up : List (Frame α)) :
    ∃ fr' up', withSibling trees (fr :: up) = fr' :: up' ∧ fr'.id = fr.id ∧
      up'.map Frame.id = up.map Frame.id := by
  induction up generalizing fr with
  | nil => exact ⟨{ fr with after := fr.after ++ trees }, [], rfl, rfl, rfl⟩
  | cons fr' up ih =>
    obtain ⟨fr'', up', h, hid, hup⟩ := ih fr'
    exact ⟨fr, fr'' :: up', by rw [withSibling, h], rfl, by rw [List.map_cons, hid, hup]; rfl⟩

end ChartPipeline.Forest
