import ChartPipeline.Proofs.Links

/-!
# Roots and what stands below them

The roots of a forest are given with their contents, and what stands below a root is a forest of its
own.  A forest around a hole has the same roots whatever is in the hole.

## Key results

- `mem_heads_iff`, `content?_of_mem_heads`: the roots as places of the forest
- `under_attach`: where a node that is added below another one comes to stand
- `exists_append_of_mem_heads`: a forest around one of its trees
-/

namespace ChartPipeline.Forest

variable {α : Type} {f g : Forest α} {i j p : Nat} {a : α}

/-- What stands below a root. -/
def under (i : Nat) : Forest α → Forest α
  | nil => nil
  | node j _ cs rest => if j = i then cs else rest.under i

/-- The roots with their contents. -/
def heads : Forest α → List (Nat × α)
  | nil => []
  | node i a _ rest => (i, a) :: rest.heads

/-- The roots are the names of the heads. -/
theorem map_fst_heads (f : Forest α) : f.heads.map Prod.fst = f.roots := by
  induction f with
  | nil => rfl
  | node i a cs rest _ ih => simp [heads, roots, ih]

/-- A head is a root by its name. -/
theorem mem_roots_of_mem_heads (h : (i, a) ∈ f.heads) : i ∈ f.roots := by
  rw [← map_fst_heads]
  exact List.mem_map_of_mem h

/-- The heads of two forests, one after the other. -/
@[simp] theorem heads_append (f g : Forest α) : (f ++ g).heads = f.heads ++ g.heads := by
  induction f with
  | nil => rfl
  | node i a cs rest _ ih => simp [heads, ih]

/-- The roots are the places that nothing stands above. -/
theorem mem_heads_iff : (i, a) ∈ f.heads ↔ ⟨[], i, a⟩ ∈ f.places [] := by
  induction f with
  | nil => simp [heads]
  | node j b cs rest _ ih =>
    -- below a root something stands above
    have hbelow : (⟨[], i, a⟩ : Place α) ∉ cs.places ([] ++ [(j, b)]) := by
      rw [mem_places_concat]
      rintro ⟨u, -, hu⟩
      simp [Place.under] at hu
    simp only [heads, places, List.mem_cons, List.mem_append, ih, Prod.mk.injEq, Place.mk.injEq,
      true_and, hbelow, false_or]

/-- The roots are nodes of the forest. -/
theorem mem_toList_of_mem_heads {e : Nat × α} (h : e ∈ f.heads) : e ∈ f.toList := by
  induction f with
  | nil => exact h
  | node j b cs rest _ ih =>
    rw [heads, List.mem_cons] at h
    rw [toList, List.mem_cons, List.mem_append]
    exact h.imp id fun h => .inr (ih h)

/-- Nothing stands below a name that is no root. -/
theorem under_of_notMem (h : i ∉ f.roots) : f.under i = nil := by
  induction f with
  | nil => rfl
  | node j b cs rest _ ih =>
    obtain ⟨hj, hr⟩ := not_or.1 (mt List.mem_cons.2 h)
    rw [under, if_neg (Ne.symm hj), ih hr]

/-- What stands below a root of the first of two forests. -/
theorem under_append_of_mem (h : i ∈ f.roots) (g : Forest α) : (f ++ g).under i = f.under i := by
  induction f with
  | nil => exact absurd h (by simp [roots])
  | node j b cs rest _ ih =>
    rw [node_append, under, under]
    split
    · rfl
    · next hj => exact ih ((List.mem_cons.1 h).resolve_left (Ne.symm hj))

/-- What stands below a root of the second of two forests. -/
theorem under_append_of_notMem (h : i ∉ f.roots) (g : Forest α) :
    (f ++ g).under i = g.under i := by
  induction f with
  | nil => rfl
  | node j b cs rest _ ih =>
    obtain ⟨hj, hr⟩ := not_or.1 (mt List.mem_cons.2 h)
    rw [node_append, under, if_neg (Ne.symm hj), ih hr]

/-- A new root has nothing below it. -/
theorem under_append_leaf (f : Forest α) (j : Nat) (a : α) :
    (f ++ leaf j a).under i = f.under i := by
  by_cases h : i ∈ f.roots
  · exact under_append_of_mem h _
  · rw [under_append_of_notMem h, under_of_notMem h]
    simp [leaf, under]

/-- How often a name stands below a root. -/
theorem count_walk_under_le (x : Nat) : (f.under i).walk.count x ≤ f.walk.count x := by
  induction f with
  | nil => exact Nat.le_refl _
  | node j b cs rest _ ih =>
    rw [under, walk_node, List.count_cons, List.count_append]
    split <;> omega

/-- No name stands twice below a root. -/
theorem nodup_under (hn : f.walk.Nodup) : (f.under i).walk.Nodup := by
  rw [List.nodup_iff_count] at hn ⊢
  exact fun x => Nat.le_trans (count_walk_under_le x) (hn x)

/-- What stands below a root is in the forest. -/
theorem mem_walk_of_mem_under (h : p ∈ (f.under i).walk) : p ∈ f.walk := by
  rw [← List.count_pos_iff] at h ⊢
  exact Nat.lt_of_lt_of_le h (count_walk_under_le p)

/-- What stands below a root is no root, and stands below no other one. -/
theorem under_apart (hn : f.walk.Nodup) (h : p ∈ (f.under i).walk) :
    p ∉ f.roots ∧ ∀ j, p ∈ (f.under j).walk → j = i := by
  induction f with
  | nil => exact absurd h (by simp [under])
  | node k b cs rest _ ih =>
    obtain ⟨hk, -, hrest, hapart⟩ := nodup_walk_node.1 hn
    rw [roots, List.mem_cons, not_or]
    simp only [under] at h ⊢
    -- the name stands below the first root, or in the trees after it
    by_cases hki : k = i
    · rw [if_pos hki] at h
      refine ⟨⟨fun e => hk.1 (e ▸ h), fun hr => hapart p h (mem_walk_of_mem_roots hr)⟩,
        fun j hj => ?_⟩
      split at hj
      · next hkj => exact hkj.symm.trans hki
      · exact absurd (mem_walk_of_mem_under hj) (hapart p h)
    · rw [if_neg hki] at h
      obtain ⟨hroots, hsame⟩ := ih hrest h
      have hp := mem_walk_of_mem_under h
      refine ⟨⟨fun e => hk.2 (e ▸ hp), hroots⟩, fun j hj => ?_⟩
      split at hj
      · exact absurd hp (hapart p hj)
      · exact hsame j hj

/-- A node is a root or stands below one. -/
theorem mem_roots_or_under (hn : f.roots.Nodup) (h : p ∈ f.walk) :
    p ∈ f.roots ∨ ∃ i ∈ f.roots, p ∈ (f.under i).walk := by
  induction f with
  | nil => exact absurd h (by simp)
  | node j b cs rest _ ih =>
    obtain ⟨hj, hrest⟩ := List.nodup_cons.1 hn
    simp only [walk_node, List.mem_cons, List.mem_append] at h
    rcases h with rfl | h | h
    · exact .inl List.mem_cons_self
    · exact .inr ⟨j, List.mem_cons_self, by rwa [under, if_pos rfl]⟩
    · refine (ih hrest h).imp (List.mem_cons_of_mem _) ?_
      rintro ⟨i, hi, h⟩
      refine ⟨i, List.mem_cons_of_mem _ hi, ?_⟩
      rwa [under, if_neg (fun e : j = i => hj (e ▸ hi))]

/-- A node that is added comes to stand below the root that its parent stands below, or is. -/
theorem under_attach (hn : f.walk.Nodup) (g : Forest α) :
    (f.attach p g).under i =
      (f.under i).attach p g ++ if p = i ∧ i ∈ f.roots then g else nil := by
  induction f with
  | nil => simp [attach, under, roots]
  | node j b cs rest _ ih =>
    obtain ⟨hj, -, hrest, -⟩ := nodup_walk_node.1 hn
    rw [attach]
    -- whether the first root is the one looked below, and whether it is the parent
    by_cases hji : j = i
    · subst hji
      by_cases hjp : j = p
      · subst hjp
        rw [if_pos rfl, under, if_pos rfl, under, if_pos rfl, attach_of_notMem hj.1,
          if_pos ⟨rfl, by simp [roots]⟩]
      · rw [if_neg hjp, under, if_pos rfl, under, if_pos rfl, if_neg fun h => hjp h.1.symm,
          append_nil]
    · by_cases hjp : j = p
      · subst hjp
        have hout : j ∉ (rest.under i).walk := fun h => hj.2 (mem_walk_of_mem_under h)
        rw [if_pos rfl, under, if_neg hji, under, if_neg hji, attach_of_notMem hout,
          if_neg fun h => hji h.1, append_nil]
      · rw [if_neg hjp, under, if_neg hji, under, if_neg hji, ih hrest, roots]
        simp only [List.mem_cons, Ne.symm hji, false_or]

/-- Adding below a node leaves the roots as they are. -/
@[simp] theorem heads_attach (f : Forest α) (p : Nat) (g : Forest α) :
    (f.attach p g).heads = f.heads := by
  induction f with
  | nil => rfl
  | node j b cs rest _ ih =>
    rw [attach]
    split
    · rfl
    · rw [heads, heads, ih]

/-- Changing a node that is no root leaves the roots as they are. -/
theorem heads_update_of_notMem (h : i ∉ f.roots) (u : α → α) : (f.update i u).heads = f.heads := by
  induction f with
  | nil => rfl
  | node j b cs rest _ ih =>
    obtain ⟨hj, hrest⟩ := not_or.1 (mt List.mem_cons.2 h)
    rw [update, if_neg (Ne.symm hj), heads, heads, ih hrest]

/-- A forest is put together of a tree and the trees before and after it. -/
theorem exists_append_of_mem_heads (hn : f.roots.Nodup) (h : (i, a) ∈ f.heads) :
    ∃ before after, f = before ++ (node i a (f.under i) nil ++ after) := by
  induction f with
  | nil => exact absurd h (by simp [heads])
  | node j b cs rest _ ih =>
    obtain ⟨hj, hrest⟩ := List.nodup_cons.1 hn
    rcases List.mem_cons.1 h with he | h
    · obtain ⟨rfl, rfl⟩ := Prod.mk.inj he
      exact ⟨nil, rest, by simp [under]⟩
    · have hji : j ≠ i := fun e => hj (e ▸ mem_roots_of_mem_heads h)
      obtain ⟨before, after, heq⟩ := ih hrest h
      refine ⟨node j b cs before, after, ?_⟩
      rw [under, if_neg hji, node_append, ← heq]

/-- A root has a content. -/
theorem exists_mem_heads (h : i ∈ f.roots) : ∃ a, (i, a) ∈ f.heads := by
  rw [← map_fst_heads] at h
  obtain ⟨⟨j, a⟩, he, rfl⟩ := List.mem_map.1 h
  exact ⟨a, he⟩

/-- A node below a root is one of the forest, with its content. -/
theorem mem_toList_of_mem_under {e : Nat × α} (h : e ∈ (f.under i).toList) : e ∈ f.toList := by
  induction f with
  | nil => exact h
  | node j b cs rest _ ih =>
    rw [toList, List.mem_cons, List.mem_append]
    rw [under] at h
    split at h
    · exact .inr (.inl h)
    · exact .inr (.inr (ih h))

/-- A root is its own root. -/
theorem rootOf_of_mem_roots (hn : f.walk.Nodup) (h : i ∈ f.roots) : f.rootOf i = i := by
  obtain ⟨fr, cs, rfl, rfl⟩ := exists_close_of_mem_roots h
  have hanc : (fr.close cs).ancestors fr.id = [] := @ancestors_first _ [] fr cs hn
  rw [rootOf, hanc]
  rfl

/-- What stands below a root has it as its root. -/
theorem rootOf_of_mem_under (hn : f.walk.Nodup) (h : p ∈ (f.under i).walk) : f.rootOf p = i := by
  have hi : i ∈ f.roots := by
    by_contra hi
    rw [under_of_notMem hi] at h
    exact absurd h (by simp)
  obtain ⟨a, ha⟩ := exists_mem_heads hi
  obtain ⟨before, after, heq⟩ := exists_append_of_mem_heads (nodup_roots hn) ha
  obtain ⟨fr, up, cs, hunder, rfl⟩ := exists_fill_of_mem h
  -- the frame of the root is the outermost one around the node
  have hfill : f = fill (fr :: (up ++ [⟨before, i, a, after⟩])) cs := by
    rw [fill_cons_concat, ← hunder]
    exact heq
  rw [hfill] at hn ⊢
  rw [rootOf, ancestors_first hn, List.map_append]
  exact List.getLastD_concat

/-! ### Around a hole -/

/-- The roots around a hole do not depend on what is in it. -/
theorem heads_fill (fr : Frame α) (up : List (Frame α)) (t t' : Forest α) :
    (fill (fr :: up) t).heads = (fill (fr :: up) t').heads := by
  induction up generalizing fr t t' with
  | nil => simp [fill, Frame.close, heads]
  | cons fr' up ih => exact ih fr' (fr.close t) (fr.close t')

/-- What is in a hole has no name twice if the whole forest has none. -/
theorem nodup_of_fill {up : List (Frame α)} (hn : (fill up f).walk.Nodup) : f.walk.Nodup := by
  rw [List.nodup_iff_count] at hn ⊢
  intro i
  have := hn i
  rw [count_walk_fill] at this
  omega

/-- What is in a hole is not around it. -/
theorem notMem_outside_of_mem_heads {up : List (Frame α)} (hn : (fill up f).walk.Nodup)
    (h : (i, a) ∈ f.heads) : i ∉ outside up := by
  have hin := mem_walk_of_mem_roots (mem_roots_of_mem_heads h)
  have hone := List.nodup_iff_count.1 hn i
  -- the name is counted once, and that inside
  rw [count_walk_fill] at hone
  rw [← List.count_pos_iff] at hin
  rw [← List.count_eq_zero]
  omega

/-- A root in a hole holds what it holds in the whole forest. -/
theorem content?_of_mem_heads {up : List (Frame α)} (hn : (fill up f).walk.Nodup)
    (h : (i, a) ∈ f.heads) : (fill up f).content? i = some a := by
  obtain ⟨before, after, heq⟩ := exists_append_of_mem_heads (nodup_roots (nodup_of_fill hn)) h
  have hfill : fill up f = fill (⟨before, i, a, after⟩ :: up) (f.under i) := by
    rw [fill, Frame.close]
    exact congrArg (fill up) heq
  rw [hfill] at hn ⊢
  exact content?_first hn

end ChartPipeline.Forest
