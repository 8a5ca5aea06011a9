import ChartPipeline.Flow.Basic
import ChartPipeline.Proofs.Growing
import ChartPipeline.Proofs.Roots

/-!
# Copies of a flow

Two flows may hold the same stages under different names, and read the data of their sources from
different declarations: one forest is then a recast of the other.  Recasting commutes with the
views and edits of a forest as long as it keeps the names apart.

## Key results

- `attach_recast`, `places_recast`, `prune_recast`: edits and views of a copy
- `heads_recast`, `under_recast`: the trees of a copy
-/

namespace ChartPipeline

/-- The stage, with another source if it is one. -/
def Stage.recast (σ : Source → Source) : Stage → Stage
  | source s => source (σ s)
  | a => a

namespace Stage

variable {σ : Source → Source} {a : Stage}

/-- Another source is a source. -/
@[simp] theorem tag_recast : (a.recast σ).tag = a.tag := by
  cases a <;> rfl

/-- Only sources are replaced. -/
theorem recast_of_not_source (h : a.tag ≠ .source) : a.recast σ = a := by
  cases a <;> first | rfl | exact absurd rfl h

/-- Sources have no steps, so the steps are the same. -/
@[simp] theorem steps_recast : (a.recast σ).steps = a.steps := by
  cases a <;> rfl

/-- A source is never without effect, so a stage does nothing exactly if it did nothing before. -/
theorem isVacuous_recast (a : Stage) : (a.recast σ).isVacuous = a.isVacuous := by
  cases a <;> rfl

end Stage

namespace Forest

/-- The forest with other names and other sources. -/
def recast (ρ : Nat → Nat) (σ : Source → Source) : Forest Stage → Forest Stage
  | nil => nil
  | node i a cs rest => node (ρ i) (a.recast σ) (cs.recast ρ σ) (rest.recast ρ σ)

/-- The place in a copy. -/
def Place.recast (ρ : Nat → Nat) (σ : Source → Source) (v : Place Stage) : Place Stage where
  above := v.above.map fun e => (ρ e.1, e.2.recast σ)
  id := ρ v.id
  content := v.content.recast σ

variable {ρ ρ' : Nat → Nat} {σ : Source → Source} {f g : Forest Stage}

/-- Nothing is copied to nothing. -/
@[simp] theorem recast_nil : (nil : Forest Stage).recast ρ σ = nil := rfl

/-- A node is copied with what is below it and beside it. -/
@[simp] theorem recast_node (i : Nat) (a : Stage) (cs rest : Forest Stage) :
    (node i a cs rest).recast ρ σ =
      node (ρ i) (a.recast σ) (cs.recast ρ σ) (rest.recast ρ σ) :=
  rfl

/-- Trees are copied one by one. -/
@[simp] theorem recast_append : (f ++ g).recast ρ σ = f.recast ρ σ ++ g.recast ρ σ := by
  induction f with
  | nil => rfl
  | node i a cs rest _ ih => simp only [node_append, recast_node, ih]

/-- The names of a copy, in their order. -/
@[simp] theorem walk_recast : (f.recast ρ σ).walk = f.walk.map ρ := by
  induction f with
  | nil => rfl
  | node i a cs rest ihc ihr => simp [ihc, ihr]

/-- Only an empty forest has an empty copy. -/
@[simp] theorem isEmpty_recast : (f.recast ρ σ).isEmpty = f.isEmpty := by
  cases f <;> rfl

/-- The leaves of a copy are those of the forest. -/
@[simp] theorem leaves_recast : (f.recast ρ σ).leaves = f.leaves.map ρ := by
  induction f with
  | nil => rfl
  | node i a cs rest ihc ihr =>
    simp only [recast_node, leaves, isEmpty_recast, ihc, ihr, List.map_append]
    split <;> rfl

/-- Only the names that are there matter. -/
theorem recast_congr (h : ∀ i ∈ f.walk, ρ i = ρ' i) : f.recast ρ σ = f.recast ρ' σ := by
  induction f with
  | nil => rfl
  | node i a cs rest ihc ihr =>
    simp only [walk_node, List.mem_cons, List.mem_append] at h
    rw [recast_node, recast_node, h i (.inl rfl), ihc fun j hj => h j (.inr (.inl hj)),
      ihr fun j hj => h j (.inr (.inr hj))]

/-- Names that are kept apart are distinct in the copy exactly if they were before. -/
theorem nodup_recast (hρ : ρ.Injective) : (f.recast ρ σ).walk.Nodup ↔ f.walk.Nodup := by
  rw [walk_recast, List.nodup_map_iff hρ]

/-- The names of a copy are those of the nodes that were copied. -/
theorem mem_walk_recast (hρ : ρ.Injective) {i : Nat} : ρ i ∈ (f.recast ρ σ).walk ↔ i ∈ f.walk := by
  rw [walk_recast, List.mem_map_of_injective hρ]

/-- Trees are attached in a copy where their copy would be. -/
theorem attach_recast (hρ : ρ.Injective) (p : Nat) :
    (f.attach p g).recast ρ σ = (f.recast ρ σ).attach (ρ p) (g.recast ρ σ) := by
  induction f with
  | nil => rfl
  | node i a cs rest ihc ihr =>
    rw [recast_node, attach, attach]
    -- names are kept apart, so a copy has the name that is looked for only where the forest has it
    by_cases hi : i = p
    · rw [if_pos hi, if_pos (congrArg ρ hi), recast_node, recast_append]
    · rw [if_neg hi, if_neg (hρ.ne hi), recast_node, ihc, ihr]

/-- The places of a copy are the copies of the places. -/
theorem places_recast (above : List (Nat × Stage)) :
    (f.recast ρ σ).places (above.map fun e => (ρ e.1, e.2.recast σ)) =
      (f.places above).map (Place.recast ρ σ) := by
  induction f generalizing above with
  | nil => rfl
  | node i a cs rest ihc ihr =>
    -- the node itself is copied before what is below it
    have hchildren := ihc (above ++ [(i, a)])
    rw [List.map_append] at hchildren
    rw [recast_node, places, places, List.map_cons, List.map_append, ← ihr, ← hchildren]
    rfl

/-- What is left out does not depend on the names. -/
theorem prune_recast {p : Stage → Bool} (hp : ∀ a : Stage, p (a.recast σ) = p a) :
    (f.prune p).recast ρ σ = (f.recast ρ σ).prune p := by
  induction f with
  | nil => rfl
  | node i a cs rest ihc ihr =>
    rw [recast_node, prune, prune, hp]
    split
    · rw [recast_append, ihc, ihr]
    · rw [recast_node, ihc, ihr]

/-! ### Below a root -/

/-- The roots of a copy are the copies of the roots. -/
@[simp] theorem heads_recast :
    (f.recast ρ σ).heads = f.heads.map fun e => (ρ e.1, e.2.recast σ) := by
  induction f with
  | nil => rfl
  | node i a cs rest _ ih => simp [heads, ih]

/-- So are their names. -/
theorem roots_recast : (f.recast ρ σ).roots = f.roots.map ρ := by
  rw [← map_fst_heads, heads_recast, List.map_map, ← map_fst_heads, List.map_map]
  rfl

/-- A name is that of a root in a copy exactly if it was before. -/
theorem mem_roots_recast (hρ : ρ.Injective) {i : Nat} :
    ρ i ∈ (f.recast ρ σ).roots ↔ i ∈ f.roots := by
  rw [roots_recast, List.mem_map_of_injective hρ]

/-- What is under a root of a copy is the copy of what was under the root. -/
theorem under_recast (hρ : ρ.Injective) (i : Nat) :
    (f.recast ρ σ).under (ρ i) = (f.under i).recast ρ σ := by
  induction f with
  | nil => rfl
  | node j a cs rest _ ih =>
    rw [recast_node, under, under]
    by_cases h : j = i
    · rw [if_pos h, if_pos (congrArg ρ h)]
    · rw [if_neg h, if_neg (hρ.ne h), ih]

end Forest

end ChartPipeline
