import ChartPipeline.Proofs.Zipper

/-!
# The places of a forest

A `Place` is a node with all that stands above it.  What an edit does to a forest is read off its
places: a forest around a hole has the places of what is in the hole, below the frames, and others
that do not depend on it.

## Key results

- `places_fill`, `places_fill_node`: the places of a forest around a hole, or around a node
- `places_eq_map_under`: what stands above a forest comes first above all of its places
-/

namespace ChartPipeline.Forest

variable {α : Type}

/-- A node with the nodes above it, the root first. -/
structure Place (α : Type) where
  above : List (Nat × α)
  id : Nat
  content : α

/-- The place with more nodes above. -/
def Place.under (above : List (Nat × α)) (v : Place α) : Place α :=
  { v with above := above ++ v.above }

/-- The nodes from the root down to a place. -/
def Place.route (v : Place α) : List (Nat × α) := v.above ++ [(v.id, v.content)]

/-- What is put above a place comes first on the way to it. -/
@[simp] theorem Place.route_under (above : List (Nat × α)) (v : Place α) :
    (v.under above).route = above ++ v.route := by
  simp [under, route]

/-- The places of the nodes, each before its children. -/
def places (above : List (Nat × α)) : Forest α → List (Place α)
  | nil => []
  | node i a cs rest => ⟨above, i, a⟩ :: (cs.places (above ++ [(i, a)]) ++ rest.places above)

@[simp] theorem places_nil (above : List (Nat × α)) : (nil : Forest α).places above = [] := rfl

/-- The places of two forests, one after the other. -/
theorem places_append (above : List (Nat × α)) (f g : Forest α) :
    (f ++ g).places above = f.places above ++ g.places above := by
  induction f with
  | nil => rfl
  | node i a cs rest _ ih => simp [places, ih]

/-- What stands above a forest comes first above all of its places. -/
theorem places_append_eq_map_under (above more : List (Nat × α)) (f : Forest α) :
    f.places (above ++ more) = (f.places more).map (Place.under above) := by
  induction f generalizing more with
  | nil => rfl
  | node i a cs rest ihc ihr =>
    -- the way to the children is longer by the node, so that more is general
    simp only [places, List.map_cons, List.map_append, Place.under, ← ihr, List.append_assoc,
      ← ihc]

/-- The places below some nodes are those of the forest by itself, with the nodes above. -/
theorem places_eq_map_under (above : List (Nat × α)) (f : Forest α) :
    f.places above = (f.places []).map (Place.under above) := by
  have h := places_append_eq_map_under above [] f
  rwa [List.append_nil] at h

/-- A place below some nodes is a place of the forest by itself, with the nodes above. -/
theorem mem_places_iff {above : List (Nat × α)} {f : Forest α} {v : Place α} :
    v ∈ f.places above ↔ ∃ u ∈ f.places [], u.under above = v := by
  rw [places_eq_map_under, List.mem_map]

/-- The same where the last of the nodes above is known. -/
theorem mem_places_concat {above : List (Nat × α)} {x : Nat × α} {f : Forest α} {v : Place α} :
    v ∈ f.places (above ++ [x]) ↔ ∃ u ∈ f.places [], u.under (above ++ [x]) = v :=
  mem_places_iff

/-- A place is the first root, or below it, where the root comes first on the way, or among the
    trees after it. -/
theorem mem_places_node {i : Nat} {a : α} {cs rest : Forest α} {v : Place α} :
    v ∈ (node i a cs rest).places [] ↔ v = ⟨[], i, a⟩ ∨
      (∃ u ∈ cs.places [], v = ⟨(i, a) :: u.above, u.id, u.content⟩) ∨ v ∈ rest.places [] := by
  rw [places, List.mem_cons, List.mem_append, List.nil_append, mem_places_iff]
  simp only [Place.under, List.singleton_append, eq_comm]

/-- The places are those of the nodes in their order. -/
theorem map_id_places (above : List (Nat × α)) (f : Forest α) :
    (f.places above).map Place.id = f.walk := by
  induction f generalizing above with
  | nil => rfl
  | node i a cs rest ihc ihr =>
    simp only [places, List.map_cons, List.map_append, ihc, ihr, walk_node]

/-! ### Around a hole -/

/-- The nodes from the root down to the hole. -/
def trail (up : List (Frame α)) : List (Nat × α) :=
  (up.map fun fr => (fr.id, fr.content)).reverse

@[simp] theorem trail_nil : trail ([] : List (Frame α)) = [] := rfl

/-- The innermost frame is the last node on the way to the hole. -/
@[simp] theorem trail_cons (fr : Frame α) (up : List (Frame α)) :
    trail (fr :: up) = trail up ++ [(fr.id, fr.content)] := by
  simp [trail]

/-- The places around a frame: those before it, the node, those below, and those after it. -/
theorem Frame.places_close (above : List (Nat × α)) (fr : Frame α) (cs : Forest α) :
    (fr.close cs).places above =
      fr.before.places above ++ ⟨above, fr.id, fr.content⟩ ::
        (cs.places (above ++ [(fr.id, fr.content)]) ++ fr.after.places above) := by
  rw [close, places_append, places]

/-- A forest around a hole has the places of what is in the hole and others that do not depend
    on it. -/
theorem places_fill (up : List (Frame α)) :
    ∃ l r, ∀ t : Forest α, (fill up t).places [] = l ++ (t.places (trail up) ++ r) := by
  induction up with
  | nil => exact ⟨[], [], fun t => by simp [fill]⟩
  | cons fr up ih =>
    obtain ⟨l, r, h⟩ := ih
    refine ⟨l ++ (fr.before.places (trail up) ++ [⟨trail up, fr.id, fr.content⟩]),
      fr.after.places (trail up) ++ r, fun t => ?_⟩
    -- the frame closes around the trees, and the outer frames around that
    rw [fill, h, Frame.places_close]
    simp

/-- A forest around a node has the node itself, what is below it, and other places that do not
    depend on either. -/
theorem places_fill_node (before after : Forest α) (up : List (Frame α)) :
    ∃ l r, ∀ i a (cs : Forest α), (fill (⟨before, i, a, after⟩ :: up) cs).places [] =
      l ++ ⟨trail up, i, a⟩ :: (cs.places (trail up ++ [(i, a)]) ++ r) := by
  obtain ⟨l, r, h⟩ := places_fill up
  refine ⟨l ++ before.places (trail up), after.places (trail up) ++ r, fun i a cs => ?_⟩
  rw [fill, h, Frame.places_close]
  simp

end ChartPipeline.Forest
