import ChartPipeline.Compiler
import ChartPipeline.Proofs.Declared
import ChartPipeline.Proofs.Delivery
import ChartPipeline.Proofs.Sweeping

/-!
# Moves below a fork

A stage whose parent has other children is never exchanged with it, since what the stage does would
then happen in the other branches too.  It is still joined into a parent of its own kind, and then
that happens: the other branches are filtered by what the stage filters by.

The flow of a chart forks only below stages that take nothing in, and passes keep it so; there a
stage that is joined or exchanged has no siblings.  Taking out outputs that nobody reads may bring
a fork below a filter, so this holds of a flow only until then.

## Key results

- `move_beside`: when the branches beside a stage that moves are filtered as before
- `moves_alone_of_ofChart`: in the flow of a chart, what moves has no siblings
- `optimizeFlow_again_filters_siblings`: a flow that is optimized for a second time
-/

namespace ChartPipeline.Flow

open Forest

variable {pass : Pass} {policy : FacetPolicy} {flow : Flow} {a b c : Stage}
  {fr parent : Frame Stage} {up : List (Frame Stage)} {cs : Forest Stage}

/-- Rows that run through a stage into which another is joined are filtered as before exactly when
    the other filters by no predicate, and drops rows for no field but those on the way. -/
theorem filtersAlike_joined_iff (hj : Joins pass a b c) {i : Nat} {w x : List (Nat × Stage)} :
    FiltersAlike (w ++ (i, a) :: x) (w ++ (i, c) :: x) ↔
      b.predicates = [] ∧ ∀ field ∈ b.dropped, field ∈ (w ++ (i, a) :: x).flatMap (·.2.dropped) := by
  -- the predicates on the way are a list, so none may be added to them
  have hpredicates : (w ++ (i, c) :: x).flatMap (·.2.predicates) =
      (w ++ (i, a) :: x).flatMap (·.2.predicates) ↔ b.predicates = [] := by
    simp only [List.flatMap_append, List.flatMap_cons, hj.predicates, List.append_assoc,
      List.append_cancel_left_eq]
    exact List.append_left_eq_self
  -- the fields are a set, so those that are there already may be added
  have hdropped (field : String) : field ∈ (w ++ (i, c) :: x).flatMap (·.2.dropped) ↔
      field ∈ (w ++ (i, a) :: x).flatMap (·.2.dropped) ∨ field ∈ b.dropped := by
    simp only [List.flatMap_append, List.flatMap_cons, List.mem_append, hj.mem_dropped]
    tauto
  constructor
  · intro h
    exact ⟨hpredicates.1 h.predicates, fun field hfield =>
      (h.dropped field).1 ((hdropped field).2 (.inr hfield))⟩
  · intro ⟨hnone, hsub⟩
    exact ⟨hpredicates.2 hnone, fun field =>
      (hdropped field).trans (or_iff_left_of_imp (hsub field))⟩

/-- When a stage is exchanged with its parent, no branch is beside it.  When it is joined into its
    parent, what is in the branches beside it stays there, and is filtered as before exactly when
    the stage filters by no predicate and drops rows for no field but those that rows were already
    dropped for. -/
theorem move_beside (hst : flow.stages = fill (fr :: parent :: up) cs)
    (hn : flow.stages.walk.Nodup) {v : Place Stage}
    (hv : v ∈ (fr.before ++ fr.after).places (trail (parent :: up))) :
    v ∈ flow.stages.places [] ∧
      match moveOf pass policy fr.id parent.id flow with
      | .rise _ => False
      | .join => ∃ flow', merge parent.id fr.id flow = (.ok (), flow') ∧
          ∃ v' ∈ flow'.stages.places [], v'.id = v.id ∧ v'.content = v.content ∧
            (FiltersAlike v.above v'.above ↔ fr.content.predicates = [] ∧
              ∀ field ∈ fr.content.dropped, field ∈ v.above.flatMap (·.2.dropped))
      | .stay | .relocate => True := by
  constructor
  -- what is beside the stage stands in the hole of its parent
  · obtain ⟨l, r, hp⟩ := places_fill (parent :: up)
    rw [hst, fill, hp, Frame.places_close]
    simp only [places_append, List.mem_append, List.mem_cons] at hv ⊢
    tauto
  rw [moveOf_first pass policy hst hn]
  cases hmove : fr.move pass policy parent with
  | stay => trivial
  | relocate => trivial
  | rise dims =>
    -- only a stage without siblings rises
    obtain ⟨hbefore, hafter⟩ := Frame.alone_iff.1 (Frame.rises_of_move hmove).2
    rw [hbefore, hafter] at hv
    exact absurd hv (by simp)
  | join =>
    obtain ⟨c, hj⟩ := Frame.joins_of_move hmove
    obtain ⟨flow', hrun, hst', -, -⟩ := merge_first hst hn hj
    -- a branch beside stays whole, and only the parent on its way has changed
    obtain ⟨u, hu, rfl⟩ := mem_places_iff.1 hv
    refine ⟨flow', hrun, u.under (trail ({ parent with content := c } :: up)), ?_, rfl, rfl, ?_⟩
    · obtain ⟨l, r, hp⟩ := places_fill ({ parent with content := c } :: up)
      have hu' : u.under (trail ({ parent with content := c } :: up)) ∈
          (fr.before ++ fr.after).places (trail ({ parent with content := c } :: up)) :=
        mem_places_iff.2 ⟨u, hu, rfl⟩
      rw [hst', hp]
      simp only [places_append, List.mem_append] at hu' ⊢
      tauto
    · simp only [Place.under, trail_cons, List.append_assoc, List.singleton_append]
      exact filtersAlike_joined_iff hj

/-- Two branches that each filter the rows that a filter above both leaves. -/
def forkedFilters : Flow :=
  { stages :=
      .node 0 (.source ⟨.named "rows", "rows"⟩)
        (.node 1 (.filter [.expression "datum.a > 0"])
          (.node 3 (.filter [.expression "datum.a > 5"]) (.leaf 4 (.output "left" true))
            (.node 5 (.filter [.expression "datum.b > 5"]) (.leaf 6 (.output "right" true))
              .nil)) .nil) .nil,
    next := 7 }

/-- The first filter of the two is joined into the one above, and the output in the other branch is
    no longer filtered as before. -/
theorem move_beside_forkedFilters : ∃ flow',
    moveOf .transforms .foldGroupby 3 1 forkedFilters = .join ∧
      merge 1 3 forkedFilters = (.ok (), flow') ∧
      ∃ v ∈ forkedFilters.stages.places [], ∃ v' ∈ flow'.stages.places [],
        v.content = .output "right" true ∧ v'.id = v.id ∧ v'.content = v.content ∧
          ¬ FiltersAlike v.above v'.above := by
  have hmove : moveOf .transforms .foldGroupby 3 1 forkedFilters = .join := rfl
  have hbeside := @move_beside .transforms .foldGroupby forkedFilters
    ⟨nil, 3, .filter [.expression "datum.a > 5"], node 5 (.filter [.expression "datum.b > 5"])
      (leaf 6 (.output "right" true)) nil⟩
    ⟨nil, 1, .filter [.expression "datum.a > 0"], nil⟩
    [⟨nil, 0, .source ⟨.named "rows", "rows"⟩, nil⟩] (leaf 4 (.output "left" true)) rfl (by decide)
    ⟨[(0, .source ⟨.named "rows", "rows"⟩), (1, .filter [.expression "datum.a > 0"]),
      (5, .filter [.expression "datum.b > 5"])], 6, .output "right" true⟩
    (.tail _ (.head _))
  rw [hmove] at hbeside
  obtain ⟨hv, flow', hrun, v', hv', hid, hcontent, hiff⟩ := hbeside
  exact ⟨flow', hmove, hrun, _, hv, v', hv', rfl, hid, hcontent,
    fun halike => absurd (hiff.1 halike).1 (by simp [Stage.predicates])⟩

/-! ### The flow of a chart -/

/-- Whatever passes have done so far to the flow of a chart, a stage that is joined into its parent
    or exchanged with it has no siblings. -/
theorem moves_alone_of_ofChart {chart : Chart} {built : Building} {f : Forest Stage}
    (hb : Building.ofChart chart = .ok built)
    (hsteps : Relation.ReflTransGen (fun f f' => ∃ pass, Steps pass policy f f')
      built.flow.stages f)
    (hf : f = fill (fr :: parent :: up) cs)
    (hmove : fr.move pass policy parent = .join ∨
      ∃ dims, fr.move pass policy parent = .rise dims) :
    fr.alone = true := by
  -- what passes keep is that nothing forks below a stage that filters
  have hlawful : f.Lawful := by
    clear hf
    induction hsteps with
    | refl => exact Building.ofChart_lawful hb
    | tail _ hstep ih =>
      obtain ⟨_, -, hascends⟩ := hstep
      exact (hascends.rewrites ih).2
  rcases hmove with hjoin | ⟨dims, hrise⟩
  · obtain ⟨c, hj⟩ := Frame.joins_of_move hjoin
    rw [hf] at hlawful
    exact hlawful.alone_of_joins hj
  · exact (Frame.rises_of_move hrise).2

/-! ### Optimizing again -/

/-- Two branches below an output that nobody reads. -/
def unreadFork : Flow :=
  { stages :=
      .node 0 (.source ⟨.named "rows", "rows"⟩)
        (.node 1 (.filter [.expression "datum.a > 0"])
          (.node 2 (.output "main" false)
            (.node 3 (.filter [.expression "datum.a > 5"]) (.leaf 4 (.output "left" true))
              (.node 5 (.filter [.expression "datum.b > 5"]) (.leaf 6 (.output "right" true))
                .nil)) .nil) .nil) .nil,
    next := 7 }

/-- The predicates on the way to a stage. -/
def predicatesAbove (flow : Flow) (id : Nat) : List (List Predicate) :=
  ((flow.stages.places []).filter (·.id = id)).map fun v => v.above.flatMap (·.2.predicates)

/-- When the output is taken out, the fork comes below the filter; when the flow is optimized for a
    second time, both branches are filtered by the predicates of both. -/
theorem optimizeFlow_again_filters_siblings : ∃ flow₁ flow₂,
    ({} : CompilerOptions).optimizeFlow unreadFork = (.ok (), flow₁) ∧
      ({} : CompilerOptions).optimizeFlow flow₁ = (.ok (), flow₂) ∧
      unreadFork.predicatesAbove 4 = [[.expression "datum.a > 0", .expression "datum.a > 5"]] ∧
      flow₁.predicatesAbove 4 = [[.expression "datum.a > 0", .expression "datum.a > 5"]] ∧
      flow₂.predicatesAbove 4 =
        [[.expression "datum.a > 0", .expression "datum.a > 5", .expression "datum.b > 5"]] := by
  have honce : (({} : CompilerOptions).optimizeFlow unreadFork).1.isOk = true := by
    decide +kernel
  have hagain : (({} : CompilerOptions).optimizeFlow
      (({} : CompilerOptions).optimizeFlow unreadFork).2).1.isOk = true := by
    decide +kernel
  refine ⟨_, _, Run.eq_ok_of_isOk honce, Run.eq_ok_of_isOk hagain, ?_⟩
  exact ⟨rfl, rfl, rfl⟩

end ChartPipeline.Flow
