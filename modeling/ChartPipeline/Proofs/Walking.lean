import ChartPipeline.Proofs.Links
import ChartPipeline.Proofs.Sweeping

/-!
# Walks from parent to parent

A climb is given the stages above a leaf before it begins.  A walk looks up the parent of where it
stands at every turn instead, in the forest as it is by then: a stage that rises is met again, above
the parent it passed, and a conversion that was put below its source is left behind.  A walk ends
after at most two turns for every stage above its leaf, and has done what the climb does.

## Key results

- `Flow.walkUp_eq`: where every tree begins with a source, a walk ends as the climb does
-/

namespace ChartPipeline.Flow

open Forest

variable {pass : Pass} {policy : FacetPolicy} {flow : Flow} {fr : Frame Stage}
  {up : List (Frame Stage)} {cs : Forest Stage} {n : Nat}

/-- Does what becomes of a stage under its parent. -/
def perform (id parent : Nat) : Move → Edit FlowFault Unit
  | .stay => pure ()
  | .join => merge parent id
  | .rise dimensions => do
    addDimensions id dimensions
    swapWithParent id
  | .relocate => relocate id

/-- Walks from a stage to its parent, and on, for at most so many turns; moves what the pass handles
on the way, and says whether the walk has come to a root. -/
def walkUp (pass : Pass) (policy : FacetPolicy) : Nat → Nat → Edit FlowFault Bool
  | 0, id => do
    let flow ← get
    pure (flow.stages.parent? id).isNone
  | n + 1, id => do
    let flow ← get
    match flow.stages.parent? id with
    | none => pure true
    | some parent =>
      perform id parent (moveOf pass policy id parent flow)
      walkUp pass policy n parent

/-- At a root a walk ends, however many turns are left. -/
theorem walkUp_root (h : flow.stages.parent? fr.id = none) :
    walkUp pass policy n fr.id flow = (.ok true, flow) := by
  cases n with
  | zero =>
    rw [walkUp, Run.bind_ok (Run.get_run flow), h]
    rfl
  | succ n =>
    rw [walkUp, Run.bind_ok (Run.get_run flow), h]
    rfl

variable {parent : Frame Stage} {flow' : Flow}

/-- One turn of a walk. -/
theorem walkUp_first (hst : flow.stages = fill (fr :: parent :: up) cs)
    (hn : flow.stages.walk.Nodup)
    (h : perform fr.id parent.id (fr.move pass policy parent) flow = (.ok (), flow')) :
    walkUp pass policy (n + 1) fr.id flow = walkUp pass policy n parent.id flow' := by
  have hparent : flow.stages.parent? fr.id = some parent.id := by
    rw [hst] at hn ⊢
    exact parent?_first (parent :: up) hn
  rw [walkUp, Run.bind_ok (Run.get_run flow), hparent]
  simp only [moveOf_first pass policy hst hn]
  exact Run.bind_ok h

/-- Where every tree begins with a source, a walk of two turns for every stage above ends at a root,
    and has done what the climb from there does. -/
theorem walkUp_eq (hst : flow.stages = fill (fr :: up) cs) (hf : flow.stages.Grounded)
    (hle : 2 * up.length ≤ n) : ∃ flow',
      climb pass policy fr.id (up.map Frame.id) flow = (.ok (), flow') ∧
        walkUp pass policy n fr.id flow = (.ok true, flow') := by
  generalize hlen : up.length = len at hle
  -- by induction on the stages above
  induction len generalizing fr up cs flow n with
  | zero =>
    obtain rfl := List.length_eq_zero_iff.1 hlen
    refine ⟨flow, rfl, walkUp_root ?_⟩
    rw [hst]
    exact parent?_first [] (hst ▸ hf.nodup)
  | succ len ih =>
    obtain ⟨parent, up, rfl⟩ := List.exists_cons_of_length_eq_add_one hlen
    obtain ⟨n, rfl⟩ := Nat.exists_eq_add_of_le' (show 2 ≤ n by omega)
    rw [List.length_cons] at hlen
    have hn := hf.nodup
    have hgrounded := hst ▸ hf
    have hclimb := climb_cons pass policy fr.id parent.id (up.map Frame.id) flow
    rw [moveOf_first pass policy hst hn] at hclimb
    rw [List.map_cons, hclimb]
    cases hmove : fr.move pass policy parent with
    | stay =>
      -- nothing has changed, and the walk goes on at the parent
      rw [walkUp_first hst hn (by rw [hmove]; rfl)]
      have hst' : flow.stages = fill (parent :: up) (fr.close cs) := hst
      exact ih hst' hf (by omega) (by omega)
    | join =>
      -- the parent has taken in the stage, and the walk goes on there
      obtain ⟨c, hj⟩ := Frame.joins_of_move hmove
      obtain ⟨flow₁, hrun, hst₁, -, -⟩ := merge_first hst hn hj
      have hf₁ := (Ascends.join hmove hj up cs).grounded hgrounded
      obtain ⟨flow', hrest, hwalk⟩ := ih (n := n + 1) hst₁ (hst₁ ▸ hf₁) (by omega) (by omega)
      refine ⟨flow', (Run.bind_ok hrun).trans hrest, ?_⟩
      rw [walkUp_first hst hn (by rw [hmove]; exact hrun)]
      exact hwalk
    | rise dims =>
      obtain ⟨hr, hal⟩ := Frame.rises_of_move hmove
      obtain ⟨flow₁, hrun, hst₁, -, -⟩ := rise_first hst hn hal dims
      have hf₁ := (Ascends.rise hmove hr hal up cs).grounded hgrounded
      obtain ⟨flow', hrest, hwalk⟩ := ih (n := n) hst₁ (hst₁ ▸ hf₁) (by omega) (by omega)
      obtain ⟨⟨⟩, flow₂, hdims, hswap⟩ := Run.bind_eq_ok hrun
      refine ⟨flow', (Run.bind_ok hdims).trans ((Run.bind_ok hswap).trans hrest), ?_⟩
      rw [walkUp_first hst hn (by rw [hmove]; exact hrun)]
      -- the walk stands at the old parent, which stays below the stage that has risen
      have hst₁' : flow₁.stages = fill (⟨nil, parent.id, parent.content, nil⟩ ::
          { parent with id := fr.id, content := fr.content.addDimensions dims } :: up) cs := hst₁
      have hstay : (⟨nil, parent.id, parent.content, nil⟩ : Frame Stage).move pass policy
          { parent with id := fr.id, content := fr.content.addDimensions dims } = .stay := by
        rw [Frame.move, if_neg (by simp [hr.not_handles])]
      have hturn := walkUp_first (n := n) hst₁' (hst₁ ▸ hf₁.nodup) (by rw [hstay]; rfl)
      exact hturn.trans hwalk
    | relocate =>
      -- the conversion is below the source now, and the ways above the old parent are as before
      obtain ⟨fr', up', cs', m, flow₁, hstep, hid, hup, hrun, hst₁, -, -⟩ :=
        relocate_first hst hn hmove fun above root habove => by
          rw [habove, ← List.cons_append] at hgrounded
          exact hgrounded.sourced.source_of_fill_concat
      have hf₁ := hstep.grounded hgrounded
      have hlen' : up'.length = len := by
        have := congrArg List.length hup
        rw [List.length_map, List.length_map] at this
        omega
      obtain ⟨flow', hrest, hwalk⟩ := ih (n := n + 1) hst₁ (hst₁ ▸ hf₁) hlen' (by omega)
      rw [hid, hup] at hrest
      refine ⟨flow', (Run.bind_ok hrun).trans hrest, ?_⟩
      rw [walkUp_first hst hn (by rw [hmove]; exact hrun), ← hid]
      exact hwalk

end ChartPipeline.Flow
