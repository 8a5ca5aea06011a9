import ChartPipeline.Proofs.Loading

/-!
# A pass rearranges only its own kinds

Leave out every stage of the kinds that a pass moves, each with its children in its place: what is
left is the same ordered forest before and after the pass.  Joins and exchanges happen within the
gaps, and a conversion that is put below its source comes to stand where nothing else is counted.

## Key results

- `Ascends.prune_eq`: what is left beside the stages of a pass, in one step of a climb
- `Flow.runPass_prune`: and in a whole pass
-/

namespace ChartPipeline.Forest

section Prune

variable {α : Type} {p : α → Bool} {id : Nat} {u : α → α} {f t t' : Forest α}

/-- Where the node of a frame is left out, what is below it closes the gap. -/
theorem Frame.prune_close {fr : Frame α} (h : p fr.content = true) (cs : Forest α) :
    (fr.close cs).prune p = (fr.before ++ (cs ++ fr.after)).prune p := by
  simp only [close, prune_append]
  rw [prune, if_pos h]

/-- What is left of a forest depends only on what is left in its hole. -/
theorem prune_fill_congr (h : t.prune p = t'.prune p) (up : List (Frame α)) :
    (fill up t).prune p = (fill up t').prune p := by
  -- by induction on the frames, from the hole up
  induction up generalizing t t' with
  | nil => exact h
  | cons fr up ih =>
    apply ih
    simp only [Frame.close, prune_append, prune, h]

/-- A node that is left out may hold anything else that is left out. -/
theorem prune_update (hu : ∀ a, p (u a) = true) (h : ∀ e ∈ f.toList, e.1 = id → p e.2 = true) :
    (f.update id u).prune p = f.prune p := by
  induction f with
  | nil => rfl
  | node i a cs rest ihc ihr =>
    simp only [toList, List.mem_cons, List.mem_append] at h
    have hcs := ihc fun e he => h e (.inr (.inl he))
    have hrest := ihr fun e he => h e (.inr (.inr he))
    rw [update, prune, prune, hcs, hrest]
    -- the node with this name is left out before and after; all others are the same
    by_cases hi : i = id
    · rw [if_pos hi, hu, h (i, a) (.inl rfl) hi]
      rfl
    · rw [if_neg hi]

end Prune

variable {pass : Pass} {policy : FacetPolicy} {ups ups' : List (Frame Stage)}
  {cs cs' f f' : Forest Stage} {n : Nat}

/-- A step of a climb changes nothing beside the stages that its pass moves. -/
theorem Ascends.prune_eq (h : Ascends pass policy ups cs ups' cs' n)
    (hn : (fill ups cs).walk.Nodup) :
    (fill ups' cs').prune (fun a => pass.handles a.tag) =
      (fill ups cs).prune fun a => pass.handles a.tag := by
  -- one case for each move of a climb
  cases h with
  | stay => rfl
  | @join fr parent c hmove hj up cs =>
    have hfr : pass.handles fr.content.tag = true := hj.handled
    have hparent : pass.handles parent.content.tag = true := hj.tag_eq ▸ hfr
    have hc : pass.handles c.tag = true := Stage.tag_of_merge? hj.merged ▸ hparent
    -- both stages are left out, and so is what they were joined into
    refine prune_fill_congr ?_ up
    rw [Frame.prune_close hc, Frame.prune_close hparent]
    have hclose := Frame.prune_close (p := fun a => pass.handles a.tag) hfr cs
    simp only [prune_append, hclose]
  | @rise fr parent dims hmove hr hal up cs =>
    -- the parent stays, and the gap that was below it is now above it
    obtain ⟨before, i, b, after⟩ := fr
    obtain ⟨rfl, rfl⟩ := Frame.alone_iff.1 hal
    have hfr : pass.handles b.tag = true := hr.handled
    refine prune_fill_congr ?_ up
    simp [Frame.close, prune, hfr, hr.not_handles]
  | @absorb fr parent other types types' cs up hmove hfr ho hne =>
    obtain ⟨rfl, -, -⟩ := Frame.parse_of_move hmove
    -- the stage that takes in the conversion is one itself
    have hother : ∀ e ∈ (fill (fr :: parent :: up) cs).toList, e.1 = other →
        Pass.parse.handles e.2.tag = true := by
      intro e he hid
      rw [content_eq_of_mem_toList hn ho he hid]
      rfl
    have hupdated := prune_update (p := fun a : Stage => Pass.parse.handles a.tag)
      (u := fun _ => Stage.parse (types'.union types)) (fun _ => rfl) hother
    rw [← hupdated, update_fill, List.map_cons]
    have hfr' : Pass.parse.handles
        (fr.update other fun _ => .parse (types'.union types)).content.tag = true := by
      rw [Frame.update, if_neg (Ne.symm hne), hfr]
      rfl
    refine prune_fill_congr ?_ (_ :: _)
    rw [Frame.prune_close hfr', update_append, update_append]
    rfl
  | @relocate fr parent root types hmove hfr hs up cs =>
    obtain ⟨rfl, -, -⟩ := Frame.parse_of_move hmove
    have hparse : Pass.parse.handles fr.content.tag = true := by rw [hfr]; rfl
    -- the conversion is a new first child of the source, and is left out there too
    rw [fill_concat, fill_withSibling, ← List.cons_append, ← List.cons_append, fill_concat]
    refine prune_fill_congr ?_ [root]
    have hleaf : (leaf fr.id fr.content).prune (fun a => Pass.parse.handles a.tag) = nil := by
      rw [leaf, prune, if_pos hparse]
      rfl
    rw [prune_append, hleaf, append_nil]
    exact prune_fill_congr (Frame.prune_close hparse cs).symm (parent :: up)

/-- So does any number of steps. -/
theorem prune_of_steps (h : Relation.ReflTransGen (Steps pass policy) f f') :
    f'.prune (fun a => pass.handles a.tag) = f.prune fun a => pass.handles a.tag := by
  induction h with
  | refl => rfl
  | tail _ hstep ih =>
    obtain ⟨hn, hstep⟩ := hstep
    exact (hstep.prune_eq hn).trans ih

end ChartPipeline.Forest

namespace ChartPipeline.Flow

open Forest

variable {pass : Pass} {policy : FacetPolicy} {n k : Nat} {flow flow' : Flow}

/-- A pass that comes to its end leaves all stages of other kinds as they are: where those that it
    moves are left out, the same trees stand in the same order, with the same names and contents. -/
theorem runPass_prune (hn : flow.stages.walk.Nodup)
    (h : runPass pass policy n flow = (.ok k, flow')) :
    flow'.stages.prune (fun a => pass.handles a.tag) =
      flow.stages.prune fun a => pass.handles a.tag :=
  prune_of_steps (runPass_steps h hn).1

/-- Two branches below a calculation, each with a conversion. -/
def forkedConversions : Flow :=
  { stages :=
      .node 0 (.source ⟨.named "rows", "rows"⟩)
        (.node 1 (.calculate "datum.a * 2" "b")
          (.node 2 (.parse ((∅ : ParseTypes).insert "x" "number")) (.leaf 3 (.output "left" true))
            (.node 4 (.parse ((∅ : ParseTypes).insert "y" "date")) (.leaf 5 (.output "right" true))
              .nil)) .nil) .nil,
    next := 6 }

/-- One conversion is put below the source, the other one joins it there, and both outputs still
    stand below the calculation, in their order. -/
theorem runPass_prune_forkedConversions : ∃ flow',
    forkedConversions.stages.walk.Nodup ∧
      runPass .parse .foldGroupby 3 forkedConversions = (.ok 2, flow') ∧
      flow'.stages.roots = [0] ∧ flow'.stages.children 0 = [1, 2] ∧
      flow'.stages.prune (fun a => Pass.parse.handles a.tag) =
        forkedConversions.stages.prune fun a => Pass.parse.handles a.tag := by
  have hn : forkedConversions.stages.walk.Nodup := by decide
  have hrun : runPass .parse .foldGroupby 3 forkedConversions =
      (.ok 2, (runPass .parse .foldGroupby 3 forkedConversions).2) := rfl
  exact ⟨_, hn, hrun, rfl, rfl, runPass_prune hn hrun⟩

end ChartPipeline.Flow
