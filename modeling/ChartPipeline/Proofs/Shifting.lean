import ChartPipeline.Proofs.Loading
import ChartPipeline.Proofs.Yielding

/-!
# All passes over a hoisted flow

Once hoisted, every conversion stands right below its source.  When all passes run again, other
stages may come to stand above it for a while, but only on its own strand, above which there is
nothing but the source.  So no conversion has to be put elsewhere: every pass, that for conversions
as well, changes the strands and nothing else, and what was shown of ways is shown of the flow.

## Key results

- `Ascends.shifts`: a step of a climb shifts one strand, where conversions are near their sources
- `unbundle_strands`: a forest is known from its strands
- `Flow.runPasses_eq_iff`: all passes leave a flow as it was if none of its strands is loose
-/

namespace ChartPipeline.Forest

variable {α β : Type} {pass : Pass} {policy : FacetPolicy} {f f' : Forest Stage}
  {w w' : List (Nat × Stage)} {ups ups' up : List (Frame Stage)} {cs cs' : Forest Stage} {n : Nat}

/-! ### Forests of one shape -/

/-- Forests that are related one way are related the other way round. -/
theorem Forall₂.flip {R : α → β → Prop} {f : Forest α} {g : Forest β} (h : Forall₂ R f g) :
    Forall₂ (fun b a => R a b) g f := by
  induction h with
  | nil => exact .nil
  | node h _ _ ihc ihr => exact .node h ihc ihr

/-- A weaker relation holds as well. -/
theorem Forall₂.imp {R S : α → β → Prop} (hRS : ∀ a b, R a b → S a b) {f : Forest α}
    {g : Forest β} (h : Forall₂ R f g) : Forall₂ S f g := by
  induction h with
  | nil => exact .nil
  | node h _ _ ihc ihr => exact .node (hRS _ _ h) ihc ihr

/-- Where a forest is related to itself, each of its nodes is. -/
theorem Forall₂.forall_self {R : α → α → Prop} {f : Forest α} (h : Forall₂ R f f) :
    ∀ e ∈ f.toList, R e.2 e.2 := by
  induction f with
  | nil => simp [toList]
  | node i a cs rest ihc ihr =>
    cases h with
    | node h hc hr =>
      intro e he
      simp only [toList, List.mem_cons, List.mem_append] at he
      rcases he with rfl | he | he
      · exact h
      · exact ihc hc e he
      · exact ihr hr e he

/-- The forest that strands are those of. -/
def unbundle : Forest (List (Nat × α)) → Forest α
  | nil => nil
  | node _ w cs rest => fill (w.map Frame.only).reverse cs.unbundle ++ rest.unbundle

/-- Equal strands are those of one forest. -/
theorem Forall₂.unbundle_eq {S T : Forest (List (Nat × α))} (h : Forall₂ Eq S T) :
    S.unbundle = T.unbundle := by
  induction h with
  | nil => rfl
  | node h _ _ ihc ihr => rw [unbundle, unbundle, h, ihc, ihr]

/-- A strand goes on as the forest that it opens. -/
theorem unbundle_opening (S : Forest (List (Nat × α))) :
    fill ((opening S).1.map Frame.only).reverse (opening S).2.unbundle = S.unbundle := by
  -- only a tree alone is opened
  match S with
  | nil => rfl
  | node i w cs nil => simp [opening, unbundle]
  | node i w cs (node j w' cs' rest) => rfl

/-- A forest is known from its strands. -/
theorem unbundle_strands (f : Forest α) : f.strands.unbundle = f := by
  induction f with
  | nil => rfl
  | node i a cs rest ihc ihr =>
    rw [strands, unbundle, List.map_cons, List.reverse_cons, fill_concat, unbundle_opening, ihc,
      ihr]
    rfl

/-- So forests with equal strands are equal. -/
theorem eq_of_strands {f g : Forest α} (h : Forall₂ Eq f.strands g.strands) : f = g := by
  rw [← unbundle_strands f, h.unbundle_eq, unbundle_strands]

/-- No name stands twice on a strand. -/
theorem nodup_of_strand {f : Forest α} (hn : f.walk.Nodup) :
    ∀ e ∈ f.strands.toList, (e.2.map Prod.fst).Nodup := by
  intro e he
  rw [toList_eq_map_places _ []] at he
  obtain ⟨u, hu, rfl⟩ := List.mem_map.1 he
  rw [← map_id_places [], places_eq_flatMap_strands, List.map_flatMap] at hn
  -- what is on the strand is a part of the walk
  have hsub := List.sublist_flatten_of_mem
    (List.mem_map_of_mem (f := fun u : Place (List (Nat × α)) =>
      ((strand u.content).places ([] ++ along u.above)).map Place.id) hu)
  rw [map_id_places, walk_strand] at hsub
  exact hn.sublist (by simpa [List.flatMap] using hsub)

/-! ### Conversions near their sources -/

/-- Whether above every strand with a conversion there is at most one stage. -/
def Loaded (f : Forest Stage) : Prop :=
  ∀ u ∈ f.strands.places [], (∃ e ∈ u.content, e.2.tag = .parse) → (along u.above).length ≤ 1

/-- Where conversions stand right below sources, so do their strands. -/
theorem loaded_of_stands (h : ∀ v ∈ f.places [], v.Stands) : f.Loaded := by
  rintro u hu ⟨e, he, ht⟩
  obtain ⟨l, r, hw⟩ := List.append_of_mem he
  have hlength := (h _ (mem_places_of_strand hu hw)).parse ht
  rw [List.length_append] at hlength
  omega

/-- Only a strand with a conversion is shifted to one. -/
theorem Shifts.exists_parse (h : Shifts pass policy w w') (hw : ∃ e ∈ w', e.2.tag = .parse) :
    ∃ e ∈ w, e.2.tag = .parse := by
  -- a join has the kind of its parts, and an exchange keeps both kinds
  cases h with
  | @join a b c h l p i r =>
    have ht := Stage.tag_of_merge? h.merged
    simp only [List.mem_append, List.mem_cons, or_and_right, exists_or, exists_eq_left, ht] at hw ⊢
    rcases hw with hw | hw | hw
    · exact .inl hw
    · exact .inr (.inl hw)
    · exact .inr (.inr (.inr hw))
  | @rise a b dims h l p i r =>
    simp only [List.mem_append, List.mem_cons, or_and_right, exists_or, exists_eq_left,
      Stage.tag_addDimensions] at hw ⊢
    rcases hw with hw | hw | hw | hw
    · exact .inl hw
    · exact .inr (.inr (.inl hw))
    · exact .inr (.inl hw)
    · exact .inr (.inr (.inr hw))

/-- So after several shifts. -/
theorem exists_parse_of_shifts (h : Relation.ReflTransGen (Shifts pass policy) w w')
    (hw : ∃ e ∈ w', e.2.tag = .parse) : ∃ e ∈ w, e.2.tag = .parse := by
  induction h with
  | refl => exact hw
  | tail _ h ih => exact ih (h.exists_parse hw)

/-- Shifts along the strands leave conversions near their sources. -/
theorem Loaded.of_shifts
    (h : Forall₂ (Relation.ReflTransGen (Shifts pass policy)) f.strands f'.strands)
    (hf : f.Loaded) : f'.Loaded := by
  intro u' hu' hparse
  obtain ⟨u, hu, hcontent, habove⟩ := h.flip.exists_place .nil hu'
  refine Nat.le_trans ?_ (hf u hu (exists_parse_of_shifts hcontent hparse))
  clear hu hu' hcontent hparse
  generalize u.above = above at habove
  generalize u'.above = above' at habove
  -- strand by strand on the way up: none of them has become longer
  induction habove with
  | nil => exact Nat.le_refl _
  | cons h _ ih =>
    simp only [along_cons, List.length_append]
    have := length_le_of_shifts h
    omega

/-! ### Steps along strands -/

/-- The stages above a strand are those that stand around it. -/
theorem along_trail_gather (ups : List (Frame Stage)) : along (trail (gather ups)) = trail ups := by
  induction ups with
  | nil => rfl
  | cons fr up ih =>
    rw [gather]
    split
    · next F UP hal hG =>
      rw [hG] at ih
      rw [trail_cons, trail_cons, ← ih, trail_cons]
      simp
    · simp [ih]

/-- A conversion that would be put elsewhere stands right below a source. -/
theorem Loaded.source_of_relocate {fr parent : Frame Stage}
    (hl : (fill (fr :: parent :: up) cs).Loaded) (hf : (fill (fr :: parent :: up) cs).Lawful)
    (hmove : fr.move pass policy parent = .relocate) : parent.content.tag = .source := by
  obtain ⟨-, -, -, hal, ht⟩ :=
    Move.choose_eq_relocate.1 (Frame.move_eq hmove (by simp)).2
  obtain ⟨F, UP, hG, hstrands⟩ := strands_fill fr (parent :: up) cs
  -- its strand begins with it
  rw [gather, hal] at hG
  obtain ⟨rfl, rfl⟩ := List.cons.inj hG
  have hplace := mem_places_fill
    ⟨fr.before.strands, 0, [(fr.id, fr.content)] ++ (opening cs.strands).1, fr.after.strands⟩
    (gather (parent :: up)) (opening cs.strands).2
  rw [← hstrands] at hplace
  have hlength := hl _ hplace ⟨(fr.id, fr.content), by simp, ht⟩
  rw [along_trail_gather, trail_cons, List.length_append, List.length_singleton] at hlength
  obtain rfl : up = [] := by
    have hup : (trail up).length = up.length := by simp [trail]
    exact List.length_eq_zero_iff.1 (by omega)
  exact @Sourced.source_of_fill_concat [] parent (fr.close cs) hf.sourced

/-- A step of a climb shifts one strand, where conversions are near their sources. -/
theorem Ascends.shifts (h : Ascends pass policy ups cs ups' cs' n) (hf : (fill ups cs).Lawful)
    (hl : (fill ups cs).Loaded) :
    Forall₂ (Relation.ReflTransGen (Shifts pass policy)) (fill ups cs).strands
      (fill ups' cs').strands := by
  cases h with
  | stay => exact .refl (fun _ => .refl) _
  -- nothing forks here, so both stages stand on one strand
  | @join fr parent c hmove hj up cs =>
    have hal := hf.alone_of_joins hj
    obtain ⟨before, i, b, after⟩ := fr
    obtain ⟨pbefore, p, a, pafter⟩ := parent
    obtain ⟨rfl, rfl⟩ := Frame.alone_iff.1 hal
    rw [nil_append, append_nil]
    exact forall₂_strands_fill (fun _ => .refl) pbefore pafter up rfl
      fun w => .single (.join hj w p i _)
  | @rise fr parent dims hmove hr hal up cs =>
    obtain ⟨before, i, b, after⟩ := fr
    obtain ⟨pbefore, p, a, pafter⟩ := parent
    obtain ⟨rfl, rfl⟩ := Frame.alone_iff.1 hal
    exact forall₂_strands_fill (fun _ => .refl) pbefore pafter up rfl
      fun w => .single (.rise hr w p i _)
  | absorb hmove => exact absurd (hl.source_of_relocate hf hmove) (Frame.parse_of_move hmove).2.2
  | relocate hmove => exact absurd (hl.source_of_relocate hf hmove) (Frame.parse_of_move hmove).2.2

/-- So do all steps of a pass, and the forest stays lawful. -/
theorem strands_of_steps (h : Relation.ReflTransGen (Steps pass policy) f f') (hf : f.Lawful)
    (hl : f.Loaded) :
    Forall₂ (Relation.ReflTransGen (Shifts pass policy)) f.strands f'.strands ∧ f'.Lawful := by
  -- conversions stay near their sources, so the next step shifts strands as well
  induction h with
  | refl => exact ⟨.refl (fun _ => .refl) _, hf⟩
  | tail _ hstep ih =>
    obtain ⟨hstrands, hlawful⟩ := ih
    cases hstep with
    | mk hn h =>
      refine ⟨hstrands.trans (fun _ _ _ => .trans) (h.shifts hlawful (hl.of_shifts hstrands)), ?_⟩
      exact (h.rewrites hlawful).2

end ChartPipeline.Forest

namespace ChartPipeline.Flow

open Forest

variable {policy : FacetPolicy} {flow flow' : Flow} {n : Nat}

/-- Passes over a flow whose conversions are near their sources rearrange each strand by itself. -/
theorem runPasses_strands {passes : List Pass}
    (h : runPasses policy n passes flow = (.ok (), flow')) (hf : flow.stages.Lawful)
    (hl : flow.stages.Loaded) :
    Forall₂ (Rearranges policy passes) flow.stages.strands flow'.stages.strands := by
  -- pass by pass: each one leaves a flow for the next with conversions near their sources
  induction passes generalizing flow with
  | nil =>
    obtain ⟨-, rfl⟩ := Prod.mk.inj h
    exact .refl .nil _
  | cons pass passes ih =>
    cases hrun : runPass pass policy n flow with
    | mk result flow₁ =>
      cases result with
      | error e =>
        rw [runPasses_cons_error passes hrun] at h
        exact absurd (congrArg Prod.fst h) (by simp)
      | ok k =>
        obtain ⟨-, -, hs⟩ := settle_ok hrun hf
        obtain ⟨hstrands, hf₁⟩ := strands_of_steps (runPass_steps hrun hf.nodup).1 hf hl
        rw [runPasses_cons_ok passes hrun] at h
        have hrest := (ih h hf₁ (hl.of_shifts hstrands)).and_left hs.stays
        exact hstrands.trans (fun _ _ _ hr h => .cons hr h.1 h.2) hrest

/-- All passes leave a flow whose conversions are near their sources exactly as it was if none of
    its strands is loose. -/
theorem runPasses_eq_iff (h : runPasses policy n Pass.all flow = (.ok (), flow'))
    (hf : flow.stages.Lawful) (hl : flow.stages.Loaded) :
    flow'.stages = flow.stages ↔ ∀ e ∈ flow.stages.strands.toList, ¬ Loose policy e.2 := by
  have hstrands := runPasses_strands h hf hl
  have hn := nodup_of_strand hf.nodup
  constructor
  · intro heq e he
    rw [heq] at hstrands
    exact ((hstrands.forall_self e he).eq_iff (hn e he)).1 rfl
  · intro htight
    refine (eq_of_strands ?_).symm
    -- no strand is loose, so each is what it was
    have htight' := hstrands.and_left
      (P := fun w => (w.map Prod.fst).Nodup ∧ ¬ Loose policy w) fun e he => ⟨hn e he, htight e he⟩
    exact htight'.imp fun w w' h => ((h.2.eq_iff h.1.1).2 h.1.2).symm

end ChartPipeline.Flow
