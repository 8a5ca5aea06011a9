import ChartPipeline.Proofs.Delivery

/-!
# Grouping across facets

What stands below a facet runs in each of its partitions.  An aggregation or a stack that is moved
above a facet would see the rows of all partitions at once, so it then groups by the fields of the
facet as well, or it is not moved at all, as the policy says.  No other move of a pass takes a
facet away from above an aggregation or a stack, or puts one there.

## Key results

- `Ascends.folds`: one step of a climb keeps partitions apart
- `runs_respect_partitions`: so do any passes over any forest, one after the other
-/

namespace ChartPipeline

/-! ### Stages that group within partitions -/

namespace Stage

/-- The fields that a stage groups by. -/
def dimensions : Stage → List String
  | aggregate a => a.dimensions
  | stack s => s.groupby
  | _ => []

/-- Whether a stage groups the rows of each partition by themselves. -/
def folds (a : Stage) : Bool := a.tag = .aggregate || a.tag = .stack

/-- A stage before and after: it may group by more fields, but a stack only if the policy lets it
    leave its partitions. -/
structure Regrouped (policy : FacetPolicy) (a b : Stage) : Prop where
  tag_eq : b.tag = a.tag
  dimensions : a.dimensions <+: b.dimensions
  nodup : a.dimensions.Nodup → b.dimensions.Nodup
  stack : policy = .keepPartitioned → a.tag = .stack → b = a

/-- A stage that stays as it is groups as before. -/
theorem Regrouped.refl (policy : FacetPolicy) (a : Stage) : a.Regrouped policy a :=
  ⟨rfl, List.prefix_refl _, id, fun _ _ => rfl⟩

/-- Grouping by more fields twice is grouping by more fields. -/
theorem Regrouped.trans {policy : FacetPolicy} {a b c : Stage} (h : a.Regrouped policy b)
    (h' : b.Regrouped policy c) : a.Regrouped policy c where
  tag_eq := h'.tag_eq.trans h.tag_eq
  dimensions := h.dimensions.trans h'.dimensions
  nodup hn := h'.nodup (h.nodup hn)
  stack hp ht := (h'.stack hp (h.tag_eq.trans ht)).trans (h.stack hp ht)

end Stage

/-- Names that are added only if they are new do not repeat any. -/
theorem nodup_addNames {names : List String} (more : List String) (h : names.Nodup) :
    (addNames names more).Nodup := by
  induction more generalizing names with
  | nil => exact h
  | cons m more ih =>
    rw [addNames, List.foldl_cons, ← addNames]
    apply ih
    split
    · exact h
    · next hc => exact h.append (by simp) (by simpa using hc)

variable {pass : Pass} {policy : FacetPolicy} {a b c : Stage} {dims : List String}

/-- A stage that groups by more fields still groups by its own, which come first. -/
theorem Stage.regrouped_addDimensions (hs : policy = .keepPartitioned → a.tag = .stack → dims = []) :
    a.Regrouped policy (a.addDimensions dims) where
  tag_eq := tag_addDimensions dims a
  -- new fields come after those that are there
  dimensions := by
    cases a with
    | aggregate a =>
      obtain ⟨extra, heq, -⟩ := exists_addNames_eq a.dimensions dims
      exact ⟨extra, heq.symm⟩
    | stack s =>
      obtain ⟨extra, heq, -⟩ := exists_addNames_eq s.groupby dims
      exact ⟨extra, heq.symm⟩
    | _ => exact List.prefix_refl _
  nodup := by
    cases a with
    | aggregate a => exact nodup_addNames dims
    | stack s => exact nodup_addNames dims
    | _ => exact id
  stack hp ht := by
    rw [hs hp ht]
    cases a <;> rfl

/-- An aggregation or a stack groups by all fields that it is given. -/
theorem Stage.subset_dimensions_addDimensions (ha : a.folds = true) :
    dims ⊆ (a.addDimensions dims).dimensions := by
  intro n hn
  cases a with
  | aggregate a => exact mem_addNames.2 (.inr hn)
  | stack s => exact mem_addNames.2 (.inr hn)
  | _ => exact absurd ha (by simp [folds, tag])

/-- Joined aggregations group by the fields of both; stacks are not joined. -/
theorem Joins.regrouped (h : Joins pass a b c) : a.Regrouped policy c := by
  have hm := h.merged
  have htag := Stage.tag_of_merge? hm
  -- taking in measures does not change the grouping
  have hmeasures (a : Aggregation) (ms : List Measure) :
      (ms.foldl Aggregation.addMeasure a).dimensions = a.dimensions := by
    induction ms generalizing a with
    | nil => rfl
    | cons m ms ih =>
      rw [List.foldl_cons, ih, Aggregation.addMeasure]
      split <;> rfl
  cases a <;> cases b <;> simp only [Stage.merge?, reduceCtorEq, Option.some.injEq] at hm <;>
    subst hm
  case aggregate.aggregate a b =>
    have hdims : (a.merge b).dimensions = addNames a.dimensions b.dimensions :=
      hmeasures (a.addDimensions b.dimensions) b.measures
    obtain ⟨extra, heq, -⟩ := exists_addNames_eq a.dimensions b.dimensions
    refine ⟨rfl, ⟨extra, ?_⟩, fun hn => ?_, fun _ ht => absurd ht (by simp [Stage.tag])⟩
    · exact (hdims.trans heq).symm
    · show (a.merge b).dimensions.Nodup
      rw [hdims]
      exact nodup_addNames _ hn
  all_goals
    exact ⟨rfl, List.prefix_refl _, id, fun _ ht => absurd ht (by simp [Stage.tag])⟩

/-- Only an aggregation or a stack that rises above a facet, as the policy lets it, groups by more
    fields: those of the facet. -/
theorem Rises.dims_eq (h : Rises pass policy a b dims) :
    dims = [] ∧ (a.tag = .facet → b.folds = false) ∨
      policy = .foldGroupby ∧ a.tag = .facet ∧ dims = a.partitionFields := by
  have hp := h.passage
  have hgroups : (decide (b.tag = .aggregate) || decide (b.tag = .stack)) = b.folds := rfl
  simp only [Move.passage?, hgroups] at hp
  cases hb : b.folds with
  | false =>
    left
    refine ⟨?_, fun _ => rfl⟩
    cases a <;> simp_all <;> split at hp <;> simp_all
  | true =>
    -- only a conversion passes whatever is above, so the other rules decide
    have hparse : b.tag ≠ .parse := by
      intro ht
      simp [Stage.folds, ht] at hb
    simp only [hb, hparse, if_false] at hp
    clear hgroups hparse
    cases policy <;> cases a <;> simp_all [Stage.tag, Stage.partitionFields]

namespace Forest

/-! ### Places below facets -/

/-- A stage before and after.  No facet comes above it; and if it groups within partitions, a facet
    that is no longer above it is one whose fields it groups by, where the policy lets it. -/
structure Place.Folded (policy : FacetPolicy) (v v' : Place Stage) : Prop where
  id_eq : v'.id = v.id
  content : v.content.Regrouped policy v'.content
  kept : ∀ e ∈ v'.above, e.2.tag = .facet → e ∈ v.above
  folded : v.content.folds = true → ∀ e ∈ v.above, e.2.tag = .facet →
    e ∈ v'.above ∨ policy = .foldGroupby ∧ e.2.partitionFields ⊆ v'.content.dimensions

/-- A stage stands where it stands. -/
theorem Place.Folded.refl (policy : FacetPolicy) (v : Place Stage) : v.Folded policy v :=
  ⟨rfl, .refl policy _, fun _ he _ => he, fun _ _ he _ => .inl he⟩

/-- What holds from one forest to the next holds over several. -/
theorem Place.Folded.trans {v₁ v₂ v₃ : Place Stage} (h₁ : v₁.Folded policy v₂)
    (h₂ : v₂.Folded policy v₃) : v₁.Folded policy v₃ where
  id_eq := h₂.id_eq.trans h₁.id_eq
  content := h₁.content.trans h₂.content
  kept e he ht := h₁.kept e (h₂.kept e he ht) ht
  folded hf e he ht := by
    have hf₂ : v₂.content.folds = true := by
      rw [Stage.folds, h₁.content.tag_eq]
      exact hf
    -- a facet that is gone in between stays gone, and its fields stay among the dimensions
    rcases h₁.folded hf e he ht with he | ⟨hp, hsub⟩
    · exact h₂.folded hf₂ e he ht
    · exact .inr ⟨hp, fun x hx => h₂.content.dimensions.subset (hsub hx)⟩

/-- Where only other stages on the way change, the facets above stay. -/
theorem Place.folded_under {above above' : List (Nat × Stage)}
    (h : ∀ e : Nat × Stage, e.2.tag = .facet → (e ∈ above' ↔ e ∈ above)) (u : Place Stage) :
    (u.under above).Folded policy (u.under above') where
  id_eq := rfl
  content := .refl policy _
  kept e he ht := (List.mem_append.1 he).elim
    (fun he => List.mem_append_left _ ((h e ht).1 he)) (List.mem_append_right _)
  folded _ e he ht := .inl ((List.mem_append.1 he).elim
    (fun he => List.mem_append_left _ ((h e ht).2 he)) (List.mem_append_right _))

/-- Every stage of a forest comes from one of another forest. -/
def Folds (policy : FacetPolicy) (f f' : Forest Stage) : Prop :=
  ∀ v' ∈ f'.places [], ∃ v ∈ f.places [], v.Folded policy v'

variable {f f₁ f' : Forest Stage}

/-- A forest keeps itself apart. -/
theorem Folds.refl (policy : FacetPolicy) (f : Forest Stage) : Folds policy f f :=
  fun v hv => ⟨v, hv, .refl policy v⟩

/-- So over several forests. -/
theorem Folds.trans (h₁ : Folds policy f f₁) (h₂ : Folds policy f₁ f') : Folds policy f f' := by
  intro v' hv'
  obtain ⟨v₁, hv₁, hfolded₁⟩ := h₂ v' hv'
  obtain ⟨v, hv, hfolded⟩ := h₁ v₁ hv₁
  exact ⟨v, hv, hfolded.trans hfolded₁⟩

/-! ### Edits -/

/-- A stage that is no facet may group by more fields. -/
theorem folds_regroup {fr : Frame Stage} (hc : fr.content.Regrouped policy c)
    (hf : fr.content.tag ≠ .facet) (up : List (Frame Stage)) (cs : Forest Stage) :
    Folds policy (fill (fr :: up) cs) (fill ({ fr with content := c } :: up) cs) := by
  obtain ⟨before, p, a, after⟩ := fr
  obtain ⟨l, r, hp⟩ := places_fill_node before after up
  intro v' hv'
  rw [hp] at hv' ⊢
  simp only [List.mem_append, List.mem_cons, mem_places_concat] at hv' ⊢
  -- places outside, the stage itself, those below it
  rcases hv' with hv' | rfl | ⟨u, hu, rfl⟩ | hv'
  · exact ⟨v', .inl hv', .refl policy v'⟩
  · exact ⟨_, .inr (.inl rfl), rfl, hc, fun _ he _ => he, fun _ _ he _ => .inl he⟩
  · refine ⟨_, .inr (.inr (.inl ⟨u, hu, rfl⟩)), Place.folded_under (fun e ht => ?_) u⟩
    have hne : e ≠ (p, a) := by
      rintro rfl
      exact hf ht
    have hne' : e ≠ (p, c) := by
      rintro rfl
      exact hf (hc.tag_eq.symm.trans ht)
    simp [hne, hne']
  · exact ⟨v', .inr (.inr (.inr hv')), .refl policy v'⟩

/-- A stage that is no facet may be taken out. -/
theorem folds_drop {fr : Frame Stage} (hf : fr.content.tag ≠ .facet) (up : List (Frame Stage))
    (cs : Forest Stage) :
    Folds policy (fill (fr :: up) cs) (fill up (fr.before ++ (cs ++ fr.after))) := by
  obtain ⟨before, p, a, after⟩ := fr
  obtain ⟨l, r, hp⟩ := places_fill up
  intro v' hv'
  -- a place below the one that is left out lacks it above; all others stay
  rw [hp, places_append, places_append] at hv'
  rw [fill, hp, Frame.places_close]
  simp only [List.mem_append, List.mem_cons, mem_places_concat] at hv' ⊢
  rcases hv' with hv' | (hv' | hv' | hv') | hv'
  · exact ⟨v', .inl hv', .refl policy v'⟩
  · exact ⟨v', .inr (.inl (.inl hv')), .refl policy v'⟩
  · obtain ⟨u, hu, rfl⟩ := mem_places_iff.1 hv'
    refine ⟨_, .inr (.inl (.inr (.inr (.inl ⟨u, hu, rfl⟩)))), Place.folded_under (fun e ht => ?_) u⟩
    have hne : e ≠ (p, a) := by
      rintro rfl
      exact hf ht
    simp [hne]
  · exact ⟨v', .inr (.inl (.inr (.inr (.inr hv')))), .refl policy v'⟩
  · exact ⟨v', .inr (.inr hv'), .refl policy v'⟩

/-- A stage that is no facet may be exchanged with its parent, but one that groups within
    partitions groups by the fields of a facet that it leaves. -/
theorem folds_lift {fr : Frame Stage} {i : Nat} (hb : b.tag ≠ .facet)
    (hf : fr.content.tag = .facet → b.folds = true →
      policy = .foldGroupby ∧ fr.content.partitionFields ⊆ b.dimensions)
    (up : List (Frame Stage)) (cs : Forest Stage) :
    Folds policy (fill (fr :: up) (node i b cs nil))
      (fill ({ fr with id := i, content := b } :: up) (node fr.id fr.content cs nil)) := by
  obtain ⟨before, p, a, after⟩ := fr
  obtain ⟨l, r, hp⟩ := places_fill_node before after up
  have hne {e : Nat × Stage} (ht : e.2.tag = .facet) : e ≠ (i, b) := by
    rintro rfl
    exact hb ht
  intro v' hv'
  rw [hp] at hv' ⊢
  simp only [List.mem_append, List.mem_cons, places, mem_places_concat] at hv' ⊢
  -- places outside, the stage that rises, the one that it passes, those below both
  rcases hv' with hv' | rfl | (rfl | ⟨u, hu, rfl⟩ | hv') | hv'
  · exact ⟨v', .inl hv', .refl policy v'⟩
  · refine ⟨_, .inr (.inr (.inl (.inl rfl))), rfl, .refl policy _,
      fun e he _ => List.mem_append_left _ he, fun hfolds e he ht => ?_⟩
    rcases List.mem_append.1 he with he | he
    · exact .inl he
    · obtain rfl := List.mem_singleton.1 he
      exact .inr (hf ht hfolds)
  · refine ⟨_, .inr (.inl rfl), rfl, .refl policy _, fun e he ht => ?_,
      fun _ e he _ => .inl (List.mem_append_left _ he)⟩
    exact (List.mem_append.1 he).resolve_right fun he => hne ht (List.mem_singleton.1 he)
  · refine ⟨_, .inr (.inr (.inl (.inr (.inl ⟨u, hu, rfl⟩)))),
      Place.folded_under (fun e ht => ?_) u⟩
    simp [hne ht]
  · simp at hv'
  · exact ⟨v', .inr (.inr (.inr hv')), .refl policy v'⟩

/-! ### Steps -/

/-- No pass moves a facet. -/
theorem not_facet_of_handles (h : pass.handles a.tag = true) : a.tag ≠ .facet := by
  intro ht
  have := Pass.not_isOutlet h
  simp [Stage.isOutlet, ht] at this

/-- A stage that rises groups by more fields first. -/
theorem folds_rise {parent : Frame Stage} {dims : List String}
    (hr : Rises pass policy parent.content b dims) (i : Nat) (up : List (Frame Stage))
    (cs : Forest Stage) :
    Folds policy (fill (⟨nil, i, b, nil⟩ :: parent :: up) cs)
      (fill ({ parent with id := i, content := b.addDimensions dims } :: up)
        (node parent.id parent.content cs nil)) := by
  have hb := not_facet_of_handles hr.handled
  have hregroup : b.Regrouped policy (b.addDimensions dims) := by
    apply Stage.regrouped_addDimensions
    intro hp _
    rcases hr.dims_eq with ⟨hdims, -⟩ | ⟨hfold, -⟩
    · exact hdims
    · exact absurd (hfold.symm.trans hp) (by simp)
  -- first it takes in the fields where it stands, then it changes places
  refine (@folds_regroup policy _ ⟨nil, i, b, nil⟩ hregroup hb (parent :: up) cs).trans ?_
  refine @folds_lift policy _ parent i (Stage.tag_addDimensions dims b ▸ hb)
    (fun ht hfolds => ?_) up cs
  have hb_folds : b.folds = true := by
    rwa [Stage.folds, Stage.tag_addDimensions] at hfolds
  rcases hr.dims_eq with ⟨-, hnot⟩ | ⟨hfold, -, hdims⟩
  · exact absurd hb_folds (by simp [hnot ht])
  · exact ⟨hfold, hdims ▸ Stage.subset_dimensions_addDimensions hb_folds⟩

/-- Another conversion may take in types. -/
theorem folds_widen {f : Forest Stage} (hn : f.walk.Nodup) {other : Nat} {types : ParseTypes}
    (ho : f.content? other = some (.parse types)) (types' : ParseTypes) :
    Folds policy f (f.update other fun _ => .parse types') := by
  obtain ⟨fr, up, cs, rfl, rfl⟩ := exists_fill_of_mem (mem_walk_of_content? ho)
  rw [content?_first hn, Option.some_inj] at ho
  rw [update_first hn]
  refine folds_regroup ?_ (by simp [ho, Stage.tag]) up cs
  rw [ho]
  exact ⟨rfl, List.prefix_refl _, id, fun _ ht => absurd ht (by simp [Stage.tag])⟩

/-- A conversion that is put right below the outermost stage leaves the others where they are. -/
theorem folds_relocate {fr parent root : Frame Stage} {types : ParseTypes}
    (hfr : fr.content = .parse types) (hs : root.content.tag = .source) (up : List (Frame Stage))
    (cs : Forest Stage) :
    Folds policy (fill (fr :: parent :: (up ++ [root])) cs)
      (fill (withSibling (leaf fr.id fr.content) (parent :: up) ++ [root])
        (fr.before ++ (cs ++ fr.after))) := by
  have hdrop := @folds_drop policy fr (by simp [hfr, Stage.tag]) (parent :: (up ++ [root])) cs
  intro v' hv'
  rw [fill_concat, fill_withSibling] at hv'
  rw [fill_cons_concat parent up root (fr.before ++ _)] at hdrop
  obtain ⟨l, r, hp⟩ := places_fill_node root.before root.after []
  -- the places are those without the conversion, and its own
  have hnew : v' ∈ (fill [root] (fill (parent :: up) (fr.before ++ (cs ++ fr.after)))).places [] ∨
      v' = ⟨trail [root], fr.id, fr.content⟩ := by
    rw [show root = ⟨root.before, root.id, root.content, root.after⟩ from rfl, hp] at hv' ⊢
    simp only [places_append, leaf, places, List.append_nil, List.mem_append, List.mem_cons,
      List.not_mem_nil, or_false, trail_cons, trail_nil, List.nil_append] at hv' ⊢
    tauto
  rcases hnew with hv' | rfl
  · exact hdrop v' hv'
  · -- the conversion itself, which has only the source above it now
    refine ⟨_, mem_places_fill fr (parent :: (up ++ [root])) cs, rfl, .refl policy _,
      fun e he ht => ?_, fun hfolds => ?_⟩
    · obtain rfl := List.mem_singleton.1 he
      exact absurd (hs.symm.trans ht) (by simp)
    · exact absurd hfolds (by simp [hfr, Stage.folds, Stage.tag])

/-- A step of a climb keeps partitions apart. -/
theorem Ascends.folds {ups ups' : List (Frame Stage)} {cs cs' : Forest Stage} {n : Nat}
    (h : Ascends pass policy ups cs ups' cs' n) (hn : (fill ups cs).walk.Nodup) :
    Folds policy (fill ups cs) (fill ups' cs') := by
  -- the child goes into its parent; or takes its place; or joins another conversion; or goes up to
  -- the source
  cases h with
  | stay => exact .refl policy _
  | @join fr parent c hmove hj up cs =>
    have hfr := not_facet_of_handles hj.handled
    have hparent : parent.content.tag ≠ .facet := hj.tag_eq ▸ hfr
    exact (folds_regroup hj.regrouped hparent up (fr.close cs)).trans
      (folds_drop hfr ({ parent with content := c } :: up) cs)
  | @rise fr parent dims hmove hr hal up cs =>
    obtain ⟨before, i, b, after⟩ := fr
    obtain ⟨rfl, rfl⟩ := Frame.alone_iff.1 hal
    exact folds_rise hr i up cs
  | @absorb fr parent other types types' cs up hmove hfr ho hne =>
    obtain ⟨rfl, -, -⟩ := Frame.parse_of_move hmove
    -- once the other conversion has the types, the stage is taken out
    refine (folds_widen hn ho (types'.union types)).trans ?_
    have hfr' : (fr.update other fun _ => .parse (types'.union types)).content = .parse types := by
      rw [Frame.update, if_neg (fun e => hne e.symm), hfr]
    have hdrop := @folds_drop policy (fr.update other fun _ => .parse (types'.union types))
      (by simp [hfr', Stage.tag])
      ((parent :: up).map (Frame.update other fun _ => .parse (types'.union types)))
      (cs.update other fun _ => .parse (types'.union types))
    simp only [Frame.update_before, Frame.update_after, ← update_append] at hdrop
    rw [update_fill]
    exact hdrop
  | @relocate fr parent root types hmove hfr hs up cs => exact folds_relocate hfr hs up cs

/-- So do many steps. -/
theorem folds_of_steps (h : Relation.ReflTransGen (Steps pass policy) f f') :
    Folds policy f f' := by
  -- names stand once before each step
  induction h with
  | refl => exact .refl policy f
  | tail _ h ih =>
    obtain ⟨hn, h⟩ := h
    exact ih.trans (h.folds hn)

end Forest

/-! ### Passes -/

namespace Flow

variable {flow flow' : Flow}

/-- Passes that succeed one after the other, in any order and each with a bound of its own. -/
def Runs (policy : FacetPolicy) : Flow → Flow → Prop :=
  Relation.ReflTransGen fun flow flow' => ∃ pass n k, runPass pass policy n flow = (.ok k, flow')

/-- Passes one after the other keep partitions apart, and names stay apart. -/
theorem Runs.folds (h : Runs policy flow flow') (hn : flow.stages.walk.Nodup) :
    Forest.Folds policy flow.stages flow'.stages ∧ flow'.stages.walk.Nodup := by
  induction h with
  | refl => exact ⟨.refl policy _, hn⟩
  | tail _ hrun ih =>
    obtain ⟨hfolds, hn'⟩ := ih
    obtain ⟨pass, n, k, hrun⟩ := hrun
    obtain ⟨hsteps, hn''⟩ := runPass_steps hrun hn'
    exact ⟨hfolds.trans (Forest.folds_of_steps hsteps), hn''⟩

/-- Every aggregation and every stack that is still there after some passes was there before.  It
    groups first by what it grouped by, and by no field twice if it did not.  When passes may move
    it above a facet, it groups by the fields of every facet that is no longer above it; when they
    may not, the same facets as before are above it, and a stack is what it was. -/
theorem runs_respect_partitions (hn : flow.stages.walk.Nodup) (h : Runs policy flow flow') :
    ∀ v' ∈ flow'.stages.places [], v'.content.tag = .aggregate ∨ v'.content.tag = .stack →
      ∃ v ∈ flow.stages.places [], v.id = v'.id ∧ v.content.tag = v'.content.tag ∧
        v.content.dimensions <+: v'.content.dimensions ∧
        (v.content.dimensions.Nodup → v'.content.dimensions.Nodup) ∧
        match policy with
        | .foldGroupby => ∀ i p, (i, Stage.facet p) ∈ v.above → (i, .facet p) ∉ v'.above →
            p.groupby ⊆ v'.content.dimensions
        | .keepPartitioned =>
            (∀ i p, (i, Stage.facet p) ∈ v'.above ↔ (i, .facet p) ∈ v.above) ∧
              ∀ s, v.content = .stack s → v'.content = .stack s := by
  intro v' hv' htag
  obtain ⟨v, hv, hfolded⟩ := (h.folds hn).1 v' hv'
  have hfolds : v.content.folds = true := by
    rw [hfolded.content.tag_eq] at htag
    simpa [Stage.folds] using htag
  refine ⟨v, hv, hfolded.id_eq.symm, hfolded.content.tag_eq.symm, hfolded.content.dimensions,
    hfolded.content.nodup, ?_⟩
  -- under the second policy a facet cannot be left, so those above stay
  cases policy with
  | foldGroupby =>
    intro i p hbefore hafter
    rcases hfolded.folded hfolds _ hbefore rfl with habove | ⟨-, hsub⟩
    · exact absurd habove hafter
    · exact hsub
  | keepPartitioned =>
    constructor
    · intro i p
      constructor
      · intro habove
        exact hfolded.kept _ habove rfl
      · intro habove
        rcases hfolded.folded hfolds _ habove rfl with habove | ⟨hpolicy, -⟩
        · exact habove
        · exact absurd hpolicy (by simp)
    · intro s hs
      rw [hfolded.content.stack rfl (by rw [hs]; rfl), hs]

/-- An aggregation below two facets, one inside the other. -/
def nestedFacets : Flow :=
  { stages :=
      .node 0 (.source ⟨.named "rows", "rows"⟩)
        (.node 1 (.facet ⟨"facet", ["region"]⟩)
          (.node 2 (.facet ⟨"inner_facet", ["region", "year"]⟩)
            (.node 3 (.aggregate ⟨["month"], [⟨"*", .count⟩]⟩)
              (.leaf 4 (.output "main" true)) .nil) .nil) .nil) .nil,
    next := 5 }

/-- The aggregation leaves both facets and then groups by the fields of both. -/
theorem runs_respect_partitions_nestedFacets : ∃ flow',
    runPass .aggregate .foldGroupby 32 nestedFacets = (.ok 2, flow') ∧
      ∀ v' ∈ flow'.stages.places [], v'.content.tag = .aggregate ∨ v'.content.tag = .stack →
        ∃ v ∈ nestedFacets.stages.places [], v.id = v'.id ∧ v.content.tag = v'.content.tag ∧
          v.content.dimensions <+: v'.content.dimensions ∧
          (v.content.dimensions.Nodup → v'.content.dimensions.Nodup) ∧
          ∀ i p, (i, Stage.facet p) ∈ v.above → (i, .facet p) ∉ v'.above →
            p.groupby ⊆ v'.content.dimensions := by
  have hrun : runPass .aggregate .foldGroupby 32 nestedFacets =
      (.ok 2, (runPass .aggregate .foldGroupby 32 nestedFacets).2) := rfl
  exact ⟨_, hrun, runs_respect_partitions (by decide) (.single ⟨_, _, _, hrun⟩)⟩

end Flow

end ChartPipeline
