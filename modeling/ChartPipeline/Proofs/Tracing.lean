import ChartPipeline.Proofs.Delivery
import ChartPipeline.Proofs.Fences

/-!
# Where a place comes from

A move leaves a stage where it is, below a way that may have changed, or the stage has moved, was
passed or has taken in its child.  So what stands above a stage after all passes is followed back
to what stood above it before: calculations stay above everything but conversions, and above a
stage that groups, what derives fields stays.

## Key results

- `Rewrites.exists_moved`: every place after a move comes from one before it
- `Rewrites.exists_traced`: it stays below the same calculations, and what groups stays below what
  derives
- `traces_of_hoist`: so do the places after all passes
-/

namespace ChartPipeline

namespace Forest

variable {C : Stage → Stage → Prop} {pass : Pass} {policy : FacetPolicy} {f f' : Forest Stage}

/-- A place before and after a move: its way may have changed, another stage may have risen above
    it, or it has risen itself or has taken in its child. -/
inductive Place.Moved (C : Stage → Stage → Prop) (pass : Pass) (policy : FacetPolicy) :
    Place Stage → Place Stage → Prop
  | around {w w'} (h : Rerouted C pass policy w w') (i a) : Moved C pass policy ⟨w, i, a⟩ ⟨w', i, a⟩
  | passed {a b dims} (h : Rises pass policy a b dims) (w p i) :
      Moved C pass policy ⟨w, p, a⟩ ⟨w ++ [(i, b.addDimensions dims)], p, a⟩
  | risen {a b dims} (h : Rises pass policy a b dims) (w p i) :
      Moved C pass policy ⟨w ++ [(p, a)], i, b⟩ ⟨w, i, b.addDimensions dims⟩
  | joined {a b c} (h : Joins pass a b c) (hC : C a b) (w p) :
      Moved C pass policy ⟨w, p, a⟩ ⟨w, p, c⟩

/-- A place that a move does not touch. -/
theorem Place.Moved.refl (v : Place Stage) : v.Moved C pass policy v :=
  .around (.refl _) v.id v.content

/-- Every place after a move comes from one before it, but for those of conversions. -/
theorem Rewrites.exists_moved (h : Rewrites pass policy f f') (hC : f.Adjoins C)
    {v' : Place Stage} (hv' : v' ∈ f'.places []) :
    (∃ v ∈ f.places [], v.Moved C pass policy v') ∨ pass = .parse ∧ v'.content.tag = .parse := by
  have same {v : Place Stage} (hv : v ∈ f.places []) :
      ∃ v₁ ∈ f.places [], v₁.Moved C pass policy v := ⟨v, hv, .refl v⟩
  -- below what has moved, the way has changed
  have below {u : Place Stage} {above above' : List (Nat × Stage)}
      (hr : Rerouted C pass policy (above ++ u.above) (above' ++ u.above)) :
      (u.under above).Moved C pass policy (u.under above') := .around hr u.id u.content
  cases h with
  | @join fr b c h up i gc =>
    obtain ⟨before, p, a, after⟩ := fr
    obtain ⟨l, r, hp⟩ := places_fill_node before after up
    -- the places before and after are those outside, the node itself and those below it
    rw [hp] at same hv' ⊢
    simp only [List.mem_append, List.mem_cons, places, mem_places_concat] at same hv' ⊢
    have hab : C a b := hC _ up i b gc rfl
    left
    rcases hv' with hv' | rfl | ⟨u, hu, rfl⟩ | hv'
    · exact same (.inl hv')
    · exact ⟨_, .inr (.inl rfl), .joined h hab _ p⟩
    · refine ⟨_, .inr (.inr (.inl (.inr (.inl ⟨u, hu, rfl⟩)))), below ?_⟩
      simpa using Rerouted.join h hab (trail up) p i u.above
    · exact same (.inr (.inr (.inr hv')))
  | @rise fr b dims h up i gc =>
    obtain ⟨before, p, a, after⟩ := fr
    obtain ⟨l, r, hp⟩ := places_fill_node before after up
    rw [hp] at same hv' ⊢
    simp only [List.mem_append, List.mem_cons, places, mem_places_concat] at same hv' ⊢
    have hab : C a b := hC _ up i b gc rfl
    left
    rcases hv' with hv' | rfl | (rfl | ⟨u, hu, rfl⟩ | hv') | hv'
    · exact same (.inl hv')
    · exact ⟨_, .inr (.inr (.inl (.inl rfl))), .risen h _ p i⟩
    · exact ⟨_, .inr (.inl rfl), .passed h _ p i⟩
    · refine ⟨_, .inr (.inr (.inl (.inr (.inl ⟨u, hu, rfl⟩)))), below ?_⟩
      simpa using Rerouted.rise h hab (trail up) p i u.above
    · simp at hv'
    · exact same (.inr (.inr (.inr hv')))
  | @drop fr types h ht up cs hup =>
    obtain ⟨before, p, a, after⟩ := fr
    obtain ⟨l, r, hp⟩ := places_fill up
    obtain rfl : a = .parse types := ht
    rw [fill, hp, Frame.places_close] at same ⊢
    rw [hp, places_append, places_append] at hv'
    simp only [List.mem_append, List.mem_cons, mem_places_concat] at same hv' ⊢
    left
    rcases hv' with hv' | (hv' | hv' | hv') | hv'
    · exact same (.inl hv')
    · exact same (.inr (.inl (.inl hv')))
    · obtain ⟨u, hu, rfl⟩ := mem_places_iff.1 hv'
      refine ⟨_, .inr (.inl (.inr (.inr (.inl ⟨u, hu, rfl⟩)))), below ?_⟩
      simpa using Rerouted.drop h (trail up) p types u.above
    · exact same (.inr (.inl (.inr (.inr (.inr hv')))))
    · exact same (.inr (.inr hv'))
  | @put fr h hs up cs i types =>
    obtain ⟨before, s, a, after⟩ := fr
    obtain ⟨l, r, hp⟩ := places_fill_node before after up
    rw [hp] at same hv' ⊢
    simp only [List.mem_append, List.mem_cons, places_append, leaf, places] at same hv' ⊢
    rcases hv' with hv' | rfl | (hv' | rfl | hv') | hv'
    · exact .inl (same (.inl hv'))
    · exact .inl (same (.inr (.inl rfl)))
    · exact .inl (same (.inr (.inr (.inl hv'))))
    · exact .inr ⟨h, rfl⟩
    · simp at hv'
    · exact .inl (same (.inr (.inr (.inr hv'))))
  | @widen fr types h ht types' up cs =>
    obtain ⟨before, p, a, after⟩ := fr
    obtain ⟨l, r, hp⟩ := places_fill_node before after up
    obtain rfl : a = .parse types := ht
    rw [hp] at same hv' ⊢
    simp only [List.mem_append, List.mem_cons, mem_places_concat] at same hv' ⊢
    rcases hv' with hv' | rfl | ⟨u, hu, rfl⟩ | hv'
    · exact .inl (same (.inl hv'))
    · exact .inr ⟨h, rfl⟩
    · refine .inl ⟨_, .inr (.inr (.inl ⟨u, hu, rfl⟩)), below ?_⟩
      simpa using Rerouted.widen h (trail up) p types types' u.above
    · exact .inl (same (.inr (.inr (.inr hv'))))

end Forest

/-! ### What derives fields -/

/-- Whether a stage derives fields that stages below may group by. -/
def Stage.derives (a : Stage) : Bool := a.tag = .bin || a.tag = .timeUnit || a.tag = .aggregate

/-- What may stand in a row below a stage that derives: nothing of its kind. -/
def Stage.Unlike (a b : Stage) : Prop := a.derives = true → b.tag ≠ a.tag

/-- Whether a stage derives is read off its kind. -/
theorem Stage.derives_congr {a b : Stage} (h : b.tag = a.tag) : b.derives = a.derives := by
  rw [derives, derives, h]

/-- Where no two stages in a row derive alike, none do after a move. -/
theorem Stage.unlike_stable (pass : Pass) (policy : FacetPolicy) :
    Stable Stage.Unlike pass policy where
  join h hab z := by
    have hc := Stage.tag_of_merge? h.merged
    refine ⟨fun ha _ hz => ?_, fun ha _ hd => ?_⟩
    · rw [hc]
      exact ha hz
    · rw [hc]
      rw [Stage.derives_congr hc] at hd
      exact ha hd
  rise h _ _ := by
    rw [Stage.tag_addDimensions]
    exact fun he => h.tag_ne he.symm
  dims b dims z := by
    have ht := Stage.tag_addDimensions dims b
    simp only [Stage.Unlike, ht, Stage.derives_congr ht]
    exact ⟨id, id⟩

/-- In the flow of a chart, no kind of stage that derives stands twice in a row. -/
theorem Building.fenced_unlike {chart : Chart} {built : Building}
    (h : Building.ofChart chart = .ok built) : built.flow.stages.Fenced Stage.Unlike [] := by
  refine (fenced_once h).imp fun a b hab hd => hab ?_
  revert hd
  cases a <;> simp [Stage.derives, Stage.prepares, Stage.isGrouping, Stage.tag]

/-- Grouping by more of some fields is grouping by more of others among which they are. -/
theorem Stage.Widened.mono {fields fields' : List String} {a b : Stage}
    (h : Widened fields a b) (hsub : ∀ f ∈ fields, f ∈ fields') : Widened fields' a b := by
  cases h with
  | refl => exact .refl _
  | aggregate a hm => exact .aggregate a fun f hf => hsub f (hm f hf)
  | stack s hm => exact .stack s fun f hf => hsub f (hm f hf)

/-- The fields of the facets on a way. -/
def facetFields (w : List (Nat × Stage)) : List String := w.flatMap fun e => e.2.partitionFields

/-- A way that what groups below another way may stand below instead: it derives as much, no other
    aggregations are on it, and no other facets. -/
structure Supplies (w w' : List (Nat × Stage)) : Prop where
  derives : ∀ e ∈ w, e.2.derives = true → ∃ e' ∈ w', ∃ fields, e.2.Widened fields e'.2
  aggregates : ∀ e' ∈ w', e'.2.tag = .aggregate → ∃ e ∈ w, ∃ fields, e.2.Widened fields e'.2
  facets : ∀ f ∈ facetFields w', f ∈ facetFields w

/-- A way supplies what it supplied. -/
theorem Supplies.refl (w : List (Nat × Stage)) : Supplies w w :=
  ⟨fun e he _ => ⟨e, he, [], .refl _⟩, fun e he _ => ⟨e, he, [], .refl _⟩, fun _ h => h⟩

/-- Grouping by more fields keeps the kind of a stage. -/
theorem Stage.Widened.tag_eq {fields : List String} {a b : Stage} (h : Widened fields a b) :
    b.tag = a.tag := by
  cases h <;> rfl

/-- What a third way supplies is what the first did, with all fields that came on the way. -/
theorem Supplies.trans {w₁ w₂ w₃ : List (Nat × Stage)} (h₁ : Supplies w₁ w₂)
    (h₂ : Supplies w₂ w₃) : Supplies w₁ w₃ where
  derives e he hd := by
    obtain ⟨e₂, he₂, fields₁, hw₁⟩ := h₁.derives e he hd
    obtain ⟨e₃, he₃, fields₂, hw₂⟩ :=
      h₂.derives e₂ he₂ ((Stage.derives_congr hw₁.tag_eq).trans hd)
    exact ⟨e₃, he₃, fields₁ ++ fields₂, (hw₁.mono (by simp +contextual)).trans
      (hw₂.mono (by simp +contextual))⟩
  aggregates e₃ he₃ ht := by
    obtain ⟨e₂, he₂, fields₂, hw₂⟩ := h₂.aggregates e₃ he₃ ht
    obtain ⟨e₁, he₁, fields₁, hw₁⟩ := h₁.aggregates e₂ he₂ (hw₂.tag_eq.symm.trans ht)
    exact ⟨e₁, he₁, fields₁ ++ fields₂, (hw₁.mono (by simp +contextual)).trans
      (hw₂.mono (by simp +contextual))⟩
  facets f hf := h₁.facets f (h₂.facets f hf)

variable {C : Stage → Stage → Prop} {pass : Pass} {policy : FacetPolicy}
  {w w' : List (Nat × Stage)} {a b c : Stage} {dims : List String}

/-- A change of a way that joins nothing that derives supplies what groups below. -/
theorem Rerouted.supplies (h : Rerouted C pass policy w w')
    (hC : ∀ a b c, Joins pass a b c → C a b → a.derives = false) : Supplies w w' := by
  cases h with
  | refl => exact .refl w
  | @join a b c h hab l p i r =>
    have ha := hC a b c h hab
    have hb := (Stage.derives_congr h.tag_eq).trans ha
    have hc := (Stage.derives_congr (Stage.tag_of_merge? h.merged)).trans ha
    -- what derives is not joined, so no aggregation is new
    have hagg : c.tag ≠ .aggregate := by
      intro ht
      simp [Stage.derives, ht] at hc
    obtain ⟨hfa, hfb, hfc⟩ := h.partitionFields
    refine ⟨fun e he hd => ?_, fun e he ht => ?_, fun f hf => ?_⟩
    · simp only [List.mem_append, List.mem_cons] at he
      rcases he with he | rfl | rfl | he
      · exact ⟨e, by simp [he], [], .refl _⟩
      · simp [ha] at hd
      · simp [hb] at hd
      · exact ⟨e, by simp [he], [], .refl _⟩
    · simp only [List.mem_append, List.mem_cons] at he
      rcases he with he | rfl | he
      · exact ⟨e, by simp [he], [], .refl _⟩
      · exact absurd ht hagg
      · exact ⟨e, by simp [he], [], .refl _⟩
    · simpa [facetFields, hfa, hfb, hfc] using hf
  | @rise a b dims h _ l p i r =>
    obtain ⟨hfb, hfb'⟩ := h.partitionFields
    have hw : b.Widened dims (b.addDimensions dims) :=
      Stage.widened_addDimensions (fun _ hf => hf) b
    refine ⟨fun e he _ => ?_, fun e he _ => ?_, fun f hf => ?_⟩
    · simp only [List.mem_append, List.mem_cons] at he
      rcases he with he | rfl | rfl | he
      · exact ⟨e, by simp [he], [], .refl _⟩
      · exact ⟨(p, a), by simp, [], .refl _⟩
      · exact ⟨(i, b.addDimensions dims), by simp, dims, hw⟩
      · exact ⟨e, by simp [he], [], .refl _⟩
    · simp only [List.mem_append, List.mem_cons] at he
      rcases he with he | rfl | rfl | he
      · exact ⟨e, by simp [he], [], .refl _⟩
      · exact ⟨(i, b), by simp, dims, hw⟩
      · exact ⟨(p, a), by simp, [], .refl _⟩
      · exact ⟨e, by simp [he], [], .refl _⟩
    · simpa [facetFields, hfb, hfb'] using hf
  | drop h l i types r =>
    refine ⟨fun e he hd => ?_, fun e he _ => ⟨e, ?_, [], .refl _⟩, fun f hf => ?_⟩
    · simp only [List.mem_append, List.mem_cons] at he
      rcases he with he | rfl | he
      · exact ⟨e, by simp [he], [], .refl _⟩
      · simp [Stage.derives, Stage.tag] at hd
      · exact ⟨e, by simp [he], [], .refl _⟩
    · simp only [List.mem_append, List.mem_cons] at he ⊢
      tauto
    · simpa [facetFields, Stage.partitionFields] using hf
  | widen h l i types types' r =>
    refine ⟨fun e he hd => ?_, fun e he ht => ?_, fun f hf => ?_⟩
    · simp only [List.mem_append, List.mem_cons] at he
      rcases he with he | rfl | he
      · exact ⟨e, by simp [he], [], .refl _⟩
      · simp [Stage.derives, Stage.tag] at hd
      · exact ⟨e, by simp [he], [], .refl _⟩
    · simp only [List.mem_append, List.mem_cons] at he
      rcases he with he | rfl | he
      · exact ⟨e, by simp [he], [], .refl _⟩
      · simp [Stage.tag] at ht
      · exact ⟨e, by simp [he], [], .refl _⟩
    · simpa [facetFields, Stage.partitionFields] using hf

/-- A change of a way leaves the calculations on it. -/
theorem Rerouted.mem_of_calculate (h : Rerouted C pass policy w w') {e : Nat × Stage} (he : e ∈ w)
    (ht : e.2.tag = .calculate) : e ∈ w' := by
  cases h with
  | refl => exact he
  | @join a b c h _ l p i r =>
    -- two calculations are never joined
    have hne : b.tag ≠ .calculate := by
      intro hb
      have hm := h.merged
      cases b <;> simp [Stage.tag] at hb
      cases a <;> simp [Stage.merge?] at hm
    simp only [List.mem_append, List.mem_cons] at he ⊢
    rcases he with he | rfl | rfl | he
    · exact .inl he
    · exact absurd (h.tag_eq.trans ht) hne
    · exact absurd ht hne
    · exact .inr (.inr he)
  | @rise a b dims h _ l p i r =>
    simp only [List.mem_append, List.mem_cons] at he ⊢
    rcases he with he | rfl | rfl | he
    · exact .inl he
    · exact .inr (.inr (.inl rfl))
    · cases b <;> simp_all [Stage.tag, Stage.addDimensions]
    · exact .inr (.inr (.inr he))
  | drop h l i types r =>
    simp only [List.mem_append, List.mem_cons] at he ⊢
    rcases he with he | rfl | he
    · exact .inl he
    · simp [Stage.tag] at ht
    · exact .inr he
  | widen h l i types types' r =>
    simp only [List.mem_append, List.mem_cons] at he ⊢
    rcases he with he | rfl | he
    · exact .inl he
    · simp [Stage.tag] at ht
    · exact .inr (.inr he)

/-- Only a conversion rises above a calculation, or above what groups. -/
theorem Rises.parse_of_barrier (h : Rises pass policy a b dims)
    (ha : a.tag = .calculate ∨ a.isGrouping = true) : ∃ types, b = .parse types := by
  have hp := h.passage
  by_cases ht : b.tag = .parse
  · cases b <;> simp [Stage.tag] at ht ⊢
  · cases a <;> simp [Stage.tag, Stage.isGrouping] at ha <;> simp [Move.passage?, ht] at hp

/-- What groups rises above nothing that derives. -/
theorem Rises.not_derives (h : Rises pass policy a b dims) (hb : b.isGrouping = true) :
    a.derives = false := by
  have hh := h.handled
  have hp := h.passage
  have htag : b.tag = .aggregate ∨ b.tag = .stack := by
    rw [Stage.isGrouping] at hb
    generalize b.tag = t at hb hh ⊢
    cases t <;> simp at hb ⊢ <;> cases pass <;> simp [Pass.handles] at hh
  rcases htag with htag | htag <;>
    cases a <;> simp [Move.passage?, htag] at hp <;> simp [Stage.derives, Stage.tag]

namespace Forest

variable {f f' : Forest Stage}

/-- A place before and after: it stays below the same calculations and, if it groups, below what
    derives fields, but for fields of facets above that it may group by as well. -/
structure Place.Traced (v v' : Place Stage) : Prop where
  id_eq : v'.id = v.id
  tag_eq : v'.content.tag = v.content.tag
  calculations : ∀ e ∈ v.above, e.2.tag = .calculate → e ∈ v'.above
  grouping : v.content.isGrouping = true →
    Supplies v.above v'.above ∧ v.content.Widened (facetFields v.above) v'.content

/-- A place is traced back to itself. -/
theorem Place.Traced.refl (v : Place Stage) : v.Traced v :=
  ⟨rfl, rfl, fun _ h _ => h, fun _ => ⟨.refl _, .refl _⟩⟩

/-- A place that is traced back twice is traced back. -/
theorem Place.Traced.trans {v₁ v₂ v₃ : Place Stage} (h₁ : v₁.Traced v₂) (h₂ : v₂.Traced v₃) :
    v₁.Traced v₃ where
  id_eq := h₂.id_eq.trans h₁.id_eq
  tag_eq := h₂.tag_eq.trans h₁.tag_eq
  calculations e he ht := h₂.calculations e (h₁.calculations e he ht) ht
  grouping hg := by
    -- the fields of facets that came second were those of facets before
    obtain ⟨hs₁, hw₁⟩ := h₁.grouping hg
    obtain ⟨hs₂, hw₂⟩ := h₂.grouping ((Stage.isGrouping_congr h₁.tag_eq).trans hg)
    exact ⟨hs₁.trans hs₂, hw₁.trans (hw₂.mono hs₁.facets)⟩

/-- A place keeps what it has to keep, unless it is that of a conversion. -/
theorem Place.Moved.traced {v v' : Place Stage} (h : v.Moved C pass policy v')
    (hC : ∀ a b c, Joins pass a b c → C a b → a.derives = false)
    (hv' : v'.content.tag ≠ .parse) : v.Traced v' := by
  cases h with
  | around h i a =>
    exact ⟨rfl, rfl, fun e he => h.mem_of_calculate he, fun _ => ⟨h.supplies hC, .refl _⟩⟩
  | @passed a b dims h w p i =>
    refine ⟨rfl, rfl, fun e he _ => List.mem_append_left _ he, fun hg => ⟨?_, .refl _⟩⟩
    obtain ⟨types, rfl⟩ := h.parse_of_barrier (.inr hg)
    refine ⟨fun e he _ => ⟨e, List.mem_append_left _ he, [], .refl _⟩, fun e he ht => ?_, ?_⟩
    · rcases List.mem_append.1 he with he | he
      · exact ⟨e, he, [], .refl _⟩
      · obtain rfl := List.mem_singleton.1 he
        exact absurd ht (by simp [Stage.addDimensions, Stage.tag])
    · simp [facetFields, Stage.addDimensions, Stage.partitionFields]
  | @risen a b dims h w p i =>
    have htag := Stage.tag_addDimensions dims b
    refine ⟨rfl, htag, fun e he ht => ?_, fun hg => ⟨⟨fun e he hd => ?_, ?_, ?_⟩, ?_⟩⟩
    · rcases List.mem_append.1 he with he | he
      · exact he
      · obtain rfl := List.mem_singleton.1 he
        obtain ⟨types, rfl⟩ := h.parse_of_barrier (.inl ht)
        exact absurd rfl hv'
    · rcases List.mem_append.1 he with he | he
      · exact ⟨e, he, [], .refl _⟩
      · obtain rfl := List.mem_singleton.1 he
        have hnot := h.not_derives hg
        simp [hnot] at hd
    · exact fun e he _ => ⟨e, List.mem_append_left _ he, [], .refl _⟩
    · intro f hf
      rw [facetFields, List.flatMap_append]
      exact List.mem_append_left _ hf
    · -- only the fields of a facet are added
      refine Stage.widened_addDimensions (fun f hf => ?_) b
      exact List.mem_flatMap.2 ⟨(p, a), by simp, (h.grouping hg).2 f hf⟩
  | @joined a b c h hab w p =>
    refine ⟨rfl, Stage.tag_of_merge? h.merged, fun e he _ => he, fun hg => ?_⟩
    -- nothing that groups is joined
    have hnot := hC a b c h hab
    have hm := h.merged
    have hh := h.handled
    have hga : a.isGrouping = true := hg
    cases a <;> simp [Stage.isGrouping, Stage.derives, Stage.tag] at hga hnot <;>
      cases b <;> simp [Stage.merge?] at hm
    cases pass <;> simp [Pass.handles, Stage.tag] at hh

/-- Every place after a move is traced back to one before it, unless it is that of a
    conversion. -/
theorem Rewrites.exists_traced (h : Rewrites pass policy f f') (hadj : f.Adjoins C)
    (hC : ∀ a b c, Joins pass a b c → C a b → a.derives = false) {v' : Place Stage}
    (hv' : v' ∈ f'.places []) (ht : v'.content.tag ≠ .parse) : ∃ v ∈ f.places [], v.Traced v' := by
  rcases h.exists_moved hadj hv' with ⟨v, hv, hmoved⟩ | ⟨-, hparse⟩
  · exact ⟨v, hv, hmoved.traced hC ht⟩
  · exact absurd hparse ht

/-- All places of a forest but those of conversions are traced back to places of another one. -/
def Traces (f f' : Forest Stage) : Prop :=
  ∀ v' ∈ f'.places [], v'.content.tag ≠ .parse → ∃ v ∈ f.places [], v.Traced v'

/-- A forest is traced back to itself. -/
theorem Traces.refl (f : Forest Stage) : f.Traces f := fun v hv _ => ⟨v, hv, .refl v⟩

/-- Forests are traced back one after the other. -/
theorem Traces.trans {f₁ f₂ f₃ : Forest Stage} (h₁ : f₁.Traces f₂) (h₂ : f₂.Traces f₃) :
    f₁.Traces f₃ := by
  intro v₃ hv₃ ht
  obtain ⟨v₂, hv₂, h₂₃⟩ := h₂ v₃ hv₃ ht
  obtain ⟨v₁, hv₁, h₁₂⟩ := h₁ v₂ hv₂ (h₂₃.tag_eq ▸ ht)
  exact ⟨v₁, hv₁, h₁₂.trans h₂₃⟩

/-- The moves of a pass trace back, unless it moves conversions. -/
theorem traces_of_rewrites (h : Relation.ReflTransGen (Rewrites pass policy) f f')
    (hp : pass ≠ .parse) (hn : f.Narrow) (hf : f.Fenced Stage.Unlike []) :
    f'.Narrow ∧ f'.Fenced Stage.Unlike [] ∧ f.Traces f' := by
  induction h with
  | refl => exact ⟨hn, hf, .refl f⟩
  | tail _ h ih =>
    obtain ⟨hng, hfg, htraces⟩ := ih
    refine ⟨h.narrow hng, h.fenced hp (Stage.unlike_stable pass policy) hng hfg, htraces.trans ?_⟩
    -- what is joined stands in a row, so it does not derive
    refine fun v' hv' ht => h.exists_traced hfg.adjoins (fun a b c hj hab => ?_) hv' ht
    by_contra hd
    exact hab (by simpa using hd) hj.tag_eq

/-- The moves of the pass for conversions trace back: it joins nothing else. -/
theorem traces_of_parse (h : Relation.ReflTransGen (Rewrites .parse policy) f f') :
    f.Traces f' := by
  induction h with
  | refl => exact .refl f
  | tail _ h ih =>
    refine ih.trans fun v' hv' ht => h.exists_traced adjoins_true (fun a b c hj _ => ?_) hv' ht
    have hh := hj.handled
    rw [hj.tag_eq] at hh
    cases a <;> simp_all [Pass.handles, Stage.derives, Stage.tag]

/-- Passes that do not move conversions trace back. -/
theorem traces_of_passes {passes : List Pass} (h : Flow.Passes policy passes f f')
    (hp : .parse ∉ passes) (hn : f.Narrow) (hf : f.Fenced Stage.Unlike []) : f.Traces f' := by
  induction h with
  | nil f => exact .refl f
  | cons hr _ _ _ ih =>
    rw [List.mem_cons, not_or] at hp
    obtain ⟨hng, hfg, htraces⟩ := traces_of_rewrites hr (Ne.symm hp.1) hn hf
    exact htraces.trans (ih hp.2 hng hfg)

/-- All passes together trace back. -/
theorem traces_of_hoist (h : Flow.Passes policy Pass.all f f') (hn : f.Narrow)
    (hf : f.Fenced Stage.Unlike []) : f.Traces f' := by
  obtain ⟨g, hfirst, hlast⟩ := Flow.Passes.of_append
    [.stack, .aggregate, .bin, .timeUnit, .nullFilter, .transforms] [.parse] h
  cases hlast with
  | cons hr _ _ hnil =>
    cases hnil
    exact (traces_of_passes hfirst (by simp) hn hf).trans (traces_of_parse hr)

/-- Taking out stages that do nothing keeps what a place has to keep. -/
theorem Place.traced_prune (v : Place Stage) : v.Traced (v.prune Stage.isVacuous) where
  id_eq := rfl
  tag_eq := rfl
  calculations e he ht := by
    refine List.mem_filter.2 ⟨he, ?_⟩
    revert ht
    cases e.2 <;> simp [Stage.tag, Stage.isVacuous]
  grouping _ := by
    refine ⟨⟨fun e he hd => ⟨e, List.mem_filter.2 ⟨he, ?_⟩, [], .refl _⟩,
      fun e he _ => ⟨e, (List.mem_filter.1 he).1, [], .refl _⟩, fun f hf => ?_⟩, .refl _⟩
    · revert hd
      cases e.2 <;> simp [Stage.derives, Stage.tag, Stage.isVacuous]
    · obtain ⟨e, he, hfield⟩ := List.mem_flatMap.1 hf
      exact List.mem_flatMap.2 ⟨e, (List.mem_filter.1 he).1, hfield⟩

/-- So does the elimination. -/
theorem traces_prune (f : Forest Stage) : f.Traces (f.prune Stage.isVacuous) := by
  intro v' hv' _
  obtain ⟨v, hv, rfl⟩ := exists_of_mem_places_prune hv'
  exact ⟨v, hv, v.traced_prune⟩

end Forest

end ChartPipeline
