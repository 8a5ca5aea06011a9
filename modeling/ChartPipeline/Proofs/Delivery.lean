import ChartPipeline.Proofs.Declared
import ChartPipeline.Proofs.Lookup
import ChartPipeline.Proofs.Sweeping

/-!
# What hoisting leaves as it was

Charts read the data of required outputs and of facet headers.  Whatever the passes move, on the
way to such a place the same rows are dropped and grouped: the predicates of the filters in their
order, the fields whose invalid values are dropped, and the stages that look at several rows, which
may group by the fields of a facet as well.

## Key results

- `Rerouted.keeps`: a change of a way keeps what the way drops and groups
- `hoist_keeps_endpoints`: hoisting and elimination keep it on the way to every endpoint
-/

namespace ChartPipeline

/-! ### What a stage drops and groups -/

namespace Stage

/-- The predicates that a stage filters by. -/
def predicates : Stage → List Predicate
  | filter ps => ps
  | _ => []

/-- The fields whose invalid values a stage drops. -/
def dropped : Stage → List String
  | nullFilter flags => flags.dropped
  | _ => []

/-- The fields that the partitions of a stage differ in. -/
def partitionFields : Stage → List String
  | facet p => p.groupby
  | _ => []

/-- Whether a stage looks at several rows at once, or drops values after aggregation. -/
def groups (a : Stage) : Bool := a.isGrouping && !a.isVacuous

/-- The same stage, which may group by more of the fields at the end. -/
inductive Widened (fields : List String) : Stage → Stage → Prop
  | refl (a) : Widened fields a a
  | aggregate (a : Aggregation) {more} (h : ∀ f ∈ more, f ∈ fields) :
      Widened fields (.aggregate a) (.aggregate { a with dimensions := a.dimensions ++ more })
  | stack (s : Stacking) {more} (h : ∀ f ∈ more, f ∈ fields) :
      Widened fields (.stack s) (.stack { s with groupby := s.groupby ++ more })

/-- Fields added twice are fields added once, as both times at the end. -/
theorem Widened.trans {fields : List String} {a b c : Stage} (h : Widened fields a b)
    (h' : Widened fields b c) : Widened fields a c := by
  cases h with
  | refl => exact h'
  | aggregate a hm =>
    cases h' with
    | refl => exact .aggregate a hm
    | @aggregate _ more' hm' =>
      simp only [List.append_assoc]
      exact .aggregate a fun f hf => (List.mem_append.1 hf).elim (hm f) (hm' f)
  | stack s hm =>
    cases h' with
    | refl => exact .stack s hm
    | @stack _ more' hm' =>
      simp only [List.append_assoc]
      exact .stack s fun f hf => (List.mem_append.1 hf).elim (hm f) (hm' f)

end Stage

/-- Names are added at the end. -/
theorem exists_addNames_eq (names more : List String) :
    ∃ extra, addNames names more = names ++ extra ∧ ∀ f ∈ extra, f ∈ more := by
  induction more generalizing names with
  | nil => exact ⟨[], by simp [addNames], by simp⟩
  | cons n more ih =>
    simp only [addNames, List.foldl_cons]
    -- a name that is there already is not added again
    split
    · obtain ⟨extra, h, hmem⟩ := ih names
      exact ⟨extra, h, fun f hf => List.mem_cons_of_mem n (hmem f hf)⟩
    · obtain ⟨extra, h, hmem⟩ := ih (names ++ [n])
      refine ⟨n :: extra, by rw [addNames] at h; rw [h, List.append_assoc]; rfl, fun f hf => ?_⟩
      rcases List.mem_cons.1 hf with rfl | hf
      · simp
      · exact List.mem_cons_of_mem n (hmem f hf)

/-- The names of both lists are there. -/
theorem mem_addNames {names more : List String} {name : String} :
    name ∈ addNames names more ↔ name ∈ names ∨ name ∈ more := by
  induction more generalizing names with
  | nil => simp [addNames]
  | cons n more ih =>
    rw [addNames, List.foldl_cons, ← addNames, ih]
    split
    · next h =>
      have hn : n ∈ names := by simpa using h
      constructor
      · rintro (h | h) <;> simp [h]
      · rintro (h | h)
        · exact .inl h
        · rcases List.mem_cons.1 h with rfl | h
          · exact .inl hn
          · exact .inr h
    · simp [or_assoc]

/-- The fields that a stage is grouped by on the way past a facet come from that facet. -/
theorem Stage.widened_addDimensions {fields dims : List String} (h : ∀ f ∈ dims, f ∈ fields)
    (b : Stage) : Widened fields b (b.addDimensions dims) := by
  cases b with
  | aggregate a =>
    obtain ⟨extra, heq, hmem⟩ := exists_addNames_eq a.dimensions dims
    simp only [addDimensions, Aggregation.addDimensions, heq]
    exact .aggregate a fun f hf => h f (hmem f hf)
  | stack s =>
    obtain ⟨extra, heq, hmem⟩ := exists_addNames_eq s.groupby dims
    simp only [addDimensions, Stacking.addDimensions, heq]
    exact .stack s fun f hf => h f (hmem f hf)
  | _ => exact .refl _

/-- The fields that are dropped for are those whose flag is set. -/
theorem FieldFlags.mem_dropped {flags : FieldFlags} {field : String} :
    field ∈ flags.dropped ↔ flags.get? field = some true := by
  rw [dropped, List.mem_map]
  constructor
  · rintro ⟨e, he, rfl⟩
    obtain ⟨hmem, hset⟩ := List.mem_filter.1 he
    rw [SortedMap.mem_entries_iff.1 hmem, hset]
  · intro h
    exact ⟨(field, true), List.mem_filter.2 ⟨SortedMap.mem_entries_iff.2 h, rfl⟩, rfl⟩

/-- A null filter does nothing exactly if it drops for no field. -/
theorem FieldFlags.isVacuous_iff {flags : FieldFlags} :
    flags.isVacuous = true ↔ flags.dropped = [] := by
  simp [isVacuous, dropped, List.filter_eq_nil_iff]

/-- Joined null filters drop what both drop. -/
theorem FieldFlags.mem_dropped_merge {a b : FieldFlags} {field : String} :
    field ∈ (a.merge b).dropped ↔ field ∈ a.dropped ∨ field ∈ b.dropped := by
  rw [mem_dropped, mem_dropped, mem_dropped, merge, SortedMap.get?_mergeWith]
  cases a.get? field <;> cases b.get? field <;> simp

/-! ### What a move changes -/

variable {C : Stage → Stage → Prop} {pass : Pass} {policy : FacetPolicy} {a b c : Stage}
  {dims : List String}

/-- Joined filters have the predicates of both in their order. -/
theorem Joins.predicates (h : Joins pass a b c) : c.predicates = a.predicates ++ b.predicates := by
  have := h.merged
  cases a <;> cases b <;> simp only [Stage.merge?, reduceCtorEq, Option.some.injEq] at this <;>
    subst this <;> rfl

/-- Joined null filters drop for the fields of both. -/
theorem Joins.mem_dropped (h : Joins pass a b c) {field : String} :
    field ∈ c.dropped ↔ field ∈ a.dropped ∨ field ∈ b.dropped := by
  have := h.merged
  cases a <;> cases b <;> simp only [Stage.merge?, reduceCtorEq, Option.some.injEq] at this <;>
    subst this <;> simp [Stage.dropped, FieldFlags.mem_dropped_merge]

/-- Facets never join. -/
theorem Joins.partitionFields (h : Joins pass a b c) :
    a.partitionFields = [] ∧ b.partitionFields = [] ∧ c.partitionFields = [] := by
  have := h.merged
  cases a <;> cases b <;> simp only [Stage.merge?, reduceCtorEq, Option.some.injEq] at this <;>
    subst this <;> simp [Stage.partitionFields]

/-- A stage that rises drops nothing, or the stage that it passes drops nothing. -/
theorem Rises.predicates (h : Rises pass policy a b dims) :
    a.predicates ++ b.predicates = (b.addDimensions dims).predicates ++ a.predicates := by
  have := h.tag_ne
  cases a <;> cases b <;> simp_all [Stage.predicates, Stage.addDimensions, Stage.tag]

/-- Grouping by more fields drops nothing more. -/
theorem Rises.dropped (_ : Rises pass policy a b dims) :
    (b.addDimensions dims).dropped = b.dropped := by
  cases b <;> rfl

/-- Facets never rise. -/
theorem Rises.partitionFields (h : Rises pass policy a b dims) :
    b.partitionFields = [] ∧ (b.addDimensions dims).partitionFields = [] := by
  have := h.handled
  cases pass <;> cases b <;> simp_all [Stage.partitionFields, Stage.addDimensions, Stage.tag,
    Pass.handles]

/-- A stage that groups rises above no other one, and only a facet adds to its fields. -/
theorem Rises.grouping (h : Rises pass policy a b dims) (hb : b.isGrouping = true) :
    a.isGrouping = false ∧ ∀ f ∈ dims, f ∈ a.partitionFields := by
  have hh := h.handled
  have hp := h.passage
  cases b <;> simp only [Stage.isGrouping, Stage.tag, reduceCtorEq, decide_false, Bool.or_self,
    Bool.false_eq_true] at hb <;>
  cases pass <;> simp only [Pass.handles, Stage.tag, Bool.false_eq_true] at hh <;>
  cases a <;> simp_all [Move.passage?, Stage.tag, Stage.isGrouping, Stage.partitionFields]
  all_goals (try split at hp) <;> simp_all

/-! ### What a way drops and groups -/

/-- Ways on which rows are filtered alike: by the same predicates in the same order, and dropped for
    the same fields. -/
structure FiltersAlike (w w' : List (Nat × Stage)) : Prop where
  predicates : w'.flatMap (·.2.predicates) = w.flatMap (·.2.predicates)
  dropped : ∀ field, field ∈ w'.flatMap (·.2.dropped) ↔ field ∈ w.flatMap (·.2.dropped)

namespace FiltersAlike

variable {v v' w w' : List (Nat × Stage)}

theorem refl (w : List (Nat × Stage)) : FiltersAlike w w := ⟨rfl, fun _ => .rfl⟩

theorem symm (h : FiltersAlike v w) : FiltersAlike w v :=
  ⟨h.predicates.symm, fun field => (h.dropped field).symm⟩

theorem trans (h : FiltersAlike v w) (h' : FiltersAlike w w') : FiltersAlike v w' where
  predicates := h'.predicates.trans h.predicates
  dropped field := (h'.dropped field).trans (h.dropped field)

theorem append (h : FiltersAlike v v') (h' : FiltersAlike w w') :
    FiltersAlike (v ++ w) (v' ++ w') where
  predicates := by rw [List.flatMap_append, List.flatMap_append, h.predicates, h'.predicates]
  dropped field := by
    rw [List.flatMap_append, List.flatMap_append, List.mem_append, List.mem_append, h.dropped,
      h'.dropped]

end FiltersAlike

/-- A change of a way keeps how rows are filtered. -/
theorem Rerouted.filtersAlike {w w' : List (Nat × Stage)} (h : Rerouted C pass policy w w') :
    FiltersAlike w w' := by
  -- a join filters as both its parts do, and of two stages that are exchanged only one is a filter
  cases h with
  | refl => exact .refl _
  | @join a b c h _ l p i r =>
    refine ⟨?_, fun field => ?_⟩
    · simp [h.predicates]
    · simp [h.mem_dropped, or_assoc]
  | @rise a b dims h _ l p i r =>
    refine ⟨?_, fun field => ?_⟩
    · simp only [List.flatMap_append, List.flatMap_cons, ← List.append_assoc]
      simp only [List.append_assoc, ← h.predicates]
    · simp only [List.flatMap_append, List.flatMap_cons, List.mem_append, h.dropped]
      tauto
  | drop h l i types r =>
    refine ⟨?_, fun field => ?_⟩
    · simp [Stage.predicates]
    · simp [Stage.dropped]
  | widen h l i types types' r =>
    refine ⟨?_, fun field => ?_⟩
    · simp [Stage.predicates]
    · simp [Stage.dropped]

/-- What is the same on two ways: the predicates in their order, the fields that are dropped for,
    and the stages that group, but for fields of facets that they group by as well. -/
structure Keeps (w w' : List (Nat × Stage)) : Prop where
  predicates : w'.flatMap (·.2.predicates) = w.flatMap (·.2.predicates)
  dropped : ∀ field, field ∈ w'.flatMap (·.2.dropped) ↔ field ∈ w.flatMap (·.2.dropped)
  partitionFields : w'.flatMap (·.2.partitionFields) = w.flatMap (·.2.partitionFields)
  groups : List.Forall₂
    (fun e e' => e'.1 = e.1 ∧ e.2.Widened (w.flatMap (·.2.partitionFields)) e'.2)
    (w.filter (·.2.groups)) (w'.filter (·.2.groups))

/-- A way keeps its own. -/
theorem Keeps.refl (w : List (Nat × Stage)) : Keeps w w :=
  ⟨rfl, fun _ => .rfl, rfl, List.forall₂_same.2 fun _ _ => ⟨rfl, .refl _⟩⟩

/-- Relations between the items of three lists, one after the other. -/
theorem forall₂_trans {α : Type} {R S T : α → α → Prop}
    (h : ∀ a b c, R a b → S b c → T a c) {l₁ l₂ l₃ : List α} (h₁ : List.Forall₂ R l₁ l₂)
    (h₂ : List.Forall₂ S l₂ l₃) : List.Forall₂ T l₁ l₃ := by
  induction h₁ generalizing l₃ with
  | nil =>
    obtain rfl := List.forall₂_nil_left_iff.1 h₂
    exact .nil
  | cons hab _ ih =>
    obtain ⟨c, l, hbc, hrest, rfl⟩ := List.forall₂_cons_left_iff.1 h₂
    exact .cons (h _ _ _ hab hbc) (ih hrest)

/-- What is in a list is related to something in the other one. -/
theorem exists_mem_of_forall₂ {α β : Type} {R : α → β → Prop} {l : List α} {l' : List β}
    (h : List.Forall₂ R l l') {x : α} (hx : x ∈ l) : ∃ y ∈ l', R x y := by
  induction h with
  | nil => exact absurd hx (by simp)
  | cons hxy _ ih =>
    rcases List.mem_cons.1 hx with rfl | hx
    · exact ⟨_, List.mem_cons_self, hxy⟩
    · obtain ⟨y, hy, hr⟩ := ih hx
      exact ⟨y, List.mem_cons_of_mem _ hy, hr⟩

/-- What is kept twice is kept. -/
theorem Keeps.trans {w₁ w₂ w₃ : List (Nat × Stage)} (h₁ : Keeps w₁ w₂) (h₂ : Keeps w₂ w₃) :
    Keeps w₁ w₃ where
  predicates := h₂.predicates.trans h₁.predicates
  dropped field := (h₂.dropped field).trans (h₁.dropped field)
  partitionFields := h₂.partitionFields.trans h₁.partitionFields
  groups := by
    refine forall₂_trans (fun a b c hab hbc => ⟨hbc.1.trans hab.1, hab.2.trans ?_⟩)
      h₁.groups h₂.groups
    -- the fields that were added second are those of the facets in between, which are those of the
    -- first way
    rw [← h₁.partitionFields]
    exact hbc.2

/-- Whether a stage groups is read off its kind. -/
theorem Stage.isGrouping_congr {a b : Stage} (h : b.tag = a.tag) : b.isGrouping = a.isGrouping := by
  rw [isGrouping, isGrouping, h]

/-- A stage of a kind that does not group does not group. -/
theorem Stage.groups_of_not_isGrouping {a : Stage} (h : a.isGrouping = false) :
    a.groups = false := by
  rw [groups, h, Bool.false_and]

/-- More fields to group by make no stage group that did not. -/
theorem Stage.groups_addDimensions (dims : List String) (b : Stage) :
    (b.addDimensions dims).groups = b.groups := by
  cases b <;> rfl

/-- Parsing groups nothing. -/
theorem Stage.groups_parse (types : ParseTypes) : (parse types).groups = false := rfl

/-- Stages on a way of which no kind of grouping stands twice do not join if they group. -/
theorem Joins.not_grouping (h : Joins pass a b c) {l r : List (Nat × Stage)} {p i : Nat}
    (hw : Chart.GroupedOnce ((l ++ (p, a) :: (i, b) :: r).map Prod.snd)) :
    a.isGrouping = false := by
  -- two stages that join are of one kind, and neighbours on the way
  by_contra ha
  rw [Bool.not_eq_false] at ha
  have hb : b.isGrouping = true := (Stage.isGrouping_congr h.tag_eq).trans ha
  rw [Chart.GroupedOnce, List.map_append, List.filter_append, List.map_append] at hw
  have hnodup := (List.nodup_append.1 hw).2.1
  simp [ha, hb, h.tag_eq] at hnodup

/-- A change of a way keeps what it drops and groups. -/
theorem Rerouted.keeps {w w' : List (Nat × Stage)} (h : Rerouted C pass policy w w')
    (hw : Chart.GroupedOnce (w.map Prod.snd)) :
    Keeps w w' ∧ Chart.GroupedOnce (w'.map Prod.snd) := by
  have hfilters := h.filtersAlike
  -- a part of the way that is not touched keeps the stages that group
  have self (F : List String) (l : List (Nat × Stage)) :
      List.Forall₂ (fun e e' : Nat × Stage => e'.1 = e.1 ∧ e.2.Widened F e'.2)
        (l.filter (·.2.groups)) (l.filter (·.2.groups)) :=
    List.forall₂_same.2 fun _ _ => ⟨rfl, .refl _⟩
  cases h with
  | refl => exact ⟨.refl _, hw⟩
  | @join a b c h _ l p i r =>
    have ha := h.not_grouping hw
    have hb := (Stage.isGrouping_congr h.tag_eq).trans ha
    have hc := (Stage.isGrouping_congr (Stage.tag_of_merge? h.merged)).trans ha
    obtain ⟨hfa, hfb, hfc⟩ := h.partitionFields
    refine ⟨⟨hfilters.predicates, hfilters.dropped, ?_, ?_⟩, ?_⟩
    · simp [hfa, hfb, hfc]
    · simp only [List.filter_append, List.filter_cons, Stage.groups_of_not_isGrouping ha,
        Stage.groups_of_not_isGrouping hb, Stage.groups_of_not_isGrouping hc, Bool.false_eq_true,
        if_false]
      exact List.rel_append (self _ l) (self _ r)
    · simpa [Chart.GroupedOnce, ha, hb, hc] using hw
  | @rise a b dims h _ l p i r =>
    have hb' : (b.addDimensions dims).isGrouping = b.isGrouping :=
      Stage.isGrouping_congr (Stage.tag_addDimensions dims b)
    obtain ⟨hfb, hfb'⟩ := h.partitionFields
    refine ⟨⟨hfilters.predicates, hfilters.dropped, ?_, ?_⟩, ?_⟩
    · simp [hfb, hfb']
    · simp only [List.filter_append, List.filter_cons, Stage.groups_addDimensions]
      refine List.rel_append (self _ l) ?_
      cases hb : b.isGrouping with
      | true =>
        obtain ⟨ha, hdims⟩ := h.grouping hb
        rw [Stage.groups_of_not_isGrouping ha]
        simp only [Bool.false_eq_true, if_false]
        -- a positive filter that drops nothing does not count
        split
        · refine .cons ⟨rfl, Stage.widened_addDimensions (fun f hf => ?_) b⟩ (self _ r)
          exact List.mem_flatMap.2 ⟨(p, a), by simp, hdims f hf⟩
        · exact self _ r
      | false =>
        rw [Stage.groups_of_not_isGrouping hb]
        simp only [Bool.false_eq_true, if_false]
        exact List.forall₂_same.2 fun _ _ => ⟨rfl, .refl _⟩
    · cases hb : b.isGrouping with
      | true => simpa [Chart.GroupedOnce, (h.grouping hb).1, hb, hb'] using hw
      | false => simpa [Chart.GroupedOnce, List.filter_cons, hb, hb'] using hw
  | drop h l i types r =>
    refine ⟨⟨hfilters.predicates, hfilters.dropped, ?_, ?_⟩, ?_⟩
    · simp [Stage.partitionFields]
    · simp only [List.filter_append, List.filter_cons, Stage.groups_parse, Bool.false_eq_true,
        if_false]
      exact List.rel_append (self _ l) (self _ r)
    · simpa [Chart.GroupedOnce, Stage.isGrouping, Stage.tag] using hw
  | widen h l i types types' r =>
    refine ⟨⟨hfilters.predicates, hfilters.dropped, ?_, ?_⟩, ?_⟩
    · simp [Stage.partitionFields]
    · simp only [List.filter_append, List.filter_cons, Stage.groups_parse, Bool.false_eq_true,
        if_false]
      exact List.rel_append (self _ l) (self _ r)
    · simpa [Chart.GroupedOnce, Stage.isGrouping, Stage.tag] using hw

/-! ### Endpoints -/

/-- Whether charts read the data that arrive at a stage. -/
def Stage.isEndpoint : Stage → Bool
  | output _ required => required
  | facetHeader _ => true
  | _ => false

/-- What rises above an endpoint neither drops nor groups. -/
theorem Rises.above_endpoint (h : Rises pass policy a b dims) (ha : a.isEndpoint = true) :
    (b.addDimensions dims).predicates = [] ∧ (b.addDimensions dims).dropped = [] ∧
      (b.addDimensions dims).isGrouping = false := by
  have hh := h.handled
  have hp := h.passage
  cases a <;> simp only [Stage.isEndpoint, Bool.false_eq_true] at ha <;> cases pass <;>
    cases b <;> simp_all [Stage.predicates, Stage.dropped, Stage.isGrouping, Stage.tag,
      Stage.addDimensions, Pass.handles, Move.passage?, Stage.changesRows]

/-- Above an endpoint, a pass keeps what is dropped and grouped. -/
theorem Forest.Place.Passed.keeps {o o' : Forest.Place Stage} (h : o.Passed C pass policy o')
    (he : o.content.isEndpoint = true) (hw : Chart.GroupedOnce (o.above.map Prod.snd)) :
    Keeps o.above o'.above ∧ Chart.GroupedOnce (o'.above.map Prod.snd) := by
  -- either the way above changed, or the stage just below the endpoint has risen above it
  rcases h.above with h | ⟨i, b, dims, h, -, habove⟩
  · exact h.keeps hw
  · obtain ⟨hp, hd, hg⟩ := h.above_endpoint he
    rw [habove]
    refine ⟨⟨?_, fun field => ?_, ?_, ?_⟩, ?_⟩
    · simp [hp]
    · simp [hd]
    · simp [h.partitionFields.2]
    · simp only [List.filter_append, List.filter_cons, Stage.groups_of_not_isGrouping hg,
        Bool.false_eq_true, if_false, List.filter_nil, List.append_nil]
      exact (Keeps.refl _).groups
    · rw [List.map_append]
      exact (Chart.groupedOnce_concat hg).2 hw

namespace Forest

/-- The places that charts read. -/
def endpoints (f : Forest Stage) : List (Place Stage) :=
  (f.places []).filter (·.content.isEndpoint)

/-- The endpoints are among the outlets, the places that no pass moves. -/
theorem endpoints_eq (f : Forest Stage) :
    f.endpoints = (f.outlets []).filter (·.content.isEndpoint) := by
  rw [endpoints, outlets, List.filter_filter]
  refine List.filter_congr fun v _ => ?_
  cases v.content <;> simp [Stage.isEndpoint, Stage.isOutlet, Stage.tag]

/-- An endpoint before and after: it is the same, and if no kind of grouping stands twice above it,
    the way to it keeps what it drops and groups. -/
structure Place.Kept (o o' : Place Stage) : Prop where
  id_eq : o'.id = o.id
  content_eq : o'.content = o.content
  keeps : Chart.GroupedOnce (o.above.map Prod.snd) →
    Keeps o.above o'.above ∧ Chart.GroupedOnce (o'.above.map Prod.snd)

/-- An endpoint is kept as it is. -/
theorem Place.Kept.refl (o : Place Stage) : o.Kept o := ⟨rfl, rfl, fun h => ⟨.refl _, h⟩⟩

/-- An endpoint that two moves keep is kept by both. -/
theorem Place.Kept.trans {o₁ o₂ o₃ : Place Stage} (h₁ : o₁.Kept o₂) (h₂ : o₂.Kept o₃) :
    o₁.Kept o₃ where
  id_eq := h₂.id_eq.trans h₁.id_eq
  content_eq := h₂.content_eq.trans h₁.content_eq
  keeps h := by
    obtain ⟨hk₁, hg₁⟩ := h₁.keeps h
    obtain ⟨hk₂, hg₂⟩ := h₂.keeps hg₁
    exact ⟨hk₁.trans hk₂, hg₂⟩

variable {f f' : Forest Stage}

/-- A move keeps what is dropped and grouped on the way to every endpoint. -/
theorem Rewrites.endpoints (h : Rewrites pass policy f f') :
    List.Forall₂ Place.Kept f.endpoints f'.endpoints := by
  rw [endpoints_eq, endpoints_eq]
  have hboth : List.Forall₂ (fun o o' : Place Stage => o.content.isEndpoint = true ∧
      o.Passed (fun _ _ => True) pass policy o') ((f.outlets []).filter (·.content.isEndpoint))
      ((f'.outlets []).filter (·.content.isEndpoint)) := by
    rw [List.forall₂_and_left]
    refine ⟨fun o ho => (List.mem_filter.1 ho).2, List.rel_filter (fun o o' ho => ?_)
      (h.outlets adjoins_true)⟩
    show o.content.isEndpoint = true ↔ o'.content.isEndpoint = true
    rw [ho.content_eq]
  exact hboth.imp fun o o' ⟨he, ho⟩ => ⟨ho.id_eq, ho.content_eq, ho.keeps he⟩

/-- So do the passes, one after the other. -/
theorem endpoints_of_passes {passes : List Pass} (h : Flow.Passes policy passes f f') :
    List.Forall₂ Place.Kept f.endpoints f'.endpoints := by
  refine h.rel (R := fun f f' => List.Forall₂ Place.Kept f.endpoints f'.endpoints) (fun f => ?_)
    (fun h₁ h₂ => ?_) Rewrites.endpoints
  · exact List.forall₂_same.2 fun o _ => .refl o
  · exact forall₂_trans (R := Place.Kept) (S := Place.Kept) (fun _ _ _ => Place.Kept.trans) h₁ h₂

/-! ### Elimination -/

/-- A place once the nodes above it that are as said are taken out. -/
def Place.prune {α : Type} (p : α → Bool) (v : Place α) : Place α :=
  { v with above := v.above.filter fun e => !p e.2 }

/-- Taking nodes out leaves the places of the others, below what is left above them. -/
theorem places_prune {α : Type} (p : α → Bool) (f : Forest α) (above : List (Nat × α)) :
    (f.prune p).places (above.filter fun e => !p e.2) =
      ((f.places above).filter fun v => !p v.content).map (Place.prune p) := by
  induction f generalizing above with
  | nil => rfl
  | node i a cs rest ihc ihr =>
    have ihc := ihc (above ++ [(i, a)])
    rw [List.filter_append] at ihc
    -- the two cases are whether the node itself is taken out; its children then hang below what is
    -- left above it
    rw [Forest.prune, places, List.filter_cons]
    cases ha : p a with
    | true =>
      simp only [ha, List.filter_cons, Bool.not_true, Bool.false_eq_true, if_false, if_true,
        List.filter_nil, List.append_nil] at ihc ⊢
      rw [places_append, ihc, ihr, List.filter_append, List.map_append]
    | false =>
      simp only [ha, List.filter_cons, Bool.not_false, Bool.false_eq_true, if_false, if_true,
        List.filter_nil] at ihc ⊢
      rw [places, ihc, ihr, List.filter_append, List.map_cons, List.map_append]
      rfl

section Prune

variable {α : Type} {p : α → Bool} {f : Forest α} {v : Place α}

/-- The places of a forest of which nodes were taken out: those of the others. -/
theorem places_prune_nil (p : α → Bool) (f : Forest α) :
    (f.prune p).places [] = ((f.places []).filter fun v => !p v.content).map (Place.prune p) :=
  places_prune p f []

/-- The place of a node that is not taken out is left. -/
theorem mem_places_prune (hv : v ∈ f.places []) (hp : p v.content = false) :
    v.prune p ∈ (f.prune p).places [] := by
  rw [places_prune_nil]
  exact List.mem_map_of_mem (List.mem_filter.2 ⟨hv, by simp [hp]⟩)

/-- A place that is left was a place before. -/
theorem exists_of_mem_places_prune (hv : v ∈ (f.prune p).places []) :
    ∃ u ∈ f.places [], u.prune p = v := by
  rw [places_prune_nil] at hv
  obtain ⟨u, hu, rfl⟩ := List.mem_map.1 hv
  exact ⟨u, (List.mem_filter.1 hu).1, rfl⟩

end Prune

end Forest

/-- A stage that does nothing drops nothing, does not group and is no endpoint. -/
theorem Stage.of_isVacuous {a : Stage} (h : a.isVacuous = true) :
    a.predicates = [] ∧ a.dropped = [] ∧ a.partitionFields = [] ∧ a.groups = false ∧
      a.isEndpoint = false := by
  cases a <;> simp_all [Stage.isVacuous, Stage.predicates, Stage.dropped, Stage.partitionFields,
    Stage.groups, Stage.isEndpoint, FieldFlags.isVacuous, FieldFlags.dropped, Stage.isGrouping,
    Stage.tag]

/-- What stages that do nothing do not have is the same on a way without them. -/
theorem flatMap_prune {β : Type} {g : Stage → List β}
    (hg : ∀ a : Stage, a.isVacuous = true → g a = []) (w : List (Nat × Stage)) :
    (w.filter fun e => !e.2.isVacuous).flatMap (fun e => g e.2) = w.flatMap fun e => g e.2 := by
  induction w with
  | nil => rfl
  | cons e w ih =>
    rw [List.filter_cons, List.flatMap_cons]
    cases hv : e.2.isVacuous with
    | true => simpa [hg _ hv] using ih
    | false => simpa using ih

/-- Without the stages that do nothing, a way keeps what it drops and groups. -/
theorem Keeps.prune (w : List (Nat × Stage)) : Keeps w (w.filter fun e => !e.2.isVacuous) where
  predicates := flatMap_prune (fun _ h => (Stage.of_isVacuous h).1) w
  dropped field := by rw [flatMap_prune (fun _ h => (Stage.of_isVacuous h).2.1) w]
  partitionFields := flatMap_prune (fun _ h => (Stage.of_isVacuous h).2.2.1) w
  groups := by
    have hsame : (w.filter fun e => !e.2.isVacuous).filter (·.2.groups) =
        w.filter (·.2.groups) := by
      rw [List.filter_filter]
      refine List.filter_congr fun e _ => ?_
      cases hv : e.2.isVacuous with
      | true => simp [(Stage.of_isVacuous hv).2.2.2.1]
      | false => simp
    rw [hsame]
    exact (Keeps.refl w).groups

namespace Forest

/-- Elimination keeps every endpoint, and what is dropped and grouped on the way to it. -/
theorem endpoints_prune (f : Forest Stage) :
    (f.prune Stage.isVacuous).endpoints = f.endpoints.map (Place.prune Stage.isVacuous) := by
  rw [endpoints, places_prune_nil, endpoints, List.filter_map, List.filter_filter]
  congr 1
  refine List.filter_congr fun v _ => ?_
  simp only [Function.comp, Place.prune]
  cases hv : v.content.isVacuous with
  | true => simp [(Stage.of_isVacuous hv).2.2.2.2]
  | false => simp

end Forest

/-- In the flow of a chart, no kind of grouping stands twice above an endpoint. -/
theorem Building.groupedOnce_endpoint {chart : Chart} {built : Building}
    (hb : Building.ofChart chart = .ok built) {o : Forest.Place Stage}
    (ho : o ∈ built.flow.stages.endpoints) : Chart.GroupedOnce (o.above.map Prod.snd) := by
  obtain ⟨hplace, he⟩ := List.mem_filter.1 ho
  have := Building.ofChart_groupedOnce hb hplace
  rw [Forest.Place.route, List.map_append] at this
  -- the endpoint itself does not group, so nothing is lost with it
  refine (Chart.groupedOnce_concat ?_).1 this
  revert he
  cases o.content <;> simp [Stage.isEndpoint, Stage.isGrouping, Stage.tag]

/-- Hoisting and elimination, for the data that charts read: on the way to every required output
    and every facet header the predicates of the filters are the same in the same order, the
    fields are the same that rows are dropped for, and the stages that group are the same, but for
    fields of facets on the way that they may group by as well. -/
theorem hoist_keeps_endpoints {chart : Chart} {built : Building} {policy : FacetPolicy} {n : Nat}
    {hoisted : Flow} (hb : Building.ofChart chart = .ok built)
    (hh : Flow.hoist policy n built.flow = (.ok (), hoisted)) :
    List.Forall₂ (fun o o' => o'.id = o.id ∧ o'.content = o.content ∧ Keeps o.above o'.above)
      built.flow.stages.endpoints
      ((Flow.eliminate : Edit CompileError Nat) hoisted).2.stages.endpoints := by
  have hkept := Forest.endpoints_of_passes (Flow.hoist_ok hh (Building.ofChart_lawful hb))
  rw [show ((Flow.eliminate : Edit CompileError Nat) hoisted).2.stages =
    hoisted.stages.prune Stage.isVacuous from rfl, Forest.endpoints_prune,
    List.forall₂_map_right_iff]
  refine ((List.forall₂_and_left _ _).2 ⟨fun o ho => ho, hkept⟩).imp fun o o' ⟨ho, h⟩ => ?_
  exact ⟨h.id_eq, h.content_eq,
    (h.keeps (Building.groupedOnce_endpoint hb ho)).1.trans (.prune o'.above)⟩

/-- A facet by `k` of a bar chart that counts the rows with `x > 0`. -/
def facetedCounts : Chart :=
  .facet { data := some (.named "rows") } { column := some (.named "k" .nominal) }
    (.unit { transforms := [.filter (.expression "datum.x > 0")] } .bar
      ((∅ : Encoding).insert .y .count) none)

/-- A chart with two endpoints, of which one is below a facet. -/
theorem hoist_keeps_endpoints_facetedCounts : ∃ built hoisted,
    Building.ofChart facetedCounts = .ok built ∧
      Flow.hoist .foldGroupby 32 built.flow = (.ok (), hoisted) ∧
      built.flow.stages.endpoints.length = 2 ∧
      List.Forall₂ (fun o o' => o'.id = o.id ∧ o'.content = o.content ∧ Keeps o.above o'.above)
        built.flow.stages.endpoints
        ((Flow.eliminate : Edit CompileError Nat) hoisted).2.stages.endpoints := by
  -- what runs is computed once, and the rest is read off it
  have hruns : (match Building.ofChart facetedCounts with
      | .ok built => built.flow.stages.endpoints.length = 2 &&
          (Flow.hoist .foldGroupby 32 built.flow).1.isOk
      | .error _ => false) = true := by decide +kernel
  cases hb : Building.ofChart facetedCounts with
  | error e => simp [hb] at hruns
  | ok built =>
    rw [hb] at hruns
    obtain ⟨hlength, hok⟩ := Bool.and_eq_true_iff.1 hruns
    have hh := Run.eq_ok_of_isOk hok
    exact ⟨built, _, rfl, hh, of_decide_eq_true hlength, hoist_keeps_endpoints hb hh⟩

end ChartPipeline
