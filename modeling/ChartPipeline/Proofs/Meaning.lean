import ChartPipeline.Compiler
import ChartPipeline.Proofs.Delivery

/-!
# What stages do to rows

A row is a finite map from fields to values.  An interpretation says what the texts of a chart
mean: predicates, expressions, bins, and whatever groups rows.  With it every stage takes a list of
rows to a list of rows, and a way takes the rows of its source to those that arrive at its end.

## Key results

- `Interpretation.run_prune`: stages that do nothing may be left out of a way
- `Rerouted.core`: passes keep what a way loads, filters and calculates, in the same order
-/

namespace ChartPipeline

/-- A row. -/
abbrev Row (V : Type) := SortedMap String V

/-- What the texts of charts mean, for values `V` and the extents `E` of fields. -/
structure Interpretation (V E : Type) where
  /-- The rows that are loaded from a source. -/
  load : Source → List (Row V)
  accepts : Predicate → Row V → Bool
  /-- Whether a row with this value in a field that it is dropped for stays. -/
  valid : Option V → Bool
  /-- The value of an expression in a row. -/
  evaluate : String → Row V → V
  /-- The expression of a time unit reads the field of the unit only. -/
  evaluate_timeUnit (unit : TimeUnit) (field : String) {r r' : Row V}
    (h : r.get? field = r'.get? field) :
    evaluate (unit.expression field) r = evaluate (unit.expression field) r'
  /-- The extent of a field with the given values. -/
  extent : List (Option V) → E
  /-- A fixed extent. -/
  bounds : Float → Float → E
  /-- The start and the end of the bin of a value. -/
  bin : BinStep → Option V → E → V × V
  /-- The label of a bin with a start and an end. -/
  label : String → Option V → Option V → V
  /-- What aggregation, sorting, stacking and the positive filter do. -/
  group : Stage → List (Row V) → List (Row V)

namespace Interpretation

variable {V E : Type} (I : Interpretation V E)

/-- Whether a row stays where invalid values are dropped. -/
def keeps (flags : FieldFlags) (r : Row V) : Bool :=
  flags.dropped.all fun field => I.valid (r.get? field)

/-- The extent that a binning step works with. -/
def extentOf (step : BinStep) (rows : List (Row V)) : E :=
  match step.extent with
  | .signal _ => I.extent (rows.map (·.get? step.field))
  | .bounds low high => I.bounds low high

/-- Sets the start and the end of a row's bin. -/
def binRow (step : BinStep) (x : E) (r : Row V) : Row V :=
  let ends := I.bin step (r.get? step.field) x
  (r.insert step.start ends.1).insert step.stop ends.2

/-- Sets the label of a row's bin from its start and its end. -/
def labelRow (step : BinStep) (label : String × String) (r : Row V) : Row V :=
  r.insert label.2 (I.label label.1 (r.get? step.start) (r.get? step.stop))

/-- Sets what a binning derives for a row. -/
def entryRow (e : BinEntry) (x : E) (r : Row V) : Row V :=
  e.label.elim (I.binRow e.step x r) fun label => I.labelRow e.step label (I.binRow e.step x r)

/-- Bins rows in one way. -/
def applyEntry (rows : List (Row V)) (e : BinEntry) : List (Row V) :=
  rows.map (I.entryRow e (I.extentOf e.step rows))

/-- Sets a field to the value of an expression. -/
def formulaRow (text field : String) (r : Row V) : Row V := r.insert field (I.evaluate text r)

/-- What a stage does to rows.  Facets keep the rows of all their partitions. -/
def apply : Stage → List (Row V) → List (Row V)
  | .source s, _ => I.load s
  | .filter ps, rows => rows.filter fun r => ps.all fun p => I.accepts p r
  | .calculate text field, rows => rows.map (I.formulaRow text field)
  | .nullFilter flags, rows => rows.filter (I.keeps flags)
  | .bin bins, rows => bins.values.foldl I.applyEntry rows
  | .timeUnit formulas, rows =>
    rows.map fun r => formulas.entries.foldl (fun r e => I.formulaRow e.2 e.1 r) r
  | .positiveFilter flags, rows =>
    if flags.isVacuous then rows else I.group (.positiveFilter flags) rows
  | .aggregate a, rows => I.group (.aggregate a) rows
  | .order sort, rows => I.group (.order sort) rows
  | .stack s, rows => I.group (.stack s) rows
  | .parse _, rows | .output .., rows | .facetHeader _, rows | .facet _, rows => rows

/-- What a way does to rows. -/
def run (w : List Stage) (rows : List (Row V)) : List (Row V) :=
  w.foldl (fun rows a => I.apply a rows) rows

/-- The rows that arrive at a place. -/
def rowsAt (o : Forest.Place Stage) : List (Row V) := I.run (o.above.map Prod.snd) []

/-- The data that charts read: each endpoint with the rows that arrive there. -/
def delivered (f : Forest Stage) : List (Stage × List (Row V)) :=
  f.endpoints.map fun o => (o.content, I.rowsAt o)

/-- A way without stages leaves the rows as they are. -/
@[simp] theorem run_nil (rows : List (Row V)) : I.run [] rows = rows := rfl

/-- The first stage of a way gets the rows first. -/
@[simp] theorem run_cons (a : Stage) (w : List Stage) (rows : List (Row V)) :
    I.run (a :: w) rows = I.run w (I.apply a rows) := rfl

/-- What a way leaves of the rows, a second way goes on with. -/
theorem run_append (w w' : List Stage) (rows : List (Row V)) :
    I.run (w ++ w') rows = I.run w' (I.run w rows) :=
  List.foldl_append

/-- Whether two stages may be exchanged. -/
def Commute (a b : Stage) : Prop := ∀ rows, I.apply b (I.apply a rows) = I.apply a (I.apply b rows)

/-! ### Stages that may be left out -/

/-- Stages that leave all rows as they are may be left out of a way. -/
theorem run_filter {p : Stage → Bool} {w : List Stage}
    (h : ∀ a ∈ w, p a = false → ∀ rows, I.apply a rows = rows) (rows : List (Row V)) :
    I.run (w.filter p) rows = I.run w rows := by
  induction w generalizing rows with
  | nil => rfl
  | cons a w ih =>
    have ih := ih fun b hb => h b (List.mem_cons_of_mem a hb)
    rw [List.filter_cons]
    cases ha : p a with
    | true => rw [if_pos rfl, run_cons, run_cons, ih]
    | false =>
      rw [if_neg (by simp), run_cons, ih, h a (by simp) ha]

/-- Where no field is dropped for, every row stays. -/
theorem keeps_of_dropped_eq_nil {flags : FieldFlags} (h : flags.dropped = []) (r : Row V) :
    I.keeps flags r = true := by
  rw [keeps, h]
  rfl

/-- Stages that do nothing leave all rows as they are. -/
theorem apply_of_isVacuous {a : Stage} (h : a.isVacuous = true) (rows : List (Row V)) :
    I.apply a rows = rows := by
  have hdropped := (Stage.of_isVacuous h).2.1
  -- filters of values that drop for no field, and outputs that nobody reads
  cases a <;> simp only [Stage.isVacuous, Bool.false_eq_true] at h
  · exact List.filter_eq_self.2 fun r _ => I.keeps_of_dropped_eq_nil hdropped r
  · rfl
  · exact if_pos h

/-- Stages that do nothing may be left out of a way. -/
theorem run_prune (w : List Stage) (rows : List (Row V)) :
    I.run (w.filter fun a => !a.isVacuous) rows = I.run w rows :=
  I.run_filter (fun a _ ha => I.apply_of_isVacuous (by simpa using ha)) rows

/-- Elimination leaves the rows that arrive at every endpoint. -/
theorem delivered_prune (f : Forest Stage) :
    I.delivered (f.prune Stage.isVacuous) = I.delivered f := by
  rw [delivered, Forest.endpoints_prune, List.map_map, delivered]
  refine List.map_congr_left fun o _ => ?_
  have hmap : ((o.above.filter fun e => !e.2.isVacuous).map Prod.snd) =
      (o.above.map Prod.snd).filter fun a => !a.isVacuous := by
    rw [List.filter_map]
    rfl
  simp only [Function.comp, Forest.Place.prune, rowsAt, hmap, run_prune]

end Interpretation

/-! ### Transforms -/

/-- What a stage loads, filters and calculates, one thing after the other. -/
def Stage.core : Stage → List Stage
  | source s => [source s]
  | filter ps => ps.map fun p => filter [p]
  | calculate text field => [calculate text field]
  | _ => []

variable {C : Stage → Stage → Prop} {pass : Pass} {policy : FacetPolicy} {a b c : Stage}
  {dims : List String}

/-- Joined stages load, filter and calculate what both did. -/
theorem Joins.core (h : Joins pass a b c) : c.core = a.core ++ b.core := by
  have := h.merged
  cases a <;> cases b <;> simp only [Stage.merge?, reduceCtorEq, Option.some.injEq] at this <;>
    subst this <;> simp [Stage.core]

/-- Sources, filters and calculations pass no others. -/
theorem Rises.core (h : Rises pass policy a b dims) :
    a.core ++ b.core = (b.addDimensions dims).core ++ a.core := by
  have hne := h.tag_ne
  have hs := h.not_source
  have hh := h.handled
  have hp := h.passage
  -- by cases of both stages: where both have a core, one of the facts about rising is false
  cases a <;> cases b <;> simp_all [Stage.core, Stage.addDimensions, Stage.tag, Move.passage?,
    Pass.handles]

/-- What a way loads, filters and calculates stays the same, in the same order. -/
theorem Rerouted.core {w w' : List (Nat × Stage)} (h : Rerouted C pass policy w w') :
    w'.flatMap (·.2.core) = w.flatMap (·.2.core) := by
  cases h with
  | refl => rfl
  | join h _ l p i r => simp [h.core]
  | @rise a b dims h _ l p i r =>
    have := h.core
    simp only [List.flatMap_append, List.flatMap_cons, ← List.append_assoc] at this ⊢
    simp only [List.append_assoc, ← h.core]
  | drop h l i types r => simp [Stage.core]
  | widen h l i types types' r => simp [Stage.core]

namespace Interpretation

variable {V E : Type} (I : Interpretation V E)

/-- Filters with one predicate each do what one filter with all of them does. -/
theorem run_filters (ps : List Predicate) (rows : List (Row V)) :
    I.run (ps.map fun p => .filter [p]) rows = I.apply (.filter ps) rows := by
  induction ps generalizing rows with
  | nil => exact (List.filter_eq_self.2 fun _ _ => rfl).symm
  | cons p ps ih =>
    rw [List.map_cons, run_cons, ih, apply, apply, apply, List.filter_filter]
    refine List.filter_congr fun r _ => ?_
    simp [Bool.and_comm]

end Interpretation

/-! ### Conversions -/

namespace Interpretation

variable {V E : Type} (I : Interpretation V E) {w w' : List (Nat × Stage)}

/-- What the pass for conversions does to a way leaves what the way does to rows. -/
theorem run_rerouted_parse (h : Rerouted C .parse policy w w') (rows : List (Row V)) :
    I.run (w'.map Prod.snd) rows = I.run (w.map Prod.snd) rows := by
  -- the stages that this pass handles leave all rows alone
  have happly {a : Stage} (ha : Pass.parse.handles a.tag = true) (rows : List (Row V)) :
      I.apply a rows = rows := by
    cases a <;> first | rfl | exact absurd ha (by simp [Pass.handles, Stage.tag])
  cases h with
  | refl => rfl
  | @join a b c h _ l p i r =>
    have hb := h.handled
    have hc := Stage.tag_of_merge? h.merged
    simp only [List.map_append, List.map_cons, run_append, run_cons, happly hb,
      happly (h.tag_eq ▸ hb), happly (hc.trans h.tag_eq.symm ▸ hb)]
  | @rise a b dims h _ l p i r =>
    have hb := h.handled
    simp only [List.map_append, List.map_cons, run_append, run_cons, happly hb,
      happly ((Stage.tag_addDimensions dims b).symm ▸ hb)]
  | drop h l i types r => simp only [List.map_append, List.map_cons, run_append, run_cons]; rfl
  | widen h l i types types' r =>
    simp only [List.map_append, List.map_cons, run_append, run_cons]
    rfl

/-- The pass for conversions leaves the rows that arrive at an outlet. -/
theorem rowsAt_of_passed {o o' : Forest.Place Stage} (h : o.Passed C .parse policy o') :
    I.rowsAt o' = I.rowsAt o := by
  -- either the way above the outlet has changed, or a conversion has risen from below it
  rcases h.above with h | ⟨i, b, dims, h, -, habove⟩
  · exact I.run_rerouted_parse h []
  · have hb := h.handled
    rw [rowsAt, habove, List.map_append, run_append]
    cases b <;> first | rfl | exact absurd hb (by simp [Pass.handles, Stage.tag])

/-- A move of the pass for conversions leaves the data that charts read. -/
theorem delivered_rewrites_parse {f f' : Forest Stage} (h : Forest.Rewrites .parse policy f f') :
    I.delivered f' = I.delivered f := by
  rw [delivered, delivered, Forest.endpoints_eq, Forest.endpoints_eq]
  have hout := List.rel_filter (p := fun o => o.content.isEndpoint)
    (q := fun o => o.content.isEndpoint) (fun {o o'} ho => ?_)
    (h.outlets Forest.adjoins_true)
  · rw [← List.forall₂_eq_eq_eq, List.forall₂_map_left_iff, List.forall₂_map_right_iff]
    refine hout.flip.imp fun o' o ho => ?_
    rw [ho.content_eq, I.rowsAt_of_passed ho]
  · show o.content.isEndpoint = true ↔ o'.content.isEndpoint = true
    rw [ho.content_eq]

/-- So do any number of its moves. -/
theorem delivered_of_parse {f f' : Forest Stage}
    (h : Relation.ReflTransGen (Forest.Rewrites .parse policy) f f') :
    I.delivered f' = I.delivered f := by
  induction h with
  | refl => rfl
  | tail _ h ih => exact (I.delivered_rewrites_parse h).trans ih

end Interpretation

/-! ### Optimizing -/

namespace CompilerOptions

variable {options : CompilerOptions} {flow flow' : Flow}

/-- With optimization, all passes run before the elimination. -/
theorem optimizeFlow_ok (ho : options.optimize = true)
    (h : options.optimizeFlow flow = (.ok (), flow')) :
    ∃ hoisted, Flow.hoist options.facetPolicy options.iterations flow = (.ok (), hoisted) ∧
      flow'.stages = hoisted.stages.prune Stage.isVacuous := by
  rw [optimizeFlow, if_pos ho, optimizeFully] at h
  obtain ⟨_, hoisted, hhoist, h⟩ := Run.bind_eq_ok h
  obtain ⟨-, rfl⟩ := Prod.mk.inj h
  exact ⟨hoisted, hhoist, rfl⟩

/-- Without optimization, the pass for conversions runs before the elimination. -/
theorem optimizeFlow_plain (options : CompilerOptions) (ho : options.optimize = false) {k : Nat}
    {moved : Flow}
    (h : Flow.runPass .parse options.facetPolicy options.iterations flow = (.ok k, moved)) :
    ∃ flow', options.optimizeFlow flow = (.ok (), flow') ∧
      flow'.stages = moved.stages.prune Stage.isVacuous := by
  rw [optimizeFlow, if_neg (by simp [ho]), Run.bind_ok h]
  exact ⟨_, rfl, rfl⟩

end CompilerOptions

/-- Texts that stand for their lengths, over two rows. -/
def lengths : Interpretation Nat Nat where
  load _ := [((∅ : Row Nat).insert "a" 1).insert "b" 0, ((∅ : Row Nat).insert "a" 5).insert "t" 7]
  accepts _ r := r.get? "b" ≠ some 0
  valid v := v.isSome
  evaluate text _ := text.length
  evaluate_timeUnit _ _ _ _ _ := rfl
  extent vs := vs.length
  bounds _ _ := 0
  bin _ v x := (v.getD 0, x)
  label text _ _ := text.length
  group _ rows := rows

end ChartPipeline
