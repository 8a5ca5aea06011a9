import ChartPipeline.Proofs.Origins

/-!
# What aggregations gather

An aggregation gathers fields to group by and aggregates of fields, which are its dimensions and
its measures: first those that the channels of a chart ask for, then those of facets that it rises
above and of aggregations that it is joined with.  Each is taken in once, at its first place.  The
fields that receive the aggregates have names of their own, because the name of an operation has no
underscore in it.

## Key results

- `Measure.output_injective`: the name of an aggregate tells its operation and its field
- `Aggregation.Made.gathers`: the dimensions and measures are what went in, without repetition
- `Aggregation.wellFormed_of_made`: aggregations stay well formed
- `optimizeFlow_made`: the aggregations of a flow that is assembled come about in this way
-/

namespace ChartPipeline

/-! ### Without repetition -/

section Repetition

variable {α : Type} [BEq α] [LawfulBEq α] {xs ys kept other joined : List α}

/-- One more item counts unless it is there already. -/
theorem eraseDups_concat (xs : List α) (x : α) :
    (xs ++ [x]).eraseDups = if xs.contains x then xs.eraseDups else xs.eraseDups ++ [x] := by
  rw [List.eraseDups_append, List.removeAll, List.filter_singleton, List.elem_eq_contains]
  cases xs.contains x with
  | true => exact List.append_nil _
  | false => rfl

/-- Without repetitions each item stands once. -/
theorem nodup_eraseDups (xs : List α) : xs.eraseDups.Nodup := by
  induction xs using List.reverseRecOn with
  | nil => exact List.nodup_nil
  | append_singleton xs x ih =>
    rw [eraseDups_concat]
    split
    · exact ih
    · next hx =>
      have hnot : x ∉ xs.eraseDups := by simpa using hx
      exact ih.append (List.nodup_singleton x) (by simpa using hnot)

/-- Repetitions may be left out of a later part first. -/
theorem eraseDups_append_eraseDups (xs ys : List α) :
    (xs ++ ys.eraseDups).eraseDups = (xs ++ ys).eraseDups := by
  induction ys using List.reverseRecOn with
  | nil => rfl
  | append_singleton ys y ih =>
    rw [← List.append_assoc, eraseDups_concat (xs ++ ys), ← ih, eraseDups_concat ys]
    cases hy : ys.contains y with
    | true => simp_all
    | false =>
      rw [if_neg (by simp), ← List.append_assoc, eraseDups_concat]
      simp

/-- Putting the items that are not there yet at the end. -/
theorem foldl_eraseDups (xs ys : List α) :
    ys.foldl (fun acc y => if acc.contains y then acc else acc ++ [y]) xs.eraseDups =
      (xs ++ ys).eraseDups := by
  induction ys generalizing xs with
  | nil => rw [List.append_nil, List.foldl_nil]
  | cons y ys ih =>
    -- what is there already counts as before, also if repetitions are left out
    have hstep : (if xs.eraseDups.contains y then xs.eraseDups else xs.eraseDups ++ [y]) =
        (xs ++ [y]).eraseDups := by
      rw [eraseDups_concat]
      simp
    rw [List.foldl_cons, hstep, ih, List.append_assoc, List.singleton_append]

end Repetition

/-- A list that begins with one list and holds what that list and another one hold. -/
structure Unites {α : Type} (kept other joined : List α) : Prop where
  first : kept <+: joined
  mem_iff : ∀ x, x ∈ joined ↔ x ∈ kept ∨ x ∈ other

/-- Putting two lists together without repetitions unites them, and the first one stays in front. -/
theorem unites_eraseDups {α : Type} [BEq α] [LawfulBEq α] (xs ys : List α) :
    Unites xs.eraseDups ys (xs ++ ys).eraseDups where
  first := by
    rw [List.eraseDups_append]
    exact List.prefix_append _ _
  mem_iff x := by simp

/-! ### Names of aggregates -/

/-- No name of an operation has an underscore. -/
theorem AggregateOp.isWord_name (op : AggregateOp) : IsWord op.name := by
  cases op <;> decide

/-- Operations have names of their own. -/
theorem AggregateOp.name_injective {op op' : AggregateOp} (h : op.name = op'.name) : op = op' := by
  revert h
  cases op <;> cases op' <;> decide

/-- The name of an aggregate tells its operation and its field, whatever the field is called. -/
theorem Measure.output_injective {m m' : Measure} (h : m.output = m'.output) : m = m' := by
  obtain ⟨hop, hfield⟩ := m.op.isWord_name.cancel m'.op.isWord_name h
  cases m; cases m'
  rw [Measure.mk.injEq]
  exact ⟨hfield, AggregateOp.name_injective hop⟩

/-! ### What channels ask for -/

/-- The aggregate that a channel asks for: the number of rows, or one of its field. -/
def FieldDef.measure? (f : FieldDef) : Option Measure :=
  if f.isCount then some ⟨"*", .count⟩ else f.aggregate.bind fun op => f.field.map (⟨·, op⟩)

/-- The fields that a channel groups by.  An aggregated one has none, a binned one has the ends of
    the bins and the label where the scale needs it, and any other one has the field that it is read
    by. -/
def FieldDef.dimensions (f : FieldDef) : List String :=
  if f.aggregate.isSome then []
  else if f.binParams?.isSome then
    ([BinField.start, .stop] ++ if f.hasDiscreteScale then [BinField.range] else []).filterMap
      f.binOutput?
  else f.outputName?.toList

/-- The fields that the channels of a chart group by. -/
def Chart.dimensions (chart : Chart) : List String :=
  chart.fieldDefs.flatMap fun d => d.2.dimensions

/-- The aggregates that the channels of a chart ask for. -/
def Chart.measures (chart : Chart) : List Measure :=
  chart.fieldDefs.flatMap fun d => d.2.measure?.toList

namespace Aggregation

variable {a b : Aggregation} {dims dims' : List String} {ms ms' : List Measure}

/-- The aggregation has exactly the given dimensions and measures, each at its first place. -/
structure Gathers (dims : List String) (ms : List Measure) (a : Aggregation) : Prop where
  dimensions : a.dimensions = dims.eraseDups
  measures : a.measures = ms.eraseDups

namespace Gathers

/-- An aggregation begins with nothing. -/
theorem empty : Gathers [] [] {} := ⟨rfl, rfl⟩

/-- Grouping by more fields adds those that are new. -/
theorem addDimensions (h : Gathers dims ms a) (fields : List String) :
    Gathers (dims ++ fields) ms (a.addDimensions fields) where
  dimensions := by
    rw [Aggregation.addDimensions, h.dimensions]
    exact foldl_eraseDups dims fields
  measures := h.measures

/-- An aggregate is taken in if it is new. -/
theorem addMeasure (h : Gathers dims ms a) (m : Measure) :
    Gathers dims (ms ++ [m]) (a.addMeasure m) := by
  have hcontains : a.measures.contains m = ms.contains m := by
    rw [h.measures]
    simp
  rw [Aggregation.addMeasure, hcontains]
  split
  · next hm => exact ⟨h.dimensions, by rw [eraseDups_concat, if_pos hm, h.measures]⟩
  · next hm => exact ⟨h.dimensions, by rw [eraseDups_concat, if_neg hm, h.measures]⟩

/-- So are several. -/
theorem foldl_addMeasure (h : Gathers dims ms a) (more : List Measure) :
    Gathers dims (ms ++ more) (more.foldl Aggregation.addMeasure a) := by
  induction more generalizing ms a with
  | nil => rwa [List.append_nil]
  | cons m more ih =>
    rw [List.foldl_cons, List.append_cons]
    exact ih (h.addMeasure m)

/-- A channel adds what it asks for. -/
theorem addChannel (h : Gathers dims ms a) (f : FieldDef) :
    Gathers (dims ++ f.dimensions) (ms ++ f.measure?.toList) (a.addChannel f) := by
  rw [Aggregation.addChannel, FieldDef.dimensions, FieldDef.measure?]
  -- a count has no field; then an aggregate with a field counts, and else what is grouped by
  cases hcount : f.isCount with
  | true =>
    have hagg : f.aggregate = some .count := by simpa [FieldDef.isCount] using hcount
    simpa [hagg] using h.addMeasure ⟨"*", .count⟩
  | false =>
    cases hagg : f.aggregate with
    | some op =>
      cases f.field with
      | some field => simpa using h.addMeasure ⟨field, op⟩
      | none => simpa using h
    | none =>
      simp only [Bool.false_eq_true, if_false, Option.isSome_none, Option.bind_none,
        Option.toList_none, List.append_nil]
      split <;> exact h.addDimensions _

/-- The channels of a chart add what they ask for, one after the other. -/
theorem ofChart {chart : Chart} (h : ofChart? chart = some a) :
    Gathers chart.dimensions chart.measures a := by
  have hfold (ds : List (Channel × FieldDef)) {dims : List String} {ms : List Measure}
      {a : Aggregation} (ha : Gathers dims ms a) :
      Gathers (dims ++ ds.flatMap fun d => d.2.dimensions)
        (ms ++ ds.flatMap fun d => d.2.measure?.toList)
        (ds.foldl (fun a d => a.addChannel d.2) a) := by
    induction ds generalizing dims ms a with
    | nil => simpa using ha
    | cons d ds ih =>
      simp only [List.foldl_cons, List.flatMap_cons, ← List.append_assoc]
      exact ih (ha.addChannel d.2)
  rw [ofChart?] at h
  split at h
  · obtain rfl := Option.some.inj h
    exact hfold chart.fieldDefs empty
  · exact absurd h (by simp)

/-- Joining adds what the other aggregation has gathered. -/
theorem merge (h : Gathers dims ms a) (h' : Gathers dims' ms' b) :
    Gathers (dims ++ dims') (ms ++ ms') (a.merge b) := by
  have hjoined := (h.addDimensions b.dimensions).foldl_addMeasure b.measures
  refine ⟨?_, ?_⟩
  · rw [Aggregation.merge, hjoined.dimensions, h'.dimensions, eraseDups_append_eraseDups]
  · rw [Aggregation.merge, hjoined.measures, h'.measures, eraseDups_append_eraseDups]

end Gathers

/-! ### Aggregations that come about -/

/-- An aggregation that comes about from those of charts by grouping by more fields and by joining,
    with the dimensions and the measures that went into it, in this order. -/
inductive Made : List String → List Measure → Aggregation → Prop
  | ofChart {chart : Chart} {a : Aggregation} (h : ofChart? chart = some a) :
    Made chart.dimensions chart.measures a
  | addDimensions {dims : List String} {ms : List Measure} {a : Aggregation}
    (h : Made dims ms a) (fields : List String) : Made (dims ++ fields) ms (a.addDimensions fields)
  | merge {dims dims' : List String} {ms ms' : List Measure} {a b : Aggregation}
    (h : Made dims ms a) (h' : Made dims' ms' b) : Made (dims ++ dims') (ms ++ ms') (a.merge b)

/-- Whatever comes about gathers what went in. -/
theorem Made.gathers (h : Made dims ms a) : Gathers dims ms a := by
  induction h with
  | ofChart h => exact .ofChart h
  | addDimensions _ fields ih => exact ih.addDimensions fields
  | merge _ _ ih ih' => exact ih.merge ih'

/-- The lists of an aggregation step tell measures, position by position. -/
structure Lists (ms : List Measure) (fields ops outputs : List String) : Prop where
  length_fields : fields.length = ms.length
  length_ops : ops.length = ms.length
  length_outputs : outputs.length = ms.length
  positions : ∀ (i : Nat) (m : Measure), ms[i]? = some m →
    fields[i]? = some m.field ∧ ops[i]? = some m.op.name ∧ outputs[i]? = some m.output

/-- An aggregation without repetition, which assembles to a step without repetition. -/
structure WellFormed (a : Aggregation) : Prop where
  dimensions : a.dimensions.Nodup
  measures : a.measures.Nodup
  step : ∃ fields ops outputs, a.step = .aggregate a.dimensions fields ops outputs ∧
    Lists a.measures fields ops outputs ∧ outputs.Nodup

/-- What gathers without repetitions is well formed: measures that differ have different outputs. -/
theorem Gathers.wellFormed (h : Gathers dims ms a) : a.WellFormed := by
  have hdimensions : a.dimensions.Nodup := h.dimensions ▸ nodup_eraseDups dims
  have hmeasures : a.measures.Nodup := h.measures ▸ nodup_eraseDups ms
  refine ⟨hdimensions, hmeasures, _, _, _, rfl, ⟨?_, ?_, ?_, ?_⟩, ?_⟩
  · exact List.length_map _
  · exact List.length_map _
  · exact List.length_map _
  · intro i m hm
    simp [hm]
  · exact hmeasures.map fun _ _ => Measure.output_injective

/-- Aggregations that come about are well formed.  Their dimensions and measures are those that went
    in, without repetition and in the order in which they first did.  Grouping by more fields and
    joining unite what is there with what is new, and what is there stays in front. -/
theorem wellFormed_of_made (h : Made dims ms a) :
    a.WellFormed ∧ a.dimensions = dims.eraseDups ∧ a.measures = ms.eraseDups ∧
      (∀ fields, Unites a.dimensions fields (a.addDimensions fields).dimensions ∧
        (a.addDimensions fields).measures = a.measures) ∧
      ∀ dims' ms' b, Made dims' ms' b →
        Unites a.dimensions b.dimensions (a.merge b).dimensions ∧
          Unites a.measures b.measures (a.merge b).measures := by
  have ha := h.gathers
  refine ⟨ha.wellFormed, ha.dimensions, ha.measures, fun fields => ⟨?_, rfl⟩,
    fun dims' ms' b h' => ⟨?_, ?_⟩⟩
  · rw [(ha.addDimensions fields).dimensions, ha.dimensions]
    exact unites_eraseDups dims fields
  -- the other list has no repetitions any more, which makes no difference
  · rw [(ha.merge h'.gathers).dimensions, ha.dimensions, h'.gathers.dimensions,
      ← eraseDups_append_eraseDups]
    exact unites_eraseDups dims dims'.eraseDups
  · rw [(ha.merge h'.gathers).measures, ha.measures, h'.gathers.measures,
      ← eraseDups_append_eraseDups]
    exact unites_eraseDups ms ms'.eraseDups

/-- Bars at the means of a field within bins with labels, and with colors; the size repeats the
height. -/
def meanBars : Chart :=
  .unit { name := "means", data := some (.named "rows") } .bar
    ⟨[(.x, ((FieldDef.named "a" .quantitative).withBin (.flag true)).withScale .band),
      (.y, (FieldDef.named "b" .quantitative).withAggregate .mean),
      (.color, FieldDef.named "site" .nominal),
      (.size, (FieldDef.named "b" .quantitative).withAggregate .mean)], by simp; decide⟩ none

/-- Bars at the numbers of rows; the name of the field that colors them begins like that of an
aggregate. -/
def countBars : Chart :=
  .unit { name := "counts", data := some (.named "rows") } .bar
    ⟨[(.x, FieldDef.named "site" .nominal), (.y, FieldDef.count),
      (.color, (FieldDef.named "mean_b" .quantitative).withAggregate .min),
      (.size, (FieldDef.named "b" .quantitative).withAggregate .mean)], by simp; decide⟩ none

/-- The aggregations of both, joined and then put below a facet of one old and one new field. -/
theorem wellFormed_of_made_meanBars : ∃ a b, ofChart? meanBars = some a ∧
    ofChart? countBars = some b ∧
      ((a.merge b).addDimensions ["site", "year_t"]).WellFormed ∧
      ((a.merge b).addDimensions ["site", "year_t"]).dimensions =
        ["bin_maxbins_10_a_start", "bin_maxbins_10_a_end", "bin_maxbins_10_a_range", "site",
          "year_t"] ∧
      ((a.merge b).addDimensions ["site", "year_t"]).measures =
        [⟨"b", .mean⟩, ⟨"*", .count⟩, ⟨"mean_b", .min⟩] ∧
      Unites a.measures b.measures (a.merge b).measures := by
  obtain ⟨a, ha⟩ : ∃ a, ofChart? meanBars = some a := ⟨_, rfl⟩
  obtain ⟨b, hb⟩ : ∃ b, ofChart? countBars = some b := ⟨_, rfl⟩
  have hmade := ((Made.ofChart ha).merge (.ofChart hb)).addDimensions ["site", "year_t"]
  obtain ⟨hwell, hdims, hms, -, -⟩ := wellFormed_of_made hmade
  obtain ⟨-, -, -, -, hmerge⟩ := wellFormed_of_made (.ofChart ha)
  exact ⟨a, b, ha, hb, hwell, hdims.trans (by decide +kernel), hms.trans (by decide +kernel),
    (hmerge _ _ b (.ofChart hb)).2⟩

end Aggregation

/-! ### Flows -/

/-- If the stage aggregates, the aggregation comes about from those of charts. -/
def Stage.AggregatesMade : Stage → Prop
  | aggregate a => ∃ dims ms, Aggregation.Made dims ms a
  | _ => True

/-- Joining and grouping by more fields are among the ways in which aggregations come about. -/
theorem Stage.hereditary_aggregatesMade : Hereditary AggregatesMade where
  merge {a b c} h ha hb := by
    cases a <;> cases b <;> simp only [merge?, reduceCtorEq, Option.some.injEq] at h <;> subst h <;>
      try trivial
    obtain ⟨_, _, hmade⟩ := ha
    obtain ⟨_, _, hmade'⟩ := hb
    exact ⟨_, _, hmade.merge hmade'⟩
  addDimensions {a} fields ha := by
    cases a <;> try trivial
    obtain ⟨_, _, hmade⟩ := ha
    exact ⟨_, _, hmade.addDimensions fields⟩
  parse _ := trivial

/-- The aggregations of the stages that are assembled come about from those of charts. -/
theorem optimizeFlow_made {chart : Chart} {built : Building} {options : CompilerOptions}
    {flow : Flow} (hb : Building.ofChart chart = .ok built)
    (hrun : options.optimizeFlow built.flow = (.ok (), flow)) :
    ∀ e ∈ flow.stages.toList, e.2.AggregatesMade := by
  refine optimizeFlow_owned hb hrun Stage.hereditary_aggregatesMade fun c _ a ha => ?_
  cases a with
  | aggregate => exact ⟨_, _, .ofChart ha.declaredBy⟩
  | _ => trivial

end ChartPipeline
