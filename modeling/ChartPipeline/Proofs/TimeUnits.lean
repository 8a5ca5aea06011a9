import ChartPipeline.Proofs.Origins

/-!
# The formulas of time units

The formula that cuts a field down to a time unit goes by the name of the field that receives it.
Names of units have no underscore, so this name tells the unit and the field, even where the field
itself is called like something that a unit was applied to.  So the formulas of charts are told by
which units cut down which fields, and joined in whatever order they are the same.

## Key results

- `TimeUnit.outputName_eq_iff`: the name of the output tells the unit and the field
- `TimeFormulas.Cuts.unique`: formulas are told by the units and the fields
- `TimeFormulas.formulas_of_channels`: each channel has its formula, and joining is a set union
- `optimizeFlow_formulasMade`: the formulas of a flow that is assembled come about in this way
-/

namespace ChartPipeline

/-! ### Names -/

namespace TimeUnit

variable {u v : TimeUnit} {field field' : String}

/-- No name of a unit has an underscore. -/
theorem isWord_name (unit : TimeUnit) : IsWord unit.name := by
  cases unit <;> decide

/-- Units have names of their own. -/
theorem name_tells : Place.Tells name all := fun unit => by cases unit <;> decide

/-- The name of the output tells the unit and the field, whatever the field is called. -/
theorem outputName_eq_iff : u.outputName field = v.outputName field' ↔ u = v ∧ field = field' := by
  constructor
  · intro h
    obtain ⟨hname, hfield⟩ := u.isWord_name.cancel v.isWord_name h
    exact ⟨name_tells.injective hname, hfield⟩
  · rintro ⟨rfl, rfl⟩
    rfl

end TimeUnit

/-! ### What channels ask for -/

/-- A unit that a field is cut down to. -/
structure Cut where
  unit : TimeUnit
  field : String
deriving DecidableEq

/-- The formula of a cut, by the name of the field that receives it. -/
def Cut.entry (c : Cut) : String × String := (c.unit.outputName c.field, c.unit.expression c.field)

/-- The name of the formula tells the cut. -/
theorem Cut.name_injective {c c' : Cut} (h : c.entry.1 = c'.entry.1) : c = c' := by
  obtain ⟨hunit, hfield⟩ := TimeUnit.outputName_eq_iff.1 h
  cases c; cases c'
  rw [Cut.mk.injEq]
  exact ⟨hunit, hfield⟩

/-- Formulas of one name are the same. -/
theorem Cut.text_unique {cs ds : List Cut} {name text text' : String}
    (h : (name, text) ∈ cs.map entry) (h' : (name, text') ∈ ds.map entry) : text = text' := by
  obtain ⟨c, -, hc⟩ := List.mem_map.1 h
  obtain ⟨c', -, hc'⟩ := List.mem_map.1 h'
  obtain rfl : c = c' := Cut.name_injective (by rw [hc, hc'])
  exact congrArg Prod.snd (hc.symm.trans hc')

/-- What a channel with a time unit asks for. -/
def FieldDef.cut? (f : FieldDef) : Option Cut := f.timeUnit.bind fun unit => f.field.map (⟨unit, ·⟩)

/-- What the channels or dimensions of a chart ask for. -/
def Chart.cuts (chart : Chart) : List Cut := chart.fieldDefs.filterMap fun d => d.2.cut?

/-- A channel asks for a cut if it has both a time unit and a field. -/
theorem FieldDef.cut?_eq_some_iff {f : FieldDef} {c : Cut} :
    f.cut? = some c ↔ f.timeUnit = some c.unit ∧ f.field = some c.field := by
  rw [cut?]
  cases f.timeUnit <;> cases f.field <;> cases c <;> simp

/-- The field that a formula sets. -/
def Step.formulaOutput? : Step → Option String
  | formula _ output => some output
  | _ => none

namespace TimeFormulas

variable {m n p : TimeFormulas} {cs ds : List Cut}

/-- The formulas are those of the given cuts. -/
def Cuts (cs : List Cut) (formulas : TimeFormulas) : Prop :=
  ∀ e, e ∈ formulas.entries ↔ e ∈ cs.map Cut.entry

namespace Cuts

/-- No formulas are those of no cuts. -/
theorem empty : Cuts [] ∅ :=
  fun e => by simp [EmptyCollection.emptyCollection, SortedMap.empty]

/-- A formula is found under its name if one of the cuts has it. -/
theorem get?_eq_some_iff (h : Cuts cs m) {name text : String} :
    m.get? name = some text ↔ (name, text) ∈ cs.map Cut.entry :=
  SortedMap.mem_entries_iff.symm.trans (h (name, text))

/-- A formula that is there already is the one to be inserted. -/
theorem insertIfNew (h : Cuts cs m) (c : Cut) :
    Cuts (cs ++ [c]) (m.insertIfNew c.entry.1 c.entry.2) := by
  rintro ⟨name, text⟩
  rw [SortedMap.mem_entries_iff, SortedMap.insertIfNew, SortedMap.get?_upsert, List.map_append,
    List.mem_append, ← h.get?_eq_some_iff, List.map_singleton, List.mem_singleton]
  split
  · next hname =>
    dsimp only at hname
    subst hname
    cases hold : m.get? c.entry.1 with
    | none => simp [Prod.ext_iff, eq_comm]
    | some old =>
      obtain rfl : old = c.entry.2 :=
        Cut.text_unique (h.get?_eq_some_iff.1 hold) (List.mem_map_of_mem (List.mem_singleton_self c))
      simp [Prod.ext_iff, eq_comm]
  · next hname =>
    have hother : ¬ (name, text) = c.entry := fun h => hname (congrArg Prod.fst h)
    rw [or_iff_left hother]

/-- Joined formulas are those of both. -/
theorem union (h : Cuts cs m) (h' : Cuts ds n) : Cuts (cs ++ ds) (m.union n) := by
  rintro ⟨name, text⟩
  rw [SortedMap.mem_entries_iff, SortedMap.union, SortedMap.get?_mergeWith, List.map_append,
    List.mem_append, ← h.get?_eq_some_iff, ← h'.get?_eq_some_iff]
  -- where both have a formula of one name, it does not matter which one stays
  cases hm : m.get? name with
  | none => cases n.get? name <;> simp
  | some old =>
    cases hn : n.get? name with
    | none => simp
    | some new =>
      obtain rfl : old = new :=
        Cut.text_unique (h.get?_eq_some_iff.1 hm) (h'.get?_eq_some_iff.1 hn)
      simp

/-- Formulas are told by the cuts that they are for. -/
theorem unique (h : Cuts cs m) (h' : Cuts ds n) (hsame : ∀ c, c ∈ cs ↔ c ∈ ds) : m = n := by
  refine SortedMap.ext_get? fun name => Option.ext fun text => ?_
  rw [h.get?_eq_some_iff, h'.get?_eq_some_iff]
  simp only [List.mem_map, hsame]

/-- What is inserted for the channels of a chart, one after the other. -/
theorem foldl (ds : List (Channel × FieldDef)) (h : Cuts cs m) :
    Cuts (cs ++ ds.filterMap fun d => d.2.cut?)
      (ds.foldl (fun (formulas : TimeFormulas) (_, f) =>
        match f.timeUnit, f.field with
        | some unit, some field =>
          formulas.insertIfNew (unit.outputName field) (unit.expression field)
        | _, _ => formulas) m) := by
  induction ds generalizing cs m with
  | nil => rwa [List.filterMap_nil, List.append_nil]
  | cons d ds ih =>
    rw [List.foldl_cons]
    -- a channel without a time unit or a field asks for nothing
    cases hcut : d.2.cut? with
    | none =>
      rw [List.filterMap_cons_none (f := fun d : Channel × FieldDef => d.2.cut?) hcut]
      refine ih ?_
      obtain ⟨channel, f⟩ := d
      dsimp only at hcut ⊢
      split
      · next unit field hunit hfield =>
        rw [FieldDef.cut?, hunit, hfield] at hcut
        cases hcut
      · exact h
    | some c =>
      rw [List.filterMap_cons_some (f := fun d : Channel × FieldDef => d.2.cut?) hcut,
        List.append_cons]
      refine ih ?_
      obtain ⟨channel, f⟩ := d
      obtain ⟨hunit, hfield⟩ := FieldDef.cut?_eq_some_iff.1 hcut
      dsimp only at hunit hfield ⊢
      rw [hunit, hfield]
      exact h.insertIfNew c

/-- Without cuts there are no formulas. -/
theorem isEmpty_iff (h : Cuts cs m) : m.isEmpty = true ↔ cs = [] := by
  rw [SortedMap.isEmpty, List.isEmpty_iff, ← List.map_eq_nil_iff (f := Cut.entry),
    List.eq_nil_iff_forall_not_mem, List.eq_nil_iff_forall_not_mem]
  exact forall_congr' fun e => not_congr (h e)

end Cuts

/-- A chart has formulas exactly if one of its channels asks for one. -/
theorem ofChart?_eq_some_iff {chart : Chart} :
    ofChart? chart = some m ↔ chart.cuts ≠ [] ∧ Cuts chart.cuts m := by
  have hcuts := Cuts.foldl chart.fieldDefs Cuts.empty
  rw [List.nil_append] at hcuts
  rw [ofChart?]
  dsimp only
  generalize chart.fieldDefs.foldl _ _ = formulas at hcuts
  cases hempty : formulas.isEmpty with
  | true => simp [hcuts.isEmpty_iff.1 hempty, Chart.cuts]
  | false =>
    have hne : chart.cuts ≠ [] := fun h => by
      rw [hcuts.isEmpty_iff.2 h] at hempty
      cases hempty
    rw [if_neg (by simp), Option.some.injEq]
    constructor
    · rintro rfl
      exact ⟨hne, hcuts⟩
    · exact fun h => hcuts.unique h.2 fun _ => Iff.rfl

/-- Each cut has exactly one step, its formula. -/
theorem Cuts.filter_steps (h : Cuts cs m) {c : Cut} (hc : c ∈ cs) :
    m.steps.filter (·.formulaOutput? = some c.entry.1) = [.formula c.entry.2 c.entry.1] := by
  have hentry : c.entry ∈ m.entries := (h _).2 (List.mem_map_of_mem hc)
  obtain ⟨before, after, hentries⟩ := List.append_of_mem hentry
  -- names stand once among the entries, so no other step sets this field
  have hother : ∀ e ∈ before ++ after, e.1 ≠ c.entry.1 := by
    have hkeys := m.nodup_keys
    rw [hentries, List.map_append, List.map_cons, List.nodup_middle, List.nodup_cons] at hkeys
    rw [← List.map_append] at hkeys
    exact fun e he hname => hkeys.1 (List.mem_map.2 ⟨e, he, hname⟩)
  rw [List.forall_mem_append] at hother
  have hnone (es : List (String × String)) (hes : ∀ e ∈ es, e.1 ≠ c.entry.1) :
      (es.map fun e => Step.formula e.2 e.1).filter
        (·.formulaOutput? = some c.entry.1) = [] := by
    rw [List.filter_eq_nil_iff, List.forall_mem_map]
    exact fun e he => by simpa [Step.formulaOutput?] using hes e he
  rw [steps, hentries, List.map_append, List.map_cons, List.filter_append, List.filter_cons_of_pos,
    hnone before hother.1, hnone after hother.2, List.nil_append]
  simp [Step.formulaOutput?]

/-- Formulas that come about from those of charts by joining, with the cuts that they are for. -/
inductive Made : List Cut → TimeFormulas → Prop
  | ofChart {chart : Chart} {m : TimeFormulas} (h : ofChart? chart = some m) : Made chart.cuts m
  | union {cs ds : List Cut} {m n : TimeFormulas} (h : Made cs m) (h' : Made ds n) :
    Made (cs ++ ds) (m.union n)

/-- Formulas that come about are those of the cuts that went in. -/
theorem Made.cuts (h : Made cs m) : Cuts cs m := by
  induction h with
  | ofChart h => exact (ofChart?_eq_some_iff.1 h).2
  | union _ _ ih ih' => exact ih.union ih'

/-- Each channel or dimension with a time unit has exactly one step that sets its output, which is
    the formula of its unit and its field, and there are no other steps.  Different units or fields
    have different outputs.  So formulas of one name, wherever they come from, are the same, and
    joining is commutative, associative and idempotent. -/
theorem formulas_of_channels :
    (∀ (chart : Chart), ∀ d ∈ chart.fieldDefs, ∀ unit field, d.2.timeUnit = some unit →
      d.2.field = some field → ∃ formulas, ofChart? chart = some formulas ∧
        formulas.steps.filter (·.formulaOutput? = some (unit.outputName field)) =
          [.formula (unit.expression field) (unit.outputName field)]) ∧
    (∀ chart formulas, ofChart? chart = some formulas → ∀ step ∈ formulas.steps,
      ∃ d ∈ chart.fieldDefs, ∃ unit field, d.2.timeUnit = some unit ∧ d.2.field = some field ∧
        step = .formula (unit.expression field) (unit.outputName field)) ∧
    (∀ (u v : TimeUnit) field field',
      u.outputName field = v.outputName field' ↔ u = v ∧ field = field') ∧
    ∀ cs ds es m n p, Made cs m → Made ds n → Made es p →
      (∀ name text text', (name, text) ∈ m.entries → (name, text') ∈ n.entries → text = text') ∧
        m.union n = n.union m ∧ (m.union n).union p = m.union (n.union p) ∧ m.union m = m := by
  refine ⟨fun chart d hd unit field hunit hfield => ?_, fun chart formulas h step hstep => ?_,
    fun u v field field' => TimeUnit.outputName_eq_iff, fun cs ds es m n p hm hn hp => ?_⟩
  · have hcut : (⟨unit, field⟩ : Cut) ∈ chart.cuts :=
      List.mem_filterMap.2 ⟨d, hd, FieldDef.cut?_eq_some_iff.2 ⟨hunit, hfield⟩⟩
    have hcuts := Cuts.foldl chart.fieldDefs Cuts.empty
    exact ⟨_, ofChart?_eq_some_iff.2 ⟨List.ne_nil_of_mem hcut, hcuts⟩,
      Cuts.filter_steps (c := ⟨unit, field⟩) hcuts hcut⟩
  · obtain ⟨e, he, rfl⟩ := List.mem_map.1 hstep
    obtain ⟨c, hc, rfl⟩ := List.mem_map.1 (((ofChart?_eq_some_iff.1 h).2 e).1 he)
    obtain ⟨d, hd, hcut⟩ := List.mem_filterMap.1 hc
    obtain ⟨hunit, hfield⟩ := FieldDef.cut?_eq_some_iff.1 hcut
    exact ⟨d, hd, c.unit, c.field, hunit, hfield, rfl⟩
  · have hm := hm.cuts
    have hn := hn.cuts
    have hp := hp.cuts
    refine ⟨fun name text text' h h' => Cut.text_unique ((hm _).1 h) ((hn _).1 h'), ?_, ?_, ?_⟩
    -- both sides of each equation have the same cuts
    · exact (hm.union hn).unique (hn.union hm) fun c => by simp [or_comm]
    · exact ((hm.union hn).union hp).unique (hm.union (hn.union hp)) fun c => by simp
    · exact (hm.union hm).unique hm fun c => by simp

/-- Points at the months of a date and the years of a field that is called like the former. -/
def monthsThenYears : Chart :=
  .unit { name := "points", data := some (.named "rows") } .point
    ⟨[(.x, (FieldDef.named "date" .temporal).withTimeUnit .month),
      (.y, (FieldDef.named "month_date" .temporal).withTimeUnit .year),
      (.color, (FieldDef.named "date" .temporal).withTimeUnit .month)], by simp; decide⟩ none

/-- Rows by the months of a date, columns by its years and months. -/
def byMonth : Chart :=
  .facet { name := "grid", data := some (.named "rows") }
    { row := some ((FieldDef.named "date" .temporal).withTimeUnit .month),
      column := some ((FieldDef.named "date" .temporal).withTimeUnit .yearMonth) }
    (.unit { name := "bars" } .bar ∅ none)

/-- The month of the date is asked for by two channels of the chart and by the facet, and has one
    formula, also after joining. -/
theorem formulas_of_channels_monthsThenYears : ∃ m n, ofChart? monthsThenYears = some m ∧
    ofChart? byMonth = some n ∧
      m.steps.filter (·.formulaOutput? = some "month_date") =
        [.formula "datetime(2012, month(datum[\"date\"]), 1, 0, 0, 0, 0)" "month_date"] ∧
      TimeUnit.year.outputName "month_date" ≠ TimeUnit.yearMonth.outputName "date" ∧
      m.union n = n.union m ∧ (m.union n).union n = m.union (n.union n) ∧ m.union m = m := by
  obtain ⟨heach, -, hnames, hjoin⟩ := formulas_of_channels
  obtain ⟨m, hm, hsteps⟩ := heach monthsThenYears
    (.x, (FieldDef.named "date" .temporal).withTimeUnit .month)
    (by simp [monthsThenYears, Chart.fieldDefs])
    .month "date" rfl rfl
  obtain ⟨n, hn, -⟩ := heach byMonth
    (.row, (FieldDef.named "date" .temporal).withTimeUnit .month)
    (by simp [byMonth, Chart.fieldDefs, FacetMapping.fieldDefs])
    .month "date" rfl rfl
  refine ⟨m, n, hm, hn, hsteps, ?_, (hjoin _ _ _ m n n (.ofChart hm) (.ofChart hn) (.ofChart hn)).2⟩
  rw [ne_eq, hnames]
  decide

end TimeFormulas

/-! ### Flows -/

/-- If the stage has formulas of time units, they come about from those of charts. -/
def Stage.FormulasMade : Stage → Prop
  | timeUnit m => ∃ cs, TimeFormulas.Made cs m
  | _ => True

/-- Joining is among the ways in which formulas come about. -/
theorem Stage.hereditary_formulasMade : Hereditary FormulasMade where
  merge {a b c} h ha hb := by
    cases a <;> cases b <;> simp only [merge?, reduceCtorEq, Option.some.injEq] at h <;> subst h <;>
      try trivial
    obtain ⟨_, hmade⟩ := ha
    obtain ⟨_, hmade'⟩ := hb
    exact ⟨_, hmade.union hmade'⟩
  addDimensions {a} fields ha := by
    cases a <;> trivial
  parse _ := trivial

/-- The formulas of the stages that are assembled come about from those of charts. -/
theorem optimizeFlow_formulasMade {chart : Chart} {built : Building} {options : CompilerOptions}
    {flow : Flow} (hb : Building.ofChart chart = .ok built)
    (hrun : options.optimizeFlow built.flow = (.ok (), flow)) :
    ∀ e ∈ flow.stages.toList, e.2.FormulasMade := by
  refine optimizeFlow_owned hb hrun Stage.hereditary_formulasMade fun c _ a ha => ?_
  cases a with
  | timeUnit => exact ⟨_, .ofChart ha.declaredBy⟩
  | _ => trivial

end ChartPipeline
