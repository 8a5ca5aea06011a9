import ChartPipeline.Proofs.Accessors
import ChartPipeline.Proofs.TimeUnits

/-!
# Generated expressions

Charts make expressions that clean their data, select rows and derive fields.  Each of them names
fields of the row through accessors and has nothing else in it that could be read as one: values are
quoted, and the format of a label stands between quotes of its own.  So whether such an expression
accesses the fields that it is made for depends only on the names of these fields, which accessors
do not escape.

## Key results

- `Generated.accesses`: what the expressions that are made for fields access
- `Compiler.compile_generatedFor`: compiled data have no others but declared calculations
- `Expression.fieldsRead_of_generated`: they access their fields exactly if no name needs escapes
- `Expression.fieldsRead_quotedName`: a quote in a name breaks them
-/

namespace ChartPipeline

open Expression

variable {text : String} {fields : List String}

/-! ### Cleaning -/

/-- The expression that drops invalid values accesses each field twice. -/
theorem accesses_nullFilter {flags : FieldFlags}
    (h : nullFilterStep? flags = some (.filter text)) :
    Accesses Parted text (flags.dropped.flatMap fun field => [field, field]) := by
  rw [nullFilterStep?] at h
  split at h
  · cases h
  · obtain rfl := Step.filter.inj (Option.some.inj h)
    -- field by field: a test for null and one for numbers
    refine Accesses.intercalate (.glue " && " fun _ => rfl) rfl fun field _ => ?_
    exact ((((accesses_datum field).followed (.glue " !== null && !isNaN(" fun _ => rfl)).followed
      (accesses_datum field)).followed (.glue ")" fun _ => rfl)).mono

/-- The expression that drops values that are not positive accesses its field. -/
theorem accesses_positive (field : String) : Accesses Parted (datum field ++ " > 0") [field] :=
  (accesses_datum field).followed (.passed " > 0" rfl)

/-! ### Predicates -/

namespace Predicate

/-- The fields that a predicate asks for: its own one, or for a text those that it accesses. -/
def Asks : Predicate → List String → Prop
  | expression text, fields => Accesses Parted text fields
  | equal field _, fields | range field _ _, fields | oneOf field _, fields => fields = [field]

/-- The expression of a predicate accesses what it asks for. -/
theorem Asks.accesses {p : Predicate} (h : p.Asks fields) :
    Accesses Parted p.toExpression fields := by
  -- the texts around the accessor and the printed values touch no field
  cases p with
  | expression text => exact h
  | equal field value =>
    obtain rfl := h
    exact ((accesses_datum field).followed (.glue "===" fun _ => rfl)).followed
      (accesses_compact value)
  | range field low high =>
    obtain rfl := h
    have hlow : Accesses Parted (FloatText.plain low) [] := .numerals (Json.plain_numerals low)
    have hhigh : Accesses Parted (FloatText.plain high) [] := .numerals (Json.plain_numerals high)
    have hfield : Accesses Anything ("inrange(" ++ datum field ++ ", ") [field] :=
      ((Accesses.glue "inrange(" fun _ => rfl).followed (accesses_datum field)).followed
        (.glue ", " fun _ => rfl)
    exact ((((hfield.followed hlow).parted (.glue ", " fun _ => rfl) rfl).followed hhigh).parted
      (.glue ")" fun _ => rfl) rfl).mono
  | oneOf field values =>
    obtain rfl := h
    have hvalues : Accesses Anything
        ("indexof([" ++ ",".intercalate (values.map Json.compact) ++ "], ") [] :=
      accesses_bracketed (.glue "indexof([" fun _ => rfl) (.glue "], " fun _ => rfl) rfl
        fun v _ => accesses_compact v
    exact (hvalues.followed (accesses_datum field)).followed (.passed ") !== -1" rfl)

/-- The expression for all predicates accesses what they ask for, one after the other. -/
theorem accesses_conjunction {ps : List Predicate} {fields : Predicate → List String}
    (h : ∀ p ∈ ps, p.Asks (fields p)) :
    Accesses Parted (conjunction ps) (ps.flatMap fields) := by
  unfold conjunction
  -- one predicate stands alone, and several stand in brackets each
  split
  · next p =>
    simpa using (h p (List.mem_singleton_self p)).accesses
  · refine Accesses.intercalate (.glue " && " fun _ => rfl) rfl fun p hp => ?_
    have hopen := (Accesses.glue "(" fun _ => rfl).followed (h p hp).accesses
    have hwhole : Accesses Anything ("(" ++ p.toExpression ++ ")") ([] ++ fields p ++ []) :=
      hopen.parted (.glue ")" fun _ => rfl) rfl
    simpa using hwhole.mono

end Predicate

/-! ### Derived fields -/

namespace TimeUnit

/-- The parts that the expression of a unit reads: the month tells the quarter, and the date the day
    of the week. -/
def readParts (unit : TimeUnit) : List TimePart :=
  unit.parts.filter fun part =>
    !(part = .quarter && unit.keeps .month) && !(part = .day && unit.keeps .date)

/-- Reading a part of a date accesses its field once. -/
theorem accesses_read (part : TimePart) (field : String) :
    Accesses Anything (part.name ++ "(" ++ datum field ++ ")") [field] := by
  have hname : Accesses Anything (part.name ++ "(") [] := .glue _ fun _ => by cases part <;> rfl
  exact (hname.followed (accesses_datum field)).followed (.glue ")" fun _ => rfl)

/-- The expression of a unit accesses its field for each part that it reads. -/
theorem accesses_expression (unit : TimeUnit) (field : String) :
    Accesses Anything (unit.expression field) (unit.readParts.map fun _ => field) := by
  have hread (part : TimePart) : Accesses Parted (part.name ++ "(" ++ datum field ++ ")") [field] :=
    (accesses_read part field).mono
  have hzero : Accesses Parted "0" [] := .passed _ rfl
  -- where the month is left out it is made from the quarter, and the date from the day
  have hquarter : Accesses Parted
      ("(" ++ (TimePart.quarter.name ++ "(" ++ datum field ++ ")") ++ "-1)*3") [field] :=
    ((Accesses.glue "(" fun _ => rfl).followed (accesses_read _ field)).followed
      (.passed "-1)*3" rfl)
  have hday : Accesses Parted (TimePart.day.name ++ "(" ++ datum field ++ ")" ++ "+1") [field] :=
    (accesses_read _ field).followed (.passed "+1" rfl)
  have hmonth := ((hread .month).ite (b := unit.keeps .month)
    (hquarter.ite (b := unit.keeps .quarter) hzero))
  have hdate := ((hread .date).ite (b := unit.keeps .date)
    (hday.ite (b := unit.keeps .day) (.passed "1" rfl)))
  have hpinned (part : TimePart) {pinned : String} (h : Accesses Parted pinned []) :=
    (hread part).ite (b := unit.keeps part) h
  have hargs := Accesses.joined (.glue ", " fun _ => rfl) rfl
    (.cons (hpinned .year (.passed "2012" rfl)) (.cons hmonth (.cons hdate
      (.cons (hpinned .hours hzero) (.cons (hpinned .minutes hzero)
        (.cons (hpinned .seconds hzero) (.cons (hpinned .milliseconds hzero) .nil)))))))
  -- which parts are read depends on the unit only
  have hreads : List.flatten [if unit.keeps .year then [field] else [],
      if unit.keeps .month then [field] else if unit.keeps .quarter then [field] else [],
      if unit.keeps .date then [field] else if unit.keeps .day then [field] else [],
      if unit.keeps .hours then [field] else [], if unit.keeps .minutes then [field] else [],
      if unit.keeps .seconds then [field] else [],
      if unit.keeps .milliseconds then [field] else []] =
        unit.readParts.map fun _ => field := by
    cases unit <;> rfl
  rw [← hreads, ← List.append_nil (List.flatten _)]
  exact ((Accesses.glue "datetime(" fun _ => rfl).followed hargs).parted
    (.glue ")" fun _ => rfl) rfl

end TimeUnit

/-- The format of the labels of a channel's bins. -/
def Chart.labelFormat (chart : Chart) (f : FieldDef) : String :=
  f.guideFormat?.getD chart.header.config.numberFormat

namespace Binning

/-- A format that fits between its quotes is passed over. -/
theorem accesses_format {format : String} (h : Literal.Verbatim '\'' format.toList) :
    Accesses Anything (", '" ++ format ++ "')") [] := by
  refine .glue _ fun rest => ?_
  have htext : (", '" ++ format ++ "')").toList ++ rest =
      ',' :: ' ' :: '\'' :: (format.toList ++ '\'' :: ')' :: rest) := by
    simp
  -- up to the quote that opens the literal
  have hopen : reads (.code []) (',' :: ' ' :: '\'' :: (format.toList ++ '\'' :: ')' :: rest)) =
      reads (.literal false '\'' .plain []) (format.toList ++ '\'' :: ')' :: rest) := rfl
  rw [htext, hopen, reads_literal, Literal.read_verbatim h]
  rfl

/-- The label of a bin accesses the start and the end of the bin. -/
theorem accesses_label {chart : Chart} {f : FieldDef} {key : String} {label : String × String}
    (h : label? chart f key = some label)
    (hformat : Literal.Verbatim '\'' (chart.labelFormat f).toList) :
    Accesses Anything label.1
      [key ++ "_" ++ BinField.start.ending, key ++ "_" ++ BinField.stop.ending] := by
  have htext (field : String) : Accesses Anything
      ("format(" ++ datum field ++ ", '" ++ chart.labelFormat f ++ "')") [field] := by
    have hformatted := ((Accesses.glue "format(" fun _ => rfl).followed
      (accesses_datum field)).followed (accesses_format hformat)
    simpa [String.append_assoc] using hformatted
  rw [label?] at h
  split at h
  · obtain rfl := Option.some.inj h
    exact ((htext _).followed (.glue " + ' - ' + " fun _ => rfl)).followed (htext _)
  · cases h

end Binning

/-! ### All expressions -/

/-- An expression that is generated, with the fields that it is generated for. -/
inductive Generated : String → List String → Prop
  | nullFilter {flags : FieldFlags} {text : String}
    (h : nullFilterStep? flags = some (.filter text)) :
    Generated text (flags.dropped.flatMap fun field => [field, field])
  | positiveFilter (field : String) : Generated (datum field ++ " > 0") [field]
  | conjunction {ps : List Predicate} {fields : Predicate → List String}
    (h : ∀ p ∈ ps, p.Asks (fields p)) : Generated (Predicate.conjunction ps) (ps.flatMap fields)
  | timeUnit (unit : TimeUnit) (field : String) :
    Generated (unit.expression field) (unit.readParts.map fun _ => field)
  | label {chart : Chart} {f : FieldDef} {key : String} {label : String × String}
    (h : Binning.label? chart f key = some label)
    (hformat : Literal.Verbatim '\'' (chart.labelFormat f).toList) :
    Generated label.1
      [key ++ "_" ++ BinField.start.ending, key ++ "_" ++ BinField.stop.ending]

/-- An expression that is generated accesses the fields that it is made for. -/
theorem Generated.accesses (h : Generated text fields) : Accesses Parted text fields := by
  cases h with
  | nullFilter h => exact accesses_nullFilter h
  | positiveFilter field => exact accesses_positive field
  | conjunction h => exact Predicate.accesses_conjunction h
  | timeUnit unit field => exact (unit.accesses_expression field).mono
  | label h hformat => exact (Binning.accesses_label h hformat).mono

/-! ### Compiled data -/

/-- The expression of a step. -/
def Step.expression? : Step → Option String
  | filter text | formula text _ => some text
  | _ => none

/-- The texts of a chart that go into expressions fit there: the formats of labels between their
    quotes, and the texts of filters as expressions that are complete. -/
structure Chart.TextsFit (chart : Chart) : Prop where
  formats : ∀ d ∈ chart.fieldDefs, d.2.hasDiscreteScale = true →
    Literal.Verbatim '\'' (chart.labelFormat d.2).toList
  filters : ∀ text, .filter (.expression text) ∈ chart.header.transforms →
    ∃ fields, Accesses Parted text fields

/-- A chart in the tree declares the transform. -/
def Chart.Transforms (root : Chart) (t : Transform) : Prop :=
  ∃ c ∈ root.charts, t ∈ c.header.transforms

/-- The label is that of a channel or dimension of a chart in the tree. -/
def Chart.Labels (root : Chart) (label : String × String) : Prop :=
  ∃ c ∈ root.charts, ∃ d ∈ c.fieldDefs, ∃ key, Binning.label? c d.2 key = some label

/-- The expressions of a stage come from charts in a tree. -/
def Stage.ExpressionsOf (root : Chart) : Stage → Prop
  | filter ps => ∀ p ∈ ps, root.Transforms (.filter p)
  | calculate text target => root.Transforms (.calculate text target)
  | bin bins => ∀ e ∈ bins.values, ∀ label ∈ e.label, root.Labels label
  | timeUnit formulas => ∃ cs, TimeFormulas.Made cs formulas
  | _ => True

section ExpressionsOf

variable {root chart : Chart}

/-- A label is taken over only where there is none. -/
theorem BinEntry.forall_withLabel {P : String × String → Prop} {e : BinEntry}
    {label : Option (String × String)} (he : ∀ l ∈ e.label, P l) (hlabel : ∀ l ∈ label, P l) :
    ∀ l ∈ (e.withLabel label).label, P l := by
  intro l hl
  rw [withLabel] at hl
  cases hold : e.label with
  | some old => exact he l (by simpa [hold] using hl)
  | none => exact hlabel l (by simpa [hold] using hl)

/-- The labels of a chart are those of its channels. -/
theorem Binning.labels_ofChart (hchart : chart ∈ root.charts) {bins : Binning}
    (h : ofChart? chart = .ok (some bins)) : ∀ e ∈ bins.values, ∀ l ∈ e.label, root.Labels l := by
  obtain ⟨bins', hall, hbins⟩ := ofChart?_keeps
    (P := fun _ bins => ∀ e ∈ bins.values, ∀ l ∈ e.label, root.Labels l) h
    (fun e he => absurd he (by simp [SortedMap.values, EmptyCollection.emptyCollection,
      SortedMap.empty]))
    fun _ d _ _ hd hadd hbins => forall_addChannel hadd
      (fun params field _ _ l hl => ⟨chart, hchart, d, hd, params.fieldKey field, hl⟩)
      (fun params field e he => BinEntry.forall_withLabel he fun l hl =>
        ⟨chart, hchart, d, hd, params.fieldKey field, hl⟩) hbins
  split at hbins
  · cases hbins
  · obtain rfl := Option.some.inj hbins
    exact hall

/-- Joined stages have the expressions of both. -/
theorem Stage.hereditary_expressionsOf : Hereditary (Stage.ExpressionsOf root) where
  merge {a b c} h ha hb := by
    cases a <;> cases b <;> simp only [merge?, reduceCtorEq, Option.some.injEq] at h <;> subst h <;>
      try trivial
    · exact List.forall_mem_append.2 ⟨ha, hb⟩
    · exact Binning.forall_values_merge
        (fun _ _ h hnew => BinEntry.forall_withLabel h hnew) ha hb
    · obtain ⟨_, hmade⟩ := ha
      obtain ⟨_, hmade'⟩ := hb
      exact ⟨_, hmade.union hmade'⟩
  addDimensions {a} fields ha := by
    cases a <;> exact ha
  parse _ := trivial

/-- What a chart declares has its expressions from there. -/
theorem Chart.Owns.expressionsOf (hchart : chart ∈ root.charts) {a : Stage} (h : chart.Owns a) :
    a.ExpressionsOf root := by
  have hdeclared := h.declaredBy
  cases a with
  | filter ps =>
    obtain ⟨p, rfl, hp⟩ := hdeclared
    exact List.forall_mem_singleton.2 ⟨chart, hchart, hp⟩
  | calculate text target => exact ⟨chart, hchart, hdeclared⟩
  | bin bins => exact Binning.labels_ofChart hchart hdeclared
  | timeUnit formulas => exact ⟨_, .ofChart hdeclared⟩
  | _ => trivial

/-- An expression of a step is generated, or a calculation that a chart in the tree declares. -/
def Step.GeneratedFor (root : Chart) (step : Step) : Prop :=
  ∀ text, step.expression? = some text →
    (∃ fields, Generated text fields) ∨ ∃ target, root.Transforms (.calculate text target)

/-- A step without an expression has nothing to be generated. -/
theorem Step.GeneratedFor.of_none {step : Step} (h : step.expression? = none) :
    step.GeneratedFor root :=
  fun _ htext => absurd (h.symm.trans htext) (by simp)

/-- The expression of a step may be generated. -/
theorem Step.GeneratedFor.of_generated {step : Step} {text : String}
    (h : step.expression? = some text) (hgenerated : ∃ fields, Generated text fields) :
    step.GeneratedFor root := by
  intro text' htext
  obtain rfl := Option.some.inj (h.symm.trans htext)
  exact .inl hgenerated

variable (hfit : ∀ c ∈ root.charts, c.TextsFit)

include hfit in
/-- The predicates of charts in a tree ask for fields. -/
theorem exists_generated_conjunction {ps : List Predicate}
    (h : ∀ p ∈ ps, root.Transforms (.filter p)) :
    ∃ fields, Generated (Predicate.conjunction ps) fields := by
  have hasks : ∀ p ∈ ps, ∃ fields, p.Asks fields := by
    intro p hp
    obtain ⟨c, hc, htransform⟩ := h p hp
    cases p with
    | expression text => exact (hfit c hc).filters text htransform
    | equal | range | oneOf => exact ⟨_, rfl⟩
  choose! fields hfields using hasks
  exact ⟨_, .conjunction hfields⟩

include hfit in
/-- The label of a binning is its only expression. -/
theorem BinEntry.steps_generatedFor {e : BinEntry} (he : ∀ l ∈ e.label, root.Labels l) :
    ∀ step ∈ e.steps, step.GeneratedFor root := by
  refine BinEntry.forall_steps (fun _ _ => .of_none rfl) (.of_none rfl) fun label hlabel => ?_
  obtain ⟨c, hc, d, hd, key, hkey⟩ := he label hlabel
  -- there is a label only where the scale needs one
  have hscale : d.2.hasDiscreteScale = true := by
    by_contra hnot
    simp [Binning.label?, hnot] at hkey
  exact .of_generated rfl ⟨_, .label hkey ((hfit c hc).formats d hd hscale)⟩

include hfit in
/-- The expressions in the steps of a stage are generated, but for calculations. -/
theorem Stage.steps_generatedFor {a : Stage} (ha : a.ExpressionsOf root) :
    ∀ step ∈ a.steps ++ a.headerSteps, step.GeneratedFor root := by
  rw [List.forall_mem_append]
  constructor
  · cases a with
    | filter ps =>
      exact List.forall_mem_singleton.2 (.of_generated rfl (exists_generated_conjunction hfit ha))
    | calculate text target =>
      refine List.forall_mem_singleton.2 fun text' htext => .inr ⟨target, ?_⟩
      obtain rfl := Option.some.inj htext
      exact ha
    | nullFilter flags =>
      -- the only step is a filter, if anything is dropped
      intro step hstep
      have hflags := Option.mem_toList.1 hstep
      cases step with
      | filter text => exact .of_generated rfl ⟨_, .nullFilter hflags⟩
      | _ =>
        rw [nullFilterStep?] at hflags
        split at hflags <;> cases hflags
    | bin bins =>
      rw [steps, Binning.steps, List.forall_mem_flatMap]
      exact fun e he => BinEntry.steps_generatedFor hfit (ha e he)
    | timeUnit formulas =>
      obtain ⟨cs, hmade⟩ := ha
      rw [steps, TimeFormulas.steps, List.forall_mem_map]
      intro e he
      obtain ⟨c, -, rfl⟩ := List.mem_map.1 ((hmade.cuts e).1 he)
      exact .of_generated rfl ⟨_, .timeUnit c.unit c.field⟩
    | positiveFilter flags =>
      rw [steps, positiveFilterSteps, List.forall_mem_map]
      exact fun field _ => .of_generated rfl ⟨_, .positiveFilter field⟩
    | aggregate | order | stack => exact List.forall_mem_singleton.2 (.of_none rfl)
    | source | parse | output | facetHeader | facet => exact List.forall_mem_nil _
  · cases a with
    | facetHeader => exact List.forall_mem_singleton.2 (.of_none rfl)
    | _ => exact List.forall_mem_nil _

end ExpressionsOf

/-- The expressions in compiled data are generated, but for the calculations that charts declare. -/
theorem Compiler.compile_generatedFor {compiler : Compiler} {chart : Chart} {data : CompiledData}
    (h : (compiler.compile chart).1 = .ok data) (hfit : ∀ c ∈ chart.charts, c.TextsFit) :
    ∀ r ∈ data.records, ∀ step ∈ r.steps, step.GeneratedFor chart :=
  compile_owned h Stage.hereditary_expressionsOf (fun _ hc _ ha => ha.expressionsOf hc)
    (fun _ => Stage.steps_generatedFor hfit) fun _ => .of_none rfl

/-- An expression that is generated accesses the fields that it is made for exactly if their names
    have no quote, no backslash and no line break, and so does every accessor, wherever it stands.
    In compiled data there are no other expressions than these and the calculations that charts
    declare. -/
theorem Expression.fieldsRead_of_generated (h : Generated text fields) :
    (fieldsRead text = some (fields.map fun f => units f.toList) ↔
      ∀ f ∈ fields, Literal.Verbatim '"' f.toList) ∧
    (∀ field rest more, reads (.code []) ((datum field).toList ++ rest) =
        some (units field.toList :: more) ↔
      Literal.Verbatim '"' field.toList ∧ reads (.code []) rest = some more) ∧
    ∀ (compiler : Compiler) chart data, (compiler.compile chart).1 = .ok data →
      (∀ c ∈ chart.charts, c.TextsFit) → ∀ r ∈ data.records, ∀ step ∈ r.steps,
        step.GeneratedFor chart := by
  refine ⟨h.accesses.fieldsRead_iff, fun field rest more => ?_,
    fun compiler chart data => Compiler.compile_generatedFor⟩
  simpa using accesses_datum field rest more trivial

/-- Bars at the months of a date within the bins of a field, of some of the rows; the names of the
    fields have blanks, brackets, single quotes and characters of two code units. -/
def unusualNames : Chart :=
  .unit { name := "bars", data := some (.named "rows"),
          transforms := [.filter (.oneOf "driver's [id]" [.str "a\"]", .int 2]),
            .filter (.expression "isValid(datum['x y'])"), .calculate "1 + 1" "two"] } .bar
    ⟨[(.x, ((FieldDef.named "miles per gal." .quantitative).withBin (.flag true)).withScale .band),
      (.y, (FieldDef.named "date 𝒹" .temporal).withTimeUnit .yearMonth)], by simp; decide⟩ none

/-- Names with anything but quotes, backslashes and line breaks are read, code unit by code unit. -/
theorem Expression.fieldsRead_of_generated_unusualNames : ∃ data,
    compileChart {} unusualNames = .ok data ∧
      (∀ r ∈ data.records, ∀ step ∈ r.steps, step.GeneratedFor unusualNames) ∧
      fieldsRead (TimeUnit.yearMonth.expression "date 𝒹") =
        some [[100, 97, 116, 101, 32, 0xD835, 0xDCB9], [100, 97, 116, 101, 32, 0xD835, 0xDCB9]] := by
  obtain ⟨data, hdata, -⟩ : ∃ data, compileChart {} unusualNames = .ok data ∧ () = () :=
    exists_ok_of_map (by decide +kernel)
  obtain ⟨hread, -, hcompile⟩ := fieldsRead_of_generated (.timeUnit .yearMonth "date 𝒹")
  refine ⟨data, hdata, hcompile _ _ data hdata fun c hc => ?_, ?_⟩
  · obtain rfl := List.mem_singleton.1 (show c ∈ [unusualNames] from hc)
    refine ⟨fun d hd _ => ?_, fun text htext => ⟨["x y"], fun rest more _ => ?_⟩⟩
    -- the format that the configuration has, since no channel has one
    · have hformat : unusualNames.labelFormat d.2 = "s" := by
        simp only [unusualNames, Chart.fieldDefs, List.mem_cons, List.not_mem_nil, or_false] at hd
        rcases hd with rfl | rfl <;> rfl
      rw [hformat]
      decide
    · obtain rfl : text = "isValid(datum['x y'])" := by
        simpa [unusualNames, Chart.header] using htext
      have hfilter : reads (.code []) ("isValid(datum['x y'])".toList ++ rest) =
          (reads (.code []) rest).map ([120, 32, 121] :: ·) := rfl
      have hnames : ["x y"].map (fun f => units f.toList) = [[120, 32, 121]] := rfl
      have hverbatim : Literal.Verbatim '"' "x y".toList := by decide
      rw [hfilter, hnames, List.forall_mem_singleton, and_iff_right hverbatim]
      simp
  · refine hread.2 fun f hf => ?_
    obtain ⟨-, -, rfl⟩ := List.mem_map.1 hf
    decide

/-- A quote in the name of a field ends the literal. -/
theorem Expression.fieldsRead_quotedName : ¬ ∀ text fields, Generated text fields →
    fieldsRead text = some (fields.map fun f => units f.toList) := by
  intro hall
  have hread := hall _ _ (.positiveFilter "a\"b")
  have hnone : fieldsRead (datum "a\"b" ++ " > 0") = none := by rfl
  exact absurd (hnone.symm.trans hread) (by simp)

end ChartPipeline
