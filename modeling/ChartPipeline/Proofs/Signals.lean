import ChartPipeline.Proofs.BinKeys
import ChartPipeline.Proofs.CompiledForms
import ChartPipeline.Proofs.Contributing
import ChartPipeline.Proofs.Sharing

/-!
# The names of signals

A binning step has a signal of its own, and unless its bounds are fixed it reads them from another
one, which an extent step sets.  Both are named for the chart and for the key of the binning.  The
name of the first is made into an identifier, whatever stands in it; that of the second is taken as
it is, so it is an identifier only if the names and the parameters in it allow that.

## Key results

- `Expression.isIdentifier_varName`: what is made out of a text is an identifier
- `Chart.isIdentifier_boundsName_iff`: when the name of the bounds is one by itself
- `Compiler.compile_signals`: the signals in compiled data
-/

namespace ChartPipeline

/-! ### Identifiers -/

namespace Expression

/-- A character of identifiers: a letter or digit, an underscore or a dollar sign. -/
def PlainChar (c : Char) : Prop := c.isAlphanum = true ∨ c = '_' ∨ c = '$'

/-- A text of characters that may all stand in an identifier. -/
def Plain (text : String) : Prop := ∀ c ∈ text.toList, PlainChar c

/-- Something that an expression can name a signal by. -/
structure IsIdentifier (name : String) : Prop where
  nonempty : name ≠ ""
  plain : Plain name
  head : ∀ c ∈ name.toList.head?, c.isDigit = false

/-- A text that is not empty has characters. -/
theorem toList_ne_nil {text : String} (h : text ≠ "") : text.toList ≠ [] :=
  fun e => h (String.toList_inj.1 e)

/-- A text is plain exactly if its parts are. -/
theorem plain_append_iff {s t : String} : Plain (s ++ t) ↔ Plain s ∧ Plain t := by
  simp only [Plain, String.toList_append, List.forall_mem_append]

/-- What stands behind an identifier only has to be plain. -/
theorem isIdentifier_append_iff {s t : String} (h : s ≠ "") :
    IsIdentifier (s ++ t) ↔ IsIdentifier s ∧ Plain t := by
  have hhead : (s ++ t).toList.head? = s.toList.head? := by
    rw [String.toList_append, List.head?_append_of_ne_nil _ (toList_ne_nil h)]
  constructor
  · rintro ⟨-, hplain, hdigit⟩
    obtain ⟨hs, ht⟩ := plain_append_iff.1 hplain
    exact ⟨⟨h, hs, hhead ▸ hdigit⟩, ht⟩
  · rintro ⟨⟨-, hs, hdigit⟩, ht⟩
    refine ⟨fun e => ?_, plain_append_iff.2 ⟨hs, ht⟩, hhead ▸ hdigit⟩
    have hlist := congrArg String.toList e
    rw [String.toList_append] at hlist
    exact toList_ne_nil h (List.append_eq_nil_iff.1 hlist).1

/-- Plain characters are an identifier unless the first is a digit. -/
theorem isIdentifier_ofList {cs : List Char} (h : cs ≠ []) (hplain : ∀ c ∈ cs, PlainChar c)
    (hhead : ∀ c ∈ cs.head?, c.isDigit = false) : IsIdentifier (String.ofList cs) := by
  refine ⟨fun e => h ?_, ?_, ?_⟩
  · rw [← String.toList_ofList (l := cs), e, String.toList_empty]
  · rwa [Plain, String.toList_ofList]
  · rwa [String.toList_ofList]

/-- The test for characters, in words. -/
theorem isIdentifierChar_iff {c : Char} : isIdentifierChar c = true ↔ PlainChar c := by
  simp [isIdentifierChar, PlainChar, or_assoc]

/-- What is made out of a text is an identifier. -/
theorem isIdentifier_varName {name : String} (h : name ≠ "") : IsIdentifier (varName name) := by
  obtain ⟨c, cs, hcs⟩ := List.exists_cons_of_ne_nil (toList_ne_nil h)
  have hplain : ∀ d ∈ name.toList.map (fun c => if isIdentifierChar c then c else '_'),
      PlainChar d := by
    rw [List.forall_mem_map]
    rintro d -
    by_cases hd : isIdentifierChar d = true
    · rw [if_pos hd]
      exact isIdentifierChar_iff.1 hd
    · rw [if_neg hd]
      exact .inr (.inl rfl)
  rw [hcs, List.map_cons] at hplain
  unfold varName
  rw [hcs, List.map_cons]
  dsimp only
  -- an underscore is put in front of a digit
  cases hdigit : (if isIdentifierChar c then c else '_').isDigit with
  | false => exact isIdentifier_ofList (List.cons_ne_nil _ _) hplain (by simpa using hdigit)
  | true =>
    have hall := List.forall_mem_cons.2 ⟨.inr (.inl rfl), hplain⟩
    exact isIdentifier_ofList (List.cons_ne_nil '_' _) hall (by simp)

/-- Words that are joined by underscores are plain exactly if each of them is. -/
theorem plain_joined_iff {ws : List String} {last : String} :
    Plain (joined ws last) ↔ (∀ w ∈ ws, Plain w) ∧ Plain last := by
  have hunderscore : Plain "_" := by simp [Plain, PlainChar]
  induction ws with
  | nil => simp
  | cons w ws ih =>
    simp only [joined_cons, plain_append_iff, ih, hunderscore, List.forall_mem_cons, and_true,
      and_assoc]

/-- Whole numbers are written in digits. -/
theorem plain_repr (n : Nat) : Plain n.repr := by
  rw [Nat.repr_eq_ofList_toDigits, Plain, String.toList_ofList]
  exact fun c hc => .inl (by simp [Char.isAlphanum, AllDigits.toDigits n c hc])

end Expression

open Expression

/-! ### The names of a chart -/

/-- The numbers among the parameters that need not be whole, but for the bounds. -/
def BinParams.numbers (p : BinParams) : List Float :=
  p.step.toList ++ p.minstep.toList ++ p.base.toList

/-- The key of a binning without bounds is plain exactly if the field is, and the texts of the
    numbers that need not be whole. -/
theorem BinParams.plain_fieldKey_iff {p : BinParams} (h : p.extent = none) {field : String} :
    Plain (p.fieldKey field) ↔
      (∀ x ∈ p.numbers, Plain (FloatText.plain x)) ∧ Plain field := by
  -- the names of parameters are plain, so what counts is the words of their values
  have hspell (ps : List (String × Option (List String))) (hnames : ∀ part ∈ ps, Plain part.1) :
      (∀ w ∈ spell ps, Plain w) ↔ ∀ part ∈ ps, ∀ v ∈ part.2, ∀ w ∈ v, Plain w := by
    rw [spell, List.forall_mem_flatMap]
    refine forall₂_congr fun part hpart => ?_
    cases part.2 with
    | none => simp
    | some v => simp [hnames part hpart]
  have hvalue {β : Type} (b : Option β) (value : β → List String) :
      (∀ v ∈ b.map value, ∀ w ∈ v, Plain w) ↔ ∀ x ∈ b.toList, ∀ w ∈ value x, Plain w := by
    cases b <;> simp
  have hflag (b : Bool) : Plain (if b then "true" else "false") := by
    cases b <;> simp [Plain, PlainChar]
  have hbin : Plain "bin" := by simp [Plain, PlainChar]
  rw [fieldKey_eq_joined, plain_joined_iff, List.forall_mem_cons, words,
    hspell _ (by simp [parts, Plain, PlainChar])]
  simp only [parts, List.forall_mem_cons, hvalue, h, numbers, List.forall_mem_append]
  simp [hbin, hflag, plain_repr, and_assoc]

namespace Chart

/-- The name of the signal for the bounds of a binning. -/
def boundsName (c : Chart) (params : BinParams) (field : String) : String :=
  c.nameFor (params.fieldKey field ++ "_extent")

/-- The name for something is not empty, also in a chart without a name. -/
theorem nameFor_ne_empty (c : Chart) {text : String} (h : text ≠ "") : c.nameFor text ≠ "" := by
  by_cases hc : c.name = ""
  · rw [nameFor_of_empty hc]
    exact h
  · intro e
    have hlist : (c.nameFor text).toList = c.name.toList ++ '_' :: text.toList := toList_nameFor hc
    rw [e] at hlist
    exact absurd hlist (by simp)

/-- The name is an identifier exactly if the names and the numbers in it could stand in one. -/
theorem isIdentifier_boundsName_iff (c : Chart) {params : BinParams} (h : params.extent = none)
    (field : String) : IsIdentifier (c.boundsName params field) ↔
      (c.name = "" ∨ IsIdentifier c.name) ∧
        (∀ x ∈ params.numbers, Plain (FloatText.plain x)) ∧ Plain field := by
  have hextent : Plain "_extent" := by simp [Plain, PlainChar]
  have hkey : Plain (params.fieldKey field ++ "_extent") ↔ Plain (params.fieldKey field) := by
    rw [plain_append_iff, and_iff_left hextent]
  rw [boundsName, ← BinParams.plain_fieldKey_iff h, ← hkey]
  -- the first part of the name decides how it may begin: that of the chart, or that of the key
  by_cases hc : c.name = ""
  · -- the name begins with the first letters of a key
    obtain ⟨rest, hrest⟩ := params.exists_fieldKey_eq field
    have hbin : IsIdentifier "bin" := ⟨by decide, by simp [Plain, PlainChar], by simp⟩
    rw [nameFor_of_empty hc, hrest, String.append_assoc, plain_append_iff,
      isIdentifier_append_iff (by decide)]
    simp only [hbin, hbin.plain, hc, true_and, true_or]
  · have hunderscore : Plain "_" := by simp [Plain, PlainChar]
    have hname : c.nameFor (params.fieldKey field ++ "_extent") =
        c.name ++ ("_" ++ (params.fieldKey field ++ "_extent")) := by
      apply String.toList_inj.1
      rw [toList_nameFor hc]
      simp [String.toList_append]
    rw [hname, isIdentifier_append_iff hc, plain_append_iff]
    simp only [hunderscore, hc, true_and, false_or]

/-- A binning step is that of a channel or dimension of a chart in the tree. -/
def Bins (chart : Chart) (b : BinStep) : Prop :=
  ∃ c ∈ chart.charts, ∃ d ∈ c.fieldDefs, ∃ params field, d.2.binParams? = some params ∧
    d.2.field = some field ∧ b = Binning.step c params field (params.fieldKey field)

/-- The signal of a binning in a chart is an identifier. -/
theorem isIdentifier_signal {chart : Chart} {b : BinStep} (h : chart.Bins b) :
    IsIdentifier b.signal := by
  obtain ⟨c, -, d, -, params, field, -, -, rfl⟩ := h
  apply isIdentifier_varName
  apply nameFor_ne_empty
  obtain ⟨rest, hrest⟩ := params.exists_fieldKey_eq field
  intro e
  rw [hrest] at e
  exact absurd (congrArg String.toList e) (by simp [String.toList_append])

/-- A chart is in the tree that it is the root of. -/
theorem mem_charts (chart : Chart) : chart ∈ chart.charts := by
  rw [charts, parts, inContext_eq, List.map_append]
  exact List.mem_append_right _ (List.mem_singleton_self _)

/-- The charts inside a chart of a tree are in the tree as well. -/
theorem charts_subset_of_mem_children {chart c : Chart} (h : c ∈ chart.children) :
    c.charts ⊆ chart.charts := by
  intro d hd
  rw [charts, parts, inContext_eq, List.map_append, List.mem_append, List.mem_map]
  rw [charts, parts, map_snd_inContext _ _ c _ (Analysis.hasData chart.header false),
    List.mem_map] at hd
  obtain ⟨x, hx, rfl⟩ := hd
  exact .inl ⟨x, mem_allInContext_iff.2 ⟨c, h, hx⟩, rfl⟩

end Chart

/-! ### Stages and steps -/

/-- The bins of a stage are those of charts in a tree. -/
def Stage.BinsOf (chart : Chart) : Stage → Prop
  | bin bins => ∀ e ∈ bins.values, chart.Bins e.step
  | _ => True

/-- A step bins what a chart in a tree bins, or sets the signal that such a step reads. -/
def Step.BinsOf (chart : Chart) : Step → Prop
  | bin b => chart.Bins b
  | extent field name => ∃ b, chart.Bins b ∧ b.field = field ∧ b.extent = .signal name
  | _ => True

section BinsOf

variable {root : Chart}

/-- The bins of joined stages are those of the parts. -/
theorem Stage.hereditary_binsOf : Hereditary (Stage.BinsOf root) where
  merge {a b c} h ha hb := by
    cases a <;> cases b <;> simp only [merge?, reduceCtorEq, Option.some.injEq] at h <;> subst h <;>
      try trivial
    exact Binning.forall_merge ha hb
  addDimensions {a} dims ha := by cases a <;> exact ha
  parse types := trivial

/-- A chart in the tree bins only what it asks for itself. -/
theorem Chart.gives_binsOf {c : Chart} (hc : c.charts ⊆ root.charts) :
    c.Gives (Stage.BinsOf root) where
  source _ _ := trivial
  bin _ hb := Binning.forall_ofChart hb
    (fun d hd params field hparams hfield =>
      ⟨c, hc c.mem_charts, d, hd, params, field, hparams, hfield, rfl⟩) fun _ _ _ _ he => he
  other a ha := by
    cases a with
    | bin => exact absurd ha (by simp [Stage.tag])
    | _ => trivial

/-- An entry gives a step that bins, one for its bounds if need be, and labels. -/
theorem BinEntry.steps_binsOf {e : BinEntry} (he : root.Bins e.step) :
    ∀ step ∈ e.steps, step.BinsOf root :=
  BinEntry.forall_steps (fun _ hname => ⟨e.step, he, rfl, hname⟩) he fun _ _ => trivial

/-- So the steps of a stage, and those of a header, bin what charts in the tree bin. -/
theorem Stage.steps_binsOf {a : Stage} (ha : a.BinsOf root) :
    ∀ step ∈ a.steps ++ a.headerSteps, step.BinsOf root := by
  -- the steps of the stage itself, and those of its header
  rw [List.forall_mem_append]
  constructor
  · refine Stage.forall_steps (Q := Step.BinsOf root) (fun _ => trivial) (fun _ _ => trivial)
      (fun _ _ _ _ => trivial) (fun _ => trivial) (fun _ => trivial) ?_
    rintro bins rfl
    rw [Binning.steps, List.forall_mem_flatMap]
    exact fun e he => BinEntry.steps_binsOf (ha e he)
  · cases a with
    | facetHeader => exact List.forall_mem_singleton.2 trivial
    | _ => exact List.forall_mem_nil _

end BinsOf

/-! ### Compiled data -/

/-- What is so of the steps of the stages and of all steps that load data is so of all steps of an
    assembled flow. -/
theorem Flow.forall_steps_of_assembleAfter {Q : Step → Prop} {flow flow' : Flow}
    {earlier st : Assembly} {data : CompiledData} (hn : flow.stages.walk.Nodup)
    (h : flow.assembleAfter earlier = (.ok data, st, flow'))
    (hload : ∀ params, Q (.sequence params))
    (hstages : ∀ e ∈ flow.stages.toList, ∀ step ∈ e.2.steps ++ e.2.headerSteps, Q step) :
    ∀ r ∈ data.records, ∀ step ∈ r.steps, Q step := by
  intro r hr step hstep
  -- a record with a source is derived; one without loads data
  cases hsource : r.source with
  | some source =>
    have hderived : step ∈ derivedSteps data.records :=
      List.mem_flatMap.2 ⟨r, List.mem_filter.2 ⟨hr, by rw [hsource]; rfl⟩, hstep⟩
    obtain ⟨e, he, hstep⟩ :=
      List.mem_flatMap.1 ((derivedSteps_of_assembleAfter h).mem_iff.1 hderived)
    exact hstages e he step hstep
  | none =>
    obtain ⟨root, -, s, -, hconverts⟩ := exists_loadedBy_of_mem hn h hr hsource
    rw [hconverts.record_eq] at hstep
    unfold Source.record at hstep
    split at hstep
    · exact absurd hstep List.not_mem_nil
    · exact absurd hstep List.not_mem_nil
    · obtain rfl := List.mem_singleton.1 hstep
      exact hload _
    · exact absurd hstep List.not_mem_nil

/-- After optimization no name stands twice in the flow. -/
theorem optimizeFlow_nodup {options : CompilerOptions} {chart : Chart} {built : Building}
    {flow : Flow} (hb : Building.ofChart chart = .ok built)
    (hrun : options.optimizeFlow built.flow = (.ok (), flow)) : flow.stages.walk.Nodup := by
  have hlawful := Building.ofChart_lawful hb
  obtain ⟨hends, hst⟩ := CompilerOptions.ends_of_optimizeFlow hlawful hrun
  rw [hst]
  exact Forest.nodup_prune _ (hlawful.hoist hends).nodup

/-- The signal that a step sets to the bins it makes. -/
def Step.binSignal? : Step → Option String
  | bin b => some b.signal
  | _ => none

/-- The signal for bounds that a step sets, or that it reads. -/
def Step.boundsSignal? : Step → Option String
  | extent _ name => some name
  | bin b => match b.extent with
    | .signal name => some name
    | .bounds .. => none
  | _ => none

/-- A signal for bounds is that of a binned channel or dimension without bounds of its own. -/
def Chart.Bounds (chart : Chart) (name : String) : Prop :=
  ∃ c ∈ chart.charts, ∃ d ∈ c.fieldDefs, ∃ params field, d.2.binParams? = some params ∧
    d.2.field = some field ∧ params.extent = none ∧ name = c.boundsName params field

/-- A signal that a binning reads its bounds from is one for bounds. -/
theorem Chart.Bins.bounds {chart : Chart} {b : BinStep} (h : chart.Bins b) {name : String}
    (he : b.extent = .signal name) : chart.Bounds name := by
  obtain ⟨c, hc, d, hd, params, field, hparams, hfield, rfl⟩ := h
  simp only [Binning.step] at he
  split at he
  · cases he
  · next hnone =>
    exact ⟨c, hc, d, hd, params, field, hparams, hfield, hnone, (BinExtent.signal.inj he).symm⟩

/-- Steps that bin set identifiers. -/
theorem Step.BinsOf.isIdentifier_binSignal {chart : Chart} {step : Step} (h : step.BinsOf chart) :
    ∀ name ∈ step.binSignal?, IsIdentifier name := by
  intro name hname
  cases step with
  | bin b =>
    obtain rfl := Option.some.inj hname
    exact Chart.isIdentifier_signal h
  | _ => cases hname

/-- The steps for bounds, and those that read them, use signals for bounds. -/
theorem Step.BinsOf.bounds {chart : Chart} {step : Step} (h : step.BinsOf chart) :
    ∀ name ∈ step.boundsSignal?, chart.Bounds name := by
  intro name hname
  cases step with
  | bin b =>
    simp only [boundsSignal?] at hname
    split at hname
    · next hextent =>
      obtain rfl := Option.some.inj hname
      exact Chart.Bins.bounds h hextent
    · cases hname
  | extent field signal =>
    obtain rfl := Option.some.inj hname
    obtain ⟨b, hb, -, hextent⟩ := h
    exact hb.bounds hextent
  | _ => cases hname

namespace Compiler

variable {compiler : Compiler} {chart : Chart} {data : CompiledData}

/-- All steps of compiled data bin what charts in the tree bin, or set the signals for that. -/
theorem compile_binsOf (h : (compiler.compile chart).1 = .ok data) :
    ∀ r ∈ data.records, ∀ step ∈ r.steps, step.BinsOf chart := by
  obtain ⟨-, built, flow, earlier, st, flow', hbuilt, hrun, hassemble⟩ := compile_inv h
  have hbuiltStages := Building.forall_of_ofChart (C := fun c => c.charts ⊆ chart.charts) hbuilt
    (List.Subset.refl _)
    (fun _ hc _ hd => List.Subset.trans (Chart.charts_subset_of_mem_children hd) hc)
    fun _ hc => Chart.gives_binsOf hc
  have hstages := optimizeFlow_forall hbuilt hrun Stage.hereditary_binsOf hbuiltStages
  exact Flow.forall_steps_of_assembleAfter (optimizeFlow_nodup hbuilt hrun) hassemble
    (fun _ => trivial) fun e he => Stage.steps_binsOf (hstages e he)

/-- In compiled data the signal of each binning step is an identifier.  Each signal for bounds, set
    by an extent step or read by a binning step, is named for a chart and for a binning that it asks
    for without bounds.  This is an identifier exactly if the chart has no name or one that is an
    identifier, and the field and the numbers among the parameters could stand in one. -/
theorem compile_signals (h : (compiler.compile chart).1 = .ok data) :
    ∀ r ∈ data.records, ∀ step ∈ r.steps, (∀ name ∈ step.binSignal?, IsIdentifier name) ∧
      ∀ name ∈ step.boundsSignal?, ∃ c ∈ chart.charts, ∃ d ∈ c.fieldDefs, ∃ params field,
        d.2.binParams? = some params ∧ d.2.field = some field ∧ params.extent = none ∧
          name = c.boundsName params field ∧
            (IsIdentifier name ↔ (c.name = "" ∨ IsIdentifier c.name) ∧
              (∀ x ∈ params.numbers, Plain (FloatText.plain x)) ∧ Plain field) := by
  intro r hr step hstep
  have hbins := compile_binsOf h r hr step hstep
  refine ⟨hbins.isIdentifier_binSignal, fun name hname => ?_⟩
  obtain ⟨c, hc, d, hd, params, field, hparams, hfield, hextent, rfl⟩ := hbins.bounds name hname
  exact ⟨c, hc, d, hd, params, field, hparams, hfield, hextent, rfl,
    c.isIdentifier_boundsName_iff hextent field⟩

/-- Points by the bins of a field. -/
def binnedPoints (name field : String) : Chart :=
  .unit { name, data := some (.values [.obj [(field, .int 1)]] none) } .point
    ((∅ : Encoding).insert .x ((FieldDef.named field .quantitative).withBin (.flag true))) none

/-- With names that are identifiers themselves, all signals are. -/
theorem compile_signals_binnedPoints : ∃ data,
    compileChart {} (binnedPoints "ages" "age") = .ok data ∧
      ∀ r ∈ data.records, ∀ step ∈ r.steps, (∀ name ∈ step.binSignal?, IsIdentifier name) ∧
        ∀ name ∈ step.boundsSignal?,
          name = "ages_bin_maxbins_10_age_extent" ∧ IsIdentifier name := by
  obtain ⟨data, hdata, -⟩ : ∃ data,
      compileChart {} (binnedPoints "ages" "age") = .ok data ∧ () = () :=
    exists_ok_of_map (by decide +kernel)
  refine ⟨data, hdata, fun r hr step hstep => ?_⟩
  obtain ⟨hbin, hbounds⟩ := compile_signals hdata r hr step hstep
  refine ⟨hbin, fun name hname => ?_⟩
  obtain ⟨c, hc, d, hd, params, field, hparams, hfield, -, hname, hiff⟩ := hbounds name hname
  -- there is one chart with one channel
  obtain rfl := List.mem_singleton.1 (show c ∈ [binnedPoints "ages" "age"] from hc)
  obtain rfl := List.mem_singleton.1
    (show d ∈ [(Channel.x, (FieldDef.named "age" .quantitative).withBin (.flag true))] from hd)
  obtain rfl := Option.some.inj hparams
  obtain rfl := Option.some.inj hfield
  have hages : IsIdentifier "ages" := ⟨by decide, by simp [Plain, PlainChar], by simp⟩
  have hage : Plain "age" := by simp [Plain, PlainChar]
  exact ⟨hname.trans (by decide +kernel),
    hiff.2 ⟨.inr hages, fun x hx => absurd hx List.not_mem_nil, hage⟩⟩

/-- The name of a chart may have a blank, and then a signal for bounds has one, too. -/
theorem compile_signals_spaced : ¬ ∀ chart data, compileChart {} chart = .ok data →
    ∀ r ∈ data.records, ∀ step ∈ r.steps, (∀ name ∈ step.binSignal?, IsIdentifier name) ∧
      ∀ name ∈ step.boundsSignal?, IsIdentifier name := by
  intro hall
  obtain ⟨data, hdata, hsignals⟩ : ∃ data,
      compileChart {} (binnedPoints "my chart" "a") = .ok data ∧
        (data.records.flatMap DatasetRecord.steps).filterMap Step.boundsSignal? =
          ["my chart_bin_maxbins_10_a_extent", "my chart_bin_maxbins_10_a_extent"] :=
    exists_ok_of_map (by decide +kernel)
  have hmem : "my chart_bin_maxbins_10_a_extent" ∈
      (data.records.flatMap DatasetRecord.steps).filterMap Step.boundsSignal? := by
    rw [hsignals]
    exact List.mem_cons_self
  obtain ⟨step, hstep, hname⟩ := List.mem_filterMap.1 hmem
  obtain ⟨r, hr, hstep⟩ := List.mem_flatMap.1 hstep
  have hplain := ((hall _ data hdata r hr step hstep).2 _ hname).plain
  exact absurd (hplain ' ' (by decide +kernel)) (by simp [PlainChar])

end Compiler

end ChartPipeline
