import ChartPipeline.Proofs.Buildable
import ChartPipeline.Proofs.Sharing

/-!
# Which charts the analysis accepts

The analysis walks through a tree of charts with the names that it has seen and with whether there
are data around, and stops at the first problem.  What it looks for can be said without a walk: the
names in a valid tree differ, and each chart in it, with the charts around it, is as it should be.

## Key results

- `checkOwn_ok_iff`: what is checked of one chart
- `check_ok_iff`: a walk passes if each chart passes by itself and all names are new
- `analyzeAfter_ok_iff`: the analysis accepts exactly the valid trees
-/

namespace ChartPipeline

/-! ### Valid parts of charts -/

/-- Parameters that a step can honour: bounds in order, at least one bin, and a step that is not
zero or less. -/
structure BinParams.Valid (p : BinParams) : Prop where
  extent : ∀ low high, p.extent = some (low, high) → low ≤ high
  maxbins : p.maxbins ≠ some 0
  step : ∀ step, p.step = some step → ¬ step ≤ 0

/-- A predicate that can be evaluated: a text that is not blank, bounds in order, or a value among
some. -/
def Predicate.Valid : Predicate → Prop
  | .expression text => isBlankText text = false
  | .equal _ _ => True
  | .range _ low high => low ≤ high
  | .oneOf _ values => values ≠ []

/-- A transform with a valid predicate, or with an expression and a field to receive its value. -/
def Transform.Valid : Transform → Prop
  | .filter predicate => predicate.Valid
  | .calculate expression output => isBlankText expression = false ∧ isBlankText output = false

/-- A definition that names a field if anything is derived from it, be it only said that it is not
binned, and whose bins, if there are any, can be made. -/
structure FieldDef.Valid (f : FieldDef) : Prop where
  field : (f.bin.isSome = true ∨ f.timeUnit.isSome = true ∨
    ∃ op, f.aggregate = some op ∧ op ≠ .count) → f.field.isSome = true
  bins : ∀ params, f.binParams? = some params → params.Valid

/-- Dimensions, at least one, with a field for each. -/
structure FacetMapping.Valid (m : FacetMapping) : Prop where
  declared : m.row.isSome = true ∨ m.column.isSome = true
  fields : ∀ f, m.row = some f ∨ m.column = some f → f.field.isSome = true

/-- A stack of which all channels are encoded: the one that is stacked, the one that tells the stacks
apart, if there is one, and those that order the layers. -/
structure StackProperties.StackableIn (s : StackProperties) (encoding : Encoding) : Prop where
  field : encoding.contains s.fieldChannel = true
  groupby : ∀ channel, s.groupbyChannel = some channel → encoding.contains channel = true
  layers : ∀ channel ∈ s.stackBy, encoding.contains channel = true

namespace Chart

/-- A chart that is as it should be inside the charts `around` it, apart from its name and from the
charts inside: data of its own or from around for a unit or a facet, children of a layer, fields for
the dimensions of a facet, channels that are valid and that are there to be stacked, and valid
transforms. -/
structure ValidInside (around : List Chart) (chart : Chart) : Prop where
  data : chart.isLayer = false → ∃ c ∈ chart :: around, c.header.data.isSome = true
  children : ∀ header, chart ≠ .layer header []
  dimensions : ∀ header mapping child, chart = .facet header mapping child → mapping.Valid
  channels : ∀ header mark encoding stack, chart = .unit header mark encoding stack →
    ∀ d ∈ encoding.entries, d.2.Valid
  stack : ∀ header mark encoding properties,
    chart = .unit header mark encoding (some properties) → properties.StackableIn encoding
  transforms : ∀ transform ∈ chart.header.transforms, transform.Valid

/-- The charts of a tree, each with the charts around it, the nearest first. -/
def surrounded (chart : Chart) : List (List Chart × Chart) :=
  chart.inContext (fun around c => c :: around) []

/-- A tree of charts with different names, each of which is as it should be where it is. -/
structure Valid (chart : Chart) : Prop where
  names : (chart.charts.map Chart.name).Nodup
  inside : ∀ x ∈ chart.surrounded, x.2.ValidInside x.1

end Chart

/-! ### Checks of the parts -/

/-- Checks of a list pass exactly if each passes. -/
theorem forM_ok_iff {ε α : Type} {f : α → Except ε Unit} {l : List α} :
    l.forM f = .ok () ↔ ∀ a ∈ l, f a = .ok () := by
  constructor
  · exact (Yields.forM f l).of_ok
  · intro h
    cases hrun : l.forM f with
    | ok u => rfl
    | error e =>
      obtain ⟨a, ha, he⟩ := (Yields.forM f l).of_error hrun
      exact absurd ((h a ha).symm.trans he) (by simp)

/-- Two checks pass exactly if the first passes and then the second. -/
theorem bind_ok_iff {ε : Type} {x : Except ε Unit} {k : Unit → Except ε Unit} :
    x >>= k = .ok () ↔ x = .ok () ∧ k () = .ok () := by
  cases x with
  | error e => simp [bind, Except.bind]
  | ok u => simp [bind, Except.bind]

/-- The check of bin parameters accepts the valid ones. -/
theorem BinParams.validate_ok_iff {p : BinParams} : p.validate = .ok () ↔ p.Valid := by
  -- what is looked at after the extent, if this is in order
  have hrest : validate.rest p = .ok () ↔
      p.maxbins ≠ some 0 ∧ ∀ step, p.step = some step → ¬ step ≤ 0 := by
    rw [validate.rest]
    split
    next h => simp [h]
    next h =>
      cases p.step with
      | none => simp [h]
      | some step => by_cases hs : step ≤ 0 <;> simp [h, hs]
  rw [validate]
  cases hextent : p.extent with
  | none =>
    rw [hrest]
    exact ⟨fun h => ⟨fun _ _ he => absurd (hextent.symm.trans he) (by simp), h.1, h.2⟩,
      fun h => ⟨h.maxbins, h.step⟩⟩
  | some bounds =>
    obtain ⟨low, high⟩ := bounds
    dsimp only
    by_cases hle : low ≤ high
    · rw [if_pos hle, hrest]
      refine ⟨fun h => ⟨fun low' high' he => ?_, h.1, h.2⟩, fun h => ⟨h.maxbins, h.step⟩⟩
      obtain ⟨rfl, rfl⟩ := Prod.mk.inj (Option.some.inj (hextent.symm.trans he))
      exact hle
    · rw [if_neg hle]
      exact ⟨fun h => absurd h (by simp), fun h => absurd (h.extent low high hextent) hle⟩

/-- The check of a predicate accepts the valid ones. -/
theorem Predicate.validate_ok_iff {p : Predicate} : p.validate = .ok () ↔ p.Valid := by
  cases p with
  | expression text => cases h : isBlankText text <;> simp [validate, Valid, h]
  | equal field value => exact ⟨fun _ => trivial, fun _ => rfl⟩
  | range field low high => by_cases h : low ≤ high <;> simp [validate, Valid, h]
  | oneOf field values => cases values <;> simp [validate, Valid]

namespace Analysis

/-- The check of a transform accepts the valid ones. -/
theorem checkTransform_ok_iff {header : ChartHeader} {transform : Transform} :
    checkTransform header transform = .ok () ↔ transform.Valid := by
  cases transform with
  | filter predicate => exact mapError_eq_ok.trans Predicate.validate_ok_iff
  | calculate expression output =>
    cases he : isBlankText expression <;> cases ho : isBlankText output <;>
      simp [checkTransform, Transform.Valid, he, ho]

/-- A definition needs no field if nothing is derived from it. -/
theorem fieldNeed?_eq_none_iff {f : FieldDef} : fieldNeed? f = none ↔
    ¬ (f.bin.isSome = true ∨ f.timeUnit.isSome = true ∨
      ∃ op, f.aggregate = some op ∧ op ≠ .count) := by
  rw [fieldNeed?]
  cases f.bin with
  | some bin => simp
  | none =>
    cases f.timeUnit with
    | some unit => simp
    | none => cases h : f.aggregate <;> simp [FieldDef.isCount, h]

/-- The check of a definition accepts the valid ones. -/
theorem checkFieldDef_ok_iff {channel : Channel} {f : FieldDef} :
    checkFieldDef channel f = .ok () ↔ f.Valid := by
  rw [checkFieldDef_eq]
  -- the field is looked at first, and only then the bins
  cases hneed : if f.field.isNone then fieldNeed? f else none with
  | some need =>
    split at hneed
    next hfield =>
      refine ⟨fun h => absurd h (by simp), fun h => ?_⟩
      have hno := mt h.field (by simpa using hfield)
      rw [fieldNeed?_eq_none_iff.2 hno] at hneed
      cases hneed
    next => cases hneed
  | none =>
    have hfield : (f.bin.isSome = true ∨ f.timeUnit.isSome = true ∨
        ∃ op, f.aggregate = some op ∧ op ≠ .count) → f.field.isSome = true := by
      intro hderived
      split at hneed
      next => exact absurd hderived (fieldNeed?_eq_none_iff.1 hneed)
      next h => simpa [Option.isSome_iff_ne_none] using h
    cases hbins : f.binParams? with
    | none => exact ⟨fun _ => ⟨hfield, by simp [hbins]⟩, fun _ => rfl⟩
    | some params =>
      show params.validate.mapError CompileError.definition = .ok () ↔ f.Valid
      rw [mapError_eq_ok, BinParams.validate_ok_iff]
      exact ⟨fun h => ⟨hfield, by simpa [hbins] using h⟩, fun h => h.bins params hbins⟩

/-- The check of a stack accepts those whose channels are encoded. -/
theorem checkStack_ok_iff {header : ChartHeader} {encoding : Encoding} {stack : StackProperties} :
    checkStack header encoding stack = .ok () ↔ stack.StackableIn encoding := by
  have hchannels : checkStack header encoding stack = .ok () ↔
      ∀ channel ∈ stack.channels, encoding.contains channel = true := by
    rw [checkStack, forM_ok_iff]
    refine forall₂_congr fun channel _ => ?_
    cases encoding.contains channel <;> simp
  rw [hchannels]
  constructor
  · intro h
    refine ⟨h _ List.mem_cons_self, fun channel hc => h _ ?_, fun channel hc => h _ ?_⟩
    · simp [StackProperties.channels, hc]
    · simp [StackProperties.channels, hc]
  · intro h channel hc
    -- the channels are listed in the order in which the check looks at them
    simp only [StackProperties.channels, List.mem_cons, List.mem_append, Option.mem_toList] at hc
    rcases hc with rfl | hc | hc
    · exact h.field
    · exact h.groupby channel hc
    · exact h.layers channel hc

/-- The check of a facet accepts valid dimensions. -/
theorem checkFacet_ok_iff {header : ChartHeader} {mapping : FacetMapping} :
    checkFacet header mapping = .ok () ↔ mapping.Valid := by
  have hdeclared : mapping.fieldDefs.isEmpty = false ↔
      mapping.row.isSome = true ∨ mapping.column.isSome = true := by
    rw [FacetMapping.fieldDefs]
    cases mapping.row <;> cases mapping.column <;> simp
  -- the checked definitions are those of the two dimensions
  have hmem (f : FieldDef) : (∃ channel, (channel, f) ∈ mapping.fieldDefs) ↔
      mapping.row = some f ∨ mapping.column = some f := by
    rw [FacetMapping.fieldDefs]
    cases mapping.row <;> cases mapping.column <;> simp [exists_or, eq_comm, or_comm]
  have hfields : (∀ d ∈ mapping.fieldDefs, (if d.2.field.isNone then
      Except.error (CompileError.definition (.missingField d.1 .facet)) else .ok ()) = .ok ()) ↔
      ∀ f, mapping.row = some f ∨ mapping.column = some f → f.field.isSome = true := by
    constructor
    · intro h f hf
      obtain ⟨channel, hd⟩ := (hmem f).2 hf
      have hchecked := h _ hd
      cases hfield : f.field <;> simp [hfield] at hchecked ⊢
    · intro h d hd
      have hfield := h d.2 ((hmem d.2).1 ⟨d.1, hd⟩)
      rw [if_neg (by simpa [Option.isSome_iff_ne_none] using hfield)]
  rw [checkFacet]
  cases hempty : mapping.fieldDefs.isEmpty with
  | true =>
    rw [if_pos rfl]
    refine ⟨fun h => absurd h (by simp), fun h => ?_⟩
    exact absurd (hdeclared.2 h.declared) (by simp [hempty])
  | false =>
    rw [if_neg (by simp), forM_ok_iff, hfields]
    exact ⟨fun h => ⟨hdeclared.1 hempty, h⟩, fun h => h.fields⟩

/-- The check for data passes where there are data. -/
theorem checkData_ok_iff {header : ChartHeader} {hasData : Bool} :
    checkData header hasData = .ok () ↔ hasData = true := by
  cases hasData <;> simp [checkData]

/-- What is checked of one chart, with the charts around it. -/
theorem checkOwn_ok_iff {around : List Chart} {chart : Chart} :
    checkOwn chart (hasData chart.header (around.any (·.header.data.isSome))) = .ok () ↔
      chart.ValidInside around := by
  -- the walk knows only whether there are data around, and not where
  have hdata : hasData chart.header (around.any (·.header.data.isSome)) = true ↔
      ∃ c ∈ chart :: around, c.header.data.isSome = true := by
    rw [hasData, Bool.or_eq_true, List.any_eq_true]
    simp [or_comm]
  have htransforms : chart.header.transforms.forM (checkTransform chart.header) = .ok () ↔
      ∀ transform ∈ chart.header.transforms, transform.Valid :=
    forM_ok_iff.trans (forall₂_congr fun _ _ => checkTransform_ok_iff)
  cases chart with
  | unit header mark encoding stack =>
    have hchannels : (encoding.entries.forM fun d => checkFieldDef d.1 d.2) = .ok () ↔
        ∀ d ∈ encoding.entries, d.2.Valid :=
      forM_ok_iff.trans (forall₂_congr fun _ _ => checkFieldDef_ok_iff)
    unfold checkOwn
    cases stack with
    | none =>
      rw [bind_ok_iff, bind_ok_iff, checkData_ok_iff, hdata, hchannels]
      constructor
      · rintro ⟨hd, hc, ht⟩
        refine ⟨fun _ => hd, by simp, by simp, ?_, by simp, htransforms.1 ht⟩
        rintro _ _ _ _ ⟨⟩
        exact hc
      · intro h
        exact ⟨h.data rfl, h.channels _ _ _ _ rfl, htransforms.2 h.transforms⟩
    | some properties =>
      rw [bind_ok_iff, bind_ok_iff, bind_ok_iff, checkData_ok_iff, hdata, hchannels,
        checkStack_ok_iff]
      constructor
      · rintro ⟨hd, hc, hs, ht⟩
        refine ⟨fun _ => hd, by simp, by simp, ?_, ?_, htransforms.1 ht⟩
        · rintro _ _ _ _ ⟨⟩
          exact hc
        · rintro _ _ _ _ ⟨⟩
          exact hs
      · intro h
        exact ⟨h.data rfl, h.channels _ _ _ _ rfl, h.stack _ _ _ _ rfl,
          htransforms.2 h.transforms⟩
  | layer header children =>
    unfold checkOwn
    cases children with
    | nil =>
      constructor
      · intro h
        exact absurd h (by simp [bind, Except.bind, throw, throwThe, MonadExceptOf.throw])
      · intro h
        exact absurd rfl (h.children header)
    | cons child rest =>
      -- a layer needs no data, and what is left to check are its transforms
      have hlayer : (Chart.layer header (child :: rest)).isLayer ≠ false := by simp [Chart.isLayer]
      refine htransforms.trans ⟨fun ht => ?_, fun h => h.transforms⟩
      exact ⟨fun hl => absurd hl hlayer, by simp, by simp, by simp, by simp, ht⟩
  | facet header mapping child =>
    unfold checkOwn
    rw [bind_ok_iff, bind_ok_iff, checkData_ok_iff, hdata, checkFacet_ok_iff]
    constructor
    · rintro ⟨hd, hm, ht⟩
      refine ⟨fun _ => hd, by simp, ?_, by simp, by simp, htransforms.1 ht⟩
      rintro _ _ _ ⟨⟩
      exact hm
    · intro h
      exact ⟨h.data rfl, h.dimensions _ _ _ rfl, htransforms.2 h.transforms⟩

/-! ### Walks through trees -/

/-- What the charts of a walk need to pass after the names `seen`: each is as it should be where it
is, and their names differ from each other and from those seen. -/
structure Accepted (xs : List (List Chart × Chart)) (seen : List String) : Prop where
  inside : ∀ x ∈ xs, x.2.ValidInside x.1
  names : (xs.map fun x => x.2.name).Nodup
  unseen : ∀ x ∈ xs, x.2.name ∉ seen

/-- Charts are accepted together exactly if the first are, and the others after their names. -/
theorem accepted_append {xs ys : List (List Chart × Chart)} {seen seen' : List String}
    (hp : seen'.Perm (xs.map (fun x => x.2.name) ++ seen)) :
    Accepted (xs ++ ys) seen ↔ Accepted xs seen ∧ Accepted ys seen' := by
  -- a name of the second part is new if it is neither seen before nor among those of the first
  have hnew {name : String} : name ∉ seen' ↔ name ∉ xs.map (fun x => x.2.name) ∧ name ∉ seen := by
    rw [hp.mem_iff, List.mem_append, not_or]
  constructor
  · intro h
    have hn := h.names
    rw [List.map_append, List.nodup_append] at hn
    obtain ⟨hxs, hys, hdisjoint⟩ := hn
    refine ⟨⟨fun x hx => h.inside x (List.mem_append_left _ hx), hxs,
      fun x hx => h.unseen x (List.mem_append_left _ hx)⟩,
      ⟨fun y hy => h.inside y (List.mem_append_right _ hy), hys, fun y hy => hnew.2 ⟨?_, ?_⟩⟩⟩
    · exact fun hx => hdisjoint _ hx _ (List.mem_map_of_mem hy) rfl
    · exact h.unseen y (List.mem_append_right _ hy)
  · rintro ⟨hx, hy⟩
    refine ⟨fun z hz => ?_, ?_, fun z hz => ?_⟩
    · exact (List.mem_append.1 hz).elim (hx.inside z) (hy.inside z)
    · rw [List.map_append]
      refine List.nodup_append.2 ⟨hx.names, hy.names, ?_⟩
      rintro name hname name' hname' rfl
      obtain ⟨y, hmem, rfl⟩ := List.mem_map.1 hname'
      exact (hnew.1 (hy.unseen y hmem)).1 hname
    · exact (List.mem_append.1 hz).elim (hx.unseen z) fun h => (hnew.1 (hy.unseen z h)).2

/-- A walk through charts: it passes exactly if they are accepted, and then their names are added to
those seen. -/
structure Walks (xs : List (List Chart × Chart)) (c : Check Unit) : Prop where
  ok_iff (seen : List String) : (c seen).1 = .ok () ↔ Accepted xs seen
  adds {seen seen' : List String} (h : c seen = (.ok (), seen')) :
    seen'.Perm (xs.map (fun x => x.2.name) ++ seen)

/-- A walk through charts and then through others. -/
theorem Walks.bind {xs ys : List (List Chart × Chart)} {c : Check Unit} {k : Unit → Check Unit}
    (h : Walks xs c) (hk : Walks ys (k ())) : Walks (xs ++ ys) (c >>= k) where
  ok_iff seen := by
    cases hrun : c seen with
    | mk result seen' =>
      have hfirst := h.ok_iff seen
      rw [hrun] at hfirst
      cases result with
      | error e =>
        -- the first part does not pass, and then neither does the whole
        rw [Run.bind_error hrun]
        refine ⟨fun he => absurd he (by simp), fun ha => ?_⟩
        exact hfirst.2 ((accepted_append (.refl _)).1 ha).1
      | ok u =>
        rw [Run.bind_ok hrun, hk.ok_iff, accepted_append (h.adds hrun)]
        exact (and_iff_right (hfirst.1 rfl)).symm
  adds hrun := by
    obtain ⟨_, seen₁, hfirst, hsecond⟩ := Run.bind_eq_ok hrun
    refine (hk.adds hsecond).trans (((h.adds hfirst).append_left _).trans ?_)
    rw [List.map_append, ← List.append_assoc]
    exact List.perm_append_comm.append_right _

/-- The order of the charts does not matter. -/
theorem Walks.of_perm {xs ys : List (List Chart × Chart)} {c : Check Unit} (h : Walks xs c)
    (hp : xs.Perm ys) : Walks ys c where
  ok_iff seen := by
    rw [h.ok_iff]
    have hmem {x : List Chart × Chart} : x ∈ xs ↔ x ∈ ys := hp.mem_iff
    have hn : (xs.map fun x => x.2.name).Nodup ↔ (ys.map fun x => x.2.name).Nodup :=
      (hp.map _).nodup_iff
    exact ⟨fun a => ⟨fun x hx => a.inside x (hmem.2 hx), hn.1 a.names,
        fun x hx => a.unseen x (hmem.2 hx)⟩,
      fun a => ⟨fun x hx => a.inside x (hmem.1 hx), hn.2 a.names,
        fun x hx => a.unseen x (hmem.1 hx)⟩⟩
  adds hrun := (h.adds hrun).trans ((hp.map _).append_right _)

/-- A chart by itself: its name is new and it is as it should be where it is. -/
theorem walks_own (around : List Chart) (chart : Chart) : Walks [(around, chart)] (do
    checkName chart.name
    liftM (checkOwn chart (hasData chart.header (around.any (·.header.data.isSome))))) where
  ok_iff seen := by
    -- the name is looked at first
    by_cases hseen : chart.name ∈ seen
    · have hrun : checkName chart.name seen =
          (.error (.semantic (.duplicateName chart.name)), seen) := by
        rw [checkName, Run.bind_ok (Run.get_run seen), if_pos (by simpa using hseen)]
        rfl
      rw [Run.bind_error hrun]
      exact ⟨fun h => absurd h (by simp), fun h =>
        absurd hseen (h.unseen _ (List.mem_singleton_self _))⟩
    · have hrun : checkName chart.name seen = (.ok (), chart.name :: seen) := by
        rw [checkName, Run.bind_ok (Run.get_run seen), if_neg (by simpa using hseen)]
        rfl
      rw [Run.bind_ok hrun, Run.lift_run]
      refine checkOwn_ok_iff.trans ⟨fun h => ⟨?_, by simp, by simpa using hseen⟩, fun h => ?_⟩
      · intro x hx
        obtain rfl := List.mem_singleton.1 hx
        exact h
      · exact h.inside _ (List.mem_singleton_self _)
  adds hrun := by
    obtain ⟨_, seen₁, hname, hown⟩ := Run.bind_eq_ok hrun
    rw [Run.lift_run] at hown
    obtain ⟨-, rfl⟩ := Prod.mk.inj hown
    obtain ⟨-, rfl⟩ := checkName_ok hname
    exact .refl _

mutual

/-- The walk of a chart and of the charts inside. -/
theorem walks_check : ∀ (chart : Chart) (around : List Chart),
    Walks (chart.inContext (fun around c => c :: around) around)
      (check chart (around.any (·.header.data.isSome)))
  | .unit h mark encoding stack, around => walks_own around (.unit h mark encoding stack)
  | .layer h children, around => by
    have hinside := walks_checkAll children (.layer h children :: around)
    rw [List.any_cons, Bool.or_comm] at hinside
    rw [check, ← bind_assoc, Chart.inContext]
    exact ((walks_own around (.layer h children)).bind hinside).of_perm List.perm_append_comm
  | .facet h mapping child, around => by
    have hinside := walks_check child (.facet h mapping child :: around)
    rw [List.any_cons, Bool.or_comm] at hinside
    rw [check, ← bind_assoc, Chart.inContext]
    exact ((walks_own around (.facet h mapping child)).bind hinside).of_perm List.perm_append_comm

/-- The walk of several charts, one after the other. -/
theorem walks_checkAll : ∀ (charts : List Chart) (around : List Chart),
    Walks (Chart.allInContext (fun around c => c :: around) around charts)
      (checkAll charts (around.any (·.header.data.isSome)))
  | [], around => ⟨fun seen => ⟨fun _ => ⟨by simp [Chart.allInContext],
      by simp [Chart.allInContext], by simp [Chart.allInContext]⟩, fun _ => rfl⟩, fun hrun => by
    obtain ⟨-, rfl⟩ := Prod.mk.inj hrun
    exact .refl _⟩
  | chart :: rest, around => (walks_check chart around).bind (walks_checkAll rest around)

end

/-- Whatever was analyzed before, the analysis accepts a tree of charts exactly if it is valid. -/
theorem analyzeAfter_ok_iff (seen : List String) (chart : Chart) :
    (analyzeAfter seen chart).1 = .ok () ↔ chart.Valid := by
  -- the names that were seen before are forgotten
  have hstart : (startOver : Check Unit) seen = (.ok (), []) := rfl
  have hnames : chart.surrounded.map (fun x => x.2.name) = chart.charts.map Chart.name := by
    rw [Chart.charts, List.map_map, Chart.parts, Chart.surrounded]
    have hcharts := Chart.map_snd_inContext (fun around c => c :: around)
      (fun inherits c => hasData c.header inherits) chart [] false
    exact (List.map_map (f := Prod.snd) (g := Chart.name)).symm.trans
      ((congrArg (List.map Chart.name) hcharts).trans List.map_map)
  calc (analyzeAfter seen chart).1 = .ok ()
      ↔ (check chart false []).1 = .ok () := by
        show ((startOver >>= fun _ => check chart false : Check Unit) seen).1 = _ ↔ _
        rw [Run.bind_ok hstart]
    _ ↔ Accepted chart.surrounded [] := (walks_check chart []).ok_iff []
    _ ↔ chart.Valid := ⟨fun h => ⟨hnames ▸ h.names, h.inside⟩,
        fun h => ⟨h.inside, hnames ▸ h.names, by simp⟩⟩

end Analysis

end ChartPipeline
