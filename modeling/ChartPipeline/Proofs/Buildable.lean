import ChartPipeline.Proofs.Catalog

/-!
# Charts that make sense can be built

The analysis of a chart and the building of its flow look at the charts in it one by one, and each
decides by itself which of them have data.  They agree: whatever building finds wrong with a chart,
the analysis has found already, but for two things.  The analysis does not look at the parameters of
a facet's bins, and it does not ask whether a channel that a stack reads names a field.

## Key results

- `Analysis.analyze_yields`: what was found of the charts in a tree that was analyzed
- `Building.ofChart_yields`: building fails only for a chart that cannot be laid out
- `Building.ofChart_of_analyze`: what building may still refuse once the analysis has passed
-/

namespace ChartPipeline

/-! ### How computations end -/

section Yields

variable {ε σ α β : Type}

/-- What a computation returns is good, or its error is a possible one. -/
def Yields (x : Except ε α) (good : α → Prop) (possible : ε → Prop) : Prop :=
  match x with
  | .ok a => good a
  | .error e => possible e

namespace Yields

variable {x : Except ε α} {good : α → Prop} {possible : ε → Prop}

/-- A computation returns what it returns. -/
theorem self (x : Except ε α) : Yields x (x = .ok ·) (x = .error ·) := by
  cases x <;> exact rfl

/-- What is good may be more, and so may be the possible errors. -/
theorem imp {good' : α → Prop} {possible' : ε → Prop} (h : Yields x good possible)
    (hg : ∀ a, x = .ok a → good a → good' a) (hp : ∀ e, possible e → possible' e) :
    Yields x good' possible' := by
  cases x with
  | ok a => exact hg a rfl h
  | error e => exact hp e h

/-- A computation that goes on fails in its first part or in the second one. -/
theorem bind {k : α → Except ε β} {good' : β → Prop} (h : Yields x good possible)
    (hk : ∀ a, x = .ok a → good a → Yields (k a) good' possible) :
    Yields (x >>= k) good' possible := by
  cases x with
  | ok a => exact hk a rfl h
  | error e => exact h

/-- What a computation has returned is good. -/
theorem of_ok {a : α} (h : Yields x good possible) (hx : x = .ok a) : good a := by
  subst hx
  exact h

/-- An error that it has ended with is a possible one. -/
theorem of_error {e : ε} (h : Yields x good possible) (hx : x = .error e) : possible e := by
  subst hx
  exact h

/-- A computation with other errors returns the same, and its errors come from those it had. -/
theorem mapError {ε' : Type} (f : ε → ε') (x : Except ε α) :
    Yields (x.mapError f) (x = .ok ·) (fun e' => ∃ e, x = .error e ∧ f e = e') := by
  cases x with
  | ok a => exact rfl
  | error e => exact ⟨e, rfl, rfl⟩

/-- Checks of a list, one after the other, pass if each passes. -/
theorem forM (f : α → Except ε Unit) (l : List α) :
    Yields (l.forM f) (fun _ => ∀ a ∈ l, f a = .ok ()) fun e => ∃ a ∈ l, f a = .error e := by
  induction l with
  | nil => exact fun a ha => absurd ha (by simp)
  | cons a l ih =>
    rw [List.forM_eq_forM, List.forM_cons]
    refine ((self (f a)).imp (fun _ _ h => h) fun e he => ⟨a, List.mem_cons_self, he⟩).bind
      fun _ _ ha => ?_
    refine ih.imp (fun _ _ hl b hb => ?_) fun e ⟨b, hb, he⟩ => ⟨b, List.mem_cons_of_mem _ hb, he⟩
    rcases List.mem_cons.1 hb with rfl | hb
    · exact ha
    · exact hl b hb

/-- A list of which each is looked up is found if each is. -/
theorem mapM (f : α → Except ε β) (l : List α) :
    Yields (l.mapM f) (fun _ => ∀ a ∈ l, ∃ b, f a = .ok b) fun e => ∃ a ∈ l, f a = .error e := by
  induction l with
  | nil => exact fun a ha => absurd ha (by simp)
  | cons a l ih =>
    rw [List.mapM_cons]
    refine ((self (f a)).imp (fun _ _ h => h) fun e he => ⟨a, List.mem_cons_self, he⟩).bind
      fun b _ hb => ?_
    refine (ih.imp (fun _ _ hl => hl) fun e ⟨c, hc, he⟩ =>
      ⟨c, List.mem_cons_of_mem _ hc, he⟩).bind fun _ _ hl => ?_
    intro c hc
    rcases List.mem_cons.1 hc with rfl | hc
    · exact ⟨b, hb⟩
    · exact hl c hc

/-- Adding up a list succeeds only if each part could be added to something. -/
theorem foldlM (f : β → α → Except ε β) (l : List α) (b : β) :
    Yields (l.foldlM f b) (fun _ => ∀ a ∈ l, ∃ b b', f b a = .ok b')
      fun e => ∃ a ∈ l, ∃ b, f b a = .error e := by
  induction l generalizing b with
  | nil => exact fun a ha => absurd ha (by simp)
  | cons a l ih =>
    rw [List.foldlM_cons]
    refine ((self (f b a)).imp (fun _ _ h => h) fun e he => ⟨a, List.mem_cons_self, b, he⟩).bind
      fun b' _ hb => ?_
    refine (ih b').imp (fun _ _ hl c hc => ?_)
      fun e ⟨c, hc, he⟩ => ⟨c, List.mem_cons_of_mem _ hc, he⟩
    rcases List.mem_cons.1 hc with rfl | hc
    · exact ⟨b, b', hb⟩
    · exact hl c hc

end Yields

/-- The same of a program with a state: what holds once it has ended well, or its errors. -/
def Run.Ends (e : ExceptT ε (StateM σ) α) (s : σ) (good : α → σ → Prop) (possible : ε → Prop) :
    Prop :=
  Yields (e s).1 (good · (e s).2) possible

namespace Run.Ends

variable {e : ExceptT ε (StateM σ) α} {s : σ} {good : α → σ → Prop} {possible : ε → Prop}

/-- A run that has ended well has done so if what it returned is good. -/
theorem of_ok {a : α} {s' : σ} (h : e s = (.ok a, s')) (hg : good a s') :
    Run.Ends e s good possible := by
  rw [Run.Ends, h]
  exact hg

/-- A run that has failed has ended if its error is a possible one. -/
theorem of_error {x : ε} {s' : σ} (h : e s = (.error x, s')) (hp : possible x) :
    Run.Ends e s good possible := by
  rw [Run.Ends, h]
  exact hp

/-- A run that goes on fails in its first part, or in the second one from the state in between. -/
theorem bind {k : α → ExceptT ε (StateM σ) β} {good' : β → σ → Prop}
    (h : Run.Ends e s good possible)
    (hk : ∀ a s', e s = (.ok a, s') → good a s' → Run.Ends (k a) s' good' possible) :
    Run.Ends (e >>= k) s good' possible := by
  cases he : e s with
  | mk result s' =>
    rw [Run.Ends, he] at h
    cases result with
    | ok a =>
      rw [Run.Ends, Run.bind_ok he]
      exact hk a s' he h
    | error x => exact .of_error (Run.bind_error he) h

/-- What is good may be more, and so may be the possible errors. -/
theorem imp {good' : α → σ → Prop} {possible' : ε → Prop} (h : Run.Ends e s good possible)
    (hg : ∀ a s', e s = (.ok a, s') → good a s' → good' a s') (hp : ∀ x, possible x → possible' x) :
    Run.Ends e s good' possible' :=
  Yields.imp h (fun a ha => hg a _ (Prod.ext ha rfl)) hp

/-- A computation without a state leaves the state as it is. -/
theorem lift {x : Except ε α} {good : α → Prop} (s : σ) (h : Yields x good possible) :
    Run.Ends (liftM x : ExceptT ε (StateM σ) α) s (fun a s' => good a ∧ s' = s) possible := by
  rw [Run.Ends, Run.lift_run]
  exact h.imp (fun _ _ ha => ⟨ha, rfl⟩) fun _ => id

end Run.Ends

end Yields

/-! ### What the analysis finds -/

namespace Chart

/-- Whether a chart puts others on top of each other. -/
def isLayer : Chart → Bool
  | .layer .. => true
  | _ => false

/-- What can be relied on of a chart that was found to make sense. -/
structure MakesSense (hasData : Bool) (chart : Chart) : Prop where
  data : chart.isLayer = false → hasData = true
  bins : chart.isUnit = true → ∀ d ∈ chart.fieldDefs, ∀ params, d.2.binParams? = some params →
    params.validate = .ok ()
  stack : ∀ header mark encoding properties, chart = .unit header mark encoding (some properties) →
    ∀ channel ∈ properties.channels, encoding.contains channel = true
  fields : chart.isUnit = false → ∀ d ∈ chart.fieldDefs, d.2.field.isSome = true

end Chart

namespace Analysis

variable {hasData : Bool} {chart : Chart} {e : CompileError}

/-- An error that does not say that data are missing, unless it says so of a chart without data that
    needs some. -/
def Honest (hasData : Bool) (chart : Chart) (e : CompileError) : Prop :=
  ∀ name, e = .missingDataSource name → chart.isLayer = false ∧ hasData = false

/-- Only data that are needed are missed. -/
theorem yields_checkData (hasData : Bool) (chart : Chart) (hl : chart.isLayer = false) :
    Yields (checkData chart.header hasData) (fun _ => hasData = true) (Honest hasData chart) := by
  unfold checkData
  cases hasData with
  | true => exact rfl
  | false => exact fun _ _ => ⟨hl, rfl⟩

/-- A definition is refused for its missing field, and else for its bins. -/
theorem checkFieldDef_eq (channel : Channel) (f : FieldDef) : checkFieldDef channel f =
    match if f.field.isNone then fieldNeed? f else none with
    | some need => .error (.definition (.missingField channel need))
    | none => match f.binParams? with
      | some params => params.validate.mapError CompileError.definition
      | none => .ok () := by
  unfold checkFieldDef
  cases f.field.isNone <;> cases fieldNeed? f <;> cases f.binParams? <;> rfl

/-- A definition is passed with bins that make sense. -/
theorem yields_checkFieldDef (channel : Channel) (f : FieldDef) :
    Yields (checkFieldDef channel f)
      (fun _ => ∀ params, f.binParams? = some params → params.validate = .ok ())
      (Honest hasData chart) := by
  rw [checkFieldDef_eq]
  split
  · exact fun name hname => absurd hname (by simp)
  · cases f.binParams? with
    | none => exact fun _ h => absurd h (by simp)
    | some params =>
      refine (Yields.mapError _ params.validate).imp (fun _ _ h params' heq => ?_) ?_
      · obtain rfl := Option.some.inj heq
        exact h
      · rintro _ ⟨fault, -, rfl⟩ name hname
        exact absurd hname (by simp)

/-- A stack is passed if the chart has its channels. -/
theorem yields_checkStack (header : ChartHeader) (encoding : Encoding) (stack : StackProperties) :
    Yields (checkStack header encoding stack)
      (fun _ => ∀ channel ∈ stack.channels, encoding.contains channel = true)
      (Honest hasData chart) := by
  refine (Yields.forM _ stack.channels).imp (fun _ _ h channel hc => ?_) ?_
  · have := h channel hc
    split at this
    · assumption
    · exact absurd this (by simp)
  · rintro e ⟨channel, -, he⟩ name rfl
    split at he
    · exact absurd he (by simp)
    · exact absurd he (by simp)

/-- A facet is passed if each of its dimensions names a field. -/
theorem yields_checkFacet (header : ChartHeader) (mapping : FacetMapping) :
    Yields (checkFacet header mapping) (fun _ => ∀ d ∈ mapping.fieldDefs, d.2.field.isSome = true)
      (Honest hasData chart) := by
  unfold checkFacet
  split
  · exact fun name hname => absurd hname (by simp)
  · refine (Yields.forM _ mapping.fieldDefs).imp (fun _ _ h d hd => ?_) ?_
    · have := h d hd
      dsimp only at this
      split at this
      · exact absurd this (by simp)
      · next hf => simpa [Option.isSome_iff_ne_none] using hf
    · rintro e ⟨d, -, he⟩ name rfl
      dsimp only at he
      split at he
      · exact absurd he (by simp)
      · exact absurd he (by simp)

/-- Of the transforms, no error is about data. -/
theorem yields_checkTransforms (header : ChartHeader) (transforms : List Transform) :
    Yields (transforms.forM (checkTransform header)) (fun _ => True) (Honest hasData chart) := by
  refine (Yields.forM _ transforms).imp (fun _ _ _ => trivial) ?_
  rintro e ⟨transform, -, he⟩ name rfl
  -- a predicate or an expression that is wrong, as the error says
  cases transform with
  | filter predicate =>
    obtain ⟨_, -, heq⟩ := (Yields.mapError CompileError.definition predicate.validate).of_error he
    exact absurd heq (by simp)
  | calculate expression output =>
    rw [checkTransform] at he
    split at he
    · exact absurd he (by simp)
    · exact absurd he (by simp)

/-- What is found of a chart by itself. -/
theorem yields_checkOwn (chart : Chart) (hasData : Bool) :
    Yields (checkOwn chart hasData) (fun _ => chart.MakesSense hasData) (Honest hasData chart) := by
  -- the transforms come last and find nothing else
  have htransforms {good : Prop} (hg : good) : Yields
      (chart.header.transforms.forM (checkTransform chart.header)) (fun _ => good)
      (Honest hasData chart) :=
    (yields_checkTransforms _ _).imp (fun _ _ _ => hg) fun _ => id
  cases chart with
  | unit header mark encoding stack =>
    refine (yields_checkData hasData (.unit header mark encoding stack) rfl).bind
      fun _ _ hdata => ?_
    have hdefs : Yields (encoding.entries.forM fun d => checkFieldDef d.1 d.2)
        (fun _ => ∀ d ∈ encoding.entries, ∀ params, d.2.binParams? = some params →
          params.validate = .ok ()) (Honest hasData (.unit header mark encoding stack)) := by
      have hdef (d : Channel × FieldDef) := @yields_checkFieldDef hasData
        (.unit header mark encoding stack) d.1 d.2
      exact (Yields.forM _ _).imp (fun _ _ h d hd => (hdef d).of_ok (h d hd))
        fun e ⟨d, _, he⟩ => (hdef d).of_error he
    refine hdefs.bind fun _ _ hbins => ?_
    -- the checks of data and definitions before, whatever is found of the stack
    have hsense (hs : ∀ properties, stack = some properties →
        ∀ channel ∈ properties.channels, encoding.contains channel = true) :
        (Chart.unit header mark encoding stack).MakesSense hasData := by
      refine ⟨fun _ => hdata, fun _ => hbins, fun _ _ _ properties heq => ?_,
        fun hu => absurd hu (by simp [Chart.isUnit])⟩
      cases heq
      exact hs properties rfl
    cases stack with
    | none => exact htransforms (hsense fun _ h => absurd h (by simp))
    | some properties =>
      refine (yields_checkStack header encoding properties).bind fun _ _ hstack => ?_
      refine htransforms (hsense fun _ h => ?_)
      obtain rfl := Option.some.inj h
      exact hstack
  | layer header children =>
    have hsense : (Chart.layer header children).MakesSense hasData := by
      refine ⟨fun hl => absurd hl (by simp [Chart.isLayer]),
        fun hu => absurd hu (by simp [Chart.isUnit]), fun _ _ _ _ heq => absurd heq (by simp),
        fun _ d hd => absurd hd (by simp [Chart.fieldDefs])⟩
    unfold checkOwn
    dsimp only
    split
    · exact fun name hname => absurd hname (by simp)
    · exact htransforms hsense
  | facet header mapping child =>
    refine (yields_checkData hasData (.facet header mapping child) rfl).bind fun _ _ hdata => ?_
    refine (yields_checkFacet header mapping).bind fun _ _ hfields => ?_
    exact htransforms ⟨fun _ => hdata, fun hu => absurd hu (by simp [Chart.isUnit]),
      fun _ _ _ _ heq => absurd heq (by simp), fun _ => hfields⟩

/-- Among the charts there is one that needs data and has none. -/
def Lacking (xs : List (Bool × Chart)) : Prop :=
  ∃ x ∈ xs, x.2.isLayer = false ∧ Analysis.hasData x.2.header x.1 = false

/-- Among more charts there is still one that needs data. -/
theorem Lacking.mono {xs ys : List (Bool × Chart)} (h : Lacking xs) (hsub : xs ⊆ ys) : Lacking ys :=
  h.imp fun _ ⟨hx, h⟩ => ⟨hsub hx, h⟩

/-- What is found of charts: all of them make sense, or there is an error, which says that data are
    missing only where they are. -/
def Finds (xs : List (Bool × Chart)) (c : Check Unit) (seen : List String) : Prop :=
  Run.Ends c seen
    (fun _ _ => ∀ x ∈ xs, x.2.MakesSense (Analysis.hasData x.2.header x.1))
    fun e => ∀ name, e = .missingDataSource name → Lacking xs

/-- What is found of charts one after the other is found of all of them. -/
theorem Finds.bind {xs ys : List (Bool × Chart)} {c : Check Unit} {k : Unit → Check Unit}
    {seen : List String} (h : Finds xs c seen) (hk : ∀ seen, Finds ys (k ()) seen) :
    Finds (xs ++ ys) (c >>= k) seen := by
  refine Run.Ends.bind (Run.Ends.imp h (fun _ _ _ hxs => hxs) fun e he name hname =>
    (he name hname).mono (List.subset_append_left _ _)) fun _ seen' _ hxs => ?_
  refine (hk seen').imp (fun _ _ _ hys x hx => ?_) fun e he name hname =>
    (he name hname).mono (List.subset_append_right _ _)
  exact (List.mem_append.1 hx).elim (hxs x) (hys x)

/-- The order of the charts does not matter. -/
theorem Finds.of_perm {xs ys : List (Bool × Chart)} {c : Check Unit} {seen : List String}
    (h : Finds xs c seen) (hp : xs.Perm ys) : Finds ys c seen :=
  h.imp (fun _ _ _ hxs x hx => hxs x (hp.mem_iff.2 hx))
    fun _ he name hname => (he name hname).mono hp.subset

/-- A name that was seen before is an error, which is about no data. -/
theorem finds_name (name : String) (seen : List String) : Finds [] (checkName name) seen := by
  by_cases hseen : seen.contains name = true
  · have hrun : checkName name seen = (.error (.semantic (.duplicateName name)), seen) := by
      rw [checkName, Run.bind_ok (Run.get_run seen), if_pos hseen]
      rfl
    exact .of_error hrun fun _ h => absurd h (by simp)
  · have hrun : checkName name seen = (.ok (), name :: seen) := by
      rw [checkName, Run.bind_ok (Run.get_run seen), if_neg hseen]
      rfl
    exact .of_ok hrun fun x hx => absurd hx (by simp)

/-- What is found of a chart by itself, before the charts inside. -/
theorem finds_own (chart : Chart) (inherits : Bool) (seen : List String) :
    Finds [(inherits, chart)] (do
      checkName chart.name
      liftM (checkOwn chart (Analysis.hasData chart.header inherits))) seen := by
  refine (finds_name chart.name seen).bind fun seen' => ?_
  refine (Run.Ends.lift seen' (yields_checkOwn chart _)).imp (fun _ _ _ h x hx => ?_)
    fun e he name hname => ⟨_, List.mem_singleton_self _, he name hname⟩
  obtain rfl := List.mem_singleton.1 hx
  exact h.1

mutual

/-- What is found of a chart and the charts inside. -/
theorem finds_check : ∀ (chart : Chart) (inherits : Bool) (seen : List String),
    Finds (chart.inContext (fun inherits c => Analysis.hasData c.header inherits) inherits)
      (check chart inherits) seen
  | .unit h mark encoding stack, inherits, seen =>
    finds_own (.unit h mark encoding stack) inherits seen
  | .layer h children, inherits, seen => by
    rw [check, ← bind_assoc, Chart.inContext]
    exact ((finds_own (.layer h children) inherits seen).bind
      (finds_checkAll children _)).of_perm List.perm_append_comm
  | .facet h mapping child, inherits, seen => by
    rw [check, ← bind_assoc, Chart.inContext]
    exact ((finds_own (.facet h mapping child) inherits seen).bind
      (finds_check child _)).of_perm List.perm_append_comm

/-- What is found of charts side by side and the charts inside. -/
theorem finds_checkAll : ∀ (charts : List Chart) (inherits : Bool) (seen : List String),
    Finds (Chart.allInContext (fun inherits c => Analysis.hasData c.header inherits) inherits
      charts) (checkAll charts inherits) seen
  | [], inherits, seen => .of_ok rfl fun x hx => absurd hx (by simp [Chart.allInContext])
  | chart :: rest, inherits, seen =>
    (finds_check chart inherits seen).bind (finds_checkAll rest inherits)

end

/-- What was found of the charts in a tree that was analyzed. -/
theorem analyze_yields (chart : Chart) : Yields (analyze chart)
    (fun _ => ∀ x ∈ chart.parts, x.2.MakesSense (Analysis.hasData x.2.header x.1))
    fun e => ∀ name, e = .missingDataSource name → Lacking chart.parts := by
  have hstart : (startOver : Check Unit) [] = (.ok (), []) := rfl
  have h := finds_check chart false []
  rw [Finds, Run.Ends, ← Run.bind_ok (k := fun _ => check chart false) hstart] at h
  exact h

end Analysis

/-! ### What building needs -/

/-- A channel with a field has a name to be read by. -/
theorem FieldDef.isSome_outputName? {f : FieldDef} (h : f.field.isSome = true) :
    f.outputName?.isSome = true := by
  obtain ⟨field, hfield⟩ := Option.isSome_iff_exists.1 h
  rw [outputName?, hfield, Option.bind_some]
  split
  · rfl
  · cases f.aggregate with
    | some op => rfl
    | none =>
      dsimp only
      split
      · next hbin =>
        obtain ⟨params, hparams⟩ := Option.isSome_iff_exists.1 hbin
        rw [binOutput?, binKey?, hparams, hfield]
        rfl
      · cases f.timeUnit <;> rfl

namespace Chart

variable {chart : Chart}

/-- What is wrong with a chart that cannot be laid out. -/
inductive Refuses (hasData : Bool) (chart : Chart) : CompileError → Prop
  | data (hl : chart.isLayer = false) (h : hasData = false) :
    Refuses hasData chart (.missingDataSource chart.header.displayName)
  | before {e} (h : chart.stagesBeforeRaw = .error e) : Refuses hasData chart e
  | after {e} (h : chart.stagesAfterRaw = .error e) : Refuses hasData chart e
  | header {e dimension} (hd : chart.declares dimension = true)
    (h : chart.headerStage dimension = .error e) : Refuses hasData chart e

/-- What building refuses although the analysis lets it pass: the bins of a facet's dimension, and a
    stack that reads a channel which names no field. -/
inductive Unchecked (chart : Chart) : CompileError → Prop
  | bins {header mapping child d params fault} (mem : .facet header mapping child ∈ chart.charts)
    (hd : d ∈ mapping.fieldDefs) (hp : d.2.binParams? = some params)
    (hv : params.validate = .error fault) : Unchecked chart (.definition fault)
  | stack {header mark encoding properties channel f}
    (mem : .unit header mark encoding (some properties) ∈ chart.charts)
    (hc : channel ∈ properties.channels) (hf : encoding.get? channel = some f)
    (hn : f.outputName? = none) :
    Unchecked chart (.semantic (.unreadableStack ⟨header.name, channel⟩))

/-- The bins of a chart are collected only if their parameters make sense, for a channel with a
    field. -/
theorem yields_binning (chart : Chart) : Yields (Binning.ofChart? chart)
    (fun _ => ∀ d ∈ chart.fieldDefs, ∀ params, d.2.binParams? = some params →
      d.2.field.isSome = true → params.validate = .ok ())
    fun fault => ∃ d ∈ chart.fieldDefs, ∃ params, d.2.binParams? = some params ∧
      params.validate = .error fault := by
  refine ((Yields.foldlM (fun bins (d : Channel × FieldDef) => Binning.addChannel chart bins d.2)
    chart.fieldDefs ∅).imp (fun _ _ h d hd params hp hf => ?_) ?_).bind fun _ _ h => h
  -- each channel with a field was added, so its parameters have been checked
  · obtain ⟨bins, bins', hadd⟩ := h d hd
    obtain ⟨field, hfield⟩ := Option.isSome_iff_exists.1 hf
    simp only [Binning.addChannel, hp, hfield] at hadd
    obtain ⟨⟨⟩, hvalid, -⟩ := bind_eq_ok hadd
    exact hvalid
  · rintro fault ⟨d, hd, bins, hadd⟩
    unfold Binning.addChannel at hadd
    split at hadd
    · next params field hp hf =>
      refine ⟨d, hd, params, hp, ?_⟩
      cases hv : params.validate with
      | ok => rw [hv] at hadd; exact absurd hadd (by simp [bind, Except.bind, pure, Except.pure])
      | error fault' =>
        rw [hv] at hadd
        exact congrArg Except.error (Except.error.inj hadd)
    · exact absurd hadd (by simp [pure, Except.pure])

/-- A stack is laid out exactly if each channel that it reads has a name to be read by. -/
theorem yields_stacking {header : ChartHeader} {mark : Mark} {encoding : Encoding}
    (properties : StackProperties) :
    Yields (Stacking.ofChart? (.unit header mark encoding (some properties)))
      (fun _ => ∀ channel ∈ properties.channels,
        ∃ output, (encoding.get? channel).bind FieldDef.outputName? = some output)
      fun read => ∃ channel ∈ properties.channels, read = ⟨header.name, channel⟩ ∧
        (encoding.get? channel).bind FieldDef.outputName? = none := by
  have hread (channel : Channel) : Yields
      (Stacking.channelOutput (.unit header mark encoding (some properties)) channel)
      (fun _ => ∃ output, (encoding.get? channel).bind FieldDef.outputName? = some output)
      fun read => read = ⟨header.name, channel⟩ ∧
        (encoding.get? channel).bind FieldDef.outputName? = none := by
    unfold Stacking.channelOutput
    simp only [Chart.channel?]
    cases (encoding.get? channel).bind FieldDef.outputName? with
    | some output => exact ⟨output, rfl⟩
    | none => exact ⟨rfl, rfl⟩
  -- the field comes first, then the channel grouped by, then those stacked by
  have hall (l : List Channel) (hl : l ⊆ properties.channels) : Yields
      (l.mapM (Stacking.channelOutput (.unit header mark encoding (some properties))))
      (fun _ => ∀ channel ∈ l,
        ∃ output, (encoding.get? channel).bind FieldDef.outputName? = some output)
      fun read => ∃ channel ∈ properties.channels, read = ⟨header.name, channel⟩ ∧
        (encoding.get? channel).bind FieldDef.outputName? = none := by
    refine (Yields.mapM _ l).imp
      (fun _ _ h channel hc => (h channel hc).elim fun _ hok => (hread channel).of_ok hok)
      fun read h => ?_
    obtain ⟨channel, hc, he⟩ := h
    exact ⟨channel, hl hc, (hread channel).of_error he⟩
  unfold Stacking.ofChart?
  dsimp only
  refine ((hread properties.fieldChannel).imp (fun _ _ h => h) fun read he =>
    ⟨_, List.mem_cons_self, he⟩).bind fun _ _ hfield => ?_
  refine (hall properties.groupbyChannel.toList
    fun _ hc => List.mem_cons_of_mem _ (List.mem_append_left _ hc)).bind fun _ _ hgroup => ?_
  refine (hall properties.stackBy
    fun _ hc => List.mem_cons_of_mem _ (List.mem_append_right _ hc)).bind fun _ _ hby => ?_
  intro channel hc
  rw [StackProperties.channels, List.mem_cons, List.mem_append] at hc
  rcases hc with rfl | hc | hc
  · exact hfield
  · exact hgroup channel hc
  · exact hby channel hc

/-- The stages before the raw output fail with the bins. -/
theorem yields_stagesBeforeRaw (chart : Chart) : Yields chart.stagesBeforeRaw
    (fun _ => ∃ bins, Binning.ofChart? chart = .ok bins)
    fun e => ∃ fault, Binning.ofChart? chart = .error fault ∧ CompileError.definition fault = e :=
  (Yields.mapError _ _).bind fun bins _ h => ⟨bins, h⟩

/-- Those after it fail with the stack, which only a unit has. -/
theorem yields_stagesAfterRaw (chart : Chart) : Yields chart.stagesAfterRaw
    (fun _ => chart.isUnit = true → ∃ stacking, Stacking.ofChart? chart = .ok stacking)
    fun e => ∃ read, Stacking.ofChart? chart = .error read ∧
      CompileError.semantic (.unreadableStack read) = e := by
  unfold stagesAfterRaw
  cases hu : chart.isUnit with
  | false => exact fun h => absurd h (by simp)
  | true => exact (Yields.mapError _ _).bind fun stacking _ h _ => ⟨stacking, h⟩

/-- Of a chart that makes sense, building refuses the parameters of a facet's bins and a stack that
    reads a channel without a name. -/
theorem MakesSense.unchecked {root : Chart} {hasData : Bool} {e : CompileError}
    (h : chart.MakesSense hasData) (hm : chart ∈ root.charts) (hr : chart.Refuses hasData e) :
    root.Unchecked e := by
  cases hr with
  | data hl hd => exact absurd ((h.data hl).symm.trans hd) (by simp)
  | before hb =>
    -- the bins of a unit have been checked, and a layer has none
    obtain ⟨fault, hbins, rfl⟩ := (yields_stagesBeforeRaw chart).of_error hb
    obtain ⟨d, hd, params, hp, hv⟩ := (yields_binning chart).of_error hbins
    cases chart with
    | unit => exact absurd ((h.bins rfl d hd params hp).symm.trans hv) (by simp)
    | layer => exact absurd hd (by simp [fieldDefs])
    | facet header mapping child => exact .bins hm hd hp hv
  | after ha =>
    obtain ⟨read, hread, rfl⟩ := (yields_stagesAfterRaw chart).of_error ha
    cases chart with
    | unit header mark encoding stack =>
      cases stack with
      | none => exact absurd hread (by simp [Stacking.ofChart?, pure, Except.pure])
      | some properties =>
        obtain ⟨channel, hc, rfl, hn⟩ := (yields_stacking properties).of_error hread
        have hin := h.stack _ _ _ _ rfl channel hc
        obtain ⟨f, hf⟩ := Option.isSome_iff_exists.1 hin
        exact .stack hm hc hf (by rwa [hf] at hn)
    | _ => exact absurd hread (by simp [Stacking.ofChart?, pure, Except.pure])
  | @header _ dimension hd hh =>
    -- a dimension with a field has a name, so its header is made
    cases chart with
    | facet header mapping child =>
      obtain ⟨f, hf⟩ := Option.isSome_iff_exists.1 hd
      have hmem : ∃ c, (c, f) ∈ mapping.fieldDefs := by
        cases dimension <;> simp_all [FacetMapping.channel?, FacetMapping.fieldDefs]
      obtain ⟨c, hmem⟩ := hmem
      have hname := FieldDef.isSome_outputName? (h.fields rfl _ hmem)
      obtain ⟨output, hname⟩ := Option.isSome_iff_exists.1 hname
      exact absurd hh (by simp [headerStage, FacetHeader.ofChart?, facetField?, hf, hname])
    | _ => exact absurd hd (by simp [declares])

/-- What the analysis lets pass is refused by building. -/
theorem Unchecked.refuses {root : Chart} {e : CompileError} (h : root.Unchecked e)
    (hs : ∀ x ∈ root.parts, x.2.MakesSense (Analysis.hasData x.2.header x.1)) :
    ∃ x ∈ root.parts, ∃ e', x.2.Refuses (Analysis.hasData x.2.header x.1) e' := by
  have hbefore {c : Chart} (hc : c ∈ root.charts) (hno : ∀ stages, c.stagesBeforeRaw ≠ .ok stages) :
      ∃ x ∈ root.parts, ∃ e', x.2.Refuses (Analysis.hasData x.2.header x.1) e' := by
    obtain ⟨x, hx, rfl⟩ := List.mem_map.1 hc
    cases hb : x.2.stagesBeforeRaw with
    | ok stages => exact absurd hb (hno stages)
    | error e' => exact ⟨x, hx, e', .before hb⟩
  cases h with
  | @bins header mapping child d params fault hm hd hp hv =>
    obtain ⟨x, hx, hxm⟩ := List.mem_map.1 hm
    have hsense : Chart.MakesSense _ (.facet header mapping child) := hxm ▸ hs x hx
    -- without a field building would not look at the bins
    have hfield := hsense.fields rfl d hd
    refine hbefore hm fun stages hb => ?_
    obtain ⟨bins, hbins, -⟩ := stagesBeforeRaw_ok hb
    exact absurd (((yields_binning _).of_ok hbins d hd params hp hfield).symm.trans hv) (by simp)
  | @stack header mark encoding properties channel f hm hc hf hn =>
    obtain ⟨x, hx, hxm⟩ := List.mem_map.1 hm
    refine ⟨x, hx, ?_⟩
    cases ha : x.2.stagesAfterRaw with
    | error e' => exact ⟨e', .after ha⟩
    | ok stages =>
      rw [hxm] at ha
      obtain ⟨stacking, hstack⟩ := (yields_stagesAfterRaw _).of_ok ha rfl
      obtain ⟨output, hout⟩ := (yields_stacking properties).of_ok hstack channel hc
      exact absurd hout (by simp [hf, hn])

end Chart

namespace Building

open Forest

variable {st st₁ st' : Building} {id parent main : Nat} {stage : Stage} {stages : List Stage}
  {chart : Chart} {inherited : Option Nat} {c c' : Component} {outer : Option (List Stage)}

/-! ### Building step by step -/

/-- A stage can be added below every stage that is there. -/
theorem ends_addChild (stage : Stage) (hst : Sound st) (hp : parent ∈ st.flow.stages.walk)
    {possible : CompileError → Prop} : Run.Ends (edit (Flow.addChild parent stage)) st
      (fun id st' => Sound st' ∧ Grows st st' ∧ id ∈ st'.flow.stages.walk) possible := by
  obtain ⟨flow', hrun, -, -⟩ := Flow.addChild_run stage hst.nodup hp hst.next_notMem
  have hedit : edit (Flow.addChild parent stage) st =
      (.ok st.flow.next, { st with flow := flow' }) := by
    rw [edit, hrun]
  have hplant := edit_addChild_inv hedit hst
  obtain ⟨v, hv, hid⟩ := mem_walk_iff.1 hp
  exact .of_ok hedit ⟨hplant.sound hst, hplant.grows hst,
    mem_walk_iff.2 ⟨_, (hplant.mem_places hst hv hid).2 (.inr rfl), rfl⟩⟩

/-- A stage that is there stays when more are added. -/
theorem Grows.mem_walk (h : Grows st st') (hid : id ∈ st.flow.stages.walk) :
    id ∈ st'.flow.stages.walk := by
  obtain ⟨v, hv, hvid⟩ := mem_walk_iff.1 hid
  exact mem_walk_iff.2 ⟨v, h v hv, hvid⟩

/-- Stages can be added one below the other. -/
theorem ends_chain (stages : List Stage) (hst : Sound st) (hp : parent ∈ st.flow.stages.walk)
    {possible : CompileError → Prop} : Run.Ends (chain parent stages) st
      (fun id st' => Sound st' ∧ id ∈ st'.flow.stages.walk) possible := by
  induction stages generalizing parent st with
  | nil => exact .of_ok rfl ⟨hst, hp⟩
  | cons stage rest ih =>
    exact (ends_addChild stage hst hp).bind fun _ _ _ ⟨hst₁, _, hid⟩ => ih hst₁ hid

/-- A chart without data of its own goes on from those it inherits, and is refused if there are
    none. -/
theorem ends_start (hst : Sound st) (hin : ∀ id ∈ inherited, id ∈ st.flow.stages.walk)
    (hl : chart.isLayer = true → Analysis.hasData chart.header inherited.isSome = true) :
    Run.Ends (start chart inherited) st (fun id st' => Sound st' ∧ id ∈ st'.flow.stages.walk)
      (chart.Refuses (Analysis.hasData chart.header inherited.isSome)) := by
  unfold start
  cases hd : chart.header.data with
  | none =>
    cases inherited with
    | some id => exact .of_ok rfl ⟨hst, hin id rfl⟩
    | none =>
      have hno : Analysis.hasData chart.header (none : Option Nat).isSome = false := by
        simp [Analysis.hasData, hd]
      refine .of_error rfl (.data ?_ hno)
      cases hlayer : chart.isLayer with
      | false => rfl
      | true => exact absurd ((hl hlayer).symm.trans hno) (by simp)
  | some data =>
    dsimp only
    rw [Run.Ends, Run.bind_ok (Run.get_run st)]
    -- data with a hash that was noted have their source already
    cases hfind : st.sources.find? (·.1 = (Source.ofData data).hash) with
    | some e =>
      obtain ⟨s, -, hmem⟩ := hst.sources e (List.mem_of_find?_eq_some hfind)
      exact ⟨hst, mem_walk_iff.2 ⟨_, hmem, rfl⟩⟩
    | none => exact ⟨hst.addSource _, mem_walk_iff.2 ⟨_, mem_places_addSource.2 (.inr rfl), rfl⟩⟩

/-- The header of a dimension that is declared is added, if it can be made. -/
theorem ends_addHeader (declared : Option FieldDef) (dimension : Channel) (hst : Sound st)
    (hp : main ∈ st.flow.stages.walk) :
    Run.Ends (match declared with
      | none => pure none
      | some _ => some <$> (do edit (Flow.addChild main (← chart.headerStage dimension))) :
        Build (Option Nat)) st (fun _ st' => Sound st' ∧ main ∈ st'.flow.stages.walk)
      (fun e => declared.isSome = true ∧ chart.headerStage dimension = .error e) := by
  cases declared with
  | none => exact .of_ok rfl ⟨hst, hp⟩
  | some f =>
    -- it fails only if its stage cannot be made, since the stage below which it goes is there
    have hadd : Run.Ends
        (do edit (Flow.addChild main (← chart.headerStage dimension)) : Build Nat) st
        (fun _ st' => Sound st' ∧ main ∈ st'.flow.stages.walk)
        (fun e => chart.headerStage dimension = .error e) := by
      refine (Run.Ends.lift st (Yields.self _)).bind fun stage _ _ ⟨_, heq⟩ => ?_
      subst heq
      exact (ends_addChild stage hst hp).imp
        (fun _ _ _ ⟨hst₁, hg, _⟩ => ⟨hst₁, Grows.mem_walk hg hp⟩) fun _ => id
    exact (hadd.imp (fun _ _ _ h => h) fun e he => ⟨rfl, he⟩).bind fun _ _ _ h => .of_ok rfl h

/-- Adding a facet fails only for one of its headers. -/
theorem ends_addFacet (hst : Sound st) (hp : main ∈ st.flow.stages.walk) (hasData : Bool) :
    Run.Ends (addFacet chart main c) st (fun _ _ => True) (chart.Refuses hasData) := by
  cases chart with
  | facet header mapping child =>
    -- an error of a header is about a dimension that is declared
    have hdeclares {d : Channel} {declared : Option FieldDef} (hd : mapping.channel? d = declared)
        {e : CompileError} (h : declared.isSome = true ∧
          (Chart.facet header mapping child).headerStage d = .error e) :
        (Chart.facet header mapping child).Refuses hasData e :=
      .header (by rw [Chart.declares, hd]; exact h.1) h.2
    have hheader {d : Channel} {declared : Option FieldDef} (hd : mapping.channel? d = declared)
        {st : Building} (hst : Sound st) (hp : main ∈ st.flow.stages.walk) :=
      (ends_addHeader declared d hst hp).imp (fun _ _ _ h => h) fun _ => hdeclares hd
    refine (hheader (d := .column) rfl hst hp).bind fun _ st₁ _ h₁ => ?_
    obtain ⟨hst₁, hp₁⟩ := h₁
    refine (hheader (d := .row) rfl hst₁ hp₁).bind fun _ st₂ _ h₂ => ?_
    obtain ⟨hst₂, hp₂⟩ := h₂
    have hroot : Run.Ends ((Partition.ofChart? (.facet header mapping child)).mapM fun p =>
        edit (Flow.addChild main (.facet p))) st₂ (fun _ _ => True)
        ((Chart.facet header mapping child).Refuses hasData) :=
      (ends_addChild _ hst₂ hp₂).bind fun _ _ _ _ => .of_ok rfl trivial
    exact hroot.bind fun _ _ _ _ => .of_ok rfl trivial
  | _ => exact .of_ok rfl trivial

/-- Adding the stages of a chart fails only if it cannot be laid out. -/
theorem ends_addChain (hst : Sound st) (hin : ∀ id ∈ inherited, id ∈ st.flow.stages.walk)
    (hl : chart.isLayer = true → Analysis.hasData chart.header inherited.isSome = true) :
    Run.Ends (addChain chart inherited) st (fun _ _ => True)
      (chart.Refuses (Analysis.hasData chart.header inherited.isSome)) := by
  unfold addChain
  refine (ends_start hst hin hl).bind fun head st₁ _ ⟨hst₁, hhead⟩ => ?_
  refine (Run.Ends.lift st₁ ((Yields.self _).imp (fun _ _ _ => trivial) fun _ => .before)).bind
    fun before _ _ ⟨_, heq⟩ => ?_
  subst heq
  refine (ends_chain before hst₁ hhead).bind fun head st₂ _ ⟨hst₂, hhead⟩ => ?_
  refine (ends_addChild chart.rawOutput hst₂ hhead).bind fun raw st₃ _ ⟨hst₃, _, hraw⟩ => ?_
  refine (Run.Ends.lift st₃ ((Yields.self _).imp (fun _ _ _ => trivial) fun _ => .after)).bind
    fun after _ _ ⟨_, heq⟩ => ?_
  subst heq
  refine (ends_chain after hst₃ hraw).bind fun head st₄ _ ⟨hst₄, hhead⟩ => ?_
  refine (ends_addChild chart.mainOutput hst₄ hhead).bind fun main st₅ _ ⟨hst₅, _, hmain⟩ => ?_
  exact ends_addFacet hst₅ hmain _

/-- Adding a chart fails only if it cannot be laid out. -/
theorem ends_addChart (hr : Ready (fun _ => True) outer inherited st) :
    Run.Ends (addChart chart inherited) st (fun _ _ => True)
      (chart.Refuses (Analysis.hasData chart.header inherited.isSome)) := by
  have hin : ∀ id ∈ inherited, id ∈ st.flow.stages.walk := by
    intro id hid
    obtain ⟨-, way, -, v, hv, hvid, -⟩ := hr.inherited id hid
    exact mem_walk_iff.2 ⟨v, hv, hvid⟩
  -- all charts add their chain, but for a layer without any data
  cases chart with
  | layer header children =>
    cases hd : header.data with
    | some data =>
      simp only [addChart, Chart.header, hd]
      exact ends_addChain hr.sound hin fun _ => by simp [Analysis.hasData, Chart.header, hd]
    | none =>
      cases inherited with
      | some id =>
        simp only [addChart, Chart.header, hd]
        exact ends_addChain hr.sound hin fun _ => by simp [Analysis.hasData]
      | none =>
        simp only [addChart, Chart.header, hd]
        exact .of_ok rfl trivial
  | _ => exact ends_addChain hr.sound hin fun hl => absurd hl (by simp [Chart.isLayer])

/-- The charts inside a chart that was added can be built, and there is something for them to go on
    from if the chart has data. -/
theorem addChart_ready (h : addChart chart inherited st = (.ok c, st'))
    (hr : Ready (fun _ => True) outer inherited st) :
    (∃ way, Ready (fun _ => True) way c.inheritedHead st') ∧
      c.inheritedHead.isSome = Analysis.hasData chart.header inherited.isSome := by
  -- a chart with stages of its own, or a layer that has none without data
  rcases addChart_inv h hr with
    ⟨first, begin, stages, head, hraised⟩ | ⟨header, inner, rfl, hd, rfl, hnone, rfl⟩
  · exact ⟨⟨_, hraised.ready hr⟩, by rw [hraised.hasData, hraised.head_eq]; rfl⟩
  · refine ⟨⟨none, hnone ▸ hr.loose⟩, ?_⟩
    rw [hnone]
    simp [Analysis.hasData, Chart.header, hd]

/-- Nothing is wrong with a chart that was added. -/
theorem not_refuses_of_addChart (h : addChart chart inherited st = (.ok c, st'))
    (hr : Ready (fun _ => True) outer inherited st) (e : CompileError) :
    ¬ chart.Refuses (Analysis.hasData chart.header inherited.isSome) e := by
  intro hrefuses
  rcases addChart_inv h hr with
    ⟨first, begin, stages, head, hraised⟩ | ⟨header, inner, rfl, -⟩
  · obtain ⟨-, hb, ha⟩ := hraised.chain
    -- each part has been laid out
    cases hrefuses with
    | data _ hdata => exact absurd (hraised.hasData.symm.trans hdata) (by simp)
    | before he => exact absurd (hb.symm.trans he) (by simp)
    | after he => exact absurd (ha.symm.trans he) (by simp)
    | header hd he =>
      obtain ⟨x, hx⟩ := Option.isSome_iff_exists.1 (hraised.declared _ hd)
      exact absurd he (by simp [Chart.headerStage, hx])
  · cases hrefuses with
    | data hl => exact absurd hl (by simp [Chart.isLayer])
    | before he =>
      obtain ⟨fault, hf, -⟩ := (Chart.yields_stagesBeforeRaw _).of_error he
      obtain ⟨d, hd, -⟩ := (Chart.yields_binning _).of_error hf
      exact absurd hd (by simp [Chart.fieldDefs])
    | after he => exact absurd he (by simp [Chart.stagesAfterRaw, Chart.isUnit, pure, Except.pure])
    | header hd => exact absurd hd (by simp [Chart.declares])

/-! ### Building a tree of charts -/

/-- Nothing is wrong with charts that were built. -/
theorem Builds.not_refuses {charts : List Chart} (h : Builds charts inherited st st')
    (hr : Ready (fun _ => True) outer inherited st) :
    ∀ x ∈ Chart.allInContext (fun inherits c => Analysis.hasData c.header inherits)
      inherited.isSome charts, ∀ e, ¬ x.2.Refuses (Analysis.hasData x.2.header x.1) e := by
  induction h generalizing outer with
  | nil => exact fun x hx => absurd hx (by simp [Chart.allInContext])
  | @cons chart rest inherited c st st₁ st₂ st' hadd hinside hrest ih ihrest =>
    obtain ⟨⟨way, hready⟩, hhead⟩ := addChart_ready hadd hr
    have hown := ih hready
    rw [hhead] at hown
    -- the state that the charts after it find
    obtain ⟨_, _, hext⟩ : ∃ stages notes, Extends (fun _ => True) stages notes st
        { st₂ with components := st₂.components ++ [c] } := by
      obtain ⟨_, _, hext⟩ := (Builds.cons hadd hinside (.nil _ _)).extends hr
      exact ⟨_, _, hext⟩
    intro x hx
    rw [Chart.allInContext, Chart.inContext_eq, List.append_assoc, List.mem_append,
      List.mem_append] at hx
    rcases hx with hx | hx | hx
    · exact hown x hx
    · obtain rfl := List.mem_singleton.1 hx
      exact not_refuses_of_addChart hadd hr
    · exact ihrest (hext.ready hr) x hx

/-- Among the charts there is one that an error is about. -/
def Refused (xs : List (Bool × Chart)) (e : CompileError) : Prop :=
  ∃ x ∈ xs, x.2.Refuses (Analysis.hasData x.2.header x.1) e

/-- Among more charts there is still the one that an error is about. -/
theorem Refused.mono {xs ys : List (Bool × Chart)} {e : CompileError} (h : Refused xs e)
    (hsub : xs ⊆ ys) : Refused ys e :=
  h.imp fun _ ⟨hx, h⟩ => ⟨hsub hx, h⟩

/-- A chart is built if it and the charts inside can be laid out. -/
theorem ends_within (hr : Ready (fun _ => True) outer inherited st)
    {inside : Component → Build Unit}
    (h : ∀ {c : Component} {st : Building} {way : Option (List Stage)},
      Ready (fun _ => True) way c.inheritedHead st →
        Run.Ends (inside c) st (fun _ _ => True) (Refused (Chart.allInContext
          (fun inherits c => Analysis.hasData c.header inherits) c.inheritedHead.isSome
            chart.children))) :
    Run.Ends (do
      let component ← addChart chart inherited
      inside component
      note component) st (fun _ _ => True)
      (Refused (chart.inContext (fun inherits c => Analysis.hasData c.header inherits)
        inherited.isSome)) := by
  -- the chart itself comes after the charts inside it in the list
  rw [Chart.inContext_eq]
  refine ((ends_addChart hr).imp (fun _ _ _ h => h) fun e he =>
    ⟨_, List.mem_append_right _ (List.mem_singleton_self _), he⟩).bind fun c st₁ hadd _ => ?_
  obtain ⟨⟨way, hready⟩, hhead⟩ := addChart_ready hadd hr
  rw [← hhead]
  exact ((h hready).imp (fun _ _ _ h => h) fun e he => he.mono (List.subset_append_left _ _)).bind
    fun _ _ _ _ => .of_ok rfl trivial

mutual

/-- Building a chart fails only if it or a chart inside cannot be laid out. -/
theorem ends_build : ∀ (chart : Chart) {inherited : Option Nat} {st : Building}
    {outer : Option (List Stage)}, Ready (fun _ => True) outer inherited st →
      Run.Ends (build chart inherited) st (fun _ _ => True)
        (Refused (chart.inContext (fun inherits c => Analysis.hasData c.header inherits)
          inherited.isSome))
  | .unit h mark encoding stack, inherited, st, outer, hr => by
    rw [Chart.inContext_eq]
    exact ((ends_addChart hr).imp (fun _ _ _ h => h) fun e he =>
      ⟨_, List.mem_append_right _ (List.mem_singleton_self _), he⟩).bind
        fun _ _ _ _ => .of_ok rfl trivial
  | .layer h children, inherited, st, outer, hr =>
    ends_within hr fun hr => ends_buildAll children hr
  | .facet h mapping child, inherited, st, outer, hr =>
    ends_within hr fun hr => by
      rw [Chart.children, Chart.allInContext_singleton]
      exact ends_build child hr

/-- Building charts side by side fails only if one of them or a chart inside cannot be laid out. -/
theorem ends_buildAll : ∀ (charts : List Chart) {inherited : Option Nat} {st : Building}
    {outer : Option (List Stage)}, Ready (fun _ => True) outer inherited st →
      Run.Ends (buildAll charts inherited) st (fun _ _ => True)
        (Refused (Chart.allInContext (fun inherits c => Analysis.hasData c.header inherits)
          inherited.isSome charts))
  | [], inherited, st, outer, _ => .of_ok rfl trivial
  | chart :: rest, inherited, st, outer, hr => by
    rw [Chart.allInContext]
    refine ((ends_build chart hr).imp (fun _ _ _ h => h) fun e he =>
      he.mono (List.subset_append_left _ _)).bind fun _ st₁ hbuild _ => ?_
    obtain ⟨_, _, hext⟩ := (builds_of_build chart hbuild).extends hr
    exact (ends_buildAll rest (hext.ready hr)).imp (fun _ _ _ h => h) fun e he =>
      he.mono (List.subset_append_right _ _)

end

/-- The flow of a chart is built if every chart in it can be laid out, and else there is an error
    that is about one of them. -/
theorem ofChart_yields (chart : Chart) : Yields (ofChart chart)
    (fun _ => ∀ e, ¬ Refused chart.parts e) (Refused chart.parts) := by
  have hends := ends_build chart ready_empty
  -- what was built gives no error, and an error comes from a chart that could not be
  cases h : ofChart chart with
  | ok st =>
    have hno := (builds_of_ofChart h).not_refuses ready_empty
    rw [Chart.allInContext_singleton] at hno
    exact fun e ⟨x, hx, he⟩ => hno x hx e he
  | error e =>
    rw [ofChart] at h
    split at h
    · exact absurd h (by simp)
    · next e' st hrun =>
      obtain rfl := Except.error.inj h
      have hrun' : build chart none {} = (.error e', st) := hrun
      rw [Run.Ends, hrun'] at hends
      exact hends

/-- A chart that the analysis lets pass is built, unless the parameters of a facet's bins are wrong
    or a stack reads a channel that names no field, and then building says so; and if the analysis
    misses data, then building fails. -/
theorem ofChart_of_analyze (chart : Chart) :
    (Analysis.analyze chart = .ok () →
      (∃ st, ofChart chart = .ok st) ∧ (∀ e, ¬ chart.Unchecked e) ∨
        ∃ e, ofChart chart = .error e ∧ chart.Unchecked e) ∧
      ∀ name, Analysis.analyze chart = .error (.missingDataSource name) →
        ∃ e, ofChart chart = .error e := by
  have hbuild := ofChart_yields chart
  constructor
  · intro ha
    have hsense := (Analysis.analyze_yields chart).of_ok ha
    cases h : ofChart chart with
    | ok st =>
      rw [h] at hbuild
      refine .inl ⟨⟨st, rfl⟩, fun e he => ?_⟩
      obtain ⟨x, hx, e', hrefuses⟩ := he.refuses hsense
      exact hbuild e' ⟨x, hx, hrefuses⟩
    | error e =>
      rw [h] at hbuild
      obtain ⟨x, hx, hrefuses⟩ := hbuild
      exact .inr ⟨e, rfl, (hsense x hx).unchecked (List.mem_map_of_mem hx) hrefuses⟩
  · intro name ha
    obtain ⟨x, hx, hl, hdata⟩ := (Analysis.analyze_yields chart).of_error ha name rfl
    cases h : ofChart chart with
    | ok st =>
      rw [h] at hbuild
      exact absurd ⟨x, hx, .data hl hdata⟩ (hbuild _)
    | error e => exact ⟨e, rfl⟩

/-- A facet in columns by bins of which there are to be none. -/
def binlessFacet : Chart :=
  .facet { name := "grid", data := some (.named "rows") }
    { column := some ((FieldDef.named "k" .quantitative).withBin
        (.params (BinParams.withMaxbins {} 0))) }
    (.unit { name := "bars" } .bar ∅ none)

/-- A unit that stacks a channel without a field. -/
def namelessStack : Chart :=
  .unit { name := "bars", data := some (.named "rows") } .bar
    ((∅ : Encoding).insert .y { type := .quantitative }) (some { fieldChannel := .y })

/-- A layer without data of two units, one of which has data. -/
def halfSupplied : Chart :=
  .layer { name := "all" }
    [.unit { name := "points", data := some (.named "rows") } .point ∅ none,
      .unit { name := "bars" } .bar ∅ none]

/-- Both errors occur although the analysis finds nothing, and data that the analysis misses are
    missed by building. -/
theorem ofChart_of_analyze_refused :
    (∃ e, ofChart binlessFacet = .error e ∧ binlessFacet.Unchecked e) ∧
      (∃ e, ofChart namelessStack = .error e ∧ namelessStack.Unchecked e) ∧
      Analysis.analyze halfSupplied = .error (.missingDataSource "bars") ∧
      ∃ e, ofChart halfSupplied = .error e := by
  have hrefused {chart : Chart} (hbuild : (ofChart chart).isOk = false)
      (h : (∃ st, ofChart chart = .ok st) ∧ (∀ e, ¬ chart.Unchecked e) ∨
        ∃ e, ofChart chart = .error e ∧ chart.Unchecked e) :
      ∃ e, ofChart chart = .error e ∧ chart.Unchecked e := by
    refine h.resolve_left ?_
    rintro ⟨⟨st, hst⟩, -⟩
    exact absurd hbuild (by simp [hst, Except.isOk, Except.toBool])
  have hmissed : Analysis.analyze halfSupplied = .error (.missingDataSource "bars") := rfl
  exact ⟨hrefused (by decide +kernel) ((ofChart_of_analyze binlessFacet).1 rfl),
    hrefused (by decide +kernel) ((ofChart_of_analyze namelessStack).1 rfl),
    hmissed, (ofChart_of_analyze halfSupplied).2 _ hmissed⟩

end Building

end ChartPipeline
