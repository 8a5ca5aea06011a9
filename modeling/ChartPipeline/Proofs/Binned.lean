import ChartPipeline.Proofs.BinKeys
import ChartPipeline.Proofs.Reading

/-!
# The bins of channels

Channels share a binning by its key, and the first channel with a key decides what is binned, and
how.  A channel has the bins that it asks for if it is the first with its key, or if that one asks
for the same.  Since the end of the parameters cannot be read off a key, this may fail: the
parameters of one binning may go on in the name of the other one's field.

## Key results

- `Binning.firsts_ofChart?`: the binnings of a chart are those of the first channels
- `Binning.bins_of_channels`: which bins a channel has, and which channels share them
-/

namespace ChartPipeline

/-- What a channel asks to be binned, and how. -/
structure BinRequest where
  params : BinParams
  field : String

/-- The key of the binning that is asked for. -/
def BinRequest.key (c : BinRequest) : String := c.params.fieldKey c.field

/-- What a channel asks to be binned, if it has a field and asks for bins. -/
def FieldDef.binRequest? (f : FieldDef) : Option BinRequest :=
  f.binParams?.bind fun params => f.field.map fun field => ⟨params, field⟩

/-- The key of a channel's bins is that of what it asks for. -/
theorem FieldDef.binKey?_eq (f : FieldDef) : f.binKey? = f.binRequest?.map BinRequest.key := by
  rw [binKey?, binRequest?]
  cases f.binParams? with
  | none => rfl
  | some params => cases f.field <;> rfl

/-- What the channels of a chart ask to be binned, in their order. -/
def Chart.binRequests (chart : Chart) : List BinRequest :=
  chart.fieldDefs.filterMap fun d => d.2.binRequest?

/-- A step bins what is asked for: the field, with exactly the parameters, into fields named by the
key.  Of all the steps it is the only one that does so, and right before it stands the step that
sets its signal, unless the parameters fix the bounds. -/
structure BinStep.Serves (b : BinStep) (steps : List Step) (f : FieldDef) (c : BinRequest) :
    Prop where
  field : b.field = c.field
  maxbins : b.maxbins = c.params.maxbins
  step : b.step = c.params.step
  minstep : b.minstep = c.params.minstep
  nice : b.nice = c.params.nice
  base : b.base = c.params.base
  bounds : ∀ low high, b.extent = .bounds low high ↔ c.params.extent = some (low, high)
  start : f.binOutput? .start = some b.start
  stop : f.binOutput? .stop = some b.stop
  once : ∃ before after, steps = before ++ .bin b :: after ∧
    ∀ b', .bin b' ∈ before ++ after → b'.start ≠ b.start ∧ b'.stop ≠ b.stop
  signal : (∃ before name after, steps = before ++ .extent c.field name :: .bin b :: after ∧
    b.extent = .signal name) ↔ c.params.extent = none

/-- The steps of an entry are its bins with what stands before and after them. -/
theorem BinEntry.exists_steps_eq (e : BinEntry) : ∃ pre labels,
    e.steps = pre ++ .bin e.step :: labels ∧ (∀ b, .bin b ∉ pre) ∧ (∀ b, .bin b ∉ labels) ∧
      ∀ name, e.step.extent = .signal name → pre = [.extent e.step.field name] := by
  refine ⟨_, _, rfl, fun b => ?_, by simp, fun name h => ?_⟩
  · split <;> simp
  · rw [h]

namespace Binning

variable {chart : Chart} {bins bins' : Binning} {requests : List BinRequest} {f : FieldDef}
  {key : String}

/-- The binning step that is asked for. -/
def requestStep (chart : Chart) (c : BinRequest) : BinStep := step chart c.params c.field c.key

/-! ### The first request with a key -/

/-- At every key stands the binning of the first request with it. -/
def Firsts (chart : Chart) (bins : Binning) (requests : List BinRequest) : Prop :=
  ∀ key, (bins.get? key).map BinEntry.step =
    (requests.find? (·.key = key)).map (requestStep chart)

/-- A channel asks last: it starts a binning only if no channel before it has its key. -/
theorem Firsts.addChannel (hb : Firsts chart bins requests)
    (h : addChannel chart bins f = .ok bins') :
    Firsts chart bins' (requests ++ f.binRequest?.toList) := by
  rcases addChannel_eq_ok h with ⟨params, field, hparams, hfield, -, rfl⟩ | ⟨hnone, rfl⟩
  · have hrequest : f.binRequest? = some ⟨params, field⟩ := by
      rw [FieldDef.binRequest?, hparams, hfield]
      rfl
    intro key
    rw [SortedMap.get?_upsert, hrequest, Option.toList_some, List.find?_append]
    split
    next hkey =>
      subst hkey
      have hold := hb (params.fieldKey field)
      -- an entry that is there keeps its step; only the label is new
      cases hfind : requests.find? (·.key = params.fieldKey field) with
      | none =>
        rw [hfind, Option.map_none, Option.map_eq_none_iff] at hold
        rw [hold]
        simp [BinRequest.key, requestStep]
      | some first =>
        rw [hfind] at hold
        obtain ⟨e, he, hstep⟩ := Option.map_eq_some_iff.1 hold
        rw [he]
        simpa [BinEntry.withLabel] using hstep
    next hkey =>
      have hnot : ¬ (BinRequest.key ⟨params, field⟩ = key) := fun e => hkey e.symm
      rw [hb key, List.find?_singleton, if_neg (by simpa using hnot), Option.or_none]
  -- a channel without a field or without bins asks for nothing
  · have hrequest : f.binRequest? = none := by
      rw [FieldDef.binRequest?, Option.bind_eq_none_iff]
      intro params hparams
      rw [Option.map_eq_none_iff, Option.eq_none_iff_forall_ne_some]
      exact fun field hfield => hnone params field hparams hfield
    rwa [hrequest, Option.toList_none, List.append_nil]

/-- The binnings of a chart are those of the first channels that ask for them. -/
theorem firsts_ofChart? {bins : Option Binning} (h : ofChart? chart = .ok bins) :
    ∃ bins', Firsts chart bins' chart.binRequests ∧
      bins = if bins'.isEmpty then none else some bins' := by
  refine ofChart?_keeps (P := fun done bins =>
    Firsts chart bins (done.filterMap fun d => d.2.binRequest?)) h (fun key => rfl) ?_
  intro done d bins bins' _ hadd hb
  have hnext := hb.addChannel hadd
  -- what the channels so far ask for, and what the next one asks for
  have hdone : (done ++ [d]).filterMap (fun d => d.2.binRequest?) =
      done.filterMap (fun d => d.2.binRequest?) ++ d.2.binRequest?.toList := by
    rw [List.filterMap_append]
    cases h : d.2.binRequest? <;> simp [h]
  rwa [hdone]

/-! ### The steps of binnings -/

/-- Among the steps of binnings those of an entry are together, and all other bins are steps of
    other keys. -/
theorem exists_steps_eq {e : BinEntry} (h : bins.get? key = some e) :
    ∃ before after, bins.steps = before ++ (e.steps ++ after) ∧
      ∀ b, .bin b ∈ before ++ after → ∃ key' e', key' ≠ key ∧ bins.get? key' = some e' ∧
        e'.step = b := by
  obtain ⟨l, r, hentries⟩ := List.append_of_mem (SortedMap.mem_entries_iff.2 h :
    (key, e) ∈ bins.entries)
  -- keys are in strict order, so none stands twice
  have hsorted := bins.sorted
  rw [hentries, List.pairwise_append, List.pairwise_cons] at hsorted
  obtain ⟨-, ⟨hright, -⟩, hleft⟩ := hsorted
  have hother : ∀ x ∈ l ++ r, x.1 ≠ key := by
    intro x hx hkey
    rcases List.mem_append.1 hx with hx | hx
    · exact String.lt_irrefl key (by simpa [hkey] using hleft x hx (key, e) List.mem_cons_self)
    · exact String.lt_irrefl key (by simpa [hkey] using hright x hx)
  -- what stands before the entry, and what stands after it
  refine ⟨(l.map Prod.snd).flatMap BinEntry.steps, (r.map Prod.snd).flatMap BinEntry.steps, ?_, ?_⟩
  · rw [steps, SortedMap.values, hentries, List.map_append, List.map_cons, List.flatMap_append,
      List.flatMap_cons]
  · intro b hb
    rw [← List.flatMap_append, ← List.map_append] at hb
    obtain ⟨e', he', hb⟩ := List.mem_flatMap.1 hb
    obtain ⟨⟨key', e'⟩, hx, rfl⟩ := List.mem_map.1 he'
    have hmem : (key', e') ∈ bins.entries := by
      rw [hentries]
      rcases List.mem_append.1 hx with hx | hx <;> simp [hx]
    refine ⟨key', e', hother _ hx, SortedMap.mem_entries_iff.1 hmem, ?_⟩
    rw [BinEntry.steps, List.mem_append, List.mem_cons] at hb
    rcases hb with hb | hb | hb
    · split at hb <;> simp at hb
    · exact (Step.bin.inj hb).symm
    · simp at hb

/-- The bounds of a step are those that are asked for, and without them it takes a signal. -/
theorem requestStep_extent (chart : Chart) (c : BinRequest) :
    (∀ low high, (requestStep chart c).extent = .bounds low high ↔
      c.params.extent = some (low, high)) ∧
    (c.params.extent = none ↔ ∃ name, (requestStep chart c).extent = .signal name) := by
  rw [requestStep, step]
  cases c.params.extent with
  | none => simp
  | some bounds => simp [Prod.ext_iff]

/-- The first channel with a key gets the bins that it asks for, and all channels with this key get
    them. -/
theorem Firsts.serves {first : BinRequest} (hb : Firsts chart bins requests)
    (hfirst : requests.find? (·.key = key) = some first) (hkey : f.binKey? = some key) :
    (requestStep chart first).Serves bins.steps f first := by
  obtain rfl : first.key = key := by simpa using List.find?_some hfirst
  have hat := hb first.key
  rw [hfirst] at hat
  obtain ⟨e, he, hstep⟩ := Option.map_eq_some_iff.1 hat
  obtain ⟨before, after, hsteps, hother⟩ := exists_steps_eq he
  obtain ⟨hbounds, hsignal⟩ := requestStep_extent chart first
  -- neither the step that sets a signal nor the label is a bin
  obtain ⟨pre, labels, hentry, hpre, hlabels, hbefore⟩ := e.exists_steps_eq
  rw [hstep] at hentry hbefore
  rw [hentry] at hsteps
  constructor
  case bounds => exact hbounds
  case start => rw [FieldDef.binOutput?, hkey]; rfl
  case stop => rw [FieldDef.binOutput?, hkey]; rfl
  case once =>
    refine ⟨before ++ pre, labels ++ after, by rw [hsteps]; simp, fun b hbin => ?_⟩
    have hbin : .bin b ∈ before ++ after := by
      simp only [List.mem_append, hpre, hlabels, or_false, false_or] at hbin
      exact List.mem_append.2 hbin
    -- another bin is of another key, so what it writes has another name
    obtain ⟨key', e', hne, he', rfl⟩ := hother b hbin
    have hat' := hb key'
    rw [he', Option.map_some] at hat'
    obtain ⟨c, hc, hstep'⟩ := Option.map_eq_some_iff.1 hat'.symm
    obtain rfl : c.key = key' := by simpa using List.find?_some hc
    rw [← hstep']
    exact ⟨fun h => hne ((String.append_left_inj _).1 ((String.append_left_inj _).1 h)),
      fun h => hne ((String.append_left_inj _).1 ((String.append_left_inj _).1 h))⟩
  case signal =>
    rw [hsignal]
    constructor
    · rintro ⟨_, name, _, -, h⟩
      exact ⟨name, h⟩
    · rintro ⟨name, h⟩
      rw [hbefore name h] at hsteps
      exact ⟨before, name, labels ++ after, by rw [hsteps]; simp [requestStep, step], h⟩
  all_goals rfl

/-- The steps determine what serves a channel, and what this bins. -/
theorem serves_unique {steps : List Step} {c c' : BinRequest} {b b' : BinStep}
    (h : b.Serves steps f c) (h' : b'.Serves steps f c') : b = b' ∧ c = c' := by
  -- no other bin writes the fields that the channel reads
  obtain rfl : b' = b := by
    obtain ⟨before, after, hsteps, hother⟩ := h.once
    obtain ⟨before', after', hsteps', -⟩ := h'.once
    have hmem : .bin b' ∈ before ++ .bin b :: after := by
      rw [← hsteps, hsteps']
      simp
    have hstart : b'.start = b.start := Option.some.inj (h'.start.symm.trans h.start)
    rcases List.mem_append.1 hmem with hbin | hbin
    · exact absurd hstart (hother b' (List.mem_append_left _ hbin)).1
    · rcases List.mem_cons.1 hbin with hbin | hbin
      · exact Step.bin.inj hbin
      · exact absurd hstart (hother b' (List.mem_append_right _ hbin)).1
  refine ⟨rfl, ?_⟩
  have hextent : c.params.extent = c'.params.extent := Option.ext fun e => by
    rw [← h.bounds e.1 e.2, h'.bounds e.1 e.2]
  obtain ⟨⟨extent, maxbins, step, minstep, nice, base⟩, field⟩ := c
  obtain ⟨⟨extent', maxbins', step', minstep', nice', base'⟩, field'⟩ := c'
  obtain rfl : extent = extent' := hextent
  obtain rfl : field = field' := h.field.symm.trans h'.field
  obtain rfl : maxbins = maxbins' := h.maxbins.symm.trans h'.maxbins
  obtain rfl : step = step' := h.step.symm.trans h'.step
  obtain rfl : minstep = minstep' := h.minstep.symm.trans h'.minstep
  obtain rfl : nice = nice' := h.nice.symm.trans h'.nice
  obtain rfl : base = base' := h.base.symm.trans h'.base
  rfl

/-- Two requests have one key exactly if they are the same, or the parameters of one go on in the
    name of the other one's field. -/
theorem key_eq_iff {c c' : BinRequest} : c.key = c'.key ↔ c = c' ∨
    c.params.RunsOn c.field c'.params c'.field ∨ c'.params.RunsOn c'.field c.params c.field := by
  rw [BinRequest.key, BinRequest.key, BinParams.fieldKey_eq_iff]
  cases c
  cases c'
  rw [BinRequest.mk.injEq]

/-- A channel that asks for bins has those that the first channel with its key asks for. -/
theorem exists_serves {bins : Option Binning} (h : ofChart? chart = .ok bins)
    {d : Channel × FieldDef} (hd : d ∈ chart.fieldDefs) {c : BinRequest}
    (hc : d.2.binRequest? = some c) : ∃ m first, bins = some m ∧
      chart.binRequests.find? (·.key = c.key) = some first ∧
      (requestStep chart first).Serves m.steps d.2 first := by
  obtain ⟨m, hfirsts, hbins⟩ := firsts_ofChart? h
  have hmem : c ∈ chart.binRequests := List.mem_filterMap.2 ⟨d, hd, hc⟩
  obtain ⟨first, hfirst⟩ : ∃ first, chart.binRequests.find? (·.key = c.key) = some first :=
    Option.isSome_iff_exists.1 (List.find?_isSome.2 ⟨c, hmem, by simp⟩)
  have hserves := hfirsts.serves hfirst (f := d.2) (by rw [FieldDef.binKey?_eq, hc]; rfl)
  refine ⟨m, first, ?_, hfirst, hserves⟩
  -- a step that serves the channel stands among the steps, so there are some
  rw [hbins, if_neg]
  intro hempty
  obtain ⟨before, after, hsteps, -⟩ := hserves.once
  rw [steps, SortedMap.values, List.isEmpty_iff.1 hempty] at hsteps
  simp at hsteps

/-- The bins of channels.  Every channel that asks for bins has one binning, with the step that sets
    its signal right before it if the bounds are not fixed: that of the first channel with its key.
    So it has what it asks for exactly if the first one asks for the same.  Two channels share a
    binning exactly if they ask for the same, or if the parameters of one go on in the name of the
    other one's field. -/
theorem bins_of_channels {bins : Option Binning} (h : ofChart? chart = .ok bins)
    {d d' : Channel × FieldDef} (hd : d ∈ chart.fieldDefs) (hd' : d' ∈ chart.fieldDefs)
    {c c' : BinRequest} (hc : d.2.binRequest? = some c) (hc' : d'.2.binRequest? = some c') :
    ∃ (m : Binning) (first first' : BinRequest) (b b' : BinStep), bins = some m ∧
      chart.binRequests.find? (·.key = c.key) = some first ∧ b.Serves m.steps d.2 first ∧
      chart.binRequests.find? (·.key = c'.key) = some first' ∧ b'.Serves m.steps d'.2 first' ∧
      ((∃ own : BinStep, own.Serves m.steps d.2 c) ↔ first = c) ∧
      (b = b' ↔ c = c' ∨ c.params.RunsOn c.field c'.params c'.field ∨
        c'.params.RunsOn c'.field c.params c.field) := by
  obtain ⟨m, first, hbins, hfirst, hserves⟩ := exists_serves h hd hc
  obtain ⟨m', first', hbins', hfirst', hserves'⟩ := exists_serves h hd' hc'
  obtain rfl : m = m' := Option.some.inj (hbins.symm.trans hbins')
  refine ⟨m, first, first', _, _, hbins, hfirst, hserves, hfirst', hserves', ?_, ?_⟩
  · constructor
    · rintro ⟨own, hown⟩
      exact (serves_unique hserves hown).2
    · rintro rfl
      exact ⟨_, hserves⟩
  -- equal steps write one field, which is named by the key
  · rw [← key_eq_iff]
    have hkey : first.key = c.key := by simpa using List.find?_some hfirst
    have hkey' : first'.key = c'.key := by simpa using List.find?_some hfirst'
    constructor
    · intro hstep
      have hstart := congrArg BinStep.start hstep
      rw [← hkey, ← hkey']
      exact (String.append_left_inj _).1 ((String.append_left_inj _).1 hstart)
    · intro hsame
      rw [hsame, hfirst'] at hfirst
      rw [Option.some.inj hfirst]

/-- A field that is binned with parameters. -/
def binned (field : String) (params : BinParams) : FieldDef :=
  (FieldDef.named field .quantitative).withBin (.params params)

/-- The parameters of the first channel go on in the name of the second one's field; the third one
bins the field of the first with other parameters. -/
def niceBins : Chart :=
  .unit { name := "bars", data := some (.named "rows") } .bar
    ⟨[(.x, binned "a" { maxbins := some 10, nice := some true }),
      (.y, binned "nice_true_a" { maxbins := some 10 }),
      (.color, binned "a" { maxbins := some 20 })], by simp; decide⟩ none

/-- The second channel has the bins of the first one and none of its own; the third one has those
    that it asks for. -/
theorem bins_of_channels_niceBins :
    ∃ (y color : Channel × FieldDef) (bins : Binning) (b b' : BinStep),
      ofChart? niceBins = .ok (some bins) ∧ y ∈ niceBins.fieldDefs ∧ color ∈ niceBins.fieldDefs ∧
      y.2.binRequest? = some ⟨{ maxbins := some 10 }, "nice_true_a"⟩ ∧
      b.Serves bins.steps y.2 ⟨{ maxbins := some 10, nice := some true }, "a"⟩ ∧
      (¬ ∃ own : BinStep, own.Serves bins.steps y.2 ⟨{ maxbins := some 10 }, "nice_true_a"⟩) ∧
      color.2.binRequest? = some ⟨{ maxbins := some 20 }, "a"⟩ ∧
      b'.Serves bins.steps color.2 ⟨{ maxbins := some 20 }, "a"⟩ ∧ b ≠ b' := by
  obtain ⟨bins, hbins⟩ : ∃ bins, ofChart? niceBins = .ok bins := ⟨_, rfl⟩
  have hy : (.y, binned "nice_true_a" { maxbins := some 10 }) ∈ niceBins.fieldDefs := by
    simp [niceBins, Chart.fieldDefs]
  have hcolor : (.color, binned "a" { maxbins := some 20 }) ∈ niceBins.fieldDefs := by
    simp [niceBins, Chart.fieldDefs]
  obtain ⟨m, first, first', b, b', rfl, hfirst, hb, hfirst', hb', hown, -⟩ :=
    bins_of_channels hbins hy hcolor rfl rfl
  obtain rfl := Option.some.inj hfirst
  obtain rfl := Option.some.inj hfirst'
  refine ⟨_, _, m, b, b', hbins, hy, hcolor, rfl, hb, fun h => ?_, rfl, hb', ?_⟩
  · have hfield := congrArg BinRequest.field (hown.1 h)
    exact absurd hfield (by decide)
  · rintro rfl
    exact absurd (hb.maxbins.symm.trans hb'.maxbins) (by decide)

/-- Channels do not always have the bins that they ask for. -/
theorem not_serves_niceBins : ¬ ∀ (chart : Chart) (bins : Option Binning),
    ofChart? chart = .ok bins → ∀ d ∈ chart.fieldDefs, ∀ c, d.2.binRequest? = some c →
      ∃ (m : Binning) (b : BinStep), bins = some m ∧ b.Serves m.steps d.2 c := by
  intro hall
  have hy : (.y, binned "nice_true_a" { maxbins := some 10 }) ∈ niceBins.fieldDefs := by
    simp [niceBins, Chart.fieldDefs]
  obtain ⟨bins, h⟩ : ∃ bins, ofChart? niceBins = .ok bins := ⟨_, rfl⟩
  obtain ⟨m, first, hbins, hfirst, hfirsts⟩ := exists_serves h hy rfl
  obtain ⟨m', own, hbins', hown⟩ := hall niceBins bins h _ hy _ rfl
  obtain rfl : m = m' := Option.some.inj (hbins.symm.trans hbins')
  obtain rfl := Option.some.inj hfirst
  have hfield := congrArg BinRequest.field (serves_unique hfirsts hown).2
  exact absurd hfield (by decide)

end Binning

end ChartPipeline
