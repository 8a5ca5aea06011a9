import ChartPipeline.Proofs.Derived
import ChartPipeline.Proofs.Tracing

/-!
# Derived fields are there where they are read

A unit groups, sorts and stacks by fields that its own bins, time units and aggregates derive, or
that its channels take from the source.  `Stage.Known` says which fields are known at the end of a
way: an aggregation leaves its dimensions and its aggregates, and nothing else.  Wherever the
passes put the stages, every field that a unit reads is known above the stage that reads it.

## Key results

- `Chart.known_of_outputName?`: the field that a channel is read by is known after the aggregation
- `Chart.Declares.exists_unit`: every stage that groups is one of a unit
- `hoist_derives_before_reading`: the same after hoisting and elimination
-/

namespace ChartPipeline

/-! ### What stages read and write -/

/-- Whether an aggregation has a field, as a dimension or as an aggregate. -/
def Aggregation.Has (a : Aggregation) (name : String) : Prop :=
  name ∈ a.dimensions ∨ name ∈ a.measures.map Measure.output

namespace Stage

/-- The fields that a stage that groups reads to tell rows apart, to sort or to stack them. -/
def reads : Stage → List String
  | aggregate a => a.dimensions
  | order sort => sort.fields
  | stack s => s.groupby ++ s.field :: s.stackBy
  | positiveFilter flags => flags.keys
  | _ => []

/-- The fields that a stage derives, aggregates among them. -/
def writes : Stage → List String
  | aggregate a => a.measures.map Measure.output
  | a => a.generated

/-- Whether a field is known below a stage, if above it some are. -/
def PassesOn (known : String → Prop) : Stage → String → Prop
  | aggregate a, name => a.Has name
  | a, name => known name ∨ name ∈ a.writes

/-- Whether a field is known at the end of a way, if at its beginning some are. -/
def Known (known : String → Prop) : List Stage → String → Prop
  | [], name => known name
  | a :: w, name => Known (a.PassesOn known) w name

/-- A field that is known or written is known at the end if all aggregations pass it on. -/
theorem known_of {known : String → Prop} {w : List Stage} {name : String}
    (h : known name ∨ ∃ a ∈ w, name ∈ a.writes)
    (hpass : ∀ g, .aggregate g ∈ w → g.Has name) : Known known w name := by
  -- stage by stage: an aggregation passes the field on, and any other stage keeps what is known
  induction w generalizing known with
  | nil => exact h.resolve_right (by simp)
  | cons a w ih =>
    refine ih ?_ fun g hg => hpass g (List.mem_cons_of_mem a hg)
    simp only [List.mem_cons, exists_eq_or_imp] at h
    rcases h with h | h | h
    · left
      cases a with
      | aggregate g => exact hpass g (by simp)
      | _ => exact .inl h
    · left
      cases a with
      | aggregate g => exact hpass g (by simp)
      | _ => exact .inr h
    · exact .inr h

end Stage

/-! ### What bins and time units write -/

/-- An entry that names what it derives by its key. -/
structure BinEntry.Keyed (e : BinEntry) (key : String) : Prop where
  start : e.step.start = key ++ "_" ++ BinField.start.ending
  stop : e.step.stop = key ++ "_" ++ BinField.stop.ending
  label : ∀ l ∈ e.label, l.2 = key ++ "_" ++ BinField.range.ending

namespace Binning

variable {chart : Chart} {bins bins' : Binning} {f : FieldDef} {key : String}

/-- A binning all of whose entries name what they derive by their keys. -/
def AllKeyed (bins : Binning) : Prop := ∀ key e, bins.get? key = some e → e.Keyed key

/-- Whether a binning has the entry of a channel, with a label if the channel needs one. -/
def Covers (bins : Binning) (f : FieldDef) : Prop :=
  ∀ key, f.binKey? = some key →
    ∃ e, bins.get? key = some e ∧ (f.hasDiscreteScale = true → e.label.isSome = true)

/-- Adding a channel keeps what is there, and its own entry is there then. -/
theorem addChannel_ok (h : addChannel chart bins f = .ok bins') (hbins : bins.AllKeyed) :
    bins'.AllKeyed ∧ bins'.Covers f ∧ ∀ f', bins.Covers f' → bins'.Covers f' := by
  rcases addChannel_eq_ok h with ⟨params, field, hparams, hfield, -, rfl⟩ | ⟨hnone, rfl⟩
  · have hkey : f.binKey? = some (params.fieldKey field) := by
      simp [FieldDef.binKey?, hparams, hfield]
    refine ⟨fun key e he => ?_, fun key hk => ?_, fun f' hf' key hk => ?_⟩
    · -- an entry is at the key of the channel, old or new, or it was there before
      rw [SortedMap.get?_upsert] at he
      split at he
      · next hsame =>
        subst hsame
        split at he
        · next old hold =>
          obtain rfl := Option.some.inj he
          obtain ⟨hstart, hstop, hlabel⟩ := hbins _ old hold
          refine ⟨hstart, hstop, fun l hl => ?_⟩
          cases hold' : old.label with
          | some l' => exact hlabel l (by simpa [BinEntry.withLabel, hold'] using hl)
          | none => exact label?_keyed (by simpa [BinEntry.withLabel, hold'] using hl)
        · obtain rfl := Option.some.inj he
          exact ⟨rfl, rfl, fun l hl => label?_keyed hl⟩
      · exact hbins key e he
    · -- the entry of the channel has a label, its own or the one that was there
      obtain rfl : params.fieldKey field = key := Option.some.inj (hkey.symm.trans hk)
      have hnew : f.hasDiscreteScale = true →
          (label? chart f (params.fieldKey field)).isSome = true := by
        intro hd
        simp [label?, hd]
      refine ⟨_, by rw [SortedMap.get?_upsert, if_pos rfl], fun hd => ?_⟩
      split
      · next old _ => cases hl : old.label <;> simp [BinEntry.withLabel, hl, hnew hd]
      · exact hnew hd
    · -- and no entry loses its label
      obtain ⟨e, he, hlabel⟩ := hf' key hk
      rw [SortedMap.get?_upsert]
      split
      · next hsame =>
        subst hsame
        refine ⟨_, rfl, fun hd => ?_⟩
        obtain ⟨l, hl⟩ := Option.isSome_iff_exists.1 (hlabel hd)
        simp [he, BinEntry.withLabel, hl]
      · exact ⟨e, he, hlabel⟩
  · refine ⟨hbins, fun key hk => ?_, fun f' hf' => hf'⟩
    obtain ⟨params, hparams, hfield⟩ := Option.bind_eq_some_iff.1 hk
    obtain ⟨field, hfield, -⟩ := Option.map_eq_some_iff.1 hfield
    exact absurd hfield (by simpa using hnone params field hparams)

/-- The bins of a chart have the entries of all of its channels. -/
theorem ofChart?_ok {bins : Option Binning} (h : ofChart? chart = .ok bins) {d : Channel × FieldDef}
    (hd : d ∈ chart.fieldDefs) (hkey : d.2.binKey? = some key) :
    ∃ b e, bins = some b ∧ b.get? key = some e ∧ e.Keyed key ∧
      (d.2.hasDiscreteScale = true → e.label.isSome = true) := by
  obtain ⟨b, ⟨hkeyed, hall⟩, hbins⟩ := ofChart?_keeps
    (P := fun done bins => bins.AllKeyed ∧ ∀ d ∈ done, bins.Covers d.2) h
    ⟨fun key e he => absurd he (by simp [SortedMap.get?, EmptyCollection.emptyCollection,
      SortedMap.empty]), by simp⟩
    fun done d bins bins' _ hadd hbins => by
      obtain ⟨hkeyed, hcovers, hmono⟩ := addChannel_ok hadd hbins.1
      refine ⟨hkeyed, fun d' hd' => ?_⟩
      rcases List.mem_append.1 hd' with hd' | hd'
      · exact hmono _ (hbins.2 d' hd')
      · exact List.mem_singleton.1 hd' ▸ hcovers
  obtain ⟨e, he, hlabel⟩ := hall d hd key hkey
  -- a binning with an entry is not empty
  have hne : b.isEmpty = false := by
    rw [Bool.eq_false_iff, ne_eq, SortedMap.isEmpty, List.isEmpty_iff]
    intro hnil
    exact absurd (SortedMap.mem_entries_iff.2 he : (key, e) ∈ b.entries) (by simp [hnil])
  refine ⟨b, e, ?_, he, hkeyed key e he, hlabel⟩
  rw [hbins, hne, if_neg (by simp)]

end Binning

namespace Chart

variable {chart : Chart} {before after : List Stage} {d : Channel × FieldDef} {name : String}

/-- The generated fields of a channel's binning are written before the raw output, the range if
    the scale is discrete. -/
theorem written_of_binOutput? (hb : chart.stagesBeforeRaw = .ok before) (hd : d ∈ chart.fieldDefs)
    {part : BinField} (hpart : part = .range → d.2.hasDiscreteScale = true)
    (h : d.2.binOutput? part = some name) : ∃ b ∈ before, name ∈ b.writes := by
  obtain ⟨key, hkey, rfl⟩ := Option.map_eq_some_iff.1 h
  obtain ⟨bins, hbins, rfl⟩ := stagesBeforeRaw_ok hb
  obtain ⟨b, e, rfl, he, ⟨hstart, hstop, hlabel⟩, hl⟩ := Binning.ofChart?_ok hbins hd hkey
  refine ⟨.bin b, by simp, ?_⟩
  refine List.mem_flatMap.2 ⟨e, Binning.mem_values_iff.2 ⟨key, he⟩, ?_⟩
  cases part with
  | start => simp [BinEntry.outputs, hstart]
  | stop => simp [BinEntry.outputs, hstop]
  | range =>
    obtain ⟨l, hl⟩ := Option.isSome_iff_exists.1 (hl (hpart rfl))
    simp [BinEntry.outputs, hl, hlabel l hl]

/-- What one step of a fold brings about and every other one keeps holds in the end. -/
theorem foldl_of_mem {α β : Type} {motive : β → Prop} {op : β → α → β} {l : List α} {a : α} {b : β}
    (ha : a ∈ l) (hmake : ∀ b, motive (op b a)) (hkeep : ∀ b x, motive b → motive (op b x)) :
    motive (l.foldl op b) := by
  obtain ⟨l, r, rfl⟩ := List.append_of_mem ha
  rw [List.foldl_append, List.foldl_cons]
  exact List.foldlRecOn r op (hmake _) fun b hb x _ => hkeep b x hb

/-- The time unit of a channel is written before the raw output. -/
theorem written_of_timeUnit (hb : chart.stagesBeforeRaw = .ok before) (hd : d ∈ chart.fieldDefs)
    {unit : TimeUnit} {field : String} (hunit : d.2.timeUnit = some unit)
    (hfield : d.2.field = some field) : ∃ b ∈ before, unit.outputName field ∈ b.writes := by
  obtain ⟨bins, -, rfl⟩ := stagesBeforeRaw_ok hb
  obtain ⟨formulas, hf, hmem⟩ : ∃ formulas : TimeFormulas,
      TimeFormulas.ofChart? chart = (if formulas.isEmpty then none else some formulas) ∧
        unit.outputName field ∈ formulas.keys := by
    -- the field is added at its channel, and no channel takes one away
    refine ⟨_, rfl, foldl_of_mem (motive := fun formulas : TimeFormulas =>
      unit.outputName field ∈ formulas.keys) hd (fun formulas => ?_) fun formulas d' h => ?_⟩
    · simp only [hunit, hfield]
      exact (SortedMap.mem_keys_upsert _ _ _ _).2 (.inl rfl)
    · dsimp only
      split
      · exact (SortedMap.mem_keys_upsert _ _ _ _).2 (.inr h)
      · exact h
  have hne : formulas.isEmpty = false := by
    rw [Bool.eq_false_iff]
    intro hempty
    have hnil := congrArg (List.map Prod.fst) (List.isEmpty_iff.1 hempty)
    exact List.eq_nil_iff_forall_not_mem.1 hnil _ hmem
  rw [hne] at hf
  exact ⟨.timeUnit formulas, by simp [hf], hmem⟩

/-! ### What a unit reads -/

/-- A field that a chart takes from its source, or writes before its raw output. -/
def Provides (chart : Chart) (before : List Stage) (name : String) : Prop :=
  chart.Reads name ∨ ∃ b ∈ before, name ∈ b.writes

/-- The field that a channel without an aggregate is read by. -/
theorem provides_of_outputName? (hb : chart.stagesBeforeRaw = .ok before) (hd : d ∈ chart.fieldDefs)
    (hagg : d.2.aggregate = none) (h : d.2.outputName? = some name) :
    chart.Provides before name := by
  have hcount : d.2.isCount = false := by simp [FieldDef.isCount, hagg]
  rw [FieldDef.outputName?, hcount, if_neg (by simp)] at h
  obtain ⟨field, hfield, h⟩ := Option.bind_eq_some_iff.1 h
  simp only [hagg] at h
  split at h
  · exact .inr (written_of_binOutput? hb hd (by simp) h)
  · split at h
    · next unit hunit =>
      obtain rfl := Option.some.inj h
      exact .inr (written_of_timeUnit hb hd hunit hfield)
    · obtain rfl := Option.some.inj h
      exact .inl ⟨d, hd, hfield⟩

end Chart

namespace Aggregation

variable {a : Aggregation} {f : FieldDef} {name : String}

/-- An aggregate that is taken in adds its output. -/
theorem has_addMeasure {m : Measure} :
    (a.addMeasure m).Has name ↔ a.Has name ∨ name = m.output := by
  rw [addMeasure, Has, Has]
  split
  · next h =>
    have hm : m ∈ a.measures := by simpa using h
    refine ⟨.inl, fun h => h.elim id ?_⟩
    rintro rfl
    exact .inr (List.mem_map_of_mem hm)
  · simp [or_assoc]

/-- Fields to group by are added as they are. -/
theorem has_addDimensions {fields : List String} :
    (a.addDimensions fields).Has name ↔ a.Has name ∨ name ∈ fields := by
  simp only [addDimensions, Has, mem_addNames]
  tauto

/-- With a channel, an aggregation has the field that the channel is read by. -/
theorem has_addChannel (h : f.outputName? = some name) : (a.addChannel f).Has name := by
  rw [FieldDef.outputName?] at h
  rw [addChannel]
  -- a count, an aggregate of a field, a binned field, or any other one
  split at h
  · next hcount =>
    obtain rfl := Option.some.inj h
    rw [if_pos hcount]
    exact has_addMeasure.2 (.inr (by decide))
  · next hcount =>
    rw [if_neg hcount]
    obtain ⟨field, hfield, hname⟩ := Option.bind_eq_some_iff.1 h
    cases hagg : f.aggregate with
    | some op =>
      simp only [hagg, Option.some.injEq] at hname
      simp only [hfield]
      exact has_addMeasure.2 (.inr hname.symm)
    | none =>
      simp only [hagg] at hname
      dsimp only
      split
      · next hbin =>
        rw [if_pos hbin] at hname
        exact has_addDimensions.2 (.inr (List.mem_filterMap.2 ⟨.start, by simp, hname⟩))
      · next hbin =>
        refine has_addDimensions.2 (.inr ?_)
        rw [FieldDef.outputName?, if_neg hcount, h]
        simp

/-- What an aggregation has it keeps when a channel is added. -/
theorem has_addChannel_of_has (h : a.Has name) : (a.addChannel f).Has name := by
  rw [addChannel]
  split
  · exact has_addMeasure.2 (.inl h)
  · split
    · split
      · exact has_addMeasure.2 (.inl h)
      · exact h
    · split <;> exact has_addDimensions.2 (.inl h)

/-- The dimensions that a channel adds are read from the source, or are written before the raw
    output. -/
theorem provides_addChannel {chart : Chart} {before : List Stage} {d : Channel × FieldDef}
    (hb : chart.stagesBeforeRaw = .ok before) (hd : d ∈ chart.fieldDefs)
    (h : name ∈ (a.addChannel d.2).dimensions) : name ∈ a.dimensions ∨ chart.Provides before name := by
  have hmeasure {m : Measure} : (a.addMeasure m).dimensions = a.dimensions := by
    rw [addMeasure]
    split <;> rfl
  rw [addChannel] at h
  split at h
  · rw [hmeasure] at h
    exact .inl h
  · next hcount =>
    split at h
    · split at h
      · rw [hmeasure] at h
        exact .inl h
      · exact .inl h
    -- what is no aggregate groups by bins or by its output
    · next hagg =>
      split at h
      · rcases mem_addNames.1 h with h | h
        · exact .inl h
        · obtain ⟨part, hpart, hname⟩ := List.mem_filterMap.1 h
          refine .inr (.inr (Chart.written_of_binOutput? hb hd (fun hrange => ?_) hname))
          subst hrange
          by_contra hdiscrete
          simp [hdiscrete] at hpart
      · rcases mem_addNames.1 h with h | h
        · exact .inl h
        · exact .inr (Chart.provides_of_outputName? hb hd hagg (Option.mem_toList.1 h))

/-- The aggregation of a chart has the fields that all channels are read by, and its dimensions are
    read from the source or are written before the raw output. -/
theorem ofChart?_ok {chart : Chart} {before : List Stage} (h : ofChart? chart = some a)
    (hb : chart.stagesBeforeRaw = .ok before) :
    (∀ d ∈ chart.fieldDefs, ∀ name, d.2.outputName? = some name → a.Has name) ∧
      ∀ name ∈ a.dimensions, chart.Provides before name := by
  have hfold (ds : List (Channel × FieldDef)) (hds : ∀ d ∈ ds, d ∈ chart.fieldDefs)
      (a : Aggregation) (ha : ∀ name ∈ a.dimensions, chart.Provides before name) :
      (∀ name, a.Has name → (ds.foldl (fun a d => a.addChannel d.2) a).Has name) ∧
      (∀ d ∈ ds, ∀ name, d.2.outputName? = some name →
        (ds.foldl (fun a d => a.addChannel d.2) a).Has name) ∧
      ∀ name ∈ (ds.foldl (fun a d => a.addChannel d.2) a).dimensions,
        chart.Provides before name := by
    induction ds generalizing a with
    | nil => exact ⟨fun _ h => h, by simp, ha⟩
    | cons d ds ih =>
      obtain ⟨hmono, hall, hdims⟩ := ih (fun d' hd' => hds d' (List.mem_cons_of_mem d hd'))
        (a.addChannel d.2) fun name hname =>
          (provides_addChannel hb (hds d (by simp)) hname).elim (ha name) id
      refine ⟨fun name hname => hmono name (has_addChannel_of_has hname), fun d' hd' name hname => ?_,
        hdims⟩
      rcases List.mem_cons.1 hd' with rfl | hd'
      · exact hmono name (has_addChannel hname)
      · exact hall d' hd' name hname
  rw [ofChart?] at h
  split at h
  · obtain rfl := Option.some.inj h
    exact (hfold chart.fieldDefs (fun _ hd => hd) {} (by simp)).2
  · exact absurd h (by simp)

/-- Without an aggregation, no channel aggregates. -/
theorem ofChart?_none {chart : Chart} (h : ofChart? chart = none) :
    ∀ d ∈ chart.fieldDefs, d.2.aggregate = none := by
  rw [ofChart?] at h
  split at h
  · exact absurd h (by simp)
  · next hany =>
    intro d hd
    by_contra hsome
    exact hany (List.any_eq_true.2 ⟨d, hd, Option.isSome_iff_ne_none.2 hsome⟩)

end Aggregation

namespace Chart

variable {chart : Chart} {before after : List Stage} {a : Stage} {name : String}

/-- A name by which a channel of the chart is read. -/
def ReadBy (chart : Chart) (name : String) : Prop :=
  ∃ d ∈ chart.fieldDefs, d.2.outputName? = some name

/-- A channel that a unit has is one that it is read by. -/
theorem readBy_of_channel? (hu : chart.isUnit = true) {c : Channel} {f : FieldDef}
    (hf : chart.channel? c = some f) (h : f.outputName? = some name) : chart.ReadBy name := by
  cases chart with
  | unit header mark encoding stack => exact ⟨(c, f), SortedMap.mem_entries_iff.2 hf, h⟩
  | layer | facet => exact absurd hu (by simp [isUnit])

/-- A unit sorts by fields that its channels are read by. -/
theorem readBy_of_sortSpec? {sort : SortSpec} (h : sortSpec? chart = some sort)
    (hname : name ∈ sort.fields) : chart.ReadBy name := by
  cases chart with
  | unit header mark encoding stack =>
    rw [sortSpec?] at h
    obtain ⟨⟨f, order⟩, hf, h⟩ := Option.bind_eq_some_iff.1 h
    obtain ⟨field, hfield, rfl⟩ := Option.map_eq_some_iff.1 h
    obtain rfl : name = field := by simpa using hname
    -- the order comes from its own channel, or else from the one for x
    have hchannel : ∃ c, encoding.get? c = some f := by
      split at hf
      · next g hg =>
        obtain ⟨rfl, -⟩ := Prod.mk.inj (Option.some.inj hf)
        exact ⟨.order, hg⟩
      · split at hf
        · obtain ⟨g, hg, heq⟩ := Option.map_eq_some_iff.1 hf
          obtain ⟨rfl, -⟩ := Prod.mk.inj heq
          exact ⟨.x, hg⟩
        · exact absurd hf (by simp)
    obtain ⟨c, hc⟩ := hchannel
    exact readBy_of_channel? rfl hc hfield
  | layer | facet => exact absurd h (by simp [sortSpec?])

/-- What a stack takes from a channel is the field that the channel is read by. -/
theorem readBy_of_channelOutput (hu : chart.isUnit = true) {c : Channel}
    (h : Stacking.channelOutput chart c = .ok name) : chart.ReadBy name := by
  rw [Stacking.channelOutput] at h
  split at h
  · next output hout =>
    obtain rfl := Except.ok.inj h
    obtain ⟨f, hf, hout⟩ := Option.bind_eq_some_iff.1 hout
    exact readBy_of_channel? hu hf hout
  · exact absurd h (by simp)

/-- What a list of computations gives, one of them gives. -/
private theorem exists_of_mapM_ok {α β ε : Type} {f : α → Except ε β} {l : List α} {l' : List β}
    (h : l.mapM f = .ok l') : ∀ b ∈ l', ∃ a ∈ l, f a = .ok b := by
  induction l generalizing l' with
  | nil =>
    rw [List.mapM_nil] at h
    obtain rfl := Except.ok.inj h
    simp
  | cons a l ih =>
    rw [List.mapM_cons] at h
    obtain ⟨b, ha, h⟩ := bind_eq_ok h
    obtain ⟨bs, hl, h⟩ := bind_eq_ok h
    obtain rfl := Except.ok.inj h
    intro x hx
    rcases List.mem_cons.1 hx with rfl | hx
    · exact ⟨a, by simp, ha⟩
    · obtain ⟨y, hy, hfy⟩ := ih hl x hx
      exact ⟨y, List.mem_cons_of_mem a hy, hfy⟩

/-- A unit stacks by fields that its channels are read by. -/
theorem readBy_of_stacking {s : Stacking} (hu : chart.isUnit = true)
    (h : Stacking.ofChart? chart = .ok (some s)) (hname : name ∈ s.groupby ++ s.field :: s.stackBy) :
    chart.ReadBy name := by
  unfold Stacking.ofChart? at h
  split at h
  · next header mark encoding properties =>
    -- the field first, then the groups, then what the stack is sorted by
    obtain ⟨field, hfield, h⟩ := bind_eq_ok h
    obtain ⟨groupby, hgroup, h⟩ := bind_eq_ok h
    obtain ⟨stackBy, hby, h⟩ := bind_eq_ok h
    obtain rfl := Option.some.inj (Except.ok.inj h)
    simp only [List.mem_append, List.mem_cons] at hname
    rcases hname with hname | rfl | hname
    · obtain ⟨c, -, hc⟩ := exists_of_mapM_ok hgroup name hname
      exact readBy_of_channelOutput hu hc
    · exact readBy_of_channelOutput hu hfield
    · obtain ⟨c, -, hc⟩ := exists_of_mapM_ok hby name hname
      exact readBy_of_channelOutput hu hc
  · exact absurd h (by simp [pure, Except.pure])

/-- A unit drops values of fields that its channels are read by. -/
theorem readBy_of_positiveFilter? {flags : FieldFlags} (h : positiveFilter? chart = some flags)
    (hname : name ∈ flags.keys) : chart.ReadBy name := by
  rw [positiveFilter?] at h
  simp only at h
  split at h
  · exact absurd h (by simp)
  · obtain rfl := Option.some.inj h
    revert name
    -- every field of the flags so far is one that a channel is read by
    refine List.foldlRecOn (motive := fun flags : FieldFlags => ∀ {name : String},
      name ∈ flags.keys → chart.ReadBy name) _ _ (fun hname => ?_) fun flags ih d hd name hname => ?_
    · exact absurd hname (by simp [SortedMap.keys, EmptyCollection.emptyCollection,
        SortedMap.empty])
    · split at hname
      · next output _ hout =>
        rcases (SortedMap.mem_keys_upsert _ _ _ _).1 hname with rfl | hname
        · exact ⟨d, hd, hout⟩
        · exact ih hname
      · exact ih hname

/-- What a unit's stages read, other than its aggregation, its channels are read by. -/
theorem readBy_of_mem_reads (h : chart.stagesAfterRaw = .ok after) (hu : chart.isUnit = true)
    (ha : a ∈ after) (hne : a.tag ≠ .aggregate) (hname : name ∈ a.reads) : chart.ReadBy name := by
  obtain ⟨stacking, hs, rfl⟩ := stagesAfterRaw_ok h hu
  simp only [List.mem_append, List.mem_map, Option.mem_toList] at ha
  rcases ha with ((⟨g, -, rfl⟩ | ⟨sort, hsort, rfl⟩) | ⟨s, rfl, rfl⟩) | ⟨flags, hflags, rfl⟩
  · exact absurd rfl hne
  · exact readBy_of_sortSpec? hsort hname
  · exact readBy_of_stacking hu hs hname
  · exact readBy_of_positiveFilter? hflags hname

/-- Every field that a unit's stage reads is provided before the raw output or written by the
    aggregation, and the aggregation has it if it comes before. -/
theorem known_of_mem_reads (hb : chart.stagesBeforeRaw = .ok before) (hu : chart.isUnit = true)
    {l r : List Stage} (ha : chart.stagesAfterRaw = .ok (l ++ a :: r)) (hname : name ∈ a.reads) :
    (chart.Provides before name ∨ ∃ b ∈ l, name ∈ b.writes) ∧ ∀ g, .aggregate g ∈ l → g.Has name := by
  have htags := (stagesAfterRaw_grouping ha).2.1
  rw [List.map_append, List.map_cons] at htags
  -- every kind stands there once, so the stages before are of other kinds
  have hnotin : a.tag ∉ l.map Stage.tag := fun hmem =>
    (List.nodup_append.1 htags).2.2 _ hmem _ (by simp) rfl
  obtain ⟨stacking, -, hafter⟩ := stagesAfterRaw_ok ha hu
  have hof {g : Aggregation} (hg : .aggregate g ∈ l ++ a :: r) :
      Aggregation.ofChart? chart = some g := by
    rw [hafter] at hg
    simpa using hg
  by_cases htag : a.tag = .aggregate
  · -- an aggregation comes first
    obtain ⟨g, rfl⟩ : ∃ g, a = .aggregate g := by
      cases a <;> first | exact ⟨_, rfl⟩ | exact absurd htag (by simp [Stage.tag])
    refine ⟨.inl ((Aggregation.ofChart?_ok (hof (by simp)) hb).2 name hname), fun g' hg' => ?_⟩
    exact absurd (List.mem_map.2 ⟨_, hg', rfl⟩) hnotin
  · obtain ⟨d, hd, hout⟩ := readBy_of_mem_reads ha hu (by simp) htag hname
    cases hagg : Aggregation.ofChart? chart with
    | none =>
      refine ⟨.inl (provides_of_outputName? hb hd (Aggregation.ofChart?_none hagg d hd) hout),
        fun g hg => ?_⟩
      exact absurd (hagg.symm.trans (hof (List.mem_append_left _ hg))) (by simp)
    | some g =>
      obtain ⟨hall, hdims⟩ := Aggregation.ofChart?_ok hagg hb
      have hhas := hall d hd name hout
      -- it is the first stage, so it comes before the one that reads
      have hgl : .aggregate g ∈ l := by
        rw [hagg] at hafter
        cases l with
        | nil =>
          obtain ⟨rfl, -⟩ := List.cons.inj hafter
          exact absurd rfl htag
        | cons b l =>
          obtain ⟨rfl, -⟩ := List.cons.inj hafter
          simp
      refine ⟨?_, fun g' hg' => ?_⟩
      · rcases hhas with h | h
        · exact .inl (hdims name h)
        · exact .inr ⟨_, hgl, h⟩
      · obtain rfl := Option.some.inj (hagg.symm.trans (hof (List.mem_append_left _ hg')))
        exact hhas

/-! ### The units of a chart -/

/-- The charts inside a chart, the chart itself among them. -/
inductive Contains : Chart → Chart → Prop
  | self (c) : Contains c c
  | inside {c child inner} (hm : child ∈ c.children) (h : Contains child inner) : Contains c inner

/-- The last stage of a way through a chart's own stages, if it groups, comes after the raw
    output. -/
private theorem eq_append_of_grouping {chart : Chart} {w t before after : List Stage}
    (h : w ++ a :: t = before ++ chart.rawOutput :: (after ++ [chart.mainOutput]))
    (hbefore : a ∉ before) (hraw : a ≠ chart.rawOutput) (hmain : a ≠ chart.mainOutput) :
    ∃ l r, w = before ++ chart.rawOutput :: l ∧ after = l ++ a :: r := by
  rcases List.append_eq_append_iff.1 h with ⟨m, rfl, hm⟩ | ⟨m, rfl, hm⟩
  · cases m with
    | nil => exact absurd (List.cons.inj hm).1 hraw
    | cons x m =>
      obtain ⟨rfl, -⟩ := List.cons.inj hm
      exact absurd (by simp) hbefore
  · cases m with
    | nil => exact absurd (List.cons.inj hm).1.symm hraw
    | cons x m =>
      obtain ⟨hx, hafter⟩ := List.cons.inj hm
      subst hx
      rcases List.append_eq_append_iff.1 hafter with ⟨k, rfl, hk⟩ | ⟨k, rfl, hk⟩
      · cases k with
        | nil => exact absurd (List.cons.inj hk).1.symm hmain
        | cons y k => exact absurd (congrArg List.length hk) (by simp)
      · cases k with
        | nil => exact absurd (List.cons.inj hk).1 hmain
        | cons y k =>
          obtain ⟨rfl, -⟩ := List.cons.inj hk
          exact ⟨m, k, rfl, rfl⟩

/-- Every stage that groups is one of a unit, below the unit's own stages. -/
theorem Declares.exists_unit {outer : Option (List Stage)} {w way : List Stage}
    (h : Declares outer chart way) (hway : way = w ++ [a]) (ha : a.isGrouping = true)
    (ho : ∀ w ∈ outer, ∀ x ∈ w, x.isGrouping = false) :
    ∃ unit begin before l r, chart.Contains unit ∧ unit.isUnit = true ∧
      unit.stagesBeforeRaw = .ok before ∧ unit.stagesAfterRaw = .ok (l ++ a :: r) ∧
      w = begin ++ (before ++ unit.rawOutput :: l) ∧ ∀ x ∈ begin, x.isGrouping = false := by
  -- on how the way was declared: it ends in a chart's own stages, in a header, in a facet, or
  -- further inside
  induction h with
  | @chain outer chart begin stages way h hw =>
    have hbegin := h.starts.not_grouping ho
    obtain @⟨before, after, -, hbefore, hafter⟩ := h
    obtain ⟨t, ht⟩ := hw
    obtain rfl | ⟨way, x, rfl⟩ := List.eq_nil_or_concat' way
    · -- the way ends before the chart's own stages
      have hmem : a ∈ begin := by
        rw [List.append_nil] at hway
        simp [hway]
      exact absurd ha (by simp [hbegin a hmem])
    · rw [← List.append_assoc] at hway
      obtain ⟨rfl, hx⟩ := List.append_inj' hway rfl
      obtain rfl : x = a := by simpa using hx
      rw [List.append_assoc] at ht
      obtain ⟨l, r, rfl, rfl⟩ := eq_append_of_grouping ht
        (fun hmem => by
          have := tag_of_mem_stagesBeforeRaw hbefore hmem
          revert ha this
          cases x <;> simp [Stage.isGrouping, Stage.tag])
        (by rintro rfl; simp [rawOutput, Stage.isGrouping, Stage.tag] at ha)
        (by rintro rfl; simp [mainOutput, Stage.isGrouping, Stage.tag] at ha)
      refine ⟨chart, begin, before, l, r, .self chart, ?_, hbefore, hafter, rfl, hbegin⟩
      by_contra hu
      exact absurd ((stagesAfterRaw_grouping hafter).2.2 (by simpa using hu)) (by simp)
  | @header outer chart begin stages dimension stage h hh =>
    obtain ⟨-, hx⟩ := List.append_inj' hway rfl
    obtain rfl : stage = a := by simpa using hx
    unfold headerStage at hh
    split at hh
    · obtain rfl := Except.ok.inj hh
      simp [Stage.isGrouping, Stage.tag] at ha
    · exact absurd hh (by simp)
  | @facet outer chart begin stages p h hp =>
    obtain ⟨-, hx⟩ := List.append_inj' hway rfl
    obtain rfl : Stage.facet p = a := by simpa using hx
    simp [Stage.isGrouping, Stage.tag] at ha
  | @inside outer chart begin stages child way h hm hd ih =>
    obtain ⟨unit, rest⟩ := ih hway fun w hw => by
      obtain rfl := Option.some.inj hw
      refine h.not_grouping ?_ (h.starts.not_grouping ho)
      cases chart <;> simp_all [isUnit, children]
    obtain ⟨begin', before, l, r, hc, hrest⟩ := rest
    exact ⟨unit, begin', before, l, r, .inside hm hc, hrest⟩
  | loose hn hm hd ih =>
    obtain ⟨unit, begin', before, l, r, hc, hrest⟩ := ih hway fun w hw => absurd hw (by simp)
    exact ⟨unit, begin', before, l, r, .inside hm hc, hrest⟩

end Chart

/-! ### After hoisting -/

/-- A widened aggregation has what it had. -/
theorem Stage.Widened.has {fields : List String} {g g' : Aggregation}
    (h : Widened fields (.aggregate g) (.aggregate g')) {name : String} (hname : g.Has name) :
    g'.Has name := by
  cases h with
  | refl => exact hname
  | aggregate _ _ => exact hname.imp (List.mem_append_left _) id

/-- A widened stage writes what it wrote. -/
theorem Stage.Widened.writes {fields : List String} {a b : Stage} (h : Widened fields a b) :
    b.writes = a.writes := by
  cases h <;> rfl

/-- Only stages that derive write fields. -/
theorem Stage.derives_of_mem_writes {a : Stage} {name : String} (h : name ∈ a.writes) :
    a.derives = true := by
  cases a <;> simp_all [Stage.writes, Stage.generated, Stage.derives, Stage.tag]

/-- What is known where a stage that groups stands is known on a way that supplies it. -/
theorem Supplies.known {w w' : List (Nat × Stage)} (h : Supplies w w') {known : String → Prop}
    {name : String} (hname : known name ∨ ∃ e ∈ w, name ∈ e.2.writes)
    (hpass : ∀ e ∈ w, ∀ g, e.2 = .aggregate g → g.Has name) :
    Stage.Known known (w'.map Prod.snd) name := by
  refine Stage.known_of (hname.imp_right ?_) fun g hg => ?_
  · rintro ⟨e, he, hwrites⟩
    obtain ⟨e', he', fields, hwide⟩ := h.derives e he (Stage.derives_of_mem_writes hwrites)
    exact ⟨e'.2, List.mem_map_of_mem he', hwide.writes ▸ hwrites⟩
  · obtain ⟨e', he', heq⟩ := List.mem_map.1 hg
    obtain ⟨e, he, fields, hwide⟩ := h.aggregates e' he' (by rw [heq]; rfl)
    rw [heq] at hwide
    obtain ⟨g₀, hg₀⟩ : ∃ g₀, e.2 = .aggregate g₀ := by
      revert hwide
      generalize e.2 = a
      rintro (_ | ⟨g₀, _⟩) <;> exact ⟨_, rfl⟩
    exact (hg₀ ▸ hwide).has (hpass e he g₀ hg₀)

/-- In the flow of a chart, every stage that groups is one of a unit, and what it reads the unit
    takes from the source or has written above it. -/
theorem Building.reads_ok {chart : Chart} {built : Building}
    (h : Building.ofChart chart = .ok built) {v : Forest.Place Stage}
    (hv : v ∈ built.flow.stages.places []) (hg : v.content.isGrouping = true) :
    ∃ unit after, chart.Contains unit ∧ unit.isUnit = true ∧ unit.stagesAfterRaw = .ok after ∧
      v.content ∈ after ∧ ∀ name ∈ v.content.reads,
        (unit.Reads name ∨ ∃ e ∈ v.above, name ∈ e.2.writes) ∧
          ∀ e ∈ v.above, ∀ g, e.2 = .aggregate g → g.Has name := by
  have hway := (ofChart_built h).declared v hv
  obtain ⟨unit, begin, before, l, r, hc, hu, hb, ha, habove, hbegin⟩ :=
    hway.exists_unit (w := v.above.map Prod.snd) (a := v.content) (by simp [Forest.Place.route]) hg
      fun w hw => absurd hw (by simp)
  refine ⟨unit, l ++ v.content :: r, hc, hu, ha, by simp, fun name hname => ?_⟩
  obtain ⟨hwritten, hpass⟩ := Chart.known_of_mem_reads hb hu ha hname
  have hmem {b : Stage} (hb : b ∈ begin ++ (before ++ unit.rawOutput :: l)) :
      ∃ e ∈ v.above, e.2 = b := List.mem_map.1 (habove ▸ hb)
  refine ⟨?_, fun e he g hge => ?_⟩
  · rcases hwritten with (hread | ⟨b, hb, hw⟩) | ⟨b, hb, hw⟩
    · exact .inl hread
    · obtain ⟨e, he, rfl⟩ := hmem (b := b) (by simp [hb])
      exact .inr ⟨e, he, hw⟩
    · obtain ⟨e, he, rfl⟩ := hmem (b := b) (by simp [hb])
      exact .inr ⟨e, he, hw⟩
  · -- the only aggregation above is that of the unit
    have hin : Stage.aggregate g ∈ v.above.map Prod.snd := hge ▸ List.mem_map_of_mem he
    rw [habove] at hin
    simp only [List.mem_append, List.mem_cons] at hin
    rcases hin with hin | hin | hin | hin
    · exact absurd (hbegin _ hin) (by simp [Stage.isGrouping, Stage.tag])
    · exact absurd (Chart.tag_of_mem_stagesBeforeRaw hb hin) (by simp [Stage.tag])
    · exact absurd hin (by simp [Chart.rawOutput])
    · exact hpass g hin

/-- After hoisting and elimination, every aggregation, sorting, stack and filter for logarithmic
    scales is one of a unit, grouping by fields of facets above as well at most, and every field
    that the unit reads there is known there: its channels name it, or it is written above, and
    aggregations above pass it on.  And every stage but the conversions is still below all
    calculations that it was below. -/
theorem hoist_derives_before_reading {chart : Chart} {built : Building} {policy : FacetPolicy}
    {n : Nat} {hoisted : Flow} (hb : Building.ofChart chart = .ok built)
    (hh : Flow.hoist policy n built.flow = (.ok (), hoisted)) :
    (∀ v' ∈ ((Flow.eliminate : Edit CompileError Nat) hoisted).2.stages.places [],
      v'.content.isGrouping = true → ∃ v ∈ built.flow.stages.places [], v'.id = v.id ∧
        v.content.Widened (facetFields v.above) v'.content ∧
        ∃ unit after, chart.Contains unit ∧ unit.isUnit = true ∧
          unit.stagesAfterRaw = .ok after ∧ v.content ∈ after ∧
          ∀ name ∈ v.content.reads, Stage.Known unit.Reads (v'.above.map Prod.snd) name) ∧
    ∀ v' ∈ ((Flow.eliminate : Edit CompileError Nat) hoisted).2.stages.places [],
      v'.content.tag ≠ .parse → ∃ v ∈ built.flow.stages.places [], v'.id = v.id ∧
        ∀ e ∈ v.above, e.2.tag = .calculate → e ∈ v'.above := by
  have hlawful := Building.ofChart_lawful hb
  -- what hoisting and elimination leave traces back to what was built
  have htraces : built.flow.stages.Traces (hoisted.stages.prune Stage.isVacuous) :=
    (Forest.traces_of_hoist (Flow.hoist_ok hh hlawful) hlawful.narrow
      (Building.fenced_unlike hb)).trans (Forest.traces_prune hoisted.stages)
  constructor
  · intro v' hv' hg
    obtain ⟨v, hv, htraced⟩ := htraces v' hv' fun ht => by simp [Stage.isGrouping, ht] at hg
    have hgv := (Stage.isGrouping_congr htraced.tag_eq).symm.trans hg
    obtain ⟨hsupplies, hwide⟩ := htraced.grouping hgv
    obtain ⟨unit, after, hc, hu, ha, hmem, hreads⟩ := Building.reads_ok hb hv hgv
    refine ⟨v, hv, htraced.id_eq, hwide, unit, after, hc, hu, ha, hmem, fun name hname => ?_⟩
    obtain ⟨hwritten, hpass⟩ := hreads name hname
    exact hsupplies.known hwritten hpass
  · intro v' hv' ht
    obtain ⟨v, hv, htraced⟩ := htraces v' hv' ht
    exact ⟨v, hv, htraced.id_eq, htraced.calculations⟩

/-- A facet by `k` of a histogram of a calculated field, stacked by the bins. -/
def facetedHistogram : Chart :=
  .facet { data := some (.named "rows") } { column := some (.named "k" .nominal) }
    (.unit { transforms := [.calculate "datum.a * 2" "x"] } .bar
      (((∅ : Encoding).insert .x ((FieldDef.named "x" .quantitative).withBin (.flag true))).insert
        .y .count)
      (some { fieldChannel := .y, groupbyChannel := some .x }))

/-- A chart whose aggregation and stack read bins. -/
theorem hoist_derives_before_reading_facetedHistogram : ∃ built hoisted,
    Building.ofChart facetedHistogram = .ok built ∧
      Flow.hoist .foldGroupby 32 built.flow = (.ok (), hoisted) ∧
      (((Flow.eliminate : Edit CompileError Nat) hoisted).2.stages.places []).filterMap
          (fun v => if v.content.isGrouping then some (v.content.reads) else none) =
        [["bin_maxbins_10_x_start", "bin_maxbins_10_x_end"],
          ["bin_maxbins_10_x_start", "count_*"]] ∧
      ∀ v' ∈ ((Flow.eliminate : Edit CompileError Nat) hoisted).2.stages.places [],
        v'.content.isGrouping = true → ∃ v ∈ built.flow.stages.places [], v'.id = v.id ∧
          v.content.Widened (facetFields v.above) v'.content ∧
          ∃ unit after, facetedHistogram.Contains unit ∧ unit.isUnit = true ∧
            unit.stagesAfterRaw = .ok after ∧ v.content ∈ after ∧
            ∀ name ∈ v.content.reads, Stage.Known unit.Reads (v'.above.map Prod.snd) name := by
  have hruns : (match Building.ofChart facetedHistogram with
      | .ok built => (Flow.hoist .foldGroupby 32 built.flow).1.isOk &&
          (((Flow.eliminate : Edit CompileError Nat)
            (Flow.hoist .foldGroupby 32 built.flow).2).2.stages.places []).filterMap
              (fun v => if v.content.isGrouping then some (v.content.reads) else none) =
            [["bin_maxbins_10_x_start", "bin_maxbins_10_x_end"],
              ["bin_maxbins_10_x_start", "count_*"]]
      | .error _ => false) = true := by decide +kernel
  cases hb : Building.ofChart facetedHistogram with
  | error e => simp [hb] at hruns
  | ok built =>
    rw [hb] at hruns
    obtain ⟨hok, hreads⟩ := Bool.and_eq_true_iff.1 hruns
    have hh := Run.eq_ok_of_isOk hok
    exact ⟨built, _, rfl, hh, of_decide_eq_true hreads, (hoist_derives_before_reading hb hh).1⟩

end ChartPipeline
