import ChartPipeline.Proofs.Meaning

/-!
# What bins and time units derive

Bins and time units read fields of channels and set fields with names of their own: those of bins
begin with `bin`, those of time units with the name of the unit.  So neither overwrites what the
other derives, and if no channel reads a derived field they may be exchanged.

## Key results

- `Chart.wellNamed_of_mem_stagesBeforeRaw`: the stages of a chart read its channels
- `Interpretation.commute_bin_timeUnit`: bins and time units may be exchanged
-/

namespace ChartPipeline

/-! ### Names -/

/-- The fields that a binning sets. -/
def BinEntry.outputs (e : BinEntry) : List String :=
  e.step.start :: e.step.stop :: e.label.toList.map Prod.snd

/-- A binning that reads one of the given fields, and names what it derives. -/
def BinEntry.WellNamed (reads : String → Prop) (e : BinEntry) : Prop :=
  reads e.step.field ∧ ∀ field ∈ e.outputs, ∃ rest, field = "bin" ++ rest

namespace Stage

/-- The fields that a stage derives. -/
def generated : Stage → List String
  | bin bins => bins.values.flatMap BinEntry.outputs
  | timeUnit formulas => formulas.keys
  | _ => []

/-- Bins and time units that read some of the given fields, and name what they derive. -/
def WellNamed (reads : String → Prop) : Stage → Prop
  | bin bins => ∀ e ∈ bins.values, e.WellNamed reads
  | timeUnit formulas => ∀ e ∈ formulas.entries, ∃ (unit : TimeUnit) (field : String),
      reads field ∧ e = (unit.outputName field, unit.expression field)
  | _ => True

end Stage

/-- No time unit sets a field with the name of one that a binning sets. -/
theorem TimeUnit.outputName_ne (unit : TimeUnit) (field rest : String) :
    unit.outputName field ≠ "bin" ++ rest := by
  intro h
  have h := congrArg String.toList h
  rw [outputName] at h
  cases unit <;> simp [name, parts, TimePart.name, String.join, String.toList_append] at h

/-- The keys of bins begin with the word for them. -/
theorem BinParams.exists_fieldKey_eq (p : BinParams) (field : String) :
    ∃ rest, p.fieldKey field = "bin" ++ rest := by
  simp only [fieldKey, key, String.append_assoc]
  exact ⟨_, rfl⟩

/-- The fields that the channels or dimensions of a chart name. -/
def Chart.Reads (chart : Chart) (field : String) : Prop :=
  ∃ d ∈ chart.fieldDefs, d.2.field = some field

namespace Binning

variable {chart : Chart} {reads : String → Prop}

/-- The binnings are those at the keys. -/
theorem mem_values_iff {bins : Binning} {e : BinEntry} :
    e ∈ bins.values ↔ ∃ key, bins.get? key = some e := by
  constructor
  · intro he
    obtain ⟨⟨key, e⟩, hmem, rfl⟩ := List.mem_map.1 he
    exact ⟨key, SortedMap.mem_entries_iff.1 hmem⟩
  · rintro ⟨key, he⟩
    exact List.mem_map.2 ⟨(key, e), SortedMap.mem_entries_iff.2 he, rfl⟩

/-- A label is named by the key of its binning. -/
theorem label?_keyed {f : FieldDef} {key : String} {l : String × String}
    (h : label? chart f key = some l) : l.2 = key ++ "_" ++ BinField.range.ending := by
  rw [label?] at h
  split at h
  · obtain rfl := Option.some.inj h
    rfl
  · exact absurd h (by simp)

/-- So its name begins like that of a bin. -/
theorem label?_name {f : FieldDef} {params : BinParams} {field text name : String}
    (h : label? chart f (params.fieldKey field) = some (text, name)) :
    ∃ rest, name = "bin" ++ rest := by
  obtain ⟨rest, hrest⟩ := params.exists_fieldKey_eq field
  refine ⟨rest ++ "_" ++ BinField.range.ending, (label?_keyed h).trans ?_⟩
  simp only [hrest, String.append_assoc]

/-- Taking over a label keeps an entry well named. -/
theorem wellNamed_withLabel {f : FieldDef} {e : BinEntry} (he : e.WellNamed reads)
    (params : BinParams) (field : String) :
    (e.withLabel (label? chart f (params.fieldKey field))).WellNamed reads := by
  refine ⟨he.1, fun name hname => ?_⟩
  simp only [BinEntry.outputs, BinEntry.withLabel, List.mem_cons, List.mem_map,
    Option.mem_toList] at hname
  rcases hname with hname | hname | ⟨⟨text, name⟩, hlabel, rfl⟩
  · exact he.2 name (by simp [BinEntry.outputs, hname])
  · exact he.2 name (by simp [BinEntry.outputs, hname])
  -- a label that is there already is kept
  · cases hold : e.label with
    | some old =>
      rw [hold] at hlabel
      obtain rfl := Option.some.inj hlabel
      exact he.2 name (by simp [BinEntry.outputs, hold])
    | none =>
      rw [hold] at hlabel
      exact label?_name hlabel

/-- A new entry is well named. -/
theorem wellNamed_step {f : FieldDef} (params : BinParams) {field : String} (hf : reads field) :
    BinEntry.WellNamed reads {
      step := step chart params field (params.fieldKey field)
      label := label? chart f (params.fieldKey field) } := by
  obtain ⟨rest, hrest⟩ := params.exists_fieldKey_eq field
  refine ⟨hf, fun name hname => ?_⟩
  simp only [BinEntry.outputs, step, List.mem_cons, List.mem_map, Option.mem_toList] at hname
  rcases hname with rfl | rfl | ⟨⟨text, name⟩, hlabel, rfl⟩
  · exact ⟨rest ++ "_" ++ BinField.start.ending, by simp only [hrest, String.append_assoc]⟩
  · exact ⟨rest ++ "_" ++ BinField.stop.ending, by simp only [hrest, String.append_assoc]⟩
  · exact label?_name hlabel

/-- Adding a channel that bins a field checks the parameters, and then puts an entry at its key or
    takes over the label for the one that is there.  Any other channel adds nothing. -/
theorem addChannel_eq_ok {f : FieldDef} {bins bins' : Binning}
    (h : addChannel chart bins f = .ok bins') :
    (∃ params field, f.binParams? = some params ∧ f.field = some field ∧
      params.validate = .ok () ∧ bins' = bins.upsert (params.fieldKey field) fun
        | some entry => entry.withLabel (label? chart f (params.fieldKey field))
        | none => { step := step chart params field (params.fieldKey field)
                    label := label? chart f (params.fieldKey field) }) ∨
    (∀ params field, f.binParams? = some params → f.field ≠ some field) ∧ bins' = bins := by
  rw [addChannel] at h
  split at h
  · next params field hparams hfield =>
    obtain ⟨⟨⟩, hvalid, h⟩ := bind_eq_ok h
    exact .inl ⟨params, field, hparams, hfield, hvalid, (Except.ok.inj h).symm⟩
  · next hnone => exact .inr ⟨hnone, (Except.ok.inj h).symm⟩

/-- What is so of new entries, and stays so where a label is taken over, is so of all entries. -/
theorem forall_addChannel {P : BinEntry → Prop} {f : FieldDef} {bins bins' : Binning}
    (h : addChannel chart bins f = .ok bins')
    (hnew : ∀ params field, f.binParams? = some params → f.field = some field →
      P { step := step chart params field (params.fieldKey field)
          label := label? chart f (params.fieldKey field) })
    (hlabel : ∀ (params : BinParams) field e, P e →
      P (e.withLabel (label? chart f (params.fieldKey field))))
    (hbins : ∀ e ∈ bins.values, P e) : ∀ e ∈ bins'.values, P e := by
  rcases addChannel_eq_ok h with ⟨params, field, hparams, hfield, -, rfl⟩ | ⟨-, rfl⟩
  · intro e he
    obtain ⟨key, hkey⟩ := mem_values_iff.1 he
    -- an entry is at the key of the channel, old or new, or it was there before
    rw [SortedMap.get?_upsert] at hkey
    split at hkey
    · split at hkey
      · next old hold =>
        obtain rfl := Option.some.inj hkey
        exact hlabel params field old (hbins old (mem_values_iff.2 ⟨_, hold⟩))
      · obtain rfl := Option.some.inj hkey
        exact hnew params field hparams hfield
    · exact hbins e (mem_values_iff.2 ⟨key, hkey⟩)
  · exact hbins

/-- What adding a channel keeps, along with the channels that were added, is so of the binnings of
    all channels. -/
theorem ofChart?_keeps {P : List (Channel × FieldDef) → Binning → Prop} {bins : Option Binning}
    (h : ofChart? chart = .ok bins) (hempty : P [] ∅)
    (hadd : ∀ done d bins bins', d ∈ chart.fieldDefs → addChannel chart bins d.2 = .ok bins' →
      P done bins → P (done ++ [d]) bins') :
    ∃ bins', P chart.fieldDefs bins' ∧ bins = if bins'.isEmpty then none else some bins' := by
  -- an induction over the channels that are still to be added
  have hfold (ds done : List (Channel × FieldDef)) (hds : ∀ d ∈ ds, d ∈ chart.fieldDefs)
      {bins bins' : Binning}
      (h : ds.foldlM (fun bins d => addChannel chart bins d.2) bins = .ok bins')
      (hbins : P done bins) : P (done ++ ds) bins' := by
    induction ds generalizing done bins with
    | nil =>
      obtain rfl := Except.ok.inj h
      rwa [List.append_nil]
    | cons d ds ih =>
      rw [List.foldlM_cons] at h
      obtain ⟨bins₁, hd, h⟩ := bind_eq_ok h
      rw [List.append_cons]
      exact ih _ (fun d' hd' => hds d' (List.mem_cons_of_mem d hd')) h
        (hadd done d bins bins₁ (hds d List.mem_cons_self) hd hbins)
  obtain ⟨bins', hb, h⟩ := bind_eq_ok h
  exact ⟨bins', hfold _ [] (fun _ hd => hd) hb hempty, (Except.ok.inj h).symm⟩

/-- What is so of the binnings of all channels, by what a channel adds or takes over. -/
theorem forall_ofChart {P : BinEntry → Prop} {bins : Binning}
    (h : ofChart? chart = .ok (some bins))
    (hnew : ∀ d ∈ chart.fieldDefs, ∀ params field, d.2.binParams? = some params →
      d.2.field = some field → P { step := step chart params field (params.fieldKey field)
                                   label := label? chart d.2 (params.fieldKey field) })
    (hlabel : ∀ (f : FieldDef) (params : BinParams) field e, P e →
      P (e.withLabel (label? chart f (params.fieldKey field)))) : ∀ e ∈ bins.values, P e := by
  obtain ⟨bins', hall, hbins⟩ := ofChart?_keeps (P := fun _ bins => ∀ e ∈ bins.values, P e) h
    (fun e he => absurd he (by simp [SortedMap.values, EmptyCollection.emptyCollection,
      SortedMap.empty]))
    fun _ d _ _ hd hadd hbins => forall_addChannel hadd (hnew d hd) (hlabel d.2) hbins
  split at hbins
  · exact absurd hbins.symm (by simp)
  · obtain rfl := Option.some.inj hbins
    exact hall

/-- The bins of a chart are well named. -/
theorem wellNamed_ofChart {bins : Binning} (h : ofChart? chart = .ok (some bins)) :
    ∀ e ∈ bins.values, e.WellNamed chart.Reads :=
  forall_ofChart h (fun d hd params _ _ hfield => wellNamed_step params ⟨d, hd, hfield⟩)
    fun _ params field _ he => wellNamed_withLabel he params field

end Binning

/-- The time units of a chart read its channels. -/
theorem TimeFormulas.wellNamed_ofChart {chart : Chart} {formulas : TimeFormulas}
    (h : ofChart? chart = some formulas) : (Stage.timeUnit formulas).WellNamed chart.Reads := by
  rw [ofChart?] at h
  simp only at h
  split at h
  · exact absurd h (by simp)
  · obtain rfl := Option.some.inj h
    -- the formulas so far are those of channels
    refine List.foldlRecOn (motive := fun formulas => (Stage.timeUnit formulas).WellNamed
      chart.Reads) _ _ ?_ fun formulas hw d hd => ?_
    · exact fun e he => absurd he (by simp [EmptyCollection.emptyCollection, SortedMap.empty])
    obtain ⟨channel, f⟩ := d
    dsimp only
    split
    · next unit field hunit hfield =>
      intro e he
      rw [SortedMap.mem_entries_iff, SortedMap.insertIfNew, SortedMap.get?_upsert] at he
      split at he
      · next hkey =>
        -- a second channel with the same unit and field adds no formula
        cases hold : SortedMap.get? formulas (unit.outputName field) with
        | some text =>
          rw [hold] at he
          refine hw e (SortedMap.mem_entries_iff.2 ?_)
          rw [hkey, hold]
          exact he
        | none =>
          rw [hold] at he
          refine ⟨unit, field, ⟨(channel, f), hd, hfield⟩, Prod.ext hkey ?_⟩
          exact (Option.some.inj he).symm
      · exact hw e (SortedMap.mem_entries_iff.2 he)
    · exact hw

/-- The stages of a chart that bin or cut down read the fields of its channels. -/
theorem Chart.wellNamed_of_mem_stagesBeforeRaw {chart : Chart} {before : List Stage}
    (h : chart.stagesBeforeRaw = .ok before) {a : Stage} (ha : a ∈ before) :
    a.WellNamed chart.Reads := by
  obtain ⟨bins, hb, rfl⟩ := stagesBeforeRaw_ok h
  simp only [List.mem_append, List.mem_map, Option.mem_toList, transformStages] at ha
  rcases ha with (((⟨_, _, rfl⟩ | ⟨t, _, rfl⟩) | ⟨_, _, rfl⟩) | ⟨bins, rfl, rfl⟩) | ⟨_, hf, rfl⟩
  · trivial
  · cases t <;> trivial
  · trivial
  · exact Binning.wellNamed_ofChart hb
  · exact TimeFormulas.wellNamed_ofChart hf

/-! ### Exchanging bins and time units -/

/-- Two series of changes may be exchanged if every two of them may. -/
private theorem foldl_foldl_comm {α β σ : Type} {f : σ → α → σ} {g : σ → β → σ} {as : List α}
    {bs : List β} (h : ∀ a ∈ as, ∀ b ∈ bs, ∀ x, g (f x a) b = f (g x b) a) (x : σ) :
    bs.foldl g (as.foldl f x) = as.foldl f (bs.foldl g x) := by
  -- first one change past all of the others
  have hone (b : β) (as : List α) (h : ∀ a ∈ as, ∀ x, g (f x a) b = f (g x b) a) (x : σ) :
      g (as.foldl f x) b = as.foldl f (g x b) := by
    induction as generalizing x with
    | nil => rfl
    | cons a as ih =>
      rw [List.foldl_cons, ih (fun c hc => h c (List.mem_cons_of_mem a hc)), h a (by simp),
        List.foldl_cons]
  induction bs generalizing x with
  | nil => rfl
  | cons b bs ih =>
    rw [List.foldl_cons, hone b as (fun a ha => h a ha b (by simp)),
      ih fun a ha c hc => h a ha c (List.mem_cons_of_mem b hc), List.foldl_cons]

namespace Interpretation

variable {V E : Type} (I : Interpretation V E)

/-- A field that a binning does not set stays as it is. -/
theorem get?_entryRow {e : BinEntry} {field : String} (h : field ∉ e.outputs) (x : E) (r : Row V) :
    (I.entryRow e x r).get? field = r.get? field := by
  simp only [BinEntry.outputs, List.mem_cons, List.mem_map, Option.mem_toList, not_or, not_exists,
    not_and] at h
  obtain ⟨hstart, hstop, hlabel⟩ := h
  have hbin : (I.binRow e.step x r).get? field = r.get? field := by
    rw [binRow, SortedMap.get?_insert, if_neg hstop, SortedMap.get?_insert, if_neg hstart]
  rw [entryRow]
  cases hl : e.label with
  | none => exact hbin
  | some label =>
    have hne : field ≠ label.2 := fun heq => hlabel label hl heq.symm
    rw [Option.elim_some, labelRow, SortedMap.get?_insert, if_neg hne, hbin]

/-- Setting a field that a binning neither reads nor sets commutes with the binning of a row. -/
theorem entryRow_insert {e : BinEntry} {field : String} (hread : field ≠ e.step.field)
    (hset : field ∉ e.outputs) (v : V) (x : E) (r : Row V) :
    I.entryRow e x (r.insert field v) = (I.entryRow e x r).insert field v := by
  simp only [BinEntry.outputs, List.mem_cons, List.mem_map, Option.mem_toList, not_or, not_exists,
    not_and] at hset
  obtain ⟨hstart, hstop, hlabel⟩ := hset
  have hbin : I.binRow e.step x (r.insert field v) = (I.binRow e.step x r).insert field v := by
    rw [binRow, SortedMap.get?_insert, if_neg (fun heq => hread heq.symm), binRow,
      SortedMap.insert_comm r hstart, SortedMap.insert_comm _ hstop]
  rw [entryRow, entryRow]
  cases hl : e.label with
  | none => exact hbin
  | some label =>
    have hne : field ≠ label.2 := fun heq => hlabel label hl heq.symm
    rw [Option.elim_some, Option.elim_some, hbin, labelRow, labelRow, SortedMap.get?_insert,
      SortedMap.get?_insert, if_neg (fun heq => hstart heq.symm),
      if_neg (fun heq => hstop heq.symm), SortedMap.insert_comm _ hne]

variable {reads : String → Prop} {unit : TimeUnit} {field : String}

/-- Binning and setting one time unit commute. -/
theorem applyEntry_map_formulaRow {e : BinEntry} (he : e.WellNamed reads)
    (hread : unit.outputName field ≠ e.step.field) (hset : field ∉ e.outputs)
    (rows : List (Row V)) :
    I.applyEntry (rows.map (I.formulaRow (unit.expression field) (unit.outputName field))) e =
      (I.applyEntry rows e).map (I.formulaRow (unit.expression field) (unit.outputName field)) := by
  have hout : unit.outputName field ∉ e.outputs := by
    intro hmem
    obtain ⟨rest, hrest⟩ := he.2 _ hmem
    exact unit.outputName_ne field rest hrest
  -- the extent is that of a field which the time unit does not set
  have hextent : I.extentOf e.step
      (rows.map (I.formulaRow (unit.expression field) (unit.outputName field))) =
        I.extentOf e.step rows := by
    rw [extentOf, extentOf]
    cases e.step.extent with
    | bounds => rfl
    | signal =>
      refine congrArg I.extent ?_
      rw [List.map_map]
      refine List.map_congr_left fun r _ => ?_
      rw [Function.comp, formulaRow, SortedMap.get?_insert, if_neg (fun heq => hread heq.symm)]
  -- with one extent on both sides, the rows can be compared one by one
  rw [applyEntry, hextent, applyEntry, List.map_map, List.map_map]
  refine List.map_congr_left fun r _ => ?_
  rw [Function.comp, Function.comp, formulaRow, formulaRow, entryRow_insert I hread hout,
    I.evaluate_timeUnit unit field (I.get?_entryRow hset _ r)]

/-- Bins and time units may be exchanged if neither reads what the other derives. -/
theorem commute_bin_timeUnit {bins : Binning} {formulas : TimeFormulas}
    (hbins : (Stage.bin bins).WellNamed reads) (hunits : (Stage.timeUnit formulas).WellNamed reads)
    (hapart : ∀ field, reads field →
      field ∉ (Stage.bin bins).generated ∧ field ∉ (Stage.timeUnit formulas).generated) :
    I.Commute (.bin bins) (.timeUnit formulas) := by
  -- all formulas on each row, or each formula on all rows
  have hfold (es : List (String × String)) (rows : List (Row V)) :
      rows.map (fun r => es.foldl (fun r e => I.formulaRow e.2 e.1 r) r) =
        es.foldl (fun rows e => rows.map (I.formulaRow e.2 e.1)) rows := by
    induction es generalizing rows with
    | nil => exact List.map_id _
    | cons e es ih =>
      rw [List.foldl_cons, ← ih, List.map_map]
      rfl
  have happly (rows : List (Row V)) : I.apply (.timeUnit formulas) rows =
      formulas.entries.foldl (fun rows e => rows.map (I.formulaRow e.2 e.1)) rows :=
    hfold formulas.entries rows
  intro rows
  rw [happly, happly]
  show _ = bins.values.foldl I.applyEntry _
  refine foldl_foldl_comm (fun e he formula hformula rows => ?_) rows
  obtain ⟨unit, field, hread, rfl⟩ := hunits formula hformula
  have he' := hbins e he
  refine (I.applyEntry_map_formulaRow he' (fun heq => ?_) (fun hmem => ?_) rows).symm
  · refine (hapart _ he'.1).2 ?_
    rw [← heq]
    exact List.mem_map.2 ⟨_, hformula, rfl⟩
  · exact (hapart field hread).1 (List.mem_flatMap.2 ⟨e, he, hmem⟩)

end Interpretation

end ChartPipeline
