import ChartPipeline.Proofs.DatasetForms
import ChartPipeline.Proofs.Derived
import ChartPipeline.Proofs.Lineage

/-!
# Numbers on their way through a flow

The numbers of a chart come into its flow with the sources and the bins, as they are declared.  No
move of a pass makes a new number: joining stages, grouping by more fields and converting keep what
is so of all stages as long as it is so of what these three make.  So in the flow that is assembled,
all numbers are finite if those of the chart are.

## Key results

- `Building.forall_of_ofChart`: what is so of all stages that are built
- `Forest.Rewrites.forall_stages`: what a move of a pass keeps of all stages
- `optimizeFlow_finite`: the stages that are assembled for a finite chart are finite
-/

namespace ChartPipeline

/-- A stage with finite numbers. -/
def Stage.Finite : Stage → Prop
  | source s => s.data.Finite
  | bin bins => ∀ e ∈ bins.values, e.step.Finite
  | _ => True

/-! ### Charts -/

namespace Chart

variable {chart : Chart}

/-- Charts are finite together if each of them is. -/
theorem allFinite_iff {charts : List Chart} : AllFinite charts ↔ ∀ c ∈ charts, c.Finite := by
  induction charts with
  | nil => simp [AllFinite]
  | cons c rest ih => simp [AllFinite, ih]

/-- The header of a finite chart is finite. -/
theorem Finite.header (h : chart.Finite) : chart.header.Finite := by
  cases chart with
  | unit | layer | facet => exact h.1

/-- So are its field definitions. -/
theorem Finite.fieldDefs (h : chart.Finite) : ∀ d ∈ chart.fieldDefs, d.2.Finite := by
  cases chart with
  | unit header mark encoding stack => exact h.2
  | layer => exact fun d hd => absurd hd (by simp [Chart.fieldDefs])
  | facet header mapping child =>
    intro d hd
    simp only [Chart.fieldDefs, FacetMapping.fieldDefs, List.mem_append, List.mem_map,
      Option.mem_toList] at hd
    rcases hd with ⟨f, hf, rfl⟩ | ⟨f, hf, rfl⟩
    · exact h.2.1.column f hf
    · exact h.2.1.row f hf

/-- So are the charts inside it. -/
theorem Finite.children (h : chart.Finite) : ∀ c ∈ chart.children, c.Finite := by
  cases chart with
  | unit => exact fun c hc => absurd hc (by simp [Chart.children])
  | layer => exact allFinite_iff.1 h.2
  | facet => exact fun c hc => List.mem_singleton.1 hc ▸ h.2.2

end Chart

/-- The number of bins that is asked for by default fits. -/
theorem BinParams.Finite.normalized {p : BinParams} (h : p.Finite) : p.normalized.Finite := by
  unfold BinParams.normalized
  split
  · refine { h with maxbins := fun n hn => ?_ }
    obtain rfl := Option.some.inj hn
    decide
  · exact h

/-- The parameters of a binned field are finite, also those that stand for a mere flag. -/
theorem FieldDef.Finite.binParams {f : FieldDef} (h : f.Finite) {params : BinParams}
    (hp : f.binParams? = some params) : params.Finite := by
  obtain ⟨bin, hbin, hparams⟩ := Option.bind_eq_some_iff.1 hp
  cases bin with
  | flag on =>
    cases on with
    | false => exact absurd hparams (by simp [BinSpec.params?])
    | true =>
      have hnone : BinParams.Finite {} := ⟨nofun, nofun, nofun, nofun, nofun⟩
      exact Option.some.inj hparams ▸ hnone.normalized
  | params p => exact Option.some.inj hparams ▸ BinParams.Finite.normalized (h _ hbin)

/-- A binning step takes its numbers over from its parameters. -/
theorem Binning.finite_step {params : BinParams} (h : params.Finite) (chart : Chart)
    (field key : String) : (step chart params field key).Finite := by
  refine ⟨?_, h.maxbins, h.step, h.minstep, h.base⟩
  rw [step]
  cases he : params.extent with
  | none => trivial
  | some bounds => exact h.extent bounds he

/-- What is so of the source and of the bins that a chart declares, and of stages of other kinds. -/
structure Chart.Gives (P : Stage → Prop) (chart : Chart) : Prop where
  source : ∀ data, chart.header.data = some data → P (.source (.ofData data))
  bin : ∀ bins, Binning.ofChart? chart = .ok (some bins) → P (.bin bins)
  other : ∀ a, a.tag ∉ [Tag.source, Tag.bin] → P a

/-- The numbers of the source and of the bins are those of the chart. -/
theorem Chart.Finite.gives {chart : Chart} (h : chart.Finite) : chart.Gives Stage.Finite where
  source := h.header.data
  bin _ hb := Binning.forall_ofChart hb (fun d hd params _ hparams _ =>
    Binning.finite_step ((h.fieldDefs d hd).binParams hparams) chart _ _) fun _ _ _ _ he => he
  other a ha := by
    cases a with
    | source | bin => exact absurd ha (by simp [Stage.tag])
    | _ => trivial

namespace Chart.Gives

variable {P : Stage → Prop} {chart : Chart} {before : List Stage} {a : Stage}

/-- The stages up to the raw output are as said: the bins among them are those that the chart
    declares. -/
theorem of_mem_stagesBeforeRaw (hg : chart.Gives P) (h : chart.stagesBeforeRaw = .ok before)
    (ha : a ∈ before) : P a := by
  obtain ⟨bins, hb, rfl⟩ := stagesBeforeRaw_ok h
  simp only [List.mem_append, List.mem_map, Option.mem_toList, transformStages] at ha
  rcases ha with (((⟨_, _, rfl⟩ | ⟨t, _, rfl⟩) | ⟨_, _, rfl⟩) | ⟨bins, rfl, rfl⟩) | ⟨_, _, rfl⟩
  · exact hg.other _ (by simp [Stage.tag])
  · cases t with
    | filter => exact hg.other (.filter _) (by simp [Stage.tag])
    | calculate => exact hg.other (.calculate _ _) (by simp [Stage.tag])
  · exact hg.other _ (by simp [Stage.tag])
  · exact hg.bin bins hb
  · exact hg.other _ (by simp [Stage.tag])

/-- The headers and the facet below the main output are as said. -/
theorem of_mem_ends (hg : chart.Gives P) (ha : a ∈ chart.ends) : P a := by
  simp only [ends, List.mem_append, List.mem_flatMap, List.mem_map, Option.mem_toList] at ha
  rcases ha with ⟨_, -, _, -, rfl⟩ | ⟨_, -, rfl⟩ <;> exact hg.other _ (by simp [Stage.tag])

/-- Stages that group are neither sources nor bins. -/
theorem of_isGrouping (hg : chart.Gives P) (h : a.isGrouping = true) : P a := by
  cases a with
  | source | bin => cases h
  | _ => exact hg.other _ (by simp [Stage.tag])

/-- All stages between the start of a chart and its main output are as said. -/
theorem of_chain {outer : Option (List Stage)} {begin stages : List Stage} (hg : chart.Gives P)
    (h : Chain outer chart begin stages) : ∀ a ∈ stages, P a := by
  obtain ⟨-, hb, ha⟩ := h
  intro a hmem
  simp only [List.mem_append, List.mem_cons, List.not_mem_nil, or_false] at hmem
  rcases hmem with hmem | rfl | hmem | rfl
  · exact hg.of_mem_stagesBeforeRaw hb hmem
  · exact hg.other _ (by simp [rawOutput, Stage.tag])
  · exact hg.of_isGrouping ((stagesAfterRaw_grouping ha).1 a hmem)
  · exact hg.other _ (by simp [mainOutput, Stage.tag])

end Chart.Gives

/-! ### Building -/

namespace Building

variable {st st' : Building} {chart : Chart} {inherited : Option Nat}
  {outer : Option (List Stage)} {P : Nat → Prop} {Q : Stage → Prop} {c : Component}
  {first begin stages : List Stage} {head : Nat}

/-- All stages that are added for a chart are as said. -/
theorem Raised.forall_stages (h : Raised P outer inherited chart st c st' first begin stages head)
    (hg : chart.Gives Q) : ∀ a ∈ first ++ (stages ++ chart.ends), Q a := by
  intro a ha
  simp only [List.mem_append] at ha
  rcases ha with ha | ha | ha
  · obtain ⟨data, hdata, rfl⟩ := List.mem_map.1 (h.first_sublist.subset ha)
    exact hg.source data (Option.mem_toList.1 hdata)
  · exact hg.of_chain h.chain a ha
  · exact hg.of_mem_ends ha

/-- What each chart in a tree gives is so of all stages that are built; `C` is so of the charts in
    the tree. -/
theorem forall_of_ofChart {C : Chart → Prop} (h : ofChart chart = .ok st) (hc : C chart)
    (hchildren : ∀ c, C c → ∀ d ∈ c.children, C d) (hg : ∀ c, C c → c.Gives Q) :
    ∀ e ∈ st.flow.stages.toList, Q e.2 := by
  obtain ⟨stages, notes, hext, hall⟩ := (builds_of_ofChart h).extends_forall ready_empty
    (List.forall_mem_singleton.2 hc) hchildren fun hraised hc => hraised.forall_stages (hg _ hc)
  have hcontents : (st.flow.stages.toList.map Prod.snd).Perm stages :=
    hext.perm_contents ready_empty.sound
  exact fun e he => hall e.2 (hcontents.mem_iff.1 (List.mem_map_of_mem he))

end Building

/-! ### Passes -/

/-- What is so of joined stages, of stages that group by more fields and of conversions. -/
structure Stage.Hereditary (P : Stage → Prop) : Prop where
  merge {a b c : Stage} (h : a.merge? b = some c) (ha : P a) (hb : P b) : P c
  addDimensions {a : Stage} (dims : List String) (ha : P a) : P (a.addDimensions dims)
  parse (types : ParseTypes) : P (.parse types)

/-- A shared binning keeps the first one but for the labels it takes over. -/
theorem Binning.forall_values_merge {P : BinEntry → Prop} {bins other : Binning}
    (hlabel : ∀ entry new, P entry → P new → P (entry.withLabel new.label))
    (h : ∀ e ∈ bins.values, P e) (h' : ∀ e ∈ other.values, P e) :
    ∀ e ∈ (merge bins other).values, P e := by
  intro e he
  -- at each key stands an entry of one binning, or that of the first with a label of the second
  obtain ⟨key, hkey⟩ := mem_values_iff.1 he
  rw [merge, SortedMap.get?_mergeWith] at hkey
  split at hkey
  · next entry new hentry hnew =>
    obtain rfl := Option.some.inj hkey
    exact hlabel entry new (h entry (mem_values_iff.2 ⟨key, hentry⟩))
      (h' new (mem_values_iff.2 ⟨key, hnew⟩))
  · next entry hentry _ =>
    obtain rfl := Option.some.inj hkey
    exact h entry (mem_values_iff.2 ⟨key, hentry⟩)
  · exact h' e (mem_values_iff.2 ⟨key, hkey⟩)

/-- Binnings that are joined keep what is so of their steps. -/
theorem Binning.forall_merge {Q : BinStep → Prop} {bins other : Binning}
    (h : ∀ e ∈ bins.values, Q e.step) (h' : ∀ e ∈ other.values, Q e.step) :
    ∀ e ∈ (merge bins other).values, Q e.step :=
  forall_values_merge (fun _ _ hstep _ => hstep) h h'

/-- Stages that are made of finite stages are finite. -/
theorem Stage.hereditary_finite : Hereditary Stage.Finite where
  merge {a b c} h ha hb := by
    cases a <;> cases b <;> simp only [merge?, reduceCtorEq, Option.some.injEq] at h <;> subst h <;>
      try trivial
    exact Binning.forall_merge ha hb
  addDimensions {a} dims ha := by cases a <;> exact ha
  parse types := trivial

namespace Forest

variable {P : Stage → Prop} {pass : Pass} {policy : FacetPolicy} {f f' : Forest Stage}

/-- What is so of all nodes stays so where the trees below some nodes are exchanged. -/
theorem forall_fill (up : List (Frame Stage)) {t t' : Forest Stage}
    (h : ∀ e ∈ (fill up t).toList, P e.2)
    (ht : (∀ e ∈ t.toList, P e.2) → ∀ e ∈ t'.toList, P e.2) :
    ∀ e ∈ (fill up t').toList, P e.2 := by
  -- the trees are the lowest part that changes, and what is around them stays
  induction up generalizing t t' with
  | nil => exact ht h
  | cons fr up ih =>
    refine ih h fun hclose => ?_
    simp only [Frame.close, toList_append, toList, List.forall_mem_append,
      List.forall_mem_cons] at hclose ⊢
    exact ⟨hclose.1, hclose.2.1, ht hclose.2.2.1, hclose.2.2.2⟩

/-- A move keeps what is so of all stages, if joining, grouping by more fields and converting keep
    it. -/
theorem Rewrites.forall_stages (h : Rewrites pass policy f f') (hP : Stage.Hereditary P)
    (hf : ∀ e ∈ f.toList, P e.2) : ∀ e ∈ f'.toList, P e.2 := by
  -- what comes in is a joined stage, one that groups by more fields, or a conversion
  cases h with
  | join h up i gc =>
    refine forall_fill up hf fun ht => ?_
    simp only [Frame.close, toList_append, toList, List.forall_mem_append, List.forall_mem_cons,
      List.append_nil] at ht ⊢
    obtain ⟨hbefore, ha, ⟨hb, hgc⟩, hafter⟩ := ht
    exact ⟨hbefore, hP.merge h.merged ha hb, hgc, hafter⟩
  | rise h up i gc =>
    refine forall_fill up hf fun ht => ?_
    simp only [Frame.close, toList_append, toList, List.forall_mem_append, List.forall_mem_cons,
      List.append_nil] at ht ⊢
    obtain ⟨hbefore, ha, ⟨hb, hgc⟩, hafter⟩ := ht
    exact ⟨hbefore, hP.addDimensions _ hb, ⟨ha, hgc⟩, hafter⟩
  | drop h ht up cs hup =>
    refine forall_fill up hf fun ht => ?_
    simp only [Frame.close, toList_append, toList, List.forall_mem_append,
      List.forall_mem_cons] at ht ⊢
    obtain ⟨hbefore, -, hcs, hafter⟩ := ht
    exact ⟨hbefore, hcs, hafter⟩
  | put h hs up cs i types =>
    refine forall_fill (_ :: up) hf fun ht => ?_
    rw [toList_append, leaf, toList, List.forall_mem_append]
    exact ⟨ht, by simpa [toList] using hP.parse types⟩
  | widen h ht types' up cs =>
    refine forall_fill up hf fun ht => ?_
    simp only [Frame.close, toList_append, toList, List.forall_mem_append,
      List.forall_mem_cons] at ht ⊢
    obtain ⟨hbefore, -, hcs, hafter⟩ := ht
    exact ⟨hbefore, hP.parse types', hcs, hafter⟩

/-- So do passes, one after the other. -/
theorem forall_of_passes {passes : List Pass} (h : Flow.Passes policy passes f f')
    (hP : Stage.Hereditary P) (hf : ∀ e ∈ f.toList, P e.2) : ∀ e ∈ f'.toList, P e.2 :=
  h.rel (R := fun f f' => (∀ e ∈ f.toList, P e.2) → ∀ e ∈ f'.toList, P e.2) (fun _ hf => hf)
    (fun h h' hf => h' (h hf)) (fun h => h.forall_stages hP) hf

end Forest

variable {chart : Chart} {built : Building} {options : CompilerOptions} {flow : Flow}

/-- What is so of the stages that are built, and kept by the moves of passes, is so of the stages
    that are assembled. -/
theorem optimizeFlow_forall {P : Stage → Prop} (hb : Building.ofChart chart = .ok built)
    (hrun : options.optimizeFlow built.flow = (.ok (), flow)) (hP : Stage.Hereditary P)
    (hbuilt : ∀ e ∈ built.flow.stages.toList, P e.2) : ∀ e ∈ flow.stages.toList, P e.2 := by
  obtain ⟨f, hpasses, hst⟩ := options.passes_of_optimizeFlow (Building.ofChart_lawful hb) hrun
  have hf := Forest.forall_of_passes hpasses hP hbuilt
  rw [hst, Forest.toList_prune]
  exact fun e he => hf e (List.mem_of_mem_filter he)

/-- The stages that are assembled for a finite chart are finite. -/
theorem optimizeFlow_finite (hb : Building.ofChart chart = .ok built)
    (hrun : options.optimizeFlow built.flow = (.ok (), flow)) (hc : chart.Finite) :
    ∀ e ∈ flow.stages.toList, e.2.Finite :=
  optimizeFlow_forall hb hrun Stage.hereditary_finite <|
    Building.forall_of_ofChart hb hc (fun _ hc => hc.children) fun _ hc => hc.gives

end ChartPipeline
