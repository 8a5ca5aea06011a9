import ChartPipeline.Proofs.Growing

/-!
# The ways that a chart declares

A way is what data run through from a source on.  `Declares` lists the ways that a chart and the
charts inside it declare, going on from the end of another way if they take their data over.
Building a flow makes these ways and no others, and makes it lawful.

## Key results

- `Building.ofChart_built`: every way of the flow of a chart is one that the chart declares
- `Building.ofChart_lawful`: the flow of a chart is lawful
- `Chart.Declares.groupedOnce`: no kind of grouping stands twice on a declared way
-/

namespace ChartPipeline

namespace Chart

/-- The beginning of a chart's ways: a source of its data, or the way that it goes on from. -/
inductive Starts (outer : Option (List Stage)) (chart : Chart) : List Stage → Prop
  | own {data s} (hd : chart.header.data = some data)
      (hs : s.hash = (Source.ofData data).hash) : Starts outer chart [.source s]
  | outer {way} (hd : chart.header.data = none) (ho : outer = some way) : Starts outer chart way

/-- The stages of a chart itself, from its start to its main output. -/
inductive Chain (outer : Option (List Stage)) (chart : Chart) : List Stage → List Stage → Prop
  | mk {begin before after} (hs : Starts outer chart begin)
      (hb : chart.stagesBeforeRaw = .ok before) (ha : chart.stagesAfterRaw = .ok after) :
      Chain outer chart begin (before ++ chart.rawOutput :: (after ++ [chart.mainOutput]))

/-- The way that the charts inside go on from, after the stages of the chart itself. -/
def inside (chart : Chart) (way : List Stage) : List Stage :=
  way ++ (Partition.ofChart? chart).toList.map .facet

/-- The ways that a chart declares. -/
inductive Declares : Option (List Stage) → Chart → List Stage → Prop
  | chain {outer chart begin stages way} (h : Chain outer chart begin stages)
      (hw : way <+: stages) : Declares outer chart (begin ++ way)
  | header {outer chart begin stages dimension stage} (h : Chain outer chart begin stages)
      (hh : chart.headerStage dimension = .ok stage) :
      Declares outer chart (begin ++ stages ++ [stage])
  | facet {outer chart begin stages p} (h : Chain outer chart begin stages)
      (hp : Partition.ofChart? chart = some p) :
      Declares outer chart (begin ++ stages ++ [.facet p])
  | inside {outer chart begin stages child way} (h : Chain outer chart begin stages)
      (hm : child ∈ chart.children)
      (hd : Declares (some (chart.inside (begin ++ stages))) child way) :
      Declares outer chart way
  /-- A layer without any data has no stages of its own. -/
  | loose {h children child way} (hn : h.data = none) (hm : child ∈ children)
      (hd : Declares none child way) : Declares none (.layer h children) way

/-- A way that a chart declares begins with a source, unless it goes on from one that does not. -/
theorem Declares.rooted {outer : Option (List Stage)} {chart : Chart} {way : List Stage}
    (h : Declares outer chart way) (ho : ∀ w ∈ outer, ∃ s r, w = .source s :: r) :
    ∃ s r, way = .source s :: r := by
  -- a source of its own begins the way, or the way that the chart goes on from
  have begins {outer chart begin stages} (h : Chain outer chart begin stages)
      (ho : ∀ w ∈ outer, ∃ s r, w = .source s :: r) : ∃ s r, begin = .source s :: r := by
    obtain ⟨hs, -, -⟩ := h
    cases hs with
    | own hd hs => exact ⟨_, [], rfl⟩
    | outer hd hi => exact ho _ hi
  induction h with
  | chain h hw =>
    obtain ⟨s, r, rfl⟩ := begins h ho
    exact ⟨s, _, rfl⟩
  | header h hh =>
    obtain ⟨s, r, rfl⟩ := begins h ho
    exact ⟨s, _, rfl⟩
  | facet h hp =>
    obtain ⟨s, r, rfl⟩ := begins h ho
    exact ⟨s, _, rfl⟩
  | inside h hm hd ih =>
    refine ih fun w hw => ?_
    obtain rfl := Option.some.inj hw
    obtain ⟨s, r, rfl⟩ := begins h ho
    exact ⟨s, _, rfl⟩
  | loose hn hm hd ih => exact ih fun w hw => absurd hw (by simp)

/-! ### The kinds of stages on the ways -/

variable {chart : Chart} {outer : Option (List Stage)} {begin stages before after way : List Stage}

/-- The stages before the raw output, kind by kind. -/
theorem stagesBeforeRaw_ok (h : chart.stagesBeforeRaw = .ok before) :
    ∃ bins, Binning.ofChart? chart = .ok bins ∧
      before = (parseTypes? chart).toList.map .parse ++ chart.transformStages ++
        (nullFilter? chart).toList.map .nullFilter ++ bins.toList.map .bin ++
        (TimeFormulas.ofChart? chart).toList.map .timeUnit := by
  obtain ⟨bins, hb, h⟩ := bind_eq_ok h
  exact ⟨bins, mapError_eq_ok.1 hb, (Except.ok.inj h).symm⟩

/-- The stages before the raw output convert, clean and derive. -/
theorem tag_of_mem_stagesBeforeRaw (h : chart.stagesBeforeRaw = .ok before) {a : Stage}
    (ha : a ∈ before) :
    a.tag ∈ [Tag.parse, .filter, .calculate, .nullFilter, .bin, .timeUnit] := by
  obtain ⟨bins, -, rfl⟩ := stagesBeforeRaw_ok h
  simp only [List.mem_append, List.mem_map, Option.mem_toList, transformStages] at ha
  rcases ha with (((⟨_, _, rfl⟩ | ⟨t, _, rfl⟩) | ⟨_, _, rfl⟩) | ⟨_, _, rfl⟩) | ⟨_, _, rfl⟩
  · simp [Stage.tag]
  · cases t <;> simp [Stage.tag]
  · simp [Stage.tag]
  · simp [Stage.tag]
  · simp [Stage.tag]

/-- The stages after the raw output of a unit, kind by kind. -/
theorem stagesAfterRaw_ok (h : chart.stagesAfterRaw = .ok after) (hu : chart.isUnit = true) :
    ∃ stacking, Stacking.ofChart? chart = .ok stacking ∧
      after = (Aggregation.ofChart? chart).toList.map .aggregate ++
        (sortSpec? chart).toList.map .order ++ stacking.toList.map .stack ++
        (positiveFilter? chart).toList.map .positiveFilter := by
  rw [stagesAfterRaw, hu, if_pos rfl] at h
  obtain ⟨stacking, hs, h⟩ := bind_eq_ok h
  exact ⟨stacking, mapError_eq_ok.1 hs, (Except.ok.inj h).symm⟩

/-- Other charts have none there. -/
theorem stagesAfterRaw_eq_nil (h : chart.stagesAfterRaw = .ok after) (hu : chart.isUnit = false) :
    after = [] := by
  rw [stagesAfterRaw, hu] at h
  exact (Except.ok.inj h).symm

/-- The stages after the raw output group, each kind at most once, and only units have them. -/
theorem stagesAfterRaw_grouping (h : chart.stagesAfterRaw = .ok after) :
    (∀ a ∈ after, a.isGrouping = true) ∧ (after.map Stage.tag).Nodup ∧
      (chart.isUnit = false → after = []) := by
  cases hu : chart.isUnit with
  | false =>
    obtain rfl := stagesAfterRaw_eq_nil h hu
    exact ⟨by simp, by simp, fun _ => rfl⟩
  | true =>
    obtain ⟨stacking, -, rfl⟩ := stagesAfterRaw_ok h hu
    refine ⟨fun a ha => ?_, ?_, fun hf => absurd hf (by simp)⟩
    · simp only [List.mem_append, List.mem_map, Option.mem_toList] at ha
      rcases ha with ((⟨_, _, rfl⟩ | ⟨_, _, rfl⟩) | ⟨_, _, rfl⟩) | ⟨_, _, rfl⟩ <;> rfl
    · cases Aggregation.ofChart? chart <;> cases sortSpec? chart <;> cases stacking <;>
        cases positiveFilter? chart <;> simp [Stage.tag]

/-- A chart's chain begins where the chart does. -/
theorem Chain.starts (h : Chain outer chart begin stages) : Starts outer chart begin := by
  obtain ⟨hs, -, -⟩ := h
  exact hs

/-- A chart inside another one is not below a grouping stage. -/
theorem Chain.not_grouping (h : Chain outer chart begin stages) (hu : chart.isUnit = false)
    (hb : ∀ a ∈ begin, a.isGrouping = false) :
    ∀ a ∈ chart.inside (begin ++ stages), a.isGrouping = false := by
  obtain ⟨-, hbefore, hafter⟩ := h
  obtain rfl := (stagesAfterRaw_grouping hafter).2.2 hu
  intro a ha
  simp only [inside, List.mem_append, List.mem_cons, List.mem_map, List.nil_append,
    List.not_mem_nil, or_false] at ha
  rcases ha with (ha | ha | rfl | rfl) | ⟨_, _, rfl⟩
  · exact hb a ha
  · have := tag_of_mem_stagesBeforeRaw hbefore ha
    revert this
    cases a <;> simp [Stage.tag, Stage.isGrouping]
  · rfl
  · rfl
  · rfl

/-- Where a chart starts nothing groups, if nothing does on the way that it goes on from. -/
theorem Starts.not_grouping (h : Starts outer chart begin)
    (ho : ∀ w ∈ outer, ∀ a ∈ w, a.isGrouping = false) : ∀ a ∈ begin, a.isGrouping = false := by
  cases h with
  | own hd hs =>
    intro a ha
    obtain rfl := List.mem_singleton.1 ha
    rfl
  | outer hd hi => exact ho _ hi

/-- No kind of grouping stands twice on a way. -/
def GroupedOnce (way : List Stage) : Prop :=
  ((way.filter Stage.isGrouping).map Stage.tag).Nodup

/-- Stages that do not group do not count, if they come before. -/
theorem groupedOnce_append_of_not {way more : List Stage}
    (hw : ∀ a ∈ way, a.isGrouping = false) : GroupedOnce (way ++ more) ↔ GroupedOnce more := by
  rw [GroupedOnce, List.filter_append, List.filter_eq_nil_iff.2 (by simpa using hw), GroupedOnce,
    List.nil_append]

/-- A stage that does not group does not count, if it comes last. -/
theorem groupedOnce_concat {way : List Stage} {a : Stage} (ha : a.isGrouping = false) :
    GroupedOnce (way ++ [a]) ↔ GroupedOnce way := by
  rw [GroupedOnce, List.filter_append, List.filter_cons_of_neg (by simp [ha]), GroupedOnce,
    List.filter_nil, List.append_nil]

/-- On a chart's own chain no kind of grouping stands twice. -/
theorem Chain.groupedOnce (h : Chain outer chart begin stages)
    (hb : ∀ a ∈ begin, a.isGrouping = false) : GroupedOnce (begin ++ stages) := by
  obtain ⟨-, hbefore, hafter⟩ := h
  rw [groupedOnce_append_of_not hb, groupedOnce_append_of_not fun a ha => ?_,
    ← List.singleton_append, groupedOnce_append_of_not (by simp [rawOutput, Stage.isGrouping,
      Stage.tag]), groupedOnce_concat rfl]
  · obtain ⟨hall, hnodup, -⟩ := stagesAfterRaw_grouping hafter
    rw [GroupedOnce, List.filter_eq_self.2 hall]
    exact hnodup
  · have := tag_of_mem_stagesBeforeRaw hbefore ha
    revert this
    cases a <;> simp [Stage.tag, Stage.isGrouping]

/-- On a way that a chart declares, no kind of grouping stands twice. -/
theorem Declares.groupedOnce (h : Declares outer chart way)
    (ho : ∀ w ∈ outer, ∀ a ∈ w, a.isGrouping = false) : GroupedOnce way := by
  induction h with
  | chain h hw =>
    -- a part of the chain has no more grouping stages than the whole
    obtain ⟨r, rfl⟩ := hw
    have := h.groupedOnce (h.starts.not_grouping ho)
    rw [← List.append_assoc, GroupedOnce, List.filter_append, List.map_append] at this
    exact (List.nodup_append.1 this).1
  | @header outer chart begin stages dimension stage h hh =>
    refine (groupedOnce_concat ?_).2 (h.groupedOnce (h.starts.not_grouping ho))
    unfold headerStage at hh
    split at hh
    · obtain rfl := Except.ok.inj hh
      rfl
    · exact absurd hh (by simp)
  | facet h hp => exact (groupedOnce_concat rfl).2 (h.groupedOnce (h.starts.not_grouping ho))
  | @inside outer chart begin stages child way h hm hd ih =>
    refine ih fun w hw => ?_
    obtain rfl := Option.some.inj hw
    refine h.not_grouping ?_ (h.starts.not_grouping ho)
    cases chart <;> simp_all [isUnit, children]
  | loose hn hm hd ih => exact ih fun w hw => absurd hw (by simp)

end Chart

namespace Building

open Forest

/-! ### What building keeps -/

/-- A flow being built, all of whose ways are as said. -/
structure Built (W : List Stage → Prop) (st : Building) : Prop where
  nodup : st.flow.stages.walk.Nodup
  fresh : ∀ id ∈ st.flow.stages.walk, id < st.flow.next
  narrow : st.flow.stages.Narrow
  declared : ∀ v ∈ st.flow.stages.places [], W (v.route.map Prod.snd)
  sources : ∀ e ∈ st.sources, ∃ s, s.hash = e.1 ∧
    ⟨[], e.2, .source s⟩ ∈ st.flow.stages.places []
  /-- A facet with dimensions stands beside the headers of these. -/
  headed : ∀ v ∈ st.flow.stages.places [], ∀ p, v.content = .facet p → p.groupby ≠ [] →
    ∃ u ∈ st.flow.stages.places [], u.above = v.above ∧ u.id ≠ v.id

/-- A stage at the end of a way. -/
def At (st : Building) (id : Nat) (way : List Stage) : Prop :=
  ∃ v ∈ st.flow.stages.places [], v.id = id ∧ v.route.map Prod.snd = way

/-- A stage that may have several children. -/
def Forks (st : Building) (id : Nat) : Prop :=
  ∃ v ∈ st.flow.stages.places [], v.id = id ∧ v.content.mayFork = true

/-- A stage that another one may be put below: one that may have several children, or has none. -/
def Open (st : Building) (id : Nat) : Prop := Forks st id ∨ st.flow.stages.children id = []

/-- A stage that has children. -/
def Branches (st : Building) (id : Nat) : Prop :=
  ∃ v ∈ st.flow.stages.places [], v.id = id ∧ ∃ u ∈ st.flow.stages.places [], u.above = v.route

/-- The places that were there are there. -/
def Grows (st st' : Building) : Prop :=
  ∀ v ∈ st.flow.stages.places [], v ∈ st'.flow.stages.places []

variable {W : List Stage → Prop} {st st' st'' : Building} {id : Nat} {way : List Stage}

/-- What was there is there. -/
theorem Grows.refl (st : Building) : Grows st st := fun _ hv => hv

/-- Places stay while a flow grows and grows on. -/
theorem Grows.trans (h : Grows st st') (h' : Grows st' st'') : Grows st st'' :=
  fun v hv => h' v (h v hv)

/-- A stage that may have several children still may. -/
theorem Forks.mono (h : Forks st id) (hg : Grows st st') : Forks st' id := by
  obtain ⟨v, hv, hid, hm⟩ := h
  exact ⟨v, hg v hv, hid, hm⟩

/-- A stage that has children still has them. -/
theorem Branches.mono (h : Branches st id) (hg : Grows st st') : Branches st' id := by
  obtain ⟨v, hv, hid, u, hu, habove⟩ := h
  exact ⟨v, hg v hv, hid, u, hg u hu, habove⟩

/-- A stage at the end of a way is still there. -/
theorem At.mono (h : At st id way) (hg : Grows st st') : At st' id way := by
  obtain ⟨v, hv, hid, hway⟩ := h
  exact ⟨v, hg v hv, hid, hway⟩

/-- The next name is a new one. -/
theorem Built.next_notMem (h : Built W st) : st.flow.next ∉ st.flow.stages.walk :=
  fun hm => absurd (h.fresh _ hm) (Nat.lt_irrefl _)

/-- A place that a stage may be put below forks or has no children. -/
theorem At.open_iff (hst : Built W st) {v : Place Stage} (hv : v ∈ st.flow.stages.places [])
    (ho : Open st v.id) : v.content.mayFork = true ∨ st.flow.stages.children v.id = [] := by
  refine ho.imp (fun ⟨w, hw, hid, hm⟩ => ?_) id
  rwa [← place_inj hst.nodup hw hv hid]

/-- One new place keeps a flow built, if the way to it may be there.  A source may be noted with it,
    and a facet with dimensions stands beside another stage. -/
theorem Built.add (hst : Built W st) {w₀ : Place Stage} (hid : w₀.id = st.flow.next)
    (hnext : st'.flow.next = st.flow.next + 1) (hplaces : ∀ w, w ∈ st'.flow.stages.places [] ↔
      w ∈ st.flow.stages.places [] ∨ w = w₀)
    (hn : st'.flow.stages.walk.Nodup) (hnarrow : st'.flow.stages.Narrow)
    (hW : W (w₀.route.map Prod.snd))
    (hsources : ∀ e ∈ st'.sources, e ∈ st.sources ∨ ∃ s, s.hash = e.1 ∧ w₀ = ⟨[], e.2, .source s⟩)
    (hheaded : ∀ p, w₀.content = .facet p → p.groupby ≠ [] →
      ∃ u ∈ st.flow.stages.places [], u.above = w₀.above) : Built W st' where
  nodup := hn
  narrow := hnarrow
  fresh := by
    intro i hi
    obtain ⟨w, hw, rfl⟩ := mem_walk_iff.1 hi
    rw [hnext]
    rcases (hplaces w).1 hw with hw | rfl
    · exact Nat.lt_succ_of_lt (hst.fresh _ (mem_walk_iff.2 ⟨w, hw, rfl⟩))
    · exact Nat.lt_succ_of_le (Nat.le_of_eq hid)
  -- in each of these, a place is an old one or the new one
  declared := by
    intro w hw
    rcases (hplaces w).1 hw with hw | rfl
    · exact hst.declared w hw
    · exact hW
  sources := by
    intro e he
    rcases hsources e he with he | ⟨s, hs, rfl⟩
    · obtain ⟨s, hs, hmem⟩ := hst.sources e he
      exact ⟨s, hs, (hplaces _).2 (.inl hmem)⟩
    · exact ⟨s, hs, (hplaces _).2 (.inr rfl)⟩
  headed := by
    intro w hw p hp hne
    rcases (hplaces w).1 hw with hw | rfl
    · obtain ⟨u, hu, habove, hid⟩ := hst.headed w hw p hp hne
      exact ⟨u, (hplaces u).2 (.inl hu), habove, hid⟩
    · obtain ⟨u, hu, habove⟩ := hheaded p hp hne
      refine ⟨u, (hplaces u).2 (.inl hu), habove, fun hsame => hst.next_notMem ?_⟩
      exact mem_walk_iff.2 ⟨u, hu, hsame.trans hid⟩

/-- A stage put below another one is at the end of a longer way. -/
theorem edit_addChild (hst : Built W st) (hat : At st id way) (ho : Open st id) (stage : Stage)
    (hfork : ∀ p, stage = .facet p → p.groupby ≠ [] → Branches st id)
    (hW : W (way ++ [stage])) :
    ∃ id' st', edit (Flow.addChild id stage) st = (.ok id', st') ∧ Built W st' ∧
      At st' id' (way ++ [stage]) ∧ Open st' id' ∧ Grows st st' ∧ Branches st' id := by
  obtain ⟨v, hv, rfl, rfl⟩ := hat
  have hp : v.id ∈ st.flow.stages.walk := mem_walk_iff.2 ⟨v, hv, rfl⟩
  obtain ⟨flow', hrun, hstages, hnext⟩ :=
    Flow.addChild_run stage hst.nodup hp hst.next_notMem
  obtain ⟨hn, hchildren⟩ := nodup_attach hst.nodup hp hst.next_notMem stage
  -- the new stage is the only new place
  have hplaces (w : Place Stage) : w ∈ flow'.stages.places [] ↔
      w ∈ st.flow.stages.places [] ∨ w = ⟨v.route, st.flow.next, stage⟩ := by
    rw [hstages]
    exact mem_places_attach hst.nodup hv stage
  have hroute : (Place.mk v.route st.flow.next stage).route.map Prod.snd =
      v.route.map Prod.snd ++ [stage] := by
    simp [Place.route]
  have hbuilt : Built W { st with flow := flow' } := by
    refine hst.add rfl hnext hplaces (hstages ▸ hn) ?_ (hroute ▸ hW) (fun e he => .inl he) ?_
    · rw [hstages]
      exact narrow_attach hst.nodup hst.narrow hv (At.open_iff hst hv ho) stage
    · intro p hp hne
      obtain ⟨v', hv', hid, u, hu, habove⟩ := hfork p hp hne
      obtain rfl := place_inj hst.nodup hv' hv hid
      exact ⟨u, hu, habove⟩
  refine ⟨st.flow.next, { st with flow := flow' }, ?_, hbuilt, ?_, ?_, ?_, ?_⟩
  · rw [edit, hrun]
  · exact ⟨_, (hplaces _).2 (.inr rfl), rfl, hroute⟩
  · right
    show flow'.stages.children _ = []
    rw [hstages]
    exact hchildren
  · exact fun w hw => (hplaces w).2 (.inl hw)
  · exact ⟨v, (hplaces v).2 (.inl hv), rfl, _, (hplaces _).2 (.inr rfl), rfl⟩

/-- What putting a stage below another one has done, if it succeeded. -/
theorem edit_addChild_ok {id' : Nat} {stage : Stage}
    (h : edit (Flow.addChild id stage) st = (.ok id', st')) (hst : Built W st)
    (hat : At st id way) (ho : Open st id)
    (hfork : ∀ p, stage = .facet p → p.groupby ≠ [] → Branches st id) (hW : W (way ++ [stage])) :
    Built W st' ∧ At st' id' (way ++ [stage]) ∧ Open st' id' ∧ Grows st st' ∧ Branches st' id := by
  obtain ⟨id₁, st₁, hrun, hspec⟩ := edit_addChild hst hat ho stage hfork hW
  obtain ⟨hid, rfl⟩ := Prod.mk.inj (hrun.symm.trans h)
  obtain rfl : id₁ = id' := Except.ok.inj hid
  exact hspec

/-- A chain of stages is at the end of the way through all of them. -/
theorem chain_ok {stages : List Stage} {id' : Nat} (h : chain id stages st = (.ok id', st'))
    (hst : Built W st) (hat : At st id way) (ho : Open st id)
    (hno : ∀ p, .facet p ∉ stages) (hW : ∀ w, w <+: stages → W (way ++ w)) :
    Built W st' ∧ At st' id' (way ++ stages) ∧ Open st' id' ∧ Grows st st' := by
  -- stage by stage, each at the end of the way so far
  induction stages generalizing id way st with
  | nil =>
    obtain ⟨hid, rfl⟩ := Prod.mk.inj h
    obtain rfl : id = id' := Except.ok.inj hid
    exact ⟨hst, by rwa [List.append_nil], ho, .refl st⟩
  | cons stage rest ih =>
    obtain ⟨id₁, st₁, hadd, hrest⟩ := Run.bind_eq_ok h
    obtain ⟨hst₁, hat₁, ho₁, hg₁, -⟩ := edit_addChild_ok hadd hst hat ho
      (fun p hp _ => absurd (by simp [hp]) (hno p)) (hW [stage] (by simp))
    obtain ⟨hst₂, hat₂, ho₂, hg₂⟩ := ih hrest hst₁ hat₁ ho₁
      (fun p hp => hno p (List.mem_cons_of_mem _ hp)) fun w hw => by
      rw [List.append_assoc]
      exact hW (stage :: w) (by simpa using hw)
    rw [List.append_assoc] at hat₂
    exact ⟨hst₂, hat₂, ho₂, hg₁.trans hg₂⟩

/-- A chart starts at a source of its data, or at the stage that it goes on from. -/
theorem start_ok {chart : Chart} {inherited : Option Nat} {head : Nat}
    {outer : Option (List Stage)}
    (h : start chart inherited st = (.ok head, st')) (hst : Built W st)
    (hin : ∀ id ∈ inherited, ∃ way ∈ outer, At st id way ∧ Open st id)
    (hW : ∀ way, chart.Starts outer way → W way) :
    ∃ way, chart.Starts outer way ∧ Built W st' ∧ At st' head way ∧ Open st' head ∧
      Grows st st' := by
  unfold start at h
  cases hd : chart.header.data with
  | none =>
    cases inherited with
    | none =>
      rw [hd] at h
      exact absurd h Run.throw_ne_ok
    | some id =>
      rw [hd] at h
      obtain ⟨hid, rfl⟩ := Prod.mk.inj h
      obtain rfl : id = head := by simpa using hid
      obtain ⟨way, hover, hat, ho⟩ := hin id rfl
      exact ⟨way, .outer hd hover, hst, hat, ho, .refl st⟩
  | some data =>
    rw [hd] at h
    simp only [Run.bind_ok (Run.get_run st)] at h
    -- whether the same data was loaded before
    cases hfind : st.sources.find? (·.1 = (Source.ofData data).hash) with
    | some e =>
      rw [hfind] at h
      obtain ⟨hid, rfl⟩ := Prod.mk.inj h
      obtain rfl : e.2 = head := by simpa using hid
      obtain ⟨s, hs, hmem⟩ := hst.sources e (List.mem_of_find?_eq_some hfind)
      have hhash : e.1 = (Source.ofData data).hash := by simpa using List.find?_some hfind
      exact ⟨[.source s], .own hd (hs.trans hhash), hst, ⟨_, hmem, rfl, rfl⟩,
        .inl ⟨_, hmem, rfl, rfl⟩, .refl st⟩
    | none =>
      rw [hfind] at h
      obtain ⟨flow', hrun, hstages, hnext⟩ :=
        Flow.add_run FlowFault st.flow (.source (Source.ofData data))
      have hedit : edit (Flow.add (.source (Source.ofData data))) st =
          (.ok st.flow.next, { st with flow := flow' }) := by
        rw [edit, hrun]
      obtain ⟨hid, rfl⟩ := Prod.mk.inj ((Run.bind_ok hedit).symm.trans h)
      obtain rfl : st.flow.next = head := by simpa using hid
      have hplaces (w : Place Stage) : w ∈ flow'.stages.places [] ↔
          w ∈ st.flow.stages.places [] ∨
            w = ⟨[], st.flow.next, .source (Source.ofData data)⟩ := by
        rw [hstages]
        exact mem_places_append_leaf _
      have hway : chart.Starts outer [.source (Source.ofData data)] := .own hd rfl
      have hnew := (hplaces _).2 (.inr rfl)
      refine ⟨_, hway, hst.add rfl hnext hplaces ?_ ?_ (hW _ hway) (fun e he => ?_)
        (fun p hp => absurd hp (by simp)), ⟨_, hnew, rfl, rfl⟩, .inl ⟨_, hnew, rfl, rfl⟩,
        fun w hw => (hplaces w).2 (.inl hw)⟩
      · show flow'.stages.walk.Nodup
        rw [hstages, walk_append, leaf, walk_node, walk_nil, List.append_nil,
          ← List.concat_eq_append]
        exact hst.nodup.concat hst.next_notMem
      · show flow'.stages.Narrow
        rw [hstages]
        exact narrow_append.2 ⟨hst.narrow, by simp [leaf, Narrow, roots]⟩
      · rcases List.mem_cons.1 he with rfl | he
        · exact .inr ⟨_, rfl, rfl⟩
        · exact .inl he

/-- A stage at the end of a way forks if the last stage of the way does. -/
theorem At.forks {stage : Stage} (h : At st id (way ++ [stage])) (hm : stage.mayFork = true) :
    Forks st id := by
  obtain ⟨v, hv, rfl, hway⟩ := h
  refine ⟨v, hv, rfl, ?_⟩
  rw [Place.route, List.map_append] at hway
  obtain rfl : v.content = stage := by simpa using (List.append_inj' hway rfl).2
  exact hm

/-- Whether a chart inside can go on from a component, at the end of a way. -/
def GoesOn (st : Building) (c : Component) (way : List Stage) : Prop :=
  ∃ id, c.inheritedHead = some id ∧ At st id way ∧ Open st id

variable {chart : Chart} {main : Nat} {outer : Option (List Stage)} {begin stages : List Stage}

/-- A chain ends with the main output of its chart. -/
theorem forks_of_chain (hc : chart.Chain outer begin stages) (hat : At st id (begin ++ stages)) :
    Forks st id := by
  obtain ⟨before, after⟩ := hc
  rw [← List.cons_append, ← List.append_assoc, ← List.append_assoc] at hat
  exact hat.forks rfl

/-- A header is no facet. -/
theorem headerStage_ne_facet (dimension : Channel) (p : Partition) :
    chart.headerStage dimension ≠ .ok (.facet p) := by
  unfold Chart.headerStage
  split <;> simp

/-- A header is added below the main output of its chart, if its dimension is declared. -/
theorem addHeader_ok {declared : Option FieldDef} {dimension : Channel} {r : Option Nat}
    (h : (match declared with
      | none => pure none
      | some _ => some <$> (do edit (Flow.addChild main (← chart.headerStage dimension))) :
        Build (Option Nat)) st = (.ok r, st'))
    (hst : Built W st) (hc : chart.Chain outer begin stages) (hat : At st main (begin ++ stages))
    (hW : ∀ way, chart.Declares outer way → W way) :
    Built W st' ∧ Grows st st' ∧ (declared ≠ none → Branches st' main) := by
  cases declared with
  | none =>
    obtain ⟨-, rfl⟩ := Prod.mk.inj h
    exact ⟨hst, .refl st, fun hne => absurd rfl hne⟩
  | some f =>
    obtain ⟨id, st₁, he, hr⟩ := Run.bind_eq_ok h
    obtain ⟨-, rfl⟩ := Prod.mk.inj hr
    obtain ⟨stage, hstage, he⟩ := Run.lift_bind_ok he
    -- a header is no facet, so nothing has to be beside it
    obtain ⟨hst', -, -, hg, hb⟩ := edit_addChild_ok he hst hat (.inl (forks_of_chain hc hat))
      (fun p hp => absurd (hp ▸ hstage) (headerStage_ne_facet dimension p))
      (hW _ (.header hc hstage))
    exact ⟨hst', hg, fun _ => hb⟩

/-- Below a chain come the headers of a facet chart, and then its facet. -/
theorem addFacet_ok {c c' : Component} (h : addFacet chart main c st = (.ok c', st'))
    (hst : Built W st) (hc : chart.Chain outer begin stages) (hat : At st main (begin ++ stages))
    (hmain : c.main = some main) (hroot : c.facetRoot = none)
    (hW : ∀ way, chart.Declares outer way → W way) :
    Built W st' ∧ Grows st st' ∧ GoesOn st' c' (chart.inside (begin ++ stages)) := by
  -- a chart without a partition is gone on from at its main output
  have hsame (hp : Partition.ofChart? chart = none) :
      GoesOn st c (chart.inside (begin ++ stages)) := by
    refine ⟨main, by rw [Component.inheritedHead, hroot, hmain]; rfl, ?_,
      .inl (forks_of_chain hc hat)⟩
    rw [Chart.inside, hp]
    simpa using hat
  cases chart with
  | unit =>
    obtain ⟨hc', rfl⟩ := Prod.mk.inj h
    obtain rfl : c = c' := by simpa using hc'
    exact ⟨hst, .refl st, hsame rfl⟩
  | layer =>
    obtain ⟨hc', rfl⟩ := Prod.mk.inj h
    obtain rfl : c = c' := by simpa using hc'
    exact ⟨hst, .refl st, hsame rfl⟩
  | facet header mapping child =>
    obtain ⟨column, st₁, hcol, h⟩ := Run.bind_eq_ok h
    obtain ⟨hst₁, hg₁, hb₁⟩ := addHeader_ok hcol hst hc hat hW
    have hat₁ := hat.mono hg₁
    obtain ⟨row, st₂, hrow, h⟩ := Run.bind_eq_ok h
    obtain ⟨hst₂, hg₂, hb₂⟩ := addHeader_ok hrow hst₁ hc hat₁ hW
    have hat₂ := hat₁.mono hg₂
    obtain ⟨root, st₃, hroot, h⟩ := Run.bind_eq_ok h
    obtain ⟨hc', rfl⟩ := Prod.mk.inj h
    obtain ⟨id, st₄, hedit, hpure⟩ := Run.bind_eq_ok hroot
    obtain ⟨hid, rfl⟩ := Prod.mk.inj hpure
    obtain rfl : some id = root := Except.ok.inj hid
    obtain rfl : _ = c' := Except.ok.inj hc'
    -- where there is a dimension, its header is there already
    have hheaded {p : Partition} (hp : Partition.ofChart? (.facet header mapping child) = some p)
        (hne : p.groupby ≠ []) : Branches st₂ main := by
      by_cases hcolumn : mapping.column = none
      · refine hb₂ fun hrow => hne ?_
        obtain rfl := Option.some.inj hp
        simp [facetField?, FacetMapping.channel?, hcolumn, hrow]
      · exact (hb₁ hcolumn).mono hg₂
    obtain ⟨hst₄, hat₄, ho₄, hg₄, -⟩ := edit_addChild_ok hedit hst₂ hat₂
      (.inl (forks_of_chain hc hat₂)) (fun p hp => hheaded (congrArg some (Stage.facet.inj hp)))
      (hW _ (.facet hc rfl))
    exact ⟨hst₄, (hg₁.trans hg₂).trans hg₄, id, rfl, hat₄, ho₄⟩

/-- A chart's own stages make a chain from its start to its main output, and what is below it. -/
theorem addChain_ok {inherited : Option Nat} {c : Component}
    (h : addChain chart inherited st = (.ok c, st')) (hst : Built W st)
    (hin : ∀ id ∈ inherited, ∃ way ∈ outer, At st id way ∧ Open st id)
    (hW : ∀ way, chart.Declares outer way → W way) :
    Built W st' ∧ Grows st st' ∧ ∃ begin stages, chart.Chain outer begin stages ∧
      GoesOn st' c (chart.inside (begin ++ stages)) := by
  unfold addChain at h
  obtain ⟨head, st₁, hstart, h⟩ := Run.bind_eq_ok h
  obtain ⟨before, hb, h⟩ := Run.lift_bind_ok h
  obtain ⟨head', st₂, hbefore, h⟩ := Run.bind_eq_ok h
  obtain ⟨raw, st₃, hraw, h⟩ := Run.bind_eq_ok h
  obtain ⟨after, ha, h⟩ := Run.lift_bind_ok h
  obtain ⟨head'', st₄, hafter, h⟩ := Run.bind_eq_ok h
  obtain ⟨main, st₅, hmain, h⟩ := Run.bind_eq_ok h
  -- each stage of the chain ends a way that is declared
  have hprefix {begin way : List Stage} (hs : chart.Starts outer begin)
      (hw : way <+: before ++ chart.rawOutput :: (after ++ [chart.mainOutput])) :
      W (begin ++ way) :=
    hW _ (.chain (.mk hs hb ha) hw)
  obtain ⟨begin, hbegin, hst₁, hat₁, ho₁, hg₁⟩ := start_ok hstart hst hin
    fun way hs => by simpa using hprefix hs List.nil_prefix
  obtain ⟨hst₂, hat₂, ho₂, hg₂⟩ := chain_ok hbefore hst₁ hat₁ ho₁
    (fun p hp => absurd (Chart.tag_of_mem_stagesBeforeRaw hb hp) (by simp [Stage.tag]))
    fun w hw => hprefix hbegin (hw.trans (List.prefix_append _ _))
  obtain ⟨hst₃, hat₃, ho₃, hg₃, -⟩ := edit_addChild_ok hraw hst₂ hat₂ ho₂
    (fun p hp => absurd hp (by simp [Chart.rawOutput])) <| by
    rw [List.append_assoc]
    exact hprefix hbegin ⟨after ++ [chart.mainOutput], by simp⟩
  obtain ⟨hst₄, hat₄, ho₄, hg₄⟩ := chain_ok hafter hst₃ hat₃ ho₃
    (fun p hp => absurd ((Chart.stagesAfterRaw_grouping ha).1 _ hp) (by simp [Stage.isGrouping,
      Stage.tag])) fun w hw => by
    obtain ⟨r, rfl⟩ := hw
    rw [List.append_assoc, List.append_assoc]
    exact hprefix hbegin ⟨r ++ [chart.mainOutput], by simp⟩
  have hfull : begin ++ before ++ [chart.rawOutput] ++ after ++ [chart.mainOutput] =
      begin ++ (before ++ chart.rawOutput :: (after ++ [chart.mainOutput])) := by
    simp
  obtain ⟨hst₅, hat₅, ho₅, hg₅, -⟩ := edit_addChild_ok hmain hst₄ hat₄ ho₄
    (fun p hp => absurd hp (by simp [Chart.mainOutput])) <| by
    rw [hfull]
    exact hprefix hbegin (List.prefix_refl _)
  rw [hfull] at hat₅
  have hc : chart.Chain outer begin _ := .mk hbegin hb ha
  obtain ⟨hst₆, hg₆, hon⟩ := addFacet_ok h hst₅ hc hat₅ rfl rfl hW
  exact ⟨hst₆, ((((hg₁.trans hg₂).trans hg₃).trans hg₄).trans hg₅).trans hg₆, begin, _, hc, hon⟩

/-- A chart that is built has a chain, but for a layer that only groups charts. -/
theorem addChart_ok {inherited : Option Nat} {c : Component}
    (h : addChart chart inherited st = (.ok c, st')) (hst : Built W st)
    (hin : ∀ id ∈ inherited, ∃ way ∈ outer, At st id way ∧ Open st id)
    (hW : ∀ way, chart.Declares outer way → W way) :
    Built W st' ∧ Grows st st' ∧
      ((∃ begin stages, chart.Chain outer begin stages ∧
        GoesOn st' c (chart.inside (begin ++ stages))) ∨
      ∃ header children, chart = .layer header children ∧ header.data = none ∧
        inherited = none ∧ c.inheritedHead = none) := by
  have hchain (h : addChain chart inherited st = (.ok c, st')) := addChain_ok h hst hin hW
  -- only a layer without any data has no chain
  cases chart with
  | unit =>
    obtain ⟨hst', hg, hon⟩ := hchain h
    exact ⟨hst', hg, .inl hon⟩
  | facet =>
    obtain ⟨hst', hg, hon⟩ := hchain h
    exact ⟨hst', hg, .inl hon⟩
  | layer header children =>
    cases hd : header.data with
    | some data =>
      obtain ⟨hst', hg, hon⟩ := hchain (by simpa only [addChart, Chart.header, hd] using h)
      exact ⟨hst', hg, .inl hon⟩
    | none =>
      cases inherited with
      | some id =>
        obtain ⟨hst', hg, hon⟩ := hchain (by simpa only [addChart, Chart.header, hd] using h)
        exact ⟨hst', hg, .inl hon⟩
      | none =>
        simp only [addChart, Chart.header, hd] at h
        obtain ⟨hc, rfl⟩ := Prod.mk.inj h
        obtain rfl : _ = c := Except.ok.inj hc
        exact ⟨hst, .refl st, .inr ⟨_, _, rfl, hd, rfl, rfl⟩⟩

/-- Noting a component leaves the flow as it is. -/
theorem note_ok {c : Component} (h : note c st = (.ok (), st')) (hst : Built W st) :
    Built W st' ∧ Grows st st' := by
  obtain ⟨-, rfl⟩ := Prod.mk.inj h
  exact ⟨⟨hst.nodup, hst.fresh, hst.narrow, hst.declared, hst.sources, hst.headed⟩,
    fun _ hv => hv⟩

mutual

/-- Building a chart makes the ways that it declares. -/
theorem build_ok {inherited : Option Nat} :
    ∀ (chart : Chart) (outer : Option (List Stage)) {st st' : Building},
      build chart inherited st = (.ok (), st') → Built W st →
      (∀ id ∈ inherited, ∃ way ∈ outer, At st id way ∧ Open st id) →
      (inherited = none → outer = none) →
      (∀ way, chart.Declares outer way → W way) → Built W st' ∧ Grows st st'
  | .unit h mark encoding stack, outer, st, st', hrun, hst, hin, _, hW => by
    obtain ⟨c, st₁, hadd, hnote⟩ := Run.bind_eq_ok hrun
    obtain ⟨hst₁, hg₁, -⟩ := addChart_ok hadd hst hin hW
    obtain ⟨hst₂, hg₂⟩ := note_ok hnote hst₁
    exact ⟨hst₂, hg₁.trans hg₂⟩
  | .layer h children, outer, st, st', hrun, hst, hin, hnone, hW => by
    obtain ⟨c, st₁, hadd, hrun⟩ := Run.bind_eq_ok hrun
    obtain ⟨hst₁, hg₁, hon⟩ := addChart_ok hadd hst hin hW
    obtain ⟨_, st₂, hall, hnote⟩ := Run.bind_eq_ok hrun
    -- the layers inside go on from the main output, or have data of their own
    have hbuilt : Built W st₂ ∧ Grows st₁ st₂ := by
      rcases hon with ⟨begin, stages, hc, id, hid, hat, -⟩ | ⟨_, _, hlayer, hd, rfl, hhead⟩
      · have hinside : Chart.inside (.layer h children) (begin ++ stages) = begin ++ stages :=
          List.append_nil _
        rw [hid] at hall
        refine buildAll_ok children (some (begin ++ stages)) hall hst₁ (fun id' hid' => ?_)
          (fun e => absurd e (by simp)) fun child hm way hdecl =>
            hW way (.inside hc hm (by rwa [hinside]))
        obtain rfl : id = id' := by simpa using hid'
        rw [hinside] at hat
        exact ⟨_, rfl, hat, forks_of_chain hc hat⟩
      · obtain ⟨rfl, rfl⟩ := Chart.layer.inj hlayer
        obtain rfl := hnone rfl
        rw [hhead] at hall
        exact buildAll_ok children none hall hst₁ (fun id hid => absurd hid (by simp))
          (fun _ => rfl) fun child hm way hdecl => hW way (.loose hd hm hdecl)
    obtain ⟨hst₃, hg₃⟩ := note_ok hnote hbuilt.1
    exact ⟨hst₃, (hg₁.trans hbuilt.2).trans hg₃⟩
  | .facet h mapping child, outer, st, st', hrun, hst, hin, hnone, hW => by
    obtain ⟨c, st₁, hadd, hrun⟩ := Run.bind_eq_ok hrun
    obtain ⟨hst₁, hg₁, hon⟩ := addChart_ok hadd hst hin hW
    obtain ⟨_, st₂, hchild, hnote⟩ := Run.bind_eq_ok hrun
    -- the chart inside goes on from the facet
    have hbuilt : Built W st₂ ∧ Grows st₁ st₂ := by
      rcases hon with ⟨begin, stages, hc, id, hid, hat, ho⟩ | ⟨_, _, hlayer, -⟩
      · rw [hid] at hchild
        refine build_ok child (some _) hchild hst₁ (fun id' hid' => ?_)
          (fun e => absurd e (by simp)) fun way hdecl => hW way (.inside hc (by simp [Chart.children])
            hdecl)
        obtain rfl : id = id' := by simpa using hid'
        exact ⟨_, rfl, hat, ho⟩
      · exact absurd hlayer (by simp)
    obtain ⟨hst₃, hg₃⟩ := note_ok hnote hbuilt.1
    exact ⟨hst₃, (hg₁.trans hbuilt.2).trans hg₃⟩

/-- Building charts one after the other makes the ways that they declare. -/
theorem buildAll_ok {inherited : Option Nat} :
    ∀ (charts : List Chart) (outer : Option (List Stage)) {st st' : Building},
      buildAll charts inherited st = (.ok (), st') → Built W st →
      (∀ id ∈ inherited, ∃ way ∈ outer, At st id way ∧ Forks st id) →
      (inherited = none → outer = none) →
      (∀ chart ∈ charts, ∀ way, chart.Declares outer way → W way) → Built W st' ∧ Grows st st'
  | [], outer, st, st', hrun, hst, hin, hnone, hW => by
    obtain ⟨-, rfl⟩ := Prod.mk.inj hrun
    exact ⟨hst, .refl st⟩
  | chart :: rest, outer, st, st', hrun, hst, hin, hnone, hW => by
    obtain ⟨_, st₁, hchart, hrest⟩ := Run.bind_eq_ok hrun
    obtain ⟨hst₁, hg₁⟩ := build_ok chart outer hchart hst
      (fun id hid => by
        obtain ⟨way, hway, hat, hf⟩ := hin id hid
        exact ⟨way, hway, hat, .inl hf⟩)
      hnone (hW chart (by simp))
    -- the other charts go on from the same stage, which still forks
    obtain ⟨hst₂, hg₂⟩ := buildAll_ok rest outer hrest hst₁
      (fun id hid => by
        obtain ⟨way, hway, hat, hf⟩ := hin id hid
        exact ⟨way, hway, hat.mono hg₁, hf.mono hg₁⟩)
      hnone fun child hm => hW child (by simp [hm])
    exact ⟨hst₂, hg₁.trans hg₂⟩

end

/-- The flow of a chart has the ways that the chart declares, each name once, and forks only at
    sources and outputs. -/
theorem ofChart_built {chart : Chart} (h : ofChart chart = .ok st) :
    Built (chart.Declares none) st := by
  rw [ofChart] at h
  split at h
  · next hrun =>
    obtain rfl := Except.ok.inj h
    refine (build_ok chart none hrun ⟨?_, ?_, trivial, ?_, ?_, ?_⟩
      (fun id hid => absurd hid (by simp)) (fun _ => rfl) fun way hway => hway).1
    · exact List.nodup_nil
    · exact fun id hid => absurd hid (by simp [walk, toList])
    · exact fun v hv => absurd hv (by simp)
    · exact fun e he => absurd he (by simp)
    · exact fun v hv => absurd hv (by simp)
  · exact absurd h (by simp)

/-- The flow of a chart is lawful. -/
theorem ofChart_lawful {chart : Chart} (h : ofChart chart = .ok st) : st.flow.stages.Lawful := by
  have hb := ofChart_built h
  refine ⟨hb.nodup, hb.narrow, fun v hv x hx => ?_⟩
  obtain ⟨s, r, hway⟩ := (hb.declared v hv).rooted fun w hw => absurd hw (by simp)
  cases hroute : v.route with
  | nil => rw [hroute] at hx; exact absurd hx (by simp)
  | cons y ys =>
    rw [hroute] at hx hway
    obtain rfl : y = x := by simpa using hx
    obtain ⟨hy, -⟩ := List.cons.inj hway
    rw [show y.2 = .source s from hy]
    rfl

/-- In the flow of a chart, no kind of grouping stands twice on a way. -/
theorem ofChart_groupedOnce {chart : Chart} (h : ofChart chart = .ok st) {v : Place Stage}
    (hv : v ∈ st.flow.stages.places []) : Chart.GroupedOnce (v.route.map Prod.snd) :=
  ((ofChart_built h).declared v hv).groupedOnce fun w hw => absurd hw (by simp)

end Building

end ChartPipeline
