import ChartPipeline.Proofs.Declared

/-!
# One stage after the other

Building a flow adds sources and stages below others, and nothing else: `Extends` lists what is
added, and below which stages.  What adding one stage does is said once, and what building does
follows by induction over the additions.  The additions for a chart follow in turn from the chart
and those inside it, which `Builds` takes apart.

## Key results

- `Extends.sound`, `Extends.bottom`, `Extends.perm_contents`: what additions keep and bring
- `addChart_inv`: what is added for a chart itself
- `builds_of_ofChart`: building a chart adds what its parts ask for, one part after the other
- `Builds.extends_forall`: what is so of the stages of each chart is so of all that are added
-/

namespace ChartPipeline

namespace Forest

variable {α : Type}

/-- Nothing stands below a node. -/
def Bottom (f : Forest α) (id : Nat) : Prop := ∀ v ∈ f.places [], id ∉ v.above.map Prod.fst

/-- Nodes that come into a hole come into the forest. -/
theorem perm_toList_fill (up : List (Frame α)) (t t' : Forest α) (l : List (Nat × α))
    (h : t'.toList.Perm (t.toList ++ l)) :
    (fill up t').toList.Perm ((fill up t).toList ++ l) := by
  induction up generalizing t t' with
  | nil => exact h
  | cons fr up ih =>
    refine ih _ _ ?_
    rw [Frame.close, Frame.close, toList_append, toList_append, toList, toList, List.append_assoc]
    refine List.Perm.append_left _ ?_
    rw [List.cons_append, List.append_assoc]
    refine List.Perm.cons _ ((h.append_right _).trans ?_)
    rw [List.append_assoc]
    exact List.Perm.append_left _ List.perm_append_comm

/-- A node put below another one comes to those that were there. -/
theorem perm_toList_attach {f : Forest α} (hn : f.walk.Nodup) {parent : Nat}
    (hp : parent ∈ f.walk) (id : Nat) (a : α) :
    (f.attach parent (leaf id a)).toList.Perm (f.toList ++ [(id, a)]) := by
  obtain ⟨fr, up, cs, rfl, rfl⟩ := exists_fill_of_mem hp
  rw [attach_first hn]
  refine perm_toList_fill (fr :: up) cs _ _ ?_
  rw [toList_append, leaf]
  simp [toList]

/-- A stage added elsewhere does not come to stand below a node. -/
theorem Bottom.attach {f : Forest α} {id : Nat} (h : f.Bottom id) (hn : f.walk.Nodup)
    {parent : Nat} (hp : parent ∈ f.walk) (hne : parent ≠ id) (i : Nat) (a : α) :
    (f.attach parent (leaf i a)).Bottom id := by
  obtain ⟨v, hv, rfl⟩ := mem_walk_iff.1 hp
  intro w hw
  rcases (mem_places_attach hn hv a).1 hw with hw | rfl
  · exact h w hw
  · simp only [Place.route, List.map_append, List.mem_append, List.map_cons, List.map_nil,
      List.mem_singleton, not_or]
    exact ⟨h v hv, fun e => hne e.symm⟩

/-- Nothing stands below a new node. -/
theorem bottom_of_notMem {f : Forest α} {id : Nat} (hn : f.walk.Nodup) (h : id ∉ f.walk) :
    f.Bottom id := by
  intro v hv hid
  obtain ⟨before, after, up, cs, rfl, hup⟩ := exists_fill_of_place hn hv
  rw [← hup, trail, List.map_reverse, List.mem_reverse, List.map_map] at hid
  obtain ⟨fr, hfr, rfl⟩ := List.mem_map.1 hid
  refine h ((walk_fill_perm _ _).mem_iff.2 (List.mem_append_left _ ?_))
  rw [outside_cons]
  exact List.mem_append_right _ (List.mem_flatMap.2 ⟨fr, hfr, by simp [Frame.names]⟩)

end Forest

namespace Chart

/-- What stands below the main output of a chart: the headers of a facet's dimensions, and the
    facet. -/
def ends (chart : Chart) : List Stage :=
  ([Channel.column, .row].flatMap fun d => (FacetHeader.ofChart? chart d).toList.map .facetHeader) ++
    (Partition.ofChart? chart).toList.map .facet

/-- A dimension that a facet declares. -/
def declares (chart : Chart) (dimension : Channel) : Bool :=
  match chart with
  | .facet _ mapping _ => (mapping.channel? dimension).isSome
  | _ => false

variable {chart : Chart}

/-- No source is among the stages before the raw output. -/
theorem not_source_of_mem_stagesBeforeRaw {stages : List Stage}
    (h : chart.stagesBeforeRaw = .ok stages) : ∀ a ∈ stages, a.tag ≠ .source := by
  intro a ha ht
  have := tag_of_mem_stagesBeforeRaw h ha
  simp [ht] at this

/-- No source is among the stages after the raw output. -/
theorem not_source_of_mem_stagesAfterRaw {stages : List Stage}
    (h : chart.stagesAfterRaw = .ok stages) : ∀ a ∈ stages, a.tag ≠ .source := by
  intro a ha ht
  have := (stagesAfterRaw_grouping h).1 a ha
  simp [Stage.isGrouping, ht] at this

/-! ### Charts with what is around them -/

variable {σ : Type}

mutual

/-- A chart and the charts inside it, inner ones first, each with what `inside` makes of what is
    around it. -/
def inContext (inside : σ → Chart → σ) (outer : σ) : Chart → List (σ × Chart)
  | .unit h mark encoding stack => [(outer, .unit h mark encoding stack)]
  | .layer h children =>
    allInContext inside (inside outer (.layer h children)) children ++ [(outer, .layer h children)]
  | .facet h mapping child =>
    inContext inside (inside outer (.facet h mapping child)) child ++ [(outer, .facet h mapping child)]

/-- The charts of a list and those inside them. -/
def allInContext (inside : σ → Chart → σ) (outer : σ) : List Chart → List (σ × Chart)
  | [] => []
  | chart :: rest => inContext inside outer chart ++ allInContext inside outer rest

end

/-- A single chart and the charts inside it. -/
theorem allInContext_singleton (inside : σ → Chart → σ) (outer : σ) (chart : Chart) :
    allInContext inside outer [chart] = inContext inside outer chart := by
  rw [allInContext, allInContext, List.append_nil]

/-- The charts inside come before the chart itself. -/
theorem inContext_eq (inside : σ → Chart → σ) (outer : σ) (chart : Chart) :
    chart.inContext inside outer =
      allInContext inside (inside outer chart) chart.children ++ [(outer, chart)] := by
  cases chart with
  | unit => rw [inContext, children, allInContext, List.nil_append]
  | layer => rw [inContext, children]
  | facet => rw [inContext, children, allInContext_singleton]

/-- A property of charts with what is around them that holds of no charts, of charts side by side,
    and of a chart together with those inside it. -/
structure Compositional (inside : σ → Chart → σ) (P : σ → List (σ × Chart) → Prop) : Prop where
  nil (outer : σ) : P outer []
  append {outer : σ} {xs ys : List (σ × Chart)} (hx : P outer xs) (hy : P outer ys) :
    P outer (xs ++ ys)
  inside {outer : σ} {chart : Chart} {xs : List (σ × Chart)} (h : P (inside outer chart) xs) :
    P outer (xs ++ [(outer, chart)])

mutual

/-- Such a property holds of all charts in a tree. -/
theorem Compositional.inContext {inside : σ → Chart → σ} {P : σ → List (σ × Chart) → Prop}
    (h : Compositional inside P) :
    (chart : Chart) → ∀ outer, P outer (chart.inContext inside outer)
  | .unit .., _ => h.inside (h.nil _)
  | .layer _ children, _ => h.inside (h.allInContext children _)
  | .facet _ _ child, _ => h.inside (h.inContext child _)

/-- It holds of all charts in a list of trees. -/
theorem Compositional.allInContext {inside : σ → Chart → σ} {P : σ → List (σ × Chart) → Prop}
    (h : Compositional inside P) :
    (charts : List Chart) → ∀ outer, P outer (allInContext inside outer charts)
  | [], outer => h.nil outer
  | chart :: rest, outer => h.append (h.inContext chart outer) (h.allInContext rest outer)

end

end Chart

namespace Building

open Forest

/-- A flow being built: no name stands twice, the next name is new, and the sources noted begin
    trees and are those of declarations with the hashes noted. -/
structure Sound (st : Building) : Prop where
  nodup : st.flow.stages.walk.Nodup
  fresh : ∀ id ∈ st.flow.stages.walk, id < st.flow.next
  sources : ∀ e ∈ st.sources, ∃ data, Source.hashOf data = e.1 ∧
    ⟨[], e.2, .source (.ofData data)⟩ ∈ st.flow.stages.places []

variable {st st₁ st' : Building} {id parent : Nat} {stage : Stage} {stages way : List Stage}

/-- The next name is a new one. -/
theorem Sound.next_notMem (h : Sound st) : st.flow.next ∉ st.flow.stages.walk :=
  fun hm => absurd (h.fresh _ hm) (Nat.lt_irrefl _)

/-- Nothing has been built at first. -/
theorem sound_empty : Sound {} where
  nodup := List.nodup_nil
  fresh id hid := absurd hid (by simp [walk, toList])
  sources e he := absurd he (by simp)

/-- A stage that is there has an earlier name than the next one. -/
theorem At.lt_next (h : At st id way) (hst : Sound st) : id < st.flow.next := by
  obtain ⟨v, hv, rfl, -⟩ := h
  exact hst.fresh _ (mem_walk_iff.2 ⟨v, hv, rfl⟩)

/-! ### Adding one stage -/

/-- A stage that was added below another one. -/
structure Planted (parent : Nat) (stage : Stage) (st : Building) (id : Nat) (st' : Building) :
    Prop where
  parent_mem : parent ∈ st.flow.stages.walk
  id_eq : id = st.flow.next
  stages_eq : st'.flow.stages = st.flow.stages.attach parent (leaf id stage)
  next_eq : st'.flow.next = st.flow.next + 1
  sources_eq : st'.sources = st.sources
  components_eq : st'.components = st.components

/-- A stage can only be added below one that is there. -/
theorem mem_walk_of_addChild {flow flow' : Flow}
    (h : Flow.addChild parent stage flow = (.ok id, flow')) : parent ∈ flow.stages.walk := by
  obtain ⟨new, flow₁, hadd, h⟩ := Run.bind_eq_ok h
  obtain ⟨hnew, rfl⟩ := Prod.mk.inj hadd
  obtain rfl : flow.next = new := Except.ok.inj hnew
  obtain ⟨_, flow₂, hset, -⟩ := Run.bind_eq_ok h
  unfold Flow.setParent at hset
  split at hset
  · exact absurd (congrArg Prod.fst hset) (by simp)
  · next hcycle =>
    split at hset
    · exact absurd (congrArg Prod.fst hset) (by simp)
    · next hat =>
      -- the parent was found when the stage had been added, so it is this stage or was there
      have hin : parent ∈ (flow.stages ++ leaf flow.next stage).walk := by
        rw [← contains_iff]
        simpa [Flow.isAttached, Flow.restructure] using hat
      rw [walk_append, leaf, walk_node, walk_nil, List.mem_append] at hin
      refine hin.resolve_right fun hnext => hcycle ?_
      rw [Bool.or_eq_true]
      left
      simpa using (List.mem_singleton.1 hnext).symm

/-- A stage that was added below another one is planted. -/
theorem edit_addChild_inv (h : edit (Flow.addChild parent stage) st = (.ok id, st'))
    (hst : Sound st) : Planted parent stage st id st' := by
  rw [edit] at h
  split at h
  · next id₁ flow₁ hrun =>
    obtain ⟨hid, rfl⟩ := Prod.mk.inj h
    obtain rfl : id₁ = id := Except.ok.inj hid
    have hp := mem_walk_of_addChild hrun
    obtain ⟨flow', hrun', hstages, hnext⟩ :=
      Flow.addChild_run stage hst.nodup hp hst.next_notMem
    obtain ⟨hid, rfl⟩ := Prod.mk.inj (hrun'.symm.trans hrun)
    obtain rfl : _ = id₁ := Except.ok.inj hid
    exact ⟨hp, rfl, hstages, hnext, rfl, rfl⟩
  · exact absurd (congrArg Prod.fst h) (by simp)

/-- The planted stage is the only new place. -/
theorem Planted.mem_places (h : Planted parent stage st id st') (hst : Sound st)
    {v : Place Stage} (hv : v ∈ st.flow.stages.places []) (hid : v.id = parent)
    {w : Place Stage} :
    w ∈ st'.flow.stages.places [] ↔ w ∈ st.flow.stages.places [] ∨ w = ⟨v.route, id, stage⟩ := by
  subst hid
  rw [h.stages_eq]
  exact mem_places_attach hst.nodup hv stage

/-- The places that were there are there. -/
theorem Planted.grows (h : Planted parent stage st id st') (hst : Sound st) : Grows st st' := by
  obtain ⟨v, hv, hid⟩ := mem_walk_iff.1 h.parent_mem
  exact fun w hw => (h.mem_places hst hv hid).2 (.inl hw)

/-- Planting a stage keeps names apart and sources noted. -/
theorem Planted.sound (h : Planted parent stage st id st') (hst : Sound st) : Sound st' where
  nodup := by
    rw [h.stages_eq, h.id_eq]
    exact (nodup_attach hst.nodup h.parent_mem hst.next_notMem stage).1
  fresh i hi := by
    obtain ⟨v, hv, hid⟩ := mem_walk_iff.1 h.parent_mem
    obtain ⟨w, hw, rfl⟩ := mem_walk_iff.1 hi
    rw [h.next_eq]
    rcases (h.mem_places hst hv hid).1 hw with hw | rfl
    · exact Nat.lt_succ_of_lt (hst.fresh _ (mem_walk_iff.2 ⟨w, hw, rfl⟩))
    · exact h.id_eq ▸ Nat.lt_succ_self _
  sources e he := by
    rw [h.sources_eq] at he
    obtain ⟨data, hdata, hmem⟩ := hst.sources e he
    exact ⟨data, hdata, h.grows hst _ hmem⟩

/-- The new stage is at the end of the way to its parent. -/
theorem Planted.at (h : Planted parent stage st id st') (hst : Sound st) (hat : At st parent way) :
    At st' id (way ++ [stage]) := by
  obtain ⟨v, hv, hid, rfl⟩ := hat
  exact ⟨_, (h.mem_places hst hv hid).2 (.inr rfl), rfl, by simp [Place.route]⟩

/-- The state after a source was added and noted. -/
def addSource (st : Building) (source : Source) : Building :=
  { st with
    flow := { st.flow.restructure (· ++ .leaf st.flow.next (Stage.source source)) with
      next := st.flow.next + 1 }
    sources := (source.hash, st.flow.next) :: st.sources }

/-- A source that is added is the only new place. -/
theorem mem_places_addSource {source : Source} {w : Place Stage} :
    w ∈ (st.addSource source).flow.stages.places [] ↔
      w ∈ st.flow.stages.places [] ∨ w = ⟨[], st.flow.next, .source source⟩ :=
  mem_places_append_leaf _

/-- Adding a source leaves the places that were there. -/
theorem grows_addSource (st : Building) (source : Source) : Grows st (st.addSource source) :=
  fun _ hv => mem_places_addSource.2 (.inl hv)

/-- Adding a source keeps names apart and sources noted. -/
theorem Sound.addSource (hst : Sound st) (data : DataSource) :
    Sound (st.addSource (.ofData data)) where
  nodup := by
    show (st.flow.stages ++ leaf st.flow.next (Stage.source (.ofData data))).walk.Nodup
    rw [walk_append, leaf, walk_node, walk_nil, List.append_nil, ← List.concat_eq_append]
    exact hst.nodup.concat hst.next_notMem
  fresh i hi := by
    obtain ⟨w, hw, rfl⟩ := mem_walk_iff.1 hi
    show w.id < st.flow.next + 1
    rcases mem_places_addSource.1 hw with hw | rfl
    · exact Nat.lt_succ_of_lt (hst.fresh _ (mem_walk_iff.2 ⟨w, hw, rfl⟩))
    · exact Nat.lt_succ_self _
  sources e he := by
    rcases List.mem_cons.1 he with rfl | he
    · exact ⟨data, rfl, mem_places_addSource.2 (.inr rfl)⟩
    · obtain ⟨declared, hhash, hmem⟩ := hst.sources e he
      exact ⟨declared, hhash, grows_addSource st _ _ hmem⟩

/-! ### Additions -/

/-- Stages that are added one after the other, each below a stage as said unless it is a source, and
    the components that are noted. -/
inductive Extends (P : Nat → Prop) :
    List Stage → List Component → Building → Building → Prop
  | nil (st : Building) : Extends P [] [] st st
  | child {parent id : Nat} {stage : Stage} {stages : List Stage} {notes : List Component}
      {st st₁ st' : Building} (hp : P parent) (hs : stage.tag ≠ .source)
      (h : edit (Flow.addChild parent stage) st = (.ok id, st₁))
      (rest : Extends P stages notes st₁ st') : Extends P (stage :: stages) notes st st'
  | source {data : DataSource} {stages : List Stage} {notes : List Component}
      {st st' : Building} (hnew : (Source.ofData data).hash ∉ st.sources.map Prod.fst)
      (rest : Extends P stages notes (st.addSource (.ofData data)) st') :
      Extends P (Stage.source (.ofData data) :: stages) notes st st'
  | note {stages : List Stage} {notes : List Component} {st st' : Building} (c : Component)
      (rest : Extends P stages notes { st with components := st.components ++ [c] } st') :
      Extends P stages (c :: notes) st st'

namespace Extends

variable {P : Nat → Prop} {notes : List Component}

/-- Additions followed by others. -/
theorem trans {more : List Stage} {notes' : List Component} (h : Extends P stages notes st st₁)
    (h' : Extends P more notes' st₁ st') :
    Extends P (stages ++ more) (notes ++ notes') st st' := by
  induction h with
  | nil => exact h'
  | child hp hs h _ ih => exact .child hp hs h (ih h')
  | source hnew _ ih => exact .source hnew (ih h')
  | note c _ ih => exact .note c (ih h')

/-- One stage below another one. -/
theorem single (hp : P parent) (hs : stage.tag ≠ .source)
    (h : edit (Flow.addChild parent stage) st = (.ok id, st')) : Extends P [stage] [] st st' :=
  .child hp hs h (.nil st')

/-- Noting a component changes no stage. -/
theorem sound_note (hst : Sound st) (c : Component) :
    Sound { st with components := st.components ++ [c] } :=
  ⟨hst.nodup, hst.fresh, hst.sources⟩

/-- Additions keep names apart and sources noted. -/
theorem sound (h : Extends P stages notes st st') (hst : Sound st) : Sound st' := by
  induction h with
  | nil => exact hst
  | child _ _ h _ ih => exact ih ((edit_addChild_inv h hst).sound hst)
  | source _ _ ih => exact ih (hst.addSource _)
  | note c _ ih => exact ih (sound_note hst c)

/-- The places that were there are there. -/
theorem grows (h : Extends P stages notes st st') (hst : Sound st) : Grows st st' := by
  induction h with
  | nil => exact .refl _
  | child _ _ h _ ih =>
    have hadd := edit_addChild_inv h hst
    exact (hadd.grows hst).trans (ih (hadd.sound hst))
  | source _ _ ih => exact (grows_addSource _ _).trans (ih (hst.addSource _))
  | note c _ ih => exact ih (sound_note hst c)

/-- Additions use new names. -/
theorem next_le (h : Extends P stages notes st st') (hst : Sound st) :
    st.flow.next ≤ st'.flow.next := by
  induction h with
  | nil => exact Nat.le_refl _
  | child _ _ h _ ih =>
    have hadd := edit_addChild_inv h hst
    exact Nat.le_trans (by rw [hadd.next_eq]; omega) (ih (hadd.sound hst))
  | source _ _ ih => exact Nat.le_trans (Nat.le_succ _) (ih (hst.addSource _))
  | note c _ ih => exact ih (sound_note hst c)

/-- Nothing comes to stand below a stage that nothing is added to. -/
theorem bottom (h : Extends P stages notes st st') (hst : Sound st) (hid : ¬ P id)
    (hb : st.flow.stages.Bottom id) : st'.flow.stages.Bottom id := by
  induction h with
  | nil => exact hb
  | child hp _ h _ ih =>
    have hadd := edit_addChild_inv h hst
    refine ih (hadd.sound hst) ?_
    rw [hadd.stages_eq]
    exact hb.attach hst.nodup hadd.parent_mem (fun e => hid (e ▸ hp)) _ _
  | source _ _ ih =>
    refine ih (hst.addSource _) fun v hv => ?_
    rcases mem_places_addSource.1 hv with hv | rfl
    · exact hb v hv
    · simp
  | note c _ ih => exact ih (sound_note hst c) hb

/-- The stages of the flow are those that were there and those that were added. -/
theorem perm_contents (h : Extends P stages notes st st') (hst : Sound st) :
    (st'.flow.stages.toList.map Prod.snd).Perm
      (st.flow.stages.toList.map Prod.snd ++ stages) := by
  induction h with
  | nil => simp
  | @child parent id stage stages _ st st₁ st' _ _ h _ ih =>
    have hadd := edit_addChild_inv h hst
    refine (ih (hadd.sound hst)).trans ?_
    rw [hadd.stages_eq]
    -- the new stage comes to the others, whatever is below its parent
    have := (perm_toList_attach hst.nodup hadd.parent_mem id stage).map Prod.snd
    refine (this.append_right stages).trans ?_
    simp
  | @source data stages _ st st' _ _ ih =>
    refine (ih (hst.addSource _)).trans ?_
    rw [addSource]
    simp [Flow.restructure, leaf, toList]
  | note c _ ih => exact ih (sound_note hst c)

/-- A source that is noted was noted before, or is new. -/
theorem sources_or (h : Extends P stages notes st st') (hst : Sound st) {e : String × Nat}
    (he : e ∈ st'.sources) : e ∈ st.sources ∨ st.flow.next ≤ e.2 := by
  induction h with
  | nil => exact .inl he
  | child _ _ h _ ih =>
    have hadd := edit_addChild_inv h hst
    have := ih (hadd.sound hst) he
    rw [hadd.sources_eq, hadd.next_eq] at this
    exact this.imp id fun hle => by omega
  | @source data stages _ st st' _ _ ih =>
    rcases ih (hst.addSource _) he with he | hle
    · rcases List.mem_cons.1 he with rfl | he
      · exact .inr (Nat.le_refl _)
      · exact .inl he
    · exact .inr (Nat.le_trans (Nat.le_succ _) hle)
  | note c _ ih => exact ih (sound_note hst c) he

/-- The sources that were noted stay. -/
theorem sources_subset (h : Extends P stages notes st st') (hst : Sound st) :
    st.sources.map Prod.fst ⊆ st'.sources.map Prod.fst := by
  induction h with
  | nil => exact fun _ he => he
  | child _ _ h _ ih =>
    have hadd := edit_addChild_inv h hst
    have := ih (hadd.sound hst)
    rwa [hadd.sources_eq] at this
  | source _ _ ih =>
    refine List.Subset.trans ?_ (ih (hst.addSource _))
    exact List.subset_cons_self _ _
  | note c _ ih => exact ih (sound_note hst c)

/-- The components are those that were there and those that were noted. -/
theorem components_eq (h : Extends P stages notes st st') (hst : Sound st) :
    st'.components = st.components ++ notes := by
  induction h with
  | nil => simp
  | child _ _ h _ ih =>
    have hadd := edit_addChild_inv h hst
    rw [ih (hadd.sound hst), hadd.components_eq]
  | source _ _ ih => exact ih (hst.addSource _)
  | note c _ ih => rw [ih (sound_note hst c), List.append_assoc]; rfl

end Extends

/-! ### What building a chart adds -/

variable {P : Nat → Prop} {chart : Chart} {inherited : Option Nat} {outer : Option (List Stage)}
  {c c' : Component} {notes : List Component}

/-- What building a chart relies on: the stages that others may be put below are the new ones, the
    sources and the stage that the chart goes on from. -/
structure Ready (P : Nat → Prop) (outer : Option (List Stage)) (inherited : Option Nat)
    (st : Building) : Prop where
  sound : Sound st
  new : ∀ i, st.flow.next ≤ i → P i
  sources : ∀ e ∈ st.sources, P e.2
  inherited : ∀ id ∈ inherited, P id ∧ ∃ way ∈ outer, At st id way

/-- After additions a chart can still be built. -/
theorem Extends.ready (h : Extends P stages notes st st') (hr : Ready P outer inherited st) :
    Ready P outer inherited st' where
  sound := h.sound hr.sound
  new i hi := hr.new i (Nat.le_trans (h.next_le hr.sound) hi)
  sources e he := (h.sources_or hr.sound he).elim (hr.sources e) (hr.new e.2)
  inherited id hid := by
    obtain ⟨hp, way, hway, hat⟩ := hr.inherited id hid
    exact ⟨hp, way, hway, hat.mono (h.grows hr.sound)⟩

/-- A chain is added below its head, and ends at the end of the way through it. -/
theorem chain_inv (h : chain parent stages st = (.ok id, st')) (hst : Sound st)
    (hP : ∀ i, st.flow.next ≤ i → P i) (hs : ∀ a ∈ stages, a.tag ≠ .source) (hp : P parent)
    (hat : At st parent way) :
    Extends P stages [] st st' ∧ P id ∧ At st' id (way ++ stages) := by
  -- the head goes down with the chain, and is new after the first stage
  induction stages generalizing parent way st with
  | nil =>
    obtain ⟨hid, rfl⟩ := Prod.mk.inj h
    obtain rfl : parent = id := Except.ok.inj hid
    exact ⟨.nil _, hp, by rwa [List.append_nil]⟩
  | cons stage rest ih =>
    obtain ⟨id₁, st₁, hadd, hrest⟩ := Run.bind_eq_ok h
    have hplant := edit_addChild_inv hadd hst
    obtain ⟨hext, hid, hat'⟩ := ih hrest (hplant.sound hst)
      (fun i hi => hP i (by rw [hplant.next_eq] at hi; omega))
      (fun a ha => hs a (List.mem_cons_of_mem _ ha))
      (hP _ (hplant.id_eq ▸ Nat.le_refl _)) (hplant.at hst hat)
    exact ⟨.child hp (hs stage List.mem_cons_self) hadd hext, hid, by rwa [List.append_assoc] at hat'⟩

/-- A chart starts at a source of its data, which is added if there is none, or at the stage that
    it goes on from. -/
theorem start_inv {head : Nat} (h : start chart inherited st = (.ok head, st'))
    (hr : Ready P outer inherited st) :
    ∃ first begin, Extends P first [] st st' ∧ P head ∧ chart.Starts outer begin ∧
      At st' head begin ∧
      (chart.header.data = none → inherited ≠ none ∧ first = []) ∧
      ∀ data, chart.header.data = some data →
        (Source.ofData data).hash ∈ st'.sources.map Prod.fst ∧
          (first = [] ∨ first = [.source (.ofData data)]) := by
  unfold start at h
  cases hd : chart.header.data with
  | none =>
    cases inherited with
    | none =>
      rw [hd] at h
      exact absurd h Run.throw_ne_ok
    | some id =>
      rw [hd] at h
      obtain ⟨hid, rfl⟩ := Prod.mk.inj h
      obtain rfl : id = head := by simpa using hid
      obtain ⟨hp, way, houter, hway⟩ := hr.inherited id rfl
      exact ⟨[], way, .nil _, hp, .outer hd houter, hway, fun _ => ⟨by simp, rfl⟩,
        fun data hdata => absurd hdata (by simp)⟩
  | some data =>
    rw [hd] at h
    simp only [Run.bind_ok (Run.get_run st)] at h
    -- whichever of the two happens, the hash of the data is noted then
    have hdata {first : List Stage} {sources : List (String × Nat)}
        (hmem : (Source.ofData data).hash ∈ sources.map Prod.fst)
        (hfirst : first = [] ∨ first = [.source (.ofData data)]) :
        (some data = none → inherited ≠ none ∧ first = []) ∧ ∀ data', some data = some data' →
          (Source.ofData data').hash ∈ sources.map Prod.fst ∧
            (first = [] ∨ first = [.source (.ofData data')]) := by
      refine ⟨fun e => absurd e (by simp), fun data' e => ?_⟩
      obtain rfl := Option.some.inj e
      exact ⟨hmem, hfirst⟩
    -- data with a hash that was noted have their source already
    cases hfind : st.sources.find? (·.1 = (Source.ofData data).hash) with
    | some e =>
      rw [hfind] at h
      obtain ⟨hid, rfl⟩ := Prod.mk.inj h
      obtain rfl : e.2 = head := by simpa using hid
      have he := List.mem_of_find?_eq_some hfind
      obtain ⟨declared, hdeclared, hmem⟩ := hr.sound.sources e he
      have hhash : e.1 = (Source.ofData data).hash := by simpa using List.find?_some hfind
      exact ⟨[], _, .nil _, hr.sources e he, .own hd (hdeclared.trans hhash), ⟨_, hmem, rfl, rfl⟩,
        hdata (hhash ▸ List.mem_map_of_mem he) (.inl rfl)⟩
    | none =>
      rw [hfind] at h
      obtain ⟨hid, rfl⟩ := Prod.mk.inj h
      obtain rfl : st.flow.next = head := by simpa using hid
      have hnew : (Source.ofData data).hash ∉ st.sources.map Prod.fst := by
        intro hmem
        obtain ⟨e, he, hhash⟩ := List.mem_map.1 hmem
        exact absurd (List.find?_eq_none.1 hfind e he) (by simp [hhash])
      have hplace := (@mem_places_addSource st (.ofData data) _).2 (.inr rfl)
      exact ⟨[.source (.ofData data)], _, .source hnew (.nil _), hr.new _ (Nat.le_refl _),
        .own hd rfl, ⟨_, hplace, rfl, rfl⟩, hdata (by simp) (.inr rfl)⟩

/-- A header is added below the main output of its chart, if its dimension is declared. -/
theorem addHeader_inv {main : Nat} {declared : Option FieldDef} {dimension : Channel}
    {r : Option Nat}
    (h : (match declared with
      | none => pure none
      | some _ => some <$> (do edit (Flow.addChild main (← chart.headerStage dimension))) :
        Build (Option Nat)) st = (.ok r, st')) (hp : P main)
    (hnone : declared = none → FacetHeader.ofChart? chart dimension = none) :
    Extends P ((FacetHeader.ofChart? chart dimension).toList.map .facetHeader) [] st st' ∧
      (declared.isSome = true → (FacetHeader.ofChart? chart dimension).isSome = true) := by
  cases declared with
  | none =>
    obtain ⟨-, rfl⟩ := Prod.mk.inj h
    rw [hnone rfl]
    exact ⟨.nil _, fun hne => absurd hne (by simp)⟩
  | some f =>
    obtain ⟨id, st₁, he, hr⟩ := Run.bind_eq_ok h
    obtain ⟨-, rfl⟩ := Prod.mk.inj hr
    obtain ⟨stage, hstage, he⟩ := Run.lift_bind_ok he
    -- the step succeeded, so the header could be made
    unfold Chart.headerStage at hstage
    split at hstage
    · next header hheader =>
      obtain rfl := Except.ok.inj hstage
      rw [hheader]
      exact ⟨.single hp (by simp [Stage.tag]) he, fun _ => rfl⟩
    · exact absurd hstage (by simp)

/-- Below the main output of a facet, its headers and the facet are added; other charts go on from
    the main output itself. -/
theorem addFacet_inv {main : Nat} (h : addFacet chart main c st = (.ok c', st')) (hst : Sound st)
    (hp : P main) (hat : At st main way) (hmain : c.main = some main) (hroot : c.facetRoot = none)
    {floor : Nat} (hle : floor ≤ main) (hnext : floor ≤ st.flow.next) :
    ∃ head, Extends P chart.ends [] st st' ∧ c'.inheritedHead = some head ∧
      floor ≤ head ∧ At st' head (chart.inside way) ∧
      (chart.isUnit = true → head = main ∧ c'.main = some head ∧ st' = st) ∧
      ∀ dimension, chart.declares dimension = true →
        (FacetHeader.ofChart? chart dimension).isSome = true := by
  have hsame : c.inheritedHead = some main := by rw [Component.inheritedHead, hroot, hmain]; rfl
  cases chart with
  | unit =>
    obtain ⟨hc', rfl⟩ := Prod.mk.inj h
    obtain rfl : c = c' := by simpa using hc'
    exact ⟨main, .nil _, hsame, hle, by simpa [Chart.inside, Partition.ofChart?] using hat,
      fun _ => ⟨rfl, hmain, rfl⟩, fun d hd => absurd hd (by simp [Chart.declares])⟩
  | layer =>
    obtain ⟨hc', rfl⟩ := Prod.mk.inj h
    obtain rfl : c = c' := by simpa using hc'
    exact ⟨main, .nil _, hsame, hle, by simpa [Chart.inside, Partition.ofChart?] using hat,
      fun hu => absurd hu (by simp [Chart.isUnit]),
      fun d hd => absurd hd (by simp [Chart.declares])⟩
  | facet header mapping child =>
    -- a dimension that is not declared has no header
    have hnone {d : Channel} (hd : mapping.channel? d = none) :
        FacetHeader.ofChart? (.facet header mapping child) d = none := by
      simp [FacetHeader.ofChart?, facetField?, hd]
    obtain ⟨column, st₂, hcol, h⟩ := Run.bind_eq_ok h
    obtain ⟨hext₁, hcolumn⟩ := addHeader_inv hcol hp (hnone (d := .column))
    obtain ⟨row, st₃, hrow, h⟩ := Run.bind_eq_ok h
    obtain ⟨hext₂, hrow⟩ := addHeader_inv hrow hp (hnone (d := .row))
    obtain ⟨root, st₄, hroot, h⟩ := Run.bind_eq_ok h
    obtain ⟨hc', rfl⟩ := Prod.mk.inj h
    obtain ⟨id, st₅, hedit, hpure⟩ := Run.bind_eq_ok hroot
    obtain ⟨hid, rfl⟩ := Prod.mk.inj hpure
    obtain rfl : some id = root := Except.ok.inj hid
    obtain rfl : _ = c' := Except.ok.inj hc'
    -- column, row and then the facet, each added to what was there
    have hst₃ := hext₂.sound (hext₁.sound hst)
    have hplant := edit_addChild_inv hedit hst₃
    have hat₃ := (hat.mono (hext₁.grows hst)).mono (hext₂.grows (hext₁.sound hst))
    have hle₃ := Nat.le_trans (hext₁.next_le hst) (hext₂.next_le (hext₁.sound hst))
    refine ⟨id, ?_, rfl, by rw [hplant.id_eq]; omega, hplant.at hst₃ hat₃,
      fun hu => absurd hu (by simp [Chart.isUnit]), fun d hd => ?_⟩
    · simpa [Chart.ends, Partition.ofChart?] using
        (hext₁.trans hext₂).trans (.single hp (by simp [Stage.tag]) hedit)
    · cases d with
      | column => exact hcolumn hd
      | row => exact hrow hd
      | _ => exact absurd hd (by simp [Chart.declares, FacetMapping.channel?])

/-- What is added for a chart with stages of its own, and where the charts inside go on. -/
structure Raised (P : Nat → Prop) (outer : Option (List Stage)) (inherited : Option Nat)
    (chart : Chart) (st : Building) (c : Component) (st' : Building)
    (first begin stages : List Stage) (head : Nat) : Prop where
  chain : chart.Chain outer begin stages
  additions : Extends P (first ++ (stages ++ chart.ends)) [] st st'
  /-- A source is added for the data of the chart, unless there is one. -/
  first_sublist : first.Sublist (chart.header.data.toList.map fun d => .source (.ofData d))
  noted : ∀ data ∈ chart.header.data, (Source.ofData data).hash ∈ st'.sources.map Prod.fst
  inherits : chart.header.data = none → inherited ≠ none
  head_eq : c.inheritedHead = some head
  next_le : st.flow.next ≤ head
  at_head : At st' head (chart.inside (begin ++ stages))
  unit : chart.isUnit = true → c.main = some head ∧ st'.flow.stages.Bottom head
  declared : ∀ dimension, chart.declares dimension = true →
    (FacetHeader.ofChart? chart dimension).isSome = true

/-- The charts inside can be built. -/
theorem Raised.ready {first begin stages : List Stage} {head : Nat}
    (h : Raised P outer inherited chart st c st' first begin stages head)
    (hr : Ready P outer inherited st) :
    Ready P (some (chart.inside (begin ++ stages))) c.inheritedHead st' where
  sound := (h.additions.ready hr).sound
  new := (h.additions.ready hr).new
  sources := (h.additions.ready hr).sources
  inherited id hid := by
    obtain rfl := Option.some.inj (h.head_eq.symm.trans hid)
    exact ⟨hr.new _ h.next_le, _, rfl, h.at_head⟩

/-- Charts that go on from nothing can be built as well. -/
theorem Ready.loose (h : Ready P outer inherited st) : Ready P none none st :=
  ⟨h.sound, h.new, h.sources, fun _ hid => absurd hid (by simp)⟩

/-- A chart with stages of its own is raised from its source or from where it goes on. -/
theorem addChain_inv (h : addChain chart inherited st = (.ok c, st'))
    (hr : Ready P outer inherited st) :
    ∃ first begin stages head,
      Raised P outer inherited chart st c st' first begin stages head := by
  unfold addChain at h
  obtain ⟨head, st₁, hstart, h⟩ := Run.bind_eq_ok h
  obtain ⟨before, hb, h⟩ := Run.lift_bind_ok h
  obtain ⟨head', st₂, hbefore, h⟩ := Run.bind_eq_ok h
  obtain ⟨raw, st₃, hraw, h⟩ := Run.bind_eq_ok h
  obtain ⟨after, ha, h⟩ := Run.lift_bind_ok h
  obtain ⟨head'', st₄, hafter, h⟩ := Run.bind_eq_ok h
  obtain ⟨main, st₅, hmain, h⟩ := Run.bind_eq_ok h
  obtain ⟨first, begin, hext₁, hp₁, hbegin, hat₁, hnone, hsome⟩ :=
    start_inv hstart hr
  have hst := hr.sound
  have hP := hr.new
  have hst₁ := hext₁.sound hst
  have hle₁ := hext₁.next_le hst
  obtain ⟨hext₂, hp₂, hat₂⟩ := chain_inv hbefore hst₁ (fun i hi => hP i (by omega))
    (Chart.not_source_of_mem_stagesBeforeRaw hb) hp₁ hat₁
  have hst₂ := hext₂.sound hst₁
  have hle₂ := hext₂.next_le hst₁
  have hplant := edit_addChild_inv hraw hst₂
  have hst₃ := hplant.sound hst₂
  have hle₃ := hplant.next_eq
  obtain ⟨hext₄, hp₄, hat₄⟩ := chain_inv hafter hst₃ (fun i hi => hP i (by omega))
    (Chart.not_source_of_mem_stagesAfterRaw ha) (hP raw (by rw [hplant.id_eq]; omega)) (hplant.at hst₂ hat₂)
  have hst₄ := hext₄.sound hst₃
  have hle₄ := hext₄.next_le hst₃
  have hplant' := edit_addChild_inv hmain hst₄
  have hle₅ := hplant'.next_eq
  have hmain_le : st.flow.next ≤ main := by rw [hplant'.id_eq]; omega
  have hfull : begin ++ before ++ [chart.rawOutput] ++ after ++ [chart.mainOutput] =
      begin ++ (before ++ chart.rawOutput :: (after ++ [chart.mainOutput])) := by
    simp
  have hat₅ := hfull ▸ hplant'.at hst₄ hat₄
  obtain ⟨root, hext₆, hroot, hle₆, hat₆, hunit, hdeclared⟩ := addFacet_inv h
    (hplant'.sound hst₄) (hP main hmain_le) hat₅ rfl rfl hmain_le (by omega)
  have hout : chart.rawOutput.tag ≠ .source := by simp [Chart.rawOutput, Stage.tag]
  have hout' : chart.mainOutput.tag ≠ .source := by simp [Chart.mainOutput, Stage.tag]
  -- all additions, and those after the source
  have hchain := ((((hext₁.trans hext₂).trans (.single hp₂ hout hraw)).trans hext₄).trans
    (.single hp₄ hout' hmain)).trans hext₆
  have hrest := (((hext₂.trans (.single hp₂ hout hraw)).trans hext₄).trans
    (.single hp₄ hout' hmain)).trans hext₆
  refine ⟨first, begin, _, root, .mk hbegin hb ha, by simpa using hchain, ?_, fun data hd => ?_,
    fun hd => (hnone hd).1, hroot, hle₆, hat₆, fun hu => ?_, hdeclared⟩
  · cases hd : chart.header.data with
    | none => rw [(hnone hd).2]; exact List.nil_sublist _
    | some data => rcases (hsome data hd).2 with rfl | rfl <;> simp
  · exact hrest.sources_subset hst₁ (hsome data hd).1
  · -- a unit ends with its main output, the last stage added
    obtain ⟨rfl, hroot', rfl⟩ := hunit hu
    refine ⟨hroot', ?_⟩
    rw [hplant'.stages_eq]
    have hnew : root ∉ st₄.flow.stages.walk := hplant'.id_eq ▸ hst₄.next_notMem
    exact (bottom_of_notMem hst₄.nodup hnew).attach hst₄.nodup hplant'.parent_mem
      (fun e => hnew (e ▸ hplant'.parent_mem)) root _

/-- A chart that is built has stages of its own, but for a layer that only groups charts. -/
theorem addChart_inv (h : addChart chart inherited st = (.ok c, st'))
    (hr : Ready P outer inherited st) :
    (∃ first begin stages head,
      Raised P outer inherited chart st c st' first begin stages head) ∨
    ∃ header children, chart = .layer header children ∧ header.data = none ∧
      inherited = none ∧ c.inheritedHead = none ∧ st' = st := by
  have hchain (h : addChain chart inherited st = (.ok c, st')) := addChain_inv h hr
  -- only a layer without any data adds no chain
  cases chart with
  | unit => exact .inl (hchain h)
  | facet => exact .inl (hchain h)
  | layer header children =>
    cases hd : header.data with
    | some data => exact .inl (hchain (by simpa only [addChart, Chart.header, hd] using h))
    | none =>
      cases inherited with
      | some id => exact .inl (hchain (by simpa only [addChart, Chart.header, hd] using h))
      | none =>
        simp only [addChart, Chart.header, hd] at h
        obtain ⟨hc, rfl⟩ := Prod.mk.inj h
        obtain rfl : _ = c := Except.ok.inj hc
        exact .inr ⟨_, _, rfl, hd, rfl, rfl, rfl⟩

/-! ### Charts inside charts -/

/-- Charts that are built one after the other, going on from one stage: each before the charts
    inside it, and noted after them. -/
inductive Builds : List Chart → Option Nat → Building → Building → Prop
  | nil (inherited : Option Nat) (st : Building) : Builds [] inherited st st
  | cons {chart : Chart} {rest : List Chart} {inherited : Option Nat} {c : Component}
      {st st₁ st₂ st' : Building} (hadd : addChart chart inherited st = (.ok c, st₁))
      (hinside : Builds chart.children c.inheritedHead st₁ st₂)
      (hrest : Builds rest inherited { st₂ with components := st₂.components ++ [c] } st') :
      Builds (chart :: rest) inherited st st'

mutual

/-- Building a chart adds its own stages, then those inside, and notes it last. -/
theorem builds_of_build {inherited : Option Nat} :
    ∀ (chart : Chart) {st st' : Building}, build chart inherited st = (.ok (), st') →
      Builds [chart] inherited st st'
  | .unit h mark encoding stack, st, st', hrun => by
    obtain ⟨c, st₁, hadd, hnote⟩ := Run.bind_eq_ok hrun
    obtain ⟨-, rfl⟩ := Prod.mk.inj hnote
    exact .cons hadd (.nil _ _) (.nil _ _)
  | .layer h children, st, st', hrun => by
    obtain ⟨c, st₁, hadd, hrun⟩ := Run.bind_eq_ok hrun
    obtain ⟨_, st₂, hall, hnote⟩ := Run.bind_eq_ok hrun
    obtain ⟨-, rfl⟩ := Prod.mk.inj hnote
    exact .cons hadd (builds_of_buildAll children hall) (.nil _ _)
  | .facet h mapping child, st, st', hrun => by
    obtain ⟨c, st₁, hadd, hrun⟩ := Run.bind_eq_ok hrun
    obtain ⟨_, st₂, hchild, hnote⟩ := Run.bind_eq_ok hrun
    obtain ⟨-, rfl⟩ := Prod.mk.inj hnote
    exact .cons hadd (builds_of_build child hchild) (.nil _ _)

/-- Building charts adds the stages of one after the other. -/
theorem builds_of_buildAll {inherited : Option Nat} :
    ∀ (charts : List Chart) {st st' : Building}, buildAll charts inherited st = (.ok (), st') →
      Builds charts inherited st st'
  | [], st, st', hrun => by
    obtain ⟨-, rfl⟩ := Prod.mk.inj hrun
    exact .nil _ _
  | chart :: rest, st, st', hrun => by
    obtain ⟨_, st₁, hchart, hrest⟩ := Run.bind_eq_ok hrun
    cases builds_of_build chart hchart with
    | cons hadd hinside hnil =>
      cases hnil
      exact .cons hadd hinside (builds_of_buildAll rest hrest)

end

/-- Building a chart adds what its parts ask for, one part after the other. -/
theorem builds_of_ofChart (h : ofChart chart = .ok st) : Builds [chart] none {} st := by
  rw [ofChart] at h
  split at h
  · next hrun =>
    obtain rfl := Except.ok.inj h
    exact builds_of_build chart hrun
  · exact absurd h (by simp)

/-- Charts that are built only add stages, below stages that they may know, and what is so of the
    stages of each chart is so of all that are added. -/
theorem Builds.extends_forall {C : Chart → Prop} {Q : Stage → Prop} {charts : List Chart}
    (h : Builds charts inherited st st') (hr : Ready P outer inherited st)
    (hc : ∀ c ∈ charts, C c) (hchildren : ∀ c, C c → ∀ d ∈ c.children, C d)
    (hown : ∀ {outer inherited chart st c st' first begin stages head},
      Raised P outer inherited chart st c st' first begin stages head → C chart →
        ∀ a ∈ first ++ (stages ++ chart.ends), Q a) :
    ∃ stages notes, Extends P stages notes st st' ∧ ∀ a ∈ stages, Q a := by
  induction h generalizing outer with
  | nil => exact ⟨[], [], .nil _, List.forall_mem_nil _⟩
  | @cons chart rest inherited c st st₁ st₂ st' hadd _ _ ih ihrest =>
    obtain ⟨hchart, hrest⟩ := List.forall_mem_cons.1 hc
    -- what is inside the chart goes on from it, or from nothing
    have hinner : ∃ stages notes, Extends P stages notes st st₂ ∧ ∀ a ∈ stages, Q a := by
      rcases addChart_inv hadd hr with
        ⟨first, begin, stages, head, hraised⟩ | ⟨_, _, -, -, -, hnone, rfl⟩
      · obtain ⟨inside, notes, hext, hinside⟩ := ih (hraised.ready hr) (hchildren chart hchart)
        exact ⟨_, _, hraised.additions.trans hext,
          List.forall_mem_append.2 ⟨hown hraised hchart, hinside⟩⟩
      · exact ih (hnone ▸ hr.loose) (hchildren chart hchart)
    obtain ⟨inner, notes, hext, hforall⟩ := hinner
    have hnote : Extends P [] [c] st₂ { st₂ with components := st₂.components ++ [c] } :=
      .note c (.nil _)
    obtain ⟨others, notes', hext', hothers⟩ := ihrest (hnote.ready (hext.ready hr)) hrest
    exact ⟨inner ++ others, _, hext.trans (hnote.trans hext'),
      List.forall_mem_append.2 ⟨hforall, hothers⟩⟩

/-- Charts that are built only add stages and notes. -/
theorem Builds.extends {charts : List Chart} (h : Builds charts inherited st st')
    (hr : Ready P outer inherited st) : ∃ stages notes, Extends P stages notes st st' := by
  obtain ⟨stages, notes, hext, -⟩ := h.extends_forall (C := fun _ => True) (Q := fun _ => True) hr
    (fun _ _ => trivial) (fun _ _ _ _ => trivial) fun _ _ _ _ => trivial
  exact ⟨stages, notes, hext⟩

end Building

end ChartPipeline
