import ChartPipeline.Proofs.Planting
import ChartPipeline.Proofs.Unfailing

/-!
# The transforms on the way to a unit's data

A chart applies its own transforms to what the chart around it hands on, or to data of its own, so
what the marks of a unit read has gone through the transforms of several charts.  Passes lift
filters and calculations above the stages of outer charts and join filters, but no calculation goes
past another stage that transforms rows, and no filter past a calculation: on the way to the main
output of a unit all transforms stay, in the order in which the charts declare them.

## Key results

- `Rerouted.transforms`: a change of a way keeps the transforms on it, in their order
- `Forest.Rewrites.drawn`: a move keeps those on the way to an outlet that nothing is below
- `optimizeFlow_keeps_lineage`: on the way to what a unit draws, the transforms are as declared
-/

namespace ChartPipeline

/-- The transforms that a stage applies. -/
def Stage.transforms : Stage → List Transform
  | filter ps => ps.map .filter
  | calculate expression target => [.calculate expression target]
  | _ => []

namespace Chart

/-- The transforms that the data of a chart go through, from where they are declared: those of the
    charts around it come first, unless the chart has data of its own. -/
def lineage (outer : List Transform) (chart : Chart) : List Transform :=
  (if chart.header.data.isSome then [] else outer) ++ chart.header.transforms

end Chart

/-! ### Ways -/

variable {C : Stage → Stage → Prop} {pass : Pass} {policy : FacetPolicy} {a b c : Stage}
  {dims : List String} {w w' : List (Nat × Stage)}

/-- Joined filters have the transforms of both in their order. -/
theorem Joins.transforms (h : Joins pass a b c) : c.transforms = a.transforms ++ b.transforms := by
  have := h.merged
  cases a <;> cases b <;> simp only [Stage.merge?, reduceCtorEq, Option.some.injEq] at this <;>
    subst this <;> simp [Stage.transforms]

/-- Grouping by more fields transforms nothing. -/
theorem Stage.transforms_addDimensions (dims : List String) (a : Stage) :
    (a.addDimensions dims).transforms = a.transforms := by
  cases a <;> rfl

/-- Of a stage that rises and the one that it passes, one at most transforms. -/
theorem Rises.transforms (h : Rises pass policy a b dims) :
    a.transforms ++ b.transforms = (b.addDimensions dims).transforms ++ a.transforms := by
  have hnone : a.transforms = [] ∨ b.transforms = [] := by
    have hne := h.tag_ne
    have hp := h.passage
    cases a with
    | filter | calculate =>
      -- only a calculation or another filter might pass with a transform of its own
      right
      cases b <;> simp_all [Stage.transforms, Stage.tag, Move.passage?]
    | _ => exact .inl rfl
  rw [Stage.transforms_addDimensions]
  rcases hnone with hnone | hnone <;> simp [hnone]

/-- A change of a way keeps the transforms on it. -/
theorem Rerouted.transforms (h : Rerouted C pass policy w w') :
    w'.flatMap (·.2.transforms) = w.flatMap (·.2.transforms) := by
  cases h with
  | refl => rfl
  | join h _ l p i r => simp [h.transforms]
  | rise h _ l p i r =>
    simp only [List.flatMap_append, List.flatMap_cons, ← List.append_assoc]
    simp only [List.append_assoc, ← h.transforms]
  | drop h l i types r => simp [Stage.transforms]
  | widen h l i types types' r => simp [Stage.transforms]

/-- No outlet comes onto a way. -/
theorem Rerouted.mem_of_isOutlet (h : Rerouted C pass policy w w') {e : Nat × Stage} (he : e ∈ w')
    (ho : e.2.isOutlet = true) : e ∈ w := by
  have not_handled {x : Stage} {i : Nat} (hx : pass.handles x.tag = true) : e ≠ (i, x) := by
    rintro rfl
    simp [Pass.not_isOutlet hx] at ho
  -- the only stages that are new on the way are those that the pass has joined, widened or moved
  cases h with
  | refl => exact he
  | join h _ l p i r =>
    have := not_handled (i := p) ((Stage.tag_of_merge? h.merged).symm ▸ h.tag_eq ▸ h.handled)
    simp only [List.mem_append, List.mem_cons] at he ⊢
    tauto
  | @rise a b dims h _ l p i r =>
    have := not_handled (i := i) ((Stage.tag_addDimensions dims b).symm ▸ h.handled)
    simp only [List.mem_append, List.mem_cons] at he ⊢
    tauto
  | drop h l i types r =>
    simp only [List.mem_append, List.mem_cons] at he ⊢
    tauto
  | widen h l i types types' r =>
    have : e ≠ (i, .parse types') := not_handled (by simp [h, Stage.tag, Pass.handles])
    simp only [List.mem_append, List.mem_cons] at he ⊢
    tauto

/-- An outlet at the end of a way stays there. -/
theorem Rerouted.concat (h : Rerouted C pass policy w w') {l : List (Nat × Stage)}
    {e : Nat × Stage} (hw : w = l ++ [e]) (ho : e.2.isOutlet = true) :
    ∃ l', w' = l' ++ [e] ∧ Rerouted C pass policy l l' := by
  -- what changes is further up
  have last {m : List (Nat × Stage)} {x : Nat × Stage} {r : List (Nat × Stage)}
      (hx : x.2.isOutlet = false) (h : m ++ x :: r = l ++ [e]) :
      ∃ r', r = r' ++ [e] ∧ l = m ++ x :: r' := by
    obtain rfl | ⟨r', y, rfl⟩ := List.eq_nil_or_concat' r
    · obtain ⟨rfl, hxe⟩ := List.append_inj' h rfl
      obtain rfl : x = e := by simpa using hxe
      simp [hx] at ho
    · rw [← List.cons_append, ← List.append_assoc] at h
      obtain ⟨rfl, hy⟩ := List.append_inj' h rfl
      obtain rfl : y = e := by simpa using hy
      exact ⟨r', rfl, rfl⟩
  cases h with
  | refl => exact ⟨l, hw, .refl l⟩
  | @join a b c h hC m p i r =>
    have hw' : (m ++ [(p, a)]) ++ (i, b) :: r = l ++ [e] := by rw [← hw]; simp
    obtain ⟨r', rfl, rfl⟩ := last (Pass.not_isOutlet h.handled) hw'
    exact ⟨m ++ (p, c) :: r', by simp, by simpa using Rerouted.join h hC m p i r'⟩
  | @rise a b dims h hC m p i r =>
    have hw' : (m ++ [(p, a)]) ++ (i, b) :: r = l ++ [e] := by rw [← hw]; simp
    obtain ⟨r', rfl, rfl⟩ := last (Pass.not_isOutlet h.handled) hw'
    exact ⟨m ++ (i, b.addDimensions dims) :: (p, a) :: r', by simp,
      by simpa using Rerouted.rise h hC m p i r'⟩
  | drop h m i types r =>
    obtain ⟨r', rfl, rfl⟩ := last rfl hw
    exact ⟨m ++ r', by simp, .drop h m i types r'⟩
  | widen h m i types types' r =>
    obtain ⟨r', rfl, rfl⟩ := last rfl hw
    exact ⟨m ++ (i, .parse types') :: r', by simp, .widen h m i types types' r'⟩

/-! ### What is drawn -/

namespace Forest

/-- An outlet of the flow that nothing is below, with the transforms on the way to it. -/
structure Drawn (f : Forest Stage) (declared : List Transform) (a : Stage) (id : Nat) : Prop where
  mem : ∃ v ∈ f.places [], v.id = id ∧ v.content = a
  way : ∀ v ∈ f.places [], v.id = id → v.content.isOutlet = true →
    v.content = a ∧ v.above.flatMap (·.2.transforms) = declared
  bottom : ∀ v ∈ f.places [], ∀ e ∈ v.above, e.1 = id → e.2.isOutlet = false

variable {f f' : Forest Stage} {declared : List Transform} {id : Nat}

/-- Where nothing is below an outlet, a changed way that it is on ends with it. -/
theorem Drawn.of_rerouted (hd : f.Drawn declared a id) {v v' : Place Stage}
    (hv : v ∈ f.places []) (hw : Rerouted C pass policy v.route w) (hpre : v'.route <+: w)
    (hmem : (id, b) ∈ v'.route) (ho : b.isOutlet = true) :
    v.id = id ∧ v.content = b ∧ (id, b) ∉ v'.above ∧ Rerouted C pass policy v.above v'.above := by
  have hnot : (id, b) ∉ v.above := fun h => by
    have := hd.bottom v hv _ h rfl
    simp [ho] at this
  have hroute : (id, b) = (v.id, v.content) := by
    have := hw.mem_of_isOutlet (hpre.subset hmem) ho
    rw [Place.route, List.mem_append, List.mem_singleton] at this
    exact this.resolve_left hnot
  -- the way still ends at the outlet when it has changed
  obtain ⟨l, rfl, hl⟩ := hw.concat (e := (id, b)) (by rw [Place.route, hroute]) ho
  have hnot' : (id, b) ∉ l := fun h => hnot (hl.mem_of_isOutlet h ho)
  obtain ⟨rfl, rfl⟩ := Prod.mk.inj hroute
  rcases List.prefix_concat_iff.1 hpre with heq | hpre
  · obtain ⟨rfl, -⟩ := List.append_inj' heq rfl
    exact ⟨rfl, rfl, hnot', hl⟩
  · exact absurd (hpre.subset hmem) hnot'

/-- A move keeps the transforms on the way to an outlet that nothing is below. -/
theorem Rewrites.drawn (h : Rewrites pass policy f f') (hd : f.Drawn declared a id)
    (ho : a.isOutlet = true) : f'.Drawn declared a id where
  mem := by
    obtain ⟨v, hv, rfl, rfl⟩ := hd.mem
    have hout : v ∈ f.outlets [] := List.mem_filter.2 ⟨hv, ho⟩
    obtain ⟨v', hv', hpassed⟩ := exists_mem_of_forall₂ (h.outlets adjoins_true) hout
    exact ⟨v', (List.mem_filter.1 hv').1, hpassed.id_eq, hpassed.content_eq⟩
  way v' hv' hid hout := by
    have hmem : (id, v'.content) ∈ v'.route := by simp [Place.route, hid]
    rcases h.exists_rerouted adjoins_true hv' with ⟨v, hv, w, hw, hpre⟩ | ⟨-, v, -, -, i, types, hr⟩
    -- the way to the outlet has changed, but its transforms are the same
    · obtain ⟨hvid, hcontent, -, hreroute⟩ := hd.of_rerouted hv hw hpre hmem hout
      obtain ⟨rfl, hdecl⟩ := hd.way v hv hvid (hcontent ▸ hout)
      exact ⟨hcontent.symm, hreroute.transforms.trans hdecl⟩
    -- the place of a conversion that was put below its source is no outlet
    · obtain ⟨-, hlast⟩ := List.append_inj' hr rfl
      have : v'.content = .parse types := by simpa using congrArg (·.map Prod.snd) hlast
      simp [this, Stage.isOutlet, Stage.tag] at hout
  bottom v' hv' e he hid := by
    by_contra hout
    rw [Bool.not_eq_false] at hout
    obtain ⟨i, b⟩ := e
    obtain rfl : i = id := hid
    rcases h.exists_rerouted adjoins_true hv' with ⟨v, hv, w, hw, hpre⟩ | ⟨-, v, hv, hs, j, types, hr⟩
    · have hmem : (i, b) ∈ v'.route := List.mem_append_left _ he
      exact (hd.of_rerouted hv hw hpre hmem hout).2.2.1 he
    · -- only conversions are put below another stage, a source
      obtain ⟨habove, -⟩ := List.append_inj' hr rfl
      rw [habove, Place.route, List.mem_append, List.mem_singleton] at he
      rcases he with he | he
      · exact absurd hout (by simp [hd.bottom v hv _ he rfl])
      · obtain ⟨-, rfl⟩ := Prod.mk.inj he
        simp [Stage.isOutlet, hs] at hout

/-- Passes keep the transforms on the way to an outlet that nothing is below. -/
theorem drawn_of_passes {passes : List Pass} (h : Flow.Passes policy passes f f')
    (hd : f.Drawn declared a id) (ho : a.isOutlet = true) : f'.Drawn declared a id :=
  h.rel (R := fun f f' => f.Drawn declared a id → f'.Drawn declared a id) (fun _ hd => hd)
    (fun h h' hd => h' (h hd)) (fun h hd => h.drawn hd ho) hd

/-- The nodes that are not taken out are left, in their order. -/
theorem toList_prune {α : Type} (p : α → Bool) (f : Forest α) :
    (f.prune p).toList = f.toList.filter fun e => !p e.2 := by
  induction f with
  | nil => rfl
  | node i a cs rest ihc ihr =>
    rw [Forest.prune, toList, List.filter_cons, List.filter_append, ← ihc, ← ihr]
    cases p a <;> simp [toList]

/-- No name stands twice after nodes were taken out. -/
theorem nodup_prune {α : Type} (p : α → Bool) {f : Forest α} (h : f.walk.Nodup) :
    (f.prune p).walk.Nodup := by
  rw [walk, toList_prune]
  exact h.sublist (List.filter_sublist.map Prod.fst)

/-- Elimination keeps them too: a stage that does nothing transforms nothing. -/
theorem Drawn.prune (hd : f.Drawn declared a id) (ha : a.isVacuous = false) :
    (f.prune Stage.isVacuous).Drawn declared a id := by
  refine ⟨?_, fun v' hv' hid hout => ?_, fun v' hv' e he hid => ?_⟩
  · obtain ⟨v, hv, hid, hcontent⟩ := hd.mem
    exact ⟨v.prune Stage.isVacuous, mem_places_prune hv (hcontent ▸ ha), hid, hcontent⟩
  · obtain ⟨v, hv, rfl⟩ := exists_of_mem_places_prune hv'
    obtain ⟨hcontent, hdecl⟩ := hd.way v hv hid hout
    refine ⟨hcontent, Eq.trans ?_ hdecl⟩
    refine flatMap_prune (fun b hb => ?_) v.above
    cases b <;> simp_all [Stage.isVacuous, Stage.transforms]
  · obtain ⟨v, hv, rfl⟩ := exists_of_mem_places_prune hv'
    exact hd.bottom v hv e (List.mem_filter.1 he).1 hid

end Forest

/-! ### What building puts there -/

namespace Chart

variable {chart : Chart} {outer : Option (List Stage)} {begin stages before after : List Stage}
  {declared : List Transform}

/-- Up to its raw output, a chart has the transforms that it declares. -/
theorem transforms_stagesBeforeRaw (h : chart.stagesBeforeRaw = .ok before) :
    before.flatMap Stage.transforms = chart.header.transforms := by
  have htransforms : chart.transformStages.flatMap Stage.transforms = chart.header.transforms := by
    rw [transformStages]
    induction chart.header.transforms with
    | nil => rfl
    | cons t ts ih => cases t <;> simp_all [Stage.transforms]
  obtain ⟨bins, -, rfl⟩ := stagesBeforeRaw_ok h
  simp only [List.flatMap_append, htransforms]
  cases parseTypes? chart <;> cases nullFilter? chart <;> cases bins <;>
    cases TimeFormulas.ofChart? chart <;> simp [Stage.transforms]

/-- After its raw output it transforms nothing more. -/
theorem transforms_stagesAfterRaw (h : chart.stagesAfterRaw = .ok after) :
    after.flatMap Stage.transforms = [] := by
  rw [List.flatMap_eq_nil_iff]
  intro a ha
  have := (stagesAfterRaw_grouping h).1 a ha
  cases a <;> simp_all [Stage.isGrouping, Stage.tag, Stage.transforms]

/-- On the way through the stages of a chart stand the transforms of its lineage. -/
theorem Chain.transforms (h : Chain outer chart begin stages)
    (ho : ∀ way ∈ outer, way.flatMap Stage.transforms = declared) :
    (begin ++ stages).flatMap Stage.transforms = chart.lineage declared := by
  obtain ⟨hs, hb, ha⟩ := h
  have hbegin : begin.flatMap Stage.transforms =
      if chart.header.data.isSome then [] else declared := by
    cases hs with
    | own hd => simp [hd, Stage.transforms]
    | outer hd hi => simp [hd, ho _ hi]
  simp only [List.flatMap_append, List.flatMap_cons, hbegin, transforms_stagesBeforeRaw hb,
    transforms_stagesAfterRaw ha]
  simp [lineage, rawOutput, mainOutput, Stage.transforms]

/-- So they do on the way that the charts inside go on from. -/
theorem Chain.transforms_inside (h : Chain outer chart begin stages)
    (ho : ∀ way ∈ outer, way.flatMap Stage.transforms = declared) :
    (chart.inside (begin ++ stages)).flatMap Stage.transforms = chart.lineage declared := by
  rw [inside, List.flatMap_append, h.transforms ho]
  cases Partition.ofChart? chart <;> simp [Stage.transforms]

end Chart

namespace Building

open Forest

variable {P : Nat → Prop} {st st' st'' : Building} {chart : Chart} {charts : List Chart} {c : Component}
  {outer : Option (List Stage)} {inherited : Option Nat} {declared : List Transform}
  {first begin stages : List Stage} {notes : List Component} {a : Stage} {id head : Nat}

/-- In a flow that is being built, an outlet that nothing is below is at one place. -/
theorem Sound.drawn (hst : Sound st) {v : Place Stage} (hv : v ∈ st.flow.stages.places [])
    (hb : st.flow.stages.Bottom v.id) :
    st.flow.stages.Drawn (v.above.flatMap (·.2.transforms)) v.content v.id where
  mem := ⟨v, hv, rfl, rfl⟩
  way w hw hid _ := by
    obtain rfl := place_inj hst.nodup hw hv hid
    exact ⟨rfl, rfl⟩
  bottom w hw e he hid := absurd (List.mem_map.2 ⟨e, he, hid⟩) (hb w hw)

/-- The main output of a unit, with the transforms on the way to it. -/
structure Draws (st : Building) (declared : List Transform) (chart : Chart) (main : Nat) :
    Prop where
  place : ∃ v ∈ st.flow.stages.places [], v.id = main ∧ v.content = chart.mainOutput ∧
    v.above.flatMap (·.2.transforms) = declared
  bottom : st.flow.stages.Bottom main

/-- A chain ends with the main output of its chart. -/
theorem Raised.draws (h : Raised P outer inherited chart st c st' first begin stages head)
    (hu : chart.isUnit = true) (ho : ∀ way ∈ outer, way.flatMap Stage.transforms = declared) :
    c.main = some head ∧ Draws st' (chart.lineage declared) chart head := by
  obtain ⟨hmain, hbottom⟩ := h.unit hu
  refine ⟨hmain, ?_, hbottom⟩
  obtain ⟨v, hv, hid, hway⟩ := h.at_head
  have htransforms := h.chain.transforms_inside ho
  rw [← hway] at htransforms
  obtain ⟨-, hb, ha⟩ := h.chain
  -- a unit has no partition, so its main output ends the way
  have hpart : Partition.ofChart? chart = none := by cases chart <;> simp_all [Chart.isUnit]; rfl
  rw [Chart.inside, hpart, Option.toList_none, List.map_nil, List.append_nil,
    ← List.cons_append, ← List.append_assoc, ← List.append_assoc, Place.route,
    List.map_append] at hway
  obtain ⟨-, hlast⟩ := List.append_inj' hway rfl
  have hcontent : v.content = chart.mainOutput := by simpa using hlast
  refine ⟨v, hv, hid, hcontent, ?_⟩
  rw [← htransforms, Place.route, List.map_append, List.flatMap_append, List.flatMap_map]
  simp [hcontent, Chart.mainOutput, Stage.transforms]

/-- The charts that are built later go on from other stages. -/
theorem Draws.of_builds {main : Nat} (hd : Draws st declared chart main)
    (h : Builds charts inherited st st') (hr : Ready (fun _ => True) outer inherited st)
    (hne : ∀ id ∈ inherited, id ≠ main) : Draws st' declared chart main := by
  obtain ⟨v, hv, rfl, hcontent, hdecl⟩ := hd.place
  -- to keep the main output at the bottom, no stage that later charts go on from may be it: not a
  -- new one, not a source, not the one handed on
  have hready : Ready (· ≠ v.id) outer inherited st := by
    refine ⟨hr.sound, fun i hi heq => ?_, fun e he heq => ?_,
      fun id hid => ⟨hne id hid, (hr.inherited id hid).2⟩⟩
    · have := hr.sound.fresh _ (mem_walk_iff.2 ⟨v, hv, rfl⟩)
      omega
    · obtain ⟨data, -, hmem⟩ := hr.sound.sources e he
      have := congrArg Place.content (place_inj hr.sound.nodup hmem hv heq)
      rw [hcontent] at this
      exact absurd this (by simp [Chart.mainOutput])
  obtain ⟨stages, notes, hext⟩ := h.extends hready
  exact ⟨⟨v, hext.grows hr.sound v hv, rfl, hcontent, hdecl⟩,
    hext.bottom hr.sound (by simp) hd.bottom⟩

/-- What is noted for a chart: if it is a unit, a main output added from some stage on, with the
    transforms of its lineage on the way to it. -/
def DrawsFrom (floor : Nat) (st : Building) (x : List Transform × Chart) (c : Component) : Prop :=
  x.2.isUnit = true → ∃ main, c.main = some main ∧ floor ≤ main ∧
    Draws st (x.2.lineage x.1) x.2 main

/-- A later main output was added from any earlier stage on. -/
theorem DrawsFrom.mono {floor floor' : Nat} {x : List Transform × Chart}
    (h : DrawsFrom floor' st x c) (hle : floor ≤ floor') : DrawsFrom floor st x c := by
  intro hu
  obtain ⟨main, hmain, hfloor, hdraws⟩ := h hu
  exact ⟨main, hmain, Nat.le_trans hle hfloor, hdraws⟩

/-- Charts that are noted and go on from stages further up draw nothing over it. -/
theorem DrawsFrom.of_builds {floor : Nat} {x : List Transform × Chart} {c' : Component}
    (hd : DrawsFrom floor st x c')
    (h : Builds charts inherited { st with components := st.components ++ [c] } st')
    (hr : Ready (fun _ => True) outer inherited { st with components := st.components ++ [c] })
    (hlt : ∀ id ∈ inherited, id < floor) : DrawsFrom floor st' x c' := by
  intro hu
  obtain ⟨main, hmain, hle, hplace, hbottom⟩ := hd hu
  have hdraws : Draws { st with components := st.components ++ [c] } (x.2.lineage x.1) x.2 main :=
    ⟨hplace, hbottom⟩
  refine ⟨main, hmain, hle, hdraws.of_builds h hr fun id hid => ?_⟩
  have := hlt id hid
  omega

/-- A unit is noted with its main output, after the charts inside it, of which there are none. -/
theorem Raised.draws_inside (h : Raised P outer inherited chart st c st' first begin stages head)
    (ho : ∀ way ∈ outer, way.flatMap Stage.transforms = declared)
    (hinside : Builds chart.children c.inheritedHead st' st'') :
    DrawsFrom st.flow.next st'' (declared, chart) c := by
  intro hu
  obtain ⟨hmain, hdraws⟩ := h.draws hu ho
  -- a unit has no charts inside
  have hchildren : chart.children = [] := by
    cases chart <;> simp_all [Chart.isUnit, Chart.children]
  rw [hchildren] at hinside
  cases hinside
  exact ⟨head, hmain, h.next_le, hdraws⟩

/-- Every unit that is built has a main output, with the transforms of its lineage on the way to
    it. -/
theorem Builds.draws (h : Builds charts inherited st st')
    (hr : Ready (fun _ => True) outer inherited st)
    (ho : ∀ way ∈ outer, way.flatMap Stage.transforms = declared) :
    ∃ stages notes, Extends (fun _ => True) stages notes st st' ∧
      List.Forall₂ (DrawsFrom st.flow.next st')
        (Chart.allInContext Chart.lineage declared charts) notes := by
  induction h generalizing outer declared with
  | nil => exact ⟨[], [], .nil _, .nil⟩
  | @cons chart rest inherited c st st₁ st₂ st' hadd hinside hrest ih ihrest =>
    -- what the chart itself and the charts inside it note, before the charts beside it
    have hown : ∃ stages notes, Extends (fun _ => True) stages notes st st₂ ∧
        List.Forall₂ (DrawsFrom st.flow.next st₂) (chart.inContext Chart.lineage declared)
          (notes ++ [c]) := by
      rw [Chart.inContext_eq]
      rcases addChart_inv hadd hr with
        ⟨first, begin, stages, head, hraised⟩ | ⟨header, inner, rfl, -, -, hnone, rfl⟩
      · obtain ⟨inside, notes, hext, hall⟩ := ih (hraised.ready hr) fun way hway => by
          obtain rfl := Option.some.inj hway
          exact hraised.chain.transforms_inside ho
        have hle := hraised.additions.next_le hr.sound
        exact ⟨_, _, hraised.additions.trans hext, List.rel_append
          (hall.imp fun x component hx => hx.mono hle)
          (.cons (hraised.draws_inside ho hinside) .nil)⟩
      · have houter : ∀ way ∈ (none : Option (List Stage)), way.flatMap Stage.transforms =
            Chart.lineage declared (.layer header inner) := by simp
        obtain ⟨inside, notes, hext, hall⟩ := ih (hnone ▸ hr.loose) houter
        exact ⟨_, _, hext, List.rel_append hall
          (.cons (fun hu => absurd hu (by simp [Chart.isUnit])) .nil)⟩
    obtain ⟨own, notes, hext, hall⟩ := hown
    have hnote : Extends (fun _ => True) [] [c] st₂
        { st₂ with components := st₂.components ++ [c] } := .note c (.nil _)
    have hready := hnote.ready (hext.ready hr)
    obtain ⟨others, notes', hext', hall'⟩ := ihrest hready ho
    refine ⟨_, _, hext.trans (hnote.trans hext'), ?_⟩
    rw [Chart.allInContext, ← List.append_assoc]
    refine List.rel_append (hall.imp fun x component hx => ?_)
      (hall'.imp fun x component hx => hx.mono (hext.next_le hr.sound))
    -- the charts beside it go on from a stage that was there before, so from none of its main
    -- outputs
    refine hx.of_builds hrest hready fun id hid => ?_
    obtain ⟨-, way, -, hat⟩ := hr.inherited id hid
    exact hat.lt_next hr.sound

/-- Building may start with nothing. -/
theorem ready_empty : Ready (fun _ => True) none none {} :=
  ⟨sound_empty, fun _ _ => trivial, fun e he => absurd he (by simp), fun _ hid => absurd hid (by simp)⟩

end Building

/-- On the way to the main output of every unit, the assembled flow has the transforms of the charts
    from the nearest one around the unit that declares data down to the unit itself, in the order
    of their declaration: neither the passes nor the elimination add, drop or reorder any. -/
theorem optimizeFlow_keeps_lineage {chart : Chart} {built : Building} {options : CompilerOptions}
    {flow : Flow} (hb : Building.ofChart chart = .ok built)
    (hrun : options.optimizeFlow built.flow = (.ok (), flow)) :
    flow.stages.walk.Nodup ∧
      List.Forall₂ (fun x component => x.2.isUnit = true → ∃ main, component.main = some main ∧
        ∃ v ∈ flow.stages.places [], v.id = main ∧ v.content = x.2.mainOutput ∧
          v.above.flatMap (·.2.transforms) = x.2.lineage x.1)
        (chart.inContext Chart.lineage []) built.components := by
  have hlawful := Building.ofChart_lawful hb
  have hready := Building.ready_empty
  obtain ⟨f, hpasses, hst⟩ := options.passes_of_optimizeFlow hlawful hrun
  refine ⟨hst ▸ Forest.nodup_prune _ (hpasses.lawful hlawful).nodup, ?_⟩
  have houter : ∀ way ∈ (none : Option (List Stage)), way.flatMap Stage.transforms = [] := by
    simp
  obtain ⟨stages, notes, hext, hall⟩ := (Building.builds_of_ofChart hb).draws hready houter
  have hnotes : built.components = notes := hext.components_eq hready.sound
  rw [hnotes, ← Chart.allInContext_singleton]
  refine hall.imp fun x component hx hu => ?_
  obtain ⟨main, hmain, -, ⟨v, hv, rfl, hcontent, hdecl⟩, hbottom⟩ := hx hu
  have hrequired : x.2.mainOutput = .output (x.2.nameFor "main") true := by
    rw [Chart.mainOutput, hu, Bool.true_or]
  -- followed through the passes and the elimination
  have hdrawn := Forest.drawn_of_passes hpasses ((hext.sound hready.sound).drawn hv hbottom)
    (by rw [hcontent]; rfl)
  have hdrawn' := hdrawn.prune (by rw [hcontent, hrequired]; rfl)
  rw [← hst] at hdrawn'
  obtain ⟨v', hv', hid, hcontent'⟩ := hdrawn'.mem
  have hway := hdrawn'.way v' hv' hid (by rw [hcontent', hcontent]; rfl)
  exact ⟨v.id, hmain, v', hv', hid, hcontent'.trans hcontent, hway.2.trans hdecl⟩

/-- A layer of a unit that goes on with the layer's data, filtered and calculated from, and of a
    facet with data of its own. -/
def calculatedLayers : Chart :=
  .layer
    { data := some (.named "rows"),
      transforms := [.filter (.expression "datum.x > 0"), .calculate "datum.x * 2" "y"] }
    [.unit { name := "points", transforms := [.filter (.expression "datum.y < 9")] } .point ∅ none,
      .facet
        { name := "grid", data := some (.named "others"),
          transforms := [.calculate "datum.a + 1" "b"] } { column := some (.named "k" .nominal) }
        (.unit { name := "bars", transforms :=
          [.filter (.expression "datum.b > 1"), .calculate "datum.b * datum.b" "c",
            .filter (.expression "datum.c < 9")] } .bar ∅ none)]

/-- The unit in the layer has the three transforms around it, that in the facet the four from the
    facet on. -/
theorem optimizeFlow_keeps_lineage_calculatedLayers : ∃ built flow,
    Building.ofChart calculatedLayers = .ok built ∧
      ({} : CompilerOptions).optimizeFlow built.flow = (.ok (), flow) ∧
      (calculatedLayers.inContext Chart.lineage []).map
        (fun x => (x.2.name, (x.2.lineage x.1).length)) =
          [("points", 3), ("bars", 4), ("grid", 1), ("", 2)] ∧
      flow.stages.walk.Nodup ∧
      List.Forall₂ (fun x component => x.2.isUnit = true → ∃ main, component.main = some main ∧
        ∃ v ∈ flow.stages.places [], v.id = main ∧ v.content = x.2.mainOutput ∧
          v.above.flatMap (·.2.transforms) = x.2.lineage x.1)
        (calculatedLayers.inContext Chart.lineage []) built.components := by
  have hruns : (match Building.ofChart calculatedLayers with
      | .ok built => (({} : CompilerOptions).optimizeFlow built.flow).1.isOk
      | .error _ => false) = true := by decide +kernel
  cases hb : Building.ofChart calculatedLayers with
  | error e => simp [hb] at hruns
  | ok built =>
    rw [hb] at hruns
    have hrun := Run.eq_ok_of_isOk hruns
    exact ⟨built, _, rfl, hrun, rfl, optimizeFlow_keeps_lineage hb hrun⟩

end ChartPipeline
