import ChartPipeline.Proofs.Derived
import ChartPipeline.Proofs.Ordering

/-!
# Optimizing a unit

The flow of a unit is a single way in order.  If no channel reads what another one derives, the
marks read the same rows with optimization as without it.

## Key results

- `Chart.UnitWay`: what is known of the way of a unit
- `optimizeFlow_unit`: optimization keeps the rows that a unit delivers
-/

namespace ChartPipeline

variable {a : Stage} {w w' w₀ : List (Nat × Stage)}

/-! ### The flow of a unit -/

/-- The way of a unit. -/
def Chart.UnitWay (chart : Chart) (w : List (Nat × Stage)) : Prop :=
  ∃ s before after, chart.stagesBeforeRaw = .ok before ∧ chart.stagesAfterRaw = .ok after ∧
    w.map Prod.snd = .source s :: (before ++ chart.rawOutput :: (after ++ [chart.mainOutput]))

namespace Chart.UnitWay

variable {chart : Chart}

/-- The stages of a unit come in the order of their ranks. -/
theorem pairwise_rank (h : chart.UnitWay w) :
    (w.map Prod.snd).Pairwise fun a b => a.rank ≤ b.rank := by
  obtain ⟨s, before, after, hb, ha, hmap⟩ := h
  rw [hmap]
  exact pairwise_rank_stages s hb ha

/-- So they are sorted. -/
theorem sorted (h : chart.UnitWay w) : Sorted (w.map Prod.snd) :=
  h.pairwise_rank.imp fun h _ _ => h

/-- Each may come before those after it. -/
theorem mayPrecede (h : chart.UnitWay w) : w.Pairwise fun e e' => e.2.MayPrecede e'.2 :=
  (List.pairwise_map.1 h.pairwise_rank).imp fun h _ _ => .inl h

/-- Of conversions, null filters, bins and time units there is at most one each. -/
private theorem length_filter (h : chart.UnitWay w) {t : Tag}
    (ht : t = .parse ∨ t = .nullFilter ∨ t = .bin ∨ t = .timeUnit) :
    (w.filter (·.2.tag = t)).length ≤ 1 := by
  obtain ⟨s, before, after, hb, ha, hmap⟩ := h
  have := length_filter_tag_le_one s hb ha ht
  rwa [← hmap, List.filter_map, List.length_map] at this

/-- So a unit bins once, and cuts down to time units once. -/
theorem derivesOnce (h : chart.UnitWay w) : DerivesOnce w :=
  ⟨h.length_filter (.inr (.inr (.inl rfl))), h.length_filter (.inr (.inr (.inr rfl)))⟩

/-- A unit converts right after its source. -/
theorem stays_parse (h : chart.UnitWay w) (policy : FacetPolicy) : Forest.Stays .parse policy w := by
  have hone := h.length_filter (.inl rfl)
  have hrank := List.pairwise_map.1 h.pairwise_rank
  have hsource : w.Pairwise fun e e' => e'.2.tag = .parse → e.2.tag = .source := by
    clear h
    -- stage by stage: before a conversion there is nothing of a higher rank, and no other
    -- conversion
    induction w with
    | nil => exact .nil
    | cons e w ih =>
      obtain ⟨he, hw⟩ := List.pairwise_cons.1 hrank
      refine List.pairwise_cons.2 ⟨fun e' he' hparse => ?_, ih ?_ hw⟩
      · have hle := he e' he'
        have hne : e.2.tag ≠ .parse := by
          intro hp
          rw [List.filter_cons_of_pos (by simpa using hp), List.length_cons] at hone
          have hmem : e' ∈ w.filter (·.2.tag = .parse) :=
            List.mem_filter.2 ⟨he', by simpa using hparse⟩
          have := List.length_pos_of_mem hmem
          omega
        revert hle hne hparse
        cases e.2 <;> cases e'.2 <;> simp [Stage.tag, Stage.rank]
      · refine Nat.le_trans ?_ hone
        exact (List.sublist_cons_self e w).filter _ |>.length_le
  refine hsource.isChain.imp fun e e' h hh => ?_
  have htag : e'.2.tag = .parse := by
    revert hh
    cases e'.2 <;> simp [Pass.handles, Stage.tag]
  rw [Move.choose, if_pos (h htag)]

/-- What stands on the way of a unit. -/
theorem mem_cases (h : chart.UnitWay w) {e : Nat × Stage} (he : e ∈ w) :
    (e.2.tag = .source ∨ e.2.tag = .output) ∨ e.2.isGrouping = true ∨
      ∃ before, chart.stagesBeforeRaw = .ok before ∧ e.2 ∈ before := by
  obtain ⟨s, before, after, hb, ha, hmap⟩ := h
  have hmem : e.2 ∈ w.map Prod.snd := List.mem_map_of_mem he
  rw [hmap] at hmem
  simp only [List.mem_cons, List.mem_append, List.not_mem_nil, or_false] at hmem
  rcases hmem with hmem | hmem | hmem | hmem | hmem
  · exact .inl (.inl (by rw [hmem]; rfl))
  · exact .inr (.inr ⟨before, hb, hmem⟩)
  · exact .inl (.inr (by rw [hmem]; rfl))
  · exact .inr (.inl ((stagesAfterRaw_grouping ha).1 _ hmem))
  · exact .inl (.inr (by rw [hmem]; rfl))

/-- A stage of a unit that bins or cuts down to time units stands before the raw output. -/
theorem mem_before (h : chart.UnitWay w) {e : Nat × Stage} (he : e ∈ w)
    (ht : e.2.tag = .bin ∨ e.2.tag = .timeUnit) :
    ∃ before, chart.stagesBeforeRaw = .ok before ∧ e.2 ∈ before := by
  rcases h.mem_cases he with hend | hgroup | hbefore
  · rcases ht with ht | ht <;> simp [ht] at hend
  · rcases ht with ht | ht <;> simp [Stage.isGrouping, ht] at hgroup
  · exact hbefore

/-- A unit has no partitions. -/
theorem partitionFields_eq_nil (h : chart.UnitWay w) {e : Nat × Stage} (he : e ∈ w) :
    e.2.partitionFields = [] := by
  have hkind : e.2.tag ≠ .facet := by
    intro ht
    rcases h.mem_cases he with hend | hgroup | ⟨before, hb, hmem⟩
    · simp [ht] at hend
    · simp [Stage.isGrouping, ht] at hgroup
    · exact absurd (tag_of_mem_stagesBeforeRaw hb hmem) (by simp [ht])
  cases ha : e.2 with
  | facet => exact absurd (congrArg Stage.tag ha) hkind
  | _ => rfl

end Chart.UnitWay

/-- Without fields to group by, a stage is not widened. -/
theorem Stage.Widened.eq (h : Stage.Widened [] a b) : b = a := by
  have hnil {more : List String} (h : ∀ f ∈ more, f ∈ ([] : List String)) : more = [] :=
    List.eq_nil_iff_forall_not_mem.2 fun f hf => absurd (h f hf) (by simp)
  cases h with
  | refl => rfl
  | aggregate a h => rw [hnil h, List.append_nil]
  | stack s h => rw [hnil h, List.append_nil]

/-- Everything that is transformed or derived on a way in order stands before its endpoints. -/
theorem before_endpoint {l r : List (Nat × Stage)} {i : Nat} (ha : a.isEndpoint = true)
    (hw : (l ++ (i, a) :: r).Pairwise fun e e' => e.2.MayPrecede e'.2) :
    (l ++ (i, a) :: r).flatMap (·.2.core) = l.flatMap (·.2.core) ∧
      ∀ t, t = .bin ∨ t = .timeUnit →
        (l ++ (i, a) :: r).filter (·.2.tag = t) = l.filter (·.2.tag = t) := by
  have hacts : a.acts = true ∧ a.rank = 4 := by
    cases a <;> simp_all [Stage.isEndpoint, Stage.acts, Stage.rank]
  -- an endpoint is of the last rank, so all that acts below it is too
  have hrest : ∀ e ∈ (i, a) :: r, e.2.acts = true → 4 ≤ e.2.rank := by
    intro e he hea
    rcases List.mem_cons.1 he with rfl | he
    · exact hacts.2.ge
    · have h : a.MayPrecede e.2 := (List.pairwise_cons.1 (List.pairwise_append.1 hw).2.1).1 e he
      rcases h hacts.1 hea with h | h <;> omega
  constructor
  · have hnil : ((i, a) :: r).flatMap (·.2.core) = [] := by
      refine List.flatMap_eq_nil_iff.2 fun e he => ?_
      have := hrest e he
      revert this
      cases e.2 <;> simp [Stage.core, Stage.acts, Stage.rank]
    rw [List.flatMap_append, hnil, List.append_nil]
  · intro t ht
    have hnil : ((i, a) :: r).filter (·.2.tag = t) = [] := by
      refine List.filter_eq_nil_iff.2 fun e he => ?_
      have := hrest e he
      revert this
      rcases ht with rfl | rfl <;> cases e.2 <;> simp [Stage.tag, Stage.acts, Stage.rank]
    rw [List.filter_append, hnil, List.append_nil]

/-- No channel or dimension of a chart reads a field that the chart itself derives. -/
def Chart.DerivesApart (chart : Chart) : Prop :=
  ∀ before, chart.stagesBeforeRaw = .ok before → ∀ a ∈ before, ∀ field ∈ a.generated,
    ¬ chart.Reads field

instance (chart : Chart) : Decidable chart.DerivesApart :=
  match h : chart.stagesBeforeRaw with
  | .ok before =>
    decidable_of_iff (∀ a ∈ before, ∀ field ∈ a.generated, ∀ d ∈ chart.fieldDefs,
      d.2.field ≠ some field) (by simp [Chart.DerivesApart, Chart.Reads, h])
  | .error _ => isTrue fun before hb => absurd (h.symm.trans hb) (by simp)

namespace Interpretation

variable {V E : Type} (I : Interpretation V E) {chart : Chart}

/-- In a unit, bins and time units may be exchanged. -/
theorem commute_of_unitWay (hw : chart.UnitWay w) (hapart : chart.DerivesApart) :
    ∀ a ∈ w.map Prod.snd, ∀ b ∈ w.map Prod.snd, a.tag = .timeUnit → b.tag = .bin →
      I.Commute b a := by
  intro a ha b hb hta htb
  obtain ⟨e, he, rfl⟩ := List.mem_map.1 ha
  obtain ⟨e', he', rfl⟩ := List.mem_map.1 hb
  obtain ⟨before, hbefore, hmem⟩ := hw.mem_before he (.inr hta)
  obtain ⟨before', hbefore', hmem'⟩ := hw.mem_before he' (.inl htb)
  obtain rfl : before = before' := Except.ok.inj (hbefore.symm.trans hbefore')
  have hunit := Chart.wellNamed_of_mem_stagesBeforeRaw hbefore hmem
  have hbin := Chart.wellNamed_of_mem_stagesBeforeRaw hbefore hmem'
  have hnot := hapart before hbefore e.2 hmem
  have hnot' := hapart before hbefore e'.2 hmem'
  -- only a time unit and a bin are left, neither of which reads what the other writes
  revert hta htb hunit hbin hnot hnot'
  cases e.2 <;> cases e'.2 <;> simp only [Stage.tag, reduceCtorEq, false_implies, implies_true]
  intro _ _ hunit hbin hnot hnot'
  exact I.commute_bin_timeUnit hbin hunit fun field hread =>
    ⟨fun hmem => hnot' field hmem hread, fun hmem => hnot field hmem hread⟩

/-- A way in order with the same stages delivers the same rows. -/
theorem delivered_ordered (h₀ : chart.UnitWay w₀) (hapart : chart.DerivesApart)
    (hw : Ordered w₀ w) (hs : Sorted (w.map Prod.snd))
    (hk : List.Forall₂ Forest.Place.Kept (Forest.strand w₀).endpoints (Forest.strand w).endpoints)
    (hg : ∀ o ∈ (Forest.strand w₀).endpoints, Chart.GroupedOnce (o.above.map Prod.snd)) :
    I.delivered (.strand w) = I.delivered (.strand w₀) := by
  have hplace {w : List (Nat × Stage)} {o : Forest.Place Stage}
      (ho : o ∈ (Forest.strand w).endpoints) :
      o.content.isEndpoint = true ∧ ∃ r, w = o.above ++ (o.id, o.content) :: r := by
    obtain ⟨hmem, he⟩ := List.mem_filter.1 ho
    obtain ⟨l, r, hsplit, habove⟩ := Forest.mem_places_strand.1 hmem
    rw [List.nil_append] at habove
    exact ⟨he, r, habove ▸ hsplit⟩
  -- what is before an endpoint is the same as on the other way, kind by kind
  have hrows {o o' : Forest.Place Stage} (hk : o.Kept o') (ho : o ∈ (Forest.strand w₀).endpoints)
      (ho' : o' ∈ (Forest.strand w).endpoints) : I.rowsAt o' = I.rowsAt o := by
    have hgrouped := hg o ho
    obtain ⟨he, r, hsplit⟩ := hplace ho
    obtain ⟨he', r', hsplit'⟩ := hplace ho'
    have hkeeps := (hk.keeps hgrouped).1
    have hbefore := before_endpoint he (hsplit ▸ h₀.mayPrecede)
    have hbefore' := before_endpoint he' (hsplit' ▸ hw.mayPrecede)
    rw [← hsplit] at hbefore
    rw [← hsplit'] at hbefore'
    have hmem {e : Nat × Stage} (h : e ∈ o.above) : e ∈ w₀ := by
      rw [hsplit]
      exact List.mem_append_left _ h
    have hfilter {t : Tag} (ht : t = .bin ∨ t = .timeUnit)
        (h : w.filter (·.2.tag = t) = w₀.filter (·.2.tag = t)) :
        (o'.above.map Prod.snd).filter (·.tag = t) = (o.above.map Prod.snd).filter (·.tag = t) := by
      rw [hbefore.2 t ht, hbefore'.2 t ht] at h
      rw [List.filter_map, List.filter_map]
      exact congrArg (List.map Prod.snd) h
    refine I.run_congr ?_ ?_ ?_ ?_ ?_ (hfilter (.inl rfl) hw.bins) (hfilter (.inr rfl) hw.units) ?_ []
    · refine h₀.sorted.sublist ?_
      rw [hsplit, List.map_append]
      exact List.sublist_append_left _ _
    · refine hs.sublist ?_
      rw [hsplit', List.map_append]
      exact List.sublist_append_left _ _
    · rw [List.flatMap_map, List.flatMap_map]
      exact (hbefore'.1.symm.trans hw.core).trans hbefore.1
    · intro field
      rw [List.flatMap_map, List.flatMap_map]
      exact hkeeps.dropped field
    · have hnone : o.above.flatMap (·.2.partitionFields) = [] :=
        List.flatMap_eq_nil_iff.2 fun e he => h₀.partitionFields_eq_nil (hmem he)
      have hgroups := hkeeps.groups
      rw [hnone] at hgroups
      rw [List.filter_map, List.filter_map, ← List.forall₂_eq_eq_eq, List.forall₂_map_left_iff,
        List.forall₂_map_right_iff]
      exact hgroups.flip.imp fun e e' h => h.2.eq
    · exact fun a ha b hb => I.commute_of_unitWay h₀ hapart a
        (List.map_subset _ (fun _ h => hmem h) ha) b (List.map_subset _ (fun _ h => hmem h) hb)
  have hall := (List.forall₂_and_left _ _).2 ⟨fun o ho => ho, hk⟩
  have hall' := (List.forall₂_and_left _ _).2 ⟨fun o' ho' => ho', hall.flip⟩
  rw [delivered, delivered, ← List.forall₂_eq_eq_eq, List.forall₂_map_left_iff,
    List.forall₂_map_right_iff]
  refine hall'.imp fun o' o h => ?_
  obtain ⟨ho', ho, hk⟩ := h
  rw [hk.content_eq, hrows hk ho ho']

end Interpretation

/-! ### Compiling a unit -/

/-- Optimizing a unit whose channels read no field that the unit derives itself: without
    optimization compiling goes as well, and the rows that arrive at the required outputs are the
    same with optimization, without it, and in the flow as it was built. -/
theorem optimizeFlow_unit {V E : Type} (I : Interpretation V E) {header : ChartHeader} {mark : Mark}
    {encoding : Encoding} {stack : Option StackProperties} {built : Building}
    (hb : Building.ofChart (.unit header mark encoding stack) = .ok built)
    (hapart : (Chart.unit header mark encoding stack).DerivesApart)
    {options : CompilerOptions} (ho : options.optimize = true) {optimized : Flow}
    (hopt : options.optimizeFlow built.flow = (.ok (), optimized)) :
    ∃ plain, { options with optimize := false }.optimizeFlow built.flow = (.ok (), plain) ∧
      I.delivered optimized.stages = I.delivered plain.stages ∧
      I.delivered plain.stages = I.delivered built.flow.stages := by
  obtain ⟨w, s, before, after, hstrung, hway⟩ := Building.ofChart_unit rfl hb
  have hunit : (Chart.unit header mark encoding stack).UnitWay w := ⟨s, before, after, hway⟩
  have hlawful := Building.ofChart_lawful hb
  have hstrand := hstrung.stages
  -- without optimization nothing moves
  have hsettled : Forest.Settled .parse options.facetPolicy built.flow.stages := by
    rw [hstrand]
    exact Forest.settled_strand.2 (hunit.stays_parse _)
  obtain ⟨moved, hmoved, hsame⟩ := Flow.runPass_of_settled (n := options.iterations)
    (Nat.le_max_right _ _) hlawful hsettled
  obtain ⟨plain, hplain, hpruned⟩ := CompilerOptions.optimizeFlow_plain
    { options with optimize := false } rfl hmoved
  have hdelivered : I.delivered plain.stages = I.delivered built.flow.stages := by
    rw [hpruned, I.delivered_prune, hsame]
  -- with it the stages come back into order
  obtain ⟨hoisted, hhoist, hpruned'⟩ := CompilerOptions.optimizeFlow_ok ho hopt
  have hpasses := Flow.hoist_ok hhoist hlawful
  rw [hstrand] at hpasses
  obtain ⟨w', hw', hsorted, hkept, hparse⟩ :=
    Ordered.hoisted hpasses hunit.mayPrecede hunit.derivesOnce
  refine ⟨plain, hplain, ?_, hdelivered⟩
  rw [hdelivered, hpruned', I.delivered_prune, I.delivered_of_parse hparse, hstrand]
  -- the endpoints of the strand group at most once each
  refine I.delivered_ordered hunit hapart hw' hsorted hkept fun o hmem => ?_
  rw [← hstrand] at hmem
  exact Building.groupedOnce_endpoint hb hmem

/-- A unit that calculates, filters, bins and cuts down to years. -/
def yearlyBins : Chart :=
  .unit {
      data := some (.named "rows")
      transforms := [.calculate "datum.a * 2" "b", .filter (.expression "datum.b > 0")] } .bar
    (((∅ : Encoding).insert .x ((FieldDef.named "a" .quantitative).withBin (.flag true))).insert .y
      ((FieldDef.named "t" .temporal).withTimeUnit .year)) none

/-- The rows of a unit whose bins and time units change places. -/
theorem optimizeFlow_unit_yearlyBins : ∃ built optimized plain,
    Building.ofChart yearlyBins = .ok built ∧ yearlyBins.DerivesApart ∧
      ({} : CompilerOptions).optimizeFlow built.flow = (.ok (), optimized) ∧
      ({ optimize := false } : CompilerOptions).optimizeFlow built.flow = (.ok (), plain) ∧
      lengths.delivered optimized.stages = lengths.delivered plain.stages ∧
      lengths.delivered plain.stages = lengths.delivered built.flow.stages := by
  have hruns : (match Building.ofChart yearlyBins with
      | .ok built => (({} : CompilerOptions).optimizeFlow built.flow).1.isOk
      | .error _ => false) = true := by decide +kernel
  have hapart : yearlyBins.DerivesApart := by decide +kernel
  cases hb : Building.ofChart yearlyBins with
  | error e => simp [hb] at hruns
  | ok built =>
    rw [hb] at hruns
    have hopt := Run.eq_ok_of_isOk hruns
    obtain ⟨plain, hplain, hrows⟩ := optimizeFlow_unit lengths hb hapart rfl hopt
    exact ⟨built, _, plain, rfl, hapart, hopt, hplain, hrows⟩

end ChartPipeline