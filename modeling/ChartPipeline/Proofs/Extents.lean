import ChartPipeline.Proofs.Bundling
import ChartPipeline.Proofs.Tracing

/-!
# The rows that bins see

The extent of a bin is that of the rows that arrive at it.  The pass for bins lifts them above
filters of all kinds, and later passes lift the filters above the bins again, up to the nearest
required output: there the filters have to stay, where bins do not.  So a bin is below the filters
that it was below, but for those between it and a required output that it has passed.

## Key results

- `Reroutes.reach`: below a bin, no filters stand before the next endpoint
- `Forest.Rewrites.prune_parse`: conversions aside, their pass leaves a flow as it is
- `hoist_keeps_binned_rows`: which filters are above a bin after hoisting
-/

namespace ChartPipeline

/-! ### What may stand below bins -/

/-- Endpoints are outlets. -/
theorem Stage.isOutlet_of_isEndpoint {a : Stage} (h : a.isEndpoint = true) : a.isOutlet = true := by
  cases a <;> simp_all [Stage.isEndpoint, Stage.isOutlet, Stage.tag]

/-- A way that keeps what it drops and groups filters alike. -/
theorem Keeps.filtersAlike {w w' : List (Nat × Stage)} (h : Keeps w w') : FiltersAlike w w' :=
  ⟨h.predicates, h.dropped⟩

/-- What may stand in a row below a stage, whatever passes do: below bins nothing that is
    calculated, below what groups nothing that filters, and below headers nothing at all. -/
structure Stage.Admits (a b : Stage) : Prop where
  follows : a.MayFollow b
  bin : a.tag = .bin → b.tag ≠ .calculate
  grouping : a.isGrouping = true → b.tag ≠ .filter ∧ b.dropped = []

variable {C : Stage → Stage → Prop} {pass : Pass} {policy : FacetPolicy} {a b c : Stage}
  {dims : List String} {w w' : List (Nat × Stage)}

/-- Above filters that drop rows, nothing that groups rises. -/
theorem Rises.not_filter (h : Rises pass policy a b dims) (hb : b.isGrouping = true) :
    a.tag ≠ .filter ∧ a.dropped = [] := by
  have hh := h.handled
  have hp := h.passage
  -- by cases of the pass: nothing that groups may pass a filter that drops rows
  cases pass <;> cases b <;> simp_all [Stage.tag, Stage.isGrouping, Pass.handles] <;>
    cases a <;> simp_all [Stage.dropped, Stage.tag, Move.passage?, FieldFlags.isVacuous_iff]

/-- What may stand in a row below a stage may stand there after a move. -/
theorem Stage.admits_stable (pass : Pass) (policy : FacetPolicy) :
    Stable Stage.Admits pass policy where
  -- what is joined has the kind of both, and drops rows for what either does
  join {a b c} h hab z := by
    have hc := Stage.tag_of_merge? h.merged
    obtain ⟨hza, haz⟩ := (Stage.mayFollow_stable pass policy).join h hab.follows z
    constructor
    · intro ha hb
      refine ⟨hza ha.follows hb.follows, fun hz => hc ▸ ha.bin hz, fun hz => ⟨?_, ?_⟩⟩
      · rw [hc]
        exact (ha.grouping hz).1
      · rw [List.eq_nil_iff_forall_not_mem]
        intro field hf
        rw [h.mem_dropped, (ha.grouping hz).2, (hb.grouping hz).2] at hf
        simp at hf
    · intro ha hb
      refine ⟨haz ha.follows hb.follows, fun ht => ha.bin (hc ▸ ht), fun hg => ha.grouping ?_⟩
      rw [← Stage.isGrouping_congr hc]
      exact hg
  -- only conversions pass a calculation, and nothing that groups passes a filter
  rise {a b dims} h hab := by
    refine ⟨(Stage.mayFollow_stable pass policy).rise h hab.follows, fun ht ha => ?_, fun hg => ?_⟩
    · obtain ⟨types, rfl⟩ := h.parse_of_barrier (.inl ha)
      exact absurd ht (by simp [Stage.addDimensions, Stage.tag])
    · rw [Stage.isGrouping_congr (Stage.tag_addDimensions dims b)] at hg
      exact h.not_filter hg
  dims b dims z := by
    have ht := Stage.tag_addDimensions dims b
    have hd : (b.addDimensions dims).dropped = b.dropped := by cases b <;> rfl
    have hf := (Stage.mayFollow_stable pass policy).dims b dims z
    constructor
    · intro h
      refine ⟨hf.1 h.follows, fun hz => ht ▸ h.bin hz, fun hz => ?_⟩
      rw [ht, hd]
      exact h.grouping hz
    · intro h
      refine ⟨hf.2 h.follows, fun hb => h.bin (ht ▸ hb), fun hg => h.grouping ?_⟩
      rw [← Stage.isGrouping_congr ht]
      exact hg

namespace Chart

variable {chart : Chart} {outer : Option (List Stage)} {begin stages way : List Stage}

/-- What comes after a grouping stage in a chart comes as late. -/
theorem Chain.late (h : Chain outer chart begin stages)
    (hb : ∀ a ∈ begin, a.isGrouping = false) :
    (begin ++ stages).Pairwise fun a b => a.isGrouping = true → 4 ≤ b.rank := by
  obtain ⟨-, hbefore, hafter⟩ := h
  have hranks := (List.pairwise_cons.1 (pairwise_rank_stages default hbefore hafter)).2
  refine List.pairwise_append.2 ⟨?_, hranks.imp fun {a b} hab ha => ?_, fun a ha b _ hg => ?_⟩
  · exact List.pairwise_of_forall_mem_list fun a ha b _ hg => absurd hg (by simp [hb a ha])
  · have hrank : a.rank = 4 := by
      cases a <;> simp_all [Stage.isGrouping, Stage.tag, Stage.rank]
    omega
  · exact absurd hg (by simp [hb a ha])

/-- On a way that a chart declares, nothing is filtered after it has been grouped. -/
theorem Declares.late (h : Declares outer chart way)
    (ho : ∀ w ∈ outer, ∀ a ∈ w, a.isGrouping = false) :
    way.Pairwise fun a b => a.isGrouping = true → 4 ≤ b.rank := by
  -- what a facet adds at the end comes as late
  have concat {w : List Stage} {b : Stage}
      (hw : w.Pairwise fun a b => a.isGrouping = true → 4 ≤ b.rank) (hb : 4 ≤ b.rank) :
      (w ++ [b]).Pairwise fun a b => a.isGrouping = true → 4 ≤ b.rank := by
    refine List.pairwise_append.2 ⟨hw, List.pairwise_singleton _ _, fun a _ b' hb' _ => ?_⟩
    rwa [List.mem_singleton.1 hb']
  induction h with
  | chain h hw =>
    have := h.late (h.starts.not_grouping ho)
    exact this.sublist ((List.prefix_append_right_inj _).2 hw).sublist
  | header h hh =>
    refine concat (h.late (h.starts.not_grouping ho)) ?_
    unfold headerStage at hh
    split at hh
    · obtain rfl := Except.ok.inj hh
      exact Nat.le_refl 4
    · exact absurd hh (by simp)
  | facet h hp => exact concat (h.late (h.starts.not_grouping ho)) (Nat.le_refl 4)
  | @inside outer chart begin stages child way h hm hd ih =>
    refine ih fun w hw => ?_
    obtain rfl := Option.some.inj hw
    refine h.not_grouping ?_ (h.starts.not_grouping ho)
    cases chart <;> simp_all [isUnit, children]
  | loose hn hm hd ih => exact ih fun w hw => absurd hw (by simp)

end Chart

/-- In the flow of a chart, every stage may stand below those in a row above it. -/
theorem Building.fenced_admits {chart : Chart} {built : Building}
    (h : Building.ofChart chart = .ok built) : built.flow.stages.Fenced Stage.Admits [] := by
  refine fenced h fun v hv l e m habove hsequel => ?_
  have hroute : v.route = l ++ e :: (m ++ [(v.id, v.content)]) := by
    rw [Forest.Place.route, habove]
    simp
  have hfollows := ofChart_orderly h v hv
  rw [FollowsOn, hroute] at hfollows
  have hlate := ((ofChart_built h).declared v hv).late fun w hw => absurd hw (by simp)
  rw [hroute, List.map_append, List.map_cons, List.map_append] at hlate
  -- after what groups, only stages of the last rank stand on a way
  have hlast : e.2.isGrouping = true → 4 ≤ v.content.rank :=
    (List.pairwise_cons.1 (List.pairwise_append.1 hlate).2.1).1 v.content (by simp)
  refine ⟨(List.pairwise_cons.1 (List.pairwise_append.1 hfollows).2.1).1 (v.id, v.content) (by simp),
    fun ht => ?_, fun hg => ?_⟩
  · have hrank := (hsequel (Stage.prepares_iff.2 (.inr (.inl ht)))).1
    revert ht hrank
    cases e.2 <;> cases v.content <;> simp [Stage.tag, Stage.rank]
  · have := hlast hg
    revert this
    cases v.content <;> simp [Stage.tag, Stage.rank, Stage.dropped]

/-! ### Filters on a strand -/

/-- A filter that stays is below an endpoint, or below what stops everything. -/
theorem Move.stopped {a b : Stage} (h : choose policy b a true = .stay)
    (hb : b.tag = .filter ∨ b.tag = .nullFilter) :
    (a.tag = .source ∨ a.tag = .calculate) ∨ a.isEndpoint = true ∨ a.isGrouping = true := by
  cases a with
  | output name required =>
    cases required <;> cases b <;> simp_all [choose, passage?, Stage.tag, Stage.isEndpoint]
  | _ => cases b <;> simp_all [choose, passage?, Stage.tag, Tag.joins, Stage.isEndpoint,
      Stage.isGrouping]

/-- Whether a stage filters no rows. -/
def Stage.Spares (a : Stage) : Prop := a.predicates = [] ∧ a.dropped = []

/-- Once a pass has come to its end, no filter that it moves is between a bin and the next
    endpoint. -/
theorem Forest.Stays.spares {l x r : List (Nat × Stage)} {b e : Nat × Stage}
    (hs : Forest.Stays pass policy (l ++ b :: (x ++ r)))
    (hw : (l ++ b :: (x ++ r)).Pairwise fun e e' => e.2.Admits e'.2) (hb : b.2.tag = .bin)
    (hx : ∀ e ∈ x, e.2.isEndpoint = false) (he : e ∈ x) (hh : pass.handles e.2.tag = true)
    (ht : e.2.tag = .filter ∨ e.2.tag = .nullFilter) : e.2.Spares := by
  obtain ⟨x₁, x₂, rfl⟩ := List.append_of_mem he
  -- the stage directly above the filter
  obtain ⟨y, p, hp⟩ : ∃ y p, b :: x₁ = y ++ [p] :=
    (List.eq_nil_or_concat' (b :: x₁)).resolve_left (by simp)
  have hsplit : l ++ b :: (x₁ ++ e :: x₂ ++ r) = l ++ y ++ p :: e :: (x₂ ++ r) := by
    have : b :: (x₁ ++ e :: x₂ ++ r) = (b :: x₁) ++ e :: (x₂ ++ r) := by simp
    rw [this, hp]
    simp
  have hstay : Move.choose policy e.2 p.2 true = .stay := by
    rw [hsplit] at hs
    exact (List.isChain_cons_cons.1 hs.right_of_append).1 hh
  have hadmits : p.2.Admits e.2 := by
    rw [hsplit] at hw
    exact (List.pairwise_cons.1 (List.pairwise_append.1 hw).2.1).1 e (by simp)
  have hpred : p = b ∨ p ∈ x₁ := by
    have : p ∈ b :: x₁ := by simp [hp]
    exact List.mem_cons.1 this
  have hgroups : p.2.isGrouping = true := by
    rcases Move.stopped hstay ht with hstop | hend | hgroup
    · rcases hpred with rfl | hmem
      · simp [hb] at hstop
      · have hbelow := (List.pairwise_cons.1 (List.pairwise_append.1 hw).2.1).1 p (by simp [hmem])
        exact absurd hstop (not_or.2 ⟨hbelow.follows.2, hbelow.bin hb⟩)
    · rcases hpred with rfl | hmem
      · revert hb hend
        cases p.2 <;> simp [Stage.tag, Stage.isEndpoint]
      · exact absurd hend (by simp [hx p (by simp [hmem])])
    · exact hgroup
  obtain ⟨hfilter, hdropped⟩ := hadmits.grouping hgroups
  refine ⟨?_, hdropped⟩
  revert hfilter
  cases e.2 <;> simp [Stage.tag, Stage.predicates]

/-- A pass keeps the order of the stages that it does not move. -/
theorem Rerouted.filter_unhandled (h : Rerouted C pass policy w w') :
    w'.filter (fun e => !pass.handles e.2.tag) = w.filter fun e => !pass.handles e.2.tag := by
  have hparse (types : ParseTypes) : Pass.parse.handles (Stage.parse types).tag = true := rfl
  cases h with
  | refl => rfl
  | @join a b c h _ l p i r =>
    have hb := h.handled
    have ha := h.tag_eq ▸ hb
    simp [ha, hb, Stage.tag_of_merge? h.merged]
  | @rise a b dims h _ l p i r => simp [h.handled, h.not_handles]
  | drop h l i types r =>
    subst h
    simp [hparse]
  | widen h l i types types' r =>
    subst h
    simp [hparse]

/-- Taking the beginning of a list before or after leaving some items out, none of which ends it. -/
theorem filter_takeWhile {α : Type} {p q : α → Bool} (h : ∀ x, p x = false → q x = true)
    (l : List α) : (l.takeWhile p).filter q = (l.filter q).takeWhile p := by
  induction l with
  | nil => rfl
  | cons x l ih =>
    -- an item that ends the beginning is not left out
    cases hp : p x with
    | false => simp [hp, h x hp]
    | true => cases hq : q x <;> simp [hp, hq, ih]

namespace Forest

namespace Reroutes

variable {R : Stage → Stage → Prop} {passes : List Pass} {x e : Nat × Stage}

/-- Passes one after the other stop in between at some strand. -/
theorem of_append (passes passes' : List Pass) (h : Reroutes policy (passes ++ passes') w w') :
    ∃ v, Reroutes policy passes w v ∧ Reroutes policy passes' v w' := by
  induction passes generalizing w with
  | nil => exact ⟨w, .nil w, h⟩
  | cons pass passes ih =>
    cases h with
    | cons hr hs rest =>
      obtain ⟨v, h₁, h₂⟩ := ih rest
      exact ⟨v, .cons hr hs h₁, h₂⟩

/-- What every change of a strand keeps, passes keep. -/
theorem keeps {P : List (Nat × Stage) → Prop}
    (hP : ∀ pass w w', Rerouted (fun _ _ => True) pass policy w w' → P w → P w')
    (h : Reroutes policy passes w w') (hw : P w) : P w' := by
  have star {pass : Pass} {v v' : List (Nat × Stage)}
      (hr : Relation.ReflTransGen (Rerouted (fun _ _ => True) pass policy) v v') (hv : P v) :
      P v' := by
    induction hr with
    | refl => exact hv
    | tail _ h ih => exact hP _ _ _ h ih
  induction h with
  | nil => exact hw
  | cons hr _ _ ih => exact ih (star hr hw)

/-- Passes filter a strand alike. -/
theorem filtersAlike (h : Reroutes policy passes w w') : FiltersAlike w w' :=
  h.keeps (fun _ _ _ h hw => hw.trans h.filtersAlike) (.refl w)

/-- Outlets stay on their strand. -/
theorem mem_outlet_iff (h : Reroutes policy passes w w') (he : e.2.isOutlet = true) :
    e ∈ w' ↔ e ∈ w := by
  refine h.keeps (P := fun v => e ∈ v ↔ e ∈ w) (fun pass v v' h hv => Iff.trans ?_ hv) .rfl
  have hmem (l : List (Nat × Stage)) : e ∈ l ↔ e ∈ l.filter fun e => !pass.handles e.2.tag := by
    have hh : pass.handles e.2.tag = false := by
      by_contra hh
      exact absurd (Pass.not_isOutlet (by simpa using hh)) (by simp [he])
    simp [hh]
  rw [hmem v', hmem v, h.filter_unhandled]

/-- Passes leave on a strand only what may stand there. -/
theorem admits (h : Reroutes policy passes w w')
    (hw : w.Pairwise fun e e' => e.2.Admits e'.2) : w'.Pairwise fun e e' => e.2.Admits e'.2 :=
  h.keeps (fun pass _ _ h hv => h.pairwise (Stage.admits_stable pass policy)
    (fun _ _ _ => ⟨fun h => ⟨h.follows, h.bin, h.grouping⟩, fun h => ⟨h.follows, h.bin, h.grouping⟩⟩)
    hv) hw

/-- The only bin of a strand stays on it. -/
theorem filter_bin (h : Reroutes policy passes w w') (hx : w.filter (·.2.tag = .bin) = [x]) :
    w'.filter (·.2.tag = .bin) = [x] :=
  h.keeps (P := fun v => v.filter (·.2.tag = .bin) = [x])
    (fun _ _ _ h hv => (h.filter_tag (.inl rfl) (by simp [hv])).trans hv) hx

end Reroutes

/-- A strand with one bin is what is above it and what is below it. -/
private theorem exists_eq_append_bin {x : Nat × Stage} (hx : w.filter (·.2.tag = .bin) = [x]) :
    ∃ l r, w = l ++ x :: r ∧ x ∉ l ∧ x ∉ r := by
  have hmem : x ∈ w.filter (·.2.tag = .bin) := by simp [hx]
  obtain ⟨hmem, hb⟩ := List.mem_filter.1 hmem
  obtain ⟨l, r, rfl⟩ := List.append_of_mem hmem
  -- the bin itself is all that is counted
  have hone := congrArg List.length hx
  simp only [List.filter_append, List.filter_cons, hb, if_true, List.length_append,
    List.length_cons, List.length_nil] at hone
  have hnot (l : List (Nat × Stage)) (hl : (l.filter (·.2.tag = .bin)).length = 0) : x ∉ l := by
    intro hmem
    have hin : x ∈ l.filter (·.2.tag = .bin) := List.mem_filter.2 ⟨hmem, hb⟩
    exact absurd (List.length_pos_of_mem hin) (by omega)
  exact ⟨l, r, rfl, hnot l (by omega), hnot r (by omega)⟩

/-- After the passes but the last, no filters stand between a bin and the next endpoint on its
    strand. -/
theorem Reroutes.reach {x : Nat × Stage} (h : Reroutes policy
      [.stack, .aggregate, .bin, .timeUnit, .nullFilter, .transforms] w w')
    (hw : w.Pairwise fun e e' => e.2.Admits e'.2) (hx : w.filter (·.2.tag = .bin) = [x]) :
    ∃ l y r, w' = l ++ x :: (y ++ r) ∧ (∀ e ∈ y, e.2.Spares) ∧
      ∀ o ∈ r.head?, o.2.isEndpoint = true := by
  have hw' := h.admits hw
  obtain ⟨l, d, hsplit, hl, hd⟩ := exists_eq_append_bin (h.filter_bin hx)
  obtain ⟨w₄, h₄, h⟩ := of_append [.stack, .aggregate, .bin, .timeUnit] [.nullFilter, .transforms] h
  cases h with
  | @cons _ _ _ w₅ _ hr₅ hs₅ h =>
  have h₅ : Reroutes policy [.nullFilter] w₄ w₅ := .cons hr₅ hs₅ (.nil w₅)
  have hw₅ := h₅.admits (h₄.admits hw)
  obtain ⟨l₅, d₅, rfl, hl₅, hd₅⟩ := exists_eq_append_bin (h₅.filter_bin (h₄.filter_bin hx))
  cases h with
  | cons hr₆ hs₆ h =>
  cases h
  subst hsplit
  have hbin : x.2.tag = .bin := by
    have : x ∈ w.filter (·.2.tag = .bin) := by simp [hx]
    simpa using (List.mem_filter.1 this).2
  -- the last pass moves only filters and calculations
  have hrest : d.filter (fun e => !Pass.transforms.handles e.2.tag) =
      d₅.filter fun e => !Pass.transforms.handles e.2.tag := by
    have star {v v' : List (Nat × Stage)}
        (hr : Relation.ReflTransGen (Rerouted (fun _ _ => True) .transforms policy) v v') :
        v'.filter (fun e => !Pass.transforms.handles e.2.tag) =
          v.filter fun e => !Pass.transforms.handles e.2.tag := by
      induction hr with
      | refl => rfl
      | tail _ h ih => exact h.filter_unhandled.trans ih
    have hkept : (!Pass.transforms.handles x.2.tag) = true := by rw [hbin]; rfl
    have hunhandled := star hr₆
    simp only [List.filter_append, List.filter_cons, hkept, if_true] at hunhandled
    refine ((List.append_cons_inj_of_notMem ?_ ?_).1 hunhandled).2.2
    · exact fun hmem => hl (List.mem_filter.1 hmem).1
    · exact fun hmem => hd (List.mem_filter.1 hmem).1
  have hout (e : Nat × Stage) (he : (!e.2.isEndpoint) = false) :
      (!Pass.transforms.handles e.2.tag) = true := by
    revert he
    cases e.2 <;> simp [Stage.isEndpoint, Pass.handles, Stage.tag]
  have hends (d : List (Nat × Stage)) (e : Nat × Stage)
      (he : e ∈ d.takeWhile fun e => !e.2.isEndpoint) : e.2.isEndpoint = false := by
    simpa using List.all_eq_true.1 List.all_takeWhile e he
  refine ⟨l, d.takeWhile fun e => !e.2.isEndpoint, d.dropWhile fun e => !e.2.isEndpoint,
    by rw [List.takeWhile_append_dropWhile], fun e he => ?_, fun o ho => ?_⟩
  · cases ht : e.2.tag with
    | filter =>
      rw [← List.takeWhile_append_dropWhile (p := fun e => !e.2.isEndpoint) (l := d)] at hs₆ hw'
      exact hs₆.spares hw' hbin (hends d) he (by rw [ht]; rfl) (.inl ht)
    | nullFilter =>
      -- it stood there before the last pass
      have he₅ : e ∈ d₅.takeWhile fun e => !e.2.isEndpoint := by
        have hmem : e ∈ (d.takeWhile fun e => !e.2.isEndpoint).filter
            fun e => !Pass.transforms.handles e.2.tag :=
          List.mem_filter.2 ⟨he, by rw [ht]; rfl⟩
        rw [filter_takeWhile hout, hrest, ← filter_takeWhile hout] at hmem
        exact (List.mem_filter.1 hmem).1
      rw [← List.takeWhile_append_dropWhile (p := fun e => !e.2.isEndpoint) (l := d₅)] at hs₅ hw₅
      exact hs₅.spares hw₅ hbin (hends d₅) he₅ (by rw [ht]; rfl) (.inr ht)
    | _ =>
      revert ht
      cases e.2 <;> simp [Stage.tag, Stage.Spares, Stage.predicates, Stage.dropped]
  · have := List.head?_dropWhile_not (fun e : Nat × Stage => !e.2.isEndpoint) d
    rw [Option.mem_def.1 ho] at this
    simpa using this

/-! ### Conversions -/

/-- What is left in a forest depends on what is left in the trees of a place. -/
theorem prune_fill {α : Type} (p : α → Bool) (up : List (Frame α)) {t t' : Forest α}
    (h : t'.prune p = t.prune p) : (fill up t').prune p = (fill up t).prune p := by
  induction up generalizing t t' with
  | nil => exact h
  | cons fr up ih =>
    refine ih ?_
    rw [Frame.close, Frame.close, prune_append, prune_append, prune, prune, h]

/-- The pass for conversions changes nothing else. -/
theorem Rewrites.prune_parse {f f' : Forest Stage} (h : Rewrites .parse policy f f') :
    f'.prune (·.tag = .parse) = f.prune (·.tag = .parse) := by
  have parse {b : Stage} (hb : Pass.parse.handles b.tag = true) : b.tag = .parse := by
    cases b <;> simp_all [Pass.handles, Stage.tag]
  -- every move of this pass concerns a conversion and a stage above it, and leaves that in its
  -- place
  cases h with
  | @join fr b c h up i gc =>
    have hb := parse h.handled
    have hc := (Stage.tag_of_merge? h.merged).trans (h.tag_eq.symm.trans hb)
    refine prune_fill _ up ?_
    simp [Frame.close, prune, hb, hc, h.tag_eq ▸ hb]
  | @rise fr b dims h up i gc =>
    have hb := parse h.handled
    have ha : fr.content.tag ≠ .parse := fun ha => h.tag_ne (hb.trans ha.symm)
    refine prune_fill _ up ?_
    simp [Frame.close, prune, hb, ha]
  | @drop fr types h ht up cs hup =>
    refine prune_fill _ up ?_
    simp [Frame.close, prune, ht, Stage.tag]
  | @put fr h _ up cs i types =>
    refine prune_fill _ up ?_
    simp [Frame.close, prune, leaf, Stage.tag]
  | @widen fr types h ht types' up cs =>
    refine prune_fill _ up ?_
    simp [Frame.close, prune, ht, Stage.tag]

/-- After the pass for conversions, every other stage is below the same others. -/
theorem exists_place_of_parse {f f' : Forest Stage}
    (h : Relation.ReflTransGen (Rewrites .parse policy) f f') {v : Place Stage}
    (hv : v ∈ f.places []) (ht : v.content.tag ≠ .parse) :
    ∃ v' ∈ f'.places [], v'.id = v.id ∧ v'.content = v.content ∧
      v'.above.filter (fun e => !(e.2.tag = .parse)) = v.above.filter fun e => !(e.2.tag = .parse) := by
  have hprune : f'.prune (·.tag = .parse) = f.prune (·.tag = .parse) := by
    induction h with
    | refl => rfl
    | tail _ h ih => exact h.prune_parse.trans ih
  have hmem : v.prune (·.tag = .parse) ∈ (f'.prune (·.tag = .parse)).places [] := by
    rw [hprune]
    exact mem_places_prune hv (by simpa using ht)
  obtain ⟨v', hv', heq⟩ := exists_of_mem_places_prune hmem
  obtain ⟨habove, hid, hcontent⟩ := Place.mk.inj heq
  exact ⟨v', hv', hid, hcontent, habove⟩

/-! ### What is above bins -/

/-- Stages that filter no rows make no difference. -/
theorem filtersAlike_of_spares {x : List (Nat × Stage)} (hx : ∀ e ∈ x, e.2.Spares) :
    FiltersAlike [] x where
  predicates := List.flatMap_eq_nil_iff.2 fun e he => (hx e he).1
  dropped field := by
    rw [List.flatMap_eq_nil_iff.2 fun e he => (hx e he).2, List.flatMap_nil]

/-- Stages that filter no rows may be left out. -/
theorem filtersAlike_filter {p : Nat × Stage → Bool} (hp : ∀ e, p e = false → e.2.Spares) :
    ∀ w, FiltersAlike (w.filter p) w
  | [] => .refl []
  | e :: w => by
    cases he : p e with
    | true =>
      rw [List.filter_cons_of_pos he]
      exact (FiltersAlike.refl [e]).append (filtersAlike_filter hp w)
    | false =>
      rw [List.filter_cons_of_neg (by simp [he])]
      exact (filtersAlike_of_spares (x := [e]) (by simpa using hp e he)).append
        (filtersAlike_filter hp w)

/-- Ways that are the same but for conversions filter alike. -/
theorem filtersAlike_of_parse {w w' : List (Nat × Stage)}
    (h : w'.filter (fun e => !(e.2.tag = .parse)) = w.filter fun e => !(e.2.tag = .parse)) :
    FiltersAlike w w' := by
  have hspares (e : Nat × Stage) (he : (!decide (e.2.tag = .parse)) = false) : e.2.Spares := by
    revert he
    cases e.2 <;> simp [Stage.tag, Stage.Spares, Stage.predicates, Stage.dropped]
  have hw := filtersAlike_filter hspares w
  have hw' := filtersAlike_filter hspares w'
  rw [h] at hw'
  exact hw.symm.trans hw'

/-- Strands that filter alike one by one filter alike together. -/
theorem filtersAlike_along {us us' : List (Nat × List (Nat × Stage))} {passes : List Pass}
    (h : List.Forall₂ (fun e e' => Reroutes policy passes e.2 e'.2) us us') :
    FiltersAlike (along us) (along us') := by
  induction h with
  | nil => exact .refl []
  | cons h _ ih => exact h.filtersAlike.append ih

/-- Below a bin of a chart, on its strand, is no other one, and nothing filters. -/
theorem below_bin {l r : List (Nat × Stage)} {x : Nat × Stage} (hx : x.2.tag = .bin)
    (h : (l ++ x :: r).Pairwise fun e e' => e.2.Sequel e'.2) :
    (l ++ x :: r).filter (·.2.tag = .bin) = [x] ∧ ∀ e ∈ r, e.2.Spares := by
  have hprep {a : Stage} (ha : a.tag = .bin) : a.prepares = true :=
    Stage.prepares_iff.2 (.inr (.inl ha))
  obtain ⟨-, hxr, hl⟩ := List.pairwise_append.1 h
  have hr := (List.pairwise_cons.1 hxr).1
  -- neither above nor below the bin stands another one in the row
  have hnone : ∀ e ∈ l, e.2.tag ≠ .bin := fun e he ht =>
    (hl e he x (by simp) (hprep ht)).2 (hx.trans ht.symm)
  have hnone' : ∀ e ∈ r, e.2.tag ≠ .bin := fun e he ht =>
    (hr e he (hprep hx)).2 (ht.trans hx.symm)
  refine ⟨?_, fun e he => ?_⟩
  · rw [List.filter_append, List.filter_cons_of_pos (by simpa using hx),
      List.filter_eq_nil_iff.2 (by simpa using hnone), List.filter_eq_nil_iff.2 (by simpa using hnone')]
    rfl
  · have hrank := (hr e he (hprep hx)).1
    revert hrank hx
    cases x.2 <;> cases e.2 <;>
      simp [Stage.tag, Stage.rank, Stage.Spares, Stage.predicates, Stage.dropped]

/-- A bin before and after the passes that move it: it is below the same filters, but for those
    between it and a required output that it has risen above. -/
structure Place.Binned (v v' : Place Stage) : Prop where
  id_eq : v'.id = v.id
  content_eq : v'.content = v.content
  above : ∃ kept lost, v.above = kept ++ lost ∧ FiltersAlike kept v'.above ∧
    ∀ o ∈ lost.head?, (∃ name, o.2 = .output name true) ∧ o ∉ v'.above

/-- Before the pass for conversions, every bin of a chart is below the filters that it was below,
    but for those that a required output holds back. -/
theorem exists_binned {chart : Chart} {built : Building} {f : Forest Stage}
    (hb : Building.ofChart chart = .ok built) (h : Flow.Passes policy
      [.stack, .aggregate, .bin, .timeUnit, .nullFilter, .transforms] built.flow.stages f)
    (hf : f.walk.Nodup) {v : Place Stage} (hv : v ∈ built.flow.stages.places [])
    (ht : v.content.tag = .bin) : ∃ v' ∈ f.places [], v.Binned v' := by
  have hlawful := Building.ofChart_lawful hb
  obtain ⟨u, hu, l₀, r₀, hstrand, habove⟩ := exists_strand hv
  have hmem : (u.id, u.content) ∈ built.flow.stages.strands.toList := by
    rw [toList_eq_map_places _ []]
    exact List.mem_map_of_mem hu
  have hsequel := (Building.fenced hb fun _ _ _ _ _ _ hs => hs).strands _ hmem
  have hadmits := (Building.fenced_admits hb).strands _ hmem
  simp only at hsequel hadmits
  rw [hstrand] at hsequel
  obtain ⟨hone, hbelow⟩ := below_bin ht hsequel
  rw [← hstrand] at hone
  -- the strand after the passes
  obtain ⟨u', hu', hroutes, habove'⟩ := (strands_of_passes h (by simp)).exists_place .nil hu
  obtain ⟨l, y, r, hsplit, hspares, hend⟩ := hroutes.reach hadmits hone
  refine ⟨⟨along u'.above ++ l, v.id, v.content⟩, mem_places_of_strand hu' hsplit, rfl, rfl, ?_⟩
  have hbin : v.content.Spares := by
    revert ht
    cases v.content <;> simp [Stage.tag, Stage.Spares, Stage.predicates, Stage.dropped]
  have hdown {w x : List (Nat × Stage)} (hx : ∀ e ∈ x, e.2.Spares) : FiltersAlike w (w ++ x) := by
    simpa using (FiltersAlike.refl w).append (filtersAlike_of_spares hx)
  have hafter : ∀ e ∈ (v.id, v.content) :: y, e.2.Spares := by simpa [hbin] using hspares
  have hbefore : ∀ e ∈ (v.id, v.content) :: r₀, e.2.Spares := by simpa [hbin] using hbelow
  cases r with
  | nil =>
    -- nothing filters below the bin, neither before nor after
    refine ⟨v.above, [], by simp, ?_, by simp⟩
    have hwhole := hroutes.filtersAlike
    rw [hstrand, hsplit, List.append_nil] at hwhole
    rw [habove]
    exact (filtersAlike_along habove').append
      ((hdown hbefore).trans (hwhole.trans (hdown hafter).symm))
  | cons o r =>
    have hend := hend o rfl
    have hplace : ⟨along u'.above ++ (l ++ (v.id, v.content) :: y), o.1, o.2⟩ ∈ f.places [] :=
      mem_places_of_strand hu' (show u'.content = (l ++ (v.id, v.content) :: y) ++ o :: r by
        rw [hsplit, List.append_assoc, List.cons_append])
    -- what filters above the endpoint is the same before and after
    obtain ⟨o₀, ho₀, hkept⟩ := exists_mem_of_forall₂ (endpoints_of_passes h).flip
      (List.mem_filter.2 ⟨hplace, hend⟩)
    have halike := (hkept.keeps (Building.groupedOnce_endpoint hb ho₀)).1.filtersAlike
    rw [← List.append_assoc] at halike
    replace halike := halike.trans (hdown hafter).symm
    have ho : o ∈ u.content := by
      rw [← hroutes.mem_outlet_iff (Stage.isOutlet_of_isEndpoint hend), hsplit]
      simp
    obtain ⟨p, q, hpq⟩ := List.append_of_mem ho
    obtain rfl : o₀ = ⟨along u.above ++ p, o.1, o.2⟩ :=
      place_inj hlawful.nodup (List.mem_filter.1 ho₀).1 (mem_places_of_strand hu hpq)
        hkept.id_eq.symm
    simp only at halike
    have hne : o ≠ (v.id, v.content) := by
      rintro rfl
      revert hend ht
      cases v.content <;> simp [Stage.tag, Stage.isEndpoint]
    rcases List.append_eq_append_iff.1 (hstrand.symm.trans hpq) with ⟨m, rfl, hm⟩ | ⟨m, rfl, hm⟩
    · -- the endpoint was below the bin before
      cases m with
      | nil => exact absurd (List.cons.inj hm).1.symm hne
      | cons e m =>
        obtain ⟨rfl, rfl⟩ := List.cons.inj hm
        refine ⟨v.above, [], by simp, ?_, by simp⟩
        have hspares₀ : ∀ e ∈ (v.id, v.content) :: m, e.2.Spares :=
          fun e he => hbefore e (by
            rcases List.mem_cons.1 he with rfl | he
            · simp
            · simp [he])
        rw [habove]
        rw [← List.append_assoc] at halike
        exact (hdown hspares₀).trans halike
    · -- the bin has risen above it
      cases m with
      | nil => exact absurd (List.cons.inj hm).1 hne
      | cons e m =>
        obtain ⟨rfl, -⟩ := List.cons.inj hm
        refine ⟨along u.above ++ p, o :: m, by rw [habove]; simp, halike, fun o' ho' => ?_⟩
        obtain rfl := Option.some.inj ho'
        constructor
        · -- nothing stands below a header
          rw [hstrand, List.append_assoc] at hadmits
          have hfollows := ((List.pairwise_cons.1 (List.pairwise_append.1 hadmits).2.1).1
            (v.id, v.content) (by simp)).follows.1
          revert hend hfollows
          cases o.2 <;> simp [Stage.isEndpoint, Stage.tag]
        · intro hmem
          have hnodup := nodup_route hf hplace
          rw [Place.route, ← List.append_assoc, List.map_append, List.map_append] at hnodup
          refine (List.nodup_append.1 hnodup).2.2 o.1 ?_ o.1 (by simp) rfl
          exact List.mem_append_left _ (List.mem_map_of_mem hmem)

end Forest

/-- After hoisting, every bin is below filters with the same predicates in the same order, and below
    null filters for the same fields, as in the flow of the chart, but for those between it and a
    required output that it has risen above: where these begin, the output stood above the bin, and
    it no longer does. -/
theorem hoist_keeps_binned_rows {chart : Chart} {built : Building} {policy : FacetPolicy} {n : Nat}
    {hoisted : Flow} (hb : Building.ofChart chart = .ok built)
    (hh : Flow.hoist policy n built.flow = (.ok (), hoisted)) :
    ∀ v ∈ built.flow.stages.places [], v.content.tag = .bin →
      ∃ v' ∈ hoisted.stages.places [], v.Binned v' := by
  intro v hv ht
  -- all passes but the last one, which moves nothing but conversions
  obtain ⟨f, hfirst, hlast⟩ := Flow.Passes.of_append
    [.stack, .aggregate, .bin, .timeUnit, .nullFilter, .transforms] [.parse]
    (Flow.hoist_ok hh (Building.ofChart_lawful hb))
  have hf : f.Lawful := hfirst.lawful (Building.ofChart_lawful hb)
  obtain ⟨v₁, hv₁, hbinned⟩ := Forest.exists_binned hb hfirst hf.nodup hv ht
  cases hlast with
  | cons hr _ _ hnil =>
  cases hnil
  have ht₁ : v₁.content.tag ≠ .parse := by
    rw [hbinned.content_eq, ht]
    simp
  obtain ⟨v', hv', hid, hcontent, habove⟩ := Forest.exists_place_of_parse hr hv₁ ht₁
  -- what the bins lost on their way stays lost
  obtain ⟨kept, lost, hsplit, halike, hlost⟩ := hbinned.above
  refine ⟨v', hv', hid.trans hbinned.id_eq, hcontent.trans hbinned.content_eq, kept, lost, hsplit,
    halike.trans (Forest.filtersAlike_of_parse habove), fun o ho => ?_⟩
  obtain ⟨⟨name, hname⟩, hnot⟩ := hlost o ho
  refine ⟨⟨name, hname⟩, fun hmem => hnot ?_⟩
  have hin : o ∈ v'.above.filter fun e => !(e.2.tag = .parse) :=
    List.mem_filter.2 ⟨hmem, by simp [hname, Stage.tag]⟩
  rw [habove] at hin
  exact (List.mem_filter.1 hin).1

/-- A layer that is read by name, and a histogram in it. -/
def sharedHistogram : Chart :=
  .layer { data := some (.named "rows"), requested := [.main] }
    [.unit {} .point
      ((∅ : Encoding).insert .x ((FieldDef.named "a" .quantitative).withBin (.flag true))) none]

/-- The bin of the histogram, and what filters above it. -/
theorem hoist_keeps_binned_rows_sharedHistogram : ∃ built hoisted,
    Building.ofChart sharedHistogram = .ok built ∧
      Flow.hoist .foldGroupby 32 built.flow = (.ok (), hoisted) ∧
      (∃ v ∈ built.flow.stages.places [], v.content.tag = .bin) ∧
      ∀ v ∈ built.flow.stages.places [], v.content.tag = .bin →
        ∃ v' ∈ hoisted.stages.places [], v.Binned v' := by
  have hruns : (match Building.ofChart sharedHistogram with
      | .ok built => (Flow.hoist .foldGroupby 32 built.flow).1.isOk &&
          decide (∃ v ∈ built.flow.stages.places [], v.content.tag = .bin)
      | .error _ => false) = true := by decide +kernel
  cases hb : Building.ofChart sharedHistogram with
  | error e => simp [hb] at hruns
  | ok built =>
    rw [hb] at hruns
    obtain ⟨hok, hbin⟩ := Bool.and_eq_true_iff.1 hruns
    have hh := Run.eq_ok_of_isOk hok
    exact ⟨built, _, rfl, hh, of_decide_eq_true hbin, hoist_keeps_binned_rows hb hh⟩

/-- Whether a stage computes the extent of the rows that arrive. -/
def Stage.measures (a : Stage) : Bool :=
  a.steps.any fun
    | .extent .. => true
    | _ => false

/-- A bin whose extent is computed rises above the output of a layer, and leaves the null filter
    for its field below. -/
theorem hoist_lifts_bins_above_filters :
    ¬ ∀ (chart : Chart) (built : Building) (policy : FacetPolicy) (n : Nat) (hoisted : Flow),
      Building.ofChart chart = .ok built → Flow.hoist policy n built.flow = (.ok (), hoisted) →
      ∀ v ∈ built.flow.stages.places [], v.content.measures = true →
        ∀ v' ∈ hoisted.stages.places [], v'.id = v.id → FiltersAlike v.above v'.above := by
  intro h
  have hruns : (match Building.ofChart sharedHistogram with
      | .ok built =>
        (Flow.hoist .foldGroupby 32 built.flow).1.isOk &&
          decide (∃ v ∈ built.flow.stages.places [], v.content.measures = true ∧
            ∃ v' ∈ (Flow.hoist .foldGroupby 32 built.flow).2.stages.places [], v'.id = v.id ∧
              "a" ∈ v.above.flatMap (·.2.dropped) ∧ "a" ∉ v'.above.flatMap (·.2.dropped))
      | .error _ => false) = true := by decide +kernel
  cases hb : Building.ofChart sharedHistogram with
  | error e => simp [hb] at hruns
  | ok built =>
    rw [hb] at hruns
    obtain ⟨hok, hbins⟩ := Bool.and_eq_true_iff.1 hruns
    obtain ⟨v, hv, hm, v', hv', hid, hmem, hnot⟩ := of_decide_eq_true hbins
    exact hnot (((h _ built _ _ _ hb (Run.eq_ok_of_isOk hok) v hv hm v' hv' hid).dropped "a").2 hmem)

end ChartPipeline
