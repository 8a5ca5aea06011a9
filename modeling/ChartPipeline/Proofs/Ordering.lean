import ChartPipeline.Proofs.Meaning
import ChartPipeline.Proofs.Strands

/-!
# The order of a unit's stages

A unit loads, transforms, cleans, derives and groups, in this order.  The passes leave the order
of these kinds, take the stages through each other on the way, and bring them back into it; only
bins and time units have changed places in the end.

## Key results

- `Interpretation.run_congr`: ways in order with the same stages do the same
- `Ordered.rerouted`, `Ordered.hoisted`: what passes keep, and what the last of them restore
-/

namespace ChartPipeline

/-! ### The order of stages -/

namespace Stage

/-- Where a stage comes in a unit: data are loaded, transformed, cleaned, derived from and grouped. -/
def rank : Stage → Nat
  | source _ | parse _ => 0
  | filter _ | calculate .. => 1
  | nullFilter _ => 2
  | bin _ | timeUnit _ => 3
  | _ => 4

/-- What has the rank of the stages that derive is a bin or a time unit. -/
theorem tag_of_rank_eq_three {a : Stage} (h : a.rank = 3) : a.tag = .bin ∨ a.tag = .timeUnit := by
  cases a <;> simp [rank] at h <;> simp [tag]

/-- Whether it matters where a stage stands. -/
def acts : Stage → Bool
  | parse _ => false
  | nullFilter flags => !flags.isVacuous
  | _ => true

/-- What holds of two stages, the first before the second, while passes run: nothing that is
    cleaned or derived stands before a calculation, and nothing that is grouped before the rest. -/
def MayPrecede (a b : Stage) : Prop :=
  a.acts = true → b.acts = true →
    a.rank ≤ b.rank ∨ a.rank ≤ 3 ∧ 1 ≤ b.rank ∧ b.tag ≠ .calculate

/-- Conversions do not matter, so they may stand before and after everything. -/
theorem mayPrecede_parse (types : ParseTypes) (z : Stage) :
    MayPrecede (.parse types) z ∧ MayPrecede z (.parse types) :=
  ⟨fun h => absurd h (by simp [acts]), fun _ h => absurd h (by simp [acts])⟩

end Stage

/-- Stages that matter come in the order of their ranks. -/
def Sorted (w : List Stage) : Prop :=
  w.Pairwise fun a b => a.acts = true → b.acts = true → a.rank ≤ b.rank

/-- A list in order is what comes up to a point, and then the rest. -/
private theorem filter_le_append_filter_lt {α : Type} {f : α → Nat} {l : List α}
    (h : l.Pairwise fun a b => f a ≤ f b) (k : Nat) :
    l.filter (f · ≤ k) ++ l.filter (k < f ·) = l := by
  induction l with
  | nil => rfl
  | cons a l ih =>
    obtain ⟨ha, hl⟩ := List.pairwise_cons.1 h
    -- once an item is above the bound, all that follow are
    by_cases hk : f a ≤ k
    · rw [List.filter_cons_of_pos (by simpa using hk), List.filter_cons_of_neg (by simpa using hk),
        List.cons_append, ih hl]
    · have hnil : l.filter (f · ≤ k) = [] :=
        List.filter_eq_nil_iff.2 fun b hb => by have := ha b hb; simp; omega
      have hself : l.filter (k < f ·) = l :=
        List.filter_eq_self.2 fun b hb => by have := ha b hb; simp; omega
      rw [List.filter_cons_of_neg (by simpa using hk), List.filter_cons_of_pos (by simpa using hk),
        hnil, hself, List.nil_append]

namespace Interpretation

variable {V E : Type} (I : Interpretation V E)

/-- Stages that commute with those in front of them may be put first. -/
theorem run_filter_append_filter {p : Stage → Bool} {w : List Stage}
    (h : ∀ a ∈ w, ∀ b ∈ w, p a = false → p b = true → I.Commute b a) (rows : List (Row V)) :
    I.run (w.filter p ++ w.filter fun a => !p a) rows = I.run w rows := by
  induction w generalizing rows with
  | nil => rfl
  | cons a w ih =>
    have ih := ih fun b hb c hc => h b (List.mem_cons_of_mem a hb) c (List.mem_cons_of_mem a hc)
    rw [run_cons, ← ih]
    cases ha : p a with
    | true =>
      rw [List.filter_cons_of_pos ha, List.filter_cons_of_neg (by simp [ha]), List.cons_append,
        run_cons]
    | false =>
      rw [List.filter_cons_of_neg (by simp [ha]), List.filter_cons_of_pos (by simp [ha]),
        run_append, run_append, run_cons]
      congr 1
      -- the stage goes back through those that were put before it
      have hback (v : List Stage) (hv : ∀ b ∈ v, b ∈ w ∧ p b = true) (rows : List (Row V)) :
          I.apply a (I.run v rows) = I.run v (I.apply a rows) := by
        induction v generalizing rows with
        | nil => rfl
        | cons b v ihv =>
          obtain ⟨hbw, hpb⟩ := hv b (by simp)
          rw [run_cons, run_cons, ihv fun c hc => hv c (List.mem_cons_of_mem b hc),
            h a (by simp) b (List.mem_cons_of_mem a hbw) ha hpb]
      exact hback _ (fun b hb => List.mem_filter.1 hb) rows

/-- What is loaded, filtered and calculated on a way. -/
theorem run_low (w : List Stage) (rows : List (Row V)) :
    I.run (w.filter fun a => a.acts && a.rank ≤ 1) rows = I.run (w.flatMap Stage.core) rows := by
  induction w generalizing rows with
  | nil => rfl
  | cons a w ih =>
    rw [List.flatMap_cons, run_append, ← ih, List.filter_cons]
    cases a with
    | filter ps => exact congrArg (I.run _) (I.run_filters ps rows).symm
    | nullFilter flags => cases flags.isVacuous <;> simp [Stage.acts, Stage.rank, Stage.core]
    | _ => rfl

/-- Whether a row has valid values in all of the fields. -/
def validIn (fields : List String) (r : Row V) : Bool := fields.all fun field => I.valid (r.get? field)

/-- What is cleaned on a way. -/
theorem run_cleaning (w : List Stage) (rows : List (Row V)) :
    I.run (w.filter fun a => a.acts && a.rank = 2) rows =
      rows.filter (I.validIn (w.flatMap Stage.dropped)) := by
  induction w generalizing rows with
  | nil => exact (List.filter_eq_self.2 fun _ _ => rfl).symm
  | cons a w ih =>
    -- rows that are valid in several stages are valid in each of them
    have hsplit : rows.filter (I.validIn ((a :: w).flatMap Stage.dropped)) =
        (rows.filter (I.validIn a.dropped)).filter (I.validIn (w.flatMap Stage.dropped)) := by
      rw [List.filter_filter]
      refine List.filter_congr fun r _ => ?_
      rw [validIn, List.flatMap_cons, List.all_append, validIn, validIn, Bool.and_comm]
    have hnone (h : a.dropped = []) : rows.filter (I.validIn a.dropped) = rows := by
      rw [h]
      exact List.filter_eq_self.2 fun _ _ => rfl
    rw [hsplit, ← ih, List.filter_cons]
    -- only null filters drop rows here, and one without effect drops none
    cases a with
    | nullFilter flags =>
      cases hv : flags.isVacuous with
      | true =>
        rw [hnone (Stage.of_isVacuous (a := .nullFilter flags) hv).2.1]
        simp [Stage.acts, hv]
      | false =>
        simp only [Stage.acts, hv, Stage.rank, Bool.not_false, Bool.true_and, decide_true, if_true,
          run_cons]
        rfl
    | _ => exact congrArg _ (hnone rfl).symm

/-- What is grouped on a way. -/
theorem run_grouping (w : List Stage) (rows : List (Row V)) :
    I.run (w.filter fun a => a.acts && a.rank = 4) rows = I.run (w.filter Stage.groups) rows := by
  have hgroups : w.filter Stage.groups =
      (w.filter fun a => a.acts && a.rank = 4).filter Stage.groups := by
    rw [List.filter_filter]
    refine List.filter_congr fun a _ => ?_
    cases a <;> simp [Stage.groups, Stage.isGrouping, Stage.tag, Stage.acts, Stage.rank]
  rw [hgroups]
  refine (I.run_filter (fun a ha hg rows => ?_) rows).symm
  have := (List.mem_filter.1 ha).2
  cases a <;> simp_all [Stage.groups, Stage.isGrouping, Stage.tag, Stage.acts, Stage.rank,
    Stage.isVacuous, apply]

/-- Stages that do not matter leave rows as they are. -/
theorem apply_of_not_acts {a : Stage} (h : a.acts = false) (rows : List (Row V)) :
    I.apply a rows = rows := by
  cases a with
  | parse => rfl
  | nullFilter flags => exact I.apply_of_isVacuous (by simpa [Stage.acts, Stage.isVacuous] using h) rows
  | _ => exact absurd h (by simp [Stage.acts])

/-- A way in order loads and transforms, then cleans, derives and groups. -/
theorem run_sorted {w : List Stage} (h : Sorted w) (rows : List (Row V)) :
    I.run w rows = I.run (w.filter Stage.groups) (I.run (w.filter fun a => a.rank = 3)
      ((I.run (w.flatMap Stage.core) rows).filter (I.validIn (w.flatMap Stage.dropped)))) := by
  have hacts := I.run_filter (p := Stage.acts) (w := w)
    (fun a _ ha rows => I.apply_of_not_acts ha rows) rows
  have hsorted : (w.filter Stage.acts).Pairwise fun a b => a.rank ≤ b.rank := by
    rw [List.pairwise_filter]
    exact h.imp fun hab ha hb => hab (by simpa using ha) (by simpa using hb)
  -- the four ranks one after the other, from the lowest
  have hsplit : w.filter (fun a => a.acts && a.rank ≤ 1) ++
      (w.filter (fun a => a.acts && a.rank = 2) ++ (w.filter (fun a => a.rank = 3) ++
        w.filter fun a => a.acts && a.rank = 4)) = w.filter Stage.acts := by
    have hafter₃ := filter_le_append_filter_lt ((hsorted.filter (1 < ·.rank)).filter (2 < ·.rank)) 3
    rw [← filter_le_append_filter_lt hsorted 1,
      ← filter_le_append_filter_lt (hsorted.filter (1 < ·.rank)) 2, ← hafter₃]
    simp only [List.filter_filter]
    congr 1
    · exact List.filter_congr fun a _ => Bool.and_comm _ _
    congr 1
    · refine List.filter_congr fun a _ => ?_
      cases a <;> simp [Stage.acts, Stage.rank]
    congr 1
    · refine List.filter_congr fun a _ => ?_
      cases a <;> simp [Stage.acts, Stage.rank]
    · refine List.filter_congr fun a _ => ?_
      cases a <;> simp [Stage.acts, Stage.rank]
  rw [← hacts, ← hsplit, run_append, run_append, run_append, run_low, run_cleaning, run_grouping]

/-- Ways in order do the same if they load, transform and group the same, drop rows for the same
    fields and derive the same, in an order that does not matter. -/
theorem run_congr {w w' : List Stage} (hw : Sorted w) (hw' : Sorted w')
    (hcore : w'.flatMap Stage.core = w.flatMap Stage.core)
    (hdropped : ∀ field, field ∈ w'.flatMap Stage.dropped ↔ field ∈ w.flatMap Stage.dropped)
    (hgroups : w'.filter Stage.groups = w.filter Stage.groups)
    (hbins : w'.filter (·.tag = .bin) = w.filter (·.tag = .bin))
    (hunits : w'.filter (·.tag = .timeUnit) = w.filter (·.tag = .timeUnit))
    (hcomm : ∀ a ∈ w, ∀ b ∈ w, a.tag = .timeUnit → b.tag = .bin → I.Commute b a)
    (rows : List (Row V)) : I.run w' rows = I.run w rows := by
  have hvalid : I.validIn (w'.flatMap Stage.dropped) = I.validIn (w.flatMap Stage.dropped) := by
    funext r
    rw [validIn, validIn, Bool.eq_iff_iff, List.all_eq_true, List.all_eq_true]
    exact ⟨fun h field hf => h field ((hdropped field).2 hf),
      fun h field hf => h field ((hdropped field).1 hf)⟩
  -- bins go first in both ways
  have hderive {v : List Stage}
      (hv : ∀ a ∈ v, ∀ b ∈ v, a.tag = .timeUnit → b.tag = .bin → I.Commute b a)
      (rows : List (Row V)) :
      I.run (v.filter (·.tag = .bin) ++ v.filter (·.tag = .timeUnit)) rows =
        I.run (v.filter fun a => a.rank = 3) rows := by
    rw [← I.run_filter_append_filter (p := (·.tag = .bin)) (w := v.filter fun a => a.rank = 3)]
    · simp only [List.filter_filter]
      congr 2
      · refine List.filter_congr fun a _ => ?_
        cases a <;> simp [Stage.tag, Stage.rank]
      · refine List.filter_congr fun a _ => ?_
        cases a <;> simp [Stage.tag, Stage.rank]
    · intro a ha b hb hna hnb
      obtain ⟨ha, hra⟩ := List.mem_filter.1 ha
      refine hv a ha b (List.mem_filter.1 hb).1 ?_ (by simpa using hnb)
      exact (Stage.tag_of_rank_eq_three (by simpa using hra)).resolve_left (by simpa using hna)
  have hcomm' : ∀ a ∈ w', ∀ b ∈ w', a.tag = .timeUnit → b.tag = .bin → I.Commute b a := by
    intro a ha b hb hta htb
    have hain : a ∈ w.filter (·.tag = .timeUnit) := hunits ▸ List.mem_filter.2 ⟨ha, by simpa using hta⟩
    have hbin : b ∈ w.filter (·.tag = .bin) := hbins ▸ List.mem_filter.2 ⟨hb, by simpa using htb⟩
    exact hcomm a (List.mem_filter.1 hain).1 b (List.mem_filter.1 hbin).1 hta htb
  rw [I.run_sorted hw', I.run_sorted hw, hcore, hgroups, hvalid, ← hderive hcomm', ← hderive hcomm,
    hbins, hunits]

end Interpretation

/-! ### The stages that a chart declares -/

/-- A list of stages in the order of their ranks, which are between two others. -/
private structure Between (j k : Nat) (l : List Stage) : Prop where
  pairwise : l.Pairwise fun a b => a.rank ≤ b.rank
  bounds : ∀ a ∈ l, j ≤ a.rank ∧ a.rank ≤ k

/-- A list whose stages are all of one rank. -/
private theorem Between.const {k : Nat} {l : List Stage} (h : ∀ a ∈ l, a.rank = k) :
    Between k k l :=
  ⟨List.pairwise_of_forall_mem_list fun a ha b hb => by rw [h a ha, h b hb],
    fun a ha => by rw [h a ha]; exact ⟨Nat.le_refl k, Nat.le_refl k⟩⟩

/-- Lists one after the other, if the ranks of the second begin where those of the first end. -/
private theorem Between.append {i j k m : Nat} {l l' : List Stage} (h : Between i j l)
    (h' : Between k m l') (hij : i ≤ j) (hjk : j ≤ k) (hkm : k ≤ m) : Between i m (l ++ l') := by
  refine ⟨List.pairwise_append.2 ⟨h.pairwise, h'.pairwise, fun a ha b hb => ?_⟩, fun a ha => ?_⟩
  · have := (h.bounds a ha).2
    have := (h'.bounds b hb).1
    omega
  · rcases List.mem_append.1 ha with ha | ha
    · have := h.bounds a ha
      omega
    · have := h'.bounds a ha
      omega

namespace Chart

variable {chart : Chart} {s : Source} {before after : List Stage}

/-- The stages that a chart declares are in the order of their ranks. -/
theorem pairwise_rank_stages (s : Source) (hb : chart.stagesBeforeRaw = .ok before)
    (ha : chart.stagesAfterRaw = .ok after) :
    (Stage.source s :: (before ++ chart.rawOutput :: (after ++ [chart.mainOutput]))).Pairwise
      fun a b => a.rank ≤ b.rank := by
  obtain ⟨bins, -, rfl⟩ := stagesBeforeRaw_ok hb
  -- the parts of the chain have increasing ranks
  have hparse : Between 0 0 ((parseTypes? chart).toList.map .parse) := .const (by simp [Stage.rank])
  have htransforms : Between 1 1 chart.transformStages := .const fun a hmem => by
    obtain ⟨t, -, rfl⟩ := List.mem_map.1 hmem
    cases t <;> rfl
  have hclean : Between 2 2 ((nullFilter? chart).toList.map .nullFilter) :=
    .const (by simp [Stage.rank])
  have hbins : Between 3 3 (bins.toList.map .bin) := .const (by simp [Stage.rank])
  have hunits : Between 3 3 ((TimeFormulas.ofChart? chart).toList.map .timeUnit) :=
    .const (by simp [Stage.rank])
  have hafter : Between 4 4 (chart.rawOutput :: (after ++ [chart.mainOutput])) :=
    .const fun a hmem => by
      simp only [List.mem_cons, List.mem_append, List.not_mem_nil, or_false] at hmem
      rcases hmem with rfl | hmem | rfl
      · rfl
      · have := (stagesAfterRaw_grouping ha).1 a hmem
        cases a <;> simp_all [Stage.isGrouping, Stage.tag, Stage.rank]
      · rfl
  have hall := (((((hparse.append htransforms (by omega) (by omega) (by omega)).append hclean
    (by omega) (by omega) (by omega)).append hbins (by omega) (by omega) (by omega)).append hunits
    (by omega) (by omega) (by omega)).append hafter (by omega) (by omega) (by omega))
  exact List.pairwise_cons.2 ⟨fun _ _ => Nat.zero_le _, hall.pairwise⟩

/-- A chart converts, cleans, bins and cuts down to time units at most once. -/
theorem length_filter_tag_le_one (s : Source) (hb : chart.stagesBeforeRaw = .ok before)
    (ha : chart.stagesAfterRaw = .ok after) {t : Tag}
    (ht : t = .parse ∨ t = .nullFilter ∨ t = .bin ∨ t = .timeUnit) :
    ((Stage.source s :: (before ++ chart.rawOutput :: (after ++ [chart.mainOutput]))).filter
      (·.tag = t)).length ≤ 1 := by
  -- from the raw output on all ranks are four, and none of these kinds has that rank
  have hnone : ∀ a ∈ chart.rawOutput :: (after ++ [chart.mainOutput]), a.tag ≠ t := by
    intro a hmem htag
    have hrank : 4 ≤ a.rank := by
      have h := List.pairwise_cons.1 (List.pairwise_append.1
        (List.pairwise_cons.1 (pairwise_rank_stages s hb ha)).2).2.1
      rcases List.mem_cons.1 hmem with rfl | hmem
      · exact Nat.le_refl 4
      · exact h.1 a hmem
    rcases ht with rfl | rfl | rfl | rfl <;> cases a <;> simp [Stage.tag] at htag <;>
      simp [Stage.rank] at hrank
  have hsource : (Stage.source s).tag ≠ t := by rcases ht with rfl | rfl | rfl | rfl <;> simp [Stage.tag]
  have hlast : (chart.rawOutput :: (after ++ [chart.mainOutput])).filter (·.tag = t) = [] :=
    List.filter_eq_nil_iff.2 fun a hmem => by simpa using hnone a hmem
  rw [List.filter_cons_of_neg (by simpa using hsource), List.filter_append, hlast,
    List.append_nil]
  obtain ⟨bins, -, rfl⟩ := stagesBeforeRaw_ok hb
  have htransforms : chart.transformStages.filter (·.tag = t) = [] := by
    refine List.filter_eq_nil_iff.2 fun a hmem => ?_
    obtain ⟨u, -, rfl⟩ := List.mem_map.1 hmem
    rcases ht with rfl | rfl | rfl | rfl <;> cases u <;> simp [Stage.tag]
  simp only [List.filter_append, htransforms, List.append_nil]
  rcases ht with rfl | rfl | rfl | rfl <;> cases parseTypes? chart <;> cases nullFilter? chart <;>
    cases bins <;> cases TimeFormulas.ofChart? chart <;> simp [Stage.tag]

end Chart

/-! ### What passes keep -/

variable {C : Stage → Stage → Prop} {pass : Pass} {policy : FacetPolicy} {a b c : Stage}
  {dims : List String} {w₀ w w' : List (Nat × Stage)}

/-- What is joined is of one kind, and so of one rank. -/
theorem Joins.rank (h : Joins pass a b c) : b.rank = a.rank ∧ c.rank = a.rank ∧ c.tag = a.tag := by
  have hrank {a b : Stage} (ht : b.tag = a.tag) : b.rank = a.rank := by
    cases a <;> cases b <;> first | rfl | exact absurd ht (by simp [Stage.tag])
  have hc := Stage.tag_of_merge? h.merged
  exact ⟨hrank h.tag_eq, hrank hc, hc⟩

/-- What is joined matters only if one of its parts does. -/
theorem Joins.acts (h : Joins pass a b c) (hc : c.acts = true) : a.acts = true ∨ b.acts = true := by
  have := h.merged
  cases a <;> cases b <;> simp only [Stage.merge?, reduceCtorEq, Option.some.injEq] at this <;>
    subst this <;> simp only [Stage.acts, Bool.false_eq_true, true_or] at hc ⊢
  -- a null filter that was joined drops for a field only if a part of it did
  next flags flags' =>
    by_contra hno
    simp only [not_or, Bool.not_eq_true', Bool.not_eq_false, FieldFlags.isVacuous_iff] at hno
    rw [Bool.not_eq_true', Bool.eq_false_iff, ne_eq, FieldFlags.isVacuous_iff,
      List.eq_nil_iff_forall_not_mem] at hc
    refine hc fun field hfield => ?_
    rw [FieldFlags.mem_dropped_merge, hno.1, hno.2] at hfield
    simp at hfield

/-- A stage that rises may stand before the one that it has passed. -/
theorem Rises.mayPrecede (h : Rises pass policy a b dims) :
    (b.addDimensions dims).MayPrecede a := by
  have hh := h.handled
  have hp := h.passage
  have hs := h.not_source
  cases pass <;> cases b <;> simp only [Pass.handles, Stage.tag, Bool.false_eq_true] at hh <;>
    cases a <;> simp_all [Stage.MayPrecede, Stage.acts, Stage.rank, Stage.tag, Stage.addDimensions,
      Move.passage?]

/-- What may precede stages, or follow them, may precede or follow what they are joined into. -/
theorem Joins.mayPrecede (h : Joins pass a b c) (z : Stage) :
    (z.MayPrecede a → z.MayPrecede b → z.MayPrecede c) ∧
      (a.MayPrecede z → b.MayPrecede z → c.MayPrecede z) := by
  obtain ⟨hrb, hrc, htc⟩ := h.rank
  constructor
  · intro hza hzb hz hc
    rcases h.acts hc with ha | hb
    · rw [hrc, htc]
      exact hza hz ha
    · rw [hrc, htc, ← hrb, ← h.tag_eq]
      exact hzb hz hb
  · intro haz hbz hc hz
    rcases h.acts hc with ha | hb
    · rw [hrc]
      exact haz ha hz
    · rw [hrc, ← hrb]
      exact hbz hb hz

/-- More fields to group by make no difference. -/
theorem Stage.mayPrecede_addDimensions (dims : List String) (b z : Stage) :
    (z.MayPrecede b → z.MayPrecede (b.addDimensions dims)) ∧
      (b.MayPrecede z → (b.addDimensions dims).MayPrecede z) := by
  cases b <;> exact ⟨fun h => h, fun h => h⟩

/-- What may precede what on a way still may after a change. -/
theorem Rerouted.mayPrecede (h : Rerouted C pass policy w w')
    (hw : w.Pairwise fun e e' => e.2.MayPrecede e'.2) :
    w'.Pairwise fun e e' => e.2.MayPrecede e'.2 :=
  h.pairwise ⟨fun h _ => h.mayPrecede, fun h _ => h.mayPrecede,
    fun b dims z => Stage.mayPrecede_addDimensions dims b z⟩
    (fun _ types' z => ⟨fun _ => (Stage.mayPrecede_parse types' z).2,
      fun _ => (Stage.mayPrecede_parse types' z).1⟩) hw

/-- The only stage of a kind that is not joined with others stays. -/
theorem Rerouted.filter_tag (h : Rerouted C pass policy w w') {t : Tag}
    (ht : t = .bin ∨ t = .timeUnit) (hone : (w.filter (·.2.tag = t)).length ≤ 1) :
    w'.filter (·.2.tag = t) = w.filter (·.2.tag = t) := by
  cases h with
  | refl => rfl
  | @join a b c h _ l p i r =>
    have hc := Stage.tag_of_merge? h.merged
    -- two stages of the kind would have been joined
    by_cases ha : a.tag = t
    · have hb := h.tag_eq.trans ha
      simp only [List.filter_append, List.filter_cons, ha, hb, decide_true, if_true,
        List.length_append, List.length_cons] at hone
      omega
    · have hb : b.tag ≠ t := h.tag_eq ▸ ha
      have hc : c.tag ≠ t := hc ▸ ha
      simp [ha, hb, hc]
  | @rise a b dims h _ l p i r =>
    simp only [List.filter_append, List.filter_cons, Stage.tag_addDimensions]
    by_cases hb : b.tag = t
    · have ha : a.tag ≠ t := fun ha => h.tag_ne (hb.trans ha.symm)
      have hsame : b.addDimensions dims = b := by
        rcases ht with rfl | rfl <;> cases b <;> first | rfl | exact absurd hb (by simp [Stage.tag])
      simp [ha, hb, hsame]
    · simp [hb]
  | drop h l i types r =>
    have : (Stage.parse types).tag ≠ t := by rcases ht with rfl | rfl <;> simp [Stage.tag]
    simp [this]
  | widen h l i types types' r =>
    have (types : ParseTypes) : (Stage.parse types).tag ≠ t := by
      rcases ht with rfl | rfl <;> simp [Stage.tag]
    simp [this]

/-- A way that passes have made of another one. -/
structure Ordered (w₀ w : List (Nat × Stage)) : Prop where
  mayPrecede : w.Pairwise fun e e' => e.2.MayPrecede e'.2
  core : w.flatMap (·.2.core) = w₀.flatMap (·.2.core)
  bins : w.filter (·.2.tag = .bin) = w₀.filter (·.2.tag = .bin)
  units : w.filter (·.2.tag = .timeUnit) = w₀.filter (·.2.tag = .timeUnit)

/-- A way of a unit, which bins once and cuts down to time units once. -/
structure DerivesOnce (w : List (Nat × Stage)) : Prop where
  bins : (w.filter (·.2.tag = .bin)).length ≤ 1
  units : (w.filter (·.2.tag = .timeUnit)).length ≤ 1

/-- A change of a way keeps its order, its core and its bins and time units. -/
theorem Ordered.rerouted (hw : Ordered w₀ w) (hone : DerivesOnce w₀)
    (h : Rerouted C pass policy w w') : Ordered w₀ w' where
  mayPrecede := h.mayPrecede hw.mayPrecede
  core := h.core.trans hw.core
  bins := (h.filter_tag (.inl rfl) (hw.bins ▸ hone.bins)).trans hw.bins
  units := (h.filter_tag (.inr rfl) (hw.units ▸ hone.units)).trans hw.units

/-- So do any number of changes. -/
theorem Ordered.reroutes (hw : Ordered w₀ w) (hone : DerivesOnce w₀)
    (h : Relation.ReflTransGen (Rerouted C pass policy) w w') : Ordered w₀ w' := by
  induction h with
  | refl => exact hw
  | tail _ h ih => exact ih.rerouted hone h

/-- Passes other than the one for conversions turn strands into strands. -/
theorem Ordered.of_passes {passes : List Pass} {f' : Forest Stage} (hp : .parse ∉ passes)
    (h : Flow.Passes policy passes (.strand w) f') (hw : Ordered w₀ w) (hone : DerivesOnce w₀) :
    ∃ w', f' = .strand w' ∧ Ordered w₀ w' := by
  generalize hf : Forest.strand w = f at h
  induction h generalizing w with
  | nil f => exact ⟨w, hf.symm, hw⟩
  | @cons pass passes f g f' hr _ _ _ ih =>
    subst hf
    rw [List.mem_cons, not_or] at hp
    obtain ⟨hne, hp⟩ := hp
    obtain ⟨w₁, rfl, hw₁⟩ := Forest.Rewrites.strand_of_star hr (Ne.symm hne)
    exact ih hp (hw.reroutes hone hw₁) rfl

/-! ### What the last passes restore -/

/-- In a list, a relation with a nearer predecessor carries over to what stands before it. -/
private theorem pairwise_of_isChain {α : Type} {R S Q : α → α → Prop} {l : List α}
    (hR : l.Pairwise R) (hS : l.IsChain S) (hnext : ∀ a b, R a b → S a b → Q a b)
    (hfar : ∀ x a b, R x a → R a b → S a b → Q x b) : l.Pairwise Q := by
  -- every later item has a nearest one before it, by induction on the list in between
  have hpred (y : α) (l : List α) (hR : (y :: l).Pairwise R) (hS : (y :: l).IsChain S) (b : α)
      (hb : b ∈ l) : ∃ a ∈ y :: l, R a b ∧ S a b := by
    induction l generalizing y with
    | nil => exact absurd hb (by simp)
    | cons z l ih =>
      obtain ⟨hyz, hchain⟩ := List.isChain_cons_cons.1 hS
      obtain ⟨hy, hl⟩ := List.pairwise_cons.1 hR
      rcases List.mem_cons.1 hb with rfl | hb
      · exact ⟨y, by simp, hy b (by simp), hyz⟩
      · obtain ⟨a, ha, hab⟩ := ih z hl hchain hb
        exact ⟨a, List.mem_cons_of_mem y ha, hab⟩
  induction l with
  | nil => exact .nil
  | cons x l ih =>
    obtain ⟨hx, hl⟩ := List.pairwise_cons.1 hR
    refine List.pairwise_cons.2 ⟨fun b hb => ?_, ih hl hS.of_cons⟩
    cases l with
    | nil => exact absurd hb (by simp)
    | cons y l =>
      obtain ⟨hxy, hchain⟩ := List.isChain_cons_cons.1 hS
      rcases List.mem_cons.1 hb with rfl | hb
      · exact hnext x b (hx b (by simp)) hxy
      · obtain ⟨a, ha, hab, hsab⟩ := hpred y l hl hchain b hb
        exact hfar x a b (hx a ha) hab hsab

/-- A filter that stays is not below stages that it may pass. -/
theorem Move.of_stay {a b : Stage} (h : choose policy b a true = .stay)
    (hb : b.tag = .filter ∨ b.tag = .nullFilter) :
    a.tag = .source ∨ a.tag = .calculate ∨ a.rank = 4 := by
  cases b <;> simp only [Stage.tag, reduceCtorEq, or_self] at hb <;>
    cases a <;> simp_all [choose, passage?, Stage.tag, Tag.joins, Stage.rank]

/-- What stands directly before a filter that stays is a source or a calculation. -/
private theorem acts_of_stay {a b : Stage} (hab : a.MayPrecede b)
    (hstay : Move.choose policy b a true = .stay) (hb : b.tag = .filter ∨ b.tag = .nullFilter)
    (hacts : b.acts = true) : a.acts = true ∧ (a.rank = 0 ∨ a.rank = 1 ∧ a.tag = .calculate) := by
  have hrank : b.rank ≤ 2 := by
    cases b <;> simp_all [Stage.tag, Stage.rank]
  rcases Move.of_stay hstay hb with ha | ha | ha
  · cases a <;> simp_all [Stage.tag, Stage.acts, Stage.rank]
  · cases a <;> simp_all [Stage.tag, Stage.acts, Stage.rank]
  · have haa : a.acts = true := by cases a <;> simp_all [Stage.rank, Stage.acts]
    rcases hab haa hacts with h | h <;> omega

/-- Where filters of a kind stay, what stands before them is loaded or transformed. -/
theorem pairwise_of_stays {t : Tag} (ht : t = .filter ∨ t = .nullFilter)
    (hw : w.Pairwise fun e e' => e.2.MayPrecede e'.2) (hh : pass.handles t = true)
    (hstays : Forest.Stays pass policy w) :
    w.Pairwise fun e e' => e'.2.tag = t → e'.2.acts = true → e.2.acts = true → e.2.rank ≤ 1 := by
  refine pairwise_of_isChain hw hstays (fun a b hab hstay hb hacts _ => ?_)
    fun x a b hxa hab hstay hb hacts hx => ?_
  · obtain ⟨-, ha⟩ := acts_of_stay hab (hstay (hb ▸ hh)) (hb ▸ ht) hacts
    omega
  · obtain ⟨haa, ha⟩ := acts_of_stay hab (hstay (hb ▸ hh)) (hb ▸ ht) hacts
    rcases hxa hx haa with h | ⟨-, h, hcalc⟩
    · omega
    · rcases ha with ha | ⟨-, ha⟩
      · omega
      · exact absurd ha hcalc

/-- The pass for transforms leaves null filters where nothing is derived before them. -/
theorem Rerouted.cleaned (h : Rerouted C .transforms policy w w')
    (hw : w.Pairwise fun e e' =>
      e'.2.tag = .nullFilter → e'.2.acts = true → e.2.acts = true → e.2.rank ≠ 3) :
    w'.Pairwise fun e e' =>
      e'.2.tag = .nullFilter → e'.2.acts = true → e.2.acts = true → e.2.rank ≠ 3 := by
  -- this pass moves only filters and calculations
  have handled {b : Stage} (hb : Pass.transforms.handles b.tag = true) :
      b.rank = 1 ∧ b.tag ≠ .nullFilter := by
    cases b <;> simp [Pass.handles, Stage.tag] at hb <;> simp [Stage.rank, Stage.tag]
  refine h.pairwise (R := fun a b =>
    b.tag = .nullFilter → b.acts = true → a.acts = true → a.rank ≠ 3)
    ⟨fun {a b c} h _ z => ?_, fun {a b dims} h _ _ _ _ => ?_, fun b dims z => ?_⟩
    (fun _ _ z => ?_) hw
  · obtain ⟨hrb, hrc, htc⟩ := h.rank
    obtain ⟨hb, hne⟩ := handled h.handled
    refine ⟨fun _ _ hc => ?_, fun _ _ _ _ _ => by omega⟩
    exact absurd hc (htc ▸ h.tag_eq ▸ hne)
  -- what has risen stands above, and is of the first rank
  · have hrank : (b.addDimensions dims).rank = b.rank := by cases b <;> rfl
    rw [hrank, (handled h.handled).1]
    simp
  · cases b <;> exact ⟨fun h => h, fun h => h⟩
  · exact ⟨fun _ h => absurd h (by simp [Stage.tag]), fun _ _ _ h => absurd h (by simp [Stage.acts])⟩

/-- So do any number of its changes. -/
theorem Rerouted.cleaned_of_star (h : Relation.ReflTransGen (Rerouted C .transforms policy) w w')
    (hw : w.Pairwise fun e e' =>
      e'.2.tag = .nullFilter → e'.2.acts = true → e.2.acts = true → e.2.rank ≠ 3) :
    w'.Pairwise fun e e' =>
      e'.2.tag = .nullFilter → e'.2.acts = true → e.2.acts = true → e.2.rank ≠ 3 := by
  induction h with
  | refl => exact hw
  | tail _ h ih => exact h.cleaned ih

/-- Where filters and null filters have come to their places, the way is in order. -/
theorem sorted_of_pairwise (hw : w.Pairwise fun e e' => e.2.MayPrecede e'.2)
    (hclean : w.Pairwise fun e e' =>
      e'.2.tag = .nullFilter → e'.2.acts = true → e.2.acts = true → e.2.rank ≠ 3)
    (hfilter : w.Pairwise fun e e' =>
      e'.2.tag = .filter → e'.2.acts = true → e.2.acts = true → e.2.rank ≤ 1) :
    Sorted (w.map Prod.snd) := by
  rw [Sorted, List.pairwise_map]
  refine (hw.and (hclean.and hfilter)).imp fun {e e'} ⟨h, hc, hf⟩ ha hb => ?_
  rcases h ha hb with h | ⟨h₃, h₁, hne⟩
  · exact h
  · by_contra hlt
    -- what may precede out of order is a filter or a null filter, and these are in place
    have htag : e'.2.tag = .nullFilter ∧ e'.2.rank = 2 ∨ e'.2.tag = .filter ∧ e'.2.rank = 1 := by
      revert h₁ hne hlt h₃
      cases e'.2 <;> simp [Stage.rank, Stage.tag] <;> omega
    rcases htag with ⟨htag, hrank⟩ | ⟨htag, hrank⟩
    · exact hc htag hb ha (by omega)
    · have := hf htag hb ha
      omega

/-- All passes but the last one bring a way that was in order back into order. -/
theorem Ordered.hoisted {f' : Forest Stage} (h : Flow.Passes policy Pass.all (.strand w₀) f')
    (hw₀ : w₀.Pairwise fun e e' => e.2.MayPrecede e'.2) (hone : DerivesOnce w₀) :
    ∃ w, Ordered w₀ w ∧ Sorted (w.map Prod.snd) ∧
      List.Forall₂ Forest.Place.Kept (Forest.strand w₀).endpoints (Forest.strand w).endpoints ∧
      Relation.ReflTransGen (Forest.Rewrites .parse policy) (.strand w) f' := by
  obtain ⟨g, hg, hparse⟩ := Flow.Passes.of_append
    [.stack, .aggregate, .bin, .timeUnit, .nullFilter, .transforms] [.parse] h
  have hkept := Forest.endpoints_of_passes hg
  clear h
  obtain ⟨f₁, h₁, h⟩ := Flow.Passes.of_append
    [.stack, .aggregate, .bin, .timeUnit] [.nullFilter, .transforms] hg
  obtain ⟨w₁, rfl, hw₁⟩ := Ordered.of_passes (by simp) h₁ ⟨hw₀, rfl, rfl, rfl⟩ hone
  cases h with
  | cons hr₂ _ hs₂ h =>
  obtain ⟨w₂, rfl, hw₁₂⟩ := Forest.Rewrites.strand_of_star hr₂ (by simp)
  have hw₂ := hw₁.reroutes hone hw₁₂
  -- the pass for null filters has put them directly below transforms
  have hclean := pairwise_of_stays (.inr rfl) hw₂.mayPrecede rfl (Forest.settled_strand.1 hs₂)
  cases h with
  | cons hr₃ _ hs₃ h =>
  obtain ⟨w₃, rfl, hw₂₃⟩ := Forest.Rewrites.strand_of_star hr₃ (by simp)
  have hw₃ := hw₂.reroutes hone hw₂₃
  -- the one for transforms has then put the filters there
  have hfilter := pairwise_of_stays (.inl rfl) hw₃.mayPrecede rfl (Forest.settled_strand.1 hs₃)
  have hclean := Rerouted.cleaned_of_star hw₂₃ <|
    hclean.imp fun h hb hacts ha => by have := h hb hacts ha; omega
  cases h
  cases hparse with
  | cons hr₄ _ _ h =>
  cases h
  exact ⟨w₃, hw₃, sorted_of_pairwise hw₃.mayPrecede hclean hfilter, hkept, hr₄⟩

end ChartPipeline
