import ChartPipeline.Proofs.Converging
import ChartPipeline.Proofs.Shifting

/-!
# Hoisting for a second time

Hoisting runs every pass once, each to its own end.  A later pass may clear the way for an earlier
one, which does not run again: a hoisted flow may be hoisted further.  It is not, exactly if none of
its strands is loose; and no pass does anything at all, exactly if all stages stay under those
before them.

## Key results

- `Flow.hoist_again`: what hoisting makes of the hoisted flow of a chart
-/

namespace ChartPipeline.Flow

open Forest

variable {policy : FacetPolicy} {flow hoisted : Flow} {chart : Chart} {built : Building} {n m : Nat}

/-- The last pass has come to its end. -/
theorem Passes.settled_parse {f f' : Forest Stage} (h : Passes policy Pass.all f f') :
    Settled .parse policy f' := by
  obtain ⟨g, -, h⟩ :=
    h.of_append [.stack, .aggregate, .bin, .timeUnit, .nullFilter, .transforms] [.parse]
  cases h with
  | cons _ _ hs rest =>
    cases rest
    exact hs

/-- Hoisting succeeds if a pass may take two sweeps, and more than it has stages to move on any
    strand. -/
theorem hoist_of_handled (policy : FacetPolicy) (hf : flow.stages.Lawful) (hn : 2 ≤ n)
    (hk : ∀ pass ∈ Pass.all, ∀ e ∈ flow.stages.strands.toList, handled pass e.2 < n) :
    ∃ flow', hoist policy n flow = (.ok (), flow') := by
  have hall : Pass.all =
      [.stack, .aggregate, .bin, .timeUnit, .nullFilter, .transforms] ++ [.parse] := rfl
  rw [hall] at hk
  exact runPasses_concat_parse policy (by decide) hf hn fun pass hpass =>
    hk pass (List.mem_append_left _ hpass)

/-- A pass does nothing exactly if it has come to its end. -/
theorem runPass_iff {pass : Pass} (hpos : 0 < n) (hf : flow.stages.Lawful) :
    runPass pass policy n flow = (.ok 1, flow) ↔ Settled pass policy flow.stages :=
  ⟨fun h => (settle_ok h hf).2.2, runPass_settled hpos hf.nodup⟩

/-- What hoisting makes of the hoisted flow of a chart.  It succeeds, unless a pass runs out of
    sweeps; as many as there are stages to move on a strand, and one more, suffice.  The stages are
    then exactly as before if no strand is loose.  No pass does anything exactly if every stage
    stays under the one before it. -/
theorem hoist_again (hb : Building.ofChart chart = .ok built)
    (h : hoist policy n built.flow = (.ok (), hoisted)) (m : Nat) :
    ((∃ again, hoist policy m hoisted = (.ok (), again) ∧
        (again.stages = hoisted.stages ↔
          ∀ e ∈ hoisted.stages.strands.toList, ¬ Loose policy e.2)) ∨
      ∃ pass ∈ Pass.all, ∃ again,
        hoist policy m hoisted = (.error (.didNotConverge pass.name m), again)) ∧
    (2 ≤ m →
      (∀ pass ∈ Pass.all, ∀ e ∈ hoisted.stages.strands.toList, handled pass e.2 < m) →
        ∃ again, hoist policy m hoisted = (.ok (), again)) ∧
    (0 < m →
      ((∀ pass ∈ Pass.all, runPass pass policy m hoisted = (.ok 1, hoisted)) ↔
        ∀ pass ∈ Pass.all, ∀ e ∈ hoisted.stages.strands.toList, Stays pass policy e.2)) := by
  have hpasses := hoist_ok h (Building.ofChart_lawful hb)
  have hf := hpasses.lawful (Building.ofChart_lawful hb)
  -- conversions stand right below their sources, so another hoisting moves none of them
  have hl : hoisted.stages.Loaded := loaded_of_stands
    (stands_of_passes hpasses (Building.ofChart_lawful hb) (Building.ofChart_orderly hb) rfl)
  refine ⟨?_, hoist_of_handled policy hf, fun hm => ⟨fun hruns pass hpass => ?_, ?_⟩⟩
  · obtain ⟨again, hrun | ⟨pass, hpass, hrun⟩⟩ := runPasses_total policy m Pass.all hf
    · exact .inl ⟨again, hrun, runPasses_eq_iff hrun hf hl⟩
    · exact .inr ⟨pass, hpass, again, hrun⟩
  · exact ((runPass_iff hm hf).1 (hruns pass hpass)).stays
  · intro hstays pass hpass
    refine (runPass_iff hm hf).2 ?_
    -- the last pass has just come to its end; all others are told by the strands
    by_cases hp : pass = .parse
    · exact hp ▸ hpasses.settled_parse
    · exact (settled_iff_strands hp hf).2 (hstays pass hpass)

/-- Bars over the bins of the rows with `x > 0`. -/
def binnedSelection : Chart :=
  .unit { data := some (.named "rows"), transforms := [.filter (.expression "datum.x > 0")] } .bar
    ((∅ : Encoding).insert .x ((FieldDef.named "x" .quantitative).withBin (.flag true))) none

/-- The bins rise above the filters, and these above the bins, so passes do something each time, and
    nothing has changed in the end. -/
theorem hoist_again_binnedSelection : ∃ built hoisted again,
    Building.ofChart binnedSelection = .ok built ∧
      hoist .foldGroupby 32 built.flow = (.ok (), hoisted) ∧
      hoist .foldGroupby 32 hoisted = (.ok (), again) ∧ again.stages = hoisted.stages ∧
      ¬ ∀ pass ∈ Pass.all, runPass pass .foldGroupby 32 hoisted = (.ok 1, hoisted) := by
  have hruns : (match Building.ofChart binnedSelection with
      | .ok built =>
        let hoisted := hoist .foldGroupby 32 built.flow
        hoisted.1.isOk && (hoist .foldGroupby 32 hoisted.2).1.isOk &&
          decide (∀ e ∈ hoisted.2.stages.strands.toList, ¬ Loose .foldGroupby e.2) &&
          decide (∃ e ∈ hoisted.2.stages.strands.toList, ¬ Stays .bin .foldGroupby e.2)
      | .error _ => false) = true := by decide +kernel
  cases hb : Building.ofChart binnedSelection with
  | error e => simp [hb] at hruns
  | ok built =>
    rw [hb] at hruns
    simp only [Bool.and_eq_true, decide_eq_true_eq] at hruns
    obtain ⟨⟨⟨hok, hok'⟩, htight⟩, e, he, hmoves⟩ := hruns
    have h := Run.eq_ok_of_isOk hok
    have h' := Run.eq_ok_of_isOk hok'
    obtain ⟨hagain, -, hrests⟩ := hoist_again hb h 32
    refine ⟨built, _, _, rfl, h, h', ?_, fun hruns => hmoves ?_⟩
    · rcases hagain with ⟨again, hrun, hiff⟩ | ⟨pass, -, again, hrun⟩
      · obtain rfl : _ = again := congrArg Prod.snd (h'.symm.trans hrun)
        exact hiff.2 htight
      · exact absurd (congrArg Prod.fst (h'.symm.trans hrun)) (by simp)
    · exact (hrests (by decide)).1 hruns .bin (by decide) e he

/-- A layer with a unit that draws a calculated number. -/
def layeredCalculation : Chart :=
  .layer { data := some (.named "rows") }
    [.unit { transforms := [.calculate "datum.a * 2" "b"] } .point
      ((∅ : Encoding).insert .x (.named "b" .quantitative)) none]

/-- The null filter stays under the calculation until that has risen above the outputs of the layer,
    and rises above them only when the flow is hoisted for a second time. -/
theorem hoist_again_moves : ¬ ∀ chart built policy n hoisted,
    Building.ofChart chart = .ok built → hoist policy n built.flow = (.ok (), hoisted) →
      (∃ again, hoist policy n hoisted = (.ok (), again) ∧ again.stages = hoisted.stages) ∧
        ∀ pass ∈ Pass.all, runPass pass policy n hoisted = (.ok 1, hoisted) := by
  intro hall
  -- the names of the stages, from top to bottom, are in another order
  have hruns : (match Building.ofChart layeredCalculation with
      | .ok built =>
        let hoisted := hoist .foldGroupby 32 built.flow
        let again := hoist .foldGroupby 32 hoisted.2
        hoisted.1.isOk && again.1.isOk && again.2.stages.walk ≠ hoisted.2.stages.walk
      | .error _ => false) = true := by decide +kernel
  cases hb : Building.ofChart layeredCalculation with
  | error e => simp [hb] at hruns
  | ok built =>
    rw [hb] at hruns
    simp only [Bool.and_eq_true, decide_eq_true_eq] at hruns
    obtain ⟨⟨hok, -⟩, hwalk⟩ := hruns
    obtain ⟨⟨again, hrun, hsame⟩, -⟩ :=
      hall layeredCalculation built .foldGroupby 32 _ hb (Run.eq_ok_of_isOk hok)
    rw [hrun] at hwalk
    exact hwalk (congrArg walk hsame)

end ChartPipeline.Flow
