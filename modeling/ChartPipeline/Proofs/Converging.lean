import ChartPipeline.Proofs.Loading

/-!
# Bounds that suffice

A chart cleans, derives and groups at most once in a row, so all passes but that for filters and
calculations end after two sweeps.  That one may need a sweep for each of them in a row, and another
one that changes nothing.

## Key results

- `Building.handled_le_one`: the other passes have at most one stage to move on every strand
- `Compiler.compile_converges`: a bound above the number of filters and calculations on every strand
  suffices
- `Compiler.default_iterations_fall_short`: the default bound does not suffice for all charts
-/

namespace ChartPipeline

variable {pass : Pass} {policy : FacetPolicy}

/-- A change of a way leaves no more stages to any pass. -/
theorem Rerouted.handled_le {C : Stage → Stage → Prop} {w w' : List (Nat × Stage)}
    (h : Rerouted C pass policy w w') (pass' : Pass) :
    Forest.handled pass' w' ≤ Forest.handled pass' w := by
  -- only a merge has fewer stages after it; all other moves keep the kinds
  cases h with
  | refl => exact Nat.le_refl _
  | join h _ l p i r =>
    simp only [Forest.handled_append, Forest.handled_cons, Stage.tag_of_merge? h.merged]
    omega
  | rise h _ l p i r =>
    simp only [Forest.handled_append, Forest.handled_cons, Stage.tag_addDimensions]
    omega
  | drop h l i types r =>
    simp only [Forest.handled_append, Forest.handled_cons]
    omega
  | widen h l i types types' r =>
    simp only [Forest.handled_append, Forest.handled_cons, Stage.tag]
    exact Nat.le_refl _

/-- The passes that move a single kind of stage, other than conversions, move what stands once in a
    row. -/
theorem Pass.single {a b : Stage} (ht : pass ≠ .transforms) (hp : pass ≠ .parse)
    (ha : pass.handles a.tag = true) (hb : pass.handles b.tag = true) :
    (a.prepares = true ∨ a.isGrouping = true) ∧ b.tag = a.tag := by
  rw [Stage.prepares, Stage.isGrouping]
  generalize a.tag = s at ha
  generalize b.tag = t at hb
  cases pass <;> cases s <;> simp [handles] at ha ht hp <;> cases t <;> simp [handles] at hb ⊢

namespace Forest

/-- Moves leave no more stages to any pass on any strand. -/
theorem handled_le_of_rewrites {f f' : Forest Stage} {pass' : Pass} {k : Nat}
    (h : Relation.ReflTransGen (Rewrites pass policy) f f') (hp : pass ≠ .parse)
    (hk : ∀ e ∈ f.strands.toList, handled pass' e.2 ≤ k) :
    ∀ e ∈ f'.strands.toList, handled pass' e.2 ≤ k := by
  intro e he
  obtain ⟨e₀, he₀, hr⟩ := (strands_of_rewrites h hp).exists_of_mem e he
  suffices ∀ w, Relation.ReflTransGen (Rerouted (fun _ _ => True) pass policy) e₀.2 w →
      handled pass' w ≤ handled pass' e₀.2 from Nat.le_trans (this _ hr) (hk e₀ he₀)
  -- by induction on the moves, of which each is a change of every way
  intro w hw
  induction hw with
  | refl => exact Nat.le_refl _
  | tail _ hr ih => exact Nat.le_trans (hr.handled_le pass') ih

/-- What a pass moves is at most one stage if no two on the way are for it. -/
theorem handled_le_one {w : List (Nat × Stage)}
    (h : w.Pairwise fun x y => pass.handles x.2.tag = true → pass.handles y.2.tag = false) :
    handled pass w ≤ 1 := by
  induction w with
  | nil => exact Nat.zero_le 1
  | cons x w ih =>
    obtain ⟨hx, hw⟩ := List.pairwise_cons.1 h
    rw [handled_cons]
    -- after a first stage for the pass there is none
    by_cases hh : pass.handles x.2.tag = true
    · have hnone : handled pass w = 0 :=
        List.countP_eq_zero.2 fun y hy => by simp [hx y hy hh]
      rw [hnone, if_pos hh]
    · rw [if_neg hh]
      exact ih hw

end Forest

/-- In the flow of a chart, the passes other than that for filters and calculations, and that for
    conversions, have at most one stage to move on every strand. -/
theorem Building.handled_le_one {chart : Chart} {built : Building}
    (h : ofChart chart = .ok built) (ht : pass ≠ .transforms) (hp : pass ≠ .parse) :
    ∀ e ∈ built.flow.stages.strands.toList, Forest.handled pass e.2 ≤ 1 := by
  intro e he
  refine Forest.handled_le_one (((fenced_once h).strands e he).imp fun hxy hx => ?_)
  rw [← Bool.not_eq_true]
  intro hy
  obtain ⟨hkind, htag⟩ := Pass.single ht hp hx hy
  exact hxy hkind htag

namespace Flow

open Forest

variable {flow : Flow}

/-- Passes come to their ends if each may take more sweeps than it has stages to move on any
    strand. -/
theorem runPasses_of_handled {passes : List Pass} {n k : Nat} (policy : FacetPolicy)
    (hp : .parse ∉ passes) (hf : flow.stages.Lawful) (hkn : k < n)
    (hk : ∀ pass ∈ passes, ∀ e ∈ flow.stages.strands.toList, handled pass e.2 ≤ k) :
    ∃ flow', runPasses policy n passes flow = (.ok (), flow') := by
  -- by induction on the passes, of which none leaves more to those after it
  induction passes generalizing flow with
  | nil => exact ⟨flow, rfl⟩
  | cons pass passes ih =>
    obtain ⟨hpass, hrest⟩ := not_or.1 (mt List.mem_cons.2 hp)
    have hwithin : ∀ e ∈ flow.stages.strands.toList, Within pass policy k e.2 :=
      fun e he => (within_handled pass policy e.2).mono (hk pass (by simp) e he)
    obtain ⟨r, flow₁, hrun⟩ := settle_of_within 0 (Ne.symm hpass) hf hwithin hkn
    obtain ⟨hr, hf₁, -⟩ := settle_ok hrun hf
    rw [runPasses_cons_ok passes hrun]
    exact ih hrest hf₁ fun pass' hmem =>
      handled_le_of_rewrites hr (Ne.symm hpass) (hk pass' (by simp [hmem]))

/-- Passes that come to their ends leave the rest to the others. -/
theorem runPasses_append {passes passes' : List Pass} {n : Nat} {flow' : Flow}
    (h : runPasses policy n passes flow = (.ok (), flow')) :
    runPasses policy n (passes ++ passes') flow = runPasses policy n passes' flow' := by
  simp only [runPasses, List.forM_eq_forM, List.forM_append] at h ⊢
  exact Run.bind_ok h

/-- Passes that end with that for conversions come to their ends if each may take two sweeps, and
    each of the others more than it has stages to move on any strand. -/
theorem runPasses_concat_parse {passes : List Pass} {n : Nat} (policy : FacetPolicy)
    (hp : .parse ∉ passes) (hf : flow.stages.Lawful) (hn : 2 ≤ n)
    (hk : ∀ pass ∈ passes, ∀ e ∈ flow.stages.strands.toList, handled pass e.2 < n) :
    ∃ flow', runPasses policy n (passes ++ [.parse]) flow = (.ok (), flow') := by
  have hlt : n - 1 < n := by omega
  have hle : ∀ pass ∈ passes, ∀ e ∈ flow.stages.strands.toList, handled pass e.2 ≤ n - 1 :=
    fun pass hmem e he => Nat.le_sub_one_of_lt (hk pass hmem e he)
  obtain ⟨flow₁, hrun⟩ := runPasses_of_handled policy hp hf hlt hle
  have hf₁ := (runPasses_ok hrun hf).lawful hf
  -- conversions rest after two sweeps, however many there are
  obtain ⟨r, flow₂, hrun', -⟩ := runPass_parse policy hn hf₁.grounded
  exact ⟨flow₂, (runPasses_append hrun).trans (runPasses_cons_ok [] hrun')⟩

end Flow

/-- If a compiler may take two sweeps, and more than there are filters and calculations on any strand
    of the flow of a chart, its passes come to their ends. -/
theorem CompilerOptions.optimizeFlow_of_handled {chart : Chart} {built : Building}
    {options : CompilerOptions} (hb : Building.ofChart chart = .ok built)
    (hn : 2 ≤ options.iterations)
    (hk : ∀ e ∈ built.flow.stages.strands.toList,
      Forest.handled .transforms e.2 < options.iterations) :
    ∃ flow', options.optimizeFlow built.flow = (.ok (), flow') := by
  have hf := Building.ofChart_lawful hb
  -- the conversions come last, and need no bound of the strands
  obtain ⟨passes, hpasses, hparse⟩ : ∃ passes, options.passes = passes ++ [.parse] ∧
      .parse ∉ passes := by
    unfold passes
    split
    · exact ⟨[.stack, .aggregate, .bin, .timeUnit, .nullFilter, .transforms], rfl, by decide⟩
    · exact ⟨[], rfl, by decide⟩
  have hlt : ∀ pass ∈ passes, ∀ e ∈ built.flow.stages.strands.toList,
      Forest.handled pass e.2 < options.iterations := by
    intro pass hmem e he
    -- the bound is for filters and calculations; of all other kinds there is one at most
    by_cases ht : pass = .transforms
    · exact ht ▸ hk e he
    · have := Building.handled_le_one hb ht (fun hp => hparse (hp ▸ hmem)) e he
      omega
  obtain ⟨flow', hrun⟩ := Flow.runPasses_concat_parse options.facetPolicy hparse hf hn hlt
  rw [← hpasses] at hrun
  rw [optimizeFlow_eq, Run.bind_ok hrun]
  exact ⟨_, rfl⟩

namespace Compiler

variable {compiler compiler' : Compiler} {chart : Chart} {flow : Flow}

/-- Compiling a chart whose flow was built succeeds if a pass may take two sweeps, and more than
    there are filters and calculations in a row, with no fork between, anywhere in the flow. -/
theorem compile_converges (h : compiler.buildFlow chart = (.ok flow, compiler'))
    (hn : 2 ≤ compiler.options.iterations)
    (hk : ∀ e ∈ flow.stages.strands.toList,
      Forest.handled .transforms e.2 < compiler.options.iterations) :
    ∃ data, (compiler.compile chart).1 = .ok data := by
  obtain ⟨⟨built, hbuilt, rfl⟩, hoptions⟩ := buildFlow_ok h
  rw [← hoptions] at hn hk
  obtain ⟨flow', hrun⟩ := CompilerOptions.optimizeFlow_of_handled hbuilt hn hk
  exact compile_ok h hrun

/-- A unit that draws a number, after some calculations. -/
def calculations (n : Nat) : Chart :=
  .unit { data := some (.named "rows")
          transforms := (List.range n).map fun i =>
            .calculate ("datum.a + " ++ toString i) ("c" ++ toString i) }
    .point ((∅ : Encoding).insert .x (FieldDef.named "a" .quantitative)) none

/-- As many calculations as the default bound allows. -/
theorem compile_converges_calculations : ∃ flow compiler',
    ({} : Compiler).buildFlow (calculations 31) = (.ok flow, compiler') ∧
      (∀ e ∈ flow.stages.strands.toList, Forest.handled .transforms e.2 < 32) ∧
      ∃ data, (({} : Compiler).compile (calculations 31)).1 = .ok data := by
  have hbuilds : (match (({} : Compiler).buildFlow (calculations 31)).1 with
      | .ok flow => decide (∀ e ∈ flow.stages.strands.toList, Forest.handled .transforms e.2 < 32)
      | .error _ => false) = true := by decide +kernel
  cases h : ({} : Compiler).buildFlow (calculations 31) with
  | mk result compiler' =>
    rw [h] at hbuilds
    cases result with
    | error e => exact absurd hbuilds (by simp)
    | ok flow =>
      have hk := of_decide_eq_true hbuilds
      exact ⟨flow, compiler', rfl, hk, compile_converges h (by decide) hk⟩

/-- One calculation more, each of which takes a sweep of its own to pass the conversion above all of
    them, and the default bound does not suffice. -/
theorem default_iterations_fall_short :
    ¬ ∀ (chart : Chart) (flow : Flow) (compiler' : Compiler),
      ({} : Compiler).buildFlow chart = (.ok flow, compiler') →
      ∀ pass n, (({} : Compiler).compile chart).1 ≠ .error (.didNotConverge pass n) := by
  intro hall
  have hbuilds : (({} : Compiler).buildFlow (calculations 32)).1.isOk = true := by decide +kernel
  have hfails : (match (({} : Compiler).compile (calculations 32)).1 with
      | .error (.didNotConverge _ _) => true
      | _ => false) = true := by decide +kernel
  cases h : ({} : Compiler).buildFlow (calculations 32) with
  | mk result compiler' =>
    rw [h] at hbuilds
    cases result with
    | error e => exact absurd hbuilds (by simp [Except.isOk, Except.toBool])
    | ok flow =>
      split at hfails
      · next pass n herror => exact hall _ flow compiler' h pass n herror
      · exact absurd hfails (by simp)

end Compiler

end ChartPipeline
