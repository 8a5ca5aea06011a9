import ChartPipeline.Compiler
import ChartPipeline.Proofs.Assembling
import ChartPipeline.Proofs.Delivery
import Mathlib.Data.List.Chain

/-!
# Compiling a chart that was built does not fail

Sources only begin the ways of a flow, and nothing follows a header.  Building a chart makes such
ways, and no move of a pass undoes this.  Once the pass for conversions has come to its end, these
stand right below their sources, so that nothing is left for the assembly to object to.

## Key results

- `Forest.Settled.parse_above`: where the conversions stand once their pass has come to its end
- `Flow.runPasses_total`: passes in a lawful flow succeed or run out of sweeps
- `compile_ok_or_didNotConverge`: compiling a chart that was built gives datasets, unless a pass
  runs out of sweeps
-/

namespace ChartPipeline

/-! ### What may stand above what -/

/-- Whether a stage may stand below another one: nothing follows a header, and sources follow
    nothing. -/
def Stage.MayFollow (a b : Stage) : Prop := a.tag ≠ .facetHeader ∧ b.tag ≠ .source

/-- No move puts a header above another stage, or a source below one. -/
theorem Stage.mayFollow_stable (pass : Pass) (policy : FacetPolicy) :
    Stable Stage.MayFollow pass policy where
  join h _ z := by
    have hc := Stage.tag_of_merge? h.merged
    refine ⟨fun ha _ => ⟨ha.1, ?_⟩, fun ha _ => ⟨?_, ha.2⟩⟩
    · rw [hc]
      exact ha.2
    · rw [hc]
      exact ha.1
  rise h _ := by
    refine ⟨?_, h.not_source⟩
    rw [Stage.tag_addDimensions]
    intro ht
    have := Pass.not_isOutlet h.handled
    simp [Stage.isOutlet, ht] at this
  dims dims b z := by simp [Stage.MayFollow]

/-- A way on which every stage may follow those before it. -/
def FollowsOn (w : List (Nat × Stage)) : Prop := w.Pairwise fun e e' => e.2.MayFollow e'.2

/-- A change of a way leaves its stages where they may stand. -/
theorem Rerouted.followsOn {pass : Pass} {policy : FacetPolicy} {C : Stage → Stage → Prop}
    {w w' : List (Nat × Stage)} (h : Rerouted C pass policy w w') (hw : FollowsOn w) :
    FollowsOn w' :=
  h.pairwise (Stage.mayFollow_stable pass policy) (fun _ _ _ => ⟨id, id⟩) hw

namespace Forest

variable {pass : Pass} {policy : FacetPolicy} {f f' : Forest Stage}

/-- Forests on all of whose ways stages stand where they may. -/
def Orderly (f : Forest Stage) : Prop := ∀ v ∈ f.places [], FollowsOn v.route

/-- So does a move, on all ways of a forest. -/
theorem Rewrites.orderly (h : Rewrites pass policy f f') (hf : f.Orderly) : f'.Orderly := by
  intro v' hv'
  -- a way after the move is a changed one, or ends with a conversion put below a source
  rcases h.exists_rerouted adjoins_true hv' with ⟨v, hv, w, hw, hpre⟩ | ⟨-, v, hv, hs, i, types, hr⟩
  · exact (hw.followsOn (hf v hv)).sublist hpre.sublist
  · -- the source above the new conversion begins its way
    have habove : v.above = [] := by
      cases hl : v.above with
      | nil => rfl
      | cons e l =>
        have hv := hf v hv
        rw [FollowsOn, Place.route, hl, List.cons_append] at hv
        exact absurd hs ((List.pairwise_cons.1 hv).1 (v.id, v.content) (by simp)).2
    have hfollow : v.content.MayFollow (.parse types) := by
      refine ⟨?_, by simp [Stage.tag]⟩
      rw [hs]
      simp
    rw [hr, Place.route, habove]
    simpa [FollowsOn] using hfollow

/-- So do any number of moves. -/
theorem orderly_of_rewrites (h : Relation.ReflTransGen (Rewrites pass policy) f f')
    (hf : f.Orderly) : f'.Orderly := by
  induction h with
  | refl => exact hf
  | tail _ h ih => exact h.orderly ih

/-! ### Where conversions stand -/

/-- Every forest ends in a leaf. -/
theorem exists_fill_nil {α : Type} {f : Forest α} (hf : f ≠ nil) :
    ∃ fr up, f = fill (fr :: up) nil := by
  induction f with
  | nil => exact absurd rfl hf
  | node i a cs rest ihc _ =>
    by_cases hc : cs = nil
    · subst hc
      exact ⟨⟨nil, i, a, rest⟩, [], rfl⟩
    · obtain ⟨fr, up, h⟩ := ihc hc
      refine ⟨fr, up ++ [⟨nil, i, a, rest⟩], ?_⟩
      rw [← List.cons_append, fill_concat, ← h]
      rfl

/-- A closed frame is never empty. -/
theorem Frame.close_ne_nil {α : Type} (fr : Frame α) (cs : Forest α) : fr.close cs ≠ nil := by
  obtain ⟨before, i, a, after⟩ := fr
  cases before <;> simp [Frame.close]

/-- A node with nothing below it is a leaf. -/
theorem Frame.mem_leaves_close {α : Type} (fr : Frame α) : fr.id ∈ (fr.close nil).leaves := by
  simp [Frame.close, leaves, isEmpty]

/-- The leaves of what hangs below some stages are leaves of the whole forest. -/
theorem leaves_subset_fill {α : Type} (up : List (Frame α)) {t : Forest α} (ht : t ≠ nil) :
    t.leaves ⊆ (fill up t).leaves := by
  induction up generalizing t with
  | nil => exact fun _ h => h
  | cons fr up ih =>
    refine fun id hid => ih (fr.close_ne_nil t) ?_
    have hne : t.isEmpty = false := by
      cases t with
      | nil => exact absurd rfl ht
      | node => rfl
    rw [Frame.close, leaves_append, leaves, hne]
    simp [hid]

/-- Once a pass has come to its end, every stage above a node stays. -/
theorem Settled.above {fr : Frame Stage} {up : List (Frame Stage)} {cs : Forest Stage}
    (hs : Settled pass policy f) (hfill : f = fill (fr :: up) cs) :
    (fr :: up).IsChain fun fr parent => fr.move pass policy parent = .stay := by
  -- the end of a pass says something about paths from leaves, and every node is on one of them
  by_cases hc : cs = nil
  · subst hc
    refine hs fr up nil hfill ?_
    rw [hfill]
    exact leaves_subset_fill up (fr.close_ne_nil nil) fr.mem_leaves_close
  · obtain ⟨leaf, between, hcs⟩ := exists_fill_nil hc
    have hfill' : f = fill (leaf :: (between ++ fr :: up)) nil := by
      rw [hfill, ← List.cons_append, fill_append, ← hcs]
    have hleaf : leaf.id ∈ f.leaves := by
      rw [hfill']
      exact leaves_subset_fill _ (leaf.close_ne_nil nil) leaf.mem_leaves_close
    have hchain := hs leaf _ nil hfill' hleaf
    rw [← List.cons_append] at hchain
    exact hchain.right_of_append

/-- A conversion stays only right below a source. -/
theorem Frame.source_of_stay {fr parent : Frame Stage}
    (hmove : fr.move .parse policy parent = .stay) (ht : fr.content.tag = .parse) :
    parent.content.tag = .source := by
  have hhandled : Pass.parse.handles fr.content.tag = true := by rw [ht]; rfl
  rw [Frame.move, if_pos hhandled] at hmove
  by_contra hparent
  revert hmove
  simp only [Move.choose, hparent, ht, Move.passage?, if_true, if_false, reduceCtorEq,
    Tag.joins, Bool.and_true]
  generalize parent.content = a at hparent ⊢
  cases a <;> simp [Stage.tag] at hparent ⊢ <;> split <;> simp

/-- Once its pass has come to its end, a conversion stands right below a source. -/
theorem Settled.parse_above (hs : Settled .parse policy f) (hf : f.Lawful) {v : Place Stage}
    (hv : v ∈ f.places []) (ht : v.content.tag = .parse) :
    ∃ l s, v.above = l ++ [s] ∧ s.2.tag = .source := by
  obtain ⟨before, after, up, cs, hfill, hup⟩ := exists_fill_of_place hf.nodup hv
  cases up with
  | nil =>
    -- the conversion would begin its way
    have hroot := hf.rooted v hv (v.id, v.content) (by rw [Place.route, ← hup]; rfl)
    exact absurd (hroot.symm.trans ht) (by simp)
  | cons parent up =>
    refine ⟨trail up, (parent.id, parent.content), by rw [← hup, trail_cons], ?_⟩
    exact Frame.source_of_stay (List.isChain_cons_cons.1 (hs.above hfill)).1 ht

/-- A place whose stage stands where it may. -/
structure Place.Stands (v : Place Stage) : Prop where
  follows : FollowsOn v.route
  rooted : ∀ x ∈ v.route.head?, x.2.tag = .source
  parse : v.content.tag = .parse → v.above.length = 1

/-- Once the pass for conversions has come to its end in an orderly forest, every stage stands where
    it may. -/
theorem Settled.stands (hs : Settled .parse policy f) (hf : f.Lawful) (ho : f.Orderly)
    {v : Place Stage} (hv : v ∈ f.places []) : v.Stands where
  follows := ho v hv
  rooted := hf.rooted v hv
  parse ht := by
    obtain ⟨l, s, habove, hsource⟩ := hs.parse_above hf hv ht
    -- nothing stands above the source
    have hl : l = [] := by
      cases l with
      | nil => rfl
      | cons e l =>
        have hroute := ho v hv
        rw [FollowsOn, Place.route, habove, List.append_assoc, List.cons_append] at hroute
        exact absurd hsource ((List.pairwise_cons.1 hroute).1 s (by simp)).2
    rw [habove, hl]
    rfl

/-- Taking out stages that do nothing leaves the others standing where they may. -/
theorem Place.Stands.prune {v : Place Stage} (h : v.Stands) :
    (v.prune Stage.isVacuous).Stands := by
  have hsub : (v.prune Stage.isVacuous).route.Sublist v.route :=
    List.Sublist.append List.filter_sublist (List.Sublist.refl _)
  have hsource {a : Stage} (ha : a.tag = .source) : a.isVacuous = false := by
    cases a <;> simp_all [Stage.tag, Stage.isVacuous]
  refine ⟨h.follows.sublist hsub, fun x hx => ?_, fun ht => ?_⟩
  -- a source is never taken out, so the first stage of a way is the same
  · cases habove : v.above with
    | nil =>
      refine h.rooted x ?_
      rw [Place.prune, Place.route, habove] at hx
      rwa [Place.route, habove]
    | cons e l =>
      have he := h.rooted e (by rw [Place.route, habove]; rfl)
      rw [Place.prune, Place.route, habove, List.filter_cons_of_pos (by simp [hsource he])] at hx
      obtain rfl : e = x := by simpa using hx
      exact he
  · obtain ⟨e, habove⟩ := List.length_eq_one_iff.1 (h.parse ht)
    have he := h.rooted e (by rw [Place.route, habove]; rfl)
    rw [Place.prune, habove, List.filter_cons_of_pos (by simp [hsource he])]
    rfl

/-- So does the elimination of all of them. -/
theorem stands_prune (h : ∀ v ∈ f.places [], v.Stands) :
    ∀ v ∈ (f.prune Stage.isVacuous).places [], v.Stands := by
  intro v hv
  obtain ⟨u, hu, rfl⟩ := exists_of_mem_places_prune hv
  exact (h u hu).prune

/-! ### Trees that can be assembled -/

/-- Stages that stand where they may can be assembled below any others. -/
theorem placed_of_stands {above : List (Nat × Stage)} {underSource : Bool}
    (h : ∀ v ∈ f.places above, v.Stands) (hne : above ≠ [])
    (hunder : above.length = 1 → underSource = true) : Assembly.Placed underSource f := by
  induction f generalizing above underSource with
  | nil => trivial
  | node i a cs rest ihc ihr =>
    have hv := h ⟨above, i, a⟩ (by simp [places])
    refine ⟨?_, fun ht => hunder (hv.parse ht), fun ht => ?_, ?_, ?_⟩
    -- it follows the first stage above it, so it is no source
    · obtain ⟨e, l, rfl⟩ := List.exists_cons_of_ne_nil hne
      have hfollows := hv.follows
      rw [FollowsOn, Place.route, List.cons_append] at hfollows
      exact ((List.pairwise_cons.1 hfollows).1 (i, a) (by simp)).2
    · -- nothing may follow a header, so there is nothing below one
      cases cs with
      | nil => rfl
      | node j b ds more =>
        have hw := (h ⟨above ++ [(i, a)], j, b⟩ (by simp [places])).follows
        rw [FollowsOn, Place.route, List.append_assoc] at hw
        have hij := (List.pairwise_append.1 hw).2.1
        exact absurd ht ((List.pairwise_cons.1 hij).1 (j, b) (by simp)).1
    · have hcs : ∀ v ∈ cs.places (above ++ [(i, a)]), v.Stands :=
        fun v hv => h v (by simp [places, hv])
      refine ihc hcs (by simp) fun hlen => ?_
      rw [List.length_append, List.length_singleton] at hlen
      exact absurd (List.length_eq_zero_iff.1 (by omega)) hne
    · exact ihr (fun v hv => h v (by simp [places, hv])) hne hunder

/-- And so can whole trees, each of which begins with a source. -/
theorem rooted_of_stands (h : ∀ v ∈ f.places [], v.Stands) : Assembly.Rooted f := by
  induction f with
  | nil => trivial
  | node i a cs rest _ ih =>
    refine ⟨(h ⟨[], i, a⟩ (by simp [places])).rooted (i, a) rfl, ?_, ?_⟩
    · have hcs : ∀ v ∈ cs.places [(i, a)], v.Stands := fun v hv => h v (by simp [places, hv])
      exact placed_of_stands hcs (by simp) fun _ => rfl
    · exact ih fun v hv => h v (by simp [places, hv])

end Forest

/-! ### The ways of a chart -/

namespace Chart

variable {chart : Chart} {outer : Option (List Stage)} {begin stages way : List Stage}

/-- A way that more stages may follow. -/
structure Continues (way : List Stage) : Prop where
  follows : way.Pairwise Stage.MayFollow
  goes_on : ∀ a ∈ way, a.tag ≠ .facetHeader

/-- A stage that is neither a source nor a header may follow a way that goes on, and be followed. -/
theorem Continues.append (h : Continues way) {more : List Stage}
    (hmore : ∀ a ∈ more, a.tag ≠ .source ∧ a.tag ≠ .facetHeader) : Continues (way ++ more) where
  follows := List.pairwise_append.2 ⟨h.follows,
    List.pairwise_of_forall_mem_list fun a ha b hb => ⟨(hmore a ha).2, (hmore b hb).1⟩,
    fun a ha b hb => ⟨h.goes_on a ha, (hmore b hb).1⟩⟩
  goes_on a ha := (List.mem_append.1 ha).elim (h.goes_on a) fun ha => (hmore a ha).2

/-- The stages of a chart, after a way that goes on, make one that goes on. -/
theorem Chain.continues (h : Chain outer chart begin stages) (ho : ∀ w ∈ outer, Continues w) :
    Continues (begin ++ stages) := by
  obtain ⟨hs, hbefore, hafter⟩ := h
  have hbegin : Continues begin := by
    cases hs with
    | own => exact ⟨List.pairwise_singleton _ _, by simp [Stage.tag]⟩
    | outer _ ho' => exact ho _ ho'
  refine hbegin.append fun a ha => ?_
  simp only [List.mem_append, List.mem_cons, List.not_mem_nil, or_false] at ha
  rcases ha with ha | rfl | ha | rfl
  · have := tag_of_mem_stagesBeforeRaw hbefore ha
    constructor <;> intro ht <;> simp [ht] at this
  · simp [rawOutput, Stage.tag]
  · have := (stagesAfterRaw_grouping hafter).1 a ha
    constructor <;> intro ht <;> simp [Stage.isGrouping, ht] at this
  · simp [mainOutput, Stage.tag]

/-- On a way that a chart declares, every stage may follow those before it. -/
theorem Declares.follows (h : Declares outer chart way) (ho : ∀ w ∈ outer, Continues w) :
    way.Pairwise Stage.MayFollow := by
  -- by induction on how the way is declared: the chain of a chart goes on from what it inherits
  induction h with
  | chain h hw =>
    obtain ⟨r, rfl⟩ := hw
    have := (h.continues ho).follows
    rw [← List.append_assoc] at this
    exact (List.pairwise_append.1 this).1
  | header h hh =>
    have hway := h.continues ho
    refine List.pairwise_append.2 ⟨hway.follows, List.pairwise_singleton _ _, fun a ha b hb => ?_⟩
    obtain rfl := List.mem_singleton.1 hb
    refine ⟨hway.goes_on a ha, ?_⟩
    unfold headerStage at hh
    split at hh
    · obtain rfl := Except.ok.inj hh
      simp [Stage.tag]
    · exact absurd hh (by simp)
  | facet h hp => exact ((h.continues ho).append (by simp [Stage.tag])).follows
  | inside h hm hd ih =>
    refine ih fun w hw => ?_
    obtain rfl := Option.some.inj hw
    refine (h.continues ho).append fun a ha => ?_
    obtain ⟨p, -, rfl⟩ := List.mem_map.1 ha
    simp [Stage.tag]
  | loose hn hm hd ih => exact ih fun w hw => absurd hw (by simp)

end Chart

/-- The flow of a chart is orderly. -/
theorem Building.ofChart_orderly {chart : Chart} {built : Building}
    (h : Building.ofChart chart = .ok built) : built.flow.stages.Orderly := by
  intro v hv
  have hway := ((ofChart_built h).declared v hv).follows fun w hw => absurd hw (by simp)
  exact List.pairwise_map.1 hway

/-! ### Passes that cannot fail otherwise -/

namespace Flow

variable {pass : Pass} {policy : FacetPolicy} {flow : Flow}

/-- In a lawful flow, a pass succeeds unless it runs out of sweeps. -/
theorem settle_total (pass : Pass) (policy : FacetPolicy) (n done : Nat)
    (hf : flow.stages.Lawful) : ∃ flow',
      (∃ k, settle pass policy n done flow = (.ok k, flow')) ∨
        settle pass policy n done flow = (.error (.didNotConverge pass.name (done + n)), flow') := by
  induction n generalizing done flow with
  | zero => exact ⟨flow, .inr rfl⟩
  | succ n ih =>
    obtain ⟨m, flow₁, hsweeps, -, hrun⟩ := settle_succ pass policy hf.grounded
    obtain ⟨-, hf₁⟩ := hsweeps.rewrites hf
    rw [hrun]
    by_cases hm : m = 0
    · exact ⟨flow₁, .inl ⟨done + 1, if_pos hm⟩⟩
    · rw [if_neg hm, Nat.add_comm n 1, ← Nat.add_assoc]
      exact ih (done + 1) hf₁

/-- In a lawful flow, passes succeed unless one of them runs out of sweeps. -/
theorem runPasses_total (policy : FacetPolicy) (n : Nat) (passes : List Pass)
    (hf : flow.stages.Lawful) : ∃ flow',
      runPasses policy n passes flow = (.ok (), flow') ∨
        ∃ pass ∈ passes, runPasses policy n passes flow =
          (.error (.didNotConverge pass.name n), flow') := by
  induction passes generalizing flow with
  | nil => exact ⟨flow, .inl rfl⟩
  | cons pass passes ih =>
    obtain ⟨flow₁, ⟨k, hrun⟩ | hrun⟩ := settle_total pass policy n 0 hf
    · obtain ⟨-, hf₁, -⟩ := settle_ok hrun hf
      rw [runPasses_cons_ok passes hrun]
      obtain ⟨flow', h | ⟨pass', hp, h⟩⟩ := ih hf₁
      · exact ⟨flow', .inl h⟩
      · exact ⟨flow', .inr ⟨pass', List.mem_cons_of_mem _ hp, h⟩⟩
    · rw [Nat.zero_add] at hrun
      exact ⟨flow₁, .inr ⟨pass, List.mem_cons_self, runPasses_cons_error passes hrun⟩⟩

end Flow

namespace CompilerOptions

variable {options : CompilerOptions} {flow : Flow}

/-- The passes that a compiler runs. -/
def passes (options : CompilerOptions) : List Pass := if options.optimize then Pass.all else [.parse]

/-- With or without optimizing, passes run one after the other and then what does nothing is taken
    out. -/
theorem optimizeFlow_eq (options : CompilerOptions) (flow : Flow) :
    options.optimizeFlow flow =
      (do
        Flow.runPasses options.facetPolicy options.iterations options.passes
        let _ ← Flow.eliminate : Edit CompileError Unit) flow := by
  cases ho : options.optimize with
  | true =>
    rw [optimizeFlow, if_pos ho, passes, if_pos ho]
    rfl
  | false =>
    rw [optimizeFlow, if_neg (by simp [ho]), passes, if_neg (by simp [ho])]
    cases hrun : Flow.runPass .parse options.facetPolicy options.iterations flow with
    | mk result moved =>
      cases result with
      | error e => rw [Run.bind_error hrun, Run.bind_error (Flow.runPasses_cons_error [] hrun)]
      | ok k => rw [Run.bind_ok hrun, Run.bind_ok ((Flow.runPasses_cons_ok [] hrun).trans rfl)]

/-- Optimizing a lawful flow runs the passes to their ends, unless one of them runs out of
    sweeps. -/
theorem optimizeFlow_total (options : CompilerOptions) (hf : flow.stages.Lawful) : ∃ flow',
    (options.optimizeFlow flow = (.ok (), flow') ∧
      ∃ f, Flow.Passes options.facetPolicy options.passes flow.stages f ∧
        flow'.stages = f.prune Stage.isVacuous) ∨
    ∃ pass ∈ Pass.all, options.optimizeFlow flow =
      (.error (.didNotConverge pass.name options.iterations), flow') := by
  rw [optimizeFlow_eq]
  obtain ⟨flow₁, h | ⟨pass, -, h⟩⟩ :=
    Flow.runPasses_total options.facetPolicy options.iterations options.passes hf
  · refine ⟨_, .inl ⟨(Run.bind_ok h).trans rfl, flow₁.stages, Flow.runPasses_ok h hf, rfl⟩⟩
  · refine ⟨flow₁, .inr ⟨pass, ?_, Run.bind_error h⟩⟩
    cases pass <;> simp [Pass.all]

/-- Optimizing a lawful flow, if it succeeds, has run the passes to their ends. -/
theorem passes_of_optimizeFlow {flow' : Flow} (options : CompilerOptions)
    (hf : flow.stages.Lawful) (h : options.optimizeFlow flow = (.ok (), flow')) :
    ∃ f, Flow.Passes options.facetPolicy options.passes flow.stages f ∧
      flow'.stages = f.prune Stage.isVacuous := by
  obtain ⟨flow₁, ⟨hrun, hpasses⟩ | ⟨pass, -, hrun⟩⟩ := options.optimizeFlow_total hf
  · obtain ⟨-, rfl⟩ := Prod.mk.inj (h.symm.trans hrun)
    exact hpasses
  · exact absurd (congrArg Prod.fst (h.symm.trans hrun)) (by simp)

end CompilerOptions

namespace Forest

variable {policy : FacetPolicy} {f f' : Forest Stage}

/-- Passes, the last of which is that for conversions, leave every stage where it may stand. -/
theorem stands_of_passes {passes : List Pass} (h : Flow.Passes policy passes f f') (hf : f.Lawful)
    (ho : f.Orderly) (hlast : passes.getLast? = some .parse) : ∀ v ∈ f'.places [], v.Stands := by
  induction h with
  | nil => exact absurd hlast (by simp)
  | @cons pass passes f g f' hr hg hs rest ih =>
    have hog := orderly_of_rewrites hr ho
    -- whatever the passes before it did, the last one puts the conversions in place
    cases rest with
    | nil =>
      obtain rfl : pass = .parse := by simpa using hlast
      exact fun v hv => hs.stands hg hog hv
    | cons => exact ih hg hog (by simpa using hlast)

end Forest

/-! ### Compiling -/

namespace Compiler

variable {compiler compiler' : Compiler} {chart : Chart} {flow : Flow}

/-- A flow that a compiler built is that of its chart, whether or not the chart was analyzed
    first. -/
theorem buildFlow_ok (h : compiler.buildFlow chart = (.ok flow, compiler')) :
    (∃ built, Building.ofChart chart = .ok built ∧ built.flow = flow) ∧
      compiler'.options = compiler.options := by
  have hmap {r : Except CompileError Building} (hr : r.map Building.flow = .ok flow) :
      ∃ built, r = .ok built ∧ built.flow = flow := by
    cases r with
    | error e => exact absurd hr (by simp [Except.map])
    | ok built => exact ⟨built, rfl, Except.ok.inj hr⟩
  unfold buildFlow at h
  split at h
  · obtain ⟨hr, rfl⟩ := Prod.mk.inj h
    refine ⟨?_, rfl⟩
    obtain ⟨-, -, hr⟩ := bind_eq_ok hr
    exact hmap hr
  · obtain ⟨hr, rfl⟩ := Prod.mk.inj h
    exact ⟨hmap hr, rfl⟩

/-- If the passes over a flow that was built come to their ends, compiling succeeds: no step of the
    assembly fails. -/
theorem compile_ok {flow' : Flow} (h : compiler.buildFlow chart = (.ok flow, compiler'))
    (hrun : compiler'.options.optimizeFlow flow = (.ok (), flow')) :
    ∃ data, (compiler.compile chart).1 = .ok data := by
  obtain ⟨⟨built, hbuilt, rfl⟩, -⟩ := buildFlow_ok h
  have hlawful := Building.ofChart_lawful hbuilt
  obtain ⟨f, hpasses, hst⟩ := compiler'.options.passes_of_optimizeFlow hlawful hrun
  have hlast : compiler'.options.passes.getLast? = some .parse := by
    unfold CompilerOptions.passes
    split <;> rfl
  have hstands := Forest.stands_of_passes hpasses hlawful (Building.ofChart_orderly hbuilt) hlast
  have hrooted : Assembly.Rooted flow'.stages := by
    rw [hst]
    exact Forest.rooted_of_stands (Forest.stands_prune hstands)
  -- nothing is put off when assembling starts over
  obtain ⟨data, st', hall⟩ := Assembly.all_total hrooted
    (fun d hd => absurd hd (by simp [Assembly.reset]) :
      Assembly.Postponed (compiler'.assembly.reset flow'))
  refine ⟨data, ?_⟩
  rw [compile, h]
  simp only [hrun, Flow.assembleAfter]
  exact congrArg Prod.fst hall

/-- Compiling a chart whose flow was built succeeds, unless a pass runs out of sweeps: no edit of
    the flow and no step of its assembly fails, whatever the options and the charts compiled
    before. -/
theorem compile_ok_or_didNotConverge (h : compiler.buildFlow chart = (.ok flow, compiler')) :
    (∃ data, (compiler.compile chart).1 = .ok data) ∨
      ∃ pass ∈ Pass.all, (compiler.compile chart).1 =
        .error (.didNotConverge pass.name compiler.options.iterations) := by
  obtain ⟨⟨built, hbuilt, rfl⟩, hoptions⟩ := buildFlow_ok h
  obtain ⟨flow', ⟨hrun, -⟩ | ⟨pass, hpass, hrun⟩⟩ :=
    compiler'.options.optimizeFlow_total (Building.ofChart_lawful hbuilt)
  · exact .inl (compile_ok h hrun)
  · refine .inr ⟨pass, hpass, ?_⟩
    rw [compile, h, ← hoptions]
    simp only [hrun]

/-- A compiler that takes charts as they are. -/
def trusting : Compiler := { options := { analyze := false } }

/-- A chart with headers and a facet, compiled without a look at its names. -/
theorem compile_ok_or_didNotConverge_facetedCounts : ∃ flow compiler',
    trusting.buildFlow facetedCounts = (.ok flow, compiler') ∧
      ((∃ data, (trusting.compile facetedCounts).1 = .ok data) ∨
        ∃ pass ∈ Pass.all, (trusting.compile facetedCounts).1 =
          .error (.didNotConverge pass.name trusting.options.iterations)) := by
  have hok : (trusting.buildFlow facetedCounts).1.isOk = true := by decide +kernel
  cases h : trusting.buildFlow facetedCounts with
  | mk result compiler' =>
    cases result with
    | error e => rw [h] at hok; exact absurd hok (by simp [Except.isOk, Except.toBool])
    | ok flow => exact ⟨flow, compiler', rfl, compile_ok_or_didNotConverge h⟩

end Compiler

end ChartPipeline
