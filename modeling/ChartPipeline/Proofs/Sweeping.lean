import ChartPipeline.Proofs.Climbing

/-!
# Sweeps and passes

A climb is a list of steps up, a sweep one climb after the other, and a pass repeats its sweeps
until one changes nothing.  None of them fails where every tree begins with a source, but for a pass
that runs out of sweeps.

## Key results

- `Flow.climb_spec`, `Flow.sweep_spec`: what a climb and a sweep do
- `Flow.runPass_ok`: a pass that ends has moved its stages until none moved any more
- `Flow.hoist_ok`: what is preserved by every move is preserved by hoisting
- `Flow.runPass_steps`: in any forest with different names, a pass that ends has made steps of
  climbs
-/

namespace ChartPipeline.Forest

variable {pass : Pass} {policy : FacetPolicy}

/-- A climb from the node of the first frame, with its result and the number of changes. -/
inductive Climbs (pass : Pass) (policy : FacetPolicy) :
    List (Frame Stage) → Forest Stage → Forest Stage → Nat → Prop
  | done (fr cs) : Climbs pass policy [fr] cs (fill [fr] cs) 0
  | step {ups cs ups' cs' f' n m} (h : Ascends pass policy ups cs ups' cs' n)
      (rest : Climbs pass policy ups' cs' f' m) : Climbs pass policy ups cs f' (n + m)

/-- The climbs from several nodes, with their result and the number of changes. -/
inductive Sweeps (pass : Pass) (policy : FacetPolicy) :
    List Nat → Forest Stage → Forest Stage → Nat → Prop
  | nil (f) : Sweeps pass policy [] f f 0
  | gone {id ids f f' n} (h : id ∉ f.walk) (rest : Sweeps pass policy ids f f' n) :
      Sweeps pass policy (id :: ids) f f' n
  | climb {fr : Frame Stage} {up cs ids g f' n m} (h : Climbs pass policy (fr :: up) cs g n)
      (rest : Sweeps pass policy ids g f' m) :
      Sweeps pass policy (fr.id :: ids) (fill (fr :: up) cs) f' (n + m)

variable {ups : List (Frame Stage)} {cs f f' : Forest Stage} {n : Nat} {ids : List Nat}

/-- A climb keeps a source at the head of every tree. -/
theorem Climbs.grounded (h : Climbs pass policy ups cs f' n) (hf : (fill ups cs).Grounded) :
    f'.Grounded := by
  induction h with
  | done fr cs => exact hf
  | step h _ ih => exact ih (h.grounded hf)

/-- So does a sweep. -/
theorem Sweeps.grounded (h : Sweeps pass policy ids f f' n) (hf : f.Grounded) : f'.Grounded := by
  induction h with
  | nil f => exact hf
  | gone _ _ ih => exact ih hf
  | climb h _ ih => exact ih (h.grounded hf)

/-- A climb in a lawful forest is a list of moves, and leaves it lawful. -/
theorem Climbs.rewrites (h : Climbs pass policy ups cs f' n) (hf : (fill ups cs).Lawful) :
    Relation.ReflTransGen (Rewrites pass policy) (fill ups cs) f' ∧ f'.Lawful := by
  induction h with
  | done fr cs => exact ⟨.refl, hf⟩
  | step h _ ih =>
    obtain ⟨hr, hf'⟩ := h.rewrites hf
    obtain ⟨hr', hf''⟩ := ih hf'
    exact ⟨hr.trans hr', hf''⟩

/-- So is a sweep. -/
theorem Sweeps.rewrites (h : Sweeps pass policy ids f f' n) (hf : f.Lawful) :
    Relation.ReflTransGen (Rewrites pass policy) f f' ∧ f'.Lawful := by
  induction h with
  | nil f => exact ⟨.refl, hf⟩
  | gone _ _ ih => exact ih hf
  | climb h _ ih =>
    obtain ⟨hr, hf'⟩ := h.rewrites hf
    obtain ⟨hr', hf''⟩ := ih hf'
    exact ⟨hr.trans hr', hf''⟩

/-! ### Sweeps that change nothing -/

/-- A step that counts no change leaves its stage where it is. -/
theorem Ascends.eq_of_zero {ups' : List (Frame Stage)} {cs' : Forest Stage}
    (h : Ascends pass policy ups cs ups' cs' 0) :
    ∃ fr parent up, ups = fr :: parent :: up ∧ ups' = parent :: up ∧ cs' = fr.close cs ∧
      fr.move pass policy parent = .stay := by
  generalize hn : 0 = n at h
  cases h with
  | stay h up cs => exact ⟨_, _, up, rfl, rfl, rfl, h⟩
  | join | rise | absorb | relocate => omega

/-- In a climb without a change every stage on the way stays. -/
theorem Climbs.stay_of_zero (h : Climbs pass policy ups cs f' n) (hn : n = 0) :
    f' = fill ups cs ∧
      ups.IsChain fun fr parent => fr.move pass policy parent = .stay := by
  induction h with
  | done fr cs => exact ⟨rfl, .singleton fr⟩
  | step h _ ih =>
    obtain ⟨rfl, rfl⟩ := Nat.add_eq_zero_iff.1 hn
    obtain ⟨fr, parent, up, rfl, rfl, rfl, hmove⟩ := h.eq_of_zero
    obtain ⟨rfl, hchain⟩ := ih rfl
    exact ⟨rfl, .cons_cons hmove hchain⟩

/-- After a sweep without a change the forest is as it was, and every stage above one of the
    nodes stays. -/
theorem Sweeps.stay_of_zero (h : Sweeps pass policy ids f f' n) (hn : n = 0)
    (hf : f.walk.Nodup) :
    f' = f ∧ ∀ fr up cs, f = fill (fr :: up) cs → fr.id ∈ ids →
      (fr :: up).IsChain fun fr parent => fr.move pass policy parent = .stay := by
  induction h with
  | nil f => exact ⟨rfl, fun fr up cs _ h => absurd h (by simp)⟩
  | @gone id ids f f' n h _ ih =>
    obtain ⟨rfl, hstay⟩ := ih hn hf
    refine ⟨rfl, fun fr up cs hfill hid => ?_⟩
    rcases List.mem_cons.1 hid with rfl | hid
    -- a node that was passed over is not in the forest at all
    · refine absurd ?_ h
      rw [hfill, (walk_fill_perm _ _).mem_iff]
      simp [Frame.names]
    · exact hstay fr up cs hfill hid
  | @climb fr up cs ids g f' n m h _ ih =>
    obtain ⟨rfl, rfl⟩ := Nat.add_eq_zero_iff.1 hn
    obtain ⟨rfl, hchain⟩ := h.stay_of_zero rfl
    obtain ⟨rfl, hstay⟩ := ih rfl hf
    refine ⟨rfl, fun fr₁ up₁ cs₁ hfill hid => ?_⟩
    rcases List.mem_cons.1 hid with hid | hid
    -- names stand once, so the path above a node is the one that the climb took
    · obtain ⟨rfl, rfl, -⟩ := fill_first_inj hf hid.symm hfill
      exact hchain
    · exact hstay fr₁ up₁ cs₁ hfill hid

/-- What a pass has reached when a sweep of it changes nothing: above every leaf, every stage
    stays. -/
def Settled (pass : Pass) (policy : FacetPolicy) (f : Forest Stage) : Prop :=
  ∀ fr up cs, f = fill (fr :: up) cs → fr.id ∈ f.leaves →
    (fr :: up).IsChain fun fr parent => fr.move pass policy parent = .stay

/-- A sweep without a change shows that its pass has come to its end. -/
theorem Sweeps.settled (h : Sweeps pass policy f.leaves f f' 0) (hn : f.walk.Nodup) :
    f' = f ∧ Settled pass policy f := by
  obtain ⟨hsame, hstay⟩ := h.stay_of_zero rfl hn
  exact ⟨hsame, hstay⟩

/-- Where a stage stays, the climb goes on from its parent. -/
theorem Ascends.zero_of_stay {fr parent : Frame Stage} {up ups' : List (Frame Stage)}
    {cs' : Forest Stage} (h : Ascends pass policy (fr :: parent :: up) cs ups' cs' n)
    (hmove : fr.move pass policy parent = .stay) : n = 0 ∧ ups' = parent :: up := by
  cases h with
  | stay => exact ⟨rfl, rfl⟩
  | join h => exact absurd (h.symm.trans hmove) (by simp)
  | rise h => exact absurd (h.symm.trans hmove) (by simp)
  | absorb h => exact absurd (h.symm.trans hmove) (by simp)
  | relocate h => exact absurd (h.symm.trans hmove) (by simp)

/-- A stage that climbs has a parent. -/
theorem Ascends.exists_cons {ups' : List (Frame Stage)} {cs' : Forest Stage}
    (h : Ascends pass policy ups cs ups' cs' n) : ∃ fr parent up, ups = fr :: parent :: up := by
  cases h with
  | stay | join | rise | absorb | relocate => exact ⟨_, _, _, rfl⟩

/-- A climb on which every stage stays counts no change. -/
theorem Climbs.zero_of_stay (h : Climbs pass policy ups cs f' n)
    (hstay : ups.IsChain fun fr parent => fr.move pass policy parent = .stay) : n = 0 := by
  induction h with
  | done => rfl
  | @step ups _ _ _ _ _ _ h _ ih =>
    obtain ⟨fr, parent, up, rfl⟩ := h.exists_cons
    obtain ⟨hmove, hrest⟩ := List.isChain_cons_cons.1 hstay
    obtain ⟨rfl, rfl⟩ := h.zero_of_stay hmove
    rw [ih hrest]

/-- A sweep changes nothing where its pass has come to its end. -/
theorem Settled.sweeps (hs : Settled pass policy f) (h : Sweeps pass policy ids f f' n)
    (hids : ∀ id ∈ ids, id ∈ f.leaves) : n = 0 ∧ f' = f := by
  induction h with
  | nil f => exact ⟨rfl, rfl⟩
  | gone _ _ ih => exact ih hs fun id hid => hids id (List.mem_cons_of_mem _ hid)
  | @climb fr up cs ids g f' n m h _ ih =>
    obtain rfl := h.zero_of_stay (hs fr up cs rfl (hids _ (by simp)))
    obtain ⟨rfl, -⟩ := h.stay_of_zero rfl
    obtain ⟨rfl, rfl⟩ := ih hs fun id hid => hids id (List.mem_cons_of_mem _ hid)
    exact ⟨rfl, rfl⟩

end ChartPipeline.Forest

namespace ChartPipeline.Flow

open Forest

variable {pass : Pass} {policy : FacetPolicy} {flow flow' : Flow} {ids : List Nat}

/-! ### One step of a loop -/

/-- An edit with other faults ends well exactly if the edit itself does. -/
theorem mapFault_eq_ok {ε ε' α : Type} {edit : Edit ε α} {other : ε → ε'} {a : α} :
    edit.mapFault other flow = (.ok a, flow') ↔ edit flow = (.ok a, flow') := by
  rw [Edit.mapFault]
  split
  · next hrun =>
    rw [hrun]
    exact ⟨fun h => by cases h; rfl, fun h => by cases h; rfl⟩
  · next hrun =>
    rw [hrun]
    exact ⟨fun h => absurd (congrArg Prod.fst h) (by simp),
      fun h => absurd (congrArg Prod.fst h) (by simp)⟩

/-- A sweep climbs from the first of its nodes, and goes on with the others. -/
theorem sweep_first {fr : Frame Stage} {up : List (Frame Stage)} {cs : Forest Stage}
    (hst : flow.stages = fill (fr :: up) cs) (hn : flow.stages.walk.Nodup) :
    sweep pass policy (fr.id :: ids) flow =
      (do
        climb pass policy fr.id (up.map Frame.id)
        sweep pass policy ids : Edit FlowFault Unit) flow := by
  have hattached : flow.isAttached fr.id = true := by
    rw [isAttached, contains_iff, hst, (walk_fill_perm _ _).mem_iff]
    simp [Frame.names]
  have hanc : flow.stages.ancestors fr.id = up.map Frame.id := by
    rw [hst] at hn ⊢
    exact ancestors_first hn
  rw [sweep, Run.bind_ok (Run.get_run flow), hattached, if_pos rfl, hanc]

/-- A node that an earlier climb joined to another one is passed over. -/
theorem sweep_gone {id : Nat} (hid : id ∉ flow.stages.walk) :
    sweep pass policy (id :: ids) flow = sweep pass policy ids flow := by
  have hgone : flow.isAttached id = false := by
    rw [isAttached, Bool.eq_false_iff, ne_eq, contains_iff]
    exact hid
  rw [sweep, Run.bind_ok (Run.get_run flow), hgone]
  rfl

/-! ### Loops that succeed -/

variable (pass policy) in
/-- Where every tree begins with a source, a climb succeeds. -/
theorem climb_spec {fr : Frame Stage} {up : List (Frame Stage)} {cs : Forest Stage}
    (hst : flow.stages = fill (fr :: up) cs) (hf : flow.stages.Grounded) :
    ∃ n flow', climb pass policy fr.id (up.map Frame.id) flow = (.ok (), flow') ∧
      Climbs pass policy (fr :: up) cs flow'.stages n ∧
      flow'.revision = flow.revision + n ∧ flow'.next = flow.next := by
  -- a step may close or open a frame below, but it always takes one off the path above: the
  -- induction is on that length
  generalize hlen : up.length = len
  induction len generalizing fr up cs flow with
  | zero =>
    obtain rfl := List.length_eq_zero_iff.1 hlen
    exact ⟨0, flow, rfl, hst ▸ .done fr cs, rfl, rfl⟩
  | succ len ih =>
    obtain ⟨parent, up, rfl⟩ := List.exists_cons_of_length_eq_add_one hlen
    obtain ⟨fr', up', cs', n, flow₁, hstep, hlen', hrun, hst', hrev, hnext⟩ :=
      climb_step pass policy hst hf
    have hf' := hstep.grounded (hst ▸ hf)
    simp only [List.length_cons] at hlen hlen'
    obtain ⟨m, flow₂, hrun', hclimb, hrev', hnext'⟩ := ih hst' (hst' ▸ hf') (by omega)
    refine ⟨n + m, flow₂, ?_, .step hstep hclimb, by omega, hnext'.trans hnext⟩
    rw [List.map_cons, hrun, hrun']

variable (pass policy) in
/-- Where every tree begins with a source, a sweep succeeds. -/
theorem sweep_spec (ids : List Nat) (hf : flow.stages.Grounded) :
    ∃ n flow', sweep pass policy ids flow = (.ok (), flow') ∧
      Sweeps pass policy ids flow.stages flow'.stages n ∧
      flow'.revision = flow.revision + n ∧ flow'.next = flow.next := by
  induction ids generalizing flow with
  | nil => exact ⟨0, flow, rfl, .nil _, rfl, rfl⟩
  | cons id ids ih =>
    by_cases hid : id ∈ flow.stages.walk
    · obtain ⟨fr, up, cs, hst, rfl⟩ := exists_fill_of_mem hid
      obtain ⟨n, flow₁, hclimb, hclimbs, hrev, hnext⟩ :=
        climb_spec pass policy hst hf
      have hf' := hclimbs.grounded (hst ▸ hf)
      obtain ⟨m, flow₂, hsweep, hsweeps, hrev', hnext'⟩ := ih hf'
      refine ⟨n + m, flow₂, ?_, hst ▸ .climb hclimbs hsweeps, by omega, hnext'.trans hnext⟩
      rw [sweep_first hst hf.nodup, Run.bind_ok hclimb, hsweep]
    · obtain ⟨n, flow₁, hsweep, hsweeps, hrev, hnext⟩ := ih hf
      exact ⟨n, flow₁, (sweep_gone hid).trans hsweep, .gone hid hsweeps, hrev, hnext⟩

/-! ### Passes -/

variable (pass policy) in
/-- One round of a pass: a sweep, and the end if it changed nothing. -/
theorem settle_succ (hf : flow.stages.Grounded) :
    ∃ m flow', Sweeps pass policy flow.stages.leaves flow.stages flow'.stages m ∧
      flow'.next = flow.next ∧
      ∀ n done, settle pass policy (n + 1) done flow =
        if m = 0 then (.ok (done + 1), flow') else settle pass policy n (done + 1) flow' := by
  obtain ⟨m, flow', hsweep, hsweeps, hrev, hnext⟩ :=
    sweep_spec pass policy flow.stages.leaves hf
  refine ⟨m, flow', hsweeps, hnext, fun n done => ?_⟩
  rw [settle, Run.bind_ok (Run.get_run flow)]
  refine (Run.bind_ok (mapFault_eq_ok.2 hsweep)).trans ?_
  rw [Run.bind_ok (Run.get_run flow')]
  -- the revision counts the changes, so it is the same exactly if there were none
  by_cases hm : m = 0
  · rw [if_pos hm, if_pos (by omega)]
    rfl
  · rw [if_neg hm, if_neg (by omega)]

/-- A pass that ends has moved its stages until none moved any more. -/
theorem settle_ok {n done k : Nat} (h : settle pass policy n done flow = (.ok k, flow'))
    (hf : flow.stages.Lawful) :
    Relation.ReflTransGen (Rewrites pass policy) flow.stages flow'.stages ∧
      flow'.stages.Lawful ∧ Settled pass policy flow'.stages := by
  induction n generalizing done flow with
  | zero => exact absurd h Run.throw_ne_ok
  | succ n ih =>
    obtain ⟨m, flow₁, hsweeps, -, hrun⟩ := settle_succ pass policy hf.grounded
    obtain ⟨hr, hf₁⟩ := hsweeps.rewrites hf
    rw [hrun] at h
    split at h
    · next hm =>
      obtain ⟨-, rfl⟩ := Prod.mk.inj h
      subst hm
      obtain ⟨hsame, hs⟩ := hsweeps.settled hf.nodup
      exact ⟨hr, hf₁, hsame ▸ hs⟩
    · obtain ⟨hr', hf', hs⟩ := ih h hf₁
      exact ⟨hr.trans hr', hf', hs⟩

/-- Where every stage on its way stays, a climb does nothing. -/
theorem climb_of_stay {fr : Frame Stage} {up : List (Frame Stage)} {cs : Forest Stage}
    (hst : flow.stages = fill (fr :: up) cs) (hn : flow.stages.walk.Nodup)
    (hstay : (fr :: up).IsChain fun fr parent => fr.move pass policy parent = .stay) :
    climb pass policy fr.id (up.map Frame.id) flow = (.ok (), flow) := by
  induction up generalizing fr cs with
  | nil => rfl
  | cons parent up ih =>
    obtain ⟨hmove, hrest⟩ := List.isChain_cons_cons.1 hstay
    rw [List.map_cons, climb_cons, moveOf_first pass policy hst hn, hmove]
    have hst' : flow.stages = fill (parent :: up) (fr.close cs) := hst
    exact ih hst' hrest

/-- A sweep does nothing where its pass has come to its end. -/
theorem sweep_of_settled (hs : Settled pass policy flow.stages) (hn : flow.stages.walk.Nodup)
    (hids : ∀ id ∈ ids, id ∈ flow.stages.leaves) :
    sweep pass policy ids flow = (.ok (), flow) := by
  induction ids with
  | nil => rfl
  | cons id ids ih =>
    obtain ⟨hid, hrest⟩ := List.forall_mem_cons.1 hids
    obtain ⟨fr, up, cs, hst, rfl⟩ := exists_fill_of_mem (leaves_subset_walk _ hid)
    rw [sweep_first hst hn, Run.bind_ok (climb_of_stay hst hn (hs fr up cs hst hid))]
    exact ih hrest

/-- A pass that has come to its end changes nothing more. -/
theorem runPass_settled {n : Nat} (hpos : 0 < n) (hn : flow.stages.walk.Nodup)
    (hs : Settled pass policy flow.stages) : runPass pass policy n flow = (.ok 1, flow) := by
  obtain ⟨n, rfl⟩ := Nat.exists_eq_add_of_lt hpos
  have hsweep : sweep pass policy flow.stages.leaves flow = (.ok (), flow) :=
    sweep_of_settled hs hn fun _ h => h
  rw [runPass, Nat.zero_add, settle, Run.bind_ok (Run.get_run flow)]
  refine (Run.bind_ok (mapFault_eq_ok.2 hsweep)).trans ?_
  rw [Run.bind_ok (Run.get_run flow), if_pos rfl]
  rfl

/-- A pass at its end takes one sweep, which leaves the stages as they are. -/
theorem runPass_of_settled {n : Nat} (hn : 0 < n) (hf : flow.stages.Lawful)
    (hs : Settled pass policy flow.stages) :
    ∃ flow', runPass pass policy n flow = (.ok 1, flow') ∧ flow'.stages = flow.stages :=
  ⟨flow, runPass_settled hn hf.nodup hs, rfl⟩

/-- Passes that have run one after the other, each until no stage of its kinds moved. -/
inductive Passes (policy : FacetPolicy) : List Pass → Forest Stage → Forest Stage → Prop
  | nil (f) : Passes policy [] f f
  | cons {pass passes f g f'} (hr : Relation.ReflTransGen (Rewrites pass policy) f g)
      (hg : g.Lawful) (hs : Settled pass policy g) (rest : Passes policy passes g f') :
      Passes policy (pass :: passes) f f'

/-- Passes leave a forest lawful. -/
theorem Passes.lawful {passes : List Pass} {f f' : Forest Stage} (h : Passes policy passes f f')
    (hf : f.Lawful) : f'.Lawful := by
  induction h with
  | nil => exact hf
  | cons _ hg _ _ ih => exact ih hg

/-- Passes one after the other stop in between at some forest. -/
theorem Passes.of_append (passes passes' : List Pass) {f f' : Forest Stage}
    (h : Passes policy (passes ++ passes') f f') :
    ∃ g, Passes policy passes f g ∧ Passes policy passes' g f' := by
  induction passes generalizing f with
  | nil => exact ⟨f, .nil f, h⟩
  | cons pass passes ih =>
    cases h with
    | cons hr hg hs rest =>
      obtain ⟨g, h₁, h₂⟩ := ih rest
      exact ⟨g, .cons hr hg hs h₁, h₂⟩

/-- What is so of every move, and from one forest over another to a third, is so of passes one after
    the other. -/
theorem Passes.rel {R : Forest Stage → Forest Stage → Prop} (hrefl : ∀ f, R f f)
    (htrans : ∀ {f g f'}, R f g → R g f' → R f f')
    (hmove : ∀ {pass f f'}, Rewrites pass policy f f' → R f f') {passes : List Pass}
    {f f' : Forest Stage} (h : Passes policy passes f f') : R f f' := by
  have hmoves {pass : Pass} {f g : Forest Stage}
      (hr : Relation.ReflTransGen (Rewrites pass policy) f g) : R f g := by
    induction hr with
    | refl => exact hrefl _
    | tail _ h ih => exact htrans ih (hmove h)
  induction h with
  | nil f => exact hrefl f
  | cons hr _ _ _ ih => exact htrans (hmoves hr) ih

/-- Runs passes one after the other. -/
def runPasses (policy : FacetPolicy) (n : Nat) (passes : List Pass) : Edit CompileError Unit :=
  passes.forM fun pass => do
    let _ ← runPass pass policy n

/-- After a first pass that succeeds the others run. -/
theorem runPasses_cons_ok {n k : Nat} (passes : List Pass)
    (h : runPass pass policy n flow = (.ok k, flow')) :
    runPasses policy n (pass :: passes) flow = runPasses policy n passes flow' := by
  have hpass : (do let _ ← runPass pass policy n : Edit CompileError Unit) flow = (.ok (), flow') :=
    Run.bind_ok h
  rw [runPasses, List.forM_eq_forM, List.forM_cons, Run.bind_ok hpass, runPasses,
    List.forM_eq_forM]

/-- The first pass that fails ends all of them. -/
theorem runPasses_cons_error {n : Nat} {e : CompileError} (passes : List Pass)
    (h : runPass pass policy n flow = (.error e, flow')) :
    runPasses policy n (pass :: passes) flow = (.error e, flow') := by
  have hpass : (do let _ ← runPass pass policy n : Edit CompileError Unit) flow =
      (.error e, flow') :=
    Run.bind_error h
  rw [runPasses, List.forM_eq_forM, List.forM_cons, Run.bind_error hpass]

/-- Passes that all succeed have each run to their end. -/
theorem runPasses_ok {passes : List Pass} {n : Nat}
    (h : runPasses policy n passes flow = (.ok (), flow')) (hf : flow.stages.Lawful) :
    Passes policy passes flow.stages flow'.stages := by
  induction passes generalizing flow with
  | nil =>
    obtain ⟨-, rfl⟩ := Prod.mk.inj h
    exact .nil _
  | cons pass passes ih =>
    cases hrun : runPass pass policy n flow with
    | mk result flow₁ =>
      cases result with
      | error e =>
        rw [runPasses_cons_error passes hrun] at h
        exact absurd (congrArg Prod.fst h) (by simp)
      | ok k =>
        obtain ⟨hr, hg, hs⟩ := settle_ok hrun hf
        rw [runPasses_cons_ok passes hrun] at h
        exact .cons hr hg hs (ih h hg)

/-- Hoisting that succeeds has run every pass to its end. -/
theorem hoist_ok {n : Nat} (h : hoist policy n flow = (.ok (), flow'))
    (hf : flow.stages.Lawful) : Passes policy Pass.all flow.stages flow'.stages :=
  runPasses_ok h hf

end ChartPipeline.Flow

/-! ### Passes over any forest

A forest need not be lawful for a pass to run: where no name stands twice, a pass that does not
fail has made the same steps, also below stages with several children. -/

namespace ChartPipeline.Forest

variable {pass : Pass} {policy : FacetPolicy}

/-- A step of a climb in a forest in which no name stands twice. -/
inductive Steps (pass : Pass) (policy : FacetPolicy) : Forest Stage → Forest Stage → Prop
  | mk {ups cs ups' cs' n} (hn : (fill ups cs).walk.Nodup)
      (h : Ascends pass policy ups cs ups' cs' n) :
      Steps pass policy (fill ups cs) (fill ups' cs')

end ChartPipeline.Forest

namespace ChartPipeline.Flow

open Forest

variable {pass : Pass} {policy : FacetPolicy} {flow flow' : Flow}

/-- A climb that ends has made its steps. -/
theorem climb_steps {fr : Frame Stage} {up : List (Frame Stage)} {cs : Forest Stage}
    (h : climb pass policy fr.id (up.map Frame.id) flow = (.ok (), flow'))
    (hst : flow.stages = fill (fr :: up) cs) (hn : flow.stages.walk.Nodup) :
    Relation.ReflTransGen (Steps pass policy) flow.stages flow'.stages ∧
      flow'.stages.walk.Nodup := by
  generalize hlen : up.length = len
  induction len generalizing fr up cs flow with
  | zero =>
    obtain rfl := List.length_eq_zero_iff.1 hlen
    obtain ⟨-, rfl⟩ := Prod.mk.inj h
    exact ⟨.refl, hn⟩
  | succ len ih =>
    obtain ⟨parent, up, rfl⟩ := List.exists_cons_of_length_eq_add_one hlen
    rw [List.map_cons] at h
    rcases climb_step_or pass policy hst hn with
      ⟨fr', up', cs', n, flow₁, hstep, hlen', hrun, hst', -, -⟩ | ⟨⟨fault, flow₁, hrun⟩, -⟩
    · have hn' := hst' ▸ hstep.nodup (hst ▸ hn)
      have hfirst : Steps pass policy flow.stages flow₁.stages := by
        rw [hst, hst']
        exact .mk (hst ▸ hn) hstep
      simp only [List.length_cons] at hlen hlen'
      obtain ⟨hrest, hn''⟩ := ih (hrun ▸ h) hst' hn' (by omega)
      exact ⟨hrest.head hfirst, hn''⟩
    -- a step that fails fails the climb
    · exact absurd (congrArg Prod.fst (hrun.symm.trans h)) (by simp)

/-- So has a sweep. -/
theorem sweep_steps (ids : List Nat) (h : sweep pass policy ids flow = (.ok (), flow'))
    (hn : flow.stages.walk.Nodup) :
    Relation.ReflTransGen (Steps pass policy) flow.stages flow'.stages ∧
      flow'.stages.walk.Nodup := by
  induction ids generalizing flow with
  | nil =>
    obtain ⟨-, rfl⟩ := Prod.mk.inj h
    exact ⟨.refl, hn⟩
  | cons id ids ih =>
    by_cases hid : id ∈ flow.stages.walk
    · obtain ⟨fr, up, cs, hst, rfl⟩ := exists_fill_of_mem hid
      rw [sweep_first hst hn] at h
      obtain ⟨_, flow₁, hclimb, hrest⟩ := Run.bind_eq_ok h
      obtain ⟨hsteps, hn₁⟩ := climb_steps hclimb hst hn
      obtain ⟨hsteps', hn'⟩ := ih hrest hn₁
      exact ⟨hsteps.trans hsteps', hn'⟩
    · rw [sweep_gone hid] at h
      exact ih h hn

/-- And so has a pass, sweep after sweep. -/
theorem settle_steps {n done k : Nat} (h : settle pass policy n done flow = (.ok k, flow'))
    (hn : flow.stages.walk.Nodup) :
    Relation.ReflTransGen (Steps pass policy) flow.stages flow'.stages ∧
      flow'.stages.walk.Nodup := by
  induction n generalizing done flow with
  | zero => exact absurd h Run.throw_ne_ok
  | succ n ih =>
    rw [settle, Run.bind_ok (Run.get_run flow)] at h
    obtain ⟨_, flow₁, hmap, h⟩ := Run.bind_eq_ok h
    obtain ⟨hsteps, hn₁⟩ := sweep_steps _ (mapFault_eq_ok.1 hmap) hn
    rw [Run.bind_ok (Run.get_run flow₁)] at h
    split at h
    · obtain ⟨-, rfl⟩ := Prod.mk.inj h
      exact ⟨hsteps, hn₁⟩
    · obtain ⟨hsteps', hn'⟩ := ih h hn₁
      exact ⟨hsteps.trans hsteps', hn'⟩

/-- And so has a pass with any number of sweeps allowed. -/
theorem runPass_steps {n k : Nat} (h : runPass pass policy n flow = (.ok k, flow'))
    (hn : flow.stages.walk.Nodup) :
    Relation.ReflTransGen (Steps pass policy) flow.stages flow'.stages ∧
      flow'.stages.walk.Nodup :=
  settle_steps h hn

end ChartPipeline.Flow
