import ChartPipeline.Proofs.Loading
import ChartPipeline.Proofs.Walking

/-!
# Every pass comes to rest

A stage that a pass moves can rise above the stages that the pass leaves, and only above these; it
can be joined once, and conversions that leave their place come to stand right below a source.  So
the room that is left for the stages of a pass shrinks with every change, and a pass that may sweep
often enough ends, where nothing moves any more.

## Key results

- `Ascends.headroom_lt`: every change takes room from the stages of its pass
- `Flow.settle_rests`: how many sweeps a pass takes, and what it makes of the flow
- `Flow.runPass_rests`: a pass ends in a normal form, in which it changes nothing
-/

namespace ChartPipeline.Forest

variable {pass : Pass} {policy : FacetPolicy}

/-- The room for the stages of a pass: each has one more place to be in than there are stages above
    it that the pass leaves, `above` of them above the whole forest. -/
def headroom (pass : Pass) : Nat → Forest Stage → Nat
  | _, nil => 0
  | above, node _ a cs rest =>
    (if pass.handles a.tag then above + 1 + cs.headroom pass above
      else cs.headroom pass (above + 1)) + rest.headroom pass above

/-- The stages around a hole that a pass leaves where they are, on the way up. -/
def fixed (pass : Pass) (up : List (Frame Stage)) : Nat :=
  up.countP fun fr => !pass.handles fr.content.tag

variable {f g t t' cs cs' : Forest Stage} {fr parent : Frame Stage}
  {up ups ups' : List (Frame Stage)} {ids : List Nat} {id k n m : Nat}

/-- The room in trees side by side is that in each of them. -/
@[simp] theorem headroom_append :
    (f ++ g).headroom pass k = f.headroom pass k + g.headroom pass k := by
  induction f with
  | nil => simp [headroom]
  | node i a cs rest _ ih => simp only [node_append, headroom, ih, Nat.add_assoc]

/-- The room in a tree with trees beside it. -/
theorem headroom_close : (fr.close t).headroom pass k = fr.before.headroom pass k +
    (if pass.handles fr.content.tag then k + 1 + t.headroom pass k else t.headroom pass (k + 1)) +
      fr.after.headroom pass k := by
  rw [Frame.close, headroom_append, headroom]
  exact (Nat.add_assoc _ _ _).symm

/-- The room in a forest changes with that in its hole. -/
theorem headroom_fill (up : List (Frame Stage)) (t t' : Forest Stage) :
    (fill up t).headroom pass k + t'.headroom pass (k + fixed pass up) =
      (fill up t').headroom pass k + t.headroom pass (k + fixed pass up) := by
  -- frame by frame: what is in the hole goes deeper only below stages that the pass leaves
  induction up generalizing t t' with
  | nil => exact Nat.add_comm _ _
  | cons fr up ih =>
    have h := ih (fr.close t) (fr.close t')
    simp only [headroom_close] at h
    rw [fill, fill]
    by_cases hfr : pass.handles fr.content.tag = true
    · have hfixed : fixed pass (fr :: up) = fixed pass up := by simp [fixed, hfr]
      simp only [hfr, if_true] at h
      rw [hfixed]
      omega
    · have hfixed : fixed pass (fr :: up) = fixed pass up + 1 := by simp [fixed, hfr]
      simp only [hfr, Bool.false_eq_true, if_false] at h
      rw [hfixed, ← Nat.add_assoc]
      omega

/-- Less room in a hole is less room around it. -/
theorem headroom_fill_lt (h : t'.headroom pass (k + fixed pass up) <
    t.headroom pass (k + fixed pass up)) :
    (fill up t').headroom pass k < (fill up t).headroom pass k := by
  have := @headroom_fill pass k up t t'
  omega

/-- Stages of the same kinds have the same room. -/
theorem headroom_update {u : Stage → Stage}
    (h : ∀ e ∈ f.toList, e.1 = id → pass.handles (u e.2).tag = pass.handles e.2.tag) :
    (f.update id u).headroom pass k = f.headroom pass k := by
  induction f generalizing k with
  | nil => rfl
  | node i a cs rest ihc ihr =>
    simp only [toList, List.mem_cons, List.mem_append] at h
    have hhandles : pass.handles (if i = id then u a else a).tag = pass.handles a.tag := by
      split
      · next hi => exact h (i, a) (.inl rfl) hi
      · rfl
    have hcs (k : Nat) := @ihc k fun e he => h e (.inr (.inl he))
    have hrest := @ihr k fun e he => h e (.inr (.inr he))
    rw [update, headroom, headroom, hhandles, hcs, hcs, hrest]

/-- A conversion that cannot rise has a parent of another kind. -/
theorem Frame.not_handles_of_relocate (h : fr.move pass policy parent = .relocate) :
    pass.handles parent.content.tag = false := by
  obtain ⟨rfl, ⟨types, hfr⟩, -⟩ := parse_of_move h
  obtain ⟨-, hjoin, -⟩ := Move.choose_eq_relocate.1 (move_eq h (by simp)).2
  rw [hfr] at hjoin
  revert hjoin
  generalize parent.content = a
  cases a <;> simp [Stage.tag, Tag.joins, Pass.handles]

/-- A step that changes anything takes room from the stages of its pass. -/
theorem Ascends.headroom_lt (h : Ascends pass policy ups cs ups' cs' n)
    (hn : (fill ups cs).walk.Nodup) (hpos : n ≠ 0) :
    (fill ups' cs').headroom pass 0 < (fill ups cs).headroom pass 0 := by
  -- two become one; or the stage that rises has one less above it; or one goes into another; or one
  -- goes up to its source
  cases h with
  | stay => exact absurd rfl hpos
  | @join fr parent c hmove hj up cs =>
    have hfr : pass.handles fr.content.tag = true := hj.handled
    have hparent : pass.handles parent.content.tag = true := hj.tag_eq ▸ hfr
    have hc : pass.handles c.tag = true := Stage.tag_of_merge? hj.merged ▸ hparent
    refine @headroom_fill_lt pass _ _ up 0 ?_
    simp only [headroom_close, headroom_append, hfr, hparent, hc, if_true]
    omega
  | @rise fr parent dims hmove hr hal up cs =>
    obtain ⟨before, i, b, after⟩ := fr
    obtain ⟨rfl, rfl⟩ := Frame.alone_iff.1 hal
    have hfr : pass.handles b.tag = true := hr.handled
    refine @headroom_fill_lt pass _ _ up 0 ?_
    simp [headroom_close, headroom, hfr, hr.not_handles]
  | @absorb fr parent other types types' cs up hmove hfr ho hne =>
    obtain ⟨rfl, -, -⟩ := Frame.parse_of_move hmove
    -- first the other conversion takes in this one, then this one leaves its place
    have hupdated : ((fill (fr :: parent :: up) cs).update other
        fun _ => .parse (types'.union types)).headroom .parse 0 =
          (fill (fr :: parent :: up) cs).headroom .parse 0 :=
      headroom_update fun e he hid => by
        rw [content_eq_of_mem_toList hn ho he hid]
        rfl
    have hfr' : Pass.parse.handles
        (fr.update other fun _ => .parse (types'.union types)).content.tag = true := by
      rw [Frame.update, if_neg (Ne.symm hne), hfr]
      rfl
    rw [← hupdated, update_fill, List.map_cons]
    refine @headroom_fill_lt .parse (Frame.close _ _) _ (_ :: _) 0 ?_
    simp only [headroom_close, update_append, headroom_append, hfr', if_true, Frame.update_before,
      Frame.update_after]
    omega
  | @relocate fr parent root types hmove hfr hs up cs =>
    obtain ⟨rfl, -, -⟩ := Frame.parse_of_move hmove
    have hparse : Pass.parse.handles fr.content.tag = true := by rw [hfr]; rfl
    have hparent := Frame.not_handles_of_relocate hmove
    have hroot : fixed .parse [root] = 1 := by simp [fixed, hs, Pass.handles]
    have hfixed : 1 ≤ fixed .parse (parent :: up) := by simp [fixed, hparent]
    rw [fill_concat, fill_withSibling, ← List.cons_append, ← List.cons_append, fill_concat]
    refine @headroom_fill_lt .parse _ _ [root] 0 ?_
    -- the conversion was below the root and its parent, and comes to stand below the root alone
    have hdrop := @headroom_fill .parse (0 + fixed .parse [root]) (parent :: up)
      (fr.close cs) (fr.before ++ (cs ++ fr.after))
    rw [hroot] at hdrop ⊢
    rw [show fill (fr :: parent :: up) cs = fill (parent :: up) (fr.close cs) from rfl]
    simp only [headroom_close, headroom_append, hparse, if_true, leaf, headroom] at hdrop ⊢
    omega

/-! ### Sweeps -/

/-- What changes that take room do: no change leaves the room as it is. -/
structure Narrows (pass : Pass) (f g : Forest Stage) (n : Nat) : Prop where
  le : g.headroom pass 0 ≤ f.headroom pass 0
  lt : n ≠ 0 → g.headroom pass 0 < f.headroom pass 0

/-- Changes one after the other take room together. -/
theorem Narrows.trans {h : Forest Stage} (hfg : Narrows pass f g n) (hgh : Narrows pass g h m) :
    Narrows pass f h (n + m) := by
  obtain ⟨hle, hlt⟩ := hfg
  obtain ⟨hle', hlt'⟩ := hgh
  exact ⟨by omega, fun _ => by omega⟩

/-- So does a step of a climb. -/
theorem Ascends.narrows (h : Ascends pass policy ups cs ups' cs' n)
    (hn : (fill ups cs).walk.Nodup) : Narrows pass (fill ups cs) (fill ups' cs') n := by
  refine ⟨?_, h.headroom_lt hn⟩
  by_cases hpos : n = 0
  · subst hpos
    obtain ⟨fr, parent, up, rfl, rfl, rfl, -⟩ := h.eq_of_zero
    exact Nat.le_refl _
  · exact Nat.le_of_lt (h.headroom_lt hn hpos)

/-- A climb takes room as its steps do. -/
theorem Climbs.narrows (h : Climbs pass policy ups cs f n) (hn : (fill ups cs).walk.Nodup) :
    Narrows pass (fill ups cs) f n := by
  induction h with
  | done => exact ⟨Nat.le_refl _, fun h => absurd rfl h⟩
  | step h _ ih => exact (h.narrows hn).trans (ih (h.nodup hn))

/-- A sweep takes room as its climbs do. -/
theorem Sweeps.narrows (h : Sweeps pass policy ids f g n) (hf : f.Grounded) :
    Narrows pass f g n := by
  induction h with
  | nil => exact ⟨Nat.le_refl _, fun h => absurd rfl h⟩
  | gone _ _ ih => exact ih hf
  | climb h _ ih => exact (h.narrows hf.nodup).trans (ih (h.grounded hf))

/-- A forest that steps of climbs reach still has the same source at the top of every tree. -/
theorem Grounded.of_steps (hf : f.Grounded) (h : Relation.ReflTransGen (Steps pass policy) f g) :
    g.Grounded ∧ g.heads = f.heads := by
  induction h with
  | refl => exact ⟨hf, rfl⟩
  | tail _ hstep ih =>
    obtain ⟨hg, hheads⟩ := ih
    obtain ⟨-, hstep⟩ := hstep
    exact ⟨hstep.grounded hg, (hstep.heads_eq hg).trans hheads⟩

end ChartPipeline.Forest

namespace ChartPipeline.Flow

open Forest

variable {pass : Pass} {policy : FacetPolicy} {flow : Flow} {id parent : Nat}

/-- Where every tree begins with a source, a pass takes a certain number of sweeps, at most one more
    than there is room for its stages, and comes to its end if it may take as many. -/
theorem settle_rests (pass : Pass) (policy : FacetPolicy) (hf : flow.stages.Grounded) :
    ∃ k flow', 0 < k ∧ k ≤ flow.stages.headroom pass 0 + 1 ∧ flow'.stages.Grounded ∧
      Settled pass policy flow'.stages ∧
      (∀ n done, k ≤ n → settle pass policy n done flow = (.ok (done + k), flow')) ∧
      ∀ n done, n < k → ∃ flow₁,
        settle pass policy n done flow = (.error (.didNotConverge pass.name (done + n)), flow₁) := by
  -- on the room that is left: a sweep either changes nothing, or leaves less room for those after
  -- it
  induction hroom : flow.stages.headroom pass 0 using Nat.strong_induction_on generalizing flow with
  | _ room ih =>
    obtain ⟨m, flow₁, hsweeps, -, hrun⟩ := settle_succ pass policy hf
    by_cases hm : m = 0
    · -- the first sweep finds nothing to change
      subst hm
      obtain ⟨hsame, hs⟩ := hsweeps.settled hf.nodup
      refine ⟨1, flow₁, by omega, by omega, hsame ▸ hf, hsame ▸ hs, fun n done hle => ?_,
        fun n done hlt => ?_⟩
      · obtain ⟨n, rfl⟩ := Nat.exists_eq_add_of_le' hle
        rw [hrun, if_pos rfl]
      · obtain rfl : n = 0 := by omega
        exact ⟨flow, rfl⟩
    · have hlt := (hsweeps.narrows hf).lt hm
      obtain ⟨k, flow', hpos, hle, hf', hs, hok, herr⟩ :=
        ih _ (hroom ▸ hlt) (hsweeps.grounded hf) rfl
      refine ⟨k + 1, flow', by omega, by omega, hf', hs, fun n done hkn => ?_, fun n done hnk => ?_⟩
      · obtain ⟨n, rfl⟩ := Nat.exists_eq_add_of_le' (Nat.le_trans (Nat.le_add_left 1 k) hkn)
        rw [hrun, if_neg hm, hok n (done + 1) (by omega), Nat.add_assoc, Nat.add_comm 1 k]
      · cases n with
        | zero => exact ⟨flow, rfl⟩
        | succ n =>
          obtain ⟨flow₂, herr⟩ := herr n (done + 1) (by omega)
          rw [hrun, if_neg hm]
          exact ⟨flow₂, by rw [herr, Nat.add_assoc, Nat.add_comm 1 n]⟩

/-- Once a pass has come to its end, it moves no stage under its parent. -/
theorem moveOf_of_settled (hs : Settled pass policy flow.stages) (hn : flow.stages.walk.Nodup)
    (h : flow.stages.parent? id = some parent) : moveOf pass policy id parent flow = .stay := by
  have hmem : id ∈ flow.stages.walk := by
    by_contra hmem
    rw [parent?_of_notMem hmem] at h
    exact absurd h (by simp)
  obtain ⟨fr, up, cs, hst, rfl⟩ := exists_fill_of_mem hmem
  have hup : (up.map Frame.id).head? = some parent := by
    rw [← h, hst]
    exact (parent?_first up (hst ▸ hn)).symm
  cases up with
  | nil => exact absurd hup (by simp)
  | cons fr' up =>
    obtain rfl : fr'.id = parent := by simpa using hup
    rw [moveOf_first pass policy hst hn]
    exact (List.isChain_cons_cons.1 (hs.above hst)).1

/-- Where the roots are sources, every tree begins with one. -/
theorem grounded_of_roots (hn : flow.stages.walk.Nodup)
    (hs : ∀ id ∈ flow.stages.roots, flow.tag? id = some .source) : flow.stages.Grounded where
  nodup := hn
  sourced e he := by
    have htag := hs e.1 (mem_roots_of_mem_heads he)
    rw [tag?_of_content? (@content?_of_mem_heads _ _ e.1 e.2 [] hn he)] at htag
    exact Option.some.inj htag

/-- A pass comes to rest.  In a flow in which no name stands twice and every root is a source,
    - every walk from a stage to its root ends, now and after any steps of the pass, and does what
      the climb from there does;
    - there is a number of sweeps from which on the pass succeeds, always after as many sweeps and
      with the same flow, and below which it does not converge;
    - in that flow the pass moves no stage under its parent;
    - the pass changes nothing when it is run again, and takes one sweep to see that. -/
theorem runPass_rests (pass : Pass) (policy : FacetPolicy) (hn : flow.stages.walk.Nodup)
    (hs : ∀ id ∈ flow.stages.roots, flow.tag? id = some .source) :
    (∀ flow₁ : Flow, Relation.ReflTransGen (Steps pass policy) flow.stages flow₁.stages →
      ∀ id ∈ flow₁.stages.walk, ∃ flow₂,
        climb pass policy id (flow₁.stages.ancestors id) flow₁ = (.ok (), flow₂) ∧
          ∀ n, 2 * (flow₁.stages.ancestors id).length ≤ n →
            walkUp pass policy n id flow₁ = (.ok true, flow₂)) ∧
      ∃ k flow', 0 < k ∧
        (∀ n, k ≤ n → runPass pass policy n flow = (.ok k, flow')) ∧
        (∀ n, n < k → ∃ flow₁,
          runPass pass policy n flow = (.error (.didNotConverge pass.name n), flow₁)) ∧
        (∀ id parent, flow'.stages.parent? id = some parent →
          moveOf pass policy id parent flow' = .stay) ∧
        ∀ n, 0 < n → runPass pass policy n flow' = (.ok 1, flow') := by
  have hf := grounded_of_roots hn hs
  refine ⟨fun flow₁ hsteps id hid => ?_, ?_⟩
  · obtain ⟨hf₁, -⟩ := hf.of_steps hsteps
    obtain ⟨fr, up, cs, hst, rfl⟩ := exists_fill_of_mem hid
    have hanc : flow₁.stages.ancestors fr.id = up.map Frame.id := by
      rw [hst]
      exact ancestors_first (hst ▸ hf₁.nodup)
    rw [hanc, List.length_map]
    -- the walk does what the climb does, however many steps it may take beyond those it needs
    have hwalks {n : Nat} (hle : 2 * up.length ≤ n) : ∃ flow₂,
        climb pass policy fr.id (up.map Frame.id) flow₁ = (.ok (), flow₂) ∧
          walkUp pass policy n fr.id flow₁ = (.ok true, flow₂) := walkUp_eq hst hf₁ hle
    obtain ⟨flow₂, hclimb, -⟩ := hwalks (Nat.le_refl _)
    refine ⟨flow₂, hclimb, fun n hle => ?_⟩
    obtain ⟨flow₃, hclimb', hwalk⟩ := hwalks hle
    obtain ⟨-, rfl⟩ := Prod.mk.inj (hclimb.symm.trans hclimb')
    exact hwalk
  · obtain ⟨k, flow', hpos, -, hf', hsettled, hok, herr⟩ := settle_rests pass policy hf
    refine ⟨k, flow', hpos, fun n hle => ?_, fun n hlt => ?_, fun id parent h => ?_, fun n h => ?_⟩
    · rw [runPass, hok n 0 hle, Nat.zero_add]
    · obtain ⟨flow₁, herr⟩ := herr n 0 hlt
      exact ⟨flow₁, by rw [runPass, herr, Nat.zero_add]⟩
    · exact moveOf_of_settled hsettled hf'.nodup h
    · exact runPass_settled h hf'.nodup hsettled

/-- Two filters below outputs that nobody reads. -/
def spacedFilters : Flow :=
  { stages :=
      .node 0 (.source ⟨.named "rows", "rows"⟩)
        (.node 1 (.output "raw" false)
          (.node 2 (.filter [.expression "datum.a > 0"])
            (.node 3 (.output "filtered" false)
              (.node 4 (.filter [.expression "datum.b > 0"]) (.leaf 5 (.output "main" true)) .nil)
              .nil) .nil) .nil) .nil,
    next := 6 }

/-- One walk takes both filters along: the second passes an output and joins the first, which
    passes the other output. -/
theorem runPass_rests_spacedFilters : ∃ flow',
    (∀ n, 2 ≤ n → runPass .transforms .foldGroupby n spacedFilters = (.ok 2, flow')) ∧
      flow'.stages.walk = [0, 2, 1, 3, 5] ∧
      ∀ n, 0 < n → runPass .transforms .foldGroupby n flow' = (.ok 1, flow') := by
  have hn : spacedFilters.stages.walk.Nodup := by decide
  have hs : ∀ id ∈ spacedFilters.stages.roots, spacedFilters.tag? id = some .source := by decide
  obtain ⟨-, k, flow', -, hok, herr, -, hagain⟩ := runPass_rests .transforms .foldGroupby hn hs
  have hone : (runPass .transforms .foldGroupby 1 spacedFilters).1 =
      .error (.didNotConverge "transforms" 1) := rfl
  have htwo : runPass .transforms .foldGroupby 2 spacedFilters =
      (.ok 2, (runPass .transforms .foldGroupby 2 spacedFilters).2) := rfl
  -- one sweep is not enough, and two are
  have hk : k = 2 := by
    by_contra hne
    rcases Nat.lt_or_ge k 2 with hlt | hge
    · rw [hok 1 (by omega)] at hone
      exact absurd hone (by simp)
    · obtain ⟨flow₁, h⟩ := herr 2 (by omega)
      exact absurd (congrArg Prod.fst (h.symm.trans htwo)) (by simp)
  subst hk
  obtain ⟨-, hflow⟩ := Prod.mk.inj ((hok 2 (Nat.le_refl 2)).symm.trans htwo)
  exact ⟨flow', hok, by rw [hflow]; rfl, hagain⟩

end ChartPipeline.Flow
