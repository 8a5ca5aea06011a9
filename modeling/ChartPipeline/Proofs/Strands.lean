import ChartPipeline.Proofs.Declared
import ChartPipeline.Proofs.Sweeping
import Mathlib.Data.List.Chain

/-!
# Flows of a single branch

The flow of a unit is one way without forks, a strand.  On a strand a move of a pass is a change of
the way, and a pass has come to its end where it leaves every stage under the one before it.

## Key results

- `Rewrites.strand`: a move on a strand reroutes it
- `Settled.strand`: no stage of a settled strand moves under the one before it
- `Building.ofChart_unit`: the flow of a unit is a strand
-/

namespace ChartPipeline.Forest

variable {α : Type}

/-- The forest of a way without forks. -/
def strand : List (Nat × α) → Forest α
  | [] => nil
  | (i, a) :: w => node i a (strand w) nil

/-- The frame of a node that has no siblings. -/
def Frame.only (e : Nat × α) : Frame α := ⟨nil, e.1, e.2, nil⟩

/-- The beginning of a strand is around the rest of it. -/
theorem strand_append (l r : List (Nat × α)) :
    strand (l ++ r) = fill (l.map Frame.only).reverse (strand r) := by
  induction l with
  | nil => rfl
  | cons e l ih =>
    rw [List.map_cons, List.reverse_cons, fill_append, ← ih]
    rfl

/-- Below the beginning of a strand comes a node, and below that the rest. -/
theorem strand_concat (l : List (Nat × α)) (e : Nat × α) (r : List (Nat × α)) :
    strand (l ++ e :: r) = fill (Frame.only e :: (l.map Frame.only).reverse) (strand r) := by
  have h := strand_append (l ++ [e]) r
  rwa [List.append_assoc, List.map_append, List.reverse_append] at h

/-- A hole in a strand divides it. -/
theorem eq_strand_of_fill {up : List (Frame α)} {t : Forest α} {w : List (Nat × α)}
    (h : fill up t = strand w) :
    ∃ l r, w = l ++ r ∧ up = (l.map Frame.only).reverse ∧ t = strand r := by
  induction up generalizing t with
  | nil => exact ⟨[], w, rfl, rfl, h⟩
  | cons fr up ih =>
    obtain ⟨l, r, rfl, rfl, hclose⟩ := ih h
    obtain ⟨before, i, a, after⟩ := fr
    -- a node of a strand is the only one at its place, so nothing stands beside the frame
    cases r with
    | nil =>
      cases before with
      | nil => exact absurd hclose (by simp [Frame.close, strand])
      | node => exact absurd hclose (by simp [Frame.close, strand])
    | cons e r =>
      cases before with
      | nil =>
        obtain ⟨rfl, rfl, rfl, rfl⟩ := Forest.node.inj hclose
        exact ⟨l ++ [e], r, by simp, by simp [Frame.only], rfl⟩
      | node j b bs rest =>
        obtain ⟨-, -, -, hrest⟩ := Forest.node.inj hclose
        cases rest <;> exact absurd hrest (by simp [Forest.append])

/-- A node of a strand divides it. -/
theorem eq_strand_of_fill_cons {fr : Frame α} {up : List (Frame α)} {cs : Forest α}
    {w : List (Nat × α)} (h : fill (fr :: up) cs = strand w) :
    ∃ i a l r, fr = Frame.only (i, a) ∧ w = l ++ (i, a) :: r ∧
      up = (l.map Frame.only).reverse ∧ cs = strand r := by
  obtain ⟨l, r, rfl, hup, rfl⟩ := eq_strand_of_fill h
  cases l using List.reverseRecOn with
  | nil => exact absurd hup (by simp)
  | append_singleton l e =>
    rw [List.map_append, List.reverse_append] at hup
    obtain ⟨rfl, rfl⟩ := List.cons.inj hup
    exact ⟨e.1, e.2, l, r, rfl, by simp, rfl, rfl⟩

/-- The places of a strand end its beginnings. -/
theorem mem_places_strand {w above : List (Nat × α)} {v : Place α} :
    v ∈ (strand w).places above ↔ ∃ l r, w = l ++ (v.id, v.content) :: r ∧ v.above = above ++ l := by
  -- by induction on the strand; its nodes stand one below the other
  induction w generalizing above with
  | nil => simp [strand]
  | cons e w ih =>
    obtain ⟨i, a⟩ := e
    rw [strand, places, places_nil, List.append_nil, List.mem_cons, ih]
    constructor
    · rintro (rfl | ⟨l, r, rfl, hv⟩)
      · exact ⟨[], w, rfl, by simp⟩
      · exact ⟨(i, a) :: l, r, rfl, by simp [hv]⟩
    · rintro ⟨l, r, hw, hv⟩
      cases l with
      | nil =>
        obtain ⟨he, rfl⟩ := List.cons.inj hw
        obtain ⟨rfl, rfl⟩ := Prod.mk.inj he
        left
        rw [List.append_nil] at hv
        rw [← hv]
      | cons e l =>
        obtain ⟨rfl, rfl⟩ := List.cons.inj hw
        exact .inr ⟨l, r, rfl, by simp [hv]⟩

/-- A strand has one leaf, its last node. -/
theorem leaves_strand (l : List (Nat × α)) (e : Nat × α) : (strand (l ++ [e])).leaves = [e.1] := by
  induction l with
  | nil => rfl
  | cons e' l ih =>
    have hne : (strand (l ++ [e])).isEmpty = false := by cases l <;> rfl
    rw [List.cons_append, strand, leaves, hne]
    simpa [leaves] using ih

/-- The names along a strand are those of its way. -/
@[simp] theorem walk_strand (w : List (Nat × α)) : (strand w).walk = w.map Prod.fst := by
  induction w with
  | nil => rfl
  | cons e w ih => rw [strand, walk_node, ih, walk_nil, List.append_nil, List.map_cons]

/-! ### Passes over a strand -/

variable {pass : Pass} {policy : FacetPolicy} {w : List (Nat × Stage)} {f' : Forest Stage}

/-- A move on a strand reroutes it; only conversions leave it. -/
theorem Rewrites.strand (h : Rewrites pass policy (strand w) f') (hp : pass ≠ .parse) :
    ∃ w', f' = Forest.strand w' ∧ Rerouted (fun _ _ => True) pass policy w w' := by
  generalize hf : Forest.strand w = f at h
  cases h with
  | @join fr b c h up i gc =>
    obtain ⟨p, a, l, r, rfl, rfl, rfl, hgc⟩ := eq_strand_of_fill_cons hf.symm
    obtain ⟨⟨j, b'⟩, r, rfl⟩ : ∃ e r', r = e :: r' := by
      cases r with
      | nil => exact absurd hgc (by simp [Forest.strand])
      | cons e r => exact ⟨e, r, rfl⟩
    obtain ⟨rfl, rfl, rfl, -⟩ := Forest.node.inj hgc
    exact ⟨_, (strand_concat l (p, c) r).symm, .join h trivial l p i r⟩
  | @rise fr b dims h up i gc =>
    obtain ⟨p, a, l, r, rfl, rfl, rfl, hgc⟩ := eq_strand_of_fill_cons hf.symm
    obtain ⟨⟨j, b'⟩, r, rfl⟩ : ∃ e r', r = e :: r' := by
      cases r with
      | nil => exact absurd hgc (by simp [Forest.strand])
      | cons e r => exact ⟨e, r, rfl⟩
    obtain ⟨rfl, rfl, rfl, -⟩ := Forest.node.inj hgc
    exact ⟨_, (strand_concat l (i, b.addDimensions dims) ((p, a) :: r)).symm, .rise h trivial l p i r⟩
  | drop h => exact absurd h hp
  | put h => exact absurd h hp
  | widen h => exact absurd h hp

/-- So are any number of moves. -/
theorem Rewrites.strand_of_star
    (h : Relation.ReflTransGen (Rewrites pass policy) (Forest.strand w) f')
    (hp : pass ≠ .parse) :
    ∃ w', f' = Forest.strand w' ∧
      Relation.ReflTransGen (Rerouted (fun _ _ => True) pass policy) w w' := by
  induction h with
  | refl => exact ⟨w, rfl, .refl⟩
  | tail _ h ih =>
    obtain ⟨w₁, rfl, hw₁⟩ := ih
    obtain ⟨w₂, rfl, hw₂⟩ := h.strand hp
    exact ⟨w₂, rfl, hw₁.tail hw₂⟩

/-- On a way without forks, no stage that the pass handles moves under the one before it. -/
def Stays (pass : Pass) (policy : FacetPolicy) (w : List (Nat × Stage)) : Prop :=
  w.IsChain fun e e' => pass.handles e'.2.tag = true → Move.choose policy e'.2 e.2 true = .stay

instance : Decidable (Stays pass policy w) :=
  inferInstanceAs (Decidable (w.IsChain fun e e' =>
    pass.handles e'.2.tag = true → Move.choose policy e'.2 e.2 true = .stay))

/-- Without siblings, a stage that the pass handles is moved by what its parent is. -/
theorem Frame.move_only {e e' : Nat × Stage} :
    (Frame.only e').move pass policy (Frame.only e) = .stay ↔
      (pass.handles e'.2.tag = true → Move.choose policy e'.2 e.2 true = .stay) := by
  rw [move]
  constructor
  · intro h hh
    exact (if_pos hh).symm.trans h
  · intro h
    split
    · next hh => exact h hh
    · rfl

/-- A strand is settled if no stage of it moves under the one before it. -/
theorem settled_strand : Settled pass policy (strand w) ↔ Stays pass policy w := by
  -- the path from a leaf goes up, the way goes down
  have hchain (l : List (Nat × Stage)) :
      ((l.map Frame.only).reverse.IsChain fun fr parent => fr.move pass policy parent = .stay) ↔
        Stays pass policy l := by
    rw [List.isChain_reverse, List.isChain_map, Stays]
    simp only [Frame.move_only]
  have hcons (l : List (Nat × Stage)) (e : Nat × Stage) :
      Frame.only e :: (l.map Frame.only).reverse = ((l ++ [e]).map Frame.only).reverse := by
    simp
  constructor
  · intro h
    cases w using List.reverseRecOn with
    | nil => exact .nil
    | append_singleton l e =>
      rw [← hchain, ← hcons]
      exact h _ _ nil (strand_concat l e []) (by rw [leaves_strand]; exact List.mem_singleton.2 rfl)
  · intro h fr up cs hfill _
    obtain ⟨i, a, l, r, rfl, rfl, rfl, -⟩ := eq_strand_of_fill_cons hfill.symm
    rw [hcons, hchain]
    exact h.prefix ⟨r, by simp⟩

end ChartPipeline.Forest

namespace ChartPipeline.Building

open Forest

/-- A flow being built that is a single way. -/
structure Strung (w : List (Nat × Stage)) (st : Building) : Prop where
  stages : st.flow.stages = strand w
  nodup : (w.map Prod.fst).Nodup
  fresh : ∀ e ∈ w, e.1 < st.flow.next

variable {w l : List (Nat × Stage)} {st st' : Building} {id id' : Nat} {a : Stage}

/-- A stage put below the last one makes the way longer. -/
theorem Strung.edit_addChild {stage : Stage}
    (h : edit (Flow.addChild id stage) st = (.ok id', st')) (hst : Strung (l ++ [(id, a)]) st) :
    Strung (l ++ [(id, a)] ++ [(id', stage)]) st' := by
  obtain ⟨hstages, hnodup, hfresh⟩ := hst
  have hn : st.flow.stages.walk.Nodup := by rwa [hstages, walk_strand]
  have hlast : id ∈ st.flow.stages.walk := by simp [hstages]
  have hnext : st.flow.next ∉ st.flow.stages.walk := by
    rw [hstages, walk_strand]
    intro hmem
    obtain ⟨e, he, heq⟩ := List.mem_map.1 hmem
    exact absurd (hfresh e he) (by omega)
  obtain ⟨flow', hrun, hstages', hnext'⟩ := Flow.addChild_run stage hn hlast hnext
  rw [edit, hrun] at h
  obtain ⟨hid, rfl⟩ := Prod.mk.inj h
  obtain rfl : st.flow.next = id' := Except.ok.inj hid
  refine ⟨?_, ?_, fun e he => ?_⟩
  · show flow'.stages = _
    -- the child is attached to the last node of the strand
    rw [hstages', hstages, strand_concat]
    rw [hstages, strand_concat] at hn
    rw [List.append_assoc, List.singleton_append, strand_concat]
    exact attach_first hn _
  · rw [List.map_append]
    rw [hstages, walk_strand] at hnext
    have := hnodup.concat hnext
    rwa [List.concat_eq_append] at this
  · show e.1 < flow'.next
    rw [hnext']
    rcases List.mem_append.1 he with he | he
    · exact Nat.lt_succ_of_lt (hfresh e he)
    · rw [List.mem_singleton.1 he]
      exact Nat.lt_succ_self _

/-- A chain of stages put below the last one goes on with the way. -/
theorem Strung.chain {stages : List Stage} (h : chain id stages st = (.ok id', st'))
    (hst : Strung (l ++ [(id, a)]) st) :
    ∃ l' a', Strung (l' ++ [(id', a')]) st' ∧
      (l' ++ [(id', a')]).map Prod.snd = (l ++ [(id, a)]).map Prod.snd ++ stages := by
  induction stages generalizing id l a st with
  | nil =>
    obtain ⟨hid, rfl⟩ := Prod.mk.inj h
    obtain rfl : id = id' := Except.ok.inj hid
    exact ⟨l, a, hst, (List.append_nil _).symm⟩
  | cons stage rest ih =>
    obtain ⟨id₁, st₁, hadd, hrest⟩ := Run.bind_eq_ok h
    obtain ⟨l', a', hst', hmap⟩ := ih hrest (hst.edit_addChild hadd)
    refine ⟨l', a', hst', ?_⟩
    rw [hmap, List.map_append, List.map_singleton, List.append_assoc, List.singleton_append]

/-- The first stage of a unit is the source of its data. -/
theorem Strung.start {chart : Chart} (h : start chart none {} = (.ok id, st)) :
    ∃ s, Strung ([] ++ [(id, .source s)]) st := by
  rw [Building.start] at h
  cases hd : chart.header.data with
  | none => rw [hd] at h; exact absurd h Run.throw_ne_ok
  | some data =>
    rw [hd] at h
    obtain ⟨hid, rfl⟩ := Prod.mk.inj h
    obtain rfl : 0 = id := Except.ok.inj hid
    refine ⟨Source.ofData data, rfl, List.nodup_singleton _, fun e he => ?_⟩
    rw [List.mem_singleton.1 he]
    exact Nat.one_pos

/-- The flow of a unit is a strand: its source, and the stages that the unit declares. -/
theorem ofChart_unit {header : ChartHeader} {mark : Mark} {encoding : Encoding}
    {stack : Option StackProperties} {chart : Chart}
    (hc : chart = .unit header mark encoding stack) (h : ofChart chart = .ok st) :
    ∃ w s before after, Strung w st ∧ chart.stagesBeforeRaw = .ok before ∧
      chart.stagesAfterRaw = .ok after ∧
      w.map Prod.snd =
        .source s :: (before ++ chart.rawOutput :: (after ++ [chart.mainOutput])) := by
  rw [ofChart] at h
  split at h
  case h_2 => exact absurd h (by simp)
  case h_1 st₇ hrun =>
    obtain rfl := Except.ok.inj h
    obtain ⟨c, st₆, hadd, hnote⟩ : ∃ c st₆, addChain chart none {} = (.ok c, st₆) ∧
        note c st₆ = (.ok (), st₇) := by
      subst hc
      exact Run.bind_eq_ok hrun
    obtain ⟨-, rfl⟩ := Prod.mk.inj hnote
    unfold addChain at hadd
    obtain ⟨head, st₁, hstart, hadd⟩ := Run.bind_eq_ok hadd
    obtain ⟨before, hb, hadd⟩ := Run.lift_bind_ok hadd
    obtain ⟨head', st₂, hbefore, hadd⟩ := Run.bind_eq_ok hadd
    obtain ⟨raw, st₃, hraw, hadd⟩ := Run.bind_eq_ok hadd
    obtain ⟨after, ha, hadd⟩ := Run.lift_bind_ok hadd
    obtain ⟨head'', st₄, hafter, hadd⟩ := Run.bind_eq_ok hadd
    obtain ⟨main, st₅, hmain, hadd⟩ := Run.bind_eq_ok hadd
    obtain ⟨s, hst₁⟩ := Strung.start hstart
    obtain ⟨l₂, a₂, hst₂, hmap₂⟩ := hst₁.chain hbefore
    obtain ⟨l₄, a₄, hst₄, hmap₄⟩ := (hst₂.edit_addChild hraw).chain hafter
    have hst₅ := hst₄.edit_addChild hmain
    obtain rfl : st₅ = st₆ := by
      subst hc
      exact (Prod.mk.inj hadd).2
    refine ⟨_, s, before, after, ⟨hst₅.stages, hst₅.nodup, hst₅.fresh⟩, hb, ha, ?_⟩
    rw [List.map_append, hmap₄, List.map_append, hmap₂]
    simp

end ChartPipeline.Building
