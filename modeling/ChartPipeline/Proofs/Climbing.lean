import ChartPipeline.Proofs.Rewriting
import Mathlib.Logic.Relation

/-!
# How a stage climbs

A pass goes up from a leaf.  Where every tree begins with a source no edit of it fails, and each of
its steps is one of `Ascends`: the frames around the hole are the stages still above, the first of
them the stage that is climbing.

## Key results

- `Ascends.grounded`: a step keeps the names apart and the sources above all else
- `Ascends.rewrites`: a step changes the forest by moves of the pass and keeps it lawful
- `Flow.climb_step`: the climb from a stage takes one step after the other
-/

namespace ChartPipeline

/-! ### Running programs that may fail -/

/-- A computation that ends well has ended well in its first part. -/
theorem bind_eq_ok {ε α β : Type} {x : Except ε α} {f : α → Except ε β} {b : β}
    (h : (x >>= f) = .ok b) : ∃ a, x = .ok a ∧ f a = .ok b := by
  cases x with
  | error e => cases h
  | ok a => exact ⟨a, rfl, h⟩

/-- Wording a fault otherwise changes nothing for what ends well. -/
theorem mapError_eq_ok {ε ε' α : Type} {f : ε → ε'} {x : Except ε α} {a : α} :
    x.mapError f = .ok a ↔ x = .ok a := by
  cases x <;> simp [Except.mapError]

namespace Run

variable {ε σ α β : Type} {s s' : σ}

/-- A program whose first part ends well goes on from there. -/
theorem bind_ok {e : ExceptT ε (StateM σ) α} {k : α → ExceptT ε (StateM σ) β} {a : α}
    (h : e s = (.ok a, s')) : (e >>= k) s = k a s' := by
  show ExceptT.bind e k s = _
  simp only [ExceptT.bind, ExceptT.mk, bind, StateT.bind, ExceptT.bindCont]
  rw [h]

/-- A program whose first part fails has failed. -/
theorem bind_error {e : ExceptT ε (StateM σ) α} {k : α → ExceptT ε (StateM σ) β} {x : ε}
    (h : e s = (.error x, s')) : (e >>= k) s = (.error x, s') := by
  show ExceptT.bind e k s = _
  simp only [ExceptT.bind, ExceptT.mk, bind, StateT.bind, ExceptT.bindCont]
  rw [h]
  rfl

/-- A program that ends well has ended well in its first part. -/
theorem bind_eq_ok {e : ExceptT ε (StateM σ) α} {k : α → ExceptT ε (StateM σ) β} {b : β} {s'' : σ}
    (h : (e >>= k) s = (.ok b, s'')) :
    ∃ a s', e s = (.ok a, s') ∧ k a s' = (.ok b, s'') := by
  cases he : e s with
  | mk result s' =>
    cases result with
    | error x =>
      rw [bind_error he] at h
      exact absurd (congrArg Prod.fst h) (by simp)
    | ok a => exact ⟨a, s', rfl, (bind_ok he).symm.trans h⟩

/-- A program that fails does not end well. -/
theorem throw_ne_ok {x : ε} {a : α} :
    (throw x : ExceptT ε (StateM σ) α) s ≠ (.ok a, s') := by
  intro h
  have : Except.error x = .ok a := congrArg Prod.fst h
  exact absurd this (by simp)

/-- Reading the state gives it and leaves it. -/
theorem get_run (s : σ) : (get : ExceptT ε (StateM σ) σ) s = (.ok s, s) := rfl

/-- A computation that does not touch the state. -/
theorem lift_run (x : Except ε α) (s : σ) : (liftM x : ExceptT ε (StateM σ) α) s = (x, s) := by
  cases x <;> rfl

/-- What follows a computation that does not touch the state. -/
theorem lift_bind_ok {x : Except ε α} {k : α → ExceptT ε (StateM σ) β} {b : β}
    (h : ((liftM x : ExceptT ε (StateM σ) α) >>= k) s = (.ok b, s')) :
    ∃ a, x = .ok a ∧ k a s = (.ok b, s') := by
  obtain ⟨a, s₁, hx, hk⟩ := bind_eq_ok h
  rw [lift_run] at hx
  obtain ⟨rfl, rfl⟩ := Prod.mk.inj hx
  exact ⟨a, rfl, hk⟩

/-- A run without a result to give ends well in one way only. -/
theorem eq_ok_of_isOk {r : Except ε Unit × σ} (h : r.1.isOk = true) : r = (.ok (), r.2) := by
  obtain ⟨_ | ⟨⟨⟩⟩, s⟩ := r
  · exact absurd h (by simp [Except.isOk, Except.toBool])
  · rfl

end Run

namespace Flow

open Forest

variable {flow : Flow}

/-- A stage that stands in the forest is found. -/
theorem stage?_of_content? {id : Nat} {a : Stage} (h : flow.stages.content? id = some a) :
    flow.stage? id = some a := by
  rw [stage?, h]
  rfl

/-- So is its kind. -/
theorem tag?_of_content? {id : Nat} {a : Stage} (h : flow.stages.content? id = some a) :
    flow.tag? id = some a.tag := by
  rw [tag?, stage?_of_content? h]
  rfl

/-- Joining two stages of the forest joins what they hold and takes the second one out. -/
theorem merge_run {keep other : Nat} {a b c : Stage} (hne : keep ≠ other)
    (ha : flow.stages.content? keep = some a) (hb : flow.stages.content? other = some b)
    (hc : a.merge? b = some c) :
    ∃ flow', merge keep other flow = (.ok (), flow') ∧
      flow'.stages = (flow.stages.update keep fun _ => c).splice other ∧
      flow'.revision = flow.revision + 1 ∧ flow'.next = flow.next := by
  -- first the stage takes in the other one, then this is taken out
  have habsorb : absorb keep other flow = (.ok (), flow.updateStage keep fun _ => c) := by
    simp only [absorb, stage?_of_content? ha, stage?_of_content? hb, hc]
  have hmem : other ∈ (flow.stages.update keep fun _ => c).walk := by
    rw [walk_update]
    exact mem_walk_of_content? hb
  obtain ⟨e, he⟩ := Option.isSome_iff_exists.1 (contains_iff.2 hmem)
  have hremove : remove other (flow.updateStage keep fun _ => c) =
      (.ok (), { (flow.updateStage keep fun _ => c).restructure (·.splice other) with
        removed := (other, e.1) :: (flow.updateStage keep fun _ => c).removed }) := by
    simp only [remove, updateStage, content?, he, Option.map_some]
  rw [merge, if_neg hne]
  exact ⟨_, (Run.bind_ok (k := fun _ => remove other) habsorb).trans hremove, rfl, rfl, rfl⟩

/-- A stage that is taken out and put under another one comes back alone, as its last child. -/
theorem remove_setParent_run {id parent : Nat} {a : Stage}
    (ha : flow.stages.content? id = some a) (hne : id ≠ parent)
    (hout : id ∉ (flow.stages.splice id).walk) (hin : parent ∈ (flow.stages.splice id).walk)
    (hroot : (flow.stages.splice id).ancestors parent = []) :
    ∃ flow', (do remove id; setParent id parent : Edit FlowFault Unit) flow = (.ok (), flow') ∧
      flow'.stages = (flow.stages.splice id).attach parent (leaf id a) ∧
      flow'.revision = flow.revision + 2 ∧ flow'.next = flow.next := by
  have hremove : remove id flow = (.ok (), { flow.restructure (·.splice id) with
      removed := (id, a) :: flow.removed }) := by
    simp only [remove, ha]
  -- the stage is in no tree now, and its new parent is a root, so it can be put there
  have hput : ∃ flow', setParent id parent { flow.restructure (·.splice id) with
      removed := (id, a) :: flow.removed } = (.ok (), flow') ∧
      flow'.stages = (flow.stages.splice id).attach parent (leaf id a) ∧
      flow'.revision = flow.revision + 2 ∧ flow'.next = flow.next := by
    simp [setParent, restructure, isAncestor, hroot, isAttached, contains_iff.2 hin,
      find?_eq_none.2 hout, hne]
    exact ⟨_, rfl, rfl, rfl, rfl⟩
  obtain ⟨flow', hrun, h⟩ := hput
  exact ⟨flow', (Run.bind_ok (k := fun _ => setParent id parent) hremove).trans hrun, h⟩

/-- An only child is exchanged with its parent. -/
theorem swapWithParent_run {id parent : Nat} (hp : flow.stages.parent? id = some parent)
    (hc : flow.stages.children parent = [id]) :
    swapWithParent id flow = (.ok (), flow.restructure (·.lift id)) := by
  simp only [swapWithParent, hp, hc, if_pos]

end Flow

/-! ### The move of a stage -/

/-- Stages of one kind whose neighbours are joined do join. -/
theorem Stage.merge?_of_joins {a b : Stage} (ht : b.tag = a.tag) (hj : b.tag.joins = true) :
    ∃ c, a.merge? b = some c := by
  cases a <;> cases b <;> simp_all [Stage.tag, Tag.joins, Stage.merge?]

namespace Move

variable {policy : FacetPolicy} {a b : Stage} {alone : Bool}

/-- When a stage joins its parent. -/
theorem choose_eq_join :
    choose policy b a alone = .join ↔ a.tag ≠ .source ∧ b.tag = a.tag ∧ b.tag.joins = true := by
  unfold choose
  grind

/-- When a stage rises above its parent. -/
theorem choose_eq_rise {dims : List String} :
    choose policy b a alone = .rise dims ↔ a.tag ≠ .source ∧
      ¬ (b.tag = a.tag ∧ b.tag.joins = true) ∧ passage? policy b a = some dims ∧ alone = true := by
  unfold choose
  grind

/-- When a stage is put below its source. -/
theorem choose_eq_relocate :
    choose policy b a alone = .relocate ↔ a.tag ≠ .source ∧
      ¬ (b.tag = a.tag ∧ b.tag.joins = true) ∧ (passage? policy b a).isSome = true ∧
        alone = false ∧ b.tag = .parse := by
  unfold choose
  grind

end Move

namespace Forest

variable {pass : Pass} {policy : FacetPolicy}

/-- Whether the node of a frame has no siblings. -/
def Frame.alone (fr : Frame Stage) : Bool := fr.before.isEmpty && fr.after.isEmpty

/-- A node has no siblings if there are no trees before and after it. -/
theorem Frame.alone_iff {fr : Frame Stage} :
    fr.alone = true ↔ fr.before = nil ∧ fr.after = nil := by
  rw [alone, Bool.and_eq_true, isEmpty_iff, isEmpty_iff]

/-- A node has no siblings if its parent has one child. -/
theorem Frame.length_roots_close_eq_one {fr : Frame Stage} {cs : Forest Stage} :
    (fr.close cs).roots.length = 1 ↔ fr.alone = true := by
  rw [length_roots_close, alone_iff, ← length_roots_eq_zero, ← length_roots_eq_zero]
  omega

/-- What a pass does with the node of a frame under that of the next one. -/
def Frame.move (pass : Pass) (policy : FacetPolicy) (fr parent : Frame Stage) : Move :=
  if pass.handles fr.content.tag then
    Move.choose policy fr.content parent.content fr.alone
  else .stay

variable {fr parent : Frame Stage}

/-- A pass that does something moves stages of that kind. -/
theorem Frame.move_eq {m : Move} (h : fr.move pass policy parent = m) (hm : m ≠ .stay) :
    pass.handles fr.content.tag = true ∧
      Move.choose policy fr.content parent.content fr.alone = m := by
  rw [move] at h
  split at h
  · next hb => exact ⟨hb, h⟩
  · exact absurd h.symm hm

/-- Where a pass says so, a stage and its parent do join. -/
theorem Frame.joins_of_move (h : fr.move pass policy parent = .join) :
    ∃ c, Joins pass parent.content fr.content c := by
  obtain ⟨hb, h⟩ := move_eq h (by simp)
  obtain ⟨-, ht, hj⟩ := Move.choose_eq_join.1 h
  obtain ⟨c, hc⟩ := Stage.merge?_of_joins ht hj
  exact ⟨c, hb, ht, hc⟩

/-- A stage rises above one of another kind: stages of one kind join, or may not pass. -/
theorem Frame.rises_of_move {dims : List String} (h : fr.move pass policy parent = .rise dims) :
    Rises pass policy parent.content fr.content dims ∧ fr.alone = true := by
  obtain ⟨hb, h⟩ := move_eq h (by simp)
  obtain ⟨hs, hj, hd, hal⟩ := Move.choose_eq_rise.1 h
  refine ⟨⟨hb, fun ht => ?_, hs, hd⟩, hal⟩
  -- stages of one kind that do not join block each other
  revert hd hj hb ht
  generalize fr.content = b
  generalize parent.content = a
  cases b <;> cases a <;> simp [Stage.tag, Tag.joins, Move.passage?, Pass.handles]

/-- Only conversions are put below their source, by their own pass. -/
theorem Frame.parse_of_move (h : fr.move pass policy parent = .relocate) :
    pass = .parse ∧ (∃ types, fr.content = .parse types) ∧ parent.content.tag ≠ .source := by
  obtain ⟨hb, h⟩ := move_eq h (by simp)
  obtain ⟨hs, -, -, -, ht⟩ := Move.choose_eq_relocate.1 h
  refine ⟨?_, ?_, hs⟩
  · by_contra hp
    exact Pass.not_parse hb hp ht
  · revert ht
    generalize fr.content = b
    cases b <;> simp [Stage.tag]

/-! ### Steps up -/

/-- One step of a climb, with the number of changes that it makes to the structure.  The frames
    before and after it are the stage that climbs and those above. -/
inductive Ascends (pass : Pass) (policy : FacetPolicy) :
    List (Frame Stage) → Forest Stage → List (Frame Stage) → Forest Stage → Nat → Prop
  | stay {fr parent : Frame Stage} (h : fr.move pass policy parent = .stay) (up cs) :
      Ascends pass policy (fr :: parent :: up) cs (parent :: up) (fr.close cs) 0
  | join {fr parent : Frame Stage} {c} (h : fr.move pass policy parent = .join)
      (hj : Joins pass parent.content fr.content c) (up cs) :
      Ascends pass policy (fr :: parent :: up) cs ({ parent with content := c } :: up)
        (fr.before ++ (cs ++ fr.after)) 1
  | rise {fr parent : Frame Stage} {dims} (h : fr.move pass policy parent = .rise dims)
      (hr : Rises pass policy parent.content fr.content dims) (hal : fr.alone = true) (up cs) :
      Ascends pass policy (fr :: parent :: up) cs
        ({ parent with id := fr.id, content := fr.content.addDimensions dims } :: up)
        (node parent.id parent.content cs nil) 1
  | absorb {fr parent : Frame Stage} {other types types' cs up}
      (h : fr.move pass policy parent = .relocate) (hf : fr.content = .parse types)
      (ho : (fill (fr :: parent :: up) cs).content? other = some (.parse types'))
      (hne : other ≠ fr.id) :
      Ascends pass policy (fr :: parent :: up) cs
        ((parent :: up).map (Frame.update other fun _ => .parse (types'.union types)))
        ((fr.before ++ (cs ++ fr.after)).update other fun _ => .parse (types'.union types)) 1
  | relocate {fr parent root : Frame Stage} {types}
      (h : fr.move pass policy parent = .relocate) (hf : fr.content = .parse types)
      (hs : root.content.tag = .source) (up cs) :
      Ascends pass policy (fr :: parent :: (up ++ [root])) cs
        (withSibling (leaf fr.id fr.content) (parent :: up) ++ [root])
        (fr.before ++ (cs ++ fr.after)) 2

variable {ups ups' : List (Frame Stage)} {cs cs' : Forest Stage} {n : Nat}

/-- A way from a source goes through the outermost frame. -/
theorem Sourced.source_of_fill_concat {up : List (Frame Stage)} {root : Frame Stage}
    {t : Forest Stage} (h : (fill (up ++ [root]) t).Sourced) : root.content.tag = .source := by
  refine h (root.id, root.content) ?_
  rw [fill_concat, fill, fill, Frame.close, heads_append, heads]
  simp

/-- Below a stage that is no source there are at least two frames. -/
theorem Sourced.exists_cons {t : Forest Stage} {up : List (Frame Stage)}
    (h : (fill (parent :: up) t).Sourced) (hns : parent.content.tag ≠ .source) :
    ∃ above root, up = above ++ [root] ∧ root.content.tag = .source := by
  obtain rfl | ⟨above, root, rfl⟩ := List.eq_nil_or_concat' up
  · exact absurd (@source_of_fill_concat [] parent t h) hns
  · exact ⟨above, root, rfl, @source_of_fill_concat (parent :: above) root t h⟩

/-- A step keeps the names apart. -/
theorem Ascends.nodup (h : Ascends pass policy ups cs ups' cs' n) (hn : (fill ups cs).walk.Nodup) :
    (fill ups' cs').walk.Nodup := by
  cases h with
  | stay => exact hn
  | @join fr parent c _ _ up cs =>
    -- the parent first takes in the stage, and then the stage is dropped
    have hupdated : (fill (parent :: up) (fr.close cs)).update parent.id (fun _ => c) =
        fill (fr :: { parent with content := c } :: up) cs := by
      exact @update_first _ up parent (fr.close cs) hn _
    have hn' : (fill (fr :: { parent with content := c } :: up) cs).walk.Nodup := by
      rw [← hupdated, walk_update]
      exact hn
    exact (nodup_fill_drop hn').1
  | @rise fr parent dims _ _ hal up cs =>
    obtain ⟨before, i, b, after⟩ := fr
    obtain ⟨rfl, rfl⟩ := Frame.alone_iff.1 hal
    exact @nodup_fill_rise _ _ parent _ _ _ hn _ _
  | @absorb fr parent other types types' cs up =>
    have hn' := hn
    rw [← walk_update other (fun _ => .parse (types'.union types)), update_fill,
      List.map_cons] at hn'
    have := (nodup_fill_drop hn').1
    simpa only [Frame.update_before, Frame.update_after, update_append] using this
  | @relocate fr parent root types _ _ _ up cs =>
    obtain ⟨hn', hid⟩ := nodup_fill_drop hn
    rw [fill_cons_concat] at hn' hid
    rw [fill_concat, fill_withSibling]
    exact nodup_fill_put hn' hid fr.content

/-- A step moves nothing that is a root. -/
theorem Ascends.heads_eq (h : Ascends pass policy ups cs ups' cs' n)
    (hf : (fill ups cs).Grounded) : (fill ups' cs').heads = (fill ups cs).heads := by
  cases h with
  | stay => rfl
  | @join fr parent c hmove hj up cs =>
    -- the parent is no source, so the outermost frame is another one and stays
    have hns := (Move.choose_eq_join.1 (Frame.move_eq hmove (by simp)).2).1
    obtain ⟨above, root, rfl, -⟩ := Sourced.exists_cons (t := fr.close cs) hf.sourced hns
    rw [fill_cons_concat, ← List.cons_append, ← List.cons_append, fill_concat]
    exact heads_fill root [] _ _
  | @rise fr parent dims hmove hr hal up cs =>
    obtain ⟨above, root, rfl, -⟩ :=
      Sourced.exists_cons (t := fr.close cs) hf.sourced hr.not_source
    rw [fill_cons_concat, ← List.cons_append, ← List.cons_append, fill_concat]
    exact heads_fill root [] _ _
  | @absorb fr parent other types types' cs up hmove hfr ho hne =>
    have hdrop : (fill (parent :: up) (fr.before ++ (cs ++ fr.after))).heads =
        (fill (fr :: parent :: up) cs).heads := heads_fill parent up _ _
    rw [← update_fill, ← hdrop, heads_update_of_notMem]
    -- what takes in the conversion is no source
    rw [← map_fst_heads, hdrop]
    intro hmem
    obtain ⟨⟨i, a⟩, he, rfl⟩ := List.mem_map.1 hmem
    have hcontent := (@content?_of_mem_heads _ _ i a [] hf.nodup he).symm.trans ho
    have htag := hf.sourced _ he
    rw [Option.some.inj hcontent] at htag
    simp [Stage.tag] at htag
  | @relocate fr parent root types hmove hfr hs up cs =>
    rw [fill_concat, ← List.cons_append, ← List.cons_append, fill_concat]
    exact heads_fill root [] _ _

/-- A step keeps the names apart and the sources above all else. -/
theorem Ascends.grounded (h : Ascends pass policy ups cs ups' cs' n)
    (hf : (fill ups cs).Grounded) : (fill ups' cs').Grounded where
  nodup := h.nodup hf.nodup
  sourced := by
    rw [Sourced, h.heads_eq hf]
    exact hf.sourced

/-- Changing the types of a conversion is a move of the pass for conversions. -/
theorem Lawful.rewrites_widen {f : Forest Stage} (h : f.Lawful) (policy : FacetPolicy)
    {other : Nat} {types : ParseTypes} (types' : ParseTypes)
    (ho : f.content? other = some (.parse types)) :
    Rewrites .parse policy f (f.update other fun _ => .parse types') := by
  obtain ⟨fr, up, cs, rfl, rfl⟩ := exists_fill_of_mem (mem_walk_of_content? ho)
  rw [content?_first h.nodup, Option.some_inj] at ho
  rw [update_first h.nodup]
  exact .widen rfl ho types' up cs

/-- In a lawful forest, a stage under one that takes it in has no siblings. -/
theorem Lawful.alone_of_joins {up : List (Frame Stage)} (hf : (fill (fr :: parent :: up) cs).Lawful)
    {c : Stage} (hj : Joins pass parent.content fr.content c) : fr.alone = true := by
  have hmay : parent.content.mayFork = false := Pass.not_mayFork (hj.tag_eq ▸ hj.handled)
  -- the parent may not fork, and this is its child
  have hle := (narrow_close.1 (Narrow.of_fill up hf.narrow)).2.1
  rw [← @Frame.length_roots_close_eq_one fr cs]
  have := hle.resolve_right (by simp [hmay])
  have := Frame.length_roots_close fr cs
  omega

/-- A step of a climb changes the forest by moves of its pass and keeps it lawful. -/
theorem Ascends.rewrites (h : Ascends pass policy ups cs ups' cs' n)
    (hf : (fill ups cs).Lawful) :
    Relation.ReflTransGen (Rewrites pass policy) (fill ups cs) (fill ups' cs') ∧
      (fill ups' cs').Lawful := by
  cases h with
  | stay h up cs => exact ⟨.refl, hf⟩
  | @join fr parent c h hj up cs =>
    have hal := hf.alone_of_joins hj
    obtain ⟨before, i, b, after⟩ := fr
    obtain ⟨rfl, rfl⟩ := Frame.alone_iff.1 hal
    rw [nil_append, append_nil]
    have hr : Rewrites pass policy (fill (parent :: up) (node i b cs nil)) _ :=
      .join hj up i cs
    exact ⟨.single hr, hr.lawful hf (nodup_fill_join hf.nodup c)⟩
  | @rise fr parent dims h hr hal up cs =>
    obtain ⟨before, i, b, after⟩ := fr
    obtain ⟨rfl, rfl⟩ := Frame.alone_iff.1 hal
    have hr : Rewrites pass policy (fill (parent :: up) (node i b cs nil)) _ :=
      .rise hr up i cs
    exact ⟨.single hr, hr.lawful hf (nodup_fill_rise hf.nodup _ _)⟩
  | @absorb fr parent other types types' cs up h hfr ho hne =>
    -- two moves: the other conversion widens, and this one is dropped
    obtain ⟨rfl, -, -⟩ := Frame.parse_of_move h
    have hw := hf.rewrites_widen policy (types'.union types) ho
    have hf' := hw.lawful hf (by rw [walk_update]; exact hf.nodup)
    rw [update_fill, List.map_cons] at hw hf'
    have hfr' : (fr.update other fun _ => .parse (types'.union types)).content = .parse types := by
      rw [Frame.update, if_neg (fun e => hne e.symm), hfr]
    have hd := @Rewrites.drop .parse policy _ _ rfl hfr'
      ((parent :: up).map (Frame.update other fun _ => .parse (types'.union types)))
      (cs.update other fun _ => .parse (types'.union types)) (by simp)
    have hn := (nodup_fill_drop hf'.nodup).1
    simp only [Frame.update_before, Frame.update_after, ← update_append] at hd hn
    exact ⟨.tail (.single hw) hd, hd.lawful hf' hn⟩
  | @relocate fr parent root types h hfr hs up cs =>
    -- two moves: the conversion is dropped, and one like it is put below the source
    obtain ⟨rfl, -, -⟩ := Frame.parse_of_move h
    have hd := @Rewrites.drop .parse policy _ _ rfl hfr (parent :: (up ++ [root])) cs (by simp)
    obtain ⟨hn, hid⟩ := nodup_fill_drop hf.nodup
    have hf' := hd.lawful hf hn
    rw [fill_cons_concat] at hid hf'
    have hput : Rewrites .parse policy
        (fill [root] (fill (parent :: up) (fr.before ++ (cs ++ fr.after))))
        (fill [root] (fill (parent :: up) (fr.before ++ (cs ++ fr.after)) ++
          leaf fr.id fr.content)) := by
      rw [hfr]
      exact .put rfl hs [] _ fr.id types
    have hn' := nodup_fill_put hf'.nodup hid fr.content
    rw [fill_concat, fill_withSibling]
    rw [fill_cons_concat parent up root (fr.before ++ _)] at hd
    exact ⟨.tail (.single hd) hput, hput.lawful hf' hn'⟩

end Forest

namespace Flow

open Forest

/-! ### Running a step -/

variable {flow : Flow} {pass : Pass} {policy : FacetPolicy}

/-- The conversion directly under the source of a stage that the stage is joined into. -/
def present? (flow : Flow) (id : Nat) : Option Nat :=
  (flow.stages.children (flow.stages.rootOf id)).find? fun child =>
    child ≠ id && flow.tag? child = some .parse

/-- Below a source a conversion joins the one that is there, or is put there itself. -/
theorem relocate_run {id : Nat} (hs : flow.tag? (flow.stages.rootOf id) = some .source) :
    relocate id flow = match flow.present? id with
      | some other => merge other id flow
      | none => (do remove id; setParent id (flow.stages.rootOf id) : Edit FlowFault Unit) flow := by
  rw [relocate, Run.bind_ok (Run.get_run flow)]
  simp only [hs, ne_eq, not_true_eq_false, if_false]
  rw [present?]
  cases List.find? _ _ <;> rfl

/-- The first step of a climb, by the move that the pass chooses. -/
theorem climb_cons (pass : Pass) (policy : FacetPolicy) (id parent : Nat) (rest : List Nat)
    (flow : Flow) :
    climb pass policy id (parent :: rest) flow =
      (match moveOf pass policy id parent flow with
      | .stay => climb pass policy parent rest
      | .join => do
        merge parent id
        climb pass policy parent rest
      | .rise dimensions => do
        addDimensions id dimensions
        swapWithParent id
        climb pass policy id rest
      | .relocate => do
        relocate id
        climb pass policy parent rest : Edit FlowFault Unit) flow := by
  rw [climb]
  refine (Run.bind_ok (Run.get_run flow)).trans ?_
  cases moveOf pass policy id parent flow <;> rfl

variable {fr parent : Frame Stage} {up : List (Frame Stage)} {cs : Forest Stage}

/-- What the stages around a hole hold, where no name stands twice. -/
theorem content?_of_mem (hst : flow.stages = fill (fr :: up) cs)
    (hn : flow.stages.walk.Nodup) : flow.stages.content? fr.id = some fr.content := by
  rw [hst] at hn ⊢
  exact content?_first hn

variable (pass policy) in
/-- The move is chosen by the first two frames. -/
theorem moveOf_first (hst : flow.stages = fill (fr :: parent :: up) cs)
    (hn : flow.stages.walk.Nodup) :
    moveOf pass policy fr.id parent.id flow = fr.move pass policy parent := by
  have hc := stage?_of_content? (content?_of_mem hst hn)
  have hst' : flow.stages = fill (parent :: up) (fr.close cs) := hst
  have hp := stage?_of_content? (content?_of_mem hst' hn)
  have hchildren : flow.stages.children parent.id = (fr.close cs).roots := by
    rw [hst'] at hn ⊢
    exact children_first hn
  -- the stage is alone if its parent has no other child
  have hal : decide ((flow.stages.children parent.id).length = 1) = fr.alone := by
    rw [hchildren, Bool.eq_iff_iff, decide_eq_true_iff, Frame.length_roots_close_eq_one]
  rw [moveOf, hc, hp]
  simp only [hal]
  rfl

/-- What one step of a climb does when it is run: afterwards the climb goes on. -/
def StepsTo (pass : Pass) (policy : FacetPolicy) (flow : Flow) (ups : List (Frame Stage))
    (cs : Forest Stage) (run : Except FlowFault Unit × Flow) : Prop :=
  ∃ fr' up' cs' n flow', Ascends pass policy ups cs (fr' :: up') cs' n ∧
    up'.length + 2 = ups.length ∧
    run = climb pass policy fr'.id (up'.map Frame.id) flow' ∧
    flow'.stages = fill (fr' :: up') cs' ∧ flow'.revision = flow.revision + n ∧
    flow'.next = flow.next

/-- A stage is joined into its parent, which keeps the other children. -/
theorem merge_first {c : Stage} (hst : flow.stages = fill (fr :: parent :: up) cs)
    (hn : flow.stages.walk.Nodup) (hj : Joins pass parent.content fr.content c) :
    ∃ flow', merge parent.id fr.id flow = (.ok (), flow') ∧
      flow'.stages = fill ({ parent with content := c } :: up) (fr.before ++ (cs ++ fr.after)) ∧
      flow'.revision = flow.revision + 1 ∧ flow'.next = flow.next := by
  have hn' := hn
  rw [hst] at hn'
  have hne : parent.id ≠ fr.id := (notMem_outside_cons.1 (notMem_of_nodup_fill hn').1).1.2.1
  have hparent : flow.stages.content? parent.id = some parent.content :=
    content?_of_mem (show flow.stages = fill (parent :: up) (fr.close cs) from hst) hn
  obtain ⟨flow', hrun, hst', hrev, hnext⟩ :=
    merge_run hne hparent (content?_of_mem hst hn) hj.merged
  refine ⟨flow', hrun, ?_, hrev, hnext⟩
  -- the parent takes in the stage, which is then dropped from its frame
  have hup : (fill (fr :: parent :: up) cs).update parent.id (fun _ => c) =
      fill (fr :: { parent with content := c } :: up) cs := by
    have hn₁ : (fill (parent :: up) (fr.close cs)).walk.Nodup := hn'
    exact update_first hn₁ _
  have hn₂ : (fill (fr :: { parent with content := c } :: up) cs).walk.Nodup := by
    rw [← hup, walk_update]
    exact hn'
  rw [hst', hst, hup, splice_first hn₂]

/-- A climb where the stage joins its parent. -/
theorem climb_join (hst : flow.stages = fill (fr :: parent :: up) cs)
    (hn : flow.stages.walk.Nodup) (h : fr.move pass policy parent = .join) :
    StepsTo pass policy flow (fr :: parent :: up) cs
      (climb pass policy fr.id (parent.id :: up.map Frame.id) flow) := by
  obtain ⟨c, hj⟩ := Frame.joins_of_move h
  obtain ⟨flow', hrun, hst', hrev, hnext⟩ := merge_first hst hn hj
  refine ⟨_, up, _, 1, flow', .join h hj up cs, by simp, ?_, hst', hrev, hnext⟩
  rw [climb_cons, moveOf_first pass policy hst hn, h]
  exact Run.bind_ok hrun

/-- A stage without siblings is exchanged with its parent. -/
theorem rise_first (hst : flow.stages = fill (fr :: parent :: up) cs)
    (hn : flow.stages.walk.Nodup) (hal : fr.alone = true) (dims : List String) :
    ∃ flow', (do addDimensions fr.id dims; swapWithParent fr.id : Edit FlowFault Unit) flow =
        (.ok (), flow') ∧
      flow'.stages =
        fill ({ parent with id := fr.id, content := fr.content.addDimensions dims } :: up)
          (node parent.id parent.content cs nil) ∧
      flow'.revision = flow.revision + 1 ∧ flow'.next = flow.next := by
  rw [hst] at hn
  have hn' := hn
  obtain ⟨before, i, b, after⟩ := fr
  obtain ⟨rfl, rfl⟩ := Frame.alone_iff.1 hal
  -- first the stage groups by the fields, then it is lifted
  have hst₁ : (flow.updateStage i (Stage.addDimensions dims)).stages =
      fill (parent :: up) (node i (b.addDimensions dims) cs nil) := by
    rw [updateStage, hst]
    exact update_first hn' _
  have hn₁ : (fill (parent :: up) (node i (b.addDimensions dims) cs nil)).walk.Nodup := by
    rw [← hst₁, updateStage, walk_update, hst]
    exact hn
  have hp : (flow.updateStage i (Stage.addDimensions dims)).stages.parent? i = some parent.id := by
    rw [hst₁, parent?]
    have hn₂ : (fill (⟨nil, i, b.addDimensions dims, nil⟩ :: parent :: up) cs).walk.Nodup := hn₁
    have := ancestors_first hn₂
    simp only [Frame.close, fill, nil_append] at this ⊢
    rw [this]
    rfl
  have hc : (flow.updateStage i (Stage.addDimensions dims)).stages.children parent.id = [i] := by
    rw [hst₁, children_first hn₁]
    rfl
  refine ⟨(flow.updateStage i (Stage.addDimensions dims)).restructure (·.lift i), ?_, ?_, rfl, rfl⟩
  · refine (Run.bind_ok (a := ()) rfl).trans ?_
    exact swapWithParent_run hp hc
  · rw [restructure, hst₁, lift_first hn₁]

/-- A climb where the stage rises above its parent. -/
theorem climb_rise (hst : flow.stages = fill (fr :: parent :: up) cs)
    (hn : flow.stages.walk.Nodup) {dims : List String} (h : fr.move pass policy parent = .rise dims) :
    StepsTo pass policy flow (fr :: parent :: up) cs
      (climb pass policy fr.id (parent.id :: up.map Frame.id) flow) := by
  obtain ⟨hr, hal⟩ := Frame.rises_of_move h
  obtain ⟨flow', hrun, hst', hrev, hnext⟩ := rise_first hst hn hal dims
  refine ⟨_, up, _, 1, flow', .rise h hr hal up cs, by simp, ?_, hst', hrev, hnext⟩
  rw [climb_cons, moveOf_first pass policy hst hn, h]
  obtain ⟨⟨⟩, flow₁, hdims, hswap⟩ := Run.bind_eq_ok hrun
  exact (Run.bind_ok hdims).trans (Run.bind_ok hswap)

/-- The root above a stage. -/
theorem rootOf_first {root : Frame Stage} {above : List (Frame Stage)}
    (hst : flow.stages = fill (fr :: (above ++ [root])) cs) (hn : flow.stages.walk.Nodup) :
    flow.stages.rootOf fr.id = root.id := by
  rw [hst] at hn ⊢
  rw [rootOf, ancestors_first hn, List.map_append]
  exact List.getLastD_concat

/-- The conversion that another one is joined into stands in the flow. -/
theorem content?_of_present? {root : Frame Stage}
    (hst : flow.stages = fill (fr :: parent :: (up ++ [root])) cs)
    (hn : flow.stages.walk.Nodup) {other : Nat} (h : flow.present? fr.id = some other) :
    ∃ types, other ≠ fr.id ∧ flow.stages.content? other = some (.parse types) := by
  have hfind := List.find?_some h
  simp only [ne_eq, Bool.and_eq_true, decide_eq_true_eq] at hfind
  obtain ⟨hne, htag⟩ := hfind
  -- it is a child of the root, so it is in the forest
  have hmem : other ∈ flow.stages.walk := by
    have hm := List.mem_of_find?_eq_some h
    rw [← List.cons_append] at hst
    rw [rootOf_first hst hn] at hm
    rw [hst, fill_cons_concat] at hn hm ⊢
    rw [children_first hn] at hm
    rw [(walk_fill_perm _ _).mem_iff]
    exact List.mem_append_right _ (mem_walk_of_mem_roots hm)
  obtain ⟨e, he⟩ := Option.isSome_iff_exists.1 (contains_iff.2 hmem)
  have hc : flow.stages.content? other = some e.1 := by rw [content?, he]; rfl
  rw [tag?_of_content? hc, Option.some_inj] at htag
  obtain ⟨types, ht⟩ : ∃ types, e.1 = .parse types := by
    revert htag
    generalize e.1 = a
    cases a <;> simp [Stage.tag]
  exact ⟨types, hne, ht ▸ hc⟩

/-- A conversion is put right below its source, and the climb can go on from its parent. -/
theorem relocate_first (hst : flow.stages = fill (fr :: parent :: up) cs)
    (hn : flow.stages.walk.Nodup) (h : fr.move pass policy parent = .relocate)
    (hsource : ∀ above root, parent :: up = above ++ [root] → root.content.tag = .source) :
    ∃ fr' up' cs' n flow', Ascends pass policy (fr :: parent :: up) cs (fr' :: up') cs' n ∧
      fr'.id = parent.id ∧ up'.map Frame.id = up.map Frame.id ∧
      relocate fr.id flow = (.ok (), flow') ∧ flow'.stages = fill (fr' :: up') cs' ∧
      flow'.revision = flow.revision + n ∧ flow'.next = flow.next := by
  have hn' := hn
  rw [hst] at hn'
  obtain ⟨rfl, ⟨types, hfr⟩, hns⟩ := Frame.parse_of_move h
  -- the parent is no source, so the root is another stage
  obtain rfl | ⟨up, root, rfl⟩ := List.eq_nil_or_concat' up
  · exact absurd (hsource [] parent rfl) hns
  have hs := hsource (parent :: up) root rfl
  have hroot : flow.stages.rootOf fr.id = root.id :=
    @rootOf_first flow fr cs root (parent :: up) hst hn
  have hst₁ : flow.stages = fill [root] (fill (fr :: parent :: up) cs) := by
    rw [hst, ← List.cons_append, ← List.cons_append, fill_concat]
  have hcroot : flow.stages.content? root.id = some root.content := content?_of_mem hst₁ hn
  have hrun := @relocate_run flow fr.id
    (by rw [hroot, tag?_of_content? hcroot, hs])
  -- either there is such a conversion below the source, or the stage becomes one
  cases hpres : flow.present? fr.id with
  | some other =>
    rw [hpres] at hrun
    obtain ⟨types', hne, ho⟩ := content?_of_present? hst hn hpres
    -- two conversions join by the union of their types
    have hmerge : (Stage.parse types').merge? fr.content = some (.parse (types'.union types)) := by
      rw [hfr]
      rfl
    obtain ⟨flow', hrun', hst', hrev, hnext⟩ :=
      merge_run hne ho (content?_of_mem hst hn) hmerge
    rw [hst] at ho
    have hstep : Ascends .parse policy _ _ _ _ _ := .absorb h hfr ho hne
    refine ⟨_, _, _, 1, flow', hstep, rfl, by simp [Function.comp_def], hrun.trans hrun', ?_, hrev,
      hnext⟩
    have hn₂ : (fill ((fr :: parent :: (up ++ [root])).map
        (Frame.update other fun _ => .parse (types'.union types)))
        (cs.update other fun _ => .parse (types'.union types))).walk.Nodup := by
      rw [← update_fill, walk_update]
      exact hn'
    rw [hst', hst, update_fill, List.map_cons, ← Frame.update_id other, splice_first hn₂]
    simp
  | none =>
    rw [hpres] at hrun
    have hsp : flow.stages.splice fr.id =
        fill [root] (fill (parent :: up) (fr.before ++ (cs ++ fr.after))) := by
      rw [hst, splice_first hn', fill_cons_concat]
    obtain ⟨hn₂, hid⟩ := nodup_fill_drop hn'
    rw [fill_cons_concat, ← hsp] at hn₂ hid
    -- the root is still there without the stage, and nothing is above it
    have hin : root.id ∈ (flow.stages.splice fr.id).walk := by
      rw [hsp, (walk_fill_perm _ _).mem_iff]
      simp [outside, Frame.names]
    have hne : fr.id ≠ root.id := fun e => hid (e ▸ hin)
    rw [hsp] at hn₂
    have hanc : (flow.stages.splice fr.id).ancestors root.id = [] := by
      rw [hsp, ancestors_first hn₂]
      rfl
    obtain ⟨flow', hrun', hst', hrev, hnext⟩ :=
      remove_setParent_run (content?_of_mem hst hn) hne hid hin hanc
    have hstep : Ascends .parse policy _ _ _ _ _ := .relocate h hfr hs up cs
    obtain ⟨parent', up', hsib, hid', hup'⟩ :=
      exists_withSibling_cons (leaf fr.id fr.content) parent up
    rw [hsib] at hstep
    refine ⟨parent', up' ++ [root], _, 2, flow', hstep, hid', ?_, hrun.trans (hroot ▸ hrun'), ?_,
      hrev, hnext⟩
    · rw [List.map_append, List.map_append, hup']
    · rw [hst', hsp, attach_first hn₂, ← fill_withSibling, hsib, ← fill_cons_concat]

/-- A climb where a conversion is put below its source. -/
theorem climb_relocate (hst : flow.stages = fill (fr :: parent :: up) cs)
    (hn : flow.stages.walk.Nodup) (h : fr.move pass policy parent = .relocate)
    (hsource : ∀ above root, parent :: up = above ++ [root] → root.content.tag = .source) :
    StepsTo pass policy flow (fr :: parent :: up) cs
      (climb pass policy fr.id (parent.id :: up.map Frame.id) flow) := by
  obtain ⟨fr', up', cs', n, flow', hstep, hid, hup, hrun, hst', hrev, hnext⟩ :=
    relocate_first hst hn h hsource
  refine ⟨fr', up', cs', n, flow', hstep, by simpa using congrArg List.length hup, ?_, hst', hrev,
    hnext⟩
  rw [climb_cons, moveOf_first pass policy hst hn, h, hid, hup]
  exact Run.bind_ok hrun

/-- A conversion that is not below a source cannot be put there. -/
theorem climb_relocate_error (hst : flow.stages = fill (fr :: parent :: up) cs)
    (hn : flow.stages.walk.Nodup) (h : fr.move pass policy parent = .relocate)
    {above : List (Frame Stage)} {root : Frame Stage} (habove : parent :: up = above ++ [root])
    (hs : root.content.tag ≠ .source) :
    ∃ fault flow', climb pass policy fr.id (parent.id :: up.map Frame.id) flow =
      (.error fault, flow') := by
  have hst' : flow.stages = fill (fr :: (above ++ [root])) cs := habove ▸ hst
  have hst₁ : flow.stages = fill [root] (fill (fr :: above) cs) := by
    rw [hst', fill_cons_concat]
  have hcroot : flow.stages.content? root.id = some root.content := content?_of_mem hst₁ hn
  refine ⟨.notRootedAtSource fr.id, flow, ?_⟩
  rw [climb_cons, moveOf_first pass policy hst hn, h]
  -- the root is looked at first, and nothing has been changed then
  refine Run.bind_error ?_
  rw [relocate, Run.bind_ok (Run.get_run flow), rootOf_first hst' hn, tag?_of_content? hcroot]
  simp only [ne_eq, Option.some.injEq, hs, not_false_eq_true, if_true]
  exact Run.bind_error rfl

variable (pass policy) in
/-- Where no name stands twice, the climb from a stage takes one step after the other, or fails. -/
theorem climb_step_or (hst : flow.stages = fill (fr :: parent :: up) cs)
    (hn : flow.stages.walk.Nodup) :
    StepsTo pass policy flow (fr :: parent :: up) cs
      (climb pass policy fr.id (parent.id :: up.map Frame.id) flow) ∨
    (∃ fault flow', climb pass policy fr.id (parent.id :: up.map Frame.id) flow =
      (.error fault, flow')) ∧
      ∃ above root, parent :: up = above ++ [root] ∧ root.content.tag ≠ .source := by
  cases h : fr.move pass policy parent with
  | stay =>
    refine .inl ⟨parent, up, _, 0, flow, .stay h up cs, by simp, ?_, hst, rfl, rfl⟩
    rw [climb_cons, moveOf_first pass policy hst hn, h]
  | join => exact .inl (climb_join hst hn h)
  | rise dims => exact .inl (climb_rise hst hn h)
  | relocate =>
    by_cases hsource : ∀ above root, parent :: up = above ++ [root] → root.content.tag = .source
    · exact .inl (climb_relocate hst hn h hsource)
    · push Not at hsource
      obtain ⟨above, root, habove, hs⟩ := hsource
      exact .inr ⟨climb_relocate_error hst hn h habove hs, above, root, habove, hs⟩

variable (pass policy) in
/-- Where every tree begins with a source, the climb from a stage takes one step after the other. -/
theorem climb_step (hst : flow.stages = fill (fr :: parent :: up) cs)
    (hf : flow.stages.Grounded) :
    StepsTo pass policy flow (fr :: parent :: up) cs
      (climb pass policy fr.id (parent.id :: up.map Frame.id) flow) := by
  refine (climb_step_or pass policy hst hf.nodup).resolve_right ?_
  rintro ⟨-, above, root, habove, hs⟩
  rw [hst, habove, ← List.cons_append] at hf
  exact hs hf.sourced.source_of_fill_concat

end Flow

end ChartPipeline
