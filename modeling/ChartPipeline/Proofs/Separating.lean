import ChartPipeline.Proofs.Hoisted
import ChartPipeline.Proofs.Settling

/-!
# Passes treat trees apart

What a pass makes of a tree depends neither on the trees beside it nor on the names in it, and only
conversions see what else stands below their source.  So what passes make of several charts below
shared sources is put together of what they make of each chart alone.

## Key results

- `hoist_recast`, `ends_recast`: passes over a copy
- `hoist_append`, `ends_append`: passes over trees side by side
- `under_hoist`, `ends_iff`: passes over what stands below the sources
-/

namespace ChartPipeline

namespace Stage

variable {σ : Source → Source}

/-- Two stages join in a copy as they do. -/
theorem recast_joined (a b : Stage) : (a.joined b).recast σ = (a.recast σ).joined (b.recast σ) := by
  cases a <;> cases b <;> rfl

/-- A stage takes in dimensions in a copy as it does. -/
theorem recast_addDimensions (dims : List String) (a : Stage) :
    (a.addDimensions dims).recast σ = (a.recast σ).addDimensions dims := by
  cases a <;> rfl

end Stage

namespace Forest

variable {pass : Pass} {policy : FacetPolicy} {passes : List Pass} {n : Nat}

/-! ### Copies -/

section Recast

variable {ρ : Nat → Nat} {σ : Source → Source} {f cs : Forest Stage} {fr parent : Frame Stage}
  {up ups : List (Frame Stage)} {id : Nat} {a : Stage}

/-- The frame in a copy. -/
def Frame.recast (ρ : Nat → Nat) (σ : Source → Source) (fr : Frame Stage) : Frame Stage where
  before := fr.before.recast ρ σ
  id := ρ fr.id
  content := fr.content.recast σ
  after := fr.after.recast ρ σ

/-- A frame closes in a copy to the copy of what it closes to. -/
theorem Frame.recast_close :
    (fr.close cs).recast ρ σ = (fr.recast ρ σ).close (cs.recast ρ σ) := by
  simp [close, Frame.recast]

/-- A stage moves as it does in a copy: a source is left where it is, whichever it is. -/
theorem Frame.move_recast : (fr.recast ρ σ).move pass policy (parent.recast ρ σ) =
    fr.move pass policy parent := by
  have hpassage : Move.passage? policy (fr.content.recast σ) (parent.content.recast σ) =
      Move.passage? policy fr.content parent.content := by
    cases fr.content <;> cases parent.content <;> rfl
  have halone : (fr.recast ρ σ).alone = fr.alone := by
    simp only [alone, Frame.recast, isEmpty_recast]
  have hfr : (fr.recast ρ σ).content = fr.content.recast σ := rfl
  have hparent : (parent.recast ρ σ).content = parent.content.recast σ := rfl
  simp only [move, Move.choose, halone, hfr, hparent, hpassage, Stage.tag_recast]

/-- A copy has a conversion at its roots where the forest has one. -/
theorem hasParse_recast : Assembly.hasParse (f.recast ρ σ) = Assembly.hasParse f := by
  induction f with
  | nil => rfl
  | node i b cs rest _ ih => simp only [recast_node, Assembly.hasParse, Stage.tag_recast, ih]

/-- A conversion is put right below a source in a copy as it is there. -/
theorem load_recast :
    (f.load id a).recast ρ σ = (f.recast ρ σ).load (ρ id) (a.recast σ) := by
  induction f with
  | nil => rfl
  | node i b cs rest _ ih =>
    rw [recast_node, load, load, Stage.tag_recast]
    split
    · rw [recast_node, Stage.recast_joined]
    · rw [recast_node, ih]

/-- So it is beside the node of a frame. -/
theorem Frame.load_recast :
    (fr.load id a).recast ρ σ = (fr.recast ρ σ).load (ρ id) (a.recast σ) := by
  have hbefore : (fr.recast ρ σ).before = fr.before.recast ρ σ := rfl
  have hcontent : (fr.recast ρ σ).content = fr.content.recast σ := rfl
  rw [Frame.load, Frame.load, hbefore, hcontent, hasParse_recast, Stage.tag_recast]
  split
  · simp only [Frame.recast, Forest.load_recast]
  · split
    · simp only [Frame.recast, Stage.recast_joined]
    · simp only [Frame.recast, Forest.load_recast]

/-- So it is below the root that the outermost frame is. -/
theorem loadUp_recast : (loadUp id a ups).map (Frame.recast ρ σ) =
    loadUp (ρ id) (a.recast σ) (ups.map (Frame.recast ρ σ)) := by
  fun_induction loadUp id a ups with
  | case1 | case2 => rfl
  | case3 fr root => simp only [List.map_cons, List.map_nil, Frame.load_recast, loadUp]
  | case4 fr fr' fr'' up ih => rw [List.map_cons, ih]; rfl

/-- Every step of a climb in a copy is the copy of that step. -/
theorem ascend_recast : ascend pass policy (fr.recast ρ σ) (parent.recast ρ σ)
      (up.map (Frame.recast ρ σ)) (cs.recast ρ σ) =
    ⟨(ascend pass policy fr parent up cs).ups.map (Frame.recast ρ σ),
      (ascend pass policy fr parent up cs).below.recast ρ σ,
      (ascend pass policy fr parent up cs).moved⟩ := by
  have hbelow : (fr.before ++ (cs ++ fr.after)).recast ρ σ =
      (fr.recast ρ σ).before ++ (cs.recast ρ σ ++ (fr.recast ρ σ).after) := by
    rw [recast_append, recast_append]
    rfl
  have hload := @loadUp_recast ρ σ (parent :: up) fr.id fr.content
  simp only [ascend, Frame.move_recast]
  -- the same move is made in both
  cases fr.move pass policy parent with
  | stay => simp only [List.map_cons, Frame.recast_close]
  | join => simp only [List.map_cons, hbelow, Frame.recast, Stage.recast_joined]
  | rise dims => simp only [List.map_cons, recast_node, Frame.recast, Stage.recast_addDimensions,
      recast_nil]
  | relocate => simp only [hbelow, hload, List.map_cons]; rfl

/-- So is a whole climb. -/
theorem climb_recast : climb pass policy (ups.map (Frame.recast ρ σ)) (cs.recast ρ σ) =
    ((climb pass policy ups cs).1.recast ρ σ, (climb pass policy ups cs).2) := by
  fun_induction climb pass policy ups cs with
  | case1 => rw [List.map_nil, climb]
  | case2 fr cs => rw [List.map_cons, List.map_nil, climb, Frame.recast_close]
  | case3 fr parent up cs a r ih =>
    rw [List.map_cons, List.map_cons, climb, ascend_recast]
    simp only [a, r] at ih ⊢
    rw [ih]

/-- Trees put beside everything are copied with it. -/
theorem beside_recast {before after : Forest Stage} :
    (beside before after ups).map (Frame.recast ρ σ) =
      beside (before.recast ρ σ) (after.recast ρ σ) (ups.map (Frame.recast ρ σ)) := by
  fun_induction beside before after ups with
  | case1 => rfl
  | case2 root => simp [beside, Frame.recast]
  | case3 fr fr' up ih => rw [List.map_cons, ih]; rfl

/-- A node is found in a copy where it is found in the forest, as different names stay different. -/
theorem focus?_recast (hρ : ρ.Injective) : (f.recast ρ σ).focus? (ρ id) =
    (f.focus? id).map fun e => (e.1.map (Frame.recast ρ σ), e.2.recast ρ σ) := by
  induction f with
  | nil => rfl
  | node i a cs rest ihc ihr =>
    rw [recast_node, focus?, focus?]
    by_cases hi : i = id
    · rw [if_pos hi, if_pos (congrArg ρ hi)]
      rfl
    · rw [if_neg hi, if_neg (hρ.ne hi), ihc, ihr]
      cases cs.focus? id with
      | some e => simp [Frame.recast]
      | none =>
        cases rest.focus? id with
        | some e => simp [beside_recast]
        | none => rfl

/-- A sweep over a copy makes the copy of what it makes of the forest. -/
theorem sweep_recast (hρ : ρ.Injective) (ids : List Nat) :
    sweep pass policy (ids.map ρ) (f.recast ρ σ) =
      ((sweep pass policy ids f).1.recast ρ σ, (sweep pass policy ids f).2) := by
  induction ids generalizing f with
  | nil => rfl
  | cons id ids ih =>
    rw [List.map_cons, sweep, sweep, focus?_recast hρ]
    cases f.focus? id with
    | none => exact ih
    | some e => simp only [Option.map_some, climb_recast, ih]

/-- So does a sweep over all leaves. -/
theorem round_recast (hρ : ρ.Injective) : round pass policy (f.recast ρ σ) =
    ((round pass policy f).1.recast ρ σ, (round pass policy f).2) := by
  rw [round, leaves_recast, sweep_recast hρ, round]

/-- So do several sweeps. -/
theorem rounds_recast (hρ : ρ.Injective) :
    rounds pass policy n (f.recast ρ σ) = (rounds pass policy n f).recast ρ σ := by
  induction n generalizing f with
  | zero => rfl
  | succ n ih =>
    simp only [rounds, Function.iterate_succ_apply, round_recast hρ] at ih ⊢
    exact ih

/-- A pass rests in a copy exactly if it rests in the forest. -/
theorem rests_recast (hρ : ρ.Injective) :
    Rests pass policy (f.recast ρ σ) ↔ Rests pass policy f := by
  rw [Rests, round_recast hρ, Rests]

/-- Passes make of a copy a copy of what they make of the forest. -/
theorem hoist_recast (hρ : ρ.Injective) :
    hoist policy n passes (f.recast ρ σ) = (hoist policy n passes f).recast ρ σ := by
  induction passes generalizing f with
  | nil => rfl
  | cons pass passes ih => rw [hoist, rounds_recast hρ, ih, hoist]

/-- Passes come to their ends in a copy exactly if they do in the forest. -/
theorem ends_recast (hρ : ρ.Injective) :
    Ends policy n passes (f.recast ρ σ) ↔ Ends policy n passes f := by
  induction passes generalizing f with
  | nil => exact Iff.rfl
  | cons pass passes ih => rw [Ends, Ends, rounds_recast hρ, rests_recast hρ, ih]

end Recast

/-! ### Names that are left -/

section Subset

variable {f cs : Forest Stage} {fr parent : Frame Stage} {up ups : List (Frame Stage)}
  {id i : Nat} {a : Stage} {ids : List Nat}

/-- A name stands around a hole or in it. -/
theorem mem_walk_fill {t : Forest Stage} :
    i ∈ (fill up t).walk ↔ i ∈ outside up ∨ i ∈ t.walk := by
  rw [(walk_fill_perm up t).mem_iff, List.mem_append]

/-- A conversion put right below a source brings its own name only. -/
theorem mem_walk_load (h : i ∈ (f.load id a).walk) : i = id ∨ i ∈ f.walk := by
  induction f with
  | nil => simpa [load, leaf] using h
  | node j b cs rest _ ih =>
    rw [load] at h
    split at h
    · exact .inr (by simpa using h)
    · simp only [walk_node, List.mem_cons, List.mem_append] at h ⊢
      rcases h with h | h | h
      · exact .inr (.inl h)
      · exact .inr (.inr (.inl h))
      · exact (ih h).imp_right fun h => .inr (.inr h)

/-- So it does beside the node of a frame. -/
theorem Frame.mem_names_load (h : i ∈ (fr.load id a).names) : i = id ∨ i ∈ fr.names := by
  rw [Frame.load] at h
  simp only [names, List.mem_append, List.mem_cons] at h ⊢
  split at h
  · rcases h with h | h
    · exact (mem_walk_load h).imp_right .inl
    · exact .inr (.inr h)
  · split at h
    · exact .inr h
    · rcases h with h | h | h
      · exact .inr (.inl h)
      · exact .inr (.inr (.inl h))
      · exact (mem_walk_load h).imp_right fun h => .inr (.inr h)

/-- So it does below the root that the outermost frame is. -/
theorem mem_outside_loadUp (h : i ∈ outside (loadUp id a ups)) : i = id ∨ i ∈ outside ups := by
  fun_induction loadUp id a ups with
  | case1 | case2 => exact .inr h
  | case3 fr root =>
    simp only [outside_cons, List.mem_append] at h ⊢
    rcases h with h | h
    · exact (Frame.mem_names_load h).imp_right .inl
    · exact .inr (.inr h)
  | case4 fr fr' fr'' up ih =>
    rw [outside_cons, List.mem_append] at h ⊢
    rcases h with h | h
    · exact .inr (.inl h)
    · exact (ih h).imp_right .inr

/-- A step of a climb brings no new names. -/
theorem mem_walk_ascend
    (h : i ∈ (fill (ascend pass policy fr parent up cs).ups
      (ascend pass policy fr parent up cs).below).walk) :
    i ∈ (fill (fr :: parent :: up) cs).walk := by
  rw [mem_walk_fill] at h ⊢
  simp only [ascend] at h
  split at h
  · simp only [outside_cons, Frame.names, Frame.close, walk_append, walk_node, List.mem_append,
      List.mem_cons] at h ⊢
    tauto
  · simp only [outside_cons, Frame.names, walk_append, List.mem_append, List.mem_cons] at h ⊢
    tauto
  · simp only [outside_cons, Frame.names, walk_node, walk_nil, List.append_nil, List.mem_append,
      List.mem_cons] at h ⊢
    tauto
  -- a conversion that is put below its source had its name before
  · rcases h with h | h
    · rcases mem_outside_loadUp h with rfl | h
      · simp [Frame.names]
      · rw [outside_cons, List.mem_append]
        exact .inl (.inr h)
    · simp only [outside_cons, Frame.names, walk_append, List.mem_append, List.mem_cons] at h ⊢
      tauto

/-- A climb brings no new names. -/
theorem mem_walk_climb (h : i ∈ (climb pass policy ups cs).1.walk) :
    i ∈ (fill ups cs).walk := by
  fun_induction climb pass policy ups cs with
  | case1 | case2 => exact h
  | case3 fr parent up cs a r ih => exact mem_walk_ascend (ih h)

/-- Nor does a sweep. -/
theorem mem_walk_sweep (h : i ∈ (sweep pass policy ids f).1.walk) : i ∈ f.walk := by
  induction ids generalizing f with
  | nil => exact h
  | cons id ids ih =>
    rw [sweep] at h
    cases hfocus : f.focus? id with
    | none => exact ih (by rwa [hfocus] at h)
    | some e =>
      obtain ⟨ups, cs⟩ := e
      obtain ⟨-, -, -, -, rfl⟩ := fill_of_focus? hfocus
      rw [hfocus] at h
      exact mem_walk_climb (ih h)

/-- Nor do several sweeps. -/
theorem mem_walk_rounds (h : i ∈ (rounds pass policy n f).walk) : i ∈ f.walk := by
  induction n generalizing f with
  | zero => exact h
  | succ n ih => exact mem_walk_sweep (ih (by rwa [rounds, Function.iterate_succ_apply] at h))

/-- Passes bring no new names. -/
theorem mem_walk_hoist (h : i ∈ (hoist policy n passes f).walk) : i ∈ f.walk := by
  induction passes generalizing f with
  | nil => exact h
  | cons pass passes ih => exact mem_walk_rounds (ih h)

end Subset

/-! ### Trees side by side -/

section Append

variable {f g cs before after : Forest Stage} {fr parent : Frame Stage}
  {up ups : List (Frame Stage)} {id : Nat} {a : Stage} {ids : List Nat}

/-- Only the outermost frame gets trees beside it. -/
theorem beside_cons_cons : beside before after (fr :: parent :: up) =
    fr :: beside before after (parent :: up) :=
  rfl

/-- Trees beside everything are not where a conversion is put. -/
theorem loadUp_beside : loadUp id a (beside before after ups) =
    beside before after (loadUp id a ups) := by
  fun_induction loadUp id a ups with
  | case1 | case2 | case3 => rfl
  | case4 fr fr' fr'' up ih =>
    -- the function looks at three frames: there are as many with the trees beside the last one
    obtain ⟨fr₁, fr₂, up₁, h⟩ : ∃ fr₁ fr₂ up₁,
        beside before after (fr' :: fr'' :: up) = fr₁ :: fr₂ :: up₁ := by
      cases up <;> exact ⟨_, _, _, rfl⟩
    obtain ⟨fr₃, up₃, h'⟩ : ∃ fr₃ up₃, loadUp id a (fr' :: fr'' :: up) = fr₃ :: up₃ := by
      cases up <;> exact ⟨_, _, rfl⟩
    rw [beside_cons_cons, h, loadUp, ← h, ih, h', beside_cons_cons]

/-- A climb does not look beside the tree that it is in. -/
theorem climb_beside (hups : ups ≠ []) : climb pass policy (beside before after ups) cs =
    (before ++ ((climb pass policy ups cs).1 ++ after), (climb pass policy ups cs).2) := by
  fun_induction climb pass policy ups cs with
  | case1 => exact absurd rfl hups
  | case2 fr cs => simp [beside, climb, Frame.close, append_assoc]
  | case3 fr parent up cs a r ih =>
    obtain ⟨parent', up', hbeside⟩ := exists_cons_beside before after parent up
    -- what the climb reads of the next frame, which may be the outermost one
    have hcontent : parent'.content = parent.content ∧ parent'.id = parent.id ∧
        ∀ id b, beside before after ({ parent with id := id, content := b } :: up) =
          { parent' with id := id, content := b } :: up' := by
      cases up <;> (obtain ⟨rfl, rfl⟩ := List.cons.inj hbeside; exact ⟨rfl, rfl, fun _ _ => rfl⟩)
    have hmove : fr.move pass policy parent' = fr.move pass policy parent := by
      simp only [Frame.move, hcontent.1]
    have hascend : ascend pass policy fr parent' up' cs =
        { a with ups := beside before after a.ups } := by
      simp only [a, ascend, hmove, hcontent.1, hcontent.2.1]
      cases fr.move pass policy parent with
      | stay => simp only [hbeside]
      | join => simp only [hcontent.2.2, ← hcontent.2.1]
      | rise dims => simp only [hcontent.2.2]
      | relocate => simp only [← hbeside, loadUp_beside]
    -- a step leaves frames, so there is still one to put the trees beside
    have hne : a.ups ≠ [] := by
      intro h
      have := length_ascend pass policy fr parent up cs
      simp only [a] at h
      simp [h] at this
    rw [beside_cons_cons, hbeside, climb, hascend]
    simp only [r] at ih ⊢
    rw [ih hne]

/-- Trees can be put beside everything one after the other. -/
theorem beside_beside {before' after' : Forest Stage} :
    beside before after (beside before' after' ups) =
      beside (before ++ before') (after' ++ after) ups := by
  fun_induction beside before' after' ups with
  | case1 => rfl
  | case2 root => simp [beside, append_assoc]
  | case3 fr fr' up ih =>
    obtain ⟨fr₁, up₁, h⟩ := exists_cons_beside before' after' fr' up
    rw [h, beside_cons_cons, ← h, ih]
    rfl

/-- Beside a root that is the outermost frame, trees come after those there. -/
theorem beside_append_frame {i : Nat} {rest : Forest Stage} :
    beside before after (ups ++ [⟨nil, i, a, rest⟩]) =
      ups ++ [⟨before, i, a, rest ++ after⟩] := by
  induction ups with
  | nil => simp [beside]
  | cons fr up ih =>
    obtain ⟨fr₁, up₁, h⟩ : ∃ fr₁ up₁, up ++ [⟨nil, i, a, rest⟩] = fr₁ :: up₁ := by
      cases up <;> exact ⟨_, _, rfl⟩
    rw [List.cons_append, h, beside_cons_cons, ← h, ih, List.cons_append]

/-- A node is looked for in the first of two forests before the second. -/
theorem focus?_append : (f ++ g).focus? id =
    match f.focus? id with
    | some e => some (beside nil g e.1, e.2)
    | none => (g.focus? id).map fun e => (beside f nil e.1, e.2) := by
  induction f with
  | nil =>
    rw [nil_append, focus?]
    cases h : g.focus? id with
    | none => rfl
    | some e =>
      have hnil (ups : List (Frame Stage)) : beside nil nil ups = ups := by
        fun_induction beside nil nil ups with
        | case1 => rfl
        | case2 root => simp
        | case3 fr fr' up ih => rw [ih]
      simp [hnil]
  | node i b cs rest _ ih =>
    rw [node_append, focus?, focus?]
    -- the first tree is searched before the others, and those before the second forest
    by_cases hi : i = id
    · simp only [if_pos hi]
      rfl
    · simp only [if_neg hi]
      cases cs.focus? id with
      | some e => simp [beside_append_frame]
      | none =>
        rw [ih]
        cases rest.focus? id with
        | some e => simp [beside_beside]
        | none => cases g.focus? id <;> simp [beside_beside]

/-- A sweep over names of the first forest leaves the second one as it is. -/
theorem sweep_append_left (hids : ∀ id ∈ ids, id ∉ g.walk) : sweep pass policy ids (f ++ g) =
    ((sweep pass policy ids f).1 ++ g, (sweep pass policy ids f).2) := by
  induction ids generalizing f with
  | nil => rfl
  | cons id ids ih =>
    have hids' := fun id hid => hids id (List.mem_cons_of_mem _ hid)
    rw [sweep, sweep, focus?_append, focus?_eq_none.2 (hids id List.mem_cons_self)]
    cases hfocus : f.focus? id with
    | none => exact ih hids'
    | some e =>
      obtain ⟨fr, up, hups, -, -⟩ := fill_of_focus? hfocus
      simp only [climb_beside (hups ▸ List.cons_ne_nil fr up), nil_append, ih hids']

/-- A sweep over names of the second forest leaves the first one as it is. -/
theorem sweep_append_right (hids : ∀ id ∈ ids, id ∉ f.walk) : sweep pass policy ids (f ++ g) =
    (f ++ (sweep pass policy ids g).1, (sweep pass policy ids g).2) := by
  induction ids generalizing g with
  | nil => rfl
  | cons id ids ih =>
    have hids' := fun id hid => hids id (List.mem_cons_of_mem _ hid)
    rw [sweep, sweep, focus?_append, focus?_eq_none.2 (hids id List.mem_cons_self)]
    cases hfocus : g.focus? id with
    | none => exact ih hids'
    | some e =>
      obtain ⟨fr, up, hups, -, -⟩ := fill_of_focus? hfocus
      simp only [Option.map_some, climb_beside (hups ▸ List.cons_ne_nil fr up), append_nil,
        ih hids']

/-- A sweep is one over the first names and then one over the others. -/
theorem sweep_append (ids ids' : List Nat) : sweep pass policy (ids ++ ids') f =
    ((sweep pass policy ids' (sweep pass policy ids f).1).1,
      (sweep pass policy ids f).2 || (sweep pass policy ids' (sweep pass policy ids f).1).2) := by
  induction ids generalizing f with
  | nil => simp [sweep]
  | cons id ids ih =>
    rw [List.cons_append, sweep, sweep]
    cases f.focus? id with
    | none => exact ih
    | some e => simp only [ih, Bool.or_assoc]

/-- No name stands in both forests. -/
def Separate (f g : Forest Stage) : Prop := ∀ id ∈ f.walk, id ∉ g.walk

/-- Fewer names are as separate. -/
theorem Separate.mono {f' g' : Forest Stage} (h : Separate f g) (hf : ∀ id ∈ f'.walk, id ∈ f.walk)
    (hg : ∀ id ∈ g'.walk, id ∈ g.walk) : Separate f' g' :=
  fun id hid hid' => h id (hf id hid) (hg id hid')

/-- Where no name stands twice, trees side by side have different names. -/
theorem separate_of_nodup (h : (f ++ g).walk.Nodup) : Separate f g := by
  rw [walk_append, List.nodup_append] at h
  exact fun id hid hid' => h.2.2 id hid id hid' rfl

/-- A sweep over all leaves treats separate trees apart. -/
theorem round_append (h : Separate f g) : round pass policy (f ++ g) =
    ((round pass policy f).1 ++ (round pass policy g).1,
      (round pass policy f).2 || (round pass policy g).2) := by
  have hleft : ∀ id ∈ f.leaves, id ∉ g.walk := fun id hid => h id (leaves_subset_walk _ hid)
  have hright : ∀ id ∈ g.leaves, id ∉ (sweep pass policy f.leaves f).1.walk :=
    fun id hid hid' => h id (mem_walk_sweep hid') (leaves_subset_walk _ hid)
  rw [round, leaves_append, sweep_append, sweep_append_left hleft]
  simp only [sweep_append_right hright]
  rfl

/-- So do several sweeps. -/
theorem rounds_append (h : Separate f g) : rounds pass policy n (f ++ g) =
    rounds pass policy n f ++ rounds pass policy n g := by
  induction n generalizing f g with
  | zero => rfl
  | succ n ih =>
    simp only [rounds, Function.iterate_succ_apply, round_append h] at ih ⊢
    exact ih (h.mono (fun _ => mem_walk_sweep) fun _ => mem_walk_sweep)

/-- A pass rests where it does in each of the trees. -/
theorem rests_append (h : Separate f g) :
    Rests pass policy (f ++ g) ↔ Rests pass policy f ∧ Rests pass policy g := by
  rw [Rests, round_append h, Rests, Rests]
  exact Bool.or_eq_false_iff

/-- What passes make of trees side by side is put together of what they make of each. -/
theorem hoist_append (h : Separate f g) : hoist policy n passes (f ++ g) =
    hoist policy n passes f ++ hoist policy n passes g := by
  induction passes generalizing f g with
  | nil => rfl
  | cons pass passes ih =>
    rw [hoist, rounds_append h, ih (h.mono (fun _ => mem_walk_rounds) fun _ => mem_walk_rounds),
      hoist, hoist]

/-- Passes treat the first tree and those after it apart. -/
theorem hoist_node {rest : Forest Stage} {i : Nat} (hn : (node i a cs rest).walk.Nodup) :
    hoist policy n passes (node i a cs rest) =
      hoist policy n passes (node i a cs nil) ++ hoist policy n passes rest :=
  hoist_append (f := node i a cs nil) (separate_of_nodup (g := rest) hn)

/-- Passes come to their ends where they do in each of the trees. -/
theorem ends_append (h : Separate f g) :
    Ends policy n passes (f ++ g) ↔ Ends policy n passes f ∧ Ends policy n passes g := by
  induction passes generalizing f g with
  | nil => simp [Ends]
  | cons pass passes ih =>
    have h' : Separate (rounds pass policy n f) (rounds pass policy n g) :=
      h.mono (fun _ => mem_walk_rounds) fun _ => mem_walk_rounds
    rw [Ends, rounds_append h, rests_append h', ih h', Ends, Ends, and_and_and_comm]

/-- Passes come to their ends where they do in the first tree and in those after it. -/
theorem ends_node {rest : Forest Stage} {i : Nat} (hn : (node i a cs rest).walk.Nodup) :
    Ends policy n passes (node i a cs rest) ↔
      Ends policy n passes (node i a cs nil) ∧ Ends policy n passes rest :=
  ends_append (f := node i a cs nil) (separate_of_nodup (g := rest) hn)

end Append

/-! ### Below a source -/

section Below

variable {f cs : Forest Stage} {fr parent root : Frame Stage} {up ups : List (Frame Stage)}
  {i : Nat} {a : Stage} {ids : List Nat}

/-- What stands right below a source stays there. -/
theorem Frame.move_source (hs : root.content.tag = .source) :
    fr.move pass policy root = .stay := by
  rw [move, Move.choose, if_pos hs, ite_self]

/-- No climb moves a source. -/
theorem climb_source (hs : root.content.tag = .source) :
    ∃ t, (climb pass policy (ups ++ [root]) cs).1 = root.close t := by
  generalize hlen : ups.length = len
  induction len generalizing ups cs with
  | zero =>
    obtain rfl := List.length_eq_zero_iff.1 hlen
    exact ⟨cs, by rw [List.nil_append, climb]⟩
  | succ len ih =>
    obtain ⟨fr, ups, rfl⟩ := List.exists_cons_of_length_eq_add_one hlen
    cases ups with
    | nil =>
      refine ⟨fr.close cs, ?_⟩
      rw [List.singleton_append, climb]
      simp only [ascend, Frame.move_source hs, climb]
    | cons parent up =>
      -- after a step, the source is still the outermost frame
      obtain ⟨ups', t, hlen', h⟩ : ∃ ups' t, ups'.length = len ∧
          (climb pass policy (fr :: parent :: (up ++ [root])) cs).1 =
            (climb pass policy (ups' ++ [root]) t).1 := by
        simp only [List.length_cons] at hlen
        rw [climb]
        simp only [ascend]
        cases fr.move pass policy parent with
        | stay => exact ⟨parent :: up, _, by simpa using hlen, rfl⟩
        | join => exact ⟨_ :: up, _, by simpa using hlen, rfl⟩
        | rise dims => exact ⟨_ :: up, _, by simpa using hlen, rfl⟩
        | relocate =>
          obtain ⟨fr', up', hload, -⟩ := @loadUp_cons_concat fr.id fr.content parent up root
          have hlength := @length_loadUp fr.id fr.content (parent :: (up ++ [root]))
          rw [hload] at hlength
          refine ⟨fr' :: up', _, ?_, by rw [hload]; rfl⟩
          simp only [List.length_cons, List.length_append, List.length_nil] at hlength ⊢
          omega
      obtain ⟨t', ht'⟩ := ih hlen'
      exact ⟨t', h.trans ht'⟩

/-- Only conversions are put right below a source: other stages climb as if it were not there. -/
theorem climb_below (hs : root.content.tag = .source) (hp : pass ≠ .parse) :
    climb pass policy (ups ++ [root]) cs =
      (root.close (climb pass policy ups cs).1, (climb pass policy ups cs).2) := by
  -- by induction on the climb: nothing passes a source, so it ends one frame early
  fun_induction climb pass policy ups cs with
  | case1 cs => rw [List.nil_append, climb]
  | case2 fr cs =>
    rw [List.singleton_append, climb]
    simp only [ascend, Frame.move_source hs, climb, Bool.or_self]
  | case3 fr parent up cs a r ih =>
    have hascend : ascend pass policy fr parent (up ++ [root]) cs =
        { a with ups := a.ups ++ [root] } := by
      simp only [a, ascend]
      cases hm : fr.move pass policy parent with
      | stay | join | rise dims => rfl
      | relocate => exact absurd (Frame.parse_of_move hm).1 hp
    rw [List.cons_append, List.cons_append, climb, hascend]
    simp only [r] at ih ⊢
    rw [ih]

/-- What is below the only root is found below it, with the root as the outermost frame. -/
theorem focus?_tree {id : Nat} (hid : i ≠ id) : (node i a cs nil).focus? id =
    (cs.focus? id).map fun e => (e.1 ++ [⟨nil, i, a, nil⟩], e.2) := by
  rw [focus?, if_neg hid]
  cases cs.focus? id <;> rfl

/-- A sweep leaves the source where it is. -/
theorem sweep_tree (hs : a.tag = .source) :
    ∃ t, (sweep pass policy ids (node i a cs nil)).1 = node i a t nil := by
  induction ids generalizing cs with
  | nil => exact ⟨cs, rfl⟩
  | cons id ids ih =>
    rw [sweep]
    -- a climb from the source itself goes nowhere
    by_cases hid : i = id
    · rw [focus?, if_pos hid]
      simp only [climb]
      exact ih
    · rw [focus?_tree hid]
      cases cs.focus? id with
      | none => exact ih
      | some e =>
        obtain ⟨t, ht⟩ := @climb_source pass policy e.2 ⟨nil, i, a, nil⟩ e.1 hs
        simp only [Option.map_some, ht]
        exact ih

/-- Stages other than conversions are swept below a source as if it were not there. -/
theorem sweep_below (hs : a.tag = .source) (hp : pass ≠ .parse) (hids : i ∉ ids) :
    sweep pass policy ids (node i a cs nil) =
      (node i a (sweep pass policy ids cs).1 nil, (sweep pass policy ids cs).2) := by
  induction ids generalizing cs with
  | nil => rfl
  | cons id ids ih =>
    obtain ⟨hid, hids⟩ := not_or.1 (mt List.mem_cons.2 hids)
    rw [sweep, sweep, focus?_tree hid]
    cases cs.focus? id with
    | none => exact ih hids
    | some e =>
      have hclimb := @climb_below pass policy e.2 ⟨nil, i, a, nil⟩ e.1 hs hp
      simp only [Option.map_some, hclimb, Frame.close, nil_append, ih hids]

/-- So they are from all leaves, as the source is none unless nothing is below it. -/
theorem round_below (hs : a.tag = .source) (hp : pass ≠ .parse) (hi : i ∉ cs.walk) :
    round pass policy (node i a cs nil) =
      (node i a (round pass policy cs).1 nil, (round pass policy cs).2) := by
  have hids : i ∉ cs.leaves := fun h => hi (leaves_subset_walk _ h)
  rw [round, leaves, leaves, List.append_nil]
  cases cs with
  | nil =>
    rw [isEmpty, if_pos rfl, sweep, focus?, if_pos rfl]
    simp [climb, sweep, round, leaves, Frame.close]
  | node => exact sweep_below hs hp hids

/-- So they are several times. -/
theorem rounds_below (hs : a.tag = .source) (hp : pass ≠ .parse) (hi : i ∉ cs.walk) :
    rounds pass policy n (node i a cs nil) = node i a (rounds pass policy n cs) nil := by
  induction n generalizing cs with
  | zero => rfl
  | succ n ih =>
    simp only [rounds, Function.iterate_succ_apply, round_below hs hp hi] at ih ⊢
    exact ih fun h => hi (mem_walk_sweep h)

/-- Passes other than that for conversions treat what is below a source by itself. -/
theorem hoist_below (hs : a.tag = .source) (hp : .parse ∉ passes) (hi : i ∉ cs.walk) :
    hoist policy n passes (node i a cs nil) = node i a (hoist policy n passes cs) nil := by
  induction passes generalizing cs with
  | nil => rfl
  | cons pass passes ih =>
    obtain ⟨hpass, hp⟩ := not_or.1 (mt List.mem_cons.2 hp)
    rw [hoist, rounds_below hs (Ne.symm hpass) hi, ih hp fun h => hi (mem_walk_rounds h), hoist]

/-- They come to their ends exactly if they do below the source. -/
theorem ends_below (hs : a.tag = .source) (hp : .parse ∉ passes) (hi : i ∉ cs.walk) :
    Ends policy n passes (node i a cs nil) ↔ Ends policy n passes cs := by
  induction passes generalizing cs with
  | nil => exact Iff.rfl
  | cons pass passes ih =>
    obtain ⟨hpass, hp⟩ := not_or.1 (mt List.mem_cons.2 hp)
    have hi' : i ∉ (rounds pass policy n cs).walk := fun h => hi (mem_walk_rounds h)
    rw [Ends, rounds_below hs (Ne.symm hpass) hi, Rests, round_below hs (Ne.symm hpass) hi',
      ih hp hi', Ends, Rests]

/-- Passes make nothing of an empty forest. -/
theorem hoist_nil : hoist policy n passes nil = nil := by
  cases h : hoist policy n passes nil with
  | nil => rfl
  | node i a cs rest =>
    -- a node would have a new name
    have : i ∈ (nil : Forest Stage).walk := @mem_walk_hoist policy passes n nil i (by simp [h])
    exact absurd this (by simp)

/-- They come to their ends there. -/
theorem ends_nil : Ends policy n passes nil := by
  induction passes with
  | nil => trivial
  | cons pass passes ih =>
    have hrounds : rounds pass policy n nil = nil := @hoist_nil policy [pass] n
    exact ⟨by rw [hrounds]; rfl, by rw [hrounds]; exact ih⟩

/-- Whatever passes make of a tree, its source stays the root. -/
theorem hoist_tree (hs : a.tag = .source) :
    ∃ t, hoist policy n passes (node i a cs nil) = node i a t nil := by
  induction passes generalizing cs with
  | nil => exact ⟨cs, rfl⟩
  | cons pass passes ih =>
    have hrounds : ∃ t, rounds pass policy n (node i a cs nil) = node i a t nil := by
      clear ih
      induction n generalizing cs with
      | zero => exact ⟨cs, rfl⟩
      | succ n ih =>
        obtain ⟨t, ht⟩ := @sweep_tree pass policy cs i a (node i a cs nil).leaves hs
        rw [rounds, Function.iterate_succ_apply, round, ht]
        exact ih
    obtain ⟨t, ht⟩ := hrounds
    rw [hoist, ht]
    exact ih

/-- Passes leave the sources where they are. -/
theorem heads_hoist (hs : f.Sourced) (hn : f.walk.Nodup) :
    (hoist policy n passes f).heads = f.heads := by
  induction f with
  | nil => rw [hoist_nil]
  | node i a cs rest _ ih =>
    obtain ⟨-, -, hrest, -⟩ := nodup_walk_node.1 hn
    obtain ⟨t, ht⟩ := @hoist_tree policy passes n cs i a (hs _ List.mem_cons_self)
    rw [hoist_node hn, ht, node_append, heads, nil_append,
      ih (fun e he => hs e (List.mem_cons_of_mem _ he)) hrest, heads]

/-- Passes treat what stands below each source by itself, up to the one for conversions. -/
theorem under_hoist (hs : f.Sourced) (hn : f.walk.Nodup) (hp : .parse ∉ passes) (j : Nat) :
    (hoist policy n passes f).under j = hoist policy n passes (f.under j) := by
  induction f with
  | nil => rw [hoist_nil, under, hoist_nil]
  | node i a cs rest _ ih =>
    obtain ⟨⟨hi, -⟩, -, hrest, -⟩ := nodup_walk_node.1 hn
    rw [hoist_node hn, hoist_below (hs _ List.mem_cons_self) hp hi, node_append, nil_append, under,
      under]
    -- what is looked below is the first source or one after it
    split
    · rfl
    · exact ih (fun e he => hs e (List.mem_cons_of_mem _ he)) hrest

/-- Passes, up to the one for conversions, come to their ends where they do below each source. -/
theorem ends_iff (hs : f.Sourced) (hn : f.walk.Nodup) (hp : .parse ∉ passes) :
    Ends policy n passes f ↔ ∀ j ∈ f.roots, Ends policy n passes (f.under j) := by
  induction f with
  | nil => simp [ends_nil, roots]
  | node i a cs rest _ ih =>
    obtain ⟨hi, -, hrest, -⟩ := nodup_walk_node.1 hn
    rw [ends_node hn, ends_below (hs _ List.mem_cons_self) hp hi.1,
      ih (fun e he => hs e (List.mem_cons_of_mem _ he)) hrest, roots, List.forall_mem_cons, under,
      if_pos rfl]
    refine and_congr_right fun _ => forall₂_congr fun j hj => ?_
    rw [under, if_neg fun e : i = j => hi.2 (e ▸ mem_walk_of_mem_roots hj)]

end Below

end Forest

end ChartPipeline
