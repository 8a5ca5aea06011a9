import ChartPipeline.Flow.Assembly
import ChartPipeline.Proofs.Recasting
import ChartPipeline.Proofs.Sweeping
import Mathlib.Data.List.Find
import Mathlib.Logic.Function.Iterate

/-!
# Passes as functions of a forest

Where every tree begins with a source, what a pass makes of a flow is a function of its forest
alone: every step of a climb is determined by the frames around it, a conversion that is put below
its source joins the first one there, and no edit fails.

## Key results

- `Flow.climb_eq`, `Flow.sweep_eq`: what a climb and a sweep make of a flow
- `Flow.runPasses_iff`: passes come to their ends where their functions do
-/

namespace ChartPipeline

/-- What a stage holds once another one has been joined into it. -/
def Stage.joined (a b : Stage) : Stage := (a.merge? b).getD a

namespace Forest

/-! ### Conversions below a source -/

/-- Puts a conversion right below a source: it is joined into the first one there, or comes last. -/
def load (id : Nat) (a : Stage) : Forest Stage → Forest Stage
  | nil => leaf id a
  | node i b cs rest =>
    if b.tag = .parse then node i (b.joined a) cs rest else node i b cs (rest.load id a)

/-- Puts a conversion beside the node of a frame, or joins it into the node. -/
def Frame.load (id : Nat) (a : Stage) (fr : Frame Stage) : Frame Stage :=
  if Assembly.hasParse fr.before then { fr with before := fr.before.load id a }
  else if fr.content.tag = .parse then { fr with content := fr.content.joined a }
  else { fr with after := fr.after.load id a }

/-- Puts a conversion right below the root that the outermost frame is. -/
def loadUp (id : Nat) (a : Stage) : List (Frame Stage) → List (Frame Stage)
  | [] => []
  | [root] => [root]
  | [fr, root] => [fr.load id a, root]
  | fr :: fr' :: fr'' :: up => fr :: loadUp id a (fr' :: fr'' :: up)

variable {id i : Nat} {a b : Stage} {f g t : Forest Stage} {fr parent root : Frame Stage}
  {up : List (Frame Stage)}

/-- Of two lists of trees, the first one with a conversion takes the new one in. -/
theorem load_append : (f ++ g).load id a =
    if Assembly.hasParse f then f.load id a ++ g else f ++ g.load id a := by
  induction f with
  | nil => rfl
  | node i b cs rest _ ih =>
    rw [node_append, load, load, Assembly.hasParse]
    by_cases hb : b.tag = .parse
    · simp [hb]
    · simp only [hb, if_false, ih, decide_false, Bool.false_or]
      split <;> rfl

/-- A conversion put beside a hole is put among the trees that the frame closes to. -/
theorem Frame.load_close (cs : Forest Stage) :
    (fr.load id a).close cs = (fr.close cs).load id a := by
  rw [Frame.close, Frame.close, load_append, Frame.load]
  by_cases hb : Assembly.hasParse fr.before
  · simp [hb]
  · by_cases hc : fr.content.tag = .parse
    · simp [hb, hc, Forest.load]
    · simp [hb, hc, Forest.load]

/-- The frame stays that of its node. -/
@[simp] theorem Frame.id_load : (fr.load id a).id = fr.id := by
  unfold Frame.load
  split
  · rfl
  · split <;> rfl

/-- A conversion put below the root leaves the names above a hole. -/
@[simp] theorem map_id_loadUp (up : List (Frame Stage)) :
    (loadUp id a up).map Frame.id = up.map Frame.id := by
  fun_induction loadUp id a up with
  | case1 | case2 | case3 => simp
  | case4 fr fr' fr'' up ih => rw [List.map_cons, ih, ← List.map_cons]

/-- So it leaves their number. -/
@[simp] theorem length_loadUp (up : List (Frame Stage)) :
    (loadUp id a up).length = up.length := by
  have h := congrArg List.length (@map_id_loadUp id a up)
  rwa [List.length_map, List.length_map] at h

/-- It goes to the trees right below the root, wherever the hole among them is. -/
theorem loadUp_cons_concat (fr : Frame Stage) (up : List (Frame Stage)) (root : Frame Stage) :
    ∃ fr' up', loadUp id a (fr :: (up ++ [root])) = fr' :: (up' ++ [root]) ∧
      ∀ t, fill (fr' :: up') t = (fill (fr :: up) t).load id a := by
  induction up generalizing fr with
  | nil => exact ⟨fr.load id a, [], rfl, fun t => Frame.load_close t⟩
  | cons fr₁ up ih =>
    obtain ⟨fr', up', heq, hfill⟩ := ih fr₁
    refine ⟨fr, fr' :: up', ?_, fun t => hfill (fr.close t)⟩
    rw [List.cons_append, List.cons_append, ← heq]
    cases up <;> rfl

/-! ### Climbs -/

/-- Where a climb stands: the stage that climbs and those above it, the trees below it, and whether
    anything has moved. -/
structure Ascent where
  ups : List (Frame Stage)
  below : Forest Stage
  moved : Bool

/-- One step of a climb. -/
def ascend (pass : Pass) (policy : FacetPolicy) (fr parent : Frame Stage)
    (up : List (Frame Stage)) (cs : Forest Stage) : Ascent :=
  match fr.move pass policy parent with
  | .stay => ⟨parent :: up, fr.close cs, false⟩
  | .join => ⟨{ parent with content := parent.content.joined fr.content } :: up,
      fr.before ++ (cs ++ fr.after), true⟩
  | .rise dims => ⟨{ parent with id := fr.id, content := fr.content.addDimensions dims } :: up,
      node parent.id parent.content cs nil, true⟩
  | .relocate => ⟨loadUp fr.id fr.content (parent :: up), fr.before ++ (cs ++ fr.after), true⟩

/-- Every step takes a climb up by one. -/
@[simp] theorem length_ascend (pass : Pass) (policy : FacetPolicy) (fr parent : Frame Stage)
    (up : List (Frame Stage)) (cs : Forest Stage) :
    (ascend pass policy fr parent up cs).ups.length = up.length + 1 := by
  unfold ascend
  split <;> simp

/-- Climbs from the node of the first frame to its root; with the result goes whether anything has
    moved. -/
def climb (pass : Pass) (policy : FacetPolicy) :
    List (Frame Stage) → Forest Stage → Forest Stage × Bool
  | [], cs => (cs, false)
  | [fr], cs => (fr.close cs, false)
  | fr :: parent :: up, cs =>
    let a := ascend pass policy fr parent up cs
    let r := climb pass policy a.ups a.below
    (r.1, a.moved || r.2)
termination_by ups => ups.length

/-! ### Sweeps -/

/-- Puts trees before and after the node of the outermost frame. -/
def beside {α : Type} (before after : Forest α) : List (Frame α) → List (Frame α)
  | [] => []
  | [root] => [{ root with before := before ++ root.before, after := root.after ++ after }]
  | fr :: fr' :: up => fr :: beside before after (fr' :: up)

/-- The frames around a node, its own first, and the trees below it. -/
def focus? {α : Type} (id : Nat) : Forest α → Option (List (Frame α) × Forest α)
  | nil => none
  | node i a cs rest =>
    if i = id then some ([⟨nil, i, a, rest⟩], cs)
    else match cs.focus? id with
      | some (ups, t) => some (ups ++ [⟨nil, i, a, rest⟩], t)
      | none => (rest.focus? id).map fun e => (beside (node i a cs nil) nil e.1, e.2)

/-- Climbs from those nodes that are still there. -/
def sweep (pass : Pass) (policy : FacetPolicy) :
    List Nat → Forest Stage → Forest Stage × Bool
  | [], f => (f, false)
  | id :: ids, f =>
    match f.focus? id with
    | none => sweep pass policy ids f
    | some (ups, cs) =>
      let r := climb pass policy ups cs
      let s := sweep pass policy ids r.1
      (s.1, r.2 || s.2)

/-- A sweep over all leaves. -/
def round (pass : Pass) (policy : FacetPolicy) (f : Forest Stage) : Forest Stage × Bool :=
  sweep pass policy f.leaves f

/-- Several sweeps over all leaves. -/
def rounds (pass : Pass) (policy : FacetPolicy) (n : Nat) (f : Forest Stage) : Forest Stage :=
  (fun f => (round pass policy f).1)^[n] f

/-- A forest in which a sweep of a pass moves nothing. -/
def Rests (pass : Pass) (policy : FacetPolicy) (f : Forest Stage) : Prop :=
  (round pass policy f).2 = false

/-- What passes make of a forest if each takes `n` sweeps. -/
def hoist (policy : FacetPolicy) (n : Nat) : List Pass → Forest Stage → Forest Stage
  | [], f => f
  | pass :: passes, f => hoist policy n passes (rounds pass policy n f)

/-- Whether each of the passes rests after `n` sweeps. -/
def Ends (policy : FacetPolicy) (n : Nat) : List Pass → Forest Stage → Prop
  | [], _ => True
  | pass :: passes, f =>
    Rests pass policy (rounds pass policy n f) ∧ Ends policy n passes (rounds pass policy n f)

/-! ### The frames around a node -/

section Focus

variable {α : Type} {before after f cs : Forest α} {fr : Frame α} {up ups : List (Frame α)}
  {id : Nat}

/-- Trees beside the outermost frame stand beside everything. -/
theorem fill_beside (hups : ups ≠ []) (t : Forest α) :
    fill (beside before after ups) t = before ++ (fill ups t ++ after) := by
  fun_induction beside before after ups generalizing t with
  | case1 => exact absurd rfl hups
  | case2 root => simp [fill, Frame.close, append_assoc]
  | case3 fr fr' up ih => exact ih (by simp) (fr.close t)

/-- They leave a first frame. -/
theorem exists_cons_beside (before after : Forest α) (fr : Frame α) (up : List (Frame α)) :
    ∃ fr' up', beside before after (fr :: up) = fr' :: up' := by
  cases up <;> exact ⟨_, _, rfl⟩

/-- They leave the names above a hole. -/
theorem map_id_beside (ups : List (Frame α)) :
    (beside before after ups).map Frame.id = ups.map Frame.id := by
  fun_induction beside before after ups with
  | case1 | case2 => simp
  | case3 fr fr' up ih => rw [List.map_cons, ih, ← List.map_cons]

/-- A name is found exactly if it stands somewhere. -/
theorem focus?_eq_none : f.focus? id = none ↔ id ∉ f.walk := by
  induction f with
  | nil => simp [focus?]
  | node i a cs rest ihc ihr =>
    rw [focus?, walk_node, List.mem_cons, List.mem_append, not_or, not_or, ← ihc, ← ihr]
    by_cases hi : i = id
    · simp [hi]
    · rw [if_neg hi]
      cases cs.focus? id <;> simp [Ne.symm hi]

/-- What is found is a node of the name with the frames around it. -/
theorem fill_of_focus? {t : Forest α} (h : f.focus? id = some (ups, t)) :
    ∃ fr up, ups = fr :: up ∧ fr.id = id ∧ f = fill ups t := by
  induction f generalizing ups t with
  | nil => simp [focus?] at h
  | node i a cs rest ihc ihr =>
    rw [focus?] at h
    -- at the root, below it, or in the trees after it
    split at h
    · next hi =>
      obtain ⟨rfl, rfl⟩ := Prod.mk.inj (Option.some.inj h)
      exact ⟨_, [], rfl, hi, rfl⟩
    · split at h
      · next ups' t' hc =>
        obtain ⟨rfl, rfl⟩ := Prod.mk.inj (Option.some.inj h)
        obtain ⟨fr, up, rfl, hid, rfl⟩ := ihc hc
        exact ⟨fr, up ++ [_], rfl, hid, by rw [fill_concat]; rfl⟩
      · obtain ⟨⟨ups', t'⟩, hr, he⟩ := Option.map_eq_some_iff.1 h
        obtain ⟨rfl, rfl⟩ := Prod.mk.inj he
        obtain ⟨fr, up, rfl, hid, rfl⟩ := ihr hr
        have hne : fr :: up ≠ [] := by simp
        have hids := @map_id_beside _ (node i a cs nil) nil (fr :: up)
        obtain ⟨fr', up', hb⟩ := exists_cons_beside (node i a cs nil) nil fr up
        rw [hb] at hids
        refine ⟨fr', up', hb, (List.cons.inj hids).1.trans hid, ?_⟩
        rw [fill_beside hne, append_nil]
        rfl

/-- Where no name stands twice, a node is found where it stands. -/
theorem focus?_fill (hn : (fill (fr :: up) cs).walk.Nodup) :
    (fill (fr :: up) cs).focus? fr.id = some (fr :: up, cs) := by
  cases h : (fill (fr :: up) cs).focus? fr.id with
  | none =>
    refine absurd ?_ (focus?_eq_none.1 h)
    rw [(walk_fill_perm _ _).mem_iff]
    simp [Frame.names]
  | some e =>
    obtain ⟨fr', up', hups, hid, hfill⟩ := fill_of_focus? h
    obtain ⟨ups, t⟩ := e
    subst hups
    obtain ⟨rfl, rfl, rfl⟩ := fill_first_inj hn hid.symm hfill
    rfl

end Focus

/-! ### Sweeps that move nothing -/

section Still

variable {pass : Pass} {policy : FacetPolicy} {ups : List (Frame Stage)} {cs f : Forest Stage}

/-- A climb that moves nothing leaves the forest as it is. -/
theorem climb_of_not_moved (h : (climb pass policy ups cs).2 = false) :
    (climb pass policy ups cs).1 = fill ups cs := by
  fun_induction climb pass policy ups cs with
  | case1 | case2 => rfl
  | case3 fr parent up cs a r ih =>
    obtain ⟨ha, hr⟩ := Bool.or_eq_false_iff.1 h
    rw [show r.1 = fill a.ups a.below from ih hr]
    simp only [a, ascend] at ha ⊢
    -- every other move has been counted
    split at ha <;> first | rfl | exact absurd ha (by simp)

/-- So does a sweep that moves nothing. -/
theorem sweep_of_not_moved {ids : List Nat} (h : (sweep pass policy ids f).2 = false) :
    (sweep pass policy ids f).1 = f := by
  -- by induction on the leaves: if nothing moves in all, nothing moves on the way from each
  induction ids generalizing f with
  | nil => rfl
  | cons id ids ih =>
    rw [sweep] at h ⊢
    cases hfocus : f.focus? id with
    | none =>
      rw [hfocus] at h
      exact ih h
    | some e =>
      obtain ⟨ups, cs⟩ := e
      obtain ⟨fr, up, rfl, -, rfl⟩ := fill_of_focus? hfocus
      rw [hfocus] at h
      obtain ⟨hc, hs⟩ := Bool.or_eq_false_iff.1 h
      rw [climb_of_not_moved hc] at hs
      simp only [climb_of_not_moved hc]
      exact ih hs

/-- A pass that rests makes nothing else of a forest, however often it sweeps. -/
theorem Rests.rounds_eq (h : Rests pass policy f) (n : Nat) : rounds pass policy n f = f :=
  Function.iterate_fixed (sweep_of_not_moved h) n

end Still

end Forest

/-! ### What a pass makes of a flow -/

namespace Flow

open Forest

variable {flow flow₁ flow' : Flow} {pass : Pass} {policy : FacetPolicy} {fr parent : Frame Stage}
  {up : List (Frame Stage)} {cs : Forest Stage} {moved moved' : Bool}

/-- Whether the changes that a flow has counted are as said. -/
def Counts (flow flow' : Flow) (moved : Bool) : Prop :=
  flow.revision ≤ flow'.revision ∧ (flow'.revision = flow.revision ↔ moved = false)

/-- What has not run has counted nothing. -/
theorem Counts.refl (flow : Flow) : Counts flow flow false := ⟨Nat.le_refl _, by simp⟩

/-- One run after another counts what either does. -/
theorem Counts.trans (h : Counts flow flow₁ moved) (h' : Counts flow₁ flow' moved') :
    Counts flow flow' (moved || moved') := by
  obtain ⟨hle, hiff⟩ := h
  obtain ⟨hle', hiff'⟩ := h'
  refine ⟨Nat.le_trans hle hle', ?_⟩
  rw [Bool.or_eq_false_iff, ← hiff, ← hiff']
  omega

/-- A run that says how much it has counted has moved something unless that is nothing. -/
theorem Counts.of_add {n : Nat} (h : flow'.revision = flow.revision + n)
    (hn : n = 0 ↔ moved = false) : Counts flow flow' moved := by
  refine ⟨by omega, ?_⟩
  rw [← hn]
  omega

/-- What a step of a climb does when it is run. -/
def AscendsTo (pass : Pass) (policy : FacetPolicy) (flow : Flow) (a : Ascent)
    (run : Except FlowFault Unit × Flow) : Prop :=
  ∃ fr' up' flow', a.ups = fr' :: up' ∧
    run = climb pass policy fr'.id (up'.map Frame.id) flow' ∧
    flow'.stages = fill a.ups a.below ∧ Counts flow flow' a.moved

end Flow

namespace Forest

variable {pass : Pass} {policy : FacetPolicy} {fr parent : Frame Stage}
  {up ups' : List (Frame Stage)} {cs cs' : Forest Stage} {n : Nat}

/-- A step of a climb is determined, unless it puts a conversion below its source. -/
theorem Ascends.eq_ascend (h : Ascends pass policy (fr :: parent :: up) cs ups' cs' n)
    (hm : fr.move pass policy parent ≠ .relocate) :
    ups' = (ascend pass policy fr parent up cs).ups ∧
      cs' = (ascend pass policy fr parent up cs).below ∧
      (n = 0 ↔ (ascend pass policy fr parent up cs).moved = false) := by
  cases h with
  | stay h => simp [ascend, h]
  | join h hj => simp [ascend, h, Stage.joined, hj.merged]
  | rise h => simp [ascend, h]
  | absorb h => exact absurd h hm
  | relocate h => exact absurd h hm

/-! ### Putting a conversion below its source -/

variable {f : Forest Stage} {a b : Stage} {id i : Nat}

/-- A conversion that finds one among the roots changes nothing else. -/
theorem load_of_find? (hn : f.walk.Nodup)
    (h : f.heads.find? (fun e => e.2.tag = .parse) = some (i, b)) :
    f.load id a = f.update i fun _ => b.joined a := by
  induction f with
  | nil => simp [heads] at h
  | node j c cs rest _ ih =>
    obtain ⟨hj, -, hrest, hapart⟩ := nodup_walk_node.1 hn
    rw [load, update]
    -- the first conversion is this root or one after it
    by_cases hc : c.tag = .parse
    · rw [heads, List.find?_cons_of_pos (by simpa using hc), Option.some_inj] at h
      obtain ⟨rfl, rfl⟩ := Prod.mk.inj h
      rw [if_pos hc, if_pos rfl, update_of_notMem hj.1, update_of_notMem hj.2]
    · rw [heads, List.find?_cons_of_neg (by simpa using hc)] at h
      have hi := mem_walk_of_mem_roots (mem_roots_of_mem_heads (List.mem_of_find?_eq_some h))
      rw [if_neg hc, if_neg (fun e : j = i => hj.2 (e ▸ hi)), ih hrest h,
        update_of_notMem fun hm => hapart i hm hi]

/-- A conversion that finds no other one among the roots comes last. -/
theorem load_of_find?_none (h : f.heads.find? (fun e => e.2.tag = .parse) = none) :
    f.load id a = f ++ leaf id a := by
  induction f with
  | nil => rfl
  | node j c cs rest _ ih =>
    rw [heads, List.find?_eq_none, List.forall_mem_cons] at h
    rw [load, if_neg (by simpa using h.1), ih (List.find?_eq_none.2 h.2), node_append]

end Forest

namespace Flow

open Forest

variable {flow : Flow} {pass : Pass} {policy : FacetPolicy} {fr parent root : Frame Stage}
  {up : List (Frame Stage)} {cs : Forest Stage}

/-- The conversion that another one is joined into is the first one right below the source. -/
theorem present?_eq (hst : flow.stages = fill (fr :: parent :: (up ++ [root])) cs)
    (hn : flow.stages.walk.Nodup) : flow.present? fr.id =
      ((fill (parent :: up) (fr.close cs)).heads.find? fun e => e.2.tag = .parse).map Prod.fst := by
  have hroot : flow.stages.rootOf fr.id = root.id :=
    @rootOf_first flow fr cs root (parent :: up) hst hn
  have hst₁ : flow.stages = fill [root] (fill (parent :: up) (fr.close cs)) := by
    rw [hst, ← List.cons_append, ← List.cons_append, fill_concat]
    rfl
  have hchildren : flow.stages.children root.id = (fill (parent :: up) (fr.close cs)).roots := by
    rw [hst₁] at hn ⊢
    exact children_first hn
  rw [present?, hroot, hchildren, ← map_fst_heads, List.find?_map]
  congr 1
  refine List.find?_congr fun e he => ?_
  have hcontent : flow.stages.content? e.1 = some e.2 := by
    rw [hst₁] at hn ⊢
    exact content?_of_mem_heads hn he
  -- the conversion itself stands further below
  have hne : e.1 ≠ fr.id := by
    rintro heq
    have hout := (notMem_of_nodup_fill (hst ▸ hn)).1
    rw [heads_fill parent up _ nil] at he
    have hmem := mem_walk_of_mem_roots (mem_roots_of_mem_heads he)
    rw [(walk_fill_perm _ _).mem_iff, walk_nil, List.append_nil, heq] at hmem
    rw [← List.cons_append, outside, List.flatMap_append] at hout
    exact hout (List.mem_append_left _ hmem)
  simp [tag?_of_content? hcontent, hne]

/-- A conversion that leaves its place is put right below its source. -/
theorem relocate_eq (hst : flow.stages = fill (fr :: parent :: (up ++ [root])) cs)
    (hn : flow.stages.walk.Nodup) (hs : root.content.tag = .source)
    (ht : fr.content.tag = .parse) :
    ∃ flow', relocate fr.id flow = (.ok (), flow') ∧
      flow'.stages = fill [root]
        ((fill (parent :: up) (fr.before ++ (cs ++ fr.after))).load fr.id fr.content) ∧
      Counts flow flow' true := by
  have hn' := hst ▸ hn
  have hroot : flow.stages.rootOf fr.id = root.id :=
    @rootOf_first flow fr cs root (parent :: up) hst hn
  have hst₁ : flow.stages = fill [root] (fill (parent :: up) (fr.close cs)) := by
    rw [hst, ← List.cons_append, ← List.cons_append, fill_concat]
    rfl
  have hcroot : flow.stages.content? root.id = some root.content := content?_of_mem hst₁ hn
  have hrun := @relocate_run flow fr.id (by rw [hroot, tag?_of_content? hcroot, hs])
  obtain ⟨hdrop, hid⟩ := nodup_fill_drop hn'
  rw [fill_cons_concat] at hdrop hid
  rw [present?_eq hst hn, heads_fill parent up _ (fr.before ++ (cs ++ fr.after))] at hrun
  -- it is joined into the conversion that is there, or becomes a new child of its source
  cases hfind : (fill (parent :: up) (fr.before ++ (cs ++ fr.after))).heads.find?
      fun e => e.2.tag = .parse with
  | some e =>
    obtain ⟨other, b⟩ := e
    rw [hfind] at hrun
    have hb : b.tag = .parse := by simpa using List.find?_some hfind
    have hmem := List.mem_of_find?_eq_some hfind
    have ho : flow.stages.content? other = some b := by
      rw [heads_fill parent up _ (fr.close cs)] at hmem
      rw [hst₁] at hn ⊢
      exact content?_of_mem_heads hn hmem
    have hout := notMem_outside_of_mem_heads hdrop hmem
    have hne : other ≠ fr.id := by
      rintro rfl
      exact hid ((walk_fill_perm _ _).mem_iff.2 (List.mem_append_right _
        (mem_walk_of_mem_roots (mem_roots_of_mem_heads hmem))))
    obtain ⟨c, hc⟩ := Stage.merge?_of_joins (ht.trans hb.symm) (by rw [ht]; rfl)
    obtain ⟨flow', hrun', hst', hrev, -⟩ := merge_run hne ho (content?_of_mem hst hn) hc
    refine ⟨flow', hrun.trans hrun', ?_, Counts.of_add hrev (by simp)⟩
    have hupdated : (fill ((fr :: parent :: (up ++ [root])).map (Frame.update other fun _ => c))
        (cs.update other fun _ => c)).walk.Nodup := by
      rw [← update_fill, walk_update]
      exact hn'
    rw [load_of_find? (nodup_of_fill hdrop) hfind, Stage.joined, hc, Option.getD_some, hst', hst,
      update_fill, List.map_cons, ← Frame.update_id other, splice_first hupdated]
    have hbelow (t : Forest Stage) :
        fill [root] (t.update other fun _ => c) = (fill [root] t).update other fun _ => c := by
      rw [update_fill, map_update_of_notMem hout]
    rw [hbelow, ← fill_cons_concat, update_fill]
    simp
  | none =>
    rw [hfind] at hrun
    have hsp : flow.stages.splice fr.id =
        fill [root] (fill (parent :: up) (fr.before ++ (cs ++ fr.after))) := by
      rw [hst, splice_first hn', fill_cons_concat]
    have hin : root.id ∈ (flow.stages.splice fr.id).walk := by
      rw [hsp, (walk_fill_perm _ _).mem_iff]
      simp [outside, Frame.names]
    rw [← hsp] at hid
    have hne : fr.id ≠ root.id := fun e => hid (e ▸ hin)
    have hanc : (flow.stages.splice fr.id).ancestors root.id = [] := by
      rw [hsp, ancestors_first hdrop]
      rfl
    obtain ⟨flow', hrun', hst', hrev, -⟩ :=
      remove_setParent_run (content?_of_mem hst hn) hne hid hin hanc
    refine ⟨flow', hrun.trans (hroot ▸ hrun'), ?_, Counts.of_add hrev (by simp)⟩
    rw [hst', hsp, attach_first hdrop, load_of_find?_none hfind]

variable (pass policy) in
/-- Where every tree begins with a source, a climb takes the steps that are determined by the
    frames. -/
theorem climb_ascend (hst : flow.stages = fill (fr :: parent :: up) cs)
    (hf : flow.stages.Grounded) :
    AscendsTo pass policy flow (ascend pass policy fr parent up cs)
        (climb pass policy fr.id (parent.id :: up.map Frame.id) flow) ∧
      (fill (ascend pass policy fr parent up cs).ups
        (ascend pass policy fr parent up cs).below).Grounded := by
  have hf' := hst ▸ hf
  -- to put a conversion below its source needs one; every other step is determined by what is known
  -- of a climb
  by_cases hm : fr.move pass policy parent = .relocate
  · obtain ⟨-, ⟨types, hfr⟩, hns⟩ := Frame.parse_of_move hm
    obtain ⟨up, root, rfl, hs⟩ := Sourced.exists_cons (t := fr.close cs) hf'.sourced hns
    obtain ⟨flow', hrun, hst', hcounts⟩ := relocate_eq hst hf.nodup hs (by rw [hfr]; rfl)
    obtain ⟨fr', up', hload, hfill⟩ := @loadUp_cons_concat fr.id fr.content parent up root
    have hids := @map_id_loadUp fr.id fr.content (parent :: (up ++ [root]))
    rw [hload, List.map_cons, List.map_cons] at hids
    have hups : fill (ascend pass policy fr parent (up ++ [root]) cs).ups
        (ascend pass policy fr parent (up ++ [root]) cs).below = flow'.stages := by
      simp only [ascend, hm, hload]
      rw [hst', fill_cons_concat, hfill]
    constructor
    · refine ⟨fr', up' ++ [root], flow', by simp only [ascend, hm, hload], ?_, hups.symm, ?_⟩
      · rw [climb_cons, moveOf_first pass policy hst hf.nodup, hm]
        refine (Run.bind_ok hrun).trans ?_
        rw [(List.cons.inj hids).1, (List.cons.inj hids).2]
      · simpa only [ascend, hm] using hcounts
    · -- what has run is one step of a climb
      obtain ⟨_, _, _, _, flow'', hstep, -, -, hrun', hst'', -⟩ :=
        relocate_first hst hf.nodup hm fun above root habove => by
          rw [habove, ← List.cons_append] at hf'
          exact hf'.sourced.source_of_fill_concat
      obtain ⟨-, rfl⟩ := Prod.mk.inj (hrun.symm.trans hrun')
      rw [hups, hst'']
      exact hstep.grounded hf'
  · obtain ⟨fr', up', cs', n, flow', hstep, -, hrun, hst', hrev, -⟩ :=
      climb_step pass policy hst hf
    obtain ⟨hups, rfl, hmoved⟩ := hstep.eq_ascend hm
    refine ⟨⟨fr', up', flow', hups.symm, hrun, by rw [hst', hups], Counts.of_add hrev hmoved⟩, ?_⟩
    rw [← hups]
    exact hstep.grounded hf'

/-- A run that ends well, in a forest as said in which every tree begins with a source. -/
structure Reaches (flow : Flow) (r : Forest Stage × Bool) (run : Except FlowFault Unit × Flow) :
    Prop where
  ok : run.1 = .ok ()
  stages_eq : run.2.stages = r.1
  counts : Counts flow run.2 r.2
  grounded : run.2.stages.Grounded

variable (pass policy) in
/-- What a climb makes of a flow. -/
theorem climb_eq {fr : Frame Stage} {up : List (Frame Stage)} {cs : Forest Stage}
    (hst : flow.stages = fill (fr :: up) cs) (hf : flow.stages.Grounded) :
    Reaches flow (Forest.climb pass policy (fr :: up) cs)
      (climb pass policy fr.id (up.map Frame.id) flow) := by
  -- a step may change every frame above, but not how many there are
  generalize hlen : up.length = len
  induction len generalizing fr up cs flow with
  | zero =>
    obtain rfl := List.length_eq_zero_iff.1 hlen
    rw [Forest.climb]
    exact ⟨rfl, hst, Counts.refl flow, hf⟩
  | succ len ih =>
    obtain ⟨parent, up, rfl⟩ := List.exists_cons_of_length_eq_add_one hlen
    obtain ⟨⟨fr', up', flow₁, hups, hrun, hst', hcounts⟩, hf'⟩ := climb_ascend pass policy hst hf
    have hlen' := length_ascend pass policy fr parent up cs
    rw [hups] at hst' hf' hlen'
    simp only [List.length_cons] at hlen hlen'
    obtain ⟨hok, hstages, hcounts', hgrounded⟩ := ih hst' (hst' ▸ hf') (by omega)
    rw [Forest.climb, hups, List.map_cons, hrun]
    exact ⟨hok, hstages, hcounts.trans hcounts', hgrounded⟩

variable (pass policy) in
/-- What a sweep makes of a flow. -/
theorem sweep_eq (ids : List Nat) (hf : flow.stages.Grounded) :
    Reaches flow (Forest.sweep pass policy ids flow.stages) (sweep pass policy ids flow) := by
  induction ids generalizing flow with
  | nil => exact ⟨rfl, rfl, Counts.refl flow, hf⟩
  | cons id ids ih =>
    by_cases hid : id ∈ flow.stages.walk
    · obtain ⟨fr, up, cs, hst, rfl⟩ := exists_fill_of_mem hid
      have hn := hst ▸ hf.nodup
      obtain ⟨hok, hstages, hcounts, hgrounded⟩ := climb_eq pass policy hst hf
      obtain ⟨hok', hstages', hcounts', hgrounded'⟩ := ih hgrounded
      rw [hstages] at hstages' hcounts'
      rw [sweep_first hst hf.nodup, Run.bind_ok (Prod.ext hok rfl), hst, Forest.sweep,
        focus?_fill hn]
      exact ⟨hok', hstages', hcounts.trans hcounts', hgrounded'⟩
    · rw [sweep_gone hid, Forest.sweep, focus?_eq_none.2 hid]
      exact ih hf

variable (pass policy) in
/-- One round of a pass: a sweep, and the end if it moved nothing. -/
theorem settle_round (n done : Nat) (hf : flow.stages.Grounded) :
    ∃ flow₁, flow₁.stages = (round pass policy flow.stages).1 ∧ flow₁.stages.Grounded ∧
      settle pass policy (n + 1) done flow =
        if (round pass policy flow.stages).2 then settle pass policy n (done + 1) flow₁
        else (.ok (done + 1), flow₁) := by
  obtain ⟨hok, hstages, ⟨-, hcounts⟩, hgrounded⟩ := sweep_eq pass policy flow.stages.leaves hf
  refine ⟨_, hstages, hgrounded, ?_⟩
  rw [settle, Run.bind_ok (Run.get_run flow)]
  refine (Run.bind_ok (mapFault_eq_ok.2 (Prod.ext hok rfl))).trans ?_
  rw [Run.bind_ok (Run.get_run _)]
  change _ ↔ (round pass policy flow.stages).2 = false at hcounts
  -- the pass looks at what has been counted, the function at what has moved
  cases hmoved : (round pass policy flow.stages).2 with
  | false =>
    rw [if_pos (hcounts.2 hmoved)]
    rfl
  | true =>
    rw [if_neg (fun h => by simp [hcounts.1 h] at hmoved), if_pos rfl]

/-- A pass that may sweep once more than `n` times succeeds if it rests after `n` sweeps. -/
theorem settle_of_rests {n done : Nat} (hf : flow.stages.Grounded)
    (h : Rests pass policy (rounds pass policy n flow.stages)) :
    ∃ k flow', settle pass policy (n + 1) done flow = (.ok k, flow') := by
  induction n generalizing done flow with
  | zero =>
    obtain ⟨flow₁, -, -, hrun⟩ := settle_round pass policy 0 done hf
    have hstill : (round pass policy flow.stages).2 = false := h
    exact ⟨_, _, hrun.trans (if_neg (by simp [hstill]))⟩
  | succ n ih =>
    obtain ⟨flow₁, hst, hf₁, hrun⟩ := settle_round pass policy (n + 1) done hf
    rw [rounds, Function.iterate_succ_apply, ← hst] at h
    rw [hrun]
    split
    · exact ih hf₁ h
    · exact ⟨_, _, rfl⟩

/-- A pass that succeeds rests, and has made of the forest what `n` sweeps make of it. -/
theorem rests_of_settle {n done k : Nat} (hf : flow.stages.Grounded)
    (h : settle pass policy (n + 1) done flow = (.ok k, flow')) :
    flow'.stages = rounds pass policy n flow.stages ∧ Rests pass policy flow'.stages := by
  -- by induction on the sweeps that are left; the last one has moved nothing
  induction n generalizing done flow with
  | zero =>
    obtain ⟨flow₁, hst, hf₁, hrun⟩ := settle_round pass policy 0 done hf
    rw [hrun] at h
    split at h
    · exact absurd h Run.throw_ne_ok
    · next hmoved =>
      obtain ⟨-, rfl⟩ := Prod.mk.inj h
      have hrests : Rests pass policy flow.stages := by simpa [Rests] using hmoved
      have hsame : flow₁.stages = flow.stages := hst.trans (sweep_of_not_moved hrests)
      exact ⟨hsame, hsame ▸ hrests⟩
  | succ n ih =>
    obtain ⟨flow₁, hst, hf₁, hrun⟩ := settle_round pass policy (n + 1) done hf
    rw [hrun] at h
    split at h
    · obtain ⟨hst', hrests⟩ := ih hf₁ h
      exact ⟨by rw [hst', hst]; rfl, hrests⟩
    · next hmoved =>
      obtain ⟨-, rfl⟩ := Prod.mk.inj h
      have hrests : Rests pass policy flow.stages := by simpa [Rests] using hmoved
      have hsame : flow₁.stages = flow.stages := hst.trans (sweep_of_not_moved hrests)
      exact ⟨by rw [hsame, hrests.rounds_eq], hsame ▸ hrests⟩

/-- Passes that may each sweep once more than `n` times come to their ends exactly if each of them
    rests after `n` sweeps. -/
theorem runPasses_iff {n : Nat} {passes : List Pass} (hf : flow.stages.Lawful) :
    (∃ flow', runPasses policy (n + 1) passes flow = (.ok (), flow')) ↔
      Ends policy n passes flow.stages := by
  induction passes generalizing flow with
  | nil => exact ⟨fun _ => trivial, fun _ => ⟨flow, rfl⟩⟩
  | cons pass passes ih =>
    rw [Ends]
    -- what the first pass makes is the start of the others
    cases hrun : runPass pass policy (n + 1) flow with
    | mk result flow₁ =>
      cases result with
      | error e =>
        refine ⟨fun ⟨flow', h⟩ => ?_, fun h => ?_⟩
        · rw [runPasses_cons_error passes hrun] at h
          exact absurd (congrArg Prod.fst h) (by simp)
        · obtain ⟨k, flow', hok⟩ := @settle_of_rests flow pass policy n 0 hf.grounded h.1
          exact absurd (congrArg Prod.fst (hrun.symm.trans hok)) (by simp)
      | ok k =>
        obtain ⟨hst, hrests⟩ := rests_of_settle hf.grounded hrun
        obtain ⟨-, hf₁, -⟩ := settle_ok hrun hf
        rw [runPasses_cons_ok passes hrun, ih hf₁, ← hst]
        exact ⟨fun h => ⟨hrests, h⟩, And.right⟩

/-- What passes that come to their ends have made of the forest. -/
theorem stages_of_runPasses {n : Nat} {passes : List Pass} (hf : flow.stages.Lawful)
    (h : runPasses policy (n + 1) passes flow = (.ok (), flow')) :
    flow'.stages = Forest.hoist policy n passes flow.stages ∧ flow'.stages.Lawful := by
  induction passes generalizing flow with
  | nil =>
    obtain ⟨-, rfl⟩ := Prod.mk.inj h
    exact ⟨rfl, hf⟩
  | cons pass passes ih =>
    cases hrun : runPass pass policy (n + 1) flow with
    | mk result flow₁ =>
      cases result with
      | error e =>
        rw [runPasses_cons_error passes hrun] at h
        exact absurd (congrArg Prod.fst h) (by simp)
      | ok k =>
        obtain ⟨hst, -⟩ := rests_of_settle hf.grounded hrun
        obtain ⟨-, hf₁, -⟩ := settle_ok hrun hf
        rw [runPasses_cons_ok passes hrun] at h
        obtain ⟨hst', hf'⟩ := ih hf₁ h
        exact ⟨by rw [hst', hst]; rfl, hf'⟩

end Flow

end ChartPipeline
