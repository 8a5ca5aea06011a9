import ChartPipeline.Proofs.Hosting
import ChartPipeline.Proofs.Lineage
import ChartPipeline.Proofs.Rearranging
import ChartPipeline.Proofs.Resting

/-!
# Conversions come to their sources, and none is lost

The pass for conversions joins them on their ways to their sources.  A join keeps the fields of
both; where both name a field, the type that is there already stays.  Since a pass treats every tree
by itself, each root still converts the fields that conversions of its tree named, to types that one
of them gave.

## Key results

- `Ascends.keeps`: a step loses no field, and brings no new type
- `Flow.runPass_parse_places`: where conversions stand after their pass, and what they convert
-/

namespace ChartPipeline

/-- The type that a stage converts a field to. -/
def Stage.target? (field : String) : Stage → Option String
  | parse types => types.get? field
  | _ => none

/-- Grouping by more fields converts nothing. -/
@[simp] theorem Stage.target?_addDimensions (field : String) (dims : List String) (a : Stage) :
    (a.addDimensions dims).target? field = a.target? field := by
  cases a <;> rfl

/-- Only conversions convert. -/
theorem Stage.target?_eq_some {a : Stage} {field type : String} (h : a.target? field = some type) :
    ∃ types : ParseTypes, a = .parse types ∧ types.get? field = some type := by
  cases a with
  | parse types => exact ⟨types, rfl, h⟩
  | _ => exact absurd h (by simp [target?])

/-- No other stage does. -/
theorem Stage.target?_eq_none {a : Stage} (h : a.tag ≠ .parse) (field : String) :
    a.target? field = none := by
  cases a <;> first | rfl | exact absurd rfl h

/-- A join converts what both stages do, and the first has its way. -/
theorem Stage.target?_of_merge? {a b c : Stage} (h : a.merge? b = some c) (field : String) :
    c.target? field = (a.target? field).or (b.target? field) := by
  cases a <;> cases b <;> simp only [merge?, reduceCtorEq, Option.some.injEq] at h <;>
    subst h <;> try rfl
  next types types' =>
    simp only [target?, SortedMap.union, SortedMap.get?_mergeWith]
    cases SortedMap.get? types field <;> cases SortedMap.get? types' field <;> rfl

namespace Forest

variable {policy : FacetPolicy} {f g h : Forest Stage} {ups ups' up : List (Frame Stage)}
  {cs cs' : Forest Stage} {fr : Frame Stage} {n : Nat} {field type : String}

/-- Whether a conversion in the forest gives a field a type. -/
def Converts (f : Forest Stage) (field type : String) : Prop :=
  ∃ e ∈ f.toList, e.2.target? field = some type

/-- What a forest is that converts the fields of another one, to types that are given there. -/
structure Keeps (f g : Forest Stage) : Prop where
  fields {field type : String} : f.Converts field type → ∃ type', g.Converts field type'
  types {field type : String} : g.Converts field type → f.Converts field type

/-- A forest keeps its own conversions. -/
theorem Keeps.refl (f : Forest Stage) : Keeps f f := ⟨fun h => ⟨_, h⟩, id⟩

/-- What is kept at each of two steps is kept by both. -/
theorem Keeps.trans (hfg : Keeps f g) (hgh : Keeps g h) : Keeps f h where
  fields hc := by
    obtain ⟨_, hc⟩ := hfg.fields hc
    exact hgh.fields hc
  types hc := hfg.types (hgh.types hc)

/-- Forests with the same conversions keep each other's. -/
theorem Keeps.of_iff (h : ∀ {field type}, g.Converts field type ↔ f.Converts field type) :
    Keeps f g := ⟨fun hc => ⟨_, h.2 hc⟩, h.1⟩

/-- The nodes of a forest are that of the first frame and those anywhere else. -/
theorem perm_toList_fill_cons (fr : Frame Stage) (up : List (Frame Stage)) (cs : Forest Stage) :
    (fill (fr :: up) cs).toList.Perm
      ((fill up (fr.before ++ (cs ++ fr.after))).toList ++ [(fr.id, fr.content)]) := by
  refine perm_toList_fill up _ (fr.close cs) _ ?_
  simp only [Frame.close, toList_append, toList]
  exact List.perm_middle.trans (List.perm_append_singleton _ _).symm

/-- The conversion in the first frame, and those anywhere else. -/
theorem converts_fill_cons : (fill (fr :: up) cs).Converts field type ↔
    (fill up (fr.before ++ (cs ++ fr.after))).Converts field type ∨
      fr.content.target? field = some type := by
  simp only [Converts, (perm_toList_fill_cons fr up cs).mem_iff, List.mem_append,
    List.mem_singleton, or_and_right, exists_or, exists_eq_left]

/-- A change of one node leaves the others. -/
theorem toList_update (id : Nat) (u : Stage → Stage) (f : Forest Stage) : (f.update id u).toList =
    f.toList.map fun e => (e.1, if e.1 = id then u e.2 else e.2) := by
  induction f with
  | nil => rfl
  | node i a cs rest ihc ihr => simp [update, toList, ihc, ihr]

/-- So the conversions are those of the other nodes, and of what the node is changed to. -/
theorem converts_update {id : Nat} {u : Stage → Stage} :
    (f.update id u).Converts field type ↔
      ∃ e ∈ f.toList, (if e.1 = id then u e.2 else e.2).target? field = some type := by
  simp [Converts, toList_update]

/-- A join converts the fields of both, and where both have one the parent has its way. -/
theorem keeps_join {parent : Frame Stage} {c : Stage}
    (hm : parent.content.merge? fr.content = some c) (up : List (Frame Stage)) (cs : Forest Stage) :
    Keeps (fill (fr :: parent :: up) cs)
      (fill ({ parent with content := c } :: up) (fr.before ++ (cs ++ fr.after))) := by
  have htarget := Stage.target?_of_merge? hm
  constructor
  · intro field type hc
    rw [converts_fill_cons, converts_fill_cons] at hc
    simp only [converts_fill_cons, htarget]
    rcases hc with (hc | hc) | hc
    · exact ⟨type, .inl hc⟩
    · exact ⟨type, .inr (by rw [hc, Option.some_or])⟩
    · cases hp : parent.content.target? field with
      | none => exact ⟨type, .inr (by rw [hc, Option.none_or])⟩
      | some type' => exact ⟨type', .inr (Option.some_or ..)⟩
  · intro field type hc
    rw [converts_fill_cons, htarget] at hc
    rw [converts_fill_cons, converts_fill_cons]
    rcases hc with hc | hc
    · exact .inl (.inl hc)
    · rcases Option.or_eq_some_iff.1 hc with hc | ⟨-, hc⟩
      · exact .inl (.inr hc)
      · exact .inr hc

/-- After an exchange both stages are still there, with the same conversions. -/
theorem converts_lift {parent : Frame Stage} {i : Nat} {b : Stage} (dims : List String)
    (up : List (Frame Stage)) (cs : Forest Stage) :
    (fill ({ parent with id := i, content := b.addDimensions dims } :: up)
      (node parent.id parent.content cs nil)).Converts field type ↔
    (fill (⟨nil, i, b, nil⟩ :: parent :: up) cs).Converts field type := by
  rw [converts_fill_cons, converts_fill_cons, Stage.target?_addDimensions]
  refine or_congr_left ?_
  rw [nil_append, append_nil]
  exact Iff.rfl

/-- A conversion that takes in another one has its way, and the other one is taken out. -/
theorem keeps_absorb {other : Nat} {types types' : ParseTypes}
    (hn : (fill (fr :: up) cs).walk.Nodup) (hfr : fr.content = .parse types)
    (ho : (fill (fr :: up) cs).content? other = some (.parse types')) (hne : other ≠ fr.id) :
    Keeps (fill (fr :: up) cs)
      ((fill up (fr.before ++ (cs ++ fr.after))).update other
        fun _ => .parse (types'.union types)) := by
  have hunion (field : String) : (Stage.parse (types'.union types)).target? field =
      (SortedMap.get? types' field).or (fr.content.target? field) := by
    rw [hfr]
    exact Stage.target?_of_merge? (a := .parse types') (b := .parse types) rfl field
  have hperm := perm_toList_fill_cons fr up cs
  have hmem : (other, Stage.parse types') ∈
      (fill up (fr.before ++ (cs ++ fr.after))).toList := by
    obtain ⟨e, he, hid⟩ := List.mem_map.1 (mem_walk_of_content? ho)
    obtain rfl : e = (other, .parse types') :=
      Prod.ext hid (content_eq_of_mem_toList hn ho he hid)
    refine (List.mem_append.1 (hperm.mem_iff.1 he)).resolve_right fun h => hne ?_
    exact (Prod.mk.inj (List.mem_singleton.1 h)).1
  constructor
  · intro field type hc
    simp only [converts_update]
    rcases converts_fill_cons.1 hc with ⟨e, he, hc⟩ | hc
    · -- a conversion that stays, be it the one that takes in the other or not
      by_cases hid : e.1 = other
      · have hcontent := content_eq_of_mem_toList hn ho
          (hperm.mem_iff.2 (List.mem_append_left _ he)) hid
        rw [hcontent] at hc
        have htypes : SortedMap.get? types' field = some type := hc
        exact ⟨type, e, he, by rw [if_pos hid, hunion, htypes, Option.some_or]⟩
      · exact ⟨type, e, he, by rwa [if_neg hid]⟩
    · -- the one that is taken out, which may not have its way
      cases hp : SortedMap.get? types' field with
      | none => exact ⟨type, _, hmem, by rw [if_pos rfl, hunion, hp, hc, Option.none_or]⟩
      | some type' => exact ⟨type', _, hmem, by rw [if_pos rfl, hunion, hp, Option.some_or]⟩
  · intro field type hc
    obtain ⟨e, he, hc⟩ := converts_update.1 hc
    rw [converts_fill_cons]
    split at hc
    · rw [hunion] at hc
      rcases Option.or_eq_some_iff.1 hc with hc | ⟨-, hc⟩
      · exact .inl ⟨_, hmem, hc⟩
      · exact .inr hc
    · exact .inl ⟨e, he, hc⟩

/-- A stage that is put below the outermost one is still there. -/
theorem converts_relocate {parent root : Frame Stage} (up : List (Frame Stage))
    (cs : Forest Stage) :
    (fill (withSibling (leaf fr.id fr.content) (parent :: up) ++ [root])
      (fr.before ++ (cs ++ fr.after))).Converts field type ↔
    (fill (fr :: parent :: (up ++ [root])) cs).Converts field type := by
  have hperm := perm_toList_fill [root] (fill (parent :: up) (fr.before ++ (cs ++ fr.after)))
    (fill (parent :: up) (fr.before ++ (cs ++ fr.after)) ++ leaf fr.id fr.content)
    [(fr.id, fr.content)] (by rw [toList_append, leaf]; simp [toList])
  rw [← fill_cons_concat, ← fill_withSibling, ← fill_concat] at hperm
  have hold := perm_toList_fill_cons fr (parent :: (up ++ [root])) cs
  simp only [Converts, (hperm.trans hold.symm).mem_iff]

/-- Every step of the pass for conversions keeps the fields that are converted. -/
theorem Ascends.keeps (h : Ascends .parse policy ups cs ups' cs' n)
    (hn : (fill ups cs).walk.Nodup) : Keeps (fill ups cs) (fill ups' cs') := by
  cases h with
  | stay => exact .refl _
  | join hmove hj up cs => exact keeps_join hj.merged up cs
  | @rise fr parent dims hmove hr hal up cs =>
    obtain ⟨before, i, b, after⟩ := fr
    obtain ⟨rfl, rfl⟩ := Frame.alone_iff.1 hal
    exact .of_iff (converts_lift dims up cs)
  | absorb hmove hfr ho hne =>
    rw [← update_fill]
    exact keeps_absorb hn hfr ho hne
  | relocate hmove hfr hs up cs => exact .of_iff (converts_relocate up cs)

/-- So does any number of steps. -/
theorem keeps_of_steps (hsteps : Relation.ReflTransGen (Steps .parse policy) f g) : Keeps f g := by
  induction hsteps with
  | refl => exact .refl f
  | tail _ hstep ih =>
    obtain ⟨hn, hstep⟩ := hstep
    exact ih.trans (hstep.keeps hn)

/-! ### Tree by tree -/

/-- A source converts nothing itself. -/
theorem converts_tree {i : Nat} {a : Stage} (ha : a.tag = .source) :
    (node i a cs nil).Converts field type ↔ cs.Converts field type := by
  have hnone : a.target? field = none := Stage.target?_eq_none (by rw [ha]; simp) field
  simp [Converts, toList, hnone]

/-- Below each source, what the pass for conversions makes of a forest converts the same fields. -/
theorem keeps_under {i : Nat} {a : Stage} (hf : f.Grounded) (hi : (i, a) ∈ f.heads) (n : Nat)
    (policy : FacetPolicy) :
    Keeps (f.under i) ((rounds .parse policy (n + 1) f).under i) := by
  have ha := hf.sourced _ hi
  have hunder : (Forest.hoist policy (n + 1) [.parse] f).under i =
      (Forest.hoist policy (n + 1) [.parse] (node i a (f.under i) nil)).under i :=
    under_hoist_tree hf.sourced hf.nodup hi
  -- what the pass makes of the tree is what it makes of it alone
  obtain ⟨t, ht⟩ := @hoist_tree policy [.parse] (n + 1) (f.under i) i a ha
  rw [ht, under, if_pos rfl] at hunder
  -- the tree alone is a forest that the pass runs over
  have htree : (node i a (f.under i) nil).Grounded := by
    obtain ⟨before, after, heq⟩ := exists_append_of_mem_heads (nodup_roots hf.nodup) hi
    refine ⟨?_, ?_⟩
    · have hn := hf.nodup
      rw [heq, walk_append, walk_append] at hn
      exact (List.nodup_append.1 (List.nodup_append.1 hn).2.1).1
    · intro e he
      obtain rfl := List.mem_singleton.1 he
      exact ha
  obtain ⟨k, flow', hrun, -, -⟩ := @Flow.runPass_parse { stages := node i a (f.under i) nil } policy
    (n + 2) (by omega) htree
  obtain ⟨hst, -⟩ := Flow.rests_of_settle htree hrun
  have hkeeps := keeps_of_steps (Flow.runPass_steps hrun htree.nodup).1
  rw [hst, show rounds .parse policy (n + 1) (node i a (f.under i) nil) = node i a t nil from ht]
    at hkeeps
  rw [show rounds .parse policy (n + 1) f = Forest.hoist policy (n + 1) [.parse] f from rfl, hunder]
  exact ⟨fun hc => (hkeeps.fields ((converts_tree ha).2 hc)).imp fun _ => (converts_tree ha).1,
    fun hc => (converts_tree ha).1 (hkeeps.types ((converts_tree ha).2 hc))⟩

/-- Passes bring no source but where one was: where only roots were sources, only roots are. -/
theorem roots_of_prune {f g : Forest Stage} {pass : Pass}
    (hprune : g.prune (fun a => pass.handles a.tag) = f.prune fun a => pass.handles a.tag)
    (hheads : g.heads = f.heads) (hs : ∀ e ∈ f.toList, e.2.tag = .source → e.1 ∈ f.roots) :
    ∀ e ∈ g.toList, e.2.tag = .source → e.1 ∈ g.roots := by
  intro e he ht
  -- no pass moves sources, so it was there before
  have hkept : e ∈ (g.prune fun a => pass.handles a.tag).toList := by
    rw [toList_prune, List.mem_filter, ht]
    exact ⟨he, by cases pass <;> rfl⟩
  rw [hprune, toList_prune] at hkept
  rw [← map_fst_heads, hheads, map_fst_heads]
  exact hs e (List.mem_filter.1 hkept).1 ht

/-- A conversion that is covered has a source as its parent. -/
theorem Covered.parent_source (hf : f.Grounded) (h : f.Covered [] true) {id : Nat}
    {types : ParseTypes} (hid : f.content? id = some (.parse types)) :
    ∃ p a, f.parent? id = some p ∧ f.content? p = some a ∧ a.tag = .source := by
  obtain ⟨fr, up, cs, rfl, rfl⟩ := exists_fill_of_mem (mem_walk_of_content? hid)
  rw [content?_first hf.nodup, Option.some_inj] at hid
  have hloads := h.loads_of_parse (by rw [hid]; rfl)
  cases up with
  | nil =>
    have hsource := @Sourced.source_of_fill_concat [] fr cs hf.sourced
    rw [hid] at hsource
    exact absurd hsource (by simp [Stage.tag])
  | cons parent up =>
    have hn : (fill (parent :: up) (fr.close cs)).walk.Nodup := hf.nodup
    exact ⟨parent.id, parent.content, parent?_first (parent :: up) hf.nodup, content?_first hn,
      of_decide_eq_true hloads⟩

end Forest

namespace Flow

open Forest

variable {policy : FacetPolicy} {flow : Flow} {n : Nat} {root : Nat} {field type : String}

/-- Whether a conversion in the tree of a root gives a field a type. -/
def Converts (flow : Flow) (root : Nat) (field type : String) : Prop :=
  ∃ id types, flow.stages.content? id = some (.parse types) ∧ flow.stages.rootOf id = root ∧
    types.get? field = some type

/-- The conversions in the tree of a root are those below it. -/
theorem converts_iff_under (hf : flow.stages.Grounded) (hroot : root ∈ flow.stages.roots) :
    flow.Converts root field type ↔ (flow.stages.under root).Converts field type := by
  have hn := hf.nodup
  constructor
  · rintro ⟨id, types, hcontent, hid, hget⟩
    have hbelow : id ∈ (flow.stages.under root).walk := by
      rcases mem_roots_or_under (nodup_roots hn) (mem_walk_of_content? hcontent) with hr | ⟨i, -, hu⟩
      · -- the root is a source
        obtain ⟨a, ha⟩ := exists_mem_heads hr
        have hsource := hf.sourced _ ha
        have := (@content?_of_mem_heads _ _ id a [] hn ha).symm.trans hcontent
        rw [Option.some.inj this] at hsource
        exact absurd hsource (by simp [Stage.tag])
      · obtain rfl := (rootOf_of_mem_under hn hu).symm.trans hid
        exact hu
    obtain ⟨e, he, rfl⟩ := List.mem_map.1 hbelow
    refine ⟨e, he, ?_⟩
    rw [content_eq_of_mem_toList hn hcontent (mem_toList_of_mem_under he) rfl]
    exact hget
  -- a conversion below the root has it as its root
  · rintro ⟨⟨id, a⟩, he, ht⟩
    have hcontent := content?_of_mem_toList hn (mem_toList_of_mem_under he)
    obtain ⟨types, rfl, hget⟩ := Stage.target?_eq_some ht
    exact ⟨id, types, hcontent, rootOf_of_mem_under hn (List.mem_map_of_mem he), hget⟩

/-- The pass for conversions in a flow whose roots, and no other stages, are sources.  If it may take
    two sweeps it takes at most two, and then
    - every conversion is a child of its root, which is a source;
    - the roots are the same, and the conversions in the tree of each name the same fields;
    - a field keeps its type if all conversions of the tree that named it agreed on that. -/
theorem runPass_parse_places (policy : FacetPolicy) (hn : flow.stages.walk.Nodup)
    (hs : ∀ id ∈ flow.stages.walk, flow.tag? id = some .source ↔ id ∈ flow.stages.roots)
    (hle : 2 ≤ n) :
    ∃ k flow', runPass .parse policy n flow = (.ok k, flow') ∧ k ≤ 2 ∧
      (∀ id types, flow'.stages.content? id = some (.parse types) →
        flow'.stages.parent? id = some (flow'.stages.rootOf id) ∧
          flow'.tag? (flow'.stages.rootOf id) = some .source) ∧
      flow'.stages.heads = flow.stages.heads ∧
      ∀ root ∈ flow.stages.roots, ∀ field,
        ((∃ type, flow'.Converts root field type) ↔ ∃ type, flow.Converts root field type) ∧
          ∀ type, (∀ type', flow.Converts root field type' ↔ type' = type) →
            ∀ type', flow'.Converts root field type' ↔ type' = type := by
  have hf : flow.stages.Grounded :=
    grounded_of_roots hn fun id hid => (hs id (mem_walk_of_mem_roots hid)).2 hid
  obtain ⟨k, flow', hrun, hk, hcovered⟩ := runPass_parse policy hle hf
  obtain ⟨hsteps, -⟩ := runPass_steps hrun hn
  obtain ⟨hf', hheads⟩ := hf.of_steps hsteps
  have hroots : ∀ e ∈ flow'.stages.toList, e.2.tag = .source → e.1 ∈ flow'.stages.roots := by
    refine roots_of_prune (prune_of_steps hsteps) hheads fun e he ht => ?_
    refine (hs e.1 (List.mem_map_of_mem he)).1 ?_
    rw [tag?_of_content? (content?_of_mem_toList hn he), ht]
  refine ⟨k, flow', hrun, hk, fun id types hid => ?_, hheads, fun root hroot field => ?_⟩
  · obtain ⟨p, a, hp, ha, ht⟩ := hcovered.parent_source hf' hid
    obtain ⟨e, he, rfl⟩ := List.mem_map.1 (mem_walk_of_content? ha)
    have hpe := content_eq_of_mem_toList hf'.nodup ha he rfl
    have hpr := hroots e he (by rw [hpe, ht])
    -- the parent is a root, so it is that of the conversion
    have hrootOf : flow'.stages.rootOf id = e.1 := by
      rw [rootOf, ancestors_of_parent? hf'.nodup hp, List.getLastD_cons]
      exact rootOf_of_mem_roots hf'.nodup hpr
    rw [hrootOf]
    exact ⟨hp, by rw [tag?_of_content? ha, ht]⟩
  · obtain ⟨a, ha⟩ := exists_mem_heads hroot
    have hroot' : root ∈ flow'.stages.roots := by
      rw [← map_fst_heads, hheads, map_fst_heads]
      exact hroot
    obtain ⟨n, rfl⟩ := Nat.exists_eq_add_of_le' hle
    obtain ⟨hst, -⟩ := rests_of_settle hf hrun
    have hkeeps := keeps_under hf ha n policy
    rw [← hst] at hkeeps
    simp only [converts_iff_under hf hroot, converts_iff_under hf' hroot']
    refine ⟨⟨?_, ?_⟩, fun type hagree type' => ⟨fun hc => (hagree type').1 (hkeeps.types hc), ?_⟩⟩
    · rintro ⟨_, hc⟩
      exact ⟨_, hkeeps.types hc⟩
    · rintro ⟨_, hc⟩
      exact hkeeps.fields hc
    · -- the field is still converted, to a type that was given before
      rintro rfl
      obtain ⟨type', hc⟩ := hkeeps.fields ((hagree type').2 rfl)
      rwa [(hagree type').1 (hkeeps.types hc)] at hc

/-- Both conversions of the example give one type. -/
theorem forkedConversions_converts : forkedConversions.Converts 0 "x" type ↔ type = "number" := by
  constructor
  · rintro ⟨id, types, hcontent, -, hget⟩
    have hid : id ∈ [0, 1, 2, 3, 4, 5] := mem_walk_of_content? hcontent
    simp only [List.mem_cons, List.not_mem_nil, or_false] at hid
    rcases hid with rfl | rfl | rfl | rfl | rfl | rfl <;> cases hcontent
    · exact (Option.some.inj hget).symm
    · exact absurd hget (show (none : Option String) ≠ some type by simp)
  · rintro rfl
    exact ⟨2, _, rfl, rfl, rfl⟩

/-- Both conversions come to stand below the source as one, which still converts what the first of
    them did. -/
theorem runPass_parse_places_forkedConversions : ∃ k flow',
    runPass .parse .foldGroupby 2 forkedConversions = (.ok k, flow') ∧ k ≤ 2 ∧
      flow'.stages.parent? 2 = some 0 ∧ flow'.tag? 0 = some .source ∧
      ∀ type', flow'.Converts 0 "x" type' ↔ type' = "number" := by
  have hn : forkedConversions.stages.walk.Nodup := by decide
  have hs : ∀ id ∈ forkedConversions.stages.walk,
      forkedConversions.tag? id = some .source ↔ id ∈ forkedConversions.stages.roots := by decide
  obtain ⟨k, flow', hrun, hk, hplace, -, hroots⟩ :=
    runPass_parse_places (n := 2) .foldGroupby hn hs (by decide)
  obtain ⟨-, hkept⟩ := hroots 0 (by decide) "x"
  have hflow : flow' = (runPass .parse .foldGroupby 2 forkedConversions).2 := by rw [hrun]
  obtain ⟨hparent, htag⟩ := hplace 2 _ (by rw [hflow]; rfl)
  have hroot : flow'.stages.rootOf 2 = 0 := by rw [hflow]; rfl
  rw [hroot] at hparent htag
  exact ⟨k, flow', hrun, hk, hparent, htag, hkept "number" fun _ => forkedConversions_converts⟩

end Flow

end ChartPipeline
