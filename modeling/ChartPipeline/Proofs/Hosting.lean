import ChartPipeline.Proofs.Extents
import ChartPipeline.Proofs.Loading
import ChartPipeline.Proofs.Separating
import ChartPipeline.Proofs.Unfailing

/-!
# Copies of several forests below shared sources

Below the roots of a forest there may stand copies of several other forests, side by side.  Passes
over it come to their ends if they do over each of the others, and make of it the same but for
conversions; below a source that holds a copy of only one forest, these are the same as well.

## Key results

- `Hosts.ends`: passes over copies come to their ends
- `Hosts.bare_under`: what passes make of copies, but for conversions
- `Hosts.under_of_sole`: what passes make of a copy that has its source for itself
-/

namespace ChartPipeline

namespace Forest

variable {policy : FacetPolicy} {passes passes' : List Pass} {n : Nat} {f g : Forest Stage}

/-! ### Several passes -/

/-- Passes one after the other make what the first make and then the others. -/
theorem hoist_append_passes : hoist policy n (passes ++ passes') f =
    hoist policy n passes' (hoist policy n passes f) := by
  induction passes generalizing f with
  | nil => rfl
  | cons pass passes ih => exact ih

/-- They come to their ends if the first do, and the others after them. -/
theorem ends_append_passes : Ends policy n (passes ++ passes') f ↔
    Ends policy n passes f ∧ Ends policy n passes' (hoist policy n passes f) := by
  induction passes generalizing f with
  | nil => simp [Ends, hoist]
  | cons pass passes ih => rw [List.cons_append, Ends, ih, Ends, hoist, and_assoc]

/-! ### Stages that are left out -/

section Prune

variable {α : Type} {f : Forest α} {p q : α → Bool} {i : Nat} {a : α} {r : List (Nat × α)}
  {v : Place α}

/-- It does not matter which stages are left out first. -/
theorem prune_comm : (f.prune p).prune q = (f.prune q).prune p := by
  induction f with
  | nil => rfl
  | node i a cs rest ihc ihr =>
    cases hp : p a <;> cases hq : q a <;> simp [prune, hp, hq, ihc, ihr]

/-- The roots are left where none of them is left out. -/
theorem heads_prune (h : ∀ e ∈ f.heads, p e.2 = false) : (f.prune p).heads = f.heads := by
  induction f with
  | nil => rfl
  | node i a cs rest _ ih =>
    have ha : p a = false := h (i, a) List.mem_cons_self
    rw [prune, if_neg (by simp [ha]), heads, heads,
      ih fun e he => h e (List.mem_cons_of_mem _ he)]

/-- So are the trees below them, but for what is left out there. -/
theorem under_prune (h : ∀ e ∈ f.heads, p e.2 = false) (i : Nat) :
    (f.prune p).under i = (f.under i).prune p := by
  induction f with
  | nil => rfl
  | node j a cs rest _ ih =>
    have ha : p a = false := h (j, a) List.mem_cons_self
    rw [prune, if_neg (by simp [ha]), under, under]
    split
    · rfl
    · exact ih fun e he => h e (List.mem_cons_of_mem _ he)

/-- The places below a root are those of the trees below it. -/
theorem mem_places_under (hn : f.roots.Nodup) (hi : v.above = (i, a) :: r) :
    v ∈ f.places [] ↔ (i, a) ∈ f.heads ∧ ⟨r, v.id, v.content⟩ ∈ (f.under i).places [] := by
  induction f with
  | nil => simp [heads]
  | node j b cs rest _ ih =>
    obtain ⟨hj, hrest⟩ := List.nodup_cons.1 hn
    have hroot : v ≠ ⟨[], j, b⟩ := fun e => by simp [e] at hi
    have hbelow : v ∈ cs.places ([] ++ [(j, b)]) ↔
        (j, b) = (i, a) ∧ ⟨r, v.id, v.content⟩ ∈ cs.places [] := by
      rw [mem_places_concat]
      constructor
      · rintro ⟨u, hu, rfl⟩
        obtain ⟨he, rfl⟩ := List.cons.inj hi
        exact ⟨he, hu⟩
      · rintro ⟨he, hu⟩
        exact ⟨_, hu, by simp [Place.under, he, ← hi]⟩
    rw [places, List.mem_cons, List.mem_append, hbelow, ih hrest, heads, List.mem_cons, under,
      or_iff_right hroot]
    by_cases hji : j = i
    · subst hji
      have hnot : (j, a) ∉ rest.heads := fun h => hj (mem_roots_of_mem_heads h)
      simp only [if_true, hnot, false_and, or_false, Prod.mk.injEq, true_and]
      exact and_congr_left' eq_comm
    · simp only [Prod.mk.injEq, hji, Ne.symm hji, false_and, false_or, if_false]

end Prune

/-- The stages that are left once conversions and stages that do nothing are left out. -/
def bare (f : Forest Stage) : Forest Stage := (f.prune (·.tag = .parse)).prune Stage.isVacuous

/-- Conversions may be left out last. -/
theorem prune_parse_prune (f : Forest Stage) :
    (f.prune Stage.isVacuous).prune (·.tag = .parse) = f.bare :=
  prune_comm

/-- Trees side by side are bared one by one. -/
theorem bare_append : (f ++ g).bare = f.bare ++ g.bare := by
  rw [bare, prune_append, prune_append, bare, bare]

/-- The copy of a forest is bared as it is. -/
theorem bare_recast {ρ : Nat → Nat} {σ : Source → Source} :
    (f.recast ρ σ).bare = f.bare.recast ρ σ := by
  rw [bare, bare, prune_recast Stage.isVacuous_recast, prune_recast fun a => by rw [Stage.tag_recast]]

/-- A source is no conversion. -/
theorem Sourced.not_parse (hs : f.Sourced) : ∀ e ∈ f.heads, (e.2.tag = .parse : Bool) = false := by
  intro e he
  simp [hs e he]

/-- A source is never without effect. -/
theorem Sourced.not_vacuous (hs : f.Sourced) : ∀ e ∈ f.heads, e.2.isVacuous = false := by
  intro e he
  have := hs e he
  revert this
  cases e.2 <;> simp [Stage.tag, Stage.isVacuous]

/-- Leaving out conversions leaves the sources. -/
theorem Sourced.heads_prune_parse (hs : f.Sourced) : (f.prune (·.tag = .parse)).heads = f.heads :=
  @heads_prune _ f (fun a => decide (a.tag = .parse)) hs.not_parse

/-- So does leaving out the stages that do nothing as well. -/
theorem Sourced.heads_bare (hs : f.Sourced) : f.bare.heads = f.heads := by
  rw [bare, heads_prune (by rw [hs.heads_prune_parse]; exact hs.not_vacuous), hs.heads_prune_parse]

/-- What is below a source is bared by itself. -/
theorem Sourced.under_bare (hs : f.Sourced) (i : Nat) : f.bare.under i = (f.under i).bare := by
  rw [bare, under_prune (by rw [hs.heads_prune_parse]; exact hs.not_vacuous),
    @under_prune _ f (fun a => decide (a.tag = .parse)) hs.not_parse, bare]

/-- The pass for conversions changes nothing else. -/
theorem bare_hoist_parse (hf : f.Lawful) (h : Ends policy n [.parse] f) :
    (hoist policy n [.parse] f).bare = f.bare := by
  obtain ⟨flow', hrun⟩ := (@Flow.runPasses_iff { stages := f } policy n [.parse] hf).2 h
  obtain ⟨hst, -⟩ := Flow.stages_of_runPasses hf hrun
  cases Flow.runPasses_ok hrun hf with
  | cons hr hg hs rest =>
    cases rest
    rw [← hst, bare, bare]
    congr 1
    generalize flow'.stages = g at hr
    clear hs hg hrun hst
    -- each of its moves is about conversions only
    induction hr with
    | refl => rfl
    | tail _ h ih => exact h.prune_parse.trans ih

/-! ### Conversions that stand below their sources -/

/-- In a copy, conversions stand below sources as they do in the forest. -/
theorem covered_recast {ρ : Nat → Nat} {σ : Source → Source} {loaded : Bool} :
    (f.recast ρ σ).Covered [] loaded ↔ f.Covered [] loaded := by
  induction f generalizing loaded with
  | nil => exact Iff.rfl
  | node i a cs rest ihc ihr => simp [Covered, ihc, ihr]

/-- A forest is covered where the trees below each source are. -/
theorem Sourced.covered_iff (hs : f.Sourced) (hn : f.roots.Nodup) :
    f.Covered [] true ↔ ∀ i ∈ f.roots, (f.under i).Covered [] true := by
  induction f with
  | nil => simp [Covered, roots]
  | node i a cs rest _ ih =>
    have ha : a.tag = .source := hs (i, a) List.mem_cons_self
    obtain ⟨hi, hrest⟩ := List.nodup_cons.1 hn
    rw [Covered, ih (fun e he => hs e (List.mem_cons_of_mem _ he)) hrest, roots,
      List.forall_mem_cons, under, if_pos rfl]
    simp only [ha, reduceCtorEq, false_imp_iff, true_and, decide_true]
    refine and_congr_right fun _ => forall₂_congr fun j hj => ?_
    rw [under, if_neg fun e : i = j => hi (e ▸ hj)]

/-- Conversions with a source as the next stage above them are covered. -/
theorem covered_of_places {above : List (Nat × Stage)} {loaded : Bool}
    (h : ∀ v ∈ f.places above, v.content.tag = .parse →
      ∃ l s, v.above = l ++ [s] ∧ s.2.tag = .source)
    (habove : ∀ l s, above = l ++ [s] → s.2.tag = .source → loaded = true) :
    f.Covered [] loaded := by
  induction f generalizing above loaded with
  | nil => trivial
  | node i a cs rest ihc ihr =>
    have hcs : ∀ v ∈ cs.places (above ++ [(i, a)]), v ∈ (node i a cs rest).places above :=
      fun v hv => by simp [places, hv]
    refine ⟨fun ht => ?_, ihc (fun v hv => h v (hcs v hv)) ?_,
      ihr (fun v hv => h v (by simp [places, hv])) habove⟩
    · obtain ⟨l, s, hl, hs⟩ := h ⟨above, i, a⟩ (by simp [places]) ht
      exact .inl (habove l s hl hs)
    -- below this root, the next stage above is the root
    · intro l s hl hs
      obtain ⟨-, hs'⟩ := List.append_inj' hl rfl
      obtain rfl : (i, a) = s := by simpa using hs'
      simpa using hs

/-- The pass for conversions comes to its end after one sweep, and after none where they stand below
    their sources. -/
theorem ends_parse_iff (hf : f.Lawful) :
    Ends policy n [.parse] f ↔ n ≠ 0 ∨ f.Covered [] true := by
  have hst : ({ stages := f } : Flow).stages = f := rfl
  rw [← @Flow.runPasses_iff { stages := f } policy n [.parse] hf]
  constructor
  · rintro ⟨flow', hrun⟩
    refine (em (n = 0)).symm.imp_right fun hn => ?_
    subst hn
    -- a pass that may sweep once succeeds where it has come to its end already
    obtain ⟨hsame, -⟩ := Flow.stages_of_runPasses hf hrun
    cases Flow.runPasses_ok hrun hf with
    | cons _ hg hs rest =>
      cases rest
      rw [hsame] at hs
      exact covered_of_places (fun v hv ht => hs.parse_above hf hv ht) fun _ _ h => by simp at h
  · rintro (hn | hc)
    · obtain ⟨k, flow', hrun, -⟩ :=
        @Flow.runPass_parse { stages := f } policy (n + 1) (by omega) hf.grounded
      exact ⟨flow', Flow.runPasses_cons_ok [] hrun⟩
    · obtain ⟨flow', hrun, -⟩ :=
        @Flow.runPass_of_settled .parse policy { stages := f } (n + 1) (by omega) hf
          (hc.settled policy)
      exact ⟨flow', Flow.runPasses_cons_ok [] hrun⟩

/-! ### Forests side by side -/

/-- The trees of several forests. -/
def join (fs : List (Forest Stage)) : Forest Stage := fs.foldr (· ++ ·) nil

section Join

variable {fs gs : List (Forest Stage)} {loaded : Bool}

/-- No forests have no trees. -/
@[simp] theorem join_nil : join [] = nil := rfl

/-- The trees of the first forest come first. -/
@[simp] theorem join_cons : join (f :: fs) = f ++ join fs := rfl

/-- The trees of several forests and of others are those of all of them. -/
theorem join_append : join (fs ++ gs) = join fs ++ join gs := by
  induction fs with
  | nil => rfl
  | cons f fs ih => rw [List.cons_append, join_cons, ih, join_cons, append_assoc]

/-- Passes treat forests with different names apart. -/
theorem hoist_join (hn : (join fs).walk.Nodup) :
    hoist policy n passes (join fs) = join (fs.map (hoist policy n passes)) := by
  induction fs with
  | nil => exact hoist_nil
  | cons f fs ih =>
    rw [join_cons] at hn ⊢
    have hrest := (List.nodup_append.1 (walk_append f _ ▸ hn)).2.1
    rw [hoist_append (separate_of_nodup hn), ih hrest, List.map_cons, join_cons]

/-- They come to their ends if they do over each of them. -/
theorem ends_join (hn : (join fs).walk.Nodup) :
    Ends policy n passes (join fs) ↔ ∀ f ∈ fs, Ends policy n passes f := by
  induction fs with
  | nil => simpa using ends_nil
  | cons f fs ih =>
    rw [join_cons] at hn ⊢
    have hrest := (List.nodup_append.1 (walk_append f _ ▸ hn)).2.1
    rw [ends_append (separate_of_nodup hn), ih hrest, List.forall_mem_cons]

/-- Conversions are covered if they are in each of them. -/
theorem covered_join : (join fs).Covered [] loaded ↔ ∀ f ∈ fs, f.Covered [] loaded := by
  induction fs with
  | nil => simp [Covered]
  | cons f fs ih => rw [join_cons, covered_append, ih, List.forall_mem_cons]

end Join

/-! ### Copies -/

/-- A forest and the names that it has elsewhere. -/
structure Copy where
  rename : Nat → Nat
  stages : Forest Stage

/-- What stands below a root elsewhere, and reads the sources there. -/
def Copy.under (c : Copy) (σ : Source → Source) (j : Nat) : Forest Stage :=
  (c.stages.recast c.rename σ).under j

/-- A forest below whose roots there stand copies of other forests, side by side. -/
structure Hosts (f : Forest Stage) (copies : List Copy) : Prop where
  lawful : f.Lawful
  under_eq : ∀ σ j, f.under j = join (copies.map fun c => c.under σ j)
  injective : ∀ c ∈ copies, c.rename.Injective
  copy_lawful : ∀ c ∈ copies, c.stages.Lawful

/-- In a copy every tree begins with a source, too. -/
theorem Sourced.recast {ρ : Nat → Nat} {σ : Source → Source} (hs : f.Sourced) :
    (f.recast ρ σ).Sourced := by
  intro e he
  rw [heads_recast] at he
  obtain ⟨e', he', rfl⟩ := List.mem_map.1 he
  simpa using hs e' he'

/-- Passes that come to their ends leave a forest lawful. -/
theorem Lawful.hoist (hf : f.Lawful) (h : Ends policy n passes f) :
    (hoist policy n passes f).Lawful := by
  obtain ⟨flow', hrun⟩ := (@Flow.runPasses_iff { stages := f } policy n passes hf).2 h
  obtain ⟨hst, hf'⟩ := Flow.stages_of_runPasses hf hrun
  exact hst ▸ hf'

/-- Passes treat a tree by itself. -/
theorem under_hoist_tree {i : Nat} {a : Stage} (hs : f.Sourced) (hn : f.walk.Nodup)
    (hi : (i, a) ∈ f.heads) : (Forest.hoist policy n passes f).under i =
      (Forest.hoist policy n passes (node i a (f.under i) nil)).under i := by
  obtain ⟨before, after, heq⟩ := exists_append_of_mem_heads (nodup_roots hn) hi
  generalize f.under i = cs at heq
  subst heq
  have hrest := (List.nodup_append.1 (walk_append before _ ▸ hn)).2.1
  have hnot : i ∉ before.walk := fun h => separate_of_nodup hn i h (by simp)
  obtain ⟨t, ht⟩ := @hoist_tree policy passes n cs i a (hs _ hi)
  rw [hoist_append (separate_of_nodup hn), hoist_append (separate_of_nodup hrest), ht,
    under_append_of_notMem fun h => hnot (mem_walk_hoist (mem_walk_of_mem_roots h))]
  simp [under]

namespace Hosts

variable {copies : List Copy} {c : Copy} {i j : Nat} {σ : Source → Source}

/-- What passes make of a copy below a root, up to the one for conversions. -/
theorem hoist_under (h : Hosts f copies) (hp : .parse ∉ passes) (hc : c ∈ copies)
    (σ : Source → Source) (j : Nat) : Forest.hoist policy n passes (c.under σ j) =
      ((Forest.hoist policy n passes c.stages).recast c.rename σ).under j := by
  have hρ := h.injective c hc
  have hn := (@nodup_recast c.rename σ _ hρ).2 (h.copy_lawful c hc).nodup
  rw [Copy.under, ← Forest.under_hoist (h.copy_lawful c hc).sourced.recast hn hp, hoist_recast hρ]

/-- Passes over a copy come to their ends below each of its roots. -/
theorem ends_under (h : Hosts f copies) (hp : .parse ∉ passes) (hc : c ∈ copies)
    (hends : Ends policy n passes c.stages) (j : Nat) : Ends policy n passes (c.under σ j) := by
  have hρ := h.injective c hc
  have hn := (@nodup_recast c.rename σ _ hρ).2 (h.copy_lawful c hc).nodup
  -- nothing stands below a name that is no root
  by_cases hj : j ∈ (c.stages.recast c.rename σ).roots
  · exact (ends_iff (h.copy_lawful c hc).sourced.recast hn hp).1 ((ends_recast hρ).2 hends) j hj
  · rw [Copy.under, under_of_notMem hj]
    exact ends_nil

/-- Passes over copies come to their ends if they do over each of the others alone. -/
theorem ends (h : Hosts f copies) (hp : .parse ∉ passes)
    (hends : ∀ c ∈ copies, Ends policy n (passes ++ [.parse]) c.stages) :
    Ends policy n (passes ++ [.parse]) f := by
  have hn := h.lawful.nodup
  -- the passes before the one for conversions, below each root by itself
  have hfirst : Ends policy n passes f := by
    rw [ends_iff h.lawful.sourced hn hp]
    intro j _
    have hunder := nodup_under (i := j) hn
    rw [h.under_eq id] at hunder ⊢
    rw [ends_join hunder, List.forall_mem_map]
    exact fun c hc => h.ends_under hp hc (ends_append_passes.1 (hends c hc)).1 j
  have hf := h.lawful.hoist hfirst
  rw [ends_append_passes, ends_parse_iff hf, hf.sourced.covered_iff (nodup_roots hf.nodup)]
  refine ⟨hfirst, (em (n = 0)).symm.imp_right fun hn0 j _ => ?_⟩
  have hunder := nodup_under (i := j) hn
  rw [Forest.under_hoist h.lawful.sourced hn hp, h.under_eq id] at *
  rw [hoist_join hunder, covered_join, List.forall_mem_map, List.forall_mem_map]
  intro c hc
  have hρ := h.injective c hc
  -- with no sweep to make, the conversions of a copy stand below their sources
  obtain ⟨hown, hparse⟩ := ends_append_passes.1 (hends c hc)
  have hlawful := (h.copy_lawful c hc).hoist hown
  have hcovered := ((ends_parse_iff hlawful).1 hparse).resolve_left (by simp [hn0])
  rw [h.hoist_under hp hc]
  by_cases hj : j ∈ ((Forest.hoist policy n passes c.stages).recast c.rename id).roots
  · have hn' := (@nodup_recast c.rename id _ hρ).2 hlawful.nodup
    exact (hlawful.sourced.recast.covered_iff (nodup_roots hn')).1 (covered_recast.2 hcovered) j hj
  · rw [under_of_notMem hj]
    trivial

/-- What passes make of a copy, but for conversions, stands between other trees below its source. -/
theorem bare_under (h : Hosts f copies) (hp : .parse ∉ passes)
    (hends : ∀ c ∈ copies, Ends policy n (passes ++ [.parse]) c.stages) (hc : c ∈ copies)
    (σ : Source → Source) (j : Nat) : ∃ l r,
      (Forest.hoist policy n (passes ++ [.parse]) f).bare.under j =
        l ++ (((Forest.hoist policy n (passes ++ [.parse]) c.stages).bare.recast c.rename σ).under j
          ++ r) := by
  obtain ⟨hfirst, hparse⟩ := ends_append_passes.1 (h.ends hp hends)
  obtain ⟨hown, hown'⟩ := ends_append_passes.1 (hends c hc)
  have hf := h.lawful.hoist hfirst
  have hlawful := (h.copy_lawful c hc).hoist hown
  -- what is below a root comes from the copies one after the other
  obtain ⟨before, after, rfl⟩ := List.append_of_mem hc
  have hunder := nodup_under (i := j) h.lawful.nodup
  rw [h.under_eq σ] at hunder
  rw [hoist_append_passes, bare_hoist_parse hf hparse, hf.sourced.under_bare,
    Forest.under_hoist h.lawful.sourced h.lawful.nodup hp, h.under_eq σ, hoist_join hunder,
    List.map_append, List.map_append, join_append, List.map_cons, List.map_cons, join_cons,
    bare_append, bare_append, h.hoist_under hp hc, hoist_append_passes,
    bare_hoist_parse hlawful hown', ← bare_recast, hlawful.sourced.recast.under_bare]
  exact ⟨_, _, rfl⟩

/-- Where no other forest has a copy below a root, what passes make of the trees there is what they
    make of them alone, conversions included. -/
theorem under_of_sole {before after : List Copy} (h : Hosts f (before ++ c :: after))
    {s s' : Source} (hi : (i, .source s) ∈ c.stages.heads)
    (hi' : (c.rename i, .source s') ∈ f.heads)
    (hsole : ∀ c' ∈ before ++ after, c.rename i ∉ c'.stages.roots.map c'.rename) :
    (Forest.hoist policy n passes f).under (c.rename i) =
      ((Forest.hoist policy n passes c.stages).under i).recast c.rename fun _ => s' := by
  have hc : c ∈ before ++ c :: after := by simp
  have hρ := h.injective c hc
  have hlawful := h.copy_lawful c hc
  -- no other copy has a tree at that root
  have hnone {cs : List Copy} (hcs : cs ⊆ before ++ after) :
      join (cs.map fun c' => c'.under (fun _ => s') (c.rename i)) = nil := by
    induction cs with
    | nil => rfl
    | cons c' cs ih =>
      obtain ⟨hc', hcs⟩ := List.cons_subset.1 hcs
      have hroots : c.rename i ∉ (c'.stages.recast c'.rename fun _ => s').roots := by
        rw [roots_recast]
        exact hsole c' hc'
      rw [List.map_cons, join_cons, ih hcs, Copy.under, under_of_notMem hroots, append_nil]
  have hunder : f.under (c.rename i) = (c.stages.under i).recast c.rename fun _ => s' := by
    rw [h.under_eq fun _ => s', List.map_append, join_append, List.map_cons, join_cons,
      hnone (List.subset_append_left _ _), hnone (List.subset_append_right _ _), append_nil,
      nil_append, Copy.under, under_recast hρ]
  have htree : node (c.rename i) (.source s') (f.under (c.rename i)) nil =
      (node i (.source s) (c.stages.under i) nil).recast c.rename fun _ => s' := by
    rw [hunder]
    rfl
  rw [under_hoist_tree h.lawful.sourced h.lawful.nodup hi', htree, hoist_recast hρ,
    under_recast hρ, ← under_hoist_tree hlawful.sourced hlawful.nodup hi]

end Hosts

end Forest

end ChartPipeline
