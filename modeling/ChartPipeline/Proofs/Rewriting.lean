import ChartPipeline.Flow.Hoisting
import ChartPipeline.Proofs.Roots
import Mathlib.Data.List.Forall2

/-!
# What one move of a pass does to the stages

`Rewrites` lists the changes that a pass makes to a forest of stages, each with what the pass has
checked before: a stage joins its parent or is exchanged with it, and a conversion leaves its
place, widens, or comes to stand under a source.  On the way from a source down to a stage such a
change is one of `Rerouted`.

## Key results

- `Rewrites.exists_rerouted`: every way in the new forest begins a rerouted way of the old one
- `Rewrites.outlets`: the outlets stay, each at the end of a rerouted way
- `Rewrites.narrow`: only sources and outputs have several children, before and after
-/

namespace ChartPipeline

/-- The stages that a pass has joined: the first takes in the second, its child. -/
structure Joins (pass : Pass) (a b c : Stage) : Prop where
  handled : pass.handles b.tag = true
  tag_eq : b.tag = a.tag
  merged : a.merge? b = some c

/-- The stages that a pass has exchanged: the second, a child of the first, has risen and groups
    by more fields. -/
structure Rises (pass : Pass) (policy : FacetPolicy) (a b : Stage) (dims : List String) :
    Prop where
  handled : pass.handles b.tag = true
  tag_ne : b.tag ≠ a.tag
  not_source : a.tag ≠ .source
  passage : Move.passage? policy b a = some dims

/-- The kind of a joined stage is that of its parts. -/
theorem Stage.tag_of_merge? {a b c : Stage} (h : a.merge? b = some c) : c.tag = a.tag := by
  cases a <;> cases b <;> simp only [Stage.merge?, reduceCtorEq, Option.some.injEq] at h <;>
    subst h <;> rfl

/-- Grouping by more fields keeps the kind of a stage. -/
@[simp] theorem Stage.tag_addDimensions (dims : List String) (b : Stage) :
    (b.addDimensions dims).tag = b.tag := by
  cases b <;> rfl

/-- A pass moves no stage past another one that it moves. -/
theorem Rises.not_handles {pass : Pass} {policy : FacetPolicy} {a b : Stage} {dims : List String}
    (h : Rises pass policy a b dims) : pass.handles a.tag = false := by
  obtain ⟨hb, hne, -, hp⟩ := h
  cases pass <;> cases b <;> simp only [Pass.handles, Stage.tag, Bool.false_eq_true] at hb <;>
    cases a <;> simp_all [Pass.handles, Stage.tag, Move.passage?]

/-! ### Ways through the stages -/

/-- One change of the stages on the way from a source, where `C` holds of a stage and the next one
    that joins it or passes it. -/
inductive Rerouted (C : Stage → Stage → Prop) (pass : Pass) (policy : FacetPolicy) :
    List (Nat × Stage) → List (Nat × Stage) → Prop
  | refl (w) : Rerouted C pass policy w w
  | join {a b c} (h : Joins pass a b c) (hC : C a b) (l p i r) :
      Rerouted C pass policy (l ++ (p, a) :: (i, b) :: r) (l ++ (p, c) :: r)
  | rise {a b dims} (h : Rises pass policy a b dims) (hC : C a b) (l p i r) :
      Rerouted C pass policy (l ++ (p, a) :: (i, b) :: r)
        (l ++ (i, b.addDimensions dims) :: (p, a) :: r)
  | drop (h : pass = .parse) (l i types r) :
      Rerouted C pass policy (l ++ (i, .parse types) :: r) (l ++ r)
  | widen (h : pass = .parse) (l i types types' r) :
      Rerouted C pass policy (l ++ (i, .parse types) :: r) (l ++ (i, .parse types') :: r)

/-- Whether a stage may have several children. -/
def Stage.mayFork (a : Stage) : Bool := a.tag = .source || a.tag = .output

/-- Whether data leave the flow at a stage; such stages are never moved. -/
def Stage.isOutlet (a : Stage) : Bool :=
  a.tag = .output || a.tag = .facetHeader || a.tag = .facet

/-- Whether a stage looks at several rows at once, as the last ones of a unit do. -/
def Stage.isGrouping (a : Stage) : Bool :=
  a.tag = .aggregate || a.tag = .order || a.tag = .stack || a.tag = .positiveFilter

/-- A pass moves no stage where data leave the flow. -/
theorem Pass.not_isOutlet {pass : Pass} {a : Stage} (h : pass.handles a.tag = true) :
    a.isOutlet = false := by
  cases pass <;> cases a <;> simp_all [Pass.handles, Stage.tag, Stage.isOutlet]

/-- A pass moves no stage that may have several children. -/
theorem Pass.not_mayFork {pass : Pass} {a : Stage} (h : pass.handles a.tag = true) :
    a.mayFork = false := by
  cases pass <;> cases a <;> simp_all [Pass.handles, Stage.tag, Stage.mayFork]

/-- A pass moves no source. -/
theorem Pass.not_source {pass : Pass} {a : Stage} (h : pass.handles a.tag = true) :
    a.tag ≠ .source := by
  intro ht
  rw [ht] at h
  cases pass <;> simp [Pass.handles] at h

/-- Only the pass for conversions moves these. -/
theorem Pass.not_parse {pass : Pass} {a : Stage} (h : pass.handles a.tag = true)
    (hp : pass ≠ .parse) : a.tag ≠ .parse := by
  intro ht
  rw [ht] at h
  cases pass <;> simp_all [Pass.handles]

variable {C : Stage → Stage → Prop}

/-- The way still begins with a source: no pass joins one, or passes it. -/
theorem Rerouted.rooted {pass : Pass} {policy : FacetPolicy} {w w' : List (Nat × Stage)}
    (h : Rerouted C pass policy w w') (hw : ∀ x ∈ w.head?, x.2.tag = .source) :
    ∀ x ∈ w'.head?, x.2.tag = .source := by
  -- a source is moved by no pass, so the head stays if the change is right behind it
  cases h with
  | refl => exact hw
  | join h _ l p i r =>
    cases l with
    | nil => exact absurd (h.tag_eq.trans (hw _ rfl)) (Pass.not_source h.handled)
    | cons => exact hw
  | rise h _ l p i r =>
    cases l with
    | nil => exact absurd (hw _ rfl) h.not_source
    | cons => exact hw
  | drop h l i types r =>
    cases l with
    | nil => exact absurd (hw _ rfl) (by simp [Stage.tag])
    | cons => exact hw
  | widen h l i types types' r =>
    cases l with
    | nil => exact absurd (hw _ rfl) (by simp [Stage.tag])
    | cons => exact hw

/-- A relation of stages, the first above the second, that survives joins, exchanges and other
    fields to group by. -/
structure Stable (R : Stage → Stage → Prop) (pass : Pass) (policy : FacetPolicy) : Prop where
  join {a b c} : Joins pass a b c → R a b →
    ∀ z, (R z a → R z b → R z c) ∧ (R a z → R b z → R c z)
  rise {a b dims} : Rises pass policy a b dims → R a b → R (b.addDimensions dims) a
  dims (b dims z) : (R z b → R z (b.addDimensions dims)) ∧ (R b z → R (b.addDimensions dims) z)

/-- What holds of every two stages of a way, the first before the second, holds after a change if
    it is stable. -/
theorem Rerouted.pairwise {pass : Pass} {policy : FacetPolicy} {R : Stage → Stage → Prop}
    {w w' : List (Nat × Stage)} (h : Rerouted C pass policy w w') (hR : Stable R pass policy)
    (hparse : ∀ types types' z, (R z (.parse types) → R z (.parse types')) ∧
      (R (.parse types) z → R (.parse types') z))
    (hw : w.Pairwise fun e e' => R e.2 e'.2) : w'.Pairwise fun e e' => R e.2 e'.2 := by
  -- only the pairs with a stage that has changed, or was exchanged, are new
  cases h with
  | refl => exact hw
  | @join a b c h _ l p i r =>
    simp only [List.pairwise_append, List.pairwise_cons, List.mem_cons, forall_eq_or_imp] at hw ⊢
    obtain ⟨hl, ⟨⟨hab, har⟩, hbr, hr⟩, hlr⟩ := hw
    exact ⟨hl, ⟨fun z hz => (hR.join h hab z.2).2 (har z hz) (hbr z hz), hr⟩, fun z hz =>
      ⟨(hR.join h hab z.2).1 (hlr z hz).1 (hlr z hz).2.1, (hlr z hz).2.2⟩⟩
  | @rise a b dims h _ l p i r =>
    simp only [List.pairwise_append, List.pairwise_cons, List.mem_cons, forall_eq_or_imp] at hw ⊢
    obtain ⟨hl, ⟨⟨hab, har⟩, hbr, hr⟩, hlr⟩ := hw
    exact ⟨hl, ⟨⟨hR.rise h hab, fun z hz => (hR.dims b dims z.2).2 (hbr z hz)⟩, har, hr⟩,
      fun z hz => ⟨(hR.dims b dims z.2).1 (hlr z hz).2.1, (hlr z hz).1, (hlr z hz).2.2⟩⟩
  | drop h l i types r =>
    exact hw.sublist ((List.sublist_cons_self _ r).append_left l)
  | widen h l i types types' r =>
    simp only [List.pairwise_append, List.pairwise_cons, List.mem_cons, forall_eq_or_imp] at hw ⊢
    obtain ⟨hl, ⟨hir, hr⟩, hlr⟩ := hw
    exact ⟨hl, ⟨fun z hz => (hparse types types' z.2).2 (hir z hz), hr⟩, fun z hz =>
      ⟨(hparse types types' z.2).1 (hlr z hz).1, (hlr z hz).2⟩⟩

namespace Forest

/-! ### Forks -/

/-- Only sources and outputs have several children. -/
def Narrow : Forest Stage → Prop
  | nil => True
  | node _ a cs rest => (cs.roots.length ≤ 1 ∨ a.mayFork = true) ∧ cs.Narrow ∧ rest.Narrow

/-- Two forests are narrow if each is. -/
theorem narrow_append {f g : Forest Stage} : (f ++ g).Narrow ↔ f.Narrow ∧ g.Narrow := by
  induction f with
  | nil => simp [Narrow]
  | node i a cs rest _ ih => simp only [node_append, Narrow, ih, and_assoc]

/-- A forest around a frame is narrow if its parts are, and if the children of the frame are few
    enough. -/
theorem narrow_close {fr : Frame Stage} {cs : Forest Stage} :
    (fr.close cs).Narrow ↔ fr.before.Narrow ∧
      (cs.roots.length ≤ 1 ∨ fr.content.mayFork = true) ∧ cs.Narrow ∧ fr.after.Narrow := by
  rw [Frame.close, narrow_append, Narrow]

/-- What is in a hole is narrow if the forest is. -/
theorem Narrow.of_fill (up : List (Frame Stage)) {t : Forest Stage} (h : (fill up t).Narrow) :
    t.Narrow := by
  induction up generalizing t with
  | nil => exact h
  | cons fr up ih => exact (narrow_close.1 (ih h)).2.2.1

/-- Trees that are not more than others may stand in their place. -/
theorem Narrow.fill (up : List (Frame Stage)) {t t' : Forest Stage} (h : (fill up t).Narrow)
    (ht : t'.Narrow) (hle : t'.roots.length ≤ t.roots.length) : (Forest.fill up t').Narrow := by
  induction up generalizing t t' with
  | nil => exact ht
  | cons fr up ih =>
    obtain ⟨hb, hc, -, ha⟩ := narrow_close.1 (Narrow.of_fill up h)
    refine ih h (narrow_close.2 ⟨hb, ?_, ht, ha⟩) (by simp)
    exact hc.imp (Nat.le_trans hle) id

/-! ### Moves -/

/-- One change that a pass makes to a forest of stages. -/
inductive Rewrites (pass : Pass) (policy : FacetPolicy) : Forest Stage → Forest Stage → Prop
  | join {fr : Frame Stage} {b c} (h : Joins pass fr.content b c) (up i gc) :
      Rewrites pass policy (fill (fr :: up) (node i b gc nil))
        (fill ({ fr with content := c } :: up) gc)
  | rise {fr : Frame Stage} {b dims} (h : Rises pass policy fr.content b dims) (up i gc) :
      Rewrites pass policy (fill (fr :: up) (node i b gc nil))
        (fill ({ fr with id := i, content := b.addDimensions dims } :: up)
          (node fr.id fr.content gc nil))
  | drop {fr : Frame Stage} {types} (h : pass = .parse) (ht : fr.content = .parse types) (up cs)
      (hup : up ≠ []) :
      Rewrites pass policy (fill (fr :: up) cs) (fill up (fr.before ++ (cs ++ fr.after)))
  | put {fr : Frame Stage} (h : pass = .parse) (hs : fr.content.tag = .source) (up cs i types) :
      Rewrites pass policy (fill (fr :: up) cs) (fill (fr :: up) (cs ++ leaf i (.parse types)))
  | widen {fr : Frame Stage} {types} (h : pass = .parse) (ht : fr.content = .parse types)
      (types' up cs) :
      Rewrites pass policy (fill (fr :: up) cs)
        (fill ({ fr with content := .parse types' } :: up) cs)

variable {pass : Pass} {policy : FacetPolicy} {f f' : Forest Stage}

/-- A change of a pass gives no other stage several children. -/
theorem Rewrites.narrow (h : Rewrites pass policy f f') (hf : f.Narrow) : f'.Narrow := by
  cases h with
  | join h up i gc =>
    obtain ⟨hb, -, hi, ha⟩ := narrow_close.1 (Narrow.of_fill up hf)
    -- the stage that goes had one child at most, which takes its place
    have hgc := hi.1.resolve_right (by simp [Pass.not_mayFork h.handled])
    exact Narrow.fill up hf (narrow_close.2 ⟨hb, .inl hgc, hi.2.1, ha⟩) (by simp)
  | rise h up i gc =>
    obtain ⟨hb, -, hi, ha⟩ := narrow_close.1 (Narrow.of_fill up hf)
    have hgc := hi.1.resolve_right (by simp [Pass.not_mayFork h.handled])
    exact Narrow.fill up hf
      (narrow_close.2 ⟨hb, .inl (by simp [roots]), ⟨.inl hgc, hi.2.1, trivial⟩, ha⟩) (by simp)
  | drop h ht up cs =>
    obtain ⟨hb, hc, hcs, ha⟩ := narrow_close.1 (Narrow.of_fill up hf)
    -- the conversion had one child at most, so its siblings do not become more
    have hcs' := hc.resolve_right (by simp [ht, Stage.mayFork, Stage.tag])
    refine Narrow.fill up hf (narrow_append.2 ⟨hb, narrow_append.2 ⟨hcs, ha⟩⟩) ?_
    simp only [roots_append, List.length_append, Frame.length_roots_close]
    omega
  | put h hs up cs i types =>
    obtain ⟨hb, -, hcs, ha⟩ := narrow_close.1 (Narrow.of_fill up hf)
    refine Narrow.fill up hf (narrow_close.2 ⟨hb, .inr (by simp [Stage.mayFork, hs]),
      narrow_append.2 ⟨hcs, ?_⟩, ha⟩) (by simp)
    simp [leaf, Narrow, roots]
  | widen h ht types' up cs =>
    obtain ⟨hb, hc, hcs, ha⟩ := narrow_close.1 (Narrow.of_fill up hf)
    have hcs' := hc.resolve_right (by simp [ht, Stage.mayFork, Stage.tag])
    exact Narrow.fill up hf (narrow_close.2 ⟨hb, .inl hcs', hcs, ha⟩) (by simp)

/-- What holds of every stage and its only child. -/
def Adjoins (C : Stage → Stage → Prop) (f : Forest Stage) : Prop :=
  ∀ fr up i b gc, f = fill (fr :: up) (node i b gc nil) → C fr.content b

/-- A condition that always holds. -/
theorem adjoins_true : f.Adjoins fun _ _ => True := fun _ _ _ _ _ _ => trivial

/-- Every way in the new forest begins a rerouted way of the old one, or goes on from a source to a
    new conversion. -/
theorem Rewrites.exists_rerouted (h : Rewrites pass policy f f') (hC : f.Adjoins C)
    {v' : Place Stage} (hv' : v' ∈ f'.places []) :
    (∃ v ∈ f.places [], ∃ w, Rerouted C pass policy v.route w ∧ v'.route <+: w) ∨
      pass = .parse ∧ ∃ v ∈ f.places [], v.content.tag = .source ∧
        ∃ i types, v'.route = v.route ++ [(i, .parse types)] := by
  -- places beside the hole have the ways that they had
  have same {v : Place Stage} (hv : v ∈ f.places []) :
      ∃ v₁ ∈ f.places [], ∃ w, Rerouted C pass policy v₁.route w ∧ v.route <+: w :=
    ⟨v, hv, v.route, .refl _, List.prefix_refl _⟩
  cases h with
  | @join fr b c h up i gc =>
    obtain ⟨before, p, a, after⟩ := fr
    obtain ⟨l, r, hp⟩ := places_fill_node before after up
    rw [hp] at same hv' ⊢
    simp only [List.mem_append, List.mem_cons, places, mem_places_concat] at same hv' ⊢
    -- the ways through the hole go through both stages, and then on through what they joined to
    have hjoin := @Rerouted.join C pass policy a b c h (hC _ up i b gc rfl) (trail up) p i
    left
    rcases hv' with hv' | rfl | ⟨u, hu, rfl⟩ | hv'
    · exact same (.inl hv')
    · exact ⟨⟨trail up ++ [(p, a)], i, b⟩, by simp, _, by simpa [Place.route] using hjoin [],
        List.prefix_refl _⟩
    · exact ⟨_, .inr (.inr (.inl (.inr (.inl ⟨u, hu, rfl⟩)))), _, by simpa using hjoin u.route,
        by simp⟩
    · exact same (.inr (.inr (.inr hv')))
  | @rise fr b dims h up i gc =>
    obtain ⟨before, p, a, after⟩ := fr
    obtain ⟨l, r, hp⟩ := places_fill_node before after up
    rw [hp] at same hv' ⊢
    simp only [List.mem_append, List.mem_cons, places, mem_places_concat] at same hv' ⊢
    -- the ways to both stages begin the rerouted way to the lower one
    have hrise := @Rerouted.rise C pass policy a b dims h (hC _ up i b gc rfl) (trail up) p i
    left
    rcases hv' with hv' | rfl | (rfl | ⟨u, hu, rfl⟩ | hv') | hv'
    · exact same (.inl hv')
    · exact ⟨⟨trail up ++ [(p, a)], i, b⟩, by simp, _, by simpa [Place.route] using hrise [],
        by simp [Place.route]⟩
    · exact ⟨⟨trail up ++ [(p, a)], i, b⟩, by simp, _, by simpa [Place.route] using hrise [],
        by simp [Place.route]⟩
    · exact ⟨_, .inr (.inr (.inl (.inr (.inl ⟨u, hu, rfl⟩)))), _, by simpa using hrise u.route,
        by simp⟩
    · simp at hv'
    · exact same (.inr (.inr (.inr hv')))
  | @drop fr types h ht up cs hup =>
    obtain ⟨before, p, a, after⟩ := fr
    obtain ⟨l, r, hp⟩ := places_fill up
    obtain rfl : a = .parse types := ht
    rw [fill, hp, Frame.places_close] at same ⊢
    rw [hp, places_append, places_append] at hv'
    simp only [List.mem_append, List.mem_cons, mem_places_concat] at same hv' ⊢
    left
    rcases hv' with hv' | (hv' | hv' | hv') | hv'
    · exact same (.inl hv')
    · exact same (.inr (.inl (.inl hv')))
    · obtain ⟨u, hu, rfl⟩ := mem_places_iff.1 hv'
      exact ⟨_, .inr (.inl (.inr (.inr (.inl ⟨u, hu, rfl⟩)))), _,
        by simpa using Rerouted.drop h (trail up) p types u.route, by simp⟩
    · exact same (.inr (.inl (.inr (.inr (.inr hv')))))
    · exact same (.inr (.inr hv'))
  | @put fr h hs up cs i types =>
    obtain ⟨before, s, a, after⟩ := fr
    obtain ⟨l, r, hp⟩ := places_fill_node before after up
    rw [hp] at same hv' ⊢
    simp only [List.mem_append, List.mem_cons, places_append, leaf, places] at same hv' ⊢
    rcases hv' with hv' | rfl | (hv' | rfl | hv') | hv'
    · exact .inl (same (.inl hv'))
    · exact .inl (same (.inr (.inl rfl)))
    · exact .inl (same (.inr (.inr (.inl hv'))))
    · exact .inr ⟨h, ⟨trail up, s, a⟩, by simp, hs, i, types, by simp [Place.route]⟩
    · simp at hv'
    · exact .inl (same (.inr (.inr (.inr hv'))))
  | @widen fr types h ht types' up cs =>
    obtain ⟨before, p, a, after⟩ := fr
    obtain ⟨l, r, hp⟩ := places_fill_node before after up
    obtain rfl : a = .parse types := ht
    rw [hp] at same hv' ⊢
    simp only [List.mem_append, List.mem_cons, mem_places_concat] at same hv' ⊢
    have hwiden := @Rerouted.widen C pass policy h (trail up) p types types'
    left
    rcases hv' with hv' | rfl | ⟨u, hu, rfl⟩ | hv'
    · exact same (.inl hv')
    · exact ⟨⟨trail up, p, .parse types⟩, by simp, _, by simpa [Place.route] using hwiden [],
        List.prefix_refl _⟩
    · exact ⟨_, .inr (.inr (.inl ⟨u, hu, rfl⟩)), _, by simpa using hwiden u.route, by simp⟩
    · exact same (.inr (.inr (.inr hv')))

/-! ### Lawful flows -/

/-- Every root is a source. -/
def Sourced (f : Forest Stage) : Prop := ∀ e ∈ f.heads, e.2.tag = .source

/-- A forest of stages in which no edit of a pass fails: no name stands twice, and every tree begins
    with a source. -/
structure Grounded (f : Forest Stage) : Prop where
  nodup : f.walk.Nodup
  sourced : f.Sourced

/-- A forest of stages in which a pass can do its work: no name stands twice, every tree begins
    with a source, and only sources and outputs have several children. -/
structure Lawful (f : Forest Stage) : Prop where
  nodup : f.walk.Nodup
  narrow : f.Narrow
  rooted : ∀ v ∈ f.places [], ∀ x ∈ v.route.head?, x.2.tag = .source

/-- In a lawful forest every tree begins with a source. -/
theorem Lawful.sourced (hf : f.Lawful) : f.Sourced :=
  fun e he => hf.rooted ⟨[], e.1, e.2⟩ (mem_heads_iff.1 he) e rfl

/-- In a lawful forest no edit of a pass fails. -/
theorem Lawful.grounded (hf : f.Lawful) : f.Grounded := ⟨hf.nodup, hf.sourced⟩

/-- A change of a pass leaves every way begin with a source. -/
theorem Rewrites.rooted (h : Rewrites pass policy f f')
    (hf : ∀ v ∈ f.places [], ∀ x ∈ v.route.head?, x.2.tag = .source) :
    ∀ v ∈ f'.places [], ∀ x ∈ v.route.head?, x.2.tag = .source := by
  intro v' hv' x hx
  rcases h.exists_rerouted adjoins_true hv' with ⟨v, hv, w, hw, hpre⟩ | ⟨-, v, hv, -, i, types, hroute⟩
  · refine hw.rooted (hf v hv) x ?_
    obtain ⟨r, rfl⟩ := hpre
    rw [List.head?_append, Option.mem_def.1 hx]
    rfl
  · refine hf v hv x ?_
    -- the new conversion is at the end of a way that began with a source
    rw [hroute, Place.route, List.append_assoc, List.head?_append] at hx
    rw [Place.route, List.head?_append]
    exact hx

/-- A change that keeps the names apart keeps a forest lawful. -/
theorem Rewrites.lawful (h : Rewrites pass policy f f') (hf : f.Lawful) (hn : f'.walk.Nodup) :
    f'.Lawful :=
  ⟨hn, h.narrow hf.narrow, h.rooted hf.rooted⟩

/-! ### Outlets -/

/-- The places where data leave the flow. -/
def outlets (above : List (Nat × Stage)) (f : Forest Stage) : List (Place Stage) :=
  (f.places above).filter (·.content.isOutlet)

/-- An outlet before and after one change: the way to it is rerouted, or a stage below has risen
    above it. -/
structure Place.Passed (C : Stage → Stage → Prop) (pass : Pass) (policy : FacetPolicy)
    (o o' : Place Stage) : Prop where
  id_eq : o'.id = o.id
  content_eq : o'.content = o.content
  above : Rerouted C pass policy o.above o'.above ∨
    ∃ i b dims, Rises pass policy o.content b dims ∧ C o.content b ∧
      o'.above = o.above ++ [(i, b.addDimensions dims)]

/-- An outlet that nothing happens to. -/
theorem Place.Passed.refl (o : Place Stage) : o.Passed C pass policy o :=
  ⟨rfl, rfl, .inl (.refl _)⟩

/-- The outlets below some nodes are those of the forest by itself, with the nodes above. -/
theorem outlets_eq_map_under (above : List (Nat × Stage)) (f : Forest Stage) :
    f.outlets above = (f.outlets []).map (Place.under above) := by
  rw [outlets, outlets, places_eq_map_under, List.filter_map]
  rfl

/-- Outlets to which nothing happens stay as they are. -/
private theorem forall₂_passed_self (l : List (Place Stage)) :
    List.Forall₂ (Place.Passed C pass policy) l l :=
  List.forall₂_same.2 fun o _ => .refl o

/-- Outlets below two ways of which one reroutes the other. -/
private theorem forall₂_outlets_under {above above' : List (Nat × Stage)}
    (h : ∀ r, Rerouted C pass policy (above ++ r) (above' ++ r)) (f : Forest Stage) :
    List.Forall₂ (Place.Passed C pass policy) (f.outlets above) (f.outlets above') := by
  rw [outlets_eq_map_under above, outlets_eq_map_under above', List.forall₂_map_left_iff,
    List.forall₂_map_right_iff, List.forall₂_same]
  exact fun o _ => ⟨rfl, rfl, .inl (h o.above)⟩

/-- The outlets stay in their order, each at the end of a rerouted way. -/
theorem Rewrites.outlets (h : Rewrites pass policy f f') (hC : f.Adjoins C) :
    List.Forall₂ (Place.Passed C pass policy) (f.outlets []) (f'.outlets []) := by
  have self := @forall₂_passed_self C pass policy
  cases h with
  | @join fr b c h up i gc =>
    obtain ⟨before, p, a, after⟩ := fr
    obtain ⟨l, r, hp⟩ := places_fill_node before after up
    have hb := Pass.not_isOutlet h.handled
    have ha : a.isOutlet = false := Pass.not_isOutlet (h.tag_eq ▸ h.handled)
    have hc : c.isOutlet = false :=
      Pass.not_isOutlet ((Stage.tag_of_merge? h.merged).symm ▸ h.tag_eq ▸ h.handled)
    rw [Forest.outlets, Forest.outlets, hp, hp]
    simp only [places, List.filter_append, List.filter_cons, hb, ha, hc, List.append_nil,
      Bool.false_eq_true, if_false]
    refine List.rel_append (self _) (List.rel_append ?_ (self _))
    refine forall₂_outlets_under (fun r => ?_) gc
    simpa using @Rerouted.join C pass policy a b c h (hC _ up i b gc rfl) (trail up) p i r
  | @rise fr b dims h up i gc =>
    obtain ⟨before, p, a, after⟩ := fr
    obtain ⟨l, r, hp⟩ := places_fill_node before after up
    have hb := Pass.not_isOutlet h.handled
    have hb' : (b.addDimensions dims).isOutlet = false :=
      Pass.not_isOutlet ((Stage.tag_addDimensions dims b).symm ▸ h.handled)
    have hCab : C a b := hC _ up i b gc rfl
    -- below the two stages the ways are rerouted
    have hgc : List.Forall₂ (Place.Passed C pass policy)
        (gc.outlets (trail up ++ [(p, a)] ++ [(i, b)]))
        (gc.outlets (trail up ++ [(i, b.addDimensions dims)] ++ [(p, a)])) :=
      forall₂_outlets_under (fun r => by
        simpa using @Rerouted.rise C pass policy a b dims h hCab (trail up) p i r) gc
    rw [Forest.outlets, Forest.outlets, hp, hp]
    simp only [places, List.filter_append, List.filter_cons, hb, hb', List.append_nil,
      Bool.false_eq_true, if_false]
    refine List.rel_append (self _) ?_
    -- the upper stage can be an outlet, and gets the risen one above it
    split
    · refine .cons ⟨rfl, rfl, .inr ⟨i, b, dims, h, hCab, rfl⟩⟩ (List.rel_append hgc (self _))
    · exact List.rel_append hgc (self _)
  | @drop fr types h ht up cs hup =>
    obtain ⟨before, p, a, after⟩ := fr
    obtain ⟨l, r, hp⟩ := places_fill up
    obtain rfl : a = .parse types := ht
    rw [Forest.outlets, Forest.outlets, fill, hp, hp, Frame.places_close, places_append,
      places_append]
    have hout : (Stage.parse types).isOutlet = false := rfl
    simp only [List.filter_append, List.filter_cons, hout, Bool.false_eq_true, if_false]
    refine List.rel_append (self _) (List.rel_append (List.rel_append (self _)
      (List.rel_append ?_ (self _))) (self _))
    refine forall₂_outlets_under (fun r => ?_) cs
    simpa using Rerouted.drop h (trail up) p types r
  | @put fr h hs up cs i types =>
    obtain ⟨before, s, a, after⟩ := fr
    obtain ⟨l, r, hp⟩ := places_fill_node before after up
    have hout : (Stage.parse types).isOutlet = false := rfl
    rw [Forest.outlets, Forest.outlets, hp, hp]
    simp only [leaf, places, places_append, List.filter_append, List.filter_cons, hout,
      List.append_nil, Bool.false_eq_true, if_false, List.filter_nil]
    exact self _
  | @widen fr types h ht types' up cs =>
    obtain ⟨before, p, a, after⟩ := fr
    obtain ⟨l, r, hp⟩ := places_fill_node before after up
    obtain rfl : a = .parse types := ht
    have hout (types : ParseTypes) : (Stage.parse types).isOutlet = false := rfl
    rw [Forest.outlets, Forest.outlets, hp, hp]
    simp only [List.filter_append, List.filter_cons, hout, Bool.false_eq_true, if_false]
    refine List.rel_append (self _) (List.rel_append ?_ (self _))
    refine forall₂_outlets_under (fun r => ?_) cs
    simpa using Rerouted.widen h (trail up) p types types' r

end Forest

end ChartPipeline
