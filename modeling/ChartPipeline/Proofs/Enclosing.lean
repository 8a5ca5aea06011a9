import ChartPipeline.Proofs.Agreement

/-!
# What enclosing charts deliver

What a chart inside another one calculates, bins or cuts down to time units may rise above the
outputs of the charts around it, and then the rows of these have its fields as well; where they had
such a field before, they have the new value.  Bins that rise above a filter get the extent of other
rows.  Everything else stays: rows arrive where they did, with the same values in all other fields.
Only at a facet there may be fewer rows, since filters rise above it too.

## Key results

- `Forest.Rewrites.sound`: no move exchanges stages that read what the other one derives
- `Forest.Place.Raised.step`: a move changes only what bins or stages from below derive
- `optimizeFlow_undisturbed`: optimization leaves the other fields of the rows at every outlet
-/

namespace ChartPipeline

variable {V E : Type} {I : Interpretation V E} {C : Stage → Stage → Prop} {pass : Pass}
  {policy : FacetPolicy} {w w' : List (Nat × Stage)}

/-- The fields that bins on a way derive. -/
def Binned (w : List (Nat × Stage)) (field : String) : Prop :=
  ∃ e ∈ w, e.2.tag = .bin ∧ field ∈ e.2.derived

/-- A stage that derives a field derives some field. -/
theorem Stage.derived_ne_nil {a : Stage} {field : String} (h : field ∈ a.derived) :
    a.derived ≠ [] := List.ne_nil_of_mem h

/-! ### What moves keep of a way -/

/-- Joined stages that do not derive set no fields. -/
theorem Joins.derived {a b c : Stage} (h : Joins pass a b c) (ha : a.prepares = false) :
    a.derived = [] ∧ b.derived = [] ∧ c.derived = [] := by
  have hm := h.merged
  cases a <;> cases b <;> simp only [Stage.merge?, reduceCtorEq, Option.some.injEq] at hm <;>
    subst hm <;> first
      | exact ⟨rfl, rfl, rfl⟩
      | exact absurd ha (by simp [Stage.prepares, Stage.tag])

/-- A change of a way that joins no stages that set fields leaves all of these on the way. -/
theorem Rerouted.mem_derived_of (h : Rerouted C pass policy w w')
    (hC : ∀ {a b c}, Joins pass a b c → C a b → a.prepares = false) {e : Nat × Stage}
    (he : e.2.derived ≠ []) : e ∈ w' ↔ e ∈ w := by
  have hne {i : Nat} {a : Stage} (ha : a.derived = []) : e ≠ (i, a) := by
    rintro rfl
    exact he ha
  cases h with
  | refl => exact .rfl
  | @join a b c h hab l p i r =>
    obtain ⟨ha, hb, hc⟩ := h.derived (hC h hab)
    simp [hne ha, hne hb, hne hc]
  | @rise a b dims h hab l p i r =>
    -- grouping by more fields changes only stages that set none
    have hsame : e = (i, b.addDimensions dims) ↔ e = (i, b) := by
      cases b with
      | aggregate | stack =>
        exact ⟨fun h => absurd h (hne (by rw [Stage.derived_addDimensions]; rfl)),
          fun h => absurd h (hne rfl)⟩
      | _ => exact .rfl
    simp only [List.mem_append, List.mem_cons, hsame]
    tauto
  | drop h l i types r => simp [hne (i := i) (a := .parse types) rfl]
  | widen h l i types types' r => simp [hne (i := i) (a := .parse _) rfl]

/-- Where stages in a row are apart, a change of the way leaves all stages that set fields on it. -/
theorem Rerouted.mem_derived (h : Rerouted I.Apart pass policy w w') {e : Nat × Stage}
    (he : e.2.derived ≠ []) : e ∈ w' ↔ e ∈ w :=
  h.mem_derived_of (fun h hab => hab.not_prepares h.tag_eq) he

/-- Conversions set no fields. -/
theorem Pass.derived_of_parse {a : Stage} (h : Pass.parse.handles a.tag = true) :
    a.derived = [] ∧ a.groups = false ∧ a.prepares = false := by
  cases a <;> first | exact ⟨rfl, rfl, rfl⟩ | exact absurd h (by simp [Pass.handles, Stage.tag])

/-- The fields that bins derive depend only on the stages that set fields. -/
theorem binned_congr (h : ∀ e : Nat × Stage, e.2.derived ≠ [] → (e ∈ w' ↔ e ∈ w))
    (field : String) : Binned w' field ↔ Binned w field := by
  constructor
  · rintro ⟨e, he, ht, hf⟩
    exact ⟨e, (h e (Stage.derived_ne_nil hf)).1 he, ht, hf⟩
  · rintro ⟨e, he, ht, hf⟩
    exact ⟨e, (h e (Stage.derived_ne_nil hf)).2 he, ht, hf⟩

/-- Bins on a part of a way are bins on the way. -/
theorem Binned.mono (h : ∀ e ∈ w, e ∈ w') {field : String} (hf : Binned w field) :
    Binned w' field := by
  obtain ⟨e, he, ht, hf⟩ := hf
  exact ⟨e, h e he, ht, hf⟩

/-- Bins set all that they generate. -/
theorem Stage.generated_of_bin {a : Stage} (h : a.tag = .bin) : a.derived = a.generated := by
  cases a <;> first | rfl | exact absurd h (by simp [Stage.tag])

/-- A change of a way leaves its stages blind to what its bins derive. -/
theorem Rerouted.blind (h : Rerouted I.Apart pass policy w w')
    (hw : ∀ e ∈ w, I.Blind (Binned w) e.2) : ∀ e ∈ w', I.Blind (Binned w') e.2 := by
  have hbinned := binned_congr fun e he => h.mem_derived he
  -- the bins on the way are the same, so the fields stay fixed while the way changes
  suffices ∀ e ∈ w', I.Blind (Binned w) e.2 from
    fun e he => (this e he).anti fun field => (hbinned field).1
  clear hbinned
  generalize Binned w = X at hw
  cases h with
  | refl => exact hw
  | @join a b c h hab l p i r =>
    simp only [List.mem_append, List.mem_cons, or_imp, forall_and, forall_eq] at hw ⊢
    obtain ⟨hl, ha, hb, hr⟩ := hw
    exact ⟨hl, .join h (hab.not_prepares h.tag_eq) ha hb, hr⟩
  | @rise a b dims h hab l p i r =>
    simp only [List.mem_append, List.mem_cons, or_imp, forall_and, forall_eq] at hw ⊢
    obtain ⟨hl, ha, hb, hr⟩ := hw
    exact ⟨hl, Interpretation.blind_addDimensions.2 hb, ha, hr⟩
  | drop h l i types r =>
    intro e he
    refine hw e ?_
    rcases List.mem_append.1 he with he | he <;> simp [he]
  | widen h l i types types' r =>
    simp only [List.mem_append, List.mem_cons, or_imp, forall_and, forall_eq] at hw ⊢
    exact ⟨hw.1, trivial, hw.2.2⟩

/-- What rises above an endpoint changes nothing of the rows but fields. -/
theorem Rises.quiet {a b : Stage} {dims : List String} (h : Rises pass policy a b dims)
    (hp : pass ≠ .parse) (ha : a.isEndpoint = true) :
    (b.addDimensions dims).changesRows = false := by
  rw [Stage.changesRows, Stage.tag_addDimensions, ← Stage.changesRows]
  have hparse := Pass.not_parse h.handled hp
  have hpass := h.passage
  unfold Move.passage? at hpass
  simp only [if_neg hparse] at hpass
  -- a required output stops what drops rows, and a facet header stops everything
  cases a with
  | output name required =>
    obtain rfl : required = true := ha
    by_contra hb
    rw [Bool.not_eq_false] at hb
    simp [hb] at hpass
  | facetHeader => exact absurd hpass (by simp)
  | _ => exact absurd ha (by simp [Stage.isEndpoint])

namespace Forest

variable {f f' : Forest Stage}

/-- What holds of a flow while passes run: names stand once, forks are where they may be, stages in
    a row are apart, and on every way the stages are blind to what the bins derive. -/
structure Sound (I : Interpretation V E) (f : Forest Stage) : Prop where
  nodup : f.walk.Nodup
  narrow : f.Narrow
  fenced : f.Fenced I.Apart []
  blind : ∀ v ∈ f.places [], ∀ e ∈ v.route, I.Blind (Binned v.route) e.2

/-- A move keeps a flow sound, except for moves of conversions. -/
theorem Rewrites.sound (h : Rewrites pass policy f f') (hp : pass ≠ .parse) (hf : f.Sound I) :
    f'.Sound I where
  nodup := by
    have hn := hf.nodup
    cases h with
    | join h up i gc => exact nodup_fill_join hn _
    | rise h up i gc => exact nodup_fill_rise hn _ _
    | drop h => exact absurd h hp
    | put h => exact absurd h hp
    | widen h => exact absurd h hp
  narrow := h.narrow hf.narrow
  fenced := h.fenced hp Interpretation.apart_stable hf.narrow hf.fenced
  blind := by
    intro v' hv' e he
    -- a way after the move begins like one before it that has been changed
    rcases h.exists_rerouted hf.fenced.adjoins hv' with ⟨v, hv, w, hw, hpre⟩ | ⟨hparse, -⟩
    · have hblind := hw.blind (hf.blind v hv) e (hpre.subset he)
      exact hblind.anti fun field => Binned.mono fun e he => hpre.subset he
    · exact absurd hparse hp

/-- Above an outlet, the stages are blind to what the bins there derive. -/
theorem Sound.steady (hf : f.Sound I) {v : Place Stage} (hv : v ∈ f.places []) :
    ∀ e ∈ v.above, I.Steady (Binned v.above) e.2 := by
  intro e he
  have hsub : ∀ e ∈ v.above, e ∈ v.route := fun e he => List.mem_append_left _ he
  refine ⟨(hf.blind v hv e (hsub e he)).anti fun field => Binned.mono hsub, fun ht field hmem => ?_⟩
  exact ⟨e, he, ht, by rwa [Stage.generated_of_bin ht]⟩

/-! ### Outlets while passes run -/

/-- An outlet before some passes and after them; `extra` are the stages from below that have risen
    above it.  Rows arrive as if these stood directly above it. -/
structure Place.Raised (I : Interpretation V E) (o o' : Place Stage) (extra : List (Nat × Stage)) :
    Prop where
  id_eq : o'.id = o.id
  content_eq : o'.content = o.content
  derived : ∀ e, e.2.derived ≠ [] → (e ∈ o'.above ↔ e ∈ o.above ++ extra)
  fresh : ∀ e ∈ extra, e.2.derived ≠ [] → e ∉ o.above
  moved : ∀ e ∈ extra, e.2.tag ≠ .source
  quiet : o.content.isEndpoint = true → ∀ e ∈ extra, e.2.changesRows = false
  groups : o.content.isEndpoint = true → (∀ e ∈ o.above, e.2.groups = false) →
    ∀ e ∈ o'.above, e.2.groups = false
  rows : (∀ e ∈ o'.above, e.2.groups = false) → (∀ e ∈ extra, e.2.groups = false) ∧
    AgreeAll (Binned o'.above) (I.run ((o.above ++ extra).map Prod.snd) []) (I.rowsAt o')

/-- Before any pass nothing has risen. -/
theorem Place.Raised.refl (o : Place Stage) : o.Raised I o [] where
  id_eq := rfl
  content_eq := rfl
  derived e _ := by rw [List.append_nil]
  fresh _ he := absurd he (by simp)
  moved _ he := absurd he (by simp)
  quiet _ _ he := absurd he (by simp)
  groups _ h := h
  rows h := ⟨fun _ he => absurd he (by simp), by rw [List.append_nil]; exact .refl _ _⟩

variable {o o₁ o₂ : Place Stage} {extra : List (Nat × Stage)}

/-- A move keeps this, and may have brought one more stage above the outlet. -/
theorem Place.Raised.step (h : o.Raised I o₁ extra) (hp : pass ≠ .parse) (hf : f.Sound I)
    (hf' : f'.Sound I) (ho₁ : o₁ ∈ f.places []) (ho₂ : o₂ ∈ f'.places [])
    (hpassed : o₁.Passed I.Apart pass policy o₂) : ∃ extra', o.Raised I o₂ extra' := by
  have hcontent := hpassed.content_eq.trans h.content_eq
  -- either the way above has changed, or a stage has come up from below
  rcases hpassed.above with habove | ⟨i, b, dims, hrise, hab, habove⟩
  · refine ⟨extra, hpassed.id_eq.trans h.id_eq, hcontent, fun e he => ?_, h.fresh, h.moved, h.quiet,
      fun hend hno => habove.groups.2 (h.groups hend hno), fun hno => ?_⟩
    · rw [habove.mem_derived he, h.derived e he]
    · have hno₁ := habove.groups.1 hno
      obtain ⟨hextra, hrows⟩ := h.rows hno₁
      have hbinned := binned_congr fun e he => habove.mem_derived he
      have hstep := I.agree_rerouted habove hp (hf.steady ho₁) hno₁ []
      exact ⟨hextra, (hrows.trans hstep).mono fun field => (hbinned field).2⟩
  · -- the stage `b` has risen above the outlet
    -- names stand once, so it was not above before
    have hlast : (i, b.addDimensions dims) ∉ o₁.above := by
      have hn := nodup_route hf'.nodup ho₂
      rw [Place.route, habove, List.map_append, List.map_append] at hn
      have hdisjoint := (List.nodup_append.1 (List.nodup_append.1 hn).1).2.2
      intro hmem
      exact hdisjoint i (List.mem_map_of_mem hmem) i (by simp) rfl
    have hgroups : (∀ e ∈ o₂.above, e.2.groups = false) ↔
        (∀ e ∈ o₁.above, e.2.groups = false) ∧ b.groups = false := by
      simp [habove, or_imp, forall_and, Stage.groups_addDimensions]
    refine ⟨extra ++ [(i, b.addDimensions dims)], hpassed.id_eq.trans h.id_eq, hcontent,
      fun e he => ?_, fun e he hd => ?_, fun e he => ?_, fun hend e he => ?_, fun hend hno => ?_,
      fun hno => ?_⟩
    · rw [habove, List.mem_append, h.derived e he, ← List.append_assoc, ← List.mem_append]
    · rcases List.mem_append.1 he with he | he
      · exact h.fresh e he hd
      · obtain rfl := List.mem_singleton.1 he
        exact fun hmem => hlast ((h.derived _ hd).2 (List.mem_append_left _ hmem))
    · rcases List.mem_append.1 he with he | he
      · exact h.moved e he
      · obtain rfl := List.mem_singleton.1 he
        rw [Stage.tag_addDimensions]
        exact Pass.not_source hrise.handled
    · rcases List.mem_append.1 he with he | he
      · exact h.quiet hend e he
      · obtain rfl := List.mem_singleton.1 he
        exact hrise.quiet hp (h.content_eq ▸ hend)
    · refine hgroups.2 ⟨h.groups hend hno, ?_⟩
      have hb := (hrise.above_endpoint (h.content_eq ▸ hend)).2.2
      rw [← Stage.groups_addDimensions dims b]
      exact Stage.groups_of_not_isGrouping hb
    · obtain ⟨hno₁, hb⟩ := hgroups.1 hno
      obtain ⟨hextra, hrows⟩ := h.rows hno₁
      have hsteady := hf'.steady ho₂ (i, b.addDimensions dims) (by simp [habove])
      refine ⟨fun e he => ?_, ?_⟩
      · rcases List.mem_append.1 he with he | he
        · exact hextra e he
        · obtain rfl := List.mem_singleton.1 he
          rw [Stage.groups_addDimensions, hb]
      · have hsub : ∀ e ∈ o₁.above, e ∈ o₂.above := fun e he => by
          rw [habove]
          exact List.mem_append_left _ he
        have hmono := hrows.mono fun field => Binned.mono hsub
        -- it comes last above the outlet, so it is applied to rows that agree
        have hlast := I.agree_apply hsteady.blind ((Stage.groups_addDimensions dims b).trans hb)
          hsteady.bins hmono
        have hsplit (w : List (Nat × Stage)) (e : Nat × Stage) :
            I.run ((w ++ [e]).map Prod.snd) [] = I.apply e.2 (I.run (w.map Prod.snd) []) := by
          rw [List.map_append, I.run_append]
          rfl
        rw [← List.append_assoc, hsplit, Interpretation.rowsAt, habove, hsplit, ← habove]
        exact hlast

/-- An outlet where the same rows arrive, through the same stages that set fields. -/
structure Place.Alike (I : Interpretation V E) (o o' : Place Stage) : Prop where
  id_eq : o'.id = o.id
  content_eq : o'.content = o.content
  derived : ∀ e, e.2.derived ≠ [] → (e ∈ o'.above ↔ e ∈ o.above)
  groups : (∀ e ∈ o'.above, e.2.groups = false) ↔ ∀ e ∈ o.above, e.2.groups = false
  rows : I.rowsAt o' = I.rowsAt o

/-- The same rows arrive at an outlet itself. -/
theorem Place.Alike.refl (o : Place Stage) : o.Alike I o := ⟨rfl, rfl, fun _ _ => .rfl, .rfl, rfl⟩

/-- This may be put together step by step. -/
theorem Place.Alike.trans (h : o.Alike I o₁) (h' : o₁.Alike I o₂) : o.Alike I o₂ where
  id_eq := h'.id_eq.trans h.id_eq
  content_eq := h'.content_eq.trans h.content_eq
  derived e he := (h'.derived e he).trans (h.derived e he)
  groups := h'.groups.trans h.groups
  rows := h'.rows.trans h.rows

/-- The pass for conversions changes nothing at an outlet. -/
theorem Place.Passed.alike (h : o.Passed C .parse policy o') : o.Alike I o' := by
  refine ⟨h.id_eq, h.content_eq, fun e he => ?_, ?_, I.rowsAt_of_passed h⟩
  -- a conversion that rises above the outlet sets no field
  · rcases h.above with habove | ⟨i, b, dims, hrise, -, habove⟩
    · refine habove.mem_derived_of (fun h _ => ?_) he
      exact (Pass.derived_of_parse (h.tag_eq ▸ h.handled)).2.2
    · have hb := (Pass.derived_of_parse hrise.handled).1
      rw [habove, List.mem_append, List.mem_singleton]
      refine or_iff_left_of_imp fun heq => absurd ?_ he
      rw [heq, Stage.derived_addDimensions, hb]
  -- nor does it group
  · rcases h.above with habove | ⟨i, b, dims, hrise, -, habove⟩
    · exact habove.groups
    · have hb := (Pass.derived_of_parse hrise.handled).2.1
      simp [habove, or_imp, forall_and, Stage.groups_addDimensions, hb]

end Forest

namespace AgreeAll

variable {X : String → Prop} {rows rows' kept : List (Row V)}

end AgreeAll

namespace Interpretation

variable (I)

/-- No stage reads what a bin on its way derives, or a time unit below it. -/
def ReadsApart (f : Forest Stage) : Prop :=
  ∀ v ∈ f.places [], ∀ l a r, v.route.map Prod.snd = l ++ a :: r →
    I.Blind (fun field => (∃ b ∈ l ++ r, b.tag = .bin ∧ field ∈ b.derived) ∨
      ∃ b ∈ r, b.tag = .timeUnit ∧ field ∈ b.derived) a

end Interpretation

/-! ### The places of a chart -/

namespace Forest

variable {o o₁ p q : Place Stage} {extra : List (Nat × Stage)}

end Forest

/-- Stages that come late in a chart read no fields, but for time units. -/
theorem Interpretation.blind_of_rank {X : String → Prop} {a : Stage} (h : 3 ≤ a.rank)
    (hunit : a.tag ≠ .timeUnit) : I.Blind X a := by
  cases a with
  | filter | calculate | nullFilter => exact absurd h (by simp [Stage.rank])
  | timeUnit => exact absurd rfl hunit
  | _ => trivial

/-- The flow of a chart is sound if no stage reads what it must not. -/
theorem Building.sound {chart : Chart} {built : Building} (hb : ofChart chart = .ok built)
    (hreads : I.ReadsApart built.flow.stages) : built.flow.stages.Sound I := by
  have hlawful := ofChart_lawful hb
  refine ⟨hlawful.nodup, hlawful.narrow, fenced hb fun v hv l e m habove hseq => ?_,
    fun v hv e he => ?_⟩
  · refine ⟨fun hprep => ?_, fun ht => ?_, fun ht => ?_⟩
    · obtain ⟨hrank, hne⟩ := hseq hprep
      refine ⟨fun hcalc => ?_, hne⟩
      have hlow : v.content.rank = 1 := by
        cases hc : v.content <;> rw [hc] at hcalc <;> first
          | rfl
          | exact absurd hcalc (by simp [Stage.tag])
      rw [Stage.prepares_iff] at hprep
      cases hc : e.2 <;> rw [hc] at hprep hrank <;> simp_all [Stage.tag, Stage.rank]
    · -- a time unit below
      have hroute : v.route.map Prod.snd =
          l.map Prod.snd ++ e.2 :: (m.map Prod.snd ++ [v.content]) := by
        simp [Forest.Place.route, habove]
      refine (hreads v hv _ _ _ hroute).anti fun field hf => .inr ⟨v.content, by simp, ht, hf⟩
    · -- a time unit above, which is late in its chart
      obtain ⟨hrank, hne⟩ := hseq (Stage.prepares_iff.2 (.inr (.inr ht)))
      refine Interpretation.blind_of_rank ?_ (ht ▸ hne)
      cases hc : e.2 <;> rw [hc] at ht hrank <;> simp_all [Stage.tag, Stage.rank]
  · obtain ⟨l, r, hroute⟩ := List.append_of_mem he
    -- bins read no fields, and no other stage reads what they derive
    by_cases ht : e.2.tag = .bin
    · refine Interpretation.blind_of_rank ?_ (by simp [ht])
      cases hc : e.2 <;> rw [hc] at ht <;> simp_all [Stage.tag, Stage.rank]
    · have hstages : v.route.map Prod.snd = l.map Prod.snd ++ e.2 :: r.map Prod.snd := by
        simp [hroute]
      refine (hreads v hv _ _ _ hstages).anti fun field h => .inl ?_
      obtain ⟨b, hb, hbin, hf⟩ := h
      rw [hroute] at hb
      rcases List.mem_append.1 hb with hb | hb
      · exact ⟨b.2, by simp [List.mem_map_of_mem hb], hbin, hf⟩
      · rcases List.mem_cons.1 hb with rfl | hb
        · exact absurd hbin ht
        · exact ⟨b.2, by simp [List.mem_map_of_mem hb], hbin, hf⟩

end ChartPipeline
