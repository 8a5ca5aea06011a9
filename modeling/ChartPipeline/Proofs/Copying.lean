import ChartPipeline.Proofs.Emitting
import ChartPipeline.Proofs.Hosting
import ChartPipeline.Proofs.Lineage
import ChartPipeline.Proofs.Planting

/-!
# Building charts side by side

Charts that are built one after the other, and go on from nothing, do not see each other, but for
the sources that they share.  A chart that can be built alone can be built after others, and what
is built is a copy of what is built alone: both runs take the same steps, and whenever one adds a
source, the other one adds it too or finds the one of an earlier chart.

## Key results

- `Mirrors.bind`, `mirrors_addChild`, `mirrors_start`: steps of two runs
- `mirrors_build`: a chart that can be built alone is copied by building it after others
- `hosts_of_buildAll`: what is built of several charts holds copies of what is built of each
-/

namespace ChartPipeline.Building

open Forest

/-- The source of a hash. -/
def source? (st : Building) (hash : String) : Option Nat :=
  (st.sources.find? (·.1 = hash)).map Prod.snd

/-- What was built after `base` is a copy of what was built alone. -/
structure Copied (base : Building) (ρ : Nat → Nat) (own all : Building) : Prop where
  own_sound : Sound own
  all_sound : Sound all
  injective : ρ.Injective
  /-- Every name that was given away is in use. -/
  full : ∀ i < own.flow.next, i ∈ own.flow.stages.walk
  next_eq : ∀ k, ρ (own.flow.next + k) = all.flow.next + k
  under_eq : ∀ σ j, all.flow.stages.under j =
    base.flow.stages.under j ++ (own.flow.stages.recast ρ σ).under j
  /-- A source is that of the copy, unless there was one of its hash before. -/
  heads : ∀ e ∈ own.flow.stages.heads, ∃ s s', e.2 = .source s ∧
    (ρ e.1, .source s') ∈ all.flow.stages.heads ∧ s'.hash = s.hash ∧
      (s.hash ∉ base.sources.map Prod.fst → s' = s)
  noted : ∀ e ∈ own.flow.stages.heads, ∀ s, e.2 = .source s → s.hash ∈ own.sources.map Prod.fst
  found : ∀ hash i, own.source? hash = some i → all.source? hash = some (ρ i)
  sources_or : ∀ hash ∈ all.sources.map Prod.fst,
    hash ∈ base.sources.map Prod.fst ∨ hash ∈ own.sources.map Prod.fst

variable {base own own' all st st' : Building} {ρ : Nat → Nat} {p id : Nat} {stage : Stage}
  {hash : String} {chart : Chart}

/-- No source is found of a hash exactly if it was not noted. -/
theorem source?_eq_none : st.source? hash = none ↔ hash ∉ st.sources.map Prod.fst := by
  rw [source?, Option.map_eq_none_iff, List.find?_eq_none, List.mem_map, not_exists]
  exact forall_congr' fun e => by simp

/-- A source that is added is found by its hash. -/
theorem source?_addSource (st : Building) (s : Source) (hash : String) :
    (st.addSource s).source? hash =
      if s.hash = hash then some st.flow.next else st.source? hash := by
  rw [source?, addSource, List.find?_cons]
  by_cases h : s.hash = hash
  · simp [h]
  · simp [h, source?]

/-- A source that is found has the hash and is a root. -/
theorem Sound.mem_heads_of_source? (hst : Sound st) (h : st.source? hash = some id) :
    ∃ s : Source, s.hash = hash ∧ (id, .source s) ∈ st.flow.stages.heads := by
  obtain ⟨e, he, rfl⟩ := Option.map_eq_some_iff.1 h
  obtain ⟨data, hdata, hmem⟩ := hst.sources e (List.mem_of_find?_eq_some he)
  exact ⟨_, hdata.trans (by simpa using List.find?_some he), mem_heads_iff.2 hmem⟩

/-- A source that is added is a new root. -/
theorem mem_heads_addSource {s : Source} {e : Nat × Stage} :
    e ∈ (st.addSource s).flow.stages.heads ↔
      e ∈ st.flow.stages.heads ∨ e = (st.flow.next, .source s) := by
  simp [addSource, Flow.restructure, leaf, Forest.heads]

/-- Before a chart is built, nothing is copied. -/
theorem Sound.copied (hst : Sound st) : Copied st (st.flow.next + ·) {} st where
  own_sound := sound_empty
  all_sound := hst
  injective := fun i j h => by simpa using h
  full i hi := absurd hi (Nat.not_lt_zero i)
  next_eq k := by simp
  under_eq σ j := by simp [under]
  heads e he := absurd he (by simp [Forest.heads])
  noted e he := absurd he (by simp [Forest.heads])
  found hash i h := by simp [source?] at h
  sources_or hash h := .inl h

/-! ### One stage -/

namespace Copied

variable (h : Copied base ρ own all)

include h

/-- A root is copied to a root, and what stands below one stands below the copy. -/
theorem cases_of_mem (hp : p ∈ own.flow.stages.walk) :
    (p ∈ own.flow.stages.roots ∧ ρ p ∈ all.flow.stages.roots) ∨
      ∃ i, p ∈ (own.flow.stages.under i).walk ∧ ρ p ∈ (all.flow.stages.under (ρ i)).walk ∧
        ∀ σ, ρ p ∈ ((own.flow.stages.recast ρ σ).under (ρ i)).walk := by
  rcases mem_roots_or_under (nodup_roots h.own_sound.nodup) hp with hroot | ⟨i, -, hi⟩
  · refine .inl ⟨hroot, ?_⟩
    rw [← map_fst_heads] at hroot ⊢
    obtain ⟨e, he, rfl⟩ := List.mem_map.1 hroot
    obtain ⟨s, s', -, hmem, -⟩ := h.heads e he
    exact List.mem_map_of_mem hmem
  · have hcopy (σ) : ρ p ∈ ((own.flow.stages.recast ρ σ).under (ρ i)).walk := by
      rw [under_recast h.injective, mem_walk_recast h.injective]
      exact hi
    refine .inr ⟨i, hi, ?_, hcopy⟩
    rw [h.under_eq fun s => s, walk_append]
    exact List.mem_append_right _ (hcopy _)

/-- What is copied is there. -/
theorem mem_walk (hp : p ∈ own.flow.stages.walk) : ρ p ∈ all.flow.stages.walk := by
  rcases h.cases_of_mem hp with ⟨-, hroot⟩ | ⟨i, -, hi, -⟩
  · exact mem_walk_of_mem_roots hroot
  · exact mem_walk_of_mem_under hi

/-- A copy is a root exactly if what is copied is one. -/
theorem mem_roots_iff (hp : p ∈ own.flow.stages.walk) :
    ρ p ∈ all.flow.stages.roots ↔ p ∈ own.flow.stages.roots := by
  rcases h.cases_of_mem hp with ⟨hroot, hroot'⟩ | ⟨i, hi, hi', -⟩
  · exact iff_of_true hroot' hroot
  · exact iff_of_false (under_apart h.all_sound.nodup hi').1 (under_apart h.own_sound.nodup hi).1

/-- No copy stands among what there was before. -/
theorem notMem_base (hp : p ∈ own.flow.stages.walk) (j : Nat) :
    ρ p ∉ (base.flow.stages.under j).walk := by
  intro hbase
  have hn := h.all_sound.nodup
  have hall : ρ p ∈ (all.flow.stages.under j).walk := by
    rw [h.under_eq fun s => s, walk_append]
    exact List.mem_append_left _ hbase
  -- what was there before stands below a root: a copy that is a root does not, and one that is none
  -- stands there beside it
  rcases h.cases_of_mem hp with ⟨-, hroot⟩ | ⟨i, -, hi, hcopy⟩
  · exact (under_apart hn hall).1 hroot
  · obtain rfl := (under_apart hn hall).2 _ hi
    have hunder := nodup_under (i := ρ i) hn
    rw [h.under_eq fun s => s, walk_append, List.nodup_append] at hunder
    exact hunder.2.2 _ hbase _ (hcopy _) rfl

/-- A stage that is added below a copy is a copy of the one that is added alone. -/
theorem addChild {new : Nat} (hs : stage.tag ≠ .source) (hp : p ∈ own.flow.stages.walk)
    (hown : Planted p stage own id own') (hall : Planted (ρ p) stage all new all') :
    Copied base ρ own' all' where
  own_sound := hown.sound h.own_sound
  all_sound := hall.sound h.all_sound
  injective := h.injective
  full i hi := by
    obtain ⟨v, hv, hvp⟩ := mem_walk_iff.1 hp
    have hplaces {w : Place Stage} := @Planted.mem_places _ _ _ _ _ hown h.own_sound v hv hvp w
    rw [hown.next_eq] at hi
    rw [mem_walk_iff]
    rcases Nat.lt_succ_iff_lt_or_eq.1 hi with hi | rfl
    · obtain ⟨w, hw, rfl⟩ := mem_walk_iff.1 (h.full i hi)
      exact ⟨w, hplaces.2 (.inl hw), rfl⟩
    · exact ⟨_, hplaces.2 (.inr rfl), hown.id_eq⟩
  next_eq k := by
    rw [hown.next_eq, hall.next_eq, Nat.add_assoc, h.next_eq, Nat.add_assoc]
  under_eq σ j := by
    have hnew : ρ id = new := by
      rw [hown.id_eq, hall.id_eq]
      exact h.next_eq 0
    have hleaf : (leaf id stage).recast ρ σ = leaf new stage := by
      rw [leaf, recast_node, Stage.recast_of_not_source hs, hnew]
      rfl
    have hn := (@nodup_recast ρ σ _ h.injective).2 h.own_sound.nodup
    -- whether the parent is the root looked below is asked of the copy as of the whole forest
    have hcond : (ρ p = j ∧ j ∈ all.flow.stages.roots) ↔
        (ρ p = j ∧ j ∈ (own.flow.stages.recast ρ σ).roots) := by
      refine and_congr_right fun hj => ?_
      subst hj
      rw [h.mem_roots_iff hp, mem_roots_recast h.injective]
    rw [hall.stages_eq, hown.stages_eq, under_attach h.all_sound.nodup, attach_recast h.injective,
      under_attach hn, hleaf, h.under_eq σ, attach_append_of_notMem (h.notMem_base hp j),
      append_assoc]
    simp only [hcond]
  heads := by
    rw [hown.stages_eq, hall.stages_eq, heads_attach, heads_attach]
    exact h.heads
  noted := by
    rw [hown.stages_eq, hown.sources_eq, heads_attach]
    exact h.noted
  found hash i := by
    rw [source?, source?, hown.sources_eq, hall.sources_eq]
    exact h.found hash i
  sources_or := by
    rw [hown.sources_eq, hall.sources_eq]
    exact h.sources_or

/-- Every name that was given away is in use when a source has been added. -/
theorem full_addSource (s : Source) :
    ∀ i < (own.addSource s).flow.next, i ∈ (own.addSource s).flow.stages.walk := by
  intro i hi
  rw [mem_walk_iff]
  rcases Nat.lt_succ_iff_lt_or_eq.1 hi with hi | rfl
  · obtain ⟨w, hw, rfl⟩ := mem_walk_iff.1 (h.full i hi)
    exact ⟨w, mem_places_addSource.2 (.inl hw), rfl⟩
  · exact ⟨_, mem_places_addSource.2 (.inr rfl), rfl⟩

/-- Every source is noted when one has been added. -/
theorem noted_addSource (s : Source) : ∀ e ∈ (own.addSource s).flow.stages.heads,
    ∀ s', e.2 = .source s' → s'.hash ∈ (own.addSource s).sources.map Prod.fst := by
  intro e he s' hs'
  rcases mem_heads_addSource.1 he with he | rfl
  · exact List.mem_cons_of_mem _ (h.noted e he s' hs')
  · obtain rfl := Stage.source.inj hs'
    exact List.mem_cons_self

/-- A source that neither run knows is added in both. -/
theorem addSource (data : DataSource) :
    Copied base ρ (own.addSource (.ofData data)) (all.addSource (.ofData data)) where
  own_sound := h.own_sound.addSource data
  all_sound := h.all_sound.addSource data
  injective := h.injective
  full := h.full_addSource _
  next_eq k := by
    have := h.next_eq (1 + k)
    simpa [Building.addSource, Nat.add_assoc] using this
  -- a root has nothing below it, so what is below the others is as before
  under_eq σ j := by
    have hleaf : (leaf own.flow.next (.source (.ofData data))).recast ρ σ =
      leaf (ρ own.flow.next) (.source (σ (.ofData data))) := rfl
    simp only [Building.addSource, Flow.restructure, recast_append, hleaf, under_append_leaf,
      h.under_eq σ j]
  heads e he := by
    rcases mem_heads_addSource.1 he with he | rfl
    · obtain ⟨s₁, s', heq, hmem, hrest⟩ := h.heads e he
      exact ⟨s₁, s', heq, mem_heads_addSource.2 (.inl hmem), hrest⟩
    · exact ⟨_, _, rfl, mem_heads_addSource.2 (.inr (Prod.ext (h.next_eq 0) rfl)), rfl,
        fun _ => rfl⟩
  noted := h.noted_addSource _
  -- the new source is found by its hash, all others as before
  found hash i hi := by
    rw [source?_addSource] at hi ⊢
    split at hi
    · next heq =>
      obtain rfl := Option.some.inj hi
      rw [if_pos heq]
      exact congrArg some (h.next_eq 0).symm
    · next hne =>
      rw [if_neg hne]
      exact h.found hash i hi
  sources_or hash hmem := by
    rcases List.mem_cons.1 hmem with rfl | hmem
    · exact .inr List.mem_cons_self
    · exact (h.sources_or hash hmem).imp_right (List.mem_cons_of_mem _)

omit h in
/-- The names after the next one, `n`, was given to a source that has the name `i` elsewhere. -/
def shift (ρ : Nat → Nat) (n i : Nat) (j : Nat) : Nat :=
  if j < n then ρ j else if j = n then i else ρ (j - 1)

omit h in
/-- A name is below the new one, the new one, or after it. -/
theorem shift_cases (ρ : Nat → Nat) (n i j : Nat) : (j < n ∧ shift ρ n i j = ρ j) ∨
    (n = j ∧ shift ρ n i j = i) ∨ (n < j ∧ shift ρ n i j = ρ (j - 1)) := by
  rcases Nat.lt_trichotomy j n with hj | rfl | hj
  · exact .inl ⟨hj, if_pos hj⟩
  · exact .inr (.inl ⟨rfl, by simp [shift]⟩)
  · exact .inr (.inr ⟨hj, by rw [shift, if_neg (by omega), if_neg (by omega)]⟩)

omit h in
/-- Names stay apart when one of them is given to a source that has no copy so far. -/
theorem injective_shift (hρ : ρ.Injective) {i : Nat} (hne : ∀ j, ρ j ≠ i) (n : Nat) :
    (shift ρ n i).Injective := by
  intro j j' hj
  -- each of both names is below the new one, the new one, or after it
  rcases shift_cases ρ n i j with ⟨hlt, heq⟩ | ⟨hlt, heq⟩ | ⟨hlt, heq⟩ <;>
    rcases shift_cases ρ n i j' with ⟨hlt', heq'⟩ | ⟨hlt', heq'⟩ | ⟨hlt', heq'⟩ <;>
    rw [heq, heq'] at hj
  · exact hρ hj
  · exact absurd hj (hne _)
  · have := hρ hj
    omega
  · exact absurd hj.symm (hne _)
  · exact hlt.symm.trans hlt'
  · exact absurd hj.symm (hne _)
  · have := hρ hj
    omega
  · exact absurd hj (hne _)
  · have := hρ hj
    omega

/-- No copy has the name of a source that is not copied so far. -/
theorem ne_of_found {i j : Nat} (hown : own.source? hash = none)
    (hall : all.source? hash = some i) :
    ρ j ≠ i := by
  obtain ⟨s, rfl, hs⟩ := h.all_sound.mem_heads_of_source? hall
  have hroot := mem_roots_of_mem_heads hs
  rintro rfl
  by_cases hj : j < own.flow.next
  · -- the root would be that of a source alone, of the same hash
    rw [h.mem_roots_iff (h.full j hj), ← map_fst_heads] at hroot
    obtain ⟨e, he, rfl⟩ := List.mem_map.1 hroot
    obtain ⟨s₁, s', heq, hmem, hhash, -⟩ := h.heads e he
    have hsame : Stage.source s' = .source s := by
      have := place_inj h.all_sound.nodup (mem_heads_iff.1 hmem) (mem_heads_iff.1 hs) rfl
      exact (Place.mk.inj this).2.2
    refine source?_eq_none.1 hown ?_
    rw [← Stage.source.inj hsame, hhash]
    exact h.noted e he s₁ heq
  · have hnext := h.next_eq (j - own.flow.next)
    rw [Nat.add_sub_cancel' (by omega)] at hnext
    have := h.all_sound.fresh _ (mem_walk_of_mem_roots hroot)
    omega

/-- A source that is new alone may have been added for an earlier chart. -/
theorem reuse {data : DataSource} {i : Nat} (hown : own.source? (Source.ofData data).hash = none)
    (hall : all.source? (Source.ofData data).hash = some i) :
    Copied base (shift ρ own.flow.next i) (own.addSource (.ofData data)) all := by
  have hlow {j : Nat} (hj : j < own.flow.next) : shift ρ own.flow.next i j = ρ j := if_pos hj
  have hnew : shift ρ own.flow.next i own.flow.next = i := by simp [shift]
  have hnext : (own.addSource (.ofData data)).flow.next = own.flow.next + 1 := rfl
  have hmem {j : Nat} (hj : j ∈ own.flow.stages.walk) : shift ρ own.flow.next i j = ρ j :=
    hlow (h.own_sound.fresh j hj)
  exact {
    own_sound := h.own_sound.addSource data
    all_sound := h.all_sound
    injective := injective_shift h.injective (fun j => h.ne_of_found hown hall) _
    full := h.full_addSource _
    next_eq := by
      intro k
      rw [hnext, ← h.next_eq k, shift, if_neg (by omega), if_neg (by omega)]
      congr 1
      omega
    under_eq := by
      intro σ j
      have hsame : own.flow.stages.recast (shift ρ own.flow.next i) σ =
          own.flow.stages.recast ρ σ := recast_congr fun _ => hmem
      have hleaf : (leaf own.flow.next (.source (.ofData data))).recast
          (shift ρ own.flow.next i) σ = leaf i (.source (σ (.ofData data))) := by
        rw [leaf, recast_node, hnew]
        rfl
      simp only [Building.addSource, Flow.restructure, recast_append, hleaf, under_append_leaf,
        hsame, h.under_eq σ j]
    heads := by
      intro e he
      rcases mem_heads_addSource.1 he with he | rfl
      · obtain ⟨s₁, s', heq, hroot, hrest⟩ := h.heads e he
        have hwalk := mem_walk_of_mem_roots (mem_roots_of_mem_heads he)
        exact ⟨s₁, s', heq, by rwa [hmem hwalk], hrest⟩
      · obtain ⟨s', hs', hroot⟩ := h.all_sound.mem_heads_of_source? hall
        refine ⟨.ofData data, s', rfl, by rwa [hnew], hs', fun hbase => ?_⟩
        have hnoted : (Source.ofData data).hash ∈ all.sources.map Prod.fst := by
          by_contra hnot
          rw [source?_eq_none.2 hnot] at hall
          exact absurd hall (by simp)
        exact ((h.sources_or _ hnoted).elim hbase (source?_eq_none.1 hown)).elim
    noted := h.noted_addSource _
    found := by
      intro hash j hj
      rw [source?_addSource] at hj
      split at hj
      · next heq =>
        obtain rfl := Option.some.inj hj
        rw [hnew, ← heq, hall]
      · obtain ⟨s₁, -, hroot⟩ := h.own_sound.mem_heads_of_source? hj
        rw [hmem (mem_walk_of_mem_roots (mem_roots_of_mem_heads hroot))]
        exact h.found hash j hj
    sources_or := fun hash hhash =>
      (h.sources_or hash hhash).imp_right (List.mem_cons_of_mem _) }

end Copied

/-! ### Two runs -/

/-- A step that is taken alone can be taken after other charts were built, and what is built is
    still a copy, also under the names so far.  `R` relates the results. -/
def Mirrors {α : Type} (base : Building) (ρ : Nat → Nat) (own all : Building) (m m' : Build α)
    (R : (Nat → Nat) → Building → α → α → Prop) : Prop :=
  ∀ a own', m own = (.ok a, own') → ∃ ρ' a' all', m' all = (.ok a', all') ∧
    Copied base ρ' own' all' ∧ own.flow.next ≤ own'.flow.next ∧
    (∀ i < own.flow.next, ρ' i = ρ i) ∧ R ρ' own' a a'

/-- Names of a stage alone and in the copy. -/
def SameStage (ρ : Nat → Nat) (own : Building) (i i' : Nat) : Prop :=
  i < own.flow.next ∧ i' = ρ i

/-- A stage stays the same in both runs as they go on. -/
theorem SameStage.mono {ρ' : Nat → Nat} {i i' : Nat} (hi : SameStage ρ own i i')
    (hle : own.flow.next ≤ own'.flow.next) (hρ : ∀ i < own.flow.next, ρ' i = ρ i) :
    SameStage ρ' own' i i' :=
  ⟨Nat.lt_of_lt_of_le hi.1 hle, hi.2.trans (hρ i hi.1).symm⟩

/-- The stages that charts inside go on from, alone and in the copy. -/
def SameHead (ρ : Nat → Nat) (own : Building) : Option Nat → Option Nat → Prop
  | none, none => True
  | some i, some i' => SameStage ρ own i i'
  | _, _ => False

section Mirrors

variable {α β : Type} {m m' : Build α} {R : (Nat → Nat) → Building → α → α → Prop}
  {S : (Nat → Nat) → Building → β → β → Prop}

/-- What does nothing is taken in both runs. -/
theorem mirrors_pure {a a' : α} (hc : Copied base ρ own all) (hr : R ρ own a a') :
    Mirrors base ρ own all (pure a) (pure a') R := by
  intro b own' hrun
  obtain ⟨hb, rfl⟩ := Prod.mk.inj hrun
  obtain rfl := Except.ok.inj hb
  exact ⟨ρ, a', all, rfl, hc, Nat.le_refl _, fun _ _ => rfl, hr⟩

/-- What is computed without the state is the same in both runs. -/
theorem mirrors_lift (x : Except CompileError α) (hc : Copied base ρ own all) :
    Mirrors base ρ own all (liftM x) (liftM x) fun _ _ a a' => a' = a ∧ x = .ok a := by
  intro b own' hrun
  rw [Run.lift_run] at hrun
  obtain ⟨rfl, rfl⟩ := Prod.mk.inj hrun
  exact ⟨ρ, b, all, Run.lift_run _ _, hc, Nat.le_refl _, fun _ _ => rfl, rfl, rfl⟩

/-- Steps that are taken one after the other can be taken so after other charts. -/
theorem Mirrors.bind {k k' : α → Build β} (hm : Mirrors base ρ own all m m' R)
    (hk : ∀ ρ₁ own₁ all₁ a a', Copied base ρ₁ own₁ all₁ → own.flow.next ≤ own₁.flow.next →
      (∀ i < own.flow.next, ρ₁ i = ρ i) → R ρ₁ own₁ a a' →
      Mirrors base ρ₁ own₁ all₁ (k a) (k' a') S) :
    Mirrors base ρ own all (m >>= k) (m' >>= k') S := by
  intro b own' hrun
  obtain ⟨a, own₁, hfirst, hrest⟩ := Run.bind_eq_ok hrun
  obtain ⟨ρ₁, a', all₁, hfirst', hc₁, hle₁, hρ₁, hr⟩ := hm a own₁ hfirst
  obtain ⟨ρ₂, b', all₂, hrest', hc₂, hle₂, hρ₂, hs⟩ :=
    hk ρ₁ own₁ all₁ a a' hc₁ hle₁ hρ₁ hr b own' hrest
  refine ⟨ρ₂, b', all₂, (Run.bind_ok hfirst').trans hrest', hc₂, Nat.le_trans hle₁ hle₂,
    fun i hi => ?_, hs⟩
  exact (hρ₂ i (Nat.lt_of_lt_of_le hi hle₁)).trans (hρ₁ i hi)

end Mirrors

/-- Adding a stage below another one mirrors adding it below the copy. -/
theorem mirrors_addChild {p' : Nat} (hc : Copied base ρ own all) (hp : SameStage ρ own p p')
    (hs : stage.tag ≠ .source) : Mirrors base ρ own all (edit (Flow.addChild p stage))
      (edit (Flow.addChild p' stage)) SameStage := by
  intro new own' hrun
  obtain ⟨hlt, rfl⟩ := hp
  have hown := edit_addChild_inv hrun hc.own_sound
  have hmem := hc.full p hlt
  obtain ⟨flow', hrun', -⟩ := Flow.addChild_run stage hc.all_sound.nodup (hc.mem_walk hmem)
    hc.all_sound.next_notMem
  -- the copy of the parent is there, so the edit of the copy succeeds too
  have hedit : edit (Flow.addChild (ρ p) stage) all =
      (.ok all.flow.next, { all with flow := flow' }) := by
    rw [edit, hrun']
  have hall := edit_addChild_inv hedit hc.all_sound
  refine ⟨ρ, _, _, hedit, hc.addChild hs hmem hown hall, ?_, fun _ _ => rfl, ?_, ?_⟩
  · rw [hown.next_eq]
    exact Nat.le_succ _
  · rw [hown.id_eq, hown.next_eq]
    exact Nat.lt_succ_self _
  · rw [hown.id_eq]
    exact (hc.next_eq 0).symm

/-- So does adding stages one below the other. -/
theorem mirrors_chain {stages : List Stage} {p p' : Nat} (hc : Copied base ρ own all)
    (hp : SameStage ρ own p p') (hs : ∀ a ∈ stages, a.tag ≠ .source) :
    Mirrors base ρ own all (chain p stages) (chain p' stages) SameStage := by
  induction stages generalizing ρ own all p p' with
  | nil => exact mirrors_pure hc hp
  | cons a stages ih =>
    -- the first stage is the one below which the others come
    refine (mirrors_addChild hc hp (hs a List.mem_cons_self)).bind
      fun ρ₁ own₁ all₁ new new' hc₁ _ _ hnew => ?_
    exact ih hc₁ hnew fun b hb => hs b (List.mem_cons_of_mem _ hb)

/-- A chart with data goes on from the source of its hash, which is added if there is none. -/
theorem start_run {data : DataSource} (hd : chart.header.data = some data)
    (inherited : Option Nat) (st : Building) : start chart inherited st =
      match st.source? (Source.ofData data).hash with
      | some id => (.ok id, st)
      | none => (.ok st.flow.next, st.addSource (.ofData data)) := by
  unfold start
  simp only [hd, Run.bind_ok (Run.get_run st), source?]
  cases st.sources.find? (·.1 = (Source.ofData data).hash) with
  | some e => rfl
  | none => rfl

/-- A chart goes on from what it inherits or from its source in both runs. -/
theorem mirrors_start {inherited inherited' : Option Nat} (hc : Copied base ρ own all)
    (hi : SameHead ρ own inherited inherited') :
    Mirrors base ρ own all (start chart inherited) (start chart inherited') SameStage := by
  cases hd : chart.header.data with
  | none =>
    unfold start
    simp only [hd]
    cases inherited with
    | none => exact fun _ _ hrun => absurd hrun Run.throw_ne_ok
    | some i =>
      cases inherited' with
      | none => exact hi.elim
      | some i' => exact mirrors_pure hc hi
  | some data =>
    intro head own' hrun
    rw [start_run hd] at hrun
    cases hown : own.source? (Source.ofData data).hash with
    | some i =>
      -- both have a source of this hash
      rw [hown] at hrun
      obtain ⟨hhead, rfl⟩ := Prod.mk.inj hrun
      obtain rfl := Except.ok.inj hhead
      obtain ⟨s, -, hroot⟩ := hc.own_sound.mem_heads_of_source? hown
      refine ⟨ρ, ρ i, all, ?_, hc, Nat.le_refl _, fun _ _ => rfl, ?_, rfl⟩
      · rw [start_run hd, hc.found _ i hown]
      · exact hc.own_sound.fresh _ (mem_walk_of_mem_roots (mem_roots_of_mem_heads hroot))
    | none =>
      rw [hown] at hrun
      obtain ⟨hhead, rfl⟩ := Prod.mk.inj hrun
      obtain rfl := Except.ok.inj hhead
      cases hall : all.source? (Source.ofData data).hash with
      | none =>
        refine ⟨ρ, all.flow.next, _, ?_, hc.addSource _, Nat.le_succ _, fun _ _ => rfl,
          Nat.lt_succ_self _, (hc.next_eq 0).symm⟩
        rw [start_run hd, hall]
      | some i =>
        -- an earlier chart has added the source: it is the copy of the one that is new alone
        refine ⟨_, i, all, ?_, hc.reuse hown hall, Nat.le_succ _, fun j hj => if_pos hj,
          Nat.lt_succ_self _, ?_⟩
        · rw [start_run hd, hall]
        · simp [Copied.shift]

/-! ### Charts -/

/-- Components from which charts inside go on alike. -/
def SameComponent (ρ : Nat → Nat) (own : Building) (c c' : Component) : Prop :=
  SameHead ρ own c.inheritedHead c'.inheritedHead

/-- The header of a dimension is added in both runs. -/
theorem mirrors_addHeader {main main' : Nat} (declared : Option FieldDef) (dimension : Channel)
    (hc : Copied base ρ own all) (hm : SameStage ρ own main main') :
    Mirrors base ρ own all
      (match declared with
        | none => pure none
        | some _ => some <$> (do edit (Flow.addChild main (← chart.headerStage dimension))) :
          Build (Option Nat))
      (match declared with
        | none => pure none
        | some _ => some <$> (do edit (Flow.addChild main' (← chart.headerStage dimension))) :
          Build (Option Nat)) fun _ _ _ _ => True := by
  cases declared with
  | none => exact mirrors_pure hc trivial
  | some f =>
    refine Mirrors.bind (R := SameStage) ((mirrors_lift (chart.headerStage dimension) hc).bind
      fun ρ₁ own₁ all₁ stage stage' hc₁ hle hρ hstage => ?_)
      fun _ _ _ _ _ hc₂ _ _ _ => mirrors_pure hc₂ trivial
    obtain ⟨rfl, hstage⟩ := hstage
    refine mirrors_addChild hc₁ (hm.mono hle hρ) ?_
    -- a header is no source, so it is copied as it is
    unfold Chart.headerStage at hstage
    split at hstage
    · obtain rfl := Except.ok.inj hstage
      simp [Stage.tag]
    · exact absurd hstage (by simp)

/-- The headers and the facet are added in both runs, and charts inside go on from the facet. -/
theorem mirrors_addFacet {main main' : Nat} {c c' : Component} (hc : Copied base ρ own all)
    (hm : SameStage ρ own main main') (hroot : c.facetRoot = none) (hroot' : c'.facetRoot = none)
    (hmain : c.main = some main) (hmain' : c'.main = some main') :
    Mirrors base ρ own all (addFacet chart main c) (addFacet chart main' c') SameComponent := by
  have hsame : SameComponent ρ own c c' := by
    rw [SameComponent, Component.inheritedHead, Component.inheritedHead, hroot, hroot', hmain,
      hmain']
    exact hm
  cases chart with
  | unit => exact mirrors_pure hc hsame
  | layer => exact mirrors_pure hc hsame
  | facet header mapping child =>
    -- both headers and the facet in their order; what goes on inside is the facet
    refine (mirrors_addHeader mapping.column .column hc hm).bind
      fun ρ₁ own₁ all₁ column column' hc₁ hle₁ hρ₁ _ => ?_
    have hm₁ := hm.mono hle₁ hρ₁
    refine (mirrors_addHeader mapping.row .row hc₁ hm₁).bind
      fun ρ₂ own₂ all₂ row row' hc₂ hle₂ hρ₂ _ => ?_
    have hm₂ := hm₁.mono hle₂ hρ₂
    refine Mirrors.bind (R := fun ρ own root root' => ∃ i i', root = some i ∧ root' = some i' ∧
      SameStage ρ own i i') ((mirrors_addChild hc₂ hm₂ (by simp [Stage.tag])).bind
        fun _ _ _ i i' hc₃ _ _ hr => mirrors_pure hc₃ ⟨i, i', rfl, rfl, hr⟩)
      fun _ _ _ root root' hc₄ _ _ hr => mirrors_pure hc₄ ?_
    obtain ⟨i, i', rfl, rfl, hr⟩ := hr
    exact hr

/-- The stages of a chart are added in both runs. -/
theorem mirrors_addChain {inherited inherited' : Option Nat} (hc : Copied base ρ own all)
    (hi : SameHead ρ own inherited inherited') :
    Mirrors base ρ own all (addChain chart inherited) (addChain chart inherited')
      SameComponent := by
  have hraw : chart.rawOutput.tag ≠ .source := by simp [Chart.rawOutput, Stage.tag]
  have hmain : chart.mainOutput.tag ≠ .source := by simp [Chart.mainOutput, Stage.tag]
  unfold addChain
  -- the steps of a chain in their order: in both runs each is taken below the same stage
  refine (mirrors_start hc hi).bind fun ρ₁ own₁ all₁ head head' hc₁ _ _ hh₁ => ?_
  refine (mirrors_lift _ hc₁).bind fun ρ₂ own₂ all₂ before before' hc₂ hle₂ hρ₂ hb => ?_
  obtain ⟨rfl, hb⟩ := hb
  refine (mirrors_chain hc₂ (hh₁.mono hle₂ hρ₂)
    (Chart.not_source_of_mem_stagesBeforeRaw hb)).bind fun ρ₃ own₃ all₃ _ _ hc₃ _ _ hh₃ => ?_
  refine (mirrors_addChild hc₃ hh₃ hraw).bind fun ρ₄ own₄ all₄ raw raw' hc₄ _ _ hh₄ => ?_
  refine (mirrors_lift _ hc₄).bind fun ρ₅ own₅ all₅ after after' hc₅ hle₅ hρ₅ ha => ?_
  obtain ⟨rfl, ha⟩ := ha
  refine (mirrors_chain hc₅ (hh₄.mono hle₅ hρ₅)
    (Chart.not_source_of_mem_stagesAfterRaw ha)).bind fun ρ₆ own₆ all₆ _ _ hc₆ _ _ hh₆ => ?_
  refine (mirrors_addChild hc₆ hh₆ hmain).bind fun ρ₇ own₇ all₇ main main' hc₇ _ _ hh₇ => ?_
  exact mirrors_addFacet hc₇ hh₇ rfl rfl rfl rfl

/-- So is a chart, which may be a layer without stages of its own. -/
theorem mirrors_addChart {inherited inherited' : Option Nat} (hc : Copied base ρ own all)
    (hi : SameHead ρ own inherited inherited') :
    Mirrors base ρ own all (addChart chart inherited) (addChart chart inherited')
      SameComponent := by
  have hchain := @mirrors_addChain base own all ρ chart _ _ hc hi
  -- only a layer without any data adds no chain, and it does so in both runs
  cases chart with
  | unit => exact hchain
  | facet => exact hchain
  | layer header children =>
    cases hd : header.data with
    | some data => simpa only [addChart, Chart.header, hd] using hchain
    | none =>
      cases inherited with
      | some i =>
        cases inherited' with
        | none => exact hi.elim
        | some i' => simpa only [addChart, Chart.header, hd] using hchain
      | none =>
        cases inherited' with
        | some i' => exact hi.elim
        | none =>
          simp only [addChart, Chart.header, hd]
          exact mirrors_pure hc trivial

/-- Noting a component changes nothing that is copied. -/
theorem mirrors_note {c c' : Component} (hc : Copied base ρ own all) :
    Mirrors base ρ own all (note c) (note c') fun _ _ _ _ => True := by
  intro _ own' hrun
  obtain ⟨-, rfl⟩ := Prod.mk.inj hrun
  obtain ⟨hown, hall, hinj, hfull, hnext, hunder, hheads, hnoted, hfound, hor⟩ := hc
  exact ⟨ρ, (), _, rfl, ⟨Extends.sound_note hown c, Extends.sound_note hall c', hinj, hfull,
    hnext, hunder, hheads, hnoted, hfound, hor⟩, Nat.le_refl _, fun _ _ => rfl, trivial⟩

mutual

/-- A chart that can be built alone can be built after others, and is copied. -/
theorem mirrors_build : ∀ (chart : Chart) {ρ : Nat → Nat} {own all : Building}
    {inherited inherited' : Option Nat}, Copied base ρ own all →
      SameHead ρ own inherited inherited' →
        Mirrors base ρ own all (build chart inherited) (build chart inherited') fun _ _ _ _ => True
  | .unit h mark encoding stack, ρ, own, all, _, _, hc, hi => by
    rw [build, build]
    exact (mirrors_addChart hc hi).bind fun _ _ _ _ _ hc₁ _ _ _ => mirrors_note hc₁
  | .layer h children, ρ, own, all, _, _, hc, hi => by
    rw [build, build]
    exact (mirrors_addChart hc hi).bind fun _ _ _ _ _ hc₁ _ _ hh =>
      (mirrors_buildAll children hc₁ hh).bind fun _ _ _ _ _ hc₂ _ _ _ => mirrors_note hc₂
  | .facet h mapping child, ρ, own, all, _, _, hc, hi => by
    rw [build, build]
    exact (mirrors_addChart hc hi).bind fun _ _ _ _ _ hc₁ _ _ hh =>
      (mirrors_build child hc₁ hh).bind fun _ _ _ _ _ hc₂ _ _ _ => mirrors_note hc₂

/-- Charts that can be built side by side from a state can be built so after others, and are
    copied. -/
theorem mirrors_buildAll : ∀ (charts : List Chart) {ρ : Nat → Nat} {own all : Building}
    {inherited inherited' : Option Nat}, Copied base ρ own all →
      SameHead ρ own inherited inherited' →
        Mirrors base ρ own all (buildAll charts inherited) (buildAll charts inherited')
          fun _ _ _ _ => True
  | [], ρ, own, all, _, _, hc, hi => by
    rw [buildAll, buildAll]
    exact mirrors_pure hc trivial
  | chart :: rest, ρ, own, all, inherited, inherited', hc, hi => by
    rw [buildAll, buildAll]
    refine (mirrors_build chart hc hi).bind fun ρ₁ own₁ all₁ _ _ hc₁ hle hρ _ => ?_
    -- what the charts inherit is still the same stage in both runs
    refine mirrors_buildAll rest hc₁ ?_
    cases inherited with
    | none => cases inherited' with
      | none => trivial
      | some => exact hi.elim
    | some => cases inherited' with
      | none => exact hi.elim
      | some => exact hi.mono hle hρ

end

/-! ### Charts side by side -/

/-- Roots stay when more is added. -/
theorem Grows.heads (h : Grows st st') : st.flow.stages.heads ⊆ st'.flow.stages.heads :=
  fun _ he => mem_heads_iff.2 (h _ (mem_heads_iff.1 he))

/-- Charts without anything to inherit can be built in every state. -/
theorem Sound.ready (hst : Sound st) : Ready (fun _ => True) none none st :=
  ⟨hst, fun _ _ => trivial, fun _ _ => trivial, fun _ hid => absurd hid (by simp)⟩

/-- A chart that can be built alone is built after others as a copy. -/
theorem build_copied (hst : Sound st) (h : build chart none {} = (.ok (), own)) :
    ∃ ρ st', build chart none st = (.ok (), st') ∧ Copied st ρ own st' ∧ Grows st st' := by
  have hhead : SameHead (st.flow.next + ·) {} none none := trivial
  obtain ⟨ρ, _, st', hrun, hc, -⟩ := mirrors_build chart hst.copied hhead () own h
  obtain ⟨_, _, hext⟩ := (builds_of_build chart hrun).extends hst.ready
  exact ⟨ρ, st', hrun, hc, hext.grows hst⟩

/-- The sources at the roots are those of the roots. -/
theorem mem_rootSources {f : Forest Stage} {s : Source} :
    s ∈ f.rootSources ↔ ∃ i, (i, .source s) ∈ f.heads := by
  induction f with
  | nil => simp [rootSources, Forest.heads]
  | node i a cs rest _ ih =>
    cases a <;> simp [rootSources, Forest.heads, ih, exists_or, eq_comm]

/-- Their hashes are those of the sources. -/
theorem mem_hashes {f : Forest Stage} :
    hash ∈ f.rootSources.map Source.hash ↔ ∃ i s, (i, .source s) ∈ f.heads ∧ s.hash = hash := by
  simp only [List.mem_map, mem_rootSources]
  exact ⟨fun ⟨s, ⟨i, hi⟩, hs⟩ => ⟨i, s, hi, hs⟩, fun ⟨i, s, hi, hs⟩ => ⟨s, ⟨i, hi⟩, hs⟩⟩

/-- The hashes of sources are noted. -/
theorem Sound.hash_of_noted (hst : Sound st) (h : hash ∈ st.sources.map Prod.fst) :
    hash ∈ st.flow.stages.rootSources.map Source.hash := by
  obtain ⟨e, he, rfl⟩ := List.mem_map.1 h
  obtain ⟨data, hdata, hmem⟩ := hst.sources e he
  exact mem_hashes.2 ⟨e.2, _, mem_heads_iff.2 hmem, hdata⟩

/-- The source of a root in a copy: it is the root's own, and no root of another copy stands for
    it, if no other copy has a source of its hash. -/
structure RootIn (st : Building) (others : List Copy) (k : Copy) (e : Nat × Stage)
    (s s' : Source) : Prop where
  content : e.2 = .source s
  mem : (k.rename e.1, .source s') ∈ st.flow.stages.heads
  hash_eq : s'.hash = s.hash
  sole : (∀ k' ∈ others, s.hash ∉ k'.stages.rootSources.map Source.hash) →
    s' = s ∧ ∀ k' ∈ others, k.rename e.1 ∉ k'.stages.roots.map k'.rename

/-- The copies that building several charts one after the other has come to. -/
structure Assembled (st : Building) (copies : List Copy) (st' : Building) : Prop where
  sound : Sound st'
  grows : Grows st st'
  under_eq : ∀ σ j, st'.flow.stages.under j =
    st.flow.stages.under j ++ join (copies.map fun k => k.under σ j)
  injective : ∀ k ∈ copies, k.rename.Injective
  heads : ∀ before k after, copies = before ++ k :: after → ∀ e ∈ k.stages.heads,
    ∃ s s', e.2 = .source s ∧ (k.rename e.1, .source s') ∈ st'.flow.stages.heads ∧
      s'.hash = s.hash ∧ (s.hash ∉ st.sources.map Prod.fst →
        (∀ k' ∈ before, s.hash ∉ k'.stages.rootSources.map Source.hash) → s' = s)
  sources_or : ∀ hash ∈ st'.sources.map Prod.fst, hash ∈ st.sources.map Prod.fst ∨
    ∃ k ∈ copies, hash ∈ k.stages.rootSources.map Source.hash

/-- Charts that can each be built alone are built one after the other as copies. -/
theorem buildAll_assembled {charts : List Chart} (hst : Sound st)
    (halone : ∀ c ∈ charts, ∃ own, build c none {} = (.ok (), own)) :
    ∃ st' copies, buildAll charts none st = (.ok (), st') ∧ Assembled st copies st' ∧
      List.Forall₂ (fun c k => ∃ own, build c none {} = (.ok (), own) ∧
        k.stages = own.flow.stages) charts copies := by
  induction charts generalizing st with
  | nil =>
    refine ⟨st, [], rfl, ⟨hst, Grows.refl st, ?_, ?_, ?_, ?_⟩, .nil⟩
    · simp
    · exact fun k hk => absurd hk (by simp)
    · exact fun before k after h => absurd h (by simp)
    · exact fun hash h => .inl h
  | cons chart rest ih =>
    obtain ⟨own, hown⟩ := halone chart List.mem_cons_self
    obtain ⟨ρ, st₁, hrun, hc, hgrows⟩ := build_copied hst hown
    obtain ⟨st', copies, hrest, hall, hforall⟩ :=
      ih hc.all_sound fun c hmem => halone c (List.mem_cons_of_mem _ hmem)
    have hsources (hash) (h : hash ∈ st₁.sources.map Prod.fst) : hash ∈ st.sources.map Prod.fst ∨
        hash ∈ own.flow.stages.rootSources.map Source.hash :=
      (hc.sources_or hash h).imp_right hc.own_sound.hash_of_noted
    refine ⟨st', ⟨ρ, own.flow.stages⟩ :: copies, ?_, ⟨hall.sound, hgrows.trans hall.grows, ?_, ?_,
      ?_, ?_⟩, .cons ⟨own, hown, rfl⟩ hforall⟩
    · exact (Run.bind_ok hrun).trans hrest
    · intro σ j
      rw [hall.under_eq σ, hc.under_eq σ, append_assoc]
      rfl
    · exact List.forall_mem_cons.2 ⟨hc.injective, hall.injective⟩
    -- the root of the first chart, or of one after it, whose source may be that of the first
    · intro before k after heq e he
      cases before with
      | nil =>
        obtain ⟨rfl, rfl⟩ := List.cons.inj heq
        obtain ⟨s, s', hcontent, hmem, hhash, hsame⟩ := hc.heads e he
        exact ⟨s, s', hcontent, hall.grows.heads hmem, hhash, fun hbase _ => hsame hbase⟩
      | cons k₀ before =>
        obtain ⟨rfl, rfl⟩ := List.cons.inj heq
        obtain ⟨s, s', hcontent, hmem, hhash, hsame⟩ := hall.heads before k after rfl e he
        refine ⟨s, s', hcontent, hmem, hhash, fun hbase hbefore => hsame (fun h => ?_)
          fun k' hk' => hbefore k' (List.mem_cons_of_mem _ hk')⟩
        exact (hsources _ h).elim hbase (hbefore _ List.mem_cons_self)
    · intro hash h
      rcases hall.sources_or hash h with h | ⟨k, hk, hmem⟩
      · exact (hsources hash h).imp_right fun hmem => ⟨_, List.mem_cons_self, hmem⟩
      · exact .inr ⟨k, List.mem_cons_of_mem _ hk, hmem⟩

/-- Roots of different sources are different in the whole flow, and those of one source the same. -/
theorem Assembled.rootIn {copies before after : List Copy} {k : Copy} (h : Assembled {} copies st)
    (heq : copies = before ++ k :: after) {e : Nat × Stage} (he : e ∈ k.stages.heads) :
    ∃ s s', RootIn st (before ++ after) k e s s' := by
  obtain ⟨s, s', hcontent, hmem, hhash, hsame⟩ := h.heads before k after heq e he
  refine ⟨s, s', hcontent, hmem, hhash, fun hsole => ⟨hsame (by simp) fun k' hk' =>
    hsole k' (List.mem_append_left _ hk'), fun k' hk' hroot => ?_⟩⟩
  rw [← map_fst_heads, List.map_map] at hroot
  obtain ⟨e', he', hid⟩ := List.mem_map.1 hroot
  -- the root of the other copy is the same one, so its source has the same hash
  have hk : k' ∈ copies := by
    rw [heq]
    rcases List.mem_append.1 hk' with hk' | hk'
    · exact List.mem_append_left _ hk'
    · exact List.mem_append_right _ (List.mem_cons_of_mem _ hk')
  obtain ⟨before', after', heq'⟩ := List.append_of_mem hk
  obtain ⟨s₁, s₁', hcontent', hmem', hhash', -⟩ := h.heads before' k' after' heq' e' he'
  have hplace := place_inj h.sound.nodup (mem_heads_iff.1 hmem') (mem_heads_iff.1 hmem) hid
  obtain rfl : s₁' = s' := Stage.source.inj (Place.mk.inj hplace).2.2
  refine hsole k' hk' (mem_hashes.2 ⟨e'.1, s₁, ?_, hhash'.symm.trans hhash⟩)
  rw [← hcontent']
  exact he'

/-- A flow that is made of a chart has been built from nothing. -/
theorem build_of_ofChart (h : ofChart chart = .ok st) : build chart none {} = (.ok (), st) := by
  rw [ofChart] at h
  split at h
  · next hrun =>
    obtain rfl := Except.ok.inj h
    exact hrun
  · exact absurd h (by simp)

/-- What is built of a chart from nothing is its flow. -/
theorem ofChart_of_build (h : build chart none {} = (.ok (), st)) : ofChart chart = .ok st := by
  have hrun : (build chart none).run.run {} = (.ok (), st) := h
  rw [ofChart, hrun]

/-- A layer without data can be built if the charts in it can, and its flow holds copies of
    theirs. -/
theorem ofChart_layer {header : ChartHeader} {children : List Chart} (hd : header.data = none)
    (halone : ∀ c ∈ children, ∃ own, ofChart c = .ok own) :
    ∃ built copies, ofChart (.layer header children) = .ok built ∧
      Hosts built.flow.stages copies ∧
      List.Forall₂ (fun c k => ∃ own, ofChart c = .ok own ∧ k.stages = own.flow.stages)
        children copies ∧
      ∀ before k after, copies = before ++ k :: after → ∀ e ∈ k.stages.heads,
        ∃ s s', RootIn built (before ++ after) k e s s' := by
  obtain ⟨st', copies, hrun, hall, hforall⟩ := buildAll_assembled sound_empty fun c hc => by
    obtain ⟨own, hown⟩ := halone c hc
    exact ⟨own, build_of_ofChart hown⟩
  -- a layer without data adds nothing of its own
  have hadd : addChart (.layer header children) none {} =
      (.ok ({ chart := header.name } : Component), {}) := by
    simp only [addChart, Chart.header, hd]
    rfl
  have hbuild : build (.layer header children) none {} =
      (.ok (), { st' with components := st'.components ++ [{ chart := header.name }] }) := by
    rw [build]
    exact (Run.bind_ok hadd).trans (Run.bind_ok hrun)
  have hlayer := ofChart_of_build hbuild
  -- each child is copied as it is when it is built alone
  have hcopies : List.Forall₂ (fun c k => ∃ own, ofChart c = .ok own ∧
      k.stages = own.flow.stages) children copies := by
    refine hforall.imp fun c k h => ?_
    obtain ⟨own, hown, hk⟩ := h
    exact ⟨own, ofChart_of_build hown, hk⟩
  refine ⟨_, copies, hlayer, ⟨ofChart_lawful hlayer, ?_, hall.injective, ?_⟩, hcopies, ?_⟩
  · intro σ j
    rw [show Forest.under j _ = st'.flow.stages.under j from rfl, hall.under_eq σ]
    rfl
  · intro k hk
    obtain ⟨c, -, own, hown, heq⟩ := exists_mem_of_forall₂ hcopies.flip hk
    exact heq ▸ ofChart_lawful hown
  · intro before k after heq e he
    obtain ⟨s, s', hroot⟩ := hall.rootIn heq he
    exact ⟨s, s', hroot.content, hroot.mem, hroot.hash_eq, hroot.sole⟩

end ChartPipeline.Building
