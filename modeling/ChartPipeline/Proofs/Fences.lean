import ChartPipeline.Proofs.Ordering

/-!
# What forks keep apart

A stage moves past another one only if it is its only child.  So what stands in a row, with no fork
between, may be exchanged, and a fork is a fence.  A facet with dimensions stands beside the headers
of these, below a fork: what a chart inside it declares never passes the stages that clean and
derive for the facet.

## Key results

- `Forest.Rewrites.fenced`: what holds of all stages in a row holds after a move
- `Building.fenced`: in the flow of a chart, no transform is in a row below a stage that cleans or
  derives
- `Building.fenced_once`: nor is another stage of its kind in a row with one that cleans, derives or
  groups
-/

namespace ChartPipeline

namespace Forest

variable {R : Stage → Stage → Prop} {pass : Pass} {policy : FacetPolicy}
  {f f' g t t' : Forest Stage} {seen seen' : List Stage} {up : List (Frame Stage)}

/-- Whether `R` holds of every two stages in a row, the first above the second.  In a row with the
    roots are the stages `seen` above the forest. -/
def Fenced (R : Stage → Stage → Prop) : Forest Stage → List Stage → Prop
  | nil, _ => True
  | node _ a cs rest, seen =>
    (∀ b ∈ seen, R b a) ∧ cs.Fenced R (if cs.roots.length ≤ 1 then seen ++ [a] else []) ∧
      rest.Fenced R seen

/-- Trees are fenced one by one. -/
theorem fenced_append : (f ++ g).Fenced R seen ↔ f.Fenced R seen ∧ g.Fenced R seen := by
  induction f with
  | nil => simp [Fenced]
  | node i a cs rest _ ih => simp only [node_append, Fenced, ih, and_assoc]

/-- What is below a closed frame is in a row with it, unless there is a fork. -/
theorem fenced_close {fr : Frame Stage} : (fr.close t).Fenced R seen ↔
    fr.before.Fenced R seen ∧ (∀ b ∈ seen, R b fr.content) ∧
      t.Fenced R (if t.roots.length ≤ 1 then seen ++ [fr.content] else []) ∧
      fr.after.Fenced R seen := by
  rw [Frame.close, fenced_append, Fenced]

/-- Above a forest, stages may stand below which less is allowed. -/
theorem Fenced.replace (h : f.Fenced R seen)
    (hseen : ∀ x, (∀ y ∈ seen, R y x) → ∀ y ∈ seen', R y x) : f.Fenced R seen' := by
  induction f generalizing seen seen' with
  | nil => trivial
  | node i a cs rest ihc ihr =>
    obtain ⟨ha, hc, hr⟩ := h
    refine ⟨hseen a ha, ?_, ihr hr hseen⟩
    by_cases hone : cs.roots.length ≤ 1
    · rw [if_pos hone] at hc ⊢
      refine ihc hc fun x hx y hy => ?_
      rcases List.mem_append.1 hy with hy | hy
      · exact hseen x (fun z hz => hx z (List.mem_append_left _ hz)) y hy
      · exact hx y (List.mem_append_right _ hy)
    · rw [if_neg hone] at hc ⊢
      exact hc

/-- Trees in a place of the forest may be replaced by as many others. -/
theorem fenced_fill (up : List (Frame Stage)) (hlen : t'.roots.length = t.roots.length)
    (ht : ∀ seen, t.Fenced R seen → t'.Fenced R seen) (h : (fill up t).Fenced R seen) :
    (fill up t').Fenced R seen := by
  induction up generalizing t t' with
  | nil => exact ht seen h
  | cons fr up ih =>
    refine ih (by simp) (fun seen hs => ?_) h
    rw [fenced_close] at hs ⊢
    rw [hlen]
    exact ⟨hs.1, hs.2.1, ht _ hs.2.2.1, hs.2.2.2⟩

/-- Trees in a place of the forest are fenced below the stages in a row with it. -/
theorem Fenced.of_fill (up : List (Frame Stage)) (h : (fill up t).Fenced R seen) :
    ∃ seen', t.Fenced R seen' := by
  induction up generalizing t with
  | nil => exact ⟨seen, h⟩
  | cons fr up ih =>
    obtain ⟨seen', h⟩ := ih h
    exact ⟨_, (fenced_close.1 h).2.2.1⟩

/-- What holds of a row with one relation holds with a weaker one. -/
theorem Fenced.imp {R' : Stage → Stage → Prop} (hR : ∀ a b, R a b → R' a b)
    (h : f.Fenced R seen) : f.Fenced R' seen := by
  induction f generalizing seen with
  | nil => trivial
  | node i a cs rest ihc ihr => exact ⟨fun b hb => hR b a (h.1 b hb), ihc h.2.1, ihr h.2.2⟩

/-- A stage and its only child are in a row. -/
theorem Fenced.adjoins (h : f.Fenced R seen) : f.Adjoins R := by
  rintro fr up i b gc rfl
  obtain ⟨seen', h⟩ := Fenced.of_fill up h
  have hchild := (fenced_close.1 h).2.2.1.1
  rw [if_pos (by simp [roots])] at hchild
  exact hchild _ (by simp)

/-- What holds of all stages in a row holds after a move, if it is stable. -/
theorem Rewrites.fenced (h : Rewrites pass policy f f') (hp : pass ≠ .parse)
    (hR : Stable R pass policy) (hn : f.Narrow) (hf : f.Fenced R seen) : f'.Fenced R seen := by
  have hrow := hf.adjoins
  cases h with
  | @join fr b c h up i gc =>
    obtain ⟨-, -, hi, -⟩ := narrow_close.1 (Narrow.of_fill up hn)
    have hgc := hi.1.resolve_right (by simp [Pass.not_mayFork h.handled])
    have hone : (node i b gc nil).roots.length ≤ 1 := by simp [roots]
    have hab := hrow fr up i b gc rfl
    refine fenced_fill up (by simp) (fun seen hs => ?_) hf
    obtain ⟨hbefore, ha, ⟨hb, hcs, -⟩, hafter⟩ := fenced_close.1 hs
    rw [if_pos hone] at hb hcs
    rw [if_pos hgc] at hcs
    refine fenced_close.2 ⟨hbefore, fun z hz => ?_, ?_, hafter⟩
    · exact (hR.join h hab z).1 (ha z hz) (hb z (by simp [hz]))
    · rw [if_pos hgc]
      -- below a joined stage, it stands for both of its parts
      refine hcs.replace fun x hx y hy => ?_
      rcases List.mem_append.1 hy with hy | hy
      · exact hx y (by simp [hy])
      · obtain rfl := List.mem_singleton.1 hy
        exact (hR.join h hab x).2 (hx _ (by simp)) (hx _ (by simp))
  | @rise fr b dims h up i gc =>
    obtain ⟨-, -, hi, -⟩ := narrow_close.1 (Narrow.of_fill up hn)
    have hgc := hi.1.resolve_right (by simp [Pass.not_mayFork h.handled])
    have hone : (node i b gc nil).roots.length ≤ 1 := by simp [roots]
    have hab := hrow fr up i b gc rfl
    refine fenced_fill up (by simp) (fun seen hs => ?_) hf
    obtain ⟨hbefore, ha, ⟨hb, hcs, -⟩, hafter⟩ := fenced_close.1 hs
    rw [if_pos hone] at hb hcs
    rw [if_pos hgc] at hcs
    refine fenced_close.2 ⟨hbefore, fun z hz => ?_, ?_, hafter⟩
    · exact (hR.dims b dims z).1 (hb z (by simp [hz]))
    · rw [if_pos (by simp [roots])]
      refine ⟨fun z hz => ?_, ?_, trivial⟩
      · rcases List.mem_append.1 hz with hz | hz
        · exact ha z hz
        · obtain rfl := List.mem_singleton.1 hz
          exact hR.rise h hab
      · rw [if_pos hgc]
        -- the same two stages stand above, only in the other order
        refine hcs.replace fun x hx y hy => ?_
        simp only [List.mem_append, List.mem_singleton] at hy
        rcases hy with (hy | rfl) | rfl
        · exact hx y (by simp [hy])
        · exact (hR.dims b dims x).2 (hx b (by simp))
        · exact hx _ (by simp)
  | drop h => exact absurd h hp
  | put h => exact absurd h hp
  | widen h => exact absurd h hp

end Forest

/-! ### What a chart puts in a row -/

namespace Stage

/-- Whether a stage cleans or derives, as the last ones before a raw output do. -/
def prepares (a : Stage) : Bool :=
  a.tag = .nullFilter || a.tag = .bin || a.tag = .timeUnit

/-- What may stand in a row below a stage of a chart: below one that cleans or derives nothing that
    comes before it in a chart, and nothing of its kind. -/
def Sequel (a b : Stage) : Prop := a.prepares = true → a.rank ≤ b.rank ∧ b.tag ≠ a.tag

/-- Whether a stage is a facet with dimensions. -/
def partitions : Stage → Bool
  | facet p => !p.groupby.isEmpty
  | _ => false

/-- Null filters, bins and time units prepare rows. -/
theorem prepares_iff {a : Stage} :
    a.prepares = true ↔ a.tag = .nullFilter ∨ a.tag = .bin ∨ a.tag = .timeUnit := by
  simp [prepares, or_assoc]

/-- A facet with dimensions groups by at least one field. -/
theorem exists_of_partitions {a : Stage} (h : a.partitions = true) :
    ∃ p, a = .facet p ∧ p.groupby ≠ [] := by
  cases a with
  | facet p => exact ⟨p, rfl, by simpa [partitions] using h⟩
  | _ => exact absurd h (by simp [partitions])

/-- Outlets may stand below everything. -/
theorem Sequel.of_isOutlet {b : Stage} (hb : b.isOutlet = true) (a : Stage) : a.Sequel b := by
  intro ha
  rw [prepares_iff] at ha
  cases b <;> simp only [isOutlet, tag, reduceCtorEq, decide_false, Bool.or_self, Bool.false_eq_true]
    at hb <;> cases a <;> simp_all [tag, rank]

end Stage

namespace Chart

/-- The stages of a way after which no facet with dimensions comes. -/
def Recent (w : List Stage) (a : Stage) : Prop :=
  ∃ l r, w = l ++ a :: r ∧ ∀ x ∈ r, x.partitions = false

/-- A way on which every stage may stand below the recent ones. -/
def Spaced (w : List Stage) : Prop :=
  ∀ l b r, w = l ++ b :: r → ∀ a, Recent l a → a.Sequel b

/-- A way with nothing recent that cleans or derives. -/
def Clear (w : List Stage) : Prop := ∀ a, Recent w a → a.prepares = false

variable {w w' : List Stage} {a b : Stage}

/-- What is recent on a way is on it. -/
theorem Recent.mem (h : Recent w a) : a ∈ w := by
  obtain ⟨l, r, rfl, -⟩ := h
  simp

/-- On a longer way, what was added is recent, and what was recent before unless a facet was
    added. -/
theorem recent_append : Recent (w ++ w') a ↔
    Recent w' a ∨ Recent w a ∧ ∀ x ∈ w', x.partitions = false := by
  constructor
  · rintro ⟨l, r, heq, hr⟩
    -- the stage is in one of the two parts
    rcases List.append_eq_append_iff.1 heq with ⟨m, rfl, rfl⟩ | ⟨m, rfl, hm⟩
    · exact .inl ⟨m, r, rfl, hr⟩
    · cases m with
      | nil => exact .inl ⟨[], r, by simpa using hm.symm, hr⟩
      | cons x m =>
        obtain ⟨rfl, rfl⟩ := List.cons.inj hm
        exact .inr ⟨⟨l, m, rfl, fun x hx => hr x (by simp [hx])⟩, fun x hx => hr x (by simp [hx])⟩
  · rintro (⟨l, r, rfl, hr⟩ | ⟨⟨l, r, rfl, hr⟩, hw⟩)
    · exact ⟨w ++ l, r, by simp, hr⟩
    · refine ⟨l, r ++ w', by simp, fun x hx => ?_⟩
      rcases List.mem_append.1 hx with hx | hx
      · exact hr x hx
      · exact hw x hx

/-- A beginning of a way is spaced if the way is. -/
theorem Spaced.beginning (h : Spaced w') (hw : w <+: w') : Spaced w := by
  obtain ⟨r', rfl⟩ := hw
  rintro l b r rfl
  exact h l b (r ++ r') (by simp)

/-- A way may go on with stages in their order where nothing recent cleans or derives. -/
theorem Spaced.append (h : Spaced w) (hclear : Clear w) (hw' : w'.Pairwise Stage.Sequel) :
    Spaced (w ++ w') := by
  intro l b r heq a ha
  rcases List.append_eq_append_iff.1 heq with ⟨m, rfl, rfl⟩ | ⟨m, rfl, hm⟩
  · rcases recent_append.1 ha with ha | ⟨ha, -⟩
    · exact (List.pairwise_append.1 hw').2.2 a ha.mem b (by simp)
    · intro hprep
      exact absurd hprep (by simp [hclear a ha])
  · cases m with
    | nil =>
      rw [List.append_nil] at hclear
      intro hprep
      exact absurd hprep (by simp [hclear a ha])
    | cons x m =>
      obtain ⟨rfl, -⟩ := List.cons.inj hm
      exact h l b m rfl a ha

/-- A way may go on with any stage that may stand below all others. -/
theorem Spaced.concat (h : Spaced w) (hb : ∀ a : Stage, a.Sequel b) : Spaced (w ++ [b]) := by
  intro l b' r heq a ha
  rcases List.append_eq_append_iff.1 heq with ⟨m, rfl, hm⟩ | ⟨m, rfl, hm⟩
  · cases m with
    | nil =>
      obtain ⟨rfl, -⟩ := List.cons.inj hm
      exact hb a
    | cons x m => exact absurd hm (by simp)
  · cases m with
    | nil =>
      obtain ⟨rfl, -⟩ := List.cons.inj hm
      exact hb a
    | cons x m =>
      obtain ⟨rfl, -⟩ := List.cons.inj hm
      exact h l b' m rfl a ha

/-- A way begins with its source. -/
theorem spaced_source (s : Source) : Spaced [.source s] ∧ Clear [.source s] := by
  have hrecent {a : Stage} (h : Recent [.source s] a) : a = .source s := by simpa using h.mem
  refine ⟨fun l b r heq a ha => ?_, fun a ha => ?_⟩
  · cases l with
    | nil => exact absurd ha.mem (by simp)
    | cons x l => exact absurd (List.cons.inj heq).2 (by simp)
  · rw [hrecent ha]
    rfl

/-! ### The ways of charts -/

variable {chart : Chart} {outer : Option (List Stage)} {begin stages before after way : List Stage}

/-- The stages of a chart come in their order. -/
theorem pairwise_sequel (hb : chart.stagesBeforeRaw = .ok before)
    (ha : chart.stagesAfterRaw = .ok after) :
    (before ++ chart.rawOutput :: (after ++ [chart.mainOutput])).Pairwise Stage.Sequel := by
  -- any source will do: it is left out again
  have hranks := pairwise_rank_stages default hb ha
  have honce {t : Tag} (ht : t = .parse ∨ t = .nullFilter ∨ t = .bin ∨ t = .timeUnit) :=
    length_filter_tag_le_one default hb ha ht
  generalize before ++ chart.rawOutput :: (after ++ [chart.mainOutput]) = l at hranks honce
  replace hranks := (List.pairwise_cons.1 hranks).2
  replace honce {t : Tag} (ht : t = .nullFilter ∨ t = .bin ∨ t = .timeUnit) :
      (l.filter (·.tag = t)).length ≤ 1 := by
    refine Nat.le_trans (List.Sublist.length_le ?_) (honce (.inr ht))
    exact (List.sublist_cons_self _ l).filter _
  induction l with
  | nil => exact .nil
  | cons a l ih =>
    obtain ⟨har, hranks⟩ := List.pairwise_cons.1 hranks
    refine List.pairwise_cons.2 ⟨fun b hmem hprep => ⟨har b hmem, fun htag => ?_⟩, ih hranks ?_⟩
    · have hle := honce (Stage.prepares_iff.1 hprep)
      have hmem' : b ∈ l.filter (·.tag = a.tag) := List.mem_filter.2 ⟨hmem, by simpa using htag⟩
      have := List.length_pos_of_mem hmem'
      simp only [List.filter_cons, decide_true, if_true, List.length_cons] at hle
      omega
    · intro t ht
      refine Nat.le_trans (List.Sublist.length_le ?_) (honce ht)
      exact (List.sublist_cons_self a l).filter _

/-- The stages of a chart go on with a way on which nothing recent cleans or derives. -/
theorem Chain.spaced (h : Chain outer chart begin stages) (hs : Spaced begin) (hc : Clear begin) :
    Spaced (begin ++ stages) := by
  obtain ⟨-, hbefore, hafter⟩ := h
  exact hs.append hc (pairwise_sequel hbefore hafter)

/-- A fold that nothing changes leaves its start. -/
private theorem foldl_of_const {α σ : Type} {f : σ → α → σ} {l : List α}
    (h : ∀ a ∈ l, ∀ x, f x a = x) (x : σ) : l.foldl f x = x := by
  induction l generalizing x with
  | nil => rfl
  | cons a l ih =>
    rw [List.foldl_cons, h a (by simp), ih fun b hb => h b (List.mem_cons_of_mem a hb)]

/-- A chart whose definitions read no fields neither cleans nor derives. -/
theorem not_prepares_of_no_fields (h : ∀ d ∈ chart.fieldDefs, d.2.field = none)
    (hb : chart.stagesBeforeRaw = .ok before) : ∀ a ∈ before, a.prepares = false := by
  -- each of the three kinds is made for fields only
  have hclean : nullFilter? chart = none := by
    rw [nullFilter?, foldl_of_const fun d hd x => ?_]
    · rfl
    · obtain ⟨c, f⟩ := d
      simp [show f.field = none from h _ hd]
  have hunits : TimeFormulas.ofChart? chart = none := by
    rw [TimeFormulas.ofChart?, foldl_of_const fun d hd x => ?_]
    · rfl
    · obtain ⟨c, f⟩ := d
      simp [show f.field = none from h _ hd]
  have hbins : Binning.ofChart? chart = .ok none := by
    have hfold (ds : List (Channel × FieldDef)) (hds : ∀ d ∈ ds, d.2.field = none)
        (bins : Binning) :
        ds.foldlM (fun bins d => Binning.addChannel chart bins d.2) bins = .ok bins := by
      induction ds with
      | nil => rfl
      | cons d ds ih =>
        have hd : Binning.addChannel chart bins d.2 = .ok bins := by
          rw [Binning.addChannel, hds d (by simp)]
          cases d.2.binParams? <;> rfl
        rw [List.foldlM_cons, hd]
        exact ih fun d' hd' => hds d' (List.mem_cons_of_mem d hd')
    rw [Binning.ofChart?, hfold _ h]
    rfl
  obtain ⟨bins, hbins', rfl⟩ := stagesBeforeRaw_ok hb
  obtain rfl := Except.ok.inj (hbins.symm.trans hbins')
  intro a ha
  simp only [hclean, hunits, Option.toList_none, List.map_nil, List.append_nil, List.mem_append,
    List.mem_map, Option.mem_toList, transformStages] at ha
  rcases ha with ⟨_, _, rfl⟩ | ⟨t, _, rfl⟩
  · rfl
  · cases t <;> rfl

/-- A facet that no dimension gives a field to reads no fields. -/
theorem field_eq_none_of_groupby {p : Partition} (hp : Partition.ofChart? chart = some p)
    (hnone : p.groupby = []) : ∀ d ∈ chart.fieldDefs, d.2.field = none := by
  -- only a field, and what is derived from it, has a name to group by
  have houtput {f : FieldDef} (h : f.outputName? = none) : f.field = none := by
    rw [FieldDef.outputName?] at h
    split at h
    · exact absurd h (by simp)
    · cases hf : f.field with
      | none => rfl
      | some field =>
        rw [hf, Option.bind_some] at h
        revert h
        cases f.aggregate with
        | some op => simp
        | none =>
          cases hparams : f.binParams? with
          | some params => simp [FieldDef.binOutput?, FieldDef.binKey?, hparams, hf]
          | none => cases f.timeUnit <;> simp
  cases chart with
  | unit => exact absurd hp (by simp [Partition.ofChart?])
  | layer => exact fun d hd => absurd hd (by simp [fieldDefs])
  | facet header mapping child =>
    obtain rfl := Option.some.inj hp
    have hfields : ∀ dimension ∈ [Channel.column, .row],
        (mapping.channel? dimension).bind FieldDef.outputName? = none := by
      simpa [List.filterMap_eq_nil_iff, facetField?] using hnone
    intro d hd
    simp only [fieldDefs, FacetMapping.fieldDefs, List.mem_append, List.mem_map,
      Option.mem_toList] at hd
    rcases hd with ⟨f, hf, rfl⟩ | ⟨f, hf, rfl⟩
    · have := hfields .column (by simp)
      rw [FacetMapping.channel?, hf] at this
      exact houtput this
    · have := hfields .row (by simp)
      rw [FacetMapping.channel?, hf] at this
      exact houtput this

/-- What the charts inside go on from has nothing recent that cleans or derives. -/
theorem Chain.clear (h : Chain outer chart begin stages) (hu : chart.isUnit = false)
    (hc : Clear begin) : Clear (chart.inside (begin ++ stages)) := by
  obtain @⟨before, after, -, hbefore, hafter⟩ := h
  obtain rfl := (stagesAfterRaw_grouping hafter).2.2 hu
  -- a chart that reads no fields puts nothing on the way that would have to be fenced off
  have hplain (hno : ∀ d ∈ chart.fieldDefs, d.2.field = none) : Clear (begin ++
      (before ++ chart.rawOutput :: ([] ++ [chart.mainOutput]))) := by
    intro a ha
    rcases recent_append.1 ha with ha | ⟨ha, -⟩
    · have hmem := ha.mem
      simp only [List.mem_append, List.mem_cons, List.not_mem_nil, or_false, false_or] at hmem
      rcases hmem with hmem | rfl | rfl
      · exact not_prepares_of_no_fields hno hbefore a hmem
      · rfl
      · rfl
    · exact hc a ha
  cases hp : Partition.ofChart? chart with
  | none =>
    rw [inside, hp]
    refine (List.append_nil _).symm ▸ hplain fun d hd => ?_
    cases chart with
    | unit => exact absurd hu (by simp [isUnit])
    | layer => exact absurd hd (by simp [fieldDefs])
    | facet => exact absurd hp (by simp [Partition.ofChart?])
  | some p =>
    intro a ha
    rw [inside, hp] at ha
    rcases recent_append.1 ha with ha | ⟨ha, hdims⟩
    · have hmem : a = .facet p := by simpa using ha.mem
      rw [hmem]
      rfl
    · have hnone : p.groupby = [] := by simpa [Stage.partitions] using hdims
      exact hplain (field_eq_none_of_groupby hp hnone) a ha

/-- On a way that a chart declares, every stage may stand below the recent ones. -/
theorem Declares.spaced (h : Declares outer chart way)
    (ho : ∀ w ∈ outer, Spaced w ∧ Clear w) : Spaced way := by
  -- a chart begins with its own source or goes on from what is around it
  have begins {outer chart begin stages} (h : Chain outer chart begin stages)
      (ho : ∀ w ∈ outer, Spaced w ∧ Clear w) : Spaced begin ∧ Clear begin := by
    cases h.starts with
    | own hd hs => exact spaced_source _
    | outer hd hi => exact ho _ hi
  induction h with
  | chain h hw =>
    obtain ⟨hs, hc⟩ := begins h ho
    exact (h.spaced hs hc).beginning ((List.prefix_append_right_inj _).2 hw)
  | @header outer chart begin stages dimension stage h hh =>
    obtain ⟨hs, hc⟩ := begins h ho
    refine (h.spaced hs hc).concat (.of_isOutlet ?_)
    unfold headerStage at hh
    split at hh
    · obtain rfl := Except.ok.inj hh
      rfl
    · exact absurd hh (by simp)
  | facet h hp =>
    obtain ⟨hs, hc⟩ := begins h ho
    exact (h.spaced hs hc).concat (.of_isOutlet rfl)
  | @inside outer chart begin stages child way h hm hd ih =>
    obtain ⟨hs, hc⟩ := begins h ho
    refine ih fun w hw => ?_
    obtain rfl := Option.some.inj hw
    refine ⟨?_, h.clear (by cases chart <;> simp_all [isUnit, children]) hc⟩
    rw [Chart.inside]
    cases Partition.ofChart? chart with
    | none => simpa using h.spaced hs hc
    | some p => exact (h.spaced hs hc).concat (.of_isOutlet rfl)
  | loose hn hm hd ih => exact ih fun w hw => absurd hw (by simp)

end Chart

/-! ### The flow of a chart -/

namespace Forest

variable {f t : Forest Stage}

/-- What stands directly below a way is a root of what the way ends at. -/
theorem mem_roots_of_above (hn : f.walk.Nodup) {fr : Frame Stage} {up : List (Frame Stage)}
    (hf : f = fill (fr :: up) t) {u : Place Stage} (hu : u ∈ f.places [])
    (habove : u.above = trail (fr :: up)) : u.id ∈ t.roots := by
  obtain ⟨before, after, up', cs, hfill, hup'⟩ := exists_fill_of_place hn hu
  rw [habove, trail_cons] at hup'
  cases up' with
  | nil => exact absurd hup' (by simp)
  | cons fr' up' =>
    rw [trail_cons] at hup'
    have hid : fr'.id = fr.id := congrArg Prod.fst (List.cons.inj (List.append_inj' hup' rfl).2).1
    have hsame : fill (fr :: up) t =
        fill (fr' :: up') ((Frame.mk before u.id u.content after).close cs) := hf.symm.trans hfill
    obtain ⟨rfl, rfl, rfl⟩ := fill_first_inj (hf ▸ hn) hid.symm hsame
    simp [Frame.close, roots]

end Forest

namespace Building

open Forest

/-- In the flow of a chart, a facet with dimensions is not alone below its parent. -/
theorem two_le_of_partitions {W : List Stage → Prop} {st : Building} (hst : Built W st)
    {fr : Frame Stage} {up : List (Frame Stage)} {g cs rest : Forest Stage} {i : Nat} {a : Stage}
    (hfill : st.flow.stages = fill (fr :: up) (g ++ node i a cs rest))
    (ha : a.partitions = true) : 2 ≤ (g ++ node i a cs rest).roots.length := by
  obtain ⟨p, rfl, hp⟩ := Stage.exists_of_partitions ha
  have hplace : ⟨trail (fr :: up), i, .facet p⟩ ∈ st.flow.stages.places [] := by
    rw [hfill]
    exact mem_places_fill ⟨g, i, .facet p, rest⟩ (fr :: up) cs
  -- the header of one of its dimensions stands beside it
  obtain ⟨u, hu, habove, hne⟩ := hst.headed _ hplace p rfl hp
  have hmem := mem_roots_of_above hst.nodup hfill hu habove
  rw [roots_append, List.length_append]
  rw [roots_append, List.mem_append] at hmem
  simp only [roots, List.mem_cons, List.length_cons] at hmem ⊢
  rcases hmem with hmem | hmem | hmem
  · have := List.length_pos_of_mem hmem
    omega
  · exact absurd hmem hne
  · have := List.length_pos_of_mem hmem
    omega

/-- In the flow of a chart, stages in a row are related as those are of which the second may stand
    below the first. -/
theorem fenced {chart : Chart} {built : Building} {R : Stage → Stage → Prop}
    (h : ofChart chart = .ok built)
    (hR : ∀ v ∈ built.flow.stages.places [], ∀ l e m, v.above = l ++ e :: m →
      e.2.Sequel v.content → R e.2 v.content) : built.flow.stages.Fenced R [] := by
  have hbuilt := ofChart_built h
  have hspaced {v : Place Stage} (hv : v ∈ built.flow.stages.places []) :
      Chart.Spaced (v.route.map Prod.snd) :=
    (hbuilt.declared v hv).spaced fun w hw => absurd hw (by simp)
  -- `s` are the stages in a row above, of which only the first may be a facet with dimensions
  suffices ∀ (t g : Forest Stage) (up : List (Frame Stage)) (pre s : List (Nat × Stage)),
      built.flow.stages = fill up (g ++ t) → trail up = pre ++ s → (∀ x ∈ s.tail, x.2.partitions = false) →
      (2 ≤ (g ++ t).roots.length → s = []) → t.Fenced R (s.map Prod.snd) from
    this _ nil [] [] [] rfl rfl (by simp) fun _ => rfl
  intro t
  induction t with
  | nil => exact fun _ _ _ _ _ _ _ _ => trivial
  | node i a cs rest ihc ihr =>
    intro g up pre s hfill htrail htail hfork
    have hplace : ⟨trail up, i, a⟩ ∈ built.flow.stages.places [] := by
      rw [hfill]
      exact mem_places_fill ⟨g, i, a, rest⟩ up cs
    refine ⟨fun b hb => ?_, ?_, ?_⟩
    · -- nothing between a stage in the row and the new one is a facet with dimensions
      obtain ⟨e, he, rfl⟩ := List.mem_map.1 hb
      obtain ⟨s₁, s₂, rfl⟩ := List.append_of_mem he
      have habove : trail up = (pre ++ s₁) ++ e :: s₂ := by rw [htrail, List.append_assoc]
      refine hR _ hplace _ e s₂ habove (hspaced hplace ((trail up).map Prod.snd) a [] ?_ e.2 ?_)
      · simp [Place.route]
      · refine ⟨(pre ++ s₁).map Prod.snd, s₂.map Prod.snd, ?_, fun x hx => ?_⟩
        · rw [habove, List.map_append, List.map_cons]
        · obtain ⟨y, hy, rfl⟩ := List.mem_map.1 hx
          refine htail y ?_
          cases s₁ <;> simp [hy]
    · have hdown : built.flow.stages = fill (⟨g, i, a, rest⟩ :: up) (nil ++ cs) := hfill
      by_cases hone : cs.roots.length ≤ 1
      · rw [if_pos hone]
        have hrow := ihc nil _ pre (s ++ [(i, a)]) hdown (by simp [htrail]) ?_ ?_
        · rwa [List.map_append] at hrow
        · -- a facet with dimensions stands below a fork, so it begins a row
          cases s with
          | nil => simp
          | cons e s =>
            intro x hx
            rw [List.cons_append, List.tail_cons, List.mem_append, List.mem_singleton] at hx
            rcases hx with hx | rfl
            · exact htail x hx
            · by_contra hfacet
              rw [Bool.not_eq_false] at hfacet
              cases up with
              | nil => exact absurd htrail (by simp)
              | cons fr up =>
                exact absurd (hfork (two_le_of_partitions hbuilt hfill hfacet)) (by simp)
        · intro htwo
          rw [nil_append] at htwo
          omega
      · rw [if_neg hone]
        exact ihc nil _ (trail (⟨g, i, a, rest⟩ :: up)) [] hdown (by simp) (by simp) fun _ => rfl
    · refine ihr (g ++ node i a cs nil) up pre s ?_ htrail htail ?_
      · rw [append_assoc, node_append, nil_append]
        exact hfill
      · rw [append_assoc, node_append, nil_append]
        exact hfork

/-- In the flow of a chart, no kind of stage that cleans, derives or groups stands twice in a row. -/
theorem fenced_once {chart : Chart} {built : Building} (h : ofChart chart = .ok built) :
    built.flow.stages.Fenced
      (fun a b => a.prepares = true ∨ a.isGrouping = true → b.tag ≠ a.tag) [] := by
  refine fenced h fun v hv l e m habove hsequel hkind heq => ?_
  rcases hkind with hprep | hgroup
  · exact (hsequel hprep).2 heq
  · -- what groups stands once on every way
    have honce := ofChart_groupedOnce h hv
    rw [Place.route, habove] at honce
    have hv : v.content.isGrouping = true := by
      rw [Stage.isGrouping, heq]
      exact hgroup
    simp [Chart.GroupedOnce, List.nodup_append, hgroup, hv, heq] at honce

end Building

end ChartPipeline
