import ChartPipeline.Proofs.Derived
import ChartPipeline.Proofs.Fences

/-!
# Rows that agree

What hoisting changes in the rows are a few fields.  Rows agree apart from some fields if all others
have the same values, and a stage is blind to fields if it filters rows alike and calculates the
same for them where they agree apart from these.

Bins change what they derive when they pass a filter, since their extents are those of other rows.
Everything else may be exchanged if it is blind to what the other stage derives.

## Key results

- `Interpretation.agree_run`: a way of blind stages keeps rows in agreement
- `Interpretation.agree_rerouted`: a change of a way changes only what bins derive
-/

namespace ChartPipeline

variable {V E : Type}

/-- Rows that are the same apart from some fields. -/
def Row.Agree (X : String → Prop) (r r' : Row V) : Prop :=
  ∀ field, ¬ X field → r'.get? field = r.get? field

/-- Lists of rows that are the same apart from some fields. -/
def AgreeAll (X : String → Prop) : List (Row V) → List (Row V) → Prop := List.Forall₂ (Row.Agree X)

variable {X Y : String → Prop} {r r' s : Row V} {rows rows' rows'' : List (Row V)} {field : String}

namespace Row.Agree

/-- A row agrees with itself. -/
theorem refl (X : String → Prop) (r : Row V) : r.Agree X r := fun _ _ => rfl

/-- Agreement does not depend on which row comes first. -/
theorem symm (h : r.Agree X r') : r'.Agree X r := fun field hf => (h field hf).symm

/-- Rows agree with a third one apart from what either step sets apart. -/
theorem trans (h : r.Agree X r') (h' : r'.Agree Y s) : r.Agree (fun f => X f ∨ Y f) s :=
  fun field hf => (h' field fun hy => hf (.inr hy)).trans (h field fun hx => hf (.inl hx))

/-- Rows that agree apart from some fields agree apart from more. -/
theorem mono (h : r.Agree X r') (hXY : ∀ f, X f → Y f) : r.Agree Y r' :=
  fun field hf => h field fun hx => hf (hXY field hx)

/-- Rows in agreement stay so when the same value is set in both. -/
theorem insert (h : r.Agree X r') (field : String) (v : V) :
    Agree X (r.insert field v) (r'.insert field v) := by
  intro g hg
  rw [SortedMap.get?_insert, SortedMap.get?_insert, h g hg]

/-- Setting one of the fields. -/
theorem insert_right (hX : X field) (r : Row V) (v : V) : Agree X r (r.insert field v) := by
  intro g hg
  rw [SortedMap.get?_insert, if_neg]
  rintro rfl
  exact hg hX

end Row.Agree

namespace AgreeAll

/-- Rows agree with themselves. -/
theorem refl (X : String → Prop) (rows : List (Row V)) : AgreeAll X rows rows :=
  List.forall₂_same.2 fun r _ => .refl X r

/-- Agreement does not depend on which rows come first. -/
theorem symm (h : AgreeAll X rows rows') : AgreeAll X rows' rows :=
  h.flip.imp fun _ _ h => Row.Agree.symm h

/-- Rows that agree apart from some fields agree apart from more. -/
theorem mono (h : AgreeAll X rows rows') (hXY : ∀ f, X f → Y f) : AgreeAll Y rows rows' :=
  List.Forall₂.imp (fun _ _ h => Row.Agree.mono h hXY) h

/-- Agreement in two steps sets apart what either step does. -/
theorem or_trans (h : AgreeAll X rows rows') (h' : AgreeAll Y rows' rows'') :
    AgreeAll (fun f => X f ∨ Y f) rows rows'' := by
  -- row by row: as many rows stand on all three sides
  induction h generalizing rows'' with
  | nil =>
    obtain rfl := List.forall₂_nil_left_iff.1 h'
    exact .nil
  | cons hr _ ih =>
    obtain ⟨s, ss, hs, hrest, rfl⟩ := List.forall₂_cons_left_iff.1 h'
    exact .cons (hr.trans hs) (ih hrest)

/-- Where both steps set the same fields apart, so does the whole. -/
theorem trans (h : AgreeAll X rows rows') (h' : AgreeAll X rows' rows'') :
    AgreeAll X rows rows'' :=
  (h.or_trans h').mono fun _ h => h.elim id id

/-- Rows agree with what a map makes of them, if each one does. -/
theorem map {g : Row V → Row V} (h : ∀ r, Row.Agree X r (g r)) (rows : List (Row V)) :
    AgreeAll X rows (rows.map g) :=
  List.forall₂_map_right_iff.2 (List.forall₂_same.2 fun r _ => h r)

/-- A map that keeps single rows in agreement keeps all of them so. -/
theorem map_both {g : Row V → Row V} (hg : ∀ r r', Row.Agree X r r' → Row.Agree X (g r) (g r'))
    (h : AgreeAll X rows rows') : AgreeAll X (rows.map g) (rows'.map g) := by
  rw [AgreeAll, List.forall₂_map_left_iff, List.forall₂_map_right_iff]
  exact List.Forall₂.imp hg h

/-- A filter that tells no rows in agreement apart keeps the same ones. -/
theorem filter {q : Row V → Bool} (hq : ∀ r r', Row.Agree X r r' → q r' = q r)
    (h : AgreeAll X rows rows') : AgreeAll X (rows.filter q) (rows'.filter q) :=
  List.rel_filter (fun {r r'} hr => iff_of_eq (congrArg (· = true) (hq r r' hr).symm)) h

end AgreeAll

/-- The fields that a stage sets in every row. -/
def Stage.derived : Stage → List String
  | calculate _ field => [field]
  | bin bins => (bin bins).generated
  | timeUnit formulas => (timeUnit formulas).generated
  | _ => []

/-- Grouping by more fields sets no others. -/
theorem Stage.derived_addDimensions (dims : List String) (b : Stage) :
    (b.addDimensions dims).derived = b.derived := by
  cases b <;> rfl

/-- The kinds of the stages of an exchange in which nothing groups. -/
theorem Rises.tags {pass : Pass} {policy : FacetPolicy} {a b : Stage} {dims : List String}
    (h : Rises pass policy a b dims) (hp : pass ≠ .parse) (hg : b.groups = false) :
    ((b.tag = .filter ∨ b.tag = .nullFilter) ∨ b.tag = .calculate ∨ b.tag = .timeUnit ∨
      b.tag = .bin) ∧
    ((a.tag = .parse ∨ a.tag = .output ∨ a.tag = .facet) ∨ a.tag = .filter ∨ a.tag = .nullFilter ∨
      a.tag = .timeUnit ∨ a.tag = .bin) ∧ (b.tag = .calculate → a.tag ≠ .filter) := by
  have hb := h.handled
  have hpass := h.passage
  constructor
  · cases b <;> cases pass <;> simp_all [Pass.handles, Stage.tag, Stage.groups, Stage.isGrouping,
      Stage.isVacuous]
  · have hparse := Pass.not_parse hb hp
    -- what is above is one of the kinds that something other than a conversion may pass
    unfold Move.passage? at hpass
    simp only [if_neg hparse] at hpass
    clear h hb
    generalize b.tag = t at hpass
    cases a <;> simp_all [Stage.tag]

namespace Interpretation

variable (I : Interpretation V E) {a b c : Stage}

/-- Whether a stage reads none of the fields: rows that agree apart from them are filtered alike,
    and the same is calculated for them. -/
def Blind (X : String → Prop) : Stage → Prop
  | .filter ps => ∀ p ∈ ps, ∀ r r' : Row V, r.Agree X r' → I.accepts p r' = I.accepts p r
  | .calculate text _ => ∀ r r' : Row V, r.Agree X r' → I.evaluate text r' = I.evaluate text r
  | .nullFilter flags => ∀ field ∈ flags.dropped, ¬ X field
  | .timeUnit formulas => ∀ e ∈ formulas.entries, ∀ r r' : Row V, r.Agree X r' →
      I.evaluate e.2 r' = I.evaluate e.2 r
  | _ => True

variable {I}

/-- A stage that is blind to some fields is blind to fewer. -/
theorem Blind.anti (h : I.Blind Y a) (hXY : ∀ f, X f → Y f) : I.Blind X a := by
  cases a with
  | filter ps => exact fun p hp r r' hr => h p hp r r' (hr.mono hXY)
  | calculate text field => exact fun r r' hr => h r r' (hr.mono hXY)
  | nullFilter flags => exact fun field hf hx => h field hf (hXY field hx)
  | timeUnit formulas => exact fun e he r r' hr => h e he r r' (hr.mono hXY)
  | _ => trivial

/-- Grouping by more fields does not count as reading them. -/
theorem blind_addDimensions {dims : List String} :
    I.Blind X (b.addDimensions dims) ↔ I.Blind X b := by
  cases b <;> exact .rfl

/-- Joined stages that do not clean or derive are blind to what both are blind to. -/
theorem Blind.join {pass : Pass} (h : Joins pass a b c) (hprep : a.prepares = false)
    (ha : I.Blind X a) (hb : I.Blind X b) : I.Blind X c := by
  have hm := h.merged
  cases a <;> cases b <;> simp only [Stage.merge?, reduceCtorEq, Option.some.injEq] at hm <;>
    subst hm
  case filter ps qs =>
    intro p hp
    exact (List.mem_append.1 hp).elim (ha p) (hb p)
  case nullFilter => exact absurd hprep (by simp [Stage.prepares, Stage.tag])
  case timeUnit => exact absurd hprep (by simp [Stage.prepares, Stage.tag])
  all_goals trivial

/-! ### What a stage does to rows that agree -/

variable (I)

/-- Bins change no fields but those they derive. -/
theorem agree_apply_bin {bins : Binning} (hX : ∀ f ∈ (Stage.bin bins).generated, X f)
    (rows : List (Row V)) : AgreeAll X rows (I.apply (.bin bins) rows) := by
  show AgreeAll X rows (bins.values.foldl I.applyEntry rows)
  have hentries : ∀ e ∈ bins.values, ∀ f ∈ e.outputs, X f :=
    fun e he f hf => hX f (List.mem_flatMap.2 ⟨e, he, hf⟩)
  -- on the entries: each one sets its outputs in the rows that the ones before it leave
  generalize bins.values = es at hentries
  induction es generalizing rows with
  | nil => exact .refl X rows
  | cons e es ih =>
    rw [List.foldl_cons]
    refine AgreeAll.trans (.map (fun r field hf => ?_) rows)
      (ih _ fun e' he' => hentries e' (List.mem_cons_of_mem e he'))
    exact I.get?_entryRow (fun hmem => hf (hentries e (by simp) field hmem)) _ r

/-- A stage that filters, as a filter of rows. -/
theorem exists_filter (ha : a.tag = .filter ∨ a.tag = .nullFilter) (hb : I.Blind X a) :
    ∃ q : Row V → Bool, (∀ rows, I.apply a rows = rows.filter q) ∧
      ∀ r r', Row.Agree X r r' → q r' = q r := by
  cases a with
  | filter ps =>
    refine ⟨_, fun _ => rfl, fun r r' hr => ?_⟩
    rw [Bool.eq_iff_iff, List.all_eq_true, List.all_eq_true]
    exact forall₂_congr fun p hp => by rw [hb p hp r r' hr]
  | nullFilter flags =>
    refine ⟨I.keeps flags, fun _ => rfl, fun r r' hr => ?_⟩
    rw [keeps, keeps, Bool.eq_iff_iff, List.all_eq_true, List.all_eq_true]
    exact forall₂_congr fun field hf => by rw [hr field (hb field hf)]
  | _ => exact absurd ha (by simp [Stage.tag])

/-- A stage that calculates, as a map of rows. -/
theorem exists_map (ha : a.tag = .calculate ∨ a.tag = .timeUnit) :
    ∃ g : Row V → Row V, (∀ rows, I.apply a rows = rows.map g) ∧
      (∀ r, Row.Agree (· ∈ a.derived) r (g r)) ∧
      ∀ X, I.Blind X a → ∀ r r', Row.Agree X r r' → Row.Agree X (g r) (g r') := by
  cases a with
  | calculate text field =>
    refine ⟨I.formulaRow text field, fun _ => rfl, fun r => ?_, fun X hb r r' hr => ?_⟩
    · exact .insert_right (by simp [Stage.derived]) r _
    · rw [formulaRow, formulaRow, hb r r' hr]
      exact hr.insert field _
  | timeUnit formulas =>
    refine ⟨_, fun _ => rfl, fun r => ?_, fun X hb r r' hr => ?_⟩
    · have hkeys : ∀ e ∈ formulas.entries, e.1 ∈ (Stage.timeUnit formulas).derived :=
        fun e he => List.mem_map_of_mem he
      generalize formulas.entries = es at hkeys
      -- each formula sets a field that is derived
      induction es generalizing r with
      | nil => exact .refl _ r
      | cons e es ih =>
        have hone := Row.Agree.insert_right (hkeys e (by simp)) r (I.evaluate e.2 r)
        have hrest := ih (I.formulaRow e.2 e.1 r) fun e' he' => hkeys e' (List.mem_cons_of_mem e he')
        exact (hone.trans hrest).mono fun _ h => h.elim id id
    · have hblind := hb
      simp only [Blind] at hblind
      generalize formulas.entries = es at hblind
      -- each formula has the same value in both rows, which then still agree
      induction es generalizing r r' with
      | nil => exact hr
      | cons e es ih =>
        refine ih _ _ ?_ fun e' he' => hblind e' (List.mem_cons_of_mem e he')
        show Row.Agree X (I.formulaRow e.2 e.1 r) (I.formulaRow e.2 e.1 r')
        rw [formulaRow, formulaRow, hblind e (by simp) r r' hr]
        exact hr.insert e.1 _
  | _ => exact absurd ha (by simp [Stage.tag])

/-- A blind stage keeps rows in agreement. -/
theorem agree_apply (hb : I.Blind X a) (hg : a.groups = false)
    (hbin : a.tag = .bin → ∀ f ∈ a.generated, X f) (h : AgreeAll X rows rows') :
    AgreeAll X (I.apply a rows) (I.apply a rows') := by
  cases a with
  | source s => exact .refl X _
  | filter ps =>
    obtain ⟨q, hq, hblind⟩ := I.exists_filter (.inl rfl) hb
    rw [hq, hq]
    exact h.filter hblind
  | nullFilter flags =>
    obtain ⟨q, hq, hblind⟩ := I.exists_filter (.inr rfl) hb
    rw [hq, hq]
    exact h.filter hblind
  | calculate text field =>
    obtain ⟨g, hgmap, -, hblind⟩ := I.exists_map (a := .calculate text field) (.inl rfl)
    rw [hgmap, hgmap]
    exact h.map_both (hblind X hb)
  | timeUnit formulas =>
    obtain ⟨g, hgmap, -, hblind⟩ := I.exists_map (a := .timeUnit formulas) (.inr rfl)
    rw [hgmap, hgmap]
    exact h.map_both (hblind X hb)
  | bin bins =>
    -- bins see all rows, so what they set may differ: it is set apart
    have hset := hbin rfl
    exact (I.agree_apply_bin hset rows).symm.trans (h.trans (I.agree_apply_bin hset rows'))
  | positiveFilter flags =>
    have hvacuous : flags.isVacuous = true := by
      simpa [Stage.groups, Stage.isGrouping, Stage.tag, Stage.isVacuous] using hg
    rw [apply, apply, if_pos hvacuous, if_pos hvacuous]
    exact h
  | aggregate | order | stack =>
    exact absurd hg (by simp [Stage.groups, Stage.isGrouping, Stage.tag, Stage.isVacuous])
  | parse | output | facetHeader | facet => exact h

/-- Stages on a way along which rows stay in agreement. -/
structure Steady (I : Interpretation V E) (X : String → Prop) (a : Stage) : Prop where
  blind : I.Blind X a
  bins : a.tag = .bin → ∀ f ∈ a.generated, X f

/-- A way of blind stages keeps rows in agreement. -/
theorem agree_run {w : List Stage} (hw : ∀ a ∈ w, I.Steady X a ∧ a.groups = false)
    (h : AgreeAll X rows rows') : AgreeAll X (I.run w rows) (I.run w rows') := by
  induction w generalizing rows rows' with
  | nil => exact h
  | cons a w ih =>
    obtain ⟨⟨hb, hbin⟩, hg⟩ := hw a (by simp)
    exact ih (fun b hb => hw b (List.mem_cons_of_mem a hb)) (I.agree_apply hb hg hbin h)

/-- Conversions, outputs and facets leave all rows as they are. -/
theorem apply_of_passive (h : a.tag = .parse ∨ a.tag = .output ∨ a.tag = .facet)
    (rows : List (Row V)) : I.apply a rows = rows := by
  cases a <;> first | rfl | exact absurd h (by simp [Stage.tag])

/-! ### Exchanging stages -/

/-- Bins and a stage that is blind to what they derive may be exchanged, but for what they derive. -/
theorem agree_swap_bin (hx : a.tag = .bin) (ha : I.Steady X a) (hb : I.Steady X b)
    (hg : b.groups = false) (rows : List (Row V)) :
    AgreeAll X (I.apply b (I.apply a rows)) (I.apply a (I.apply b rows)) := by
  have hbins (rows : List (Row V)) : AgreeAll X rows (I.apply a rows) := by
    cases a with
    | bin bins => exact I.agree_apply_bin (ha.bins rfl) rows
    | _ => exact absurd hx (by simp [Stage.tag])
  exact (I.agree_apply hb.blind hg hb.bins (hbins rows).symm).trans (hbins _)

/-- Stages that filter may be exchanged. -/
theorem commute_filters (ha : a.tag = .filter ∨ a.tag = .nullFilter)
    (hb : b.tag = .filter ∨ b.tag = .nullFilter) : I.Commute a b := by
  -- every stage does the same for rows that agree in all fields, since they are the same
  have hblind {a : Stage} : I.Blind (fun _ => False) a := by
    have hsame {r r' : Row V} (h : r.Agree (fun _ => False) r') : r' = r :=
      SortedMap.ext_get? fun field => h field fun hf => hf
    cases a with
    | filter ps => exact fun p _ r r' h => by rw [hsame h]
    | calculate text field => exact fun r r' h => by rw [hsame h]
    | nullFilter flags => exact fun _ _ h => h
    | timeUnit formulas => exact fun e _ r r' h => by rw [hsame h]
    | _ => trivial
  obtain ⟨p, hp, -⟩ := I.exists_filter ha hblind
  obtain ⟨q, hq, -⟩ := I.exists_filter hb hblind
  intro rows
  rw [hp, hq, hp, hq, List.filter_filter, List.filter_filter]
  exact List.filter_congr fun r _ => Bool.and_comm _ _

/-- A stage that calculates and one that filters may be exchanged, if this is blind to what that
    sets. -/
theorem commute_map_filter (ha : a.tag = .calculate ∨ a.tag = .timeUnit)
    (hb : b.tag = .filter ∨ b.tag = .nullFilter) (hblind : I.Blind (· ∈ a.derived) b) :
    I.Commute a b := by
  obtain ⟨g, hgmap, hg, -⟩ := I.exists_map ha
  obtain ⟨q, hq, hsame⟩ := I.exists_filter hb hblind
  intro rows
  rw [hgmap, hq, hq, hgmap, List.filter_map]
  exact congrArg (List.map g) (List.filter_congr fun r _ => hsame r (g r) (hg r))

/-- What holds of two stages in a row, the first above the second, while passes run: no calculation
    stands below a stage that cleans or derives, each of these kinds stands alone, and the other
    stages are blind to what time units derive. -/
structure Apart (a b : Stage) : Prop where
  prepares : a.prepares = true → b.tag ≠ .calculate ∧ b.tag ≠ a.tag
  below : b.tag = .timeUnit → I.Blind (· ∈ b.derived) a
  above : a.tag = .timeUnit → I.Blind (· ∈ a.derived) b

variable {I} {pass : Pass} {policy : FacetPolicy} {dims : List String}

/-- Stages of one kind in a row do not clean or derive, so they may be joined. -/
theorem Apart.not_prepares (hab : I.Apart a b) (h : b.tag = a.tag) : a.prepares = false := by
  by_contra hprep
  exact (hab.prepares (by simpa using hprep)).2 h

/-- No move breaks this. -/
theorem apart_stable : Stable I.Apart pass policy where
  join {a b c} h hab z := by
    have hc := Stage.tag_of_merge? h.merged
    have hprep := hab.not_prepares h.tag_eq
    -- a time unit would stand below one of its kind
    have hunit : c.tag ≠ .timeUnit := by
      intro ht
      rw [Stage.prepares, ← hc, ht] at hprep
      exact absurd hprep (by simp)
    constructor
    · intro hza hzb
      refine ⟨fun hz => ?_, fun ht => absurd ht hunit, fun ht => ?_⟩
      · rw [hc]
        exact hza.prepares hz
      · exact Blind.join h hprep (hza.above ht) (hzb.above ht)
    · intro haz hbz
      refine ⟨fun hz => ?_, fun ht => ?_, fun ht => absurd ht hunit⟩
      · rw [Stage.prepares, hc] at hz
        exact absurd hz (by rw [← Stage.prepares]; simp [hprep])
      · exact Blind.join h hprep (haz.below ht) (hbz.below ht)
  rise {a b dims} h hab := by
    refine ⟨fun hprep => ⟨fun ha => ?_, ?_⟩, fun ht => ?_, fun ht => ?_⟩
    · have hpass := h.passage
      rw [Stage.prepares, Stage.tag_addDimensions] at hprep
      cases a <;> simp only [Stage.tag, reduceCtorEq] at ha
      cases b <;> simp_all [Move.passage?, Stage.tag]
    · rw [Stage.tag_addDimensions]
      exact h.tag_ne.symm
    · exact blind_addDimensions.2 (hab.above ht)
    · rw [Stage.derived_addDimensions]
      rw [Stage.tag_addDimensions] at ht
      exact hab.below ht
  dims b dims z := by
    have hprep : (b.addDimensions dims).prepares = b.prepares := by
      rw [Stage.prepares, Stage.prepares, Stage.tag_addDimensions]
    constructor
    · intro h
      refine ⟨fun hz => ?_, fun ht => ?_, fun ht => blind_addDimensions.2 (h.above ht)⟩
      · rw [Stage.tag_addDimensions]
        exact h.prepares hz
      · rw [Stage.derived_addDimensions]
        rw [Stage.tag_addDimensions] at ht
        exact h.below ht
    · intro h
      refine ⟨fun hb => ?_, fun ht => blind_addDimensions.2 (h.below ht), fun ht => ?_⟩
      · rw [Stage.tag_addDimensions]
        exact h.prepares (hprep ▸ hb)
      · rw [Stage.derived_addDimensions]
        rw [Stage.tag_addDimensions] at ht
        exact h.above ht

variable (I)

/-- What an exchange of two stages changes is derived by bins. -/
theorem agree_rise (h : Rises pass policy a b dims) (hp : pass ≠ .parse) (hab : I.Apart a b)
    (ha : I.Steady X a) (hb : I.Steady X b) (hga : a.groups = false) (hgb : b.groups = false)
    (rows : List (Row V)) :
    AgreeAll X (I.apply b (I.apply a rows)) (I.apply a (I.apply (b.addDimensions dims) rows)) := by
  -- only what groups takes in the fields of a facet
  have hdims : b.addDimensions dims = b := by
    cases b <;> first
      | rfl
      | exact absurd hgb (by simp [Stage.groups, Stage.isGrouping, Stage.tag, Stage.isVacuous])
  rw [hdims]
  -- bins change what they derive when rows are dropped before them
  by_cases hbbin : b.tag = .bin
  · exact (I.agree_swap_bin hbbin hb ha hga rows).symm
  by_cases habin : a.tag = .bin
  · exact I.agree_swap_bin habin ha hb hgb rows
  -- what remains commutes
  have hcommute : I.Commute a b := by
    obtain ⟨htb, hta, hcalc⟩ := h.tags hp hgb
    rcases hta with hta | hta | hta | hta
    · exact fun rows => by rw [I.apply_of_passive hta, I.apply_of_passive hta]
    · -- above a filter
      rcases htb with htb | htb | htb | htb
      · exact I.commute_filters (.inl hta) htb
      · exact absurd hta (hcalc htb)
      · exact fun rows => (I.commute_map_filter (.inr htb) (.inl hta) (hab.below htb) rows).symm
      · exact absurd htb hbbin
    · -- above a null filter
      have hprep : a.prepares = true := by simp [Stage.prepares, hta]
      rcases htb with htb | htb | htb | htb
      · exact I.commute_filters (.inr hta) htb
      · exact absurd htb (hab.prepares hprep).1
      · exact fun rows => (I.commute_map_filter (.inr htb) (.inr hta) (hab.below htb) rows).symm
      · exact absurd htb hbbin
    · -- above a time unit
      rcases hta with hta | hta
      · have hprep : a.prepares = true := by simp [Stage.prepares, hta]
        rcases htb with htb | htb | htb | htb
        · exact I.commute_map_filter (.inr hta) htb (hab.above hta)
        · exact absurd htb (hab.prepares hprep).1
        · exact absurd (htb.trans hta.symm) h.tag_ne
        · exact absurd htb hbbin
      · exact absurd hta habin
  rw [hcommute rows]
  exact .refl X _

/-- Joined stages do what both do, the second after the first. -/
theorem apply_join (h : Joins pass a b c) (hab : I.Apart a b) (hg : a.groups = false)
    (rows : List (Row V)) : I.apply c rows = I.apply b (I.apply a rows) := by
  have hm := h.merged
  have hh := h.handled
  have hprep := hab.not_prepares h.tag_eq
  cases a <;> cases b <;> simp only [Stage.merge?, reduceCtorEq, Option.some.injEq] at hm <;>
    subst hm
  case filter.filter ps qs =>
    rw [apply, apply, apply, List.filter_filter]
    refine List.filter_congr fun r _ => ?_
    rw [List.all_append, Bool.and_comm]
  case parse.parse => rfl
  case aggregate.aggregate =>
    exact absurd hg (by simp [Stage.groups, Stage.isGrouping, Stage.tag, Stage.isVacuous])
  case positiveFilter.positiveFilter =>
    exact absurd hh (by cases pass <;> simp [Pass.handles, Stage.tag])
  -- other stages that join clean or derive
  all_goals exact absurd hprep (by simp [Stage.prepares, Stage.tag])

end Interpretation

/-! ### Changes of a way -/

/-- Stages that are joined group alike, and so does what they become. -/
theorem Joins.groups {pass : Pass} {a b c : Stage} (h : Joins pass a b c) :
    b.groups = a.groups ∧ c.groups = a.groups := by
  have hm := h.merged
  have hh := h.handled
  cases a <;> cases b <;> simp only [Stage.merge?, reduceCtorEq, Option.some.injEq] at hm <;>
    subst hm
  case positiveFilter.positiveFilter =>
    exact absurd hh (by cases pass <;> simp [Pass.handles, Stage.tag])
  all_goals exact ⟨rfl, rfl⟩

/-- A change brings no grouping to a way and takes none away. -/
theorem Rerouted.groups {C : Stage → Stage → Prop} {pass : Pass} {policy : FacetPolicy}
    {w w' : List (Nat × Stage)} (h : Rerouted C pass policy w w') :
    (∀ e ∈ w', e.2.groups = false) ↔ ∀ e ∈ w, e.2.groups = false := by
  cases h with
  | refl => exact .rfl
  | @join a b c h _ l p i r =>
    obtain ⟨hb, hc⟩ := h.groups
    simp [or_imp, forall_and, hb, hc]
  | @rise a b dims h _ l p i r =>
    simp only [List.mem_append, List.mem_cons, or_imp, forall_and, forall_eq,
      Stage.groups_addDimensions]
    tauto
  | drop h l i types r => simp [or_imp, forall_and, Stage.groups_parse]
  | widen h l i types types' r => simp [or_imp, forall_and, Stage.groups_parse]

namespace Interpretation

variable (I : Interpretation V E) {pass : Pass} {policy : FacetPolicy}
  {w w' : List (Nat × Stage)}

/-- A change of a way, which is steady and does not group, changes only what bins derive. -/
theorem agree_rerouted (h : Rerouted I.Apart pass policy w w') (hp : pass ≠ .parse)
    (hw : ∀ e ∈ w, I.Steady X e.2) (hg : ∀ e ∈ w, e.2.groups = false) (rows : List (Row V)) :
    AgreeAll X (I.run (w.map Prod.snd) rows) (I.run (w'.map Prod.snd) rows) := by
  have hrest {r : List (Nat × Stage)} (hr : ∀ e ∈ r, e ∈ w) :
      ∀ a ∈ r.map Prod.snd, I.Steady X a ∧ a.groups = false := by
    intro a ha
    obtain ⟨e, he, rfl⟩ := List.mem_map.1 ha
    exact ⟨hw e (hr e he), hg e (hr e he)⟩
  -- a join acts as its two parts do, and what rises agrees but for what it derives
  cases h with
  | refl => exact .refl X _
  | @join a b c h hab l p i r =>
    simp only [List.map_append, List.map_cons, run_append, run_cons]
    rw [I.apply_join h hab (hg (p, a) (by simp))]
    exact .refl X _
  | @rise a b dims h hab l p i r =>
    simp only [List.map_append, List.map_cons, run_append, run_cons]
    refine I.agree_run (hrest fun e he => by simp [he]) ?_
    exact I.agree_rise h hp hab (hw (p, a) (by simp)) (hw (i, b) (by simp))
      (hg (p, a) (by simp)) (hg (i, b) (by simp)) _
  | drop h => exact absurd h hp
  | widen h => exact absurd h hp

end Interpretation

end ChartPipeline
