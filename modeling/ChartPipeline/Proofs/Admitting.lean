import ChartPipeline.Proofs.Editing
import ChartPipeline.Proofs.Filing

/-!
# Which flows are assembled

Assembling succeeds exactly where sources begin all trees and stand nowhere else, conversions stand
right below them, and nothing is below a header.  What is wrong inside a facet is found as well: all
that was put off is walked in the end.

## Key results

- `Assembly.rooted_of_all`: what was assembled was placed right
- `Flow.wellPlaced_iff`: the same, said of every stage by its parent and its children
- `Flow.assembleAfter_isOk_iff`: which flows are assembled
-/

namespace ChartPipeline

namespace Assembly

open Forest

variable {p q : Pending} {st st₁ st' : Assembly} {id : Nat} {stage : Stage}
  {children f : Forest Stage} {underSource : Bool}

/-! ### What was assembled was placed right -/

/-- What was put off earlier is placed right if all that is put off later is. -/
theorem Postponed.of_progress {names : List String} {ids : List Nat}
    (h : Progress names ids st st') (hpost : Postponed st') : Postponed st :=
  fun d hd => hpost d (h.putOff hd)

/-- A stage below which nothing goes on was where it may be, with all below it. -/
theorem Enters.placed_stop (h : Enters underSource id children p st stage none st')
    (hpost : Postponed st') :
    stage.tag ≠ .source ∧ (stage.tag = .parse → underSource = true) ∧
      (stage.tag = .facetHeader → children = nil) ∧ Placed false children := by
  cases h with
  | @facet partition source _ hm =>
    refine ⟨by simp [Stage.tag], by simp [Stage.tag], by simp [Stage.tag], ?_⟩
    exact hpost ⟨partition, source, children⟩ (List.mem_append_right _ List.mem_cons_self)
  | header hc =>
    subst hc
    exact ⟨by simp [Stage.tag], by simp [Stage.tag], fun _ => rfl, trivial⟩

/-- A stage below which something goes on was where it may be. -/
theorem Enters.placed_enter (h : Enters underSource id children p st stage (some q) st') :
    stage.tag ≠ .source ∧ (stage.tag = .parse → underSource = true) ∧
      (stage.tag = .facetHeader → children = nil) := by
  cases h with
  | parse hu => exact ⟨by simp [Stage.tag], fun _ => hu, by simp [Stage.tag]⟩
  | output => exact ⟨by simp [Stage.tag], by simp [Stage.tag], by simp [Stage.tag]⟩
  | plain hplain => cases stage <;> simp_all [Stage.isPlain, Stage.tag]

/-- Trees that were walked were placed right, if what is put off at the end is. -/
theorem Descends.placed (h : Descends underSource f p st st') (hpost : Postponed st') :
    Placed underSource f := by
  -- from the last tree back, as facets put off are judged at the end
  induction h with
  | nil => trivial
  | stop he hr ih =>
    obtain ⟨hs, hp, hh, hc⟩ := he.placed_stop (hpost.of_progress hr.progress)
    exact ⟨hs, hp, hh, hc, ih hpost⟩
  | enter he hf hc hr ihc ihr =>
    obtain ⟨hs, hp, hh⟩ := he.placed_enter
    exact ⟨hs, hp, hh, ihc (hpost.of_progress hr.progress), ihr hpost⟩

/-- Whole trees that were walked were placed right. -/
theorem Grows.rooted_stages (h : Grows f st st') (hpost : Postponed st') : Rooted f := by
  induction h with
  | nil => trivial
  | tree hn hf hc hr ih =>
    exact ⟨rfl, hc.placed (hpost.of_progress hr.progress), ih hpost⟩

/-- All that was put off and walked was placed right. -/
theorem Resumes.postponed {n : Nat} {data : List FacetData} (h : Resumes n st data st')
    (hn : weight st ≤ n) : Postponed st := by
  induction h with
  | out st =>
    intro d hd
    rw [deferred_eq_nil_of_weight hn] at hd
    exact absurd hd (by simp)
  | done h =>
    intro d hd
    rw [h] at hd
    exact absurd hd (by simp)
  | @facet n d rest q st st₁ st₂ st' others h hf hdesc hr ih =>
    -- the facets after this one, and those it put off, are walked later
    have hpost := ih (weight_of_facet h (progress_of_facet hf hdesc) hn)
    have hrest : Postponed (resume st rest) := hpost.of_progress (progress_of_facet hf hdesc)
    intro d' hd'
    rw [h] at hd'
    rcases List.mem_cons.1 hd' with rfl | hd'
    · exact hdesc.placed hpost
    · exact hrest d' hd'

/-- A forest that was assembled was placed right. -/
theorem rooted_of_all {data : CompiledData} (h : all f st = (.ok data, st'))
    (hst : st.deferred = []) : Rooted f := by
  obtain ⟨st₁, hgrows, -, hresumes⟩ := all_ok h
  exact hgrows.rooted_stages (hresumes.postponed (hgrows.weight_le hst))

/-! ### Around a hole -/

section

variable {before after t : Forest Stage} {fr parent : Frame Stage} {up : List (Frame Stage)}

/-- The last ones of trees placed right are placed right. -/
theorem placed_of_append (h : Placed underSource (before ++ t)) : Placed underSource t := by
  induction before with
  | nil => exact h
  | node _ _ _ _ _ ih => exact ih h.2.2.2.2

/-- So are the last ones of whole trees. -/
theorem rooted_of_append (h : Rooted (before ++ t)) : Rooted t := by
  induction before with
  | nil => exact h
  | node _ _ _ _ _ ih => exact ih h.2.2

/-- In forests placed right, sources are the roots. -/
theorem Rooted.tag_root (h : Rooted (fill [fr] t)) : fr.content.tag = .source :=
  (@rooted_of_append fr.before (.node fr.id fr.content t fr.after) h).1

/-- What is in a hole below a stage is placed right if all is. -/
theorem Rooted.placed (h : Rooted (fill (fr :: up) t)) : Placed up.isEmpty t := by
  induction up generalizing fr t with
  | nil => exact (@rooted_of_append fr.before (.node fr.id fr.content t fr.after) h).2.1
  | cons parent up ih =>
    have hclose : Placed up.isEmpty (fr.close t) := ih h
    exact (@placed_of_append _ fr.before (.node fr.id fr.content t fr.after) hclose).2.2.2.1

/-- A stage below another one in a forest placed right. -/
theorem Rooted.placed_node (h : Rooted (fill (fr :: parent :: up) t)) :
    fr.content.tag ≠ .source ∧ (fr.content.tag = .parse → up = []) ∧
      (fr.content.tag = .facetHeader → t = nil) := by
  have hclose : Placed up.isEmpty (fr.close t) := Rooted.placed h
  have hnode := @placed_of_append _ fr.before (.node fr.id fr.content t fr.after) hclose
  exact ⟨hnode.1, fun ht => List.isEmpty_iff.1 (hnode.2.1 ht), hnode.2.2.1⟩

end

end Assembly

namespace Flow

open Assembly Forest

variable {flow : Flow} {id : Nat} {fr : Frame Stage} {up : List (Frame Stage)}
  {cs f : Forest Stage}

/-! ### Places by parents and children -/

/-- A flow whose stages are where they may be. -/
structure WellPlaced (flow : Flow) : Prop where
  /-- Trees begin with sources. -/
  roots : ∀ id ∈ flow.stages.roots, flow.tag? id = some .source
  /-- No source is below another stage. -/
  sources : ∀ id, flow.isAttached id = true → flow.tag? id = some .source → id ∈ flow.stages.roots
  /-- Conversions are right below sources. -/
  conversions : ∀ id, flow.isAttached id = true → flow.tag? id = some .parse →
    ∃ parent, flow.stages.parent? id = some parent ∧ flow.tag? parent = some .source
  /-- Headers have nothing below. -/
  headers : ∀ id, flow.isAttached id = true → flow.tag? id = some .facetHeader →
    flow.stages.children id = []

/-- The kind of a stage in a frame. -/
theorem tag?_first (hst : flow.stages = fill (fr :: up) cs) (hn : flow.stages.walk.Nodup) :
    flow.tag? fr.id = some fr.content.tag :=
  tag?_of_content? (content?_of_mem hst hn)

/-- A stage in a frame is in the flow. -/
theorem isAttached_first (hst : flow.stages = fill (fr :: up) cs)
    (hn : flow.stages.walk.Nodup) : flow.isAttached fr.id = true := by
  rw [isAttached, contains, hst, find?_first (hst ▸ hn)]
  rfl

/-- In a flow of trees placed right, every stage is where it may be. -/
theorem wellPlaced_of_rooted (hn : flow.stages.walk.Nodup) (h : Rooted flow.stages) :
    flow.WellPlaced where
  roots id hid := by
    obtain ⟨fr, cs, hst, rfl⟩ := exists_close_of_mem_roots hid
    have hfill : flow.stages = fill [fr] cs := hst
    rw [tag?_first hfill hn, Rooted.tag_root (hfill ▸ h)]
  sources id hid ht := by
    obtain ⟨fr, up, cs, hst, rfl⟩ := exists_fill_of_mem (isAttached_iff.1 hid)
    rw [tag?_first hst hn, Option.some_inj] at ht
    -- a source with a parent would be no root
    cases up with
    | nil =>
      rw [hst]
      simp [fill, Frame.close, Forest.roots]
    | cons parent up => exact absurd ht (Rooted.placed_node (hst ▸ h)).1
  conversions id hid ht := by
    obtain ⟨fr, up, cs, hst, rfl⟩ := exists_fill_of_mem (isAttached_iff.1 hid)
    rw [tag?_first hst hn, Option.some_inj] at ht
    cases up with
    | nil => exact absurd ((Rooted.tag_root (hst ▸ h)).symm.trans ht) (by simp)
    | cons parent up =>
      -- the only parent of a conversion is a root, and so a source
      obtain rfl := (Rooted.placed_node (hst ▸ h)).2.1 ht
      have hparent : flow.stages = fill [parent] (fr.close cs) := hst
      refine ⟨parent.id, ?_, ?_⟩
      · rw [hst] at hn ⊢
        exact parent?_first [parent] hn
      · rw [tag?_first hparent hn, Rooted.tag_root (hparent ▸ h)]
  headers id hid ht := by
    obtain ⟨fr, up, cs, hst, rfl⟩ := exists_fill_of_mem (isAttached_iff.1 hid)
    rw [tag?_first hst hn, Option.some_inj] at ht
    cases up with
    | nil => exact absurd ((Rooted.tag_root (hst ▸ h)).symm.trans ht) (by simp)
    | cons parent up =>
      -- nothing is below a header
      obtain rfl := (Rooted.placed_node (hst ▸ h)).2.2 ht
      rw [hst] at hn ⊢
      exact children_first hn

/-- The trees below a stage, after others, are placed right where all is. -/
theorem WellPlaced.placed (h : flow.WellPlaced) (hn : flow.stages.walk.Nodup)
    {done : Forest Stage} {underSource : Bool} (hst : flow.stages = fill (fr :: up) (done ++ f))
    (hunder : fr.content.tag = .source → underSource = true) : Placed underSource f := by
  induction f generalizing fr up done underSource with
  | nil => trivial
  | node i a cs rest ihc ihr =>
    have hst' : flow.stages = fill (⟨done, i, a, rest⟩ :: fr :: up) cs := hst
    have htag : flow.tag? i = some a.tag := tag?_first hst' hn
    have hattached : flow.isAttached i = true := isAttached_first hst' hn
    have hparent : flow.stages.parent? i = some fr.id := by
      rw [hst'] at hn ⊢
      exact parent?_first (fr :: up) hn
    -- the stage has a parent, so it is no root
    have hsource : a.tag ≠ .source := by
      intro ht
      have hroot := h.sources i hattached (htag.trans (congrArg some ht))
      rw [mem_roots_iff hn, hparent] at hroot
      exact absurd hroot.2 (by simp)
    refine ⟨hsource, fun ht => ?_, fun ht => ?_, ?_, ?_⟩
    · obtain ⟨p, hp, hptag⟩ := h.conversions i hattached (htag.trans (congrArg some ht))
      obtain rfl := Option.some.inj (hparent.symm.trans hp)
      rw [tag?_first hst hn, Option.some_inj] at hptag
      exact hunder hptag
    · have hchildren := h.headers i hattached (htag.trans (congrArg some ht))
      rw [hst'] at hn hchildren
      have hroots : cs.roots = [] := (children_first hn).symm.trans hchildren
      cases cs with
      | nil => rfl
      | node => exact absurd hroots (by simp [Forest.roots])
    · exact @ihc ⟨done, i, a, rest⟩ (fr :: up) nil false hst' fun ht => absurd ht hsource
    · have hrest : flow.stages = fill (fr :: up) (done ++ node i a cs nil ++ rest) := by
        rw [hst, append_assoc]
        rfl
      exact ihr hrest hunder

/-- Where every stage is where it may be, trees begin with sources and are placed right. -/
theorem WellPlaced.rooted (h : flow.WellPlaced) (hn : flow.stages.walk.Nodup)
    {done : Forest Stage} (hst : flow.stages = done ++ f) : Rooted f := by
  induction f generalizing done with
  | nil => trivial
  | node i a cs rest _ ih =>
    have hroot : flow.stages = fill [⟨done, i, a, rest⟩] (nil ++ cs) := hst
    have htag := h.roots i (by rw [hst, roots_append]; simp [Forest.roots])
    rw [show flow.tag? i = some a.tag from tag?_first hroot hn, Option.some_inj] at htag
    have hrest : flow.stages = done ++ node i a cs nil ++ rest := by
      rw [hst, append_assoc]
      rfl
    exact ⟨htag, h.placed hn hroot fun _ => rfl, ih hrest⟩

/-- Stages are where they may be exactly if trees begin with sources and are placed right below. -/
theorem wellPlaced_iff (hn : flow.stages.walk.Nodup) : flow.WellPlaced ↔ Rooted flow.stages :=
  ⟨fun h => h.rooted hn (nil_append _).symm, wellPlaced_of_rooted hn⟩

/-! ### Which flows are assembled -/

/-- A flow is assembled exactly if its stages are where they may be, whatever was assembled before.
    Assembling from stage to stage comes out alike: it finds a facet and a dataset for each name
    that waits, and a record at each place that it kept, so all that can be wrong with a flow is
    that a stage is in a wrong place. -/
theorem assembleAfter_isOk_iff (hn : flow.stages.walk.Nodup) (earlier : Assembly) :
    ((∃ data, (flow.assembleAfter earlier).1 = .ok data) ↔ flow.WellPlaced) ∧
      ((∃ data, (flow.fileAfter earlier).1 = .ok data) ↔ flow.WellPlaced) ∧
      ∀ fault, (flow.fileAfter earlier).1 = .error fault →
        ∃ e, fault = .compile e ∧ (flow.assembleAfter earlier).1 = .error e := by
  have hfile := (fileAfter_eq hn earlier).1
  have hiff : (∃ data, (flow.assembleAfter earlier).1 = .ok data) ↔ flow.WellPlaced := by
    rw [wellPlaced_iff hn]
    constructor
    · rintro ⟨data, hdata⟩
      cases hrun : Assembly.all flow.stages (earlier.reset flow) with
      | mk result st =>
        rw [assembleAfter_run hrun] at hdata
        obtain rfl : result = .ok data := hdata
        exact rooted_of_all hrun rfl
    · intro hrooted
      -- nothing is put off when assembling starts over
      obtain ⟨data, st, hrun⟩ := all_total hrooted
        (fun d hd => absurd hd (by simp [Assembly.reset]) : Postponed (earlier.reset flow))
      exact ⟨data, by rw [assembleAfter_run hrun]⟩
  refine ⟨hiff, ?_, ?_⟩
  · rw [← hiff, hfile]
    cases (flow.assembleAfter earlier).1 with
    | error e => simp [Except.mapError]
    | ok data => simp [Except.mapError]
  · rw [hfile]
    cases (flow.assembleAfter earlier).1 with
    | error e => exact fun fault h => ⟨e, (Except.error.inj h).symm, rfl⟩
    | ok data => exact fun fault h => absurd h (by simp [Except.mapError])

/-- A facet in a facet, and in that a conversion. -/
def nestedConversion : Flow :=
  { stages :=
      .node 0 (.source (.ofData (.named "cars")))
        (.node 1 (.facet { name := "outer", groupby := ["a"] })
          (.node 2 (.facet { name := "inner", groupby := ["b"] }) (.leaf 3 (.parse ∅)) .nil) .nil)
        .nil,
    next := 4 }

/-- The conversion is found when the turn of the inner facet comes. -/
theorem assembleAfter_isOk_iff_nestedConversion : nestedConversion.stages.walk.Nodup ∧
    (¬ ∃ data, (nestedConversion.assembleAfter {}).1 = .ok data) ∧
      ∃ e, (nestedConversion.fileAfter {}).1 = .error (.compile e) := by
  have hn : nestedConversion.stages.walk.Nodup := by decide
  obtain ⟨hiff, hfile, hfault⟩ := assembleAfter_isOk_iff hn {}
  have hplaced : ¬ nestedConversion.WellPlaced := by
    intro h
    obtain ⟨parent, hparent, ht⟩ := h.conversions 3 (by decide) rfl
    obtain rfl : 2 = parent := Option.some.inj hparent
    exact absurd (Option.some.inj ht) (by decide)
  refine ⟨hn, hiff.not.2 hplaced, ?_⟩
  cases h : (nestedConversion.fileAfter {}).1 with
  | ok data => exact absurd (hfile.1 ⟨data, h⟩) hplaced
  | error fault =>
    obtain ⟨e, rfl, -⟩ := hfault fault h
    exact ⟨e, rfl⟩

end Flow

end ChartPipeline
