import ChartPipeline.Proofs.Settling

/-!
# One sweep brings conversions to their sources

A climb takes every conversion that it meets along right below a source: it joins it into another
one, exchanges it with the stages above it, or puts it there.  Every conversion is on the way from
some leaf.  So after one sweep they all stand below sources, and the next sweep changes nothing.

## Key results

- `Sweeps.covered`: after a sweep of its pass, every conversion stands below a source
- `Flow.runPass_parse`: the pass for conversions comes to its end within two sweeps
-/

namespace ChartPipeline

namespace Forest

variable {policy : FacetPolicy} {f f' g t cs cs' : Forest Stage} {fr parent : Frame Stage}
  {up ups ups' : List (Frame Stage)} {ids : List Nat} {id n : Nat} {loaded : Bool}

/-- Whether every conversion stands right below a source, as the roots do if `loaded`, or above
    one of the stages `ids`, from which a climb is to come. -/
def Covered (ids : List Nat) : Bool → Forest Stage → Prop
  | _, nil => True
  | loaded, node i a cs rest =>
    (a.tag = .parse → loaded = true ∨ ∃ id ∈ ids, id ∈ (node i a cs nil).walk) ∧
      cs.Covered ids (decide (a.tag = .source)) ∧ rest.Covered ids loaded

/-- Trees side by side are covered one by one. -/
theorem covered_append :
    (f ++ g).Covered ids loaded ↔ f.Covered ids loaded ∧ g.Covered ids loaded := by
  induction f with
  | nil => simp [Covered]
  | node i a cs rest _ ih => simp only [node_append, Covered, ih, and_assoc]

/-- A climb from elsewhere need not be waited for. -/
theorem Covered.of_notMem (h : f.Covered (id :: ids) loaded) (hid : id ∉ f.walk) :
    f.Covered ids loaded := by
  induction f generalizing loaded with
  | nil => trivial
  | node i a cs rest ihc ihr =>
    obtain ⟨ha, hc, hr⟩ := h
    obtain ⟨hi, hidc, hidr⟩ := notMem_walk_node.1 hid
    refine ⟨fun ht => (ha ht).imp_right ?_, ihc hc hidc, ihr hr hidr⟩
    rintro ⟨id', hmem, hwalk⟩
    rcases List.mem_cons.1 hmem with rfl | hmem
    · simp [hi.symm, hidc] at hwalk
    · exact ⟨id', hmem, hwalk⟩

/-- Before a sweep, every stage is above one of the leaves. -/
theorem covered_of_leaves (h : f.leaves ⊆ ids) : f.Covered ids loaded := by
  induction f generalizing loaded with
  | nil => trivial
  | node i a cs rest ihc ihr =>
    -- below every stage is a leaf, and a climb from it is to come
    obtain ⟨id, hid⟩ : ∃ id, id ∈ (node i a cs nil).leaves := by
      rw [leaves_eq_tips]
      exact exists_mem_tips (by simp [strands])
    have hown : (node i a cs nil).leaves ⊆ ids := fun x hx => h (by
      rw [leaves] at hx ⊢
      rw [leaves, List.append_nil] at hx
      exact List.mem_append_left _ hx)
    refine ⟨fun _ => .inr ⟨id, hown hid, leaves_subset_walk _ hid⟩, ihc fun x hx => hown ?_,
      ihr fun x hx => h (List.mem_append_right _ hx)⟩
    cases cs with
    | nil => exact absurd hx (by simp [leaves])
    | node => simpa [leaves, isEmpty] using hx

/-- Whether the roots in a hole stand right below a source; those of the whole forest count. -/
def loads : List (Frame Stage) → Bool
  | [] => true
  | fr :: _ => decide (fr.content.tag = .source)

/-- Whether the conversions beside the way to a hole stand right below a source or above one of
    the stages `ids`. -/
def CoveredAround (ids : List Nat) : List (Frame Stage) → Prop
  | [] => True
  | fr :: up => fr.before.Covered ids (loads up) ∧ fr.after.Covered ids (loads up) ∧
      CoveredAround ids up

/-- What covers a forest covers what is in a hole and beside the way to it. -/
theorem Covered.of_fill (h : (fill up t).Covered ids true) :
    CoveredAround ids up ∧ t.Covered ids (loads up) := by
  induction up generalizing t with
  | nil => exact ⟨trivial, h⟩
  | cons fr up ih =>
    obtain ⟨hup, hclose⟩ := ih h
    rw [Frame.close, covered_append, Covered] at hclose
    obtain ⟨hb, -, ht, ha⟩ := hclose
    exact ⟨⟨hb, ha, hup⟩, ht⟩

/-- Nor is a climb from elsewhere waited for beside the way to a hole. -/
theorem CoveredAround.of_notMem (h : CoveredAround (id :: ids) up) (hid : id ∉ outside up) :
    CoveredAround ids up := by
  induction up with
  | nil => trivial
  | cons fr up ih =>
    obtain ⟨⟨hb, -, ha⟩, hup⟩ := notMem_outside_cons.1 hid
    exact ⟨h.1.of_notMem hb, h.2.1.of_notMem ha, ih h.2.2 hup⟩

/-! ### Conversions that take in others -/

/-- In a forest without a name twice, a name has the content of each of its nodes. -/
theorem content?_of_mem_toList {α : Type} {f : Forest α} {e : Nat × α} (hn : f.walk.Nodup)
    (he : e ∈ f.toList) : f.content? e.1 = some e.2 := by
  rw [toList_eq_map_places f []] at he
  obtain ⟨v, hv, rfl⟩ := List.mem_map.1 he
  obtain ⟨before, after, up, cs, rfl, -⟩ := exists_fill_of_place hn hv
  exact content?_first hn

/-- The content that a name has is that of its node. -/
theorem content_eq_of_mem_toList {α : Type} {f : Forest α} {id : Nat} {a : α} {e : Nat × α}
    (hn : f.walk.Nodup) (h : f.content? id = some a) (he : e ∈ f.toList) (hid : e.1 = id) :
    e.2 = a := by
  have := content?_of_mem_toList hn he
  rw [hid, h, Option.some_inj] at this
  exact this.symm

/-- A node in a hole is one of the whole forest. -/
theorem mem_toList_fill {α : Type} (up : List (Frame α)) {t : Forest α} {e : Nat × α}
    (he : e ∈ t.toList) : e ∈ (fill up t).toList := by
  induction up generalizing t with
  | nil => exact he
  | cons fr up ih => exact ih (by simp [Frame.close, toList, he])

variable {other : Nat} {types : ParseTypes}

/-- Changing the types of a conversion covers as much. -/
theorem covered_update (h : ∀ e ∈ f.toList, e.1 = other → e.2.tag = .parse) :
    (f.update other fun _ => .parse types).Covered ids loaded ↔ f.Covered ids loaded := by
  induction f generalizing loaded with
  | nil => rfl
  | node i a cs rest ihc ihr =>
    simp only [toList, List.mem_cons, List.mem_append] at h
    have htag : (if i = other then Stage.parse types else a).tag = a.tag := by
      split
      · next he => exact (h (i, a) (.inl rfl) he).symm
      · rfl
    have hwalk : (node i (if i = other then Stage.parse types else a)
        (cs.update other fun _ => .parse types) nil).walk = (node i a cs nil).walk := by
      simp
    rw [update, Covered, Covered, htag, hwalk, ihc fun e he => h e (.inr (.inl he)),
      ihr fun e he => h e (.inr (.inr he))]

/-- Changing the types of a conversion leaves what a hole is below. -/
theorem loads_update (h : ∀ e ∈ (fill up t).toList, e.1 = other → e.2.tag = .parse) :
    loads (up.map (Frame.update other fun _ => .parse types)) = loads up := by
  cases up with
  | nil => rfl
  | cons fr up =>
    have hfr : (fr.id, fr.content) ∈ (fill (fr :: up) t).toList :=
      mem_toList_fill up (by simp [Frame.close, toList])
    rw [List.map_cons, loads, loads, Frame.update]
    by_cases he : fr.id = other
    · have ht : fr.content.tag = .parse := h _ hfr he
      rw [if_pos he, ht]
      rfl
    · rw [if_neg he]

/-- Changing the types of a conversion covers as much beside the way to a hole. -/
theorem CoveredAround.update (hup : CoveredAround ids up)
    (h : ∀ e ∈ (fill up t).toList, e.1 = other → e.2.tag = .parse) :
    CoveredAround ids (up.map (Frame.update other fun _ => .parse types)) := by
  induction up generalizing t with
  | nil => trivial
  | cons fr up ih =>
    obtain ⟨hb, ha, hup⟩ := hup
    have hmem {e : Nat × Stage} (he : e ∈ fr.before.toList ∨ e ∈ fr.after.toList) :
        e.1 = other → e.2.tag = .parse :=
      h e (mem_toList_fill up (by
        simp only [Frame.close, toList_append, toList, List.mem_append, List.mem_cons]
        exact he.imp_right fun he => .inr (.inr he)))
    rw [List.map_cons, CoveredAround, loads_update (t := fr.close t) h]
    exact ⟨(covered_update fun e he => hmem (.inl he)).2 hb,
      (covered_update fun e he => hmem (.inr he)).2 ha, ih hup h⟩

/-! ### Climbs of conversions -/

/-- A conversion put right below the source is covered there. -/
theorem coveredAround_withSibling (up : List (Frame Stage)) {root : Frame Stage}
    (hs : root.content.tag = .source)
    (h : CoveredAround ids (up ++ [root])) (i : Nat) (a : Stage) :
    CoveredAround ids (withSibling (leaf i a) up ++ [root]) ∧
      loads (withSibling (leaf i a) up ++ [root]) = loads (up ++ [root]) := by
  have hroot : loads [root] = true := decide_eq_true hs
  -- only the last frame below the root gets a new sibling, so the induction goes down to it
  induction up with
  | nil => exact ⟨h, rfl⟩
  | cons fr up ih =>
    obtain ⟨hb, ha, hup⟩ := h
    cases up with
    | nil =>
      refine ⟨⟨hb, ?_, hup⟩, rfl⟩
      refine covered_append.2 ⟨ha, ?_⟩
      exact ⟨fun _ => .inl hroot, trivial, trivial⟩
    | cons fr' up =>
      obtain ⟨haround, hloads⟩ := ih hup
      have hbefore : fr.before.Covered ids (loads (fr' :: up ++ [root])) := hb
      have hafter : fr.after.Covered ids (loads (fr' :: up ++ [root])) := ha
      rw [← hloads] at hbefore hafter
      exact ⟨⟨hbefore, hafter, haround⟩, rfl⟩

/-- Every step of a climb leaves the conversions that it has met right below a source. -/
theorem Ascends.covered (h : Ascends .parse policy ups cs ups' cs' n)
    (hn : (fill ups cs).walk.Nodup) (hup : CoveredAround ids ups)
    (hcs : cs.Covered ids (loads ups)) :
    CoveredAround ids ups' ∧ cs'.Covered ids (loads ups') := by
  cases h with
  | @stay fr parent hmove up cs =>
    obtain ⟨hb, ha, hup⟩ := hup
    refine ⟨hup, covered_append.2 ⟨hb, fun ht => .inl ?_, hcs, ha⟩⟩
    exact decide_eq_true (Frame.source_of_stay hmove ht)
  | @join fr parent c hmove hj up cs =>
    obtain ⟨hb, ha, hup⟩ := hup
    have htag := Stage.tag_of_merge? hj.merged
    refine ⟨hup, ?_⟩
    rw [loads, hj.tag_eq] at hcs
    rw [loads] at hb ha ⊢
    rw [htag]
    exact covered_append.2 ⟨hb, covered_append.2 ⟨hcs, ha⟩⟩
  | @rise fr parent dims hmove hr hal up cs =>
    -- the stage that the conversion passes is none itself
    obtain ⟨-, -, hup⟩ := hup
    have hfr : fr.content.tag = .parse := by
      have := hr.handled
      revert this
      cases fr.content.tag <;> simp [Pass.handles]
    have hparent : parent.content.tag ≠ .parse := hfr ▸ hr.tag_ne.symm
    refine ⟨hup, fun ht => absurd ht hparent, ?_, trivial⟩
    rw [loads, hfr] at hcs
    rwa [decide_eq_false hr.not_source]
  | @absorb fr parent other types types' cs up hmove hfr ho hne =>
    -- its children go to its parent, which is no source: those that are conversions were waiting
    -- already
    obtain ⟨-, -, hns⟩ := Frame.parse_of_move hmove
    obtain ⟨hb, ha, hup⟩ := hup
    have hother : ∀ e ∈ (fill (fr :: parent :: up) cs).toList, e.1 = other → e.2.tag = .parse := by
      intro e he hid
      rw [content_eq_of_mem_toList hn ho he hid]
      rfl
    have hhole : (fr.before ++ (cs ++ fr.after)).Covered ids (loads (parent :: up)) := by
      rw [loads, hfr] at hcs
      rw [loads, decide_eq_false hns] at hb ha ⊢
      exact covered_append.2 ⟨hb, covered_append.2 ⟨hcs, ha⟩⟩
    refine ⟨hup.update (t := fr.close cs) hother, ?_⟩
    rw [loads_update (t := fr.close cs) hother, covered_update]
    · exact hhole
    · intro e he
      refine hother e (mem_toList_fill (parent :: up) ?_)
      simp only [Frame.close, toList_append, toList, List.mem_append, List.mem_cons] at he ⊢
      tauto
  | @relocate fr parent root types hmove hfr hs up cs =>
    obtain ⟨-, -, hns⟩ := Frame.parse_of_move hmove
    obtain ⟨hb, ha, hup⟩ := hup
    obtain ⟨haround, hloads⟩ :=
      coveredAround_withSibling (parent :: up) hs hup fr.id fr.content
    refine ⟨haround, ?_⟩
    rw [hloads]
    rw [loads, hfr] at hcs
    rw [List.cons_append]
    rw [loads, decide_eq_false hns] at hb ha ⊢
    exact covered_append.2 ⟨hb, covered_append.2 ⟨hcs, ha⟩⟩

/-- A climb that reaches the root leaves none of the conversions it has met uncovered. -/
theorem Climbs.covered (h : Climbs .parse policy ups cs f' n) (hn : (fill ups cs).walk.Nodup)
    (hup : CoveredAround ids ups) (hcs : cs.Covered ids (loads ups)) : f'.Covered ids true := by
  induction h with
  | done fr cs => exact covered_append.2 ⟨hup.1, fun _ => .inl rfl, hcs, hup.2.1⟩
  | step h _ ih =>
    obtain ⟨hup', hcs'⟩ := h.covered hn hup hcs
    exact ih (h.nodup hn) hup' hcs'

/-- After a sweep of its pass, every conversion stands below a source. -/
theorem Sweeps.covered (h : Sweeps .parse policy ids f f' n) (hf : f.Grounded)
    (hc : f.Covered ids true) : f'.Covered [] true := by
  induction h with
  | nil f => exact hc
  | gone h _ ih => exact ih hf (hc.of_notMem h)
  | @climb fr up cs ids g f' n m h _ ih =>
    have hg := h.grounded hf
    -- its name stands nowhere else, so nothing else waits for this climb
    obtain ⟨hup, hbefore, hcs, hafter⟩ := notMem_of_nodup_fill hf.nodup
    obtain ⟨⟨hb, ha, haround⟩, hhole⟩ := hc.of_fill
    refine ih hg (h.covered hf.nodup ?_ (hhole.of_notMem hcs))
    exact ⟨hb.of_notMem hbefore, ha.of_notMem hafter, haround.of_notMem hup⟩

/-- A conversion that is covered, and waits for no climb, stands where conversions do. -/
theorem Covered.loads_of_parse (h : (fill (fr :: up) cs).Covered [] true)
    (ht : fr.content.tag = .parse) : loads up = true := by
  obtain ⟨-, hclose⟩ := (show (fill up (fr.close cs)).Covered [] true from h).of_fill
  rw [Frame.close, covered_append] at hclose
  exact (hclose.2.1 ht).resolve_right (by simp)

/-- Where every conversion stands below a source, their pass has come to its end. -/
theorem Covered.settled (policy : FacetPolicy) (h : f.Covered [] true) : Settled .parse policy f := by
  rintro fr up cs rfl -
  have hmove {fr parent : Frame Stage}
      (hp : fr.content.tag = .parse → parent.content.tag = .source) :
      fr.move .parse policy parent = .stay := by
    by_cases ht : fr.content.tag = .parse
    · rw [Frame.move, Move.choose, if_pos (hp ht), ite_self]
    · rw [Frame.move, if_neg]
      revert ht
      cases fr.content.tag <;> simp [Pass.handles]
  -- along the way up, a conversion finds a source above it, and other stages are not moved
  induction up generalizing fr cs with
  | nil => exact .singleton fr
  | cons parent up ih =>
    exact .cons_cons (hmove fun ht => of_decide_eq_true (h.loads_of_parse ht))
      (ih parent (fr.close cs) h)

end Forest

namespace Flow

open Forest

variable {policy : FacetPolicy} {flow : Flow}

/-- The pass for conversions comes to its end within two sweeps, after which every conversion stands
    right below a source. -/
theorem runPass_parse (policy : FacetPolicy) {n : Nat} (hn : 2 ≤ n) (hf : flow.stages.Grounded) :
    ∃ r flow', runPass .parse policy n flow = (.ok r, flow') ∧ r ≤ 2 ∧
      flow'.stages.Covered [] true := by
  obtain ⟨n, rfl⟩ := Nat.exists_eq_add_of_le' hn
  obtain ⟨m, flow₁, hsweeps, -, hrun⟩ := settle_succ .parse policy hf
  have hcovered := hsweeps.covered hf (covered_of_leaves (List.Subset.refl _))
  obtain ⟨m', flow₂, hsweeps', -, hrun'⟩ := settle_succ .parse policy (hsweeps.grounded hf)
  rw [runPass, hrun]
  -- a first sweep without changes ends the pass, else the second one does
  by_cases hm : m = 0
  · exact ⟨_, _, if_pos hm, by omega, hcovered⟩
  · obtain ⟨hm', hsame⟩ := (hcovered.settled policy).sweeps hsweeps' fun _ h => h
    rw [if_neg hm, hrun', if_pos hm']
    exact ⟨_, _, rfl, by omega, hsame ▸ hcovered⟩

end Flow

end ChartPipeline
