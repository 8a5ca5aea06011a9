import ChartPipeline.Proofs.Settling
import Mathlib.Data.List.Infix

/-!
# Ways over which all passes run again

Each pass runs once and comes to its own end.  A later pass may move what an earlier one could not
pass, so when all passes run again, a stage may rise further than before, or join another one.  It
may also rise and be passed in its turn by what it has passed: two stages of which each may pass the
other, and the upper one is moved later, change places twice.  So the upper one gives way to the
lower one, for a while.

A way is loose where a stage can rise for good: all stages up to some point give way to it, and the
next one it joins, or passes without giving way in turn.  Running all passes again leaves a way as
it was exactly if it is not loose.

## Key results

- `Stage.givesWay_iff`: which kinds give way to which
- `Displaced.shift`: a move of a pass puts out of order only what has been given way to
- `Displaced.settle`: at its end a pass has put its own stages back in order
- `Rearranges.eq_iff`: which ways all passes leave as they are
-/

namespace ChartPipeline

/-- What becomes of a stage does not depend on the fields by which the one above groups. -/
theorem Move.choose_addDimensions {policy : FacetPolicy} {a b : Stage} {dims : List String}
    {alone : Bool} : choose policy b (a.addDimensions dims) alone = choose policy b a alone := by
  cases a <;> rfl

/-! ### Turns -/

/-- The place, among all passes, of the one that moves stages of a kind; the places of passes come
    before that of a kind that none of them moves. -/
def Tag.turn (t : Tag) : Nat := Pass.all.findIdx fun pass => pass.handles t

/-- The place of the pass that moves a stage. -/
def Stage.turn (a : Stage) : Nat := a.tag.turn

/-- The place of a pass. -/
def Pass.turn (pass : Pass) : Nat := Pass.all.idxOf pass

namespace Stage

variable {policy : FacetPolicy} {a b : Stage} {pass : Pass} {dims : List String}

/-- A stage has its turn with the pass that moves it. -/
theorem turn_of_handles (h : pass.handles a.tag = true) : a.turn = pass.turn := by
  rw [turn]
  generalize a.tag = t at h
  cases pass <;> cases t <;> first | rfl | exact absurd h (by simp [Pass.handles])

/-- A pass moves the stages that have its turn. -/
theorem handles_of_turn (h : a.turn = pass.turn) : pass.handles a.tag = true := by
  rw [turn] at h
  generalize a.tag = t at h
  revert h
  cases pass <;> cases t <;> decide

/-- Whether some pass moves a stage. -/
def IsMoved (a : Stage) : Prop := ∃ pass : Pass, pass.handles a.tag = true

/-- A stage is moved exactly if it has its turn with one of the seven passes. -/
theorem isMoved_iff : a.IsMoved ↔ a.turn < 7 := by
  constructor
  · rintro ⟨pass, hpass⟩
    rw [turn_of_handles hpass]
    cases pass <;> decide
  · intro h
    have hnodup : Pass.all.Nodup := by decide
    exact ⟨Pass.all[a.turn], handles_of_turn (hnodup.idxOf_getElem a.turn h).symm⟩

instance : Decidable a.IsMoved := decidable_of_iff _ isMoved_iff.symm

/-- Grouping by more fields leaves a stage its turn. -/
theorem turn_addDimensions (dims : List String) (a : Stage) :
    (a.addDimensions dims).turn = a.turn := by
  rw [turn, tag_addDimensions, turn]

/-- No more fields change nothing. -/
@[simp] theorem addDimensions_nil (a : Stage) : a.addDimensions [] = a := by
  cases a <;> rfl

/-! ### Giving way -/

/-- Whether a stage is of the kinds that pass each other: bins, time units and filters. -/
def interchanges (a : Stage) : Bool :=
  a.tag = .bin || a.tag = .timeUnit || a.tag = .nullFilter || a.tag = .filter

/-- Stages that interchange have their turns one after the other, but a calculation has one of
    these, too. -/
theorem interchanges_iff :
    a.interchanges = true ↔ 2 ≤ a.turn ∧ a.turn ≤ 5 ∧ a.tag ≠ .calculate := by
  rw [interchanges, turn]
  generalize a.tag = t
  cases t <;> decide

/-- Conversions are those with the last turn. -/
theorem parse_iff : a.tag = .parse ↔ a.turn = 6 := by
  rw [turn]
  generalize a.tag = t
  cases t <;> decide

/-- A source has no turn. -/
theorem not_source_of_turn (h : a.turn < 7) : a.tag ≠ .source := by
  rw [turn] at h
  intro ht
  rw [ht] at h
  exact absurd h (by decide)

/-- Only a facet makes a stage that passes it group by more fields. -/
theorem dims_of_passage (h : Move.passage? policy b a = some dims) (ha : a.turn < 7) :
    dims = [] := by
  unfold Move.passage? at h
  cases a with
  | facet => exact absurd ha (by simp only [turn, tag]; decide)
  | _ => grind

/-- What a stage that is no conversion passes, if it is moved itself, is a conversion or
    interchanges. -/
theorem interchanges_of_passage (h : Move.passage? policy b a = some dims) (hb : b.tag ≠ .parse)
    (ha : a.turn < 7) : a.tag = .parse ∨ a.interchanges = true := by
  unfold Move.passage? at h
  rw [if_neg hb] at h
  cases a with
  | parse => exact .inl rfl
  | filter | nullFilter | bin | timeUnit => exact .inr rfl
  | output | facet => exact absurd ha (by simp only [turn, tag]; decide)
  | _ => exact absurd h (by simp)

/-- Stages that interchange pass each other, or join. -/
theorem choose_interchanges (ha : a.interchanges = true) (hb : b.interchanges = true) :
    Move.choose policy b a true = if b.tag = a.tag then .join else .rise [] := by
  cases a <;> simp only [interchanges, tag, reduceCtorEq, decide_false, decide_true, Bool.or_false,
    Bool.or_true, Bool.false_eq_true] at ha <;>
  cases b <;> simp_all [interchanges, tag, Move.choose, Move.passage?, Tag.joins]

/-- Of two stages that interchange, the lower one does not stay. -/
theorem moves_interchanges (ha : a.interchanges = true) (hb : b.interchanges = true) :
    Move.choose policy b a true ≠ .stay := by
  rw [choose_interchanges ha hb]
  split <;> simp

/-- A calculated field stays under a filter. -/
theorem choose_calculate (hb : b.tag = .calculate) (ha : a.interchanges = true)
    (hturn : a.turn = 5) : Move.choose policy b a true = .stay := by
  cases a with
  | filter predicates =>
    have ht : (filter predicates).tag = .filter := rfl
    simp [Move.choose, Move.passage?, hb, ht]
  | bin | timeUnit | nullFilter => exact absurd hturn (by simp only [turn, tag]; decide)
  | _ => exact absurd ha (by simp [interchanges, tag])

/-- Every stage passes a conversion, or joins it. -/
theorem choose_below_parse (ha : a.tag = .parse) :
    Move.choose policy b a true = if b.tag = .parse then .join else .rise [] := by
  obtain ⟨types, rfl⟩ : ∃ types, a = .parse types := by
    cases a <;> simp [tag] at ha ⊢
  have hs : (Stage.parse types).tag ≠ .source := by simp [tag]
  split
  · next hb =>
    rw [Move.choose_eq_join, hb]
    exact ⟨hs, rfl, rfl⟩
  · next hb =>
    refine Move.choose_eq_rise.2 ⟨hs, fun h => hb h.1, ?_, rfl⟩
    rw [Move.passage?, if_neg hb]

/-- A conversion passes all stages but sources, or joins another one. -/
theorem choose_parse (hb : b.tag = .parse) (ha : a.tag ≠ .source) :
    Move.choose policy b a true = if a.tag = .parse then .join else .rise [] := by
  unfold Move.choose Move.passage?
  rw [if_neg ha, hb]
  by_cases hp : a.tag = .parse
  · simp [hp, Tag.joins]
  · rw [if_neg hp, if_neg (by simp [Ne.symm hp]), if_pos rfl]
    cases a <;> first | rfl | exact absurd rfl ha

/-- A stage gives way to one below it: that is moved earlier and rises above it, and later it rises
    back. -/
structure GivesWay (policy : FacetPolicy) (a b : Stage) : Prop where
  moved : a.IsMoved
  earlier : b.turn < a.turn
  rises : Move.choose policy b a true = .rise []
  back : Move.choose policy a b true = .rise []

/-- Conversions give way to all stages that another pass moves; besides, bins, time units and
    filters give way to those of them that are moved before. -/
theorem givesWay_iff : a.GivesWay policy b ↔
    a.turn = 6 ∧ b.turn < 6 ∨
      a.interchanges = true ∧ b.interchanges = true ∧ b.turn < a.turn := by
  constructor
  · rintro ⟨hmoved, hearlier, hrises, hback⟩
    rw [isMoved_iff] at hmoved
    obtain ⟨-, -, hrises, -⟩ := Move.choose_eq_rise.1 hrises
    obtain ⟨-, -, hback, -⟩ := Move.choose_eq_rise.1 hback
    -- a conversion is passed by everything; of other stages both passages say that they interchange
    by_cases ha : a.tag = .parse
    · rw [parse_iff] at ha
      exact .inl ⟨ha, ha ▸ hearlier⟩
    · have hb := interchanges_of_passage hback ha (Nat.lt_trans hearlier hmoved)
      have hne : b.tag ≠ .parse := by
        intro hp
        rw [parse_iff] at hp
        omega
      have ha' := interchanges_of_passage hrises hne hmoved
      exact .inr ⟨ha'.resolve_left ha, hb.resolve_left hne, hearlier⟩
  · rintro (⟨ha, hb⟩ | ⟨ha, hb, hlt⟩)
    · have hne : b.tag ≠ .parse := by rw [ne_eq, parse_iff]; omega
      rw [← parse_iff] at ha
      refine ⟨⟨.parse, by rw [ha]; rfl⟩, by rw [parse_iff.1 ha]; exact hb, ?_, ?_⟩
      · rw [choose_below_parse ha, if_neg hne]
      · rw [choose_parse ha (not_source_of_turn (by omega)), if_neg hne]
    · have hne : b.tag ≠ a.tag := by
        intro ht
        rw [turn, ht, turn] at hlt
        exact Nat.lt_irrefl _ hlt
      refine ⟨isMoved_iff.2 ?_, hlt, ?_, ?_⟩
      · have := (interchanges_iff.1 ha).2.1
        omega
      · rw [choose_interchanges ha hb, if_neg hne]
      · rw [choose_interchanges hb ha, if_neg (Ne.symm hne)]

instance : Decidable (a.GivesWay policy b) := decidable_of_iff _ givesWay_iff.symm

/-- A stage passes another one that is moved and does not join it without further grouping. -/
theorem choose_eq_rise_nil (hmove : Move.choose policy b a true ≠ .stay) (ha : a.turn < 7)
    (hne : b.tag ≠ a.tag) : Move.choose policy b a true = .rise [] := by
  cases h : Move.choose policy b a true with
  | stay => exact absurd h hmove
  | join => exact absurd (Move.choose_eq_join.1 h).2.1 hne
  | rise dims =>
    obtain ⟨-, -, hdims, -⟩ := Move.choose_eq_rise.1 h
    rw [dims_of_passage hdims ha]
  | relocate => exact absurd (Move.choose_eq_relocate.1 h).2.2.2.1 (by simp)

variable {c : Stage}

/-- What gives way to a stage also gives way to one that is moved no earlier, stays under that
    stage, and does not stay under itself. -/
theorem GivesWay.of_stay (h : a.GivesWay policy c) (hc : c.turn ≤ b.turn) (ha : b.turn ≤ a.turn)
    (hstay : Move.choose policy b c true = .stay) (hmove : Move.choose policy b a true ≠ .stay) :
    a.GivesWay policy b := by
  rw [givesWay_iff] at h ⊢
  -- conversions first, then stages that interchange
  rcases h with ⟨ha', hc'⟩ | ⟨ha', hc', -⟩
  · refine .inl ⟨ha', ?_⟩
    by_contra hb
    -- a conversion passes whatever is moved
    have hparse := parse_iff.2 (show b.turn = 6 by omega)
    rw [choose_parse hparse (not_source_of_turn (by omega))] at hstay
    split at hstay <;> exact absurd hstay (by simp)
  · obtain ⟨-, hle, hcalc⟩ := interchanges_iff.1 ha'
    obtain ⟨hge, -, -⟩ := interchanges_iff.1 hc'
    by_cases hb : b.interchanges = true
    · exact absurd hstay (moves_interchanges hc' hb)
    · -- a calculated field stays under a filter
      have hb' : b.tag = .calculate := by
        by_contra hne
        exact hb (interchanges_iff.2 ⟨by omega, by omega, hne⟩)
      have hturn : b.turn = 5 := congrArg Tag.turn hb'
      exact absurd (choose_calculate hb' ha' (by omega)) hmove

/-- A stage does not stay under one that is moved later and gives way to one moved no later. -/
theorem GivesWay.moves (h : c.GivesWay policy a) (ha : a.turn ≤ b.turn) (hb : b.turn < c.turn) :
    Move.choose policy b c true ≠ .stay := by
  rcases givesWay_iff.1 h with ⟨hc, -⟩ | ⟨hc, ha', -⟩
  · rw [choose_below_parse (parse_iff.2 hc)]
    split <;> simp
  · obtain ⟨-, hle, -⟩ := interchanges_iff.1 hc
    obtain ⟨hge, -, -⟩ := interchanges_iff.1 ha'
    have hcalc : b.tag ≠ .calculate := by
      intro ht
      have hturn : b.turn = 5 := congrArg Tag.turn ht
      omega
    exact moves_interchanges hc (interchanges_iff.2 ⟨by omega, by omega, hcalc⟩)

end Stage

namespace Forest

/-! ### Runs of the passes along a way -/

/-- One move of a pass along a way: a stage joins the one before it, or passes it. -/
inductive Shifts (pass : Pass) (policy : FacetPolicy) :
    List (Nat × Stage) → List (Nat × Stage) → Prop
  | join {a b c} (h : Joins pass a b c) (l p i r) :
      Shifts pass policy (l ++ (p, a) :: (i, b) :: r) (l ++ (p, c) :: r)
  | rise {a b dims} (h : Rises pass policy a b dims) (l p i r) :
      Shifts pass policy (l ++ (p, a) :: (i, b) :: r)
        (l ++ (i, b.addDimensions dims) :: (p, a) :: r)

/-- What passes make of a way one after the other, each until its stages stay. -/
inductive Rearranges (policy : FacetPolicy) :
    List Pass → List (Nat × Stage) → List (Nat × Stage) → Prop
  | nil (w) : Rearranges policy [] w w
  | cons {pass passes w w' w''} (hr : Relation.ReflTransGen (Shifts pass policy) w w')
      (hs : Stays pass policy w') (rest : Rearranges policy passes w' w'') :
      Rearranges policy (pass :: passes) w w''

/-- Whether a stage can rise for good: what is between gives way to it, and then comes one that it
    joins, or passes without giving way in turn. -/
def Loose (policy : FacetPolicy) (w : List (Nat × Stage)) : Prop :=
  ∃ l x m y r, w = l ++ x :: (m ++ y :: r) ∧ y.2.IsMoved ∧
    (∀ z ∈ m, z.2.GivesWay policy y.2) ∧
    Move.choose policy y.2 x.2 true ≠ .stay ∧ ¬ x.2.GivesWay policy y.2

variable {policy : FacetPolicy} {pass : Pass} {a b : Stage} {dims : List String}
  {v v' w l r : List (Nat × Stage)} {x y z : Nat × Stage} {lo hi p : Nat}

/-- Whether a stage can rise for good along a way that is read upwards. -/
def canRise (policy : FacetPolicy) (b : Stage) : List (Nat × Stage) → Bool
  | [] => false
  | x :: up =>
    if x.2.GivesWay policy b then canRise policy b up
    else Move.choose policy b x.2 true ≠ .stay

/-- What can rise for good passes stages that give way, and then one that it joins or passes without
    giving way. -/
theorem canRise_iff {up : List (Nat × Stage)} : canRise policy b up = true ↔
    ∃ m x l, up = m ++ x :: l ∧ (∀ z ∈ m, z.2.GivesWay policy b) ∧
      Move.choose policy b x.2 true ≠ .stay ∧ ¬ x.2.GivesWay policy b := by
  -- by induction on what is above: the first stage that does not give way decides
  induction up with
  | nil => simp [canRise]
  | cons e up ih =>
    rw [canRise]
    constructor
    · intro h
      split at h
      · next he =>
        obtain ⟨m, x, l, rfl, hm, hx⟩ := ih.1 h
        exact ⟨e :: m, x, l, rfl, List.forall_mem_cons.2 ⟨he, hm⟩, hx⟩
      · next he => exact ⟨[], e, up, rfl, by simp, of_decide_eq_true h, he⟩
    · rintro ⟨m, x, l, heq, hm, hmove, hx⟩
      cases m with
      | nil =>
        obtain ⟨rfl, rfl⟩ := List.cons.inj heq
        rw [if_neg hx]
        exact decide_eq_true hmove
      | cons e' m =>
        obtain ⟨rfl, rfl⟩ := List.cons.inj heq
        obtain ⟨he, hm⟩ := List.forall_mem_cons.1 hm
        rw [if_pos he]
        exact ih.2 ⟨m, x, l, rfl, hm, hmove, hx⟩

/-- A way is loose exactly if, read upwards from some stage that is moved, that stage can rise for
    good. -/
theorem loose_iff : Loose policy w ↔
    ∃ s ∈ w.reverse.tails, ∃ y ∈ s.head?, y.2.IsMoved ∧ canRise policy y.2 s.tail = true := by
  constructor
  · rintro ⟨l, x, m, y, r, rfl, hy, hm, hx⟩
    refine ⟨y :: (m.reverse ++ x :: l.reverse), ?_, y, rfl, hy, ?_⟩
    · rw [List.mem_tails]
      exact ⟨r.reverse, by simp⟩
    · exact canRise_iff.2 ⟨m.reverse, x, l.reverse, rfl, by simpa using hm, hx⟩
  · rintro ⟨s, hs, y, hy, hmoved, hrise⟩
    obtain ⟨up, rfl⟩ := List.head?_eq_some_iff.1 hy
    obtain ⟨m, x, l, heq, hm, hx⟩ := canRise_iff.1 hrise
    obtain rfl : up = m ++ x :: l := heq
    obtain ⟨r, hr⟩ := (List.mem_tails _ _).1 hs
    refine ⟨l.reverse, x, m.reverse, y, r.reverse, ?_, hmoved, by simpa using hm, hx⟩
    rw [← List.reverse_reverse w, ← hr]
    simp

instance : Decidable (Loose policy w) := decidable_of_iff _ loose_iff.symm

/-- A stage that a pass joins to the one above it was to be joined. -/
theorem choose_of_joins {c : Stage} (h : Joins pass a b c) :
    Move.choose policy b a true = .join := by
  have hh := h.handled
  have ht := h.tag_eq
  have hm := h.merged
  refine Move.choose_eq_join.2 ⟨?_, ht, ?_⟩
  · exact fun hs => Pass.not_source hh (ht.trans hs)
  · cases a with
    | positiveFilter =>
      rw [ht] at hh
      cases pass <;> exact absurd hh (by simp [Stage.tag, Pass.handles])
    | _ => cases b <;> simp_all [Stage.tag, Stage.merge?, Tag.joins]

/-- A stage that a pass moves above another one was to be moved so. -/
theorem choose_of_rises (h : Rises pass policy a b dims) :
    Move.choose policy b a true = .rise dims :=
  Move.choose_eq_rise.2 ⟨h.not_source, fun ht => h.tag_ne ht.1, h.passage, rfl⟩

/-- A move makes a way no longer. -/
theorem Shifts.length_le (h : Shifts pass policy v v') : v'.length ≤ v.length := by
  cases h <;> simp

/-- Nor do several moves. -/
theorem length_le_of_shifts (h : Relation.ReflTransGen (Shifts pass policy) v v') :
    v'.length ≤ v.length := by
  induction h with
  | refl => exact Nat.le_refl _
  | tail _ hs ih => exact Nat.le_trans hs.length_le ih

/-! ### The order of a way -/

/-- The place of a name on a way. -/
def rank (w : List (Nat × Stage)) (e : Nat × Stage) : Nat := (w.map Prod.fst).idxOf e.1

/-- Along a way the ranks go up. -/
theorem pairwise_rank (hn : (w.map Prod.fst).Nodup) :
    w.Pairwise fun a b => rank w a < rank w b := by
  rw [List.pairwise_iff_getElem]
  intro i j hi hj hij
  have hrank (k : Nat) (hk : k < w.length) : rank w w[k] = k := by
    have := hn.idxOf_getElem k (by simpa using hk)
    rwa [List.getElem_map] at this
  rwa [hrank, hrank]

/-- What comes first on a way has the lower rank. -/
theorem rank_lt (hn : (w.map Prod.fst).Nodup) (hw : w = l ++ r) (hx : x ∈ l) (hy : y ∈ r) :
    rank w x < rank w y := by
  have h := pairwise_rank hn
  generalize rank w = f at h ⊢
  subst hw
  exact (List.pairwise_append.1 h).2.2 x hx y hy

/-- Stages of one rank are the same. -/
theorem eq_of_rank (hn : (w.map Prod.fst).Nodup) (hx : x ∈ w) (hy : y ∈ w)
    (h : rank w x = rank w y) : x = y := by
  have hid : x.1 = y.1 := (List.idxOf_inj (List.mem_map_of_mem hx)).1 h
  exact List.inj_on_of_nodup_map hn hx hy hid

/-- Of two stages on a way the one with the lower rank comes first. -/
theorem exists_of_rank_lt (hn : (w.map Prod.fst).Nodup) (hx : x ∈ w) (hy : y ∈ w)
    (h : rank w x < rank w y) : ∃ l m r, w = l ++ x :: (m ++ y :: r) := by
  obtain ⟨l, r, hw⟩ := List.append_of_mem hx
  have hr : y ∈ r := by
    rcases List.mem_append.1 (hw ▸ hy) with hy | hy
    · have := rank_lt hn hw hy List.mem_cons_self
      omega
    · rcases List.mem_cons.1 hy with rfl | hy
      · exact absurd h (Nat.lt_irrefl _)
      · exact hy
  obtain ⟨m, r, rfl⟩ := List.append_of_mem hr
  exact ⟨l, m, r, hw⟩

section Pairwise

variable {R : Nat × Stage → Nat × Stage → Prop} {y' : Nat × Stage}

/-- Neighbours may be exchanged where they are related the other way round, too. -/
theorem pairwise_exchange (h : (l ++ x :: y :: r).Pairwise R) (hyx : R y x) :
    (l ++ y :: x :: r).Pairwise R := by
  simp only [List.pairwise_append, List.pairwise_cons, List.mem_cons] at h ⊢
  obtain ⟨hl, ⟨hx, hy, hr⟩, hlr⟩ := h
  refine ⟨hl, ⟨?_, fun e he => hx e (.inr he), hr⟩, fun e he e' he' => ?_⟩
  · rintro e (rfl | he)
    · exact hyx
    · exact hy e he
  · rcases he' with rfl | rfl | he'
    · exact hlr e he e' (.inr (.inl rfl))
    · exact hlr e he e' (.inl rfl)
    · exact hlr e he e' (.inr (.inr he'))

/-- A member may be replaced by one with the same relations. -/
theorem pairwise_replace (h : (l ++ y :: r).Pairwise R) (hl : ∀ e, R e y → R e y')
    (hr : ∀ e, R y e → R y' e) : (l ++ y' :: r).Pairwise R := by
  simp only [List.pairwise_append, List.pairwise_cons, List.mem_cons] at h ⊢
  obtain ⟨hll, ⟨hy, hrr⟩, hlr⟩ := h
  refine ⟨hll, ⟨fun e he => hr e (hy e he), hrr⟩, fun e he e' he' => ?_⟩
  rcases he' with rfl | he'
  · exact hl e (hlr e he y (.inl rfl))
  · exact hlr e he e' (.inr he')

end Pairwise

/-! ### Out of order for a while -/

/-- A way with the stages of `w`, some of which have been passed by such as they give way to: those
    were moved before `lo`, and the others will be from `hi` on. -/
structure Displaced (policy : FacetPolicy) (w : List (Nat × Stage)) (lo hi : Nat)
    (v : List (Nat × Stage)) : Prop where
  perm : v.Perm w
  pairs : v.Pairwise fun a b => rank w a < rank w b ∨
    b.2.GivesWay policy a.2 ∧ a.2.turn < lo ∧ hi ≤ b.2.turn

/-- A way by itself has nothing out of order. -/
theorem displaced_self (hn : (w.map Prod.fst).Nodup) : Displaced policy w lo hi w :=
  ⟨.refl w, (pairwise_rank hn).imp fun h => .inl h⟩

/-- What was moved before a pass was moved before a later one. -/
theorem Displaced.mono {lo' : Nat} (h : Displaced policy w lo hi v) (hlo : lo ≤ lo') :
    Displaced policy w lo' hi v :=
  ⟨h.perm, h.pairs.imp fun h => h.imp_right fun h => ⟨h.1, Nat.lt_of_lt_of_le h.2.1 hlo, h.2.2⟩⟩

/-- What stands out of order has been given way to. -/
theorem Displaced.passed (h : Displaced policy w lo hi v) (hv : v = l ++ r) (hx : x ∈ l)
    (hy : y ∈ r) (hno : ¬ rank w x < rank w y) :
    y.2.GivesWay policy x.2 ∧ x.2.turn < lo ∧ hi ≤ y.2.turn :=
  ((List.pairwise_append.1 (hv ▸ h.pairs)).2.2 x hx y hy).resolve_left hno

/-- Once all passes have run, nothing is out of order. -/
theorem Displaced.eq (h : Displaced policy w lo 7 v) (hn : (w.map Prod.fst).Nodup) : v = w := by
  have hv : v.Pairwise fun a b => rank w a < rank w b := by
    refine h.pairs.imp fun hab => hab.resolve_right ?_
    rintro ⟨hgives, -, hle⟩
    exact absurd (Stage.isMoved_iff.1 hgives.moved) (by omega)
  -- both ways have the same stages in the order of their ranks
  refine h.perm.eq_of_pairwise (fun a b _ _ hab hba => ?_) hv (pairwise_rank hn)
  omega

/-- The last member of a list of which something does not hold. -/
theorem exists_last_of_not_forall {α : Type} {P : α → Prop} {m : List α} (h : ¬ ∀ e ∈ m, P e) :
    ∃ m₁ e m₂, m = m₁ ++ e :: m₂ ∧ ¬ P e ∧ ∀ e' ∈ m₂, P e' := by
  induction m with
  | nil => exact absurd (by simp) h
  | cons e m ih =>
    by_cases hm : ∀ e ∈ m, P e
    · exact ⟨[], e, m, rfl, fun he => h (List.forall_mem_cons.2 ⟨he, hm⟩), hm⟩
    · obtain ⟨m₁, e', m₂, rfl, h'⟩ := ih hm
      exact ⟨e :: m₁, e', m₂, rfl, h'⟩

/-- On a way that is not loose, a stage passes those only that give way to it. -/
theorem Displaced.givesWay (h : Displaced policy w (p + 1) p (l ++ x :: y :: r))
    (hn : (w.map Prod.fst).Nodup) (hw : ¬ Loose policy w) (hy : y.2.turn = p)
    (hmoved : y.2.IsMoved) (hmove : Move.choose policy y.2 x.2 true ≠ .stay)
    (hlt : rank w x < rank w y) : x.2.GivesWay policy y.2 := by
  obtain ⟨l₁, m, r₁, hw₁⟩ := exists_of_rank_lt hn (h.perm.mem_iff.1 (by simp))
    (h.perm.mem_iff.1 (by simp)) hlt
  -- if all between give way, so does this one, or the strand would be loose
  by_cases hm : ∀ z ∈ m, z.2.GivesWay policy y.2
  · by_contra hno
    exact hw ⟨l₁, x, m, y, r₁, hw₁, hmoved, hm, hmove, hno⟩
  · -- the stage stays under the next one between that does not give way
    obtain ⟨m₁, z, m₂, rfl, hz, hm₂⟩ := exists_last_of_not_forall hm
    have hw₂ : w = l₁ ++ x :: m₁ ++ z :: (m₂ ++ y :: r₁) := by simp [hw₁]
    have hstay : Move.choose policy y.2 z.2 true = .stay := by
      by_contra hno
      exact hw ⟨l₁ ++ x :: m₁, z, m₂, y, r₁, hw₂, hmoved, hm₂, hno, hz⟩
    have hxz : rank w x < rank w z := rank_lt hn hw₂ (by simp) (by simp)
    have hzy : rank w z < rank w y :=
      rank_lt hn (hw₂.trans (List.append_cons _ z _)) (by simp) (by simp)
    have hzv : z ∈ l ++ x :: y :: r := h.perm.mem_iff.2 (by simp [hw₂])
    simp only [List.mem_append, List.mem_cons] at hzv
    rcases hzv with hz' | rfl | rfl | hz'
    · obtain ⟨hgives, hlo, hhi⟩ := h.passed rfl hz' List.mem_cons_self (by omega)
      exact hgives.of_stay (by omega) (by omega) hstay hmove
    · omega
    · omega
    · have hv : l ++ x :: y :: r = l ++ [x, y] ++ r := by simp
      exact absurd (h.passed hv (by simp) hz' (by omega)).1 hz

/-- A way from which the passes from `q` on may come back to `w`: what is out of order may pass. -/
structure Returns (policy : FacetPolicy) (w : List (Nat × Stage)) (q : Nat)
    (v : List (Nat × Stage)) : Prop where
  length_le : w.length ≤ v.length
  pairs : v.Pairwise fun a b => rank w a < rank w b ∨
    q ≤ b.2.turn ∧ b.2.turn < 7 ∧ Move.choose policy b.2 a.2 true ≠ .stay

/-- A way comes back to itself. -/
theorem returns_self (hn : (w.map Prod.fst).Nodup) : Returns policy w p w :=
  ⟨Nat.le_refl _, (pairwise_rank hn).imp fun h => .inl h⟩

/-- A way that later passes bring back is one that all from an earlier one on bring back. -/
theorem Returns.mono {q : Nat} (h : Returns policy w q v) (hq : p ≤ q) : Returns policy w p v :=
  ⟨h.length_le, h.pairs.imp fun h => h.imp_right fun h => ⟨Nat.le_trans hq h.1, h.2⟩⟩

/-- What a move has come from. -/
theorem Returns.of_shifts (h : Returns policy w pass.turn v') (hs : Shifts pass policy v v')
    (hv : v.length ≤ w.length) : Returns policy w pass.turn v := by
  obtain ⟨hle, hpairs⟩ := h
  refine ⟨Nat.le_trans hle hs.length_le, ?_⟩
  cases hs with
  | join h l p i r =>
    -- nothing makes a way longer again
    simp only [List.length_append, List.length_cons] at hv hle
    omega
  | @rise a b dims h l p i r =>
    have htag := Stage.tag_addDimensions dims b
    have hturn := Stage.turn_addDimensions dims b
    have hpairs' : (l ++ (i, b) :: (p, a) :: r).Pairwise _ := pairwise_replace hpairs
      (fun e he => by simpa only [rank, hturn, Move.choose_congr htag] using he)
      (fun e he => by simpa only [rank, Move.choose_addDimensions] using he)
    refine pairwise_exchange hpairs' (.inr ⟨?_, ?_, ?_⟩)
    · exact Nat.le_of_eq (Stage.turn_of_handles h.handled).symm
    · exact Stage.isMoved_iff.1 ⟨pass, h.handled⟩
    · simp [choose_of_rises h]

/-- So it is with several moves. -/
theorem Returns.of_star (hs : Relation.ReflTransGen (Shifts pass policy) v v')
    (h : Returns policy w pass.turn v') (hv : v.length ≤ w.length) :
    Returns policy w pass.turn v := by
  -- from the last move to the first, as it is the end that is known to come back
  induction hs using Relation.ReflTransGen.head_induction_on with
  | refl => exact h
  | head hs _ ih => exact (ih (Nat.le_trans hs.length_le hv)).of_shifts hs hv

/-- A stage that has passed another one, and is to be passed back, was given way to. -/
theorem Returns.givesWay {i : Nat}
    (h : Returns policy w pass.turn (l ++ (i, b.addDimensions dims) :: (p, a) :: r))
    (hr : Rises pass policy a b dims) (hlt : rank w (p, a) < rank w (i, b)) :
    a.GivesWay policy b := by
  obtain ⟨-, hpair, -⟩ := List.pairwise_append.1 h.pairs
  have hpair := (List.pairwise_cons.1 hpair).1 _ List.mem_cons_self
  obtain ⟨hle, hmoved, hback⟩ := hpair.resolve_left (Nat.not_lt.2 (Nat.le_of_lt hlt))
  simp only [Move.choose_addDimensions] at hle hmoved hback
  have hb := Stage.turn_of_handles hr.handled
  have hne : a.turn ≠ pass.turn := fun he =>
    absurd (Stage.handles_of_turn he) (by simp [hr.not_handles])
  have hdims := Stage.dims_of_passage hr.passage hmoved
  refine ⟨Stage.isMoved_iff.2 hmoved, by omega, hdims ▸ choose_of_rises hr, ?_⟩
  exact Stage.choose_eq_rise_nil hback (Stage.isMoved_iff.1 ⟨pass, hr.handled⟩) hr.tag_ne.symm

/-- A move keeps stages out of order only for a while, where the way is not loose or all is to come
    back. -/
theorem Displaced.shift (h : Displaced policy w (pass.turn + 1) pass.turn v)
    (hn : (w.map Prod.fst).Nodup) (hs : Shifts pass policy v v')
    (hgood : ¬ Loose policy w ∨ Returns policy w pass.turn v') :
    Displaced policy w (pass.turn + 1) pass.turn v' := by
  have hpair (l r : List (Nat × Stage)) (x y : Nat × Stage) (hv : v = l ++ x :: y :: r)
      (hno : ¬ rank w x < rank w y) : y.2.GivesWay policy x.2 :=
    (h.passed (hv.trans (List.append_cons l x _)) List.mem_concat_self List.mem_cons_self hno).1
  -- a join would make it shorter; an exchange turns a pair round or back
  cases hs with
  | @join a b c hj l p i r =>
    have hjoin := @choose_of_joins policy pass a b c hj
    rcases hgood with hw | ⟨hle, -⟩
    · -- stages that join never pass each other
      have hrise : Move.choose policy b a true = .rise [] := by
        by_cases hlt : rank w (p, a) < rank w (i, b)
        · exact (h.givesWay hn hw (Stage.turn_of_handles hj.handled) ⟨pass, hj.handled⟩
            (by simp [hjoin]) hlt).rises
        · exact (hpair l r (p, a) (i, b) rfl hlt).back
      exact absurd (hjoin.symm.trans hrise) (by simp)
    · have hlength := h.perm.length_eq
      simp only [List.length_append, List.length_cons] at hle hlength
      omega
  | @rise a b dims hr l p i r =>
    have hrise := choose_of_rises hr
    have hturn := Stage.turn_of_handles hr.handled
    have hgives (hlt : rank w (p, a) < rank w (i, b)) : a.GivesWay policy b := by
      rcases hgood with hw | hreturns
      · exact h.givesWay hn hw hturn ⟨pass, hr.handled⟩ (by simp [hrise]) hlt
      · exact hreturns.givesWay hr hlt
    obtain rfl : dims = [] := by
      have hnil : Move.choose policy b a true = .rise [] := by
        by_cases hlt : rank w (p, a) < rank w (i, b)
        · exact (hgives hlt).rises
        · exact (hpair l r (p, a) (i, b) rfl hlt).back
      simpa [hrise] using hnil
    rw [Stage.addDimensions_nil]
    refine ⟨((List.Perm.swap _ _ r).append_left l).trans h.perm, pairwise_exchange h.pairs ?_⟩
    rcases Nat.lt_trichotomy (rank w (i, b)) (rank w (p, a)) with hlt | heq | hlt
    · exact .inl hlt
    · have := eq_of_rank hn (h.perm.mem_iff.1 (by simp)) (h.perm.mem_iff.1 (by simp)) heq
      exact absurd (congrArg (fun e => e.2.tag) this) hr.tag_ne
    · have hearlier := (hgives hlt).earlier
      exact .inr ⟨hgives hlt, by simp only; omega, by simp only; omega⟩

/-- Nor do several moves of a pass, one after the other. -/
theorem Displaced.shifts (h : Displaced policy w (pass.turn + 1) pass.turn v)
    (hn : (w.map Prod.fst).Nodup) (hs : Relation.ReflTransGen (Shifts pass policy) v v')
    (hgood : ¬ Loose policy w ∨ Returns policy w pass.turn v') :
    Displaced policy w (pass.turn + 1) pass.turn v' := by
  induction hs using Relation.ReflTransGen.head_induction_on with
  | refl => exact h
  | head hstep hs ih =>
    have hlength := h.perm.length_eq
    have hle := hstep.length_le
    exact ih (h.shift hn hstep (hgood.imp_right fun hr => hr.of_star hs (by omega)))

/-- Once a pass has come to its end, what stands above a stage that it moves is in order. -/
theorem Displaced.rank_lt_of_stays (h : Displaced policy w (pass.turn + 1) pass.turn v)
    (hs : Stays pass policy v) (hv : v = l ++ y :: r) (hy : y.2.turn = pass.turn) :
    ∀ x ∈ l, rank w x < rank w y := by
  -- from the next stage above on: it is in order, and whatever is further up and is not would make
  -- it move
  induction l using List.reverseRecOn generalizing r y with
  | nil => simp
  | append_singleton l z ih =>
    have hstay : Move.choose policy y.2 z.2 true = .stay := by
      rw [Stays, hv, List.append_assoc] at hs
      exact (List.isChain_cons_cons.1 hs.right_of_append).1 (Stage.handles_of_turn hy)
    have hz : rank w z < rank w y := by
      by_contra hno
      have hgives := (h.passed hv (List.mem_concat_self) List.mem_cons_self hno).1
      exact absurd (hgives.back.symm.trans hstay) (by simp)
    intro x hx
    rcases List.mem_append.1 hx with hx | hx
    · by_contra hno
      have hv' : v = l ++ z :: y :: r := by simp [hv]
      obtain ⟨hxy, hlo, -⟩ := h.passed hv' hx (by simp) hno
      obtain ⟨hxz, -, hhi⟩ := h.passed hv' hx List.mem_cons_self (by omega)
      rcases Nat.lt_or_eq_of_le hhi with hlt | heq
      · -- the stage would move under the one before it
        exact hxz.moves (by omega) (by omega) hstay
      · have := ih hv' heq.symm x hx
        omega
    · rwa [List.mem_singleton.1 hx]

/-- Once a pass has come to its end, its stages are not out of order for now. -/
theorem Displaced.settle (h : Displaced policy w (pass.turn + 1) pass.turn v)
    (hs : Stays pass policy v) : Displaced policy w (pass.turn + 1) (pass.turn + 1) v := by
  refine ⟨h.perm, List.pairwise_iff_forall_sublist.2 fun {a b} hab => ?_⟩
  rcases List.pairwise_iff_forall_sublist.1 h.pairs hab with hlt | ⟨hgives, hlo, hhi⟩
  · exact .inl hlt
  · rcases Nat.lt_or_eq_of_le hhi with hlt | heq
    · exact .inr ⟨hgives, hlo, hlt⟩
    · obtain ⟨l, r, hv, ha, hb⟩ := List.cons_sublist_iff.1 hab
      obtain ⟨m, r, rfl⟩ := List.append_of_mem (List.singleton_sublist.1 hb)
      have hv' : v = l ++ m ++ b :: r := by simp [hv]
      exact .inl (h.rank_lt_of_stays hs hv' heq.symm a (List.mem_append_left m ha))

/-- What passes bring back was to come back before each of them. -/
theorem Returns.of_rearranges {passes : List Pass} (h : Rearranges policy passes v v')
    (hpasses : passes.map Pass.turn = List.range' p passes.length)
    (hreturns : Returns policy w (p + passes.length) v') (hv : v.length ≤ w.length) :
    Returns policy w p v := by
  induction h generalizing p with
  | nil v => exact hreturns
  | @cons pass passes v u v' hr hs rest ih =>
    rw [List.map_cons, List.length_cons, List.range'_succ] at hpasses
    obtain ⟨rfl, hpasses⟩ := List.cons.inj hpasses
    rw [List.length_cons, Nat.add_comm passes.length, ← Nat.add_assoc] at hreturns
    -- the later passes first, as it is their end that comes back
    have hu := ih hpasses hreturns (Nat.le_trans (length_le_of_shifts hr) hv)
    exact (hu.mono (Nat.le_succ _)).of_star hr hv

/-- All passes, one after the other, leave a way that is not loose, or comes back, as it was; at the
    end of each, its stages stay. -/
theorem Displaced.rearranges {passes : List Pass} (h : Rearranges policy passes v v')
    (hpasses : passes.map Pass.turn = List.range' p passes.length)
    (hv : Displaced policy w p p v) (hn : (w.map Prod.fst).Nodup)
    (hgood : ¬ Loose policy w ∨ Returns policy w (p + passes.length) v') :
    Displaced policy w (p + passes.length) (p + passes.length) v' ∧
      ∀ pass ∈ passes, ∃ u, Stays pass policy u ∧
        Displaced policy w (pass.turn + 1) (pass.turn + 1) u := by
  induction h generalizing p with
  | nil v => exact ⟨hv, by simp⟩
  | @cons pass passes v u v' hr hs rest ih =>
    rw [List.map_cons, List.length_cons, List.range'_succ] at hpasses
    obtain ⟨rfl, hpasses⟩ := List.cons.inj hpasses
    rw [List.length_cons, Nat.add_comm passes.length, ← Nat.add_assoc] at hgood ⊢
    have hlength := length_le_of_shifts hr
    rw [hv.perm.length_eq] at hlength
    -- what comes back at the end of all passes comes back from where this one ends
    have hback : ¬ Loose policy w ∨ Returns policy w pass.turn u := hgood.imp_right fun hr =>
      (Returns.of_rearranges rest hpasses hr hlength).mono (Nat.le_succ _)
    have hu := ((hv.mono (Nat.le_succ _)).shifts hn hr hback).settle hs
    obtain ⟨hv', hends⟩ := ih hpasses hu hgood
    exact ⟨hv', List.forall_mem_cons.2 ⟨⟨u, hs, hu⟩, hends⟩⟩

/-- At the end of its pass, a stage that could rise for good has done so. -/
theorem Displaced.not_stays {m : List (Nat × Stage)}
    (h : Displaced policy w (pass.turn + 1) (pass.turn + 1) v) (hn : (w.map Prod.fst).Nodup)
    (hw : w = l ++ x :: (m ++ y :: r)) (hy : pass.handles y.2.tag = true)
    (hm : ∀ z ∈ m, z.2.GivesWay policy y.2) (hmove : Move.choose policy y.2 x.2 true ≠ .stay)
    (hno : ¬ x.2.GivesWay policy y.2) : ¬ Stays pass policy v := by
  intro hs
  have hturn := Stage.turn_of_handles hy
  have hxy : rank w x < rank w y :=
    rank_lt hn (hw.trans (List.append_cons _ x _)) (by simp) (by simp)
  obtain ⟨l₁, r₁, rfl⟩ := List.append_of_mem (h.perm.mem_iff.2 (show y ∈ w by simp [hw]))
  have hx : x ∈ l₁ := by
    rcases List.mem_append.1 (h.perm.mem_iff.2 (show x ∈ w by simp [hw])) with hx | hx
    · exact hx
    · rcases List.mem_cons.1 hx with rfl | hx
      · omega
      · have hv : l₁ ++ y :: r₁ = l₁ ++ [y] ++ r₁ := List.append_cons l₁ y r₁
        exact absurd (h.passed hv List.mem_concat_self hx (by omega)).1 hno
  -- the one directly above the stage at that time
  obtain rfl | ⟨l₂, c, rfl⟩ := List.eq_nil_or_concat' l₁
  · exact absurd hx (by simp)
  have hstay : Move.choose policy y.2 c.2 true = .stay := by
    rw [Stays, List.append_assoc] at hs
    exact (List.isChain_cons_cons.1 hs.right_of_append).1 hy
  have hcy : rank w c < rank w y := by
    by_contra hlt
    have := (h.passed rfl List.mem_concat_self List.mem_cons_self hlt).2.2
    omega
  have hc : c ∈ w := h.perm.mem_iff.1 (by simp)
  rw [hw] at hc
  simp only [List.mem_append, List.mem_cons] at hc
  rcases hc with hc | rfl | hc | rfl | hc
  · -- the stage that could be joined or passed has gone up past it, and it will go up again
    have hcx : rank w c < rank w x := rank_lt hn hw hc List.mem_cons_self
    have hx₂ : x ∈ l₂ := by
      rcases List.mem_append.1 hx with hx | hx
      · exact hx
      · rw [List.mem_singleton.1 hx] at hcx
        exact absurd hcx (Nat.lt_irrefl _)
    obtain ⟨hgives, hlo, hhi⟩ := h.passed (List.append_cons l₂ c (y :: r₁)).symm hx₂
      List.mem_cons_self (by omega)
    exact hgives.moves (by omega) (by omega) hstay
  · exact hmove hstay
  · exact absurd ((hm c hc).rises.symm.trans hstay) (by simp)
  · exact absurd hcy (Nat.lt_irrefl _)
  · have hw' : w = (l ++ x :: m ++ [y]) ++ r := by simp [hw]
    have := rank_lt hn hw' List.mem_concat_self hc
    omega

/-- All passes leave a way exactly as it was if it is not loose. -/
theorem Rearranges.eq_iff (h : Rearranges policy Pass.all w v) (hn : (w.map Prod.fst).Nodup) :
    v = w ↔ ¬ Loose policy w := by
  have hturns : Pass.all.map Pass.turn = List.range' 0 Pass.all.length := by decide
  constructor
  -- at the end of its own pass, the stage that can rise for good would not have stayed
  · rintro rfl ⟨l, x, m, y, r, hw, hmoved, hm, hmove, hno⟩
    obtain ⟨-, hends⟩ := Displaced.rearranges h hturns (displaced_self hn) hn
      (.inr (returns_self hn))
    obtain ⟨pass, hpass⟩ := hmoved
    obtain ⟨u, hs, hu⟩ := hends pass (by cases pass <;> decide)
    exact hu.not_stays hn hw hpass hm hmove hno hs
  · intro hw
    exact (Displaced.rearranges h hturns (displaced_self hn) hn (.inl hw)).1.eq hn

-- a null filter that a calculation has kept back passes outputs that the calculation has passed
example : Loose .foldGroupby [(0, .source ⟨.named "rows", "rows"⟩), (3, .calculate "datum.a" "b"),
    (1, .output "raw" false), (4, .nullFilter ∅), (5, .output "main" true)] := by decide

end Forest

end ChartPipeline
