import ChartPipeline.Proofs.Bundling

/-!
# How many sweeps settle a strand

A pass moves no stage past another one that it moves.  So in one climb along a strand, the first
stage that does not stay rises as far as it can, or joins another one, and is done: the stages in
front of it stay, and there is one less behind.  A sweep climbs along every strand at least once.
After as many sweeps as there are stages to move on a strand, all of them stay.

## Key results

- `Climbs.strands`: a climb settles one more stage on each strand along its way
- `Sweeps.within`: a sweep settles one more stage on every strand
- `Flow.settle_of_within`: a pass comes to its end if it may take more sweeps than there are stages
  left to settle on any strand
-/

namespace ChartPipeline

open Forest

variable {pass : Pass} {policy : FacetPolicy} {k : Nat} {w l r : List (Nat × Stage)}
  {x y : Nat × Stage} {c : Stage} {dims : List String}

/-- What becomes of a stage depends on its kind only. -/
theorem Move.choose_congr {a b b' : Stage} (h : b'.tag = b.tag) (alone : Bool) :
    choose policy b' a alone = choose policy b a alone := by
  have hchanges : b'.changesRows = b.changesRows := by rw [Stage.changesRows, h, Stage.changesRows]
  have hpassage : passage? policy b' a = passage? policy b a := by
    unfold passage?
    rw [h, hchanges]
  unfold choose
  rw [h, hpassage]

namespace Forest

/-! ### One climb along a strand -/

/-- The number of stages on a way that a pass moves. -/
def handled (pass : Pass) (w : List (Nat × Stage)) : Nat := w.countP fun e => pass.handles e.2.tag

/-- Strands on which, after stages that stay, there are at most `k` more that the pass moves. -/
def Within (pass : Pass) (policy : FacetPolicy) (k : Nat) (w : List (Nat × Stage)) : Prop :=
  ∃ l r, w = l ++ r ∧ Stays pass policy l ∧ handled pass r ≤ k

/-- Room for more stages is room enough. -/
theorem Within.mono {m : Nat} (h : Within pass policy k w) (hkm : k ≤ m) :
    Within pass policy m w := by
  obtain ⟨l, r, hw, hl, hr⟩ := h
  exact ⟨l, r, hw, hl, Nat.le_trans hr hkm⟩

/-- Where every stage stays, none is left. -/
theorem Stays.within (h : Stays pass policy w) : Within pass policy k w :=
  ⟨w, [], by simp, h, by simp [handled]⟩

/-- At first all stages that the pass moves are left. -/
theorem within_handled (pass : Pass) (policy : FacetPolicy) (w : List (Nat × Stage)) :
    Within pass policy (handled pass w) w :=
  ⟨[], w, rfl, .nil, Nat.le_refl _⟩

/-- Stages that a pass does not move may come after those that stay. -/
theorem Stays.append (hl : Stays pass policy l) (hr : ∀ e ∈ r, pass.handles e.2.tag = false) :
    Stays pass policy (l ++ r) := by
  have hbelow (e e' : Nat × Stage) (he : e' ∈ r) :
      pass.handles e'.2.tag = true → Move.choose policy e'.2 e.2 true = .stay :=
    fun hh => absurd hh (by simp [hr e' he])
  refine List.isChain_append.2 ⟨hl, ?_, fun e _ e' he' => hbelow e e' (List.mem_of_mem_head? he')⟩
  exact (List.pairwise_of_forall_mem_list fun e _ e' he' => hbelow e e' he').isChain

/-- Where nothing is left, every stage stays. -/
theorem Within.stays (h : Within pass policy 0 w) : Stays pass policy w := by
  obtain ⟨l, r, rfl, hl, hr⟩ := h
  refine hl.append fun e he => ?_
  simpa using List.countP_eq_zero.1 (Nat.le_zero.1 hr) e he

/-- The stages that stay end above one that moves. -/
theorem Within.split (h : Within pass policy k (l ++ x :: y :: r))
    (hh : pass.handles y.2.tag = true) (hmove : Move.choose policy y.2 x.2 true ≠ .stay) :
    (∃ l₁ l₂, l = l₁ ++ l₂ ∧ Stays pass policy l₁ ∧ handled pass (l₂ ++ x :: y :: r) ≤ k) ∨
      Stays pass policy (l ++ [x]) ∧ handled pass (y :: r) ≤ k := by
  obtain ⟨l₁, r₁, heq, hl, hr⟩ := h
  rcases List.append_eq_append_iff.1 heq with ⟨m, rfl, hm⟩ | ⟨m, rfl, rfl⟩
  · cases m with
    | nil =>
      rw [List.nil_append] at hm
      exact .inl ⟨l, [], by simp, by simpa using hl, by rw [List.nil_append, hm]; exact hr⟩
    | cons e m =>
      obtain ⟨rfl, hrest⟩ := List.cons.inj hm
      cases m with
      | nil =>
        obtain rfl : y :: r = r₁ := hrest
        exact .inr ⟨hl, hr⟩
      | cons e' m =>
        -- the stage that moves would be among those that stay
        obtain ⟨rfl, -⟩ := List.cons.inj hrest
        exact absurd ((List.isChain_cons_cons.1 hl.right_of_append).1 hh) hmove
  · -- the stages that stay end in front of it
    exact .inl ⟨l₁, m, rfl, hl, hr⟩

/-- The stages moved on a way are those of its two parts. -/
theorem handled_append (l r : List (Nat × Stage)) :
    handled pass (l ++ r) = handled pass l + handled pass r := List.countP_append

/-- The first stage of a way counts if the pass moves it. -/
theorem handled_cons (x : Nat × Stage) (r : List (Nat × Stage)) :
    handled pass (x :: r) = handled pass r + if pass.handles x.2.tag then 1 else 0 :=
  List.countP_cons

/-- A stage that rises leaves as many to settle, and one less once those above it stay. -/
theorem Within.rise (h : Within pass policy k (l ++ x :: y :: r))
    (hr : Rises pass policy x.2 y.2 dims) (hmove : Move.choose policy y.2 x.2 true ≠ .stay) :
    Within pass policy k (l ++ (y.1, y.2.addDimensions dims) :: x :: r) ∧
      (Stays pass policy (l ++ [(y.1, y.2.addDimensions dims)]) →
        Within pass policy (k - 1) (l ++ (y.1, y.2.addDimensions dims) :: x :: r)) := by
  have hx : pass.handles x.2.tag = false := hr.not_handles
  have hy := hr.handled
  have hcount : handled pass (l ++ x :: y :: r) =
      handled pass (l ++ (y.1, y.2.addDimensions dims) :: x :: r) := by
    simp [handled_append, handled_cons, hx, hy]
  have hsplit := h.split hy hmove
  -- behind the stage that rises, there is one less
  have hrest : handled pass r ≤ k - 1 := by
    rcases hsplit with ⟨l₁, l₂, -, -, hle⟩ | ⟨-, hle⟩
    · simp only [handled_append, handled_cons, hy, if_true] at hle
      omega
    · simp only [handled_cons, hy, if_true] at hle
      omega
  -- where the upper one was among the stages that stay, it comes behind now and does not count
  constructor
  · rcases hsplit with ⟨l₁, l₂, rfl, hl, hle⟩ | ⟨hl, hle⟩
    · refine ⟨l₁, l₂ ++ (y.1, y.2.addDimensions dims) :: x :: r, by simp, hl, ?_⟩
      simpa [handled_append, handled_cons, hx, hy] using hle
    · refine ⟨l, (y.1, y.2.addDimensions dims) :: x :: r, rfl, hl.left_of_append, ?_⟩
      simpa [handled_cons, hx, hy] using hle
  · intro hstays
    exact ⟨l ++ [(y.1, y.2.addDimensions dims)] ++ [x], r, by simp,
      hstays.append (by simpa using hx), hrest⟩

/-- A stage that joins the one above it leaves one less to settle. -/
theorem Within.join (h : Within pass policy k (l ++ x :: y :: r)) (hj : Joins pass x.2 y.2 c)
    (hmove : Move.choose policy y.2 x.2 true ≠ .stay) :
    Within pass policy (k - 1) (l ++ (x.1, c) :: r) := by
  have hy := hj.handled
  have hx : pass.handles x.2.tag = true := hj.tag_eq ▸ hy
  have htag := Stage.tag_of_merge? hj.merged
  rcases h.split hy hmove with ⟨l₁, l₂, rfl, hl, hle⟩ | ⟨hl, hle⟩
  · refine ⟨l₁, l₂ ++ (x.1, c) :: r, by simp, hl, ?_⟩
    simp only [handled_append, handled_cons, hx, hy, htag, if_true] at hle ⊢
    omega
  · refine ⟨l ++ [(x.1, c)], r, by simp, ?_, ?_⟩
    -- what the upper stage has become is of the same kind, so it stays as the upper one did
    · obtain ⟨hl, -, hlast⟩ := List.isChain_append.1 hl
      refine List.isChain_append.2 ⟨hl, .singleton _, fun z hz z' hz' => ?_⟩
      obtain rfl := Option.some.inj hz'
      have := hlast z hz x rfl
      simp only [htag, Move.choose_congr htag]
      exact this
    · simp only [handled_cons, hy, if_true] at hle
      omega

/-- Where a climb is on a strand: above are the stage that climbs and those in front of it, and
    below those that it has left behind. -/
structure Underway (pass : Pass) (policy : FacetPolicy) (k : Nat) (l r : List (Nat × Stage)) :
    Prop where
  within : Within pass policy k (l ++ r)
  one_less : Stays pass policy l → Within pass policy (k - 1) (l ++ r)

/-- A climb starts at the end of a strand. -/
theorem Within.underway (h : Within pass policy k w) : Underway pass policy k w [] := by
  refine ⟨by simpa using h, fun hw => ?_⟩
  rw [List.append_nil]
  exact hw.within

/-- A climb leaves a stage that stays behind it. -/
theorem Underway.stay (h : Underway pass policy k (l ++ [x, y]) r)
    (hstay : pass.handles y.2.tag = true → Move.choose policy y.2 x.2 true = .stay) :
    Underway pass policy k (l ++ [x]) (y :: r) := by
  have heq : l ++ [x] ++ y :: r = l ++ [x, y] ++ r := by simp
  refine ⟨heq ▸ h.within, fun hl => heq ▸ h.one_less ?_⟩
  have hl' : l ++ [x, y] = (l ++ [x]) ++ [y] := by simp
  rw [hl']
  refine List.isChain_append.2 ⟨hl, .singleton y, fun e he e' he' => ?_⟩
  rw [List.getLast?_concat] at he
  obtain rfl := Option.some.inj he
  obtain rfl := Option.some.inj he'
  exact hstay

/-- A frame around a strand whose next stage has been settled. -/
def Frame.Advanced (pass : Pass) (policy : FacetPolicy) (k : Nat)
    (F F' : Frame (List (Nat × Stage))) : Prop :=
  ∃ v, F' = { F with content := v } ∧ Within pass policy (k - 1) v

/-- What a climb has done on the way up to a hole. -/
def Climbed (pass : Pass) (policy : FacetPolicy) (k : Nat) (UP : List (Frame (List (Nat × Stage))))
    (T : Forest (List (Nat × Stage))) (f' : Forest Stage) : Prop :=
  ∃ UP', f'.strands = fill UP' T ∧ List.Forall₂ (Frame.Advanced pass policy k) UP UP'

variable {fr parent : Frame Stage} {up : List (Frame Stage)} {cs f' : Forest Stage}
  {F F₁ : Frame (List (Nat × Stage))} {UP : List (Frame (List (Nat × Stage)))}
  {T : Forest (List (Nat × Stage))}

/-- What was on the first strand does not count any more. -/
theorem Climbed.congr (h : Climbed pass policy k (F₁ :: UP) T f')
    (hF : ∃ v, F = { F₁ with content := v }) : Climbed pass policy k (F :: UP) T f' := by
  obtain ⟨UP', hstrands, hadv⟩ := h
  obtain ⟨_, rfl⟩ := hF
  obtain ⟨_, _, ⟨v, rfl, hv⟩, hothers, rfl⟩ := List.forall₂_cons_left_iff.1 hadv
  exact ⟨_, hstrands, .cons ⟨v, rfl, hv⟩ hothers⟩

/-- The frame of a stage without siblings is that of its parent's strand. -/
theorem gather_alone {i j : Nat} {a b : Stage} {before after : Forest Stage} {B A w UP}
    (hG : gather (⟨before, i, a, after⟩ :: up) = ⟨B, 0, w ++ [(i, a)], A⟩ :: UP) :
    gather (⟨nil, j, b, nil⟩ :: ⟨before, i, a, after⟩ :: up) =
      ⟨B, 0, w ++ [(i, a), (j, b)], A⟩ :: UP := by
  rw [gather, hG]
  simp [Frame.alone, isEmpty]

/-- A frame alone in its hole that moves does so for the two stages it is about. -/
theorem Frame.choose_ne_stay {m : Move} (hmove : fr.move pass policy parent = m) (hm : m ≠ .stay)
    (hal : fr.alone = true) : Move.choose policy fr.content parent.content true ≠ .stay := by
  rw [← hal, (Frame.move_eq hmove hm).2]
  exact hm

/-- A climb settles one more stage on each strand along its way. -/
theorem Climbs.strands {ups : List (Frame Stage)} {n : Nat} (h : Climbs pass policy ups cs f' n)
    (hp : pass ≠ .parse) (hf : (fill ups cs).Lawful) (hG : gather ups = F :: UP)
    (hF : Underway pass policy k F.content (opening cs.strands).1)
    (hUP : ∀ G ∈ UP, Within pass policy k G.content) :
    Climbed pass policy k (F :: UP) (opening cs.strands).2 f' := by
  induction h generalizing F UP with
  | done fr cs =>
    -- above a root, nothing is in front of the stage
    obtain ⟨F₀, UP₀, hG₀, hstrands⟩ := strands_fill fr [] cs
    have hsingle : gather [fr] =
        [⟨fr.before.strands, 0, [(fr.id, fr.content)], fr.after.strands⟩] := by
      cases hal : fr.alone <;> simp [gather]
    rw [hG₀] at hG
    rw [hsingle] at hG₀
    obtain ⟨rfl, rfl⟩ := List.cons.inj hG
    obtain ⟨rfl, rfl⟩ := List.cons.inj hG₀
    exact ⟨_, hstrands, .cons ⟨_, rfl, hF.one_less (.singleton _)⟩ .nil⟩
  | @step ups cs ups' cs' f' n m hstep hrest ih =>
    obtain ⟨-, hf'⟩ := hstep.rewrites hf
    cases hstep with
    | @stay fr parent hmove up cs =>
      obtain ⟨fb, i, b, fa⟩ := fr
      obtain ⟨pb, p, a, pa⟩ := parent
      obtain ⟨B, A, w, UP₁, hparent⟩ := exists_gather pb pa up
      cases hal : (Frame.mk fb i b fa).alone with
      | true =>
        -- the climb goes on along the strand
        obtain ⟨rfl, rfl⟩ := Frame.alone_iff.1 hal
        rw [gather_alone (hparent p a)] at hG
        obtain ⟨rfl, rfl⟩ := List.cons.inj hG
        have hstay := (@Frame.move_only pass policy (p, a) (i, b)).1 hmove
        exact (ih hf' (hparent p a) (hF.stay hstay) hUP).congr ⟨_, rfl⟩
      | false =>
        -- above is a fork, where the strand ends
        have hfork : gather (⟨fb, i, b, fa⟩ :: ⟨pb, p, a, pa⟩ :: up) =
            ⟨fb.strands, 0, [(i, b)], fa.strands⟩ :: ⟨B, 0, w ++ [(p, a)], A⟩ :: UP₁ := by
          rw [gather, hal, hparent]
        rw [hfork] at hG
        obtain ⟨rfl, rfl⟩ := List.cons.inj hG
        have hopening := Frame.opening_close hal cs
        have hparentUP : Within pass policy k (w ++ [(p, a)]) :=
          hUP ⟨B, 0, w ++ [(p, a)], A⟩ (by simp)
        obtain ⟨UP', hstrands, hadv⟩ := ih hf' (hparent p a)
          (by rw [hopening]; exact hparentUP.underway) fun G hG => hUP G (by simp [hG])
        refine ⟨⟨fb.strands, 0, (i, b) :: (opening cs.strands).1, fa.strands⟩ :: UP', ?_,
          .cons ⟨_, rfl, hF.one_less (.singleton _)⟩ hadv⟩
        rw [hstrands, hopening, Frame.close, strands_append, strands]
        rfl
    | @join fr parent c hmove hj up cs =>
      have hal := hf.alone_of_joins hj
      obtain ⟨fb, i, b, fa⟩ := fr
      obtain ⟨pb, p, a, pa⟩ := parent
      -- both stages are on one strand, which becomes shorter
      obtain ⟨rfl, rfl⟩ := Frame.alone_iff.1 hal
      simp only [nil_append, append_nil] at ih hf'
      obtain ⟨B, A, w, UP₁, hparent⟩ := exists_gather pb pa up
      rw [gather_alone (hparent p a)] at hG
      obtain ⟨rfl, rfl⟩ := List.cons.inj hG
      have hmoves : Move.choose policy b a true ≠ .stay := Frame.choose_ne_stay hmove (by simp) hal
      have hwithin : Within pass policy k (w ++ (p, a) :: (i, b) :: (opening cs.strands).1) := by
        simpa using hF.within
      have hjoined := hwithin.join hj hmoves
      refine (ih hf' (hparent p c) ⟨?_, fun _ => ?_⟩ hUP).congr ⟨_, rfl⟩
      · simpa using hjoined.mono (Nat.sub_le k 1)
      · simpa using hjoined
    | @rise fr parent dims hmove hr hal up cs =>
      obtain ⟨fb, i, b, fa⟩ := fr
      obtain ⟨pb, p, a, pa⟩ := parent
      obtain ⟨rfl, rfl⟩ := Frame.alone_iff.1 hal
      obtain ⟨B, A, w, UP₁, hparent⟩ := exists_gather pb pa up
      rw [gather_alone (hparent p a)] at hG
      obtain ⟨rfl, rfl⟩ := List.cons.inj hG
      have hmoves : Move.choose policy b a true ≠ .stay := Frame.choose_ne_stay hmove (by simp) hal
      have hwithin : Within pass policy k (w ++ (p, a) :: (i, b) :: (opening cs.strands).1) := by
        simpa using hF.within
      obtain ⟨hrisen, hless⟩ := hwithin.rise hr hmoves
      refine (ih hf' (hparent i (b.addDimensions dims)) ⟨?_, fun hl => ?_⟩ hUP).congr ⟨_, rfl⟩
      · simpa [strands, opening] using hrisen
      · simpa [strands, opening] using hless hl
    | absorb hmove => exact absurd (Frame.parse_of_move hmove).1 hp
    | relocate hmove => exact absurd (Frame.parse_of_move hmove).1 hp

/-! ### The strands that wait for a climb -/

/-- The last names of the strands that no others follow. -/
def tips : Forest (List (Nat × Stage)) → List Nat
  | nil => []
  | node _ w cs rest =>
    (if cs.isEmpty then [(w.map Prod.fst).getLastD 0] else cs.tips) ++ rest.tips

/-- The tips of trees side by side are those of each. -/
@[simp] theorem tips_append (S T : Forest (List (Nat × Stage))) :
    (S ++ T).tips = S.tips ++ T.tips := by
  induction S with
  | nil => rfl
  | node i w cs rest _ ih => simp [tips, ih]

/-- There is a tip below every strand. -/
theorem exists_mem_tips (hT : T ≠ nil) : ∃ id, id ∈ T.tips := by
  induction T with
  | nil => exact absurd rfl hT
  | node i w cs rest ihc _ =>
    -- below the first strand if others follow it, else on it
    cases cs with
    | nil => exact ⟨(w.map Prod.fst).getLastD 0, List.mem_append_left _ (List.mem_singleton.2 rfl)⟩
    | node =>
      obtain ⟨id, hid⟩ := ihc (by simp)
      exact ⟨id, List.mem_append_left _ hid⟩

/-- The leaves of a forest are the tips of its strands. -/
theorem leaves_eq_tips (f : Forest Stage) : f.leaves = f.strands.tips := by
  induction f with
  | nil => rfl
  | node i a cs rest ihc ihr =>
    rw [leaves, strands, tips, ihc, ihr]
    congr 1
    rcases opening_cases cs with ⟨j, b, gc, rfl, ho⟩ | ho
    · rw [ho]
      simp [strands, tips, isEmpty]
    · rw [ho]
      cases cs with
      | nil => rfl
      | node => rfl

/-- Whether every strand that is not further than at most `k` stages from its end has a tip at or
    below it from which a climb is to come. -/
def Due (pass : Pass) (policy : FacetPolicy) (k : Nat) (ids : List Nat) :
    Forest (List (Nat × Stage)) → Prop
  | nil => True
  | node i w cs rest => Within pass policy k w ∧
      (Within pass policy (k - 1) w ∨ ∃ id ∈ ids, id ∈ (node i w cs nil).tips) ∧
      cs.Due pass policy k ids ∧ rest.Due pass policy k ids

variable {ids : List Nat} {id : Nat} {S T' : Forest (List (Nat × Stage))}

/-- Nothing waits for a climb across trees side by side. -/
theorem due_append : (S ++ T).Due pass policy k ids ↔
    S.Due pass policy k ids ∧ T.Due pass policy k ids := by
  induction S with
  | nil => simp [Due]
  | node i w cs rest _ ih => simp only [node_append, Due, ih, and_assoc]

/-- Where no climb is to come, every strand has got further. -/
theorem Due.within_of_nil (h : T.Due pass policy k []) :
    ∀ e ∈ T.toList, Within pass policy (k - 1) e.2 := by
  induction T with
  | nil => simp [toList]
  | node i w cs rest ihc ihr =>
    obtain ⟨-, hw, hc, hr⟩ := h
    intro e he
    simp only [toList, List.mem_cons, List.mem_append] at he
    rcases he with rfl | he | he
    · exact hw.resolve_right (by simp)
    · exact ihc hc e he
    · exact ihr hr e he

/-- Before a sweep every strand waits for a climb from a tip below it. -/
theorem due_of_within (h : ∀ e ∈ T.toList, Within pass policy k e.2) (hids : T.tips ⊆ ids) :
    T.Due pass policy k ids := by
  induction T with
  | nil => trivial
  | node i w cs rest ihc ihr =>
    simp only [toList, List.mem_cons, List.mem_append] at h
    rw [tips] at hids
    obtain ⟨hown, hrest⟩ := List.append_subset.1 hids
    refine ⟨h _ (.inl rfl), .inr ?_, ihc (fun e he => h e (.inr (.inl he))) ?_,
      ihr (fun e he => h e (.inr (.inr he))) hrest⟩
    · obtain ⟨id, hid⟩ := exists_mem_tips (T := node i w cs nil) (by simp)
      exact ⟨id, hown (by simpa [tips] using hid), hid⟩
    · cases cs with
      | nil => simp [tips]
      | node => exact hown

/-- A tip that is elsewhere need not be waited for. -/
theorem Due.of_notMem (h : T.Due pass policy k (id :: ids)) (hid : id ∉ T.tips) :
    T.Due pass policy k ids := by
  induction T with
  | nil => trivial
  | node i w cs rest ihc ihr =>
    rw [tips, List.mem_append, not_or] at hid
    obtain ⟨hk, hw, hc, hr⟩ := h
    refine ⟨hk, hw.imp_right ?_, ihc hc ?_, ihr hr hid.2⟩
    · rintro ⟨id', hmem, htip⟩
      rcases List.mem_cons.1 hmem with rfl | hmem
      · exact absurd (by simpa [tips] using htip) hid.1
      · exact ⟨id', hmem, htip⟩
    · cases cs with
      | nil => simp [tips]
      | node => exact hid.1

/-! ### One sweep over a forest of strands -/

/-- The tips in a hole stand between those beside it. -/
theorem tips_close (G : Frame (List (Nat × Stage))) (T : Forest (List (Nat × Stage))) :
    (G.close T).tips = G.before.tips ++ ((node G.id G.content T nil).tips ++ G.after.tips) := by
  simp [Frame.close, tips]

/-- A strand that others follow has their tips. -/
theorem tips_node_of_ne {i : Nat} (hT : T ≠ nil) : (node i w T nil).tips = T.tips := by
  cases T with
  | nil => exact absurd rfl hT
  | node => simp [tips, isEmpty]

/-- The tips in a hole are tips of the whole forest. -/
theorem tips_sublist_fill (UP : List (Frame (List (Nat × Stage)))) (hT : T ≠ nil) :
    T.tips.Sublist (fill UP T).tips := by
  induction UP generalizing T with
  | nil => exact .refl _
  | cons G UP ih =>
    refine List.Sublist.trans ?_ (ih (G.close_ne_nil T))
    rw [tips_close, tips_node_of_ne hT]
    exact (List.sublist_append_left _ _).trans (List.sublist_append_right _ _)

/-- What the climb from a tip has made of strands: fewer wait for the other climbs, and their tips
    are there. -/
structure Passed (pass : Pass) (policy : FacetPolicy) (k : Nat) (id : Nat) (ids : List Nat)
    (T T' : Forest (List (Nat × Stage))) : Prop where
  ne_nil : T' ≠ nil
  due : T.Due pass policy k (id :: ids) → T'.Due pass policy k ids
  tips : ∀ t ∈ T.tips, t ≠ id → t ∈ T'.tips

variable {G G' : Frame (List (Nat × Stage))} {UP' : List (Frame (List (Nat × Stage)))}

/-- Beside the strand that has been climbed, nothing was to come from its tip. -/
theorem Frame.Advanced.due (h : G.Advanced pass policy k G')
    (hid : id ∈ (node G.id G.content T nil).tips)
    (hn : (G.close T).tips.Nodup) (hT : T.Due pass policy k (id :: ids) → T'.Due pass policy k ids)
    (hdue : (G.close T).Due pass policy k (id :: ids)) : (G'.close T').Due pass policy k ids := by
  obtain ⟨v, rfl, hv⟩ := h
  rw [tips_close] at hn
  obtain ⟨-, hrest, hbefore⟩ := List.nodup_append.1 hn
  obtain ⟨-, -, hafter⟩ := List.nodup_append.1 hrest
  have hb : id ∉ G.before.tips := fun hmem =>
    hbefore id hmem id (List.mem_append_left _ hid) rfl
  have ha : id ∉ G.after.tips := fun hmem => hafter id hid id hmem rfl
  rw [Frame.close, due_append, Due] at hdue ⊢
  obtain ⟨hdb, -, -, hdT, hda⟩ := hdue
  exact ⟨hdb.of_notMem hb, hv.mono (Nat.sub_le k 1), .inl hv, hT hdT, hda.of_notMem ha⟩

/-- What a climb has done in a hole it has done with the frame around it, too. -/
theorem Passed.close (h : Passed pass policy k id ids T T') (hid : id ∈ T.tips) (hT : T ≠ nil)
    (hn : (G.close T).tips.Nodup) (hG : G.Advanced pass policy k G') :
    Passed pass policy k id ids (G.close T) (G'.close T') where
  ne_nil := G'.close_ne_nil T'
  due := hG.due (by rwa [tips_node_of_ne hT]) hn h.due
  tips t ht hne := by
    obtain ⟨v, rfl, -⟩ := hG
    rw [tips_close, tips_node_of_ne hT] at ht
    rw [tips_close, tips_node_of_ne h.ne_nil]
    simp only [List.mem_append] at ht ⊢
    exact ht.imp_right fun ht => ht.imp_left fun ht => h.tips t ht hne

/-- What a climb has done in a hole it has done with all frames around it. -/
theorem Passed.fill (h : Passed pass policy k id ids T T')
    (hUP : List.Forall₂ (Frame.Advanced pass policy k) UP UP') (hid : id ∈ T.tips) (hT : T ≠ nil)
    (hn : (Forest.fill UP T).tips.Nodup) :
    Passed pass policy k id ids (Forest.fill UP T) (Forest.fill UP' T') := by
  induction hUP generalizing T T' with
  | nil => exact h
  | @cons G G' UP UP' hG _ ih =>
    have hclose : (G.close T).tips.Nodup := hn.sublist (tips_sublist_fill UP (G.close_ne_nil T))
    refine ih (h.close hid hT hclose hG) ?_ (G.close_ne_nil T) hn
    rw [tips_close, tips_node_of_ne hT]
    simp [hid]

/-- After the climb from a tip, one more stage has settled on the strands along the way. -/
theorem passed_of_climbed (ids : List Nat)
    (hUP : List.Forall₂ (Frame.Advanced pass policy k) (F :: UP) UP')
    (hlast : (F.content.map Prod.fst).getLastD 0 = id)
    (hn : (Forest.fill (F :: UP) nil).tips.Nodup) :
    Passed pass policy k id ids (Forest.fill (F :: UP) nil) (Forest.fill UP' nil) := by
  obtain ⟨F', UP', hF, hothers, rfl⟩ := List.forall₂_cons_left_iff.1 hUP
  have htip : (node F.id F.content nil nil).tips = [id] := by
    rw [tips, hlast]
    rfl
  have hne := F.close_ne_nil nil
  -- the strand with the tip itself; the frames above it follow
  have hfirst : Passed pass policy k id ids (F.close nil) (F'.close nil) := by
    refine ⟨F'.close_ne_nil nil, hF.due (by simp [htip]) ?_ fun _ => trivial, fun t ht htid => ?_⟩
    · exact hn.sublist (tips_sublist_fill UP hne)
    · obtain ⟨v, rfl, -⟩ := hF
      rw [tips_close, htip] at ht
      rw [tips_close]
      simp only [List.mem_append, List.mem_singleton] at ht ⊢
      exact ht.imp_right fun ht => .inr (ht.resolve_left htid)
  refine hfirst.fill hothers ?_ hne hn
  rw [tips_close, htip]
  simp

variable {f : Forest Stage} {n : Nat}

/-- The leaves of a closed frame that is not empty are those in it and those beside it. -/
theorem Frame.mem_leaves_close_iff {α : Type} {fr : Frame α} {t : Forest α} (ht : t ≠ nil) :
    id ∈ (fr.close t).leaves ↔ id ∈ fr.before.leaves ∨ id ∈ t.leaves ∨ id ∈ fr.after.leaves := by
  cases t with
  | nil => exact absurd rfl ht
  | node => rw [Frame.close, leaves_append, leaves, List.mem_append, List.mem_append]; rfl

/-- A leaf is in the hole or beside the way to it. -/
theorem mem_leaves_of_fill {α : Type} (up : List (Frame α)) {t : Forest α} (ht : t ≠ nil)
    (h : id ∈ (Forest.fill up t).leaves) : id ∈ outside up ∨ id ∈ t.leaves := by
  induction up generalizing t with
  | nil => exact .inr h
  | cons fr up ih =>
    rw [outside_cons, Frame.names, List.mem_append, List.mem_append, List.mem_cons]
    rcases ih (fr.close_ne_nil t) h with h | h
    · exact .inl (.inr h)
    · rcases (Frame.mem_leaves_close_iff ht).1 h with h | h | h
      · exact .inl (.inl (.inl (leaves_subset_walk _ h)))
      · exact .inr h
      · exact .inl (.inl (.inr (.inr (leaves_subset_walk _ h))))

/-- Nothing is below a leaf. -/
theorem eq_nil_of_mem_leaves {α : Type} {fr : Frame α} {up : List (Frame α)} {cs : Forest α}
    (hn : (Forest.fill (fr :: up) cs).walk.Nodup) (h : fr.id ∈ (Forest.fill (fr :: up) cs).leaves) :
    cs = nil := by
  by_contra hcs
  obtain ⟨hup, hb, hc, ha⟩ := notMem_of_nodup_fill hn
  have hclose := (mem_leaves_of_fill up (fr.close_ne_nil cs) h).resolve_left hup
  rcases (Frame.mem_leaves_close_iff hcs).1 hclose with h | h | h
  · exact hb (leaves_subset_walk _ h)
  · exact hc (leaves_subset_walk _ h)
  · exact ha (leaves_subset_walk _ h)

/-- What waits for climbs in a forest does so in a hole, and the strands above are as far. -/
theorem Due.of_fill (h : (Forest.fill UP T).Due pass policy k ids) :
    T.Due pass policy k ids ∧ ∀ G ∈ UP, Within pass policy k G.content := by
  induction UP generalizing T with
  | nil => exact ⟨h, by simp⟩
  | cons G UP ih =>
    obtain ⟨hclose, hUP⟩ := ih h
    rw [Frame.close, due_append, Due] at hclose
    obtain ⟨-, hG, -, hT, -⟩ := hclose
    exact ⟨hT, List.forall_mem_cons.2 ⟨hG, hUP⟩⟩

/-- A sweep settles one more stage on every strand. -/
theorem Sweeps.within (h : Sweeps pass policy ids f f' n) (hp : pass ≠ .parse) (hf : f.Lawful)
    (hsub : ids ⊆ f.leaves) (hnd : ids.Nodup) (hdue : f.strands.Due pass policy k ids) :
    ∀ e ∈ f'.strands.toList, Within pass policy (k - 1) e.2 := by
  induction h with
  | nil f => exact hdue.within_of_nil
  -- a leaf is not taken away before its climb
  | gone h => exact absurd (leaves_subset_walk _ (hsub List.mem_cons_self)) h
  | @climb fr up cs ids g f' n m h _ ih =>
    obtain rfl := eq_nil_of_mem_leaves hf.nodup (hsub List.mem_cons_self)
    obtain ⟨-, hg⟩ := h.rewrites hf
    obtain ⟨hnew, hothers⟩ := List.nodup_cons.1 hnd
    obtain ⟨before, i, b, after⟩ := fr
    obtain ⟨F, UP, hG, hstrands⟩ := strands_fill ⟨before, i, b, after⟩ up .nil
    have hlast : (F.content.map Prod.fst).getLastD 0 = i := by
      obtain ⟨B, A, w, UP', hgather⟩ := exists_gather before after up
      rw [hgather] at hG
      obtain ⟨rfl, -⟩ := List.cons.inj hG
      rw [List.map_append, List.map_singleton, List.getLastD_concat]
    have hstart : opening (Forest.nil : Forest Stage).strands = ([], .nil) := rfl
    rw [hstart, List.append_nil] at hstrands
    have htips := (leaves_sublist_walk _).nodup hf.nodup
    rw [leaves_eq_tips, hstrands] at htips hsub
    rw [hstrands] at hdue
    obtain ⟨-, hwithin⟩ := hdue.of_fill
    obtain ⟨hF, hUP⟩ := List.forall_mem_cons.1 hwithin
    obtain ⟨UP', hclimbed, hadv⟩ := h.strands hp hf hG (by rw [hstart]; exact hF.underway) hUP
    rw [hstart] at hclimbed
    have hpassed := passed_of_climbed ids hadv hlast htips
    refine ih hg ?_ hothers ?_
    · intro t ht
      rw [leaves_eq_tips, hclimbed]
      exact hpassed.tips t (hsub (List.mem_cons_of_mem _ ht)) fun h => hnew (h ▸ ht)
    · rw [hclimbed]
      exact hpassed.due hdue

end Forest

namespace Flow

variable {flow : Flow}

/-- A pass comes to its end if it may take more sweeps than there are stages left to settle on any
    strand. -/
theorem settle_of_within {n : Nat} (done : Nat) (hp : pass ≠ .parse) (hf : flow.stages.Lawful)
    (hk : ∀ e ∈ flow.stages.strands.toList, Within pass policy k e.2) (hkn : k < n) :
    ∃ r flow', settle pass policy n done flow = (.ok r, flow') := by
  -- each sweep takes one off both the sweeps left and the stages left
  induction n generalizing k done flow with
  | zero => exact absurd hkn (Nat.not_lt_zero k)
  | succ n ih =>
    obtain ⟨m, flow₁, hsweeps, -, hrun⟩ := settle_succ pass policy hf.grounded
    rw [hrun]
    by_cases hm : m = 0
    · exact ⟨_, _, if_pos hm⟩
    · rw [if_neg hm]
      have hpos : 0 < k := by
        -- otherwise the pass would have been at its end
        by_contra hzero
        obtain rfl := Nat.eq_zero_of_not_pos hzero
        have hs := (settled_iff_strands hp hf).2 fun e he => (hk e he).stays
        exact hm (hs.sweeps hsweeps fun _ h => h).1
      obtain ⟨-, hf₁⟩ := hsweeps.rewrites hf
      have hdue := due_of_within hk (List.Subset.refl flow.stages.strands.tips)
      rw [← leaves_eq_tips] at hdue
      have hnodup := (leaves_sublist_walk _).nodup hf.nodup
      exact ih (done + 1) hf₁ (hsweeps.within hp hf (List.Subset.refl _) hnodup hdue) (by omega)

end Flow

end ChartPipeline
