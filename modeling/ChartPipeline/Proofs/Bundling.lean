import ChartPipeline.Proofs.Fences
import ChartPipeline.Proofs.Unfailing

/-!
# A forest as a forest of strands

Between its forks a forest is made of strands.  Bundled so, it is a forest again, whose nodes are
the strands.  A pass that leaves conversions where they are changes the strands and nothing else:
the bundled forest keeps its shape, and what was shown of strands is shown of any flow.

## Key results

- `places_eq_flatMap_strands`: the places of a forest are those along its strands
- `strands_fill`: the strands of a forest around a hole, with the strand through the hole
- `Rewrites.strands`: a move reroutes one strand
- `Settled.strands`: once a pass has come to its end, its stages stay on every strand
-/

namespace ChartPipeline.Forest

variable {α β : Type}

/-! ### Forests of one shape -/

/-- Forests of one shape whose nodes are related. -/
inductive Forall₂ (R : α → β → Prop) : Forest α → Forest β → Prop
  | nil : Forall₂ R nil nil
  | node {i j a b cs cs' rest rest'} (h : R a b) (hc : Forall₂ R cs cs')
      (hr : Forall₂ R rest rest') : Forall₂ R (node i a cs rest) (node j b cs' rest')

/-- A forest has its own shape. -/
theorem Forall₂.refl {R : α → α → Prop} (hR : ∀ a, R a a) (f : Forest α) : Forall₂ R f f := by
  induction f with
  | nil => exact .nil
  | node i a cs rest ihc ihr => exact .node (hR a) ihc ihr

/-- Trees of one shape, one after the other. -/
theorem Forall₂.append {R : α → β → Prop} {f g : Forest α} {f' g' : Forest β}
    (h : Forall₂ R f f') (hg : Forall₂ R g g') : Forall₂ R (f ++ g) (f' ++ g') := by
  induction h with
  | nil => exact hg
  | node h hc _ _ ihr => exact .node h hc ihr

/-- The shape of a third forest is that of the first. -/
theorem Forall₂.trans {R S T : α → α → Prop} (hT : ∀ a b c, R a b → S b c → T a c)
    {f g k : Forest α} (h : Forall₂ R f g) (h' : Forall₂ S g k) : Forall₂ T f k := by
  induction h generalizing k with
  | nil =>
    cases h'
    exact .nil
  | node h _ _ ihc ihr =>
    cases h' with
    | node h' hc' hr' => exact .node (hT _ _ _ h h') (ihc hc') (ihr hr')

/-- What holds of all nodes of the first forest holds along with the relation. -/
theorem Forall₂.and_left {R : α → β → Prop} {P : α → Prop} {f : Forest α} {g : Forest β}
    (h : Forall₂ R f g) (hP : ∀ e ∈ f.toList, P e.2) : Forall₂ (fun a b => P a ∧ R a b) f g := by
  induction h with
  | nil => exact .nil
  | node h _ _ ihc ihr =>
    simp only [toList, List.mem_cons, List.mem_append] at hP
    exact .node ⟨hP _ (.inl rfl), h⟩ (ihc fun e he => hP e (.inr (.inl he)))
      (ihr fun e he => hP e (.inr (.inr he)))

/-- Every node of the second forest is related to one of the first. -/
theorem Forall₂.exists_of_mem {R : α → β → Prop} {f : Forest α} {g : Forest β}
    (h : Forall₂ R f g) : ∀ e ∈ g.toList, ∃ e₀ ∈ f.toList, R e₀.2 e.2 := by
  induction h with
  | nil => exact fun e he => absurd he (by simp [toList])
  | @node i j a b _ _ _ _ h _ _ ihc ihr =>
    intro e he
    simp only [toList, List.mem_cons, List.mem_append] at he ⊢
    rcases he with rfl | he | he
    · exact ⟨(i, a), .inl rfl, h⟩
    · obtain ⟨e₀, he₀, hR⟩ := ihc e he
      exact ⟨e₀, .inr (.inl he₀), hR⟩
    · obtain ⟨e₀, he₀, hR⟩ := ihr e he
      exact ⟨e₀, .inr (.inr he₀), hR⟩

/-- One node in a hole may be related to another one, where all others are related to
    themselves. -/
theorem Forall₂.fill {R : α → α → Prop} (hR : ∀ a, R a a) (up : List (Frame α)) {t t' : Forest α}
    (h : Forall₂ R t t') : Forall₂ R (Forest.fill up t) (Forest.fill up t') := by
  induction up generalizing t t' with
  | nil => exact h
  | cons fr up ih =>
    exact ih ((Forall₂.refl hR fr.before).append (.node (hR _) h (.refl hR fr.after)))

/-- The places of related forests are related, and what stands above them is. -/
theorem Forall₂.exists_place {R : α → β → Prop} {f : Forest α} {g : Forest β} (h : Forall₂ R f g)
    {above : List (Nat × α)} {above' : List (Nat × β)}
    (habove : List.Forall₂ (fun e e' => R e.2 e'.2) above above') {u : Place α}
    (hu : u ∈ f.places above) : ∃ u' ∈ g.places above', R u.content u'.content ∧
      List.Forall₂ (fun e e' => R e.2 e'.2) u.above u'.above := by
  induction h generalizing above above' with
  | nil => exact absurd hu (by simp)
  | @node i j a b cs cs' rest rest' h _ _ ihc ihr =>
    simp only [places, List.mem_cons, List.mem_append] at hu
    rcases hu with rfl | hu | hu
    · exact ⟨⟨above', j, b⟩, by simp [places], h, habove⟩
    · have hcons : List.Forall₂ (fun (e : Nat × α) (e' : Nat × β) => R e.2 e'.2) [(i, a)] [(j, b)] :=
        .cons h .nil
      obtain ⟨u', hu', hR⟩ := ihc (List.rel_append habove hcons) hu
      exact ⟨u', by simp [places, hu'], hR⟩
    · obtain ⟨u', hu', hR⟩ := ihr habove hu
      exact ⟨u', by simp [places, hu'], hR⟩

/-! ### Strands -/

/-- The strand that a forest of strands goes on with, if it is a single tree, and what is below
    it. -/
def opening : Forest (List (Nat × α)) → List (Nat × α) × Forest (List (Nat × α))
  | node _ w ds nil => (w, ds)
  | t => ([], t)

/-- The strands between the forks, as a forest. -/
def strands : Forest α → Forest (List (Nat × α))
  | nil => nil
  | node i a cs rest => node 0 ((i, a) :: (opening cs.strands).1) (opening cs.strands).2 rest.strands

/-- Trees are bundled one by one. -/
@[simp] theorem strands_append (f g : Forest α) : (f ++ g).strands = f.strands ++ g.strands := by
  induction f with
  | nil => rfl
  | node i a cs rest _ ih => simp only [node_append, strands, ih]

/-- Only an empty forest has no strands. -/
theorem strands_eq_nil {f : Forest α} : f.strands = nil ↔ f = nil := by
  cases f <;> simp [strands]

/-- A single tree goes on with a strand that begins with its root; other forests do not. -/
theorem opening_cases (f : Forest α) :
    (∃ i a cs, f = node i a cs nil ∧
      opening f.strands = ((i, a) :: (opening cs.strands).1, (opening cs.strands).2)) ∨
      opening f.strands = ([], f.strands) := by
  match f with
  | nil => exact .inr rfl
  | node i a cs nil => exact .inl ⟨i, a, cs, rfl, rfl⟩
  | node i a cs (node j b ds rest) => exact .inr rfl

/-- No strand goes on into one of several trees. -/
theorem opening_append_of_ne {before after : Forest (List (Nat × α))}
    (h : before ≠ nil ∨ after ≠ nil) (w ds) :
    opening (before ++ node 0 w ds after) = ([], before ++ node 0 w ds after) := by
  match before, after, h with
  | nil, node .., _ => rfl
  | node _ _ _ nil, _, _ => rfl
  | node _ _ _ (node ..), _, _ => rfl
  | nil, nil, h => exact absurd h (by simp)

/-- What is below the strand that goes on is in the bundled forest. -/
theorem mem_toList_of_opening {t : Forest (List (Nat × α))} {e : Nat × List (Nat × α)}
    (he : e ∈ (opening t).2.toList) : e ∈ t.toList := by
  match t with
  | nil => exact he
  | node _ _ _ nil => simpa [toList] using .inr he
  | node _ _ _ (node ..) => exact he

/-- What stands above a place of a bundled forest, all strands one after the other. -/
def along (above : List (Nat × List (Nat × α))) : List (Nat × α) := above.flatMap Prod.snd

/-- Above a root stands nothing. -/
@[simp] theorem along_nil : along ([] : List (Nat × List (Nat × α))) = [] := rfl

/-- The strands above, one after the other. -/
@[simp] theorem along_append (above above' : List (Nat × List (Nat × α))) :
    along (above ++ above') = along above ++ along above' := List.flatMap_append

/-- The first strand above comes first. -/
@[simp] theorem along_cons (e : Nat × List (Nat × α)) (above : List (Nat × List (Nat × α))) :
    along (e :: above) = e.2 ++ along above := List.flatMap_cons

/-- The places of a forest are those along its strands. -/
theorem places_eq_flatMap_strands (f : Forest α) (above : List (Nat × α)) :
    f.places above =
      (f.strands.places []).flatMap fun u => (strand u.content).places (above ++ along u.above) := by
  induction f generalizing above with
  | nil => rfl
  | node i a cs rest ihc ihr =>
    have hbelow : cs.places (above ++ [(i, a)]) =
        (strand (opening cs.strands).1).places (above ++ [(i, a)]) ++
          ((opening cs.strands).2.places [(0, (i, a) :: (opening cs.strands).1)]).flatMap
            fun u => (strand u.content).places (above ++ along u.above) := by
      rw [ihc, places_eq_map_under [_], List.flatMap_map]
      -- either what is below is one tree and the strand goes on in it, or the strand ends here
      rcases opening_cases cs with ⟨j, b, gc, rfl, ho⟩ | ho
      · rw [ho]
        simp only [strands, places, List.flatMap_cons, List.append_nil, List.nil_append, along_nil]
        congr 1
        rw [places_eq_map_under [_], List.flatMap_map]
        simp [Place.under]
      · rw [ho]
        simp [Place.under, strand]
    rw [places, strands, places, List.flatMap_cons, List.flatMap_append, hbelow, ihr]
    simp [strand, places]

/-- Every place stands on a strand. -/
theorem exists_strand {f : Forest α} {v : Place α} (hv : v ∈ f.places []) :
    ∃ u ∈ f.strands.places [], ∃ l r, u.content = l ++ (v.id, v.content) :: r ∧
      v.above = along u.above ++ l := by
  rw [places_eq_flatMap_strands] at hv
  obtain ⟨u, hu, hv⟩ := List.mem_flatMap.1 hv
  obtain ⟨l, r, hw, habove⟩ := mem_places_strand.1 hv
  exact ⟨u, hu, l, r, hw, habove⟩

/-- Everything on a strand stands in a place. -/
theorem mem_places_of_strand {f : Forest α} {u : Place (List (Nat × α))}
    (hu : u ∈ f.strands.places []) {l r : List (Nat × α)} {e : Nat × α}
    (hw : u.content = l ++ e :: r) : ⟨along u.above ++ l, e.1, e.2⟩ ∈ f.places [] := by
  rw [places_eq_flatMap_strands]
  exact List.mem_flatMap.2 ⟨u, hu, mem_places_strand.2 ⟨l, r, hw, rfl⟩⟩

/-- The nodes of a forest are those of its places. -/
theorem toList_eq_map_places (f : Forest α) (above : List (Nat × α)) :
    f.toList = (f.places above).map fun v => (v.id, v.content) := by
  induction f generalizing above with
  | nil => rfl
  | node i a cs rest ihc ihr =>
    rw [toList, places, List.map_cons, List.map_append, ← ihc, ← ihr]

/-! ### Around a hole -/

/-- The frames of a bundled forest: a node without siblings goes on with the strand above it. -/
def gather : List (Frame Stage) → List (Frame (List (Nat × Stage)))
  | [] => []
  | fr :: up =>
    match fr.alone, gather up with
    | true, F :: UP => { F with content := F.content ++ [(fr.id, fr.content)] } :: UP
    | _, UP => ⟨fr.before.strands, 0, [(fr.id, fr.content)], fr.after.strands⟩ :: UP

/-- The strand through the hole ends above it with the node of the first frame. -/
theorem exists_gather (before after : Forest Stage) (up : List (Frame Stage)) :
    ∃ B A w UP, ∀ i a,
      gather (⟨before, i, a, after⟩ :: up) = ⟨B, 0, w ++ [(i, a)], A⟩ :: UP := by
  -- nodes of a bundled forest have no names of their own
  have hid (up : List (Frame Stage)) : ∀ F ∈ gather up, F.id = 0 := by
    induction up with
    | nil => simp [gather]
    | cons fr up ih =>
      intro F hF
      rw [gather] at hF
      split at hF
      · next F₀ UP hal hG =>
        rw [hG] at ih
        rcases List.mem_cons.1 hF with rfl | hF
        · exact ih F₀ (by simp)
        · exact ih F (by simp [hF])
      · rcases List.mem_cons.1 hF with rfl | hF
        · rfl
        · exact ih F hF
  cases hal : before.isEmpty && after.isEmpty with
  | false =>
    exact ⟨before.strands, after.strands, [], gather up, fun i a => by simp [gather, Frame.alone, hal]⟩
  | true =>
    cases hG : gather up with
    | nil => exact ⟨before.strands, after.strands, [], [], fun i a => by
        simp [gather, Frame.alone, hal, hG]⟩
    | cons F UP =>
      refine ⟨F.before, F.after, F.content, UP, fun i a => ?_⟩
      have hzero := hid up F (by simp [hG])
      simp [gather, Frame.alone, hal, hG, hzero]

/-- Above a fork, no strand goes on. -/
theorem Frame.opening_close {fr : Frame Stage} (hal : fr.alone = false) (cs : Forest Stage) :
    opening (fr.close cs).strands = ([], (fr.close cs).strands) := by
  rw [Frame.close, strands_append, strands]
  refine opening_append_of_ne ?_ _ _
  by_contra hno
  rw [not_or, not_ne_iff, not_ne_iff, strands_eq_nil, strands_eq_nil] at hno
  exact absurd (Frame.alone_iff.2 hno) (by simp [hal])

/-- The strands of a forest around a hole: that through the hole goes on in it. -/
theorem strands_fill (fr : Frame Stage) (up : List (Frame Stage)) (cs : Forest Stage) :
    ∃ F UP, gather (fr :: up) = F :: UP ∧ (fill (fr :: up) cs).strands =
      fill ({ F with content := F.content ++ (opening cs.strands).1 } :: UP)
        (opening cs.strands).2 := by
  induction up generalizing fr cs with
  | nil =>
    refine ⟨⟨fr.before.strands, 0, [(fr.id, fr.content)], fr.after.strands⟩, [], ?_, ?_⟩
    · cases hal : fr.alone <;> simp [gather]
    · simp [fill, Frame.close, strands]
  | cons parent up ih =>
    obtain ⟨F, UP, hF, hfill⟩ := ih parent (fr.close cs)
    have hclose : (fr.close cs).strands = fr.before.strands ++
        node 0 ((fr.id, fr.content) :: (opening cs.strands).1) (opening cs.strands).2
          fr.after.strands := by
      rw [Frame.close, strands_append, strands]
    rw [fill, hfill]
    cases hal : fr.alone with
    | true =>
      obtain ⟨hb, ha⟩ := Frame.alone_iff.1 hal
      refine ⟨{ F with content := F.content ++ [(fr.id, fr.content)] }, UP, ?_, ?_⟩
      · rw [gather, hal, hF]
      · rw [hclose, hb, ha]
        simp [strands, opening]
    | false =>
      refine ⟨_, F :: UP, by rw [gather, hal, hF], ?_⟩
      rw [Frame.opening_close hal, hclose]
      simp [fill, Frame.close]

/-- The strands of a forest around a node: those of what is below it change with the node. -/
theorem exists_strands_fill (before after : Forest Stage) (up : List (Frame Stage)) :
    ∃ B A w UP, ∀ i a cs, (fill (⟨before, i, a, after⟩ :: up) cs).strands =
      fill UP (B ++ node 0 (w ++ (i, a) :: (opening cs.strands).1) (opening cs.strands).2 A) := by
  obtain ⟨B, A, w, UP, hgather⟩ := exists_gather before after up
  refine ⟨B, A, w, UP, fun i a cs => ?_⟩
  obtain ⟨F, UP', hF, hfill⟩ := strands_fill ⟨before, i, a, after⟩ up cs
  rw [hgather] at hF
  obtain ⟨rfl, rfl⟩ := List.cons.inj hF
  rw [hfill]
  simp [fill, Frame.close]

/-! ### Moves and rows -/

variable {C : Stage → Stage → Prop} {R : Stage → Stage → Prop} {pass : Pass} {policy : FacetPolicy}
  {f f' : Forest Stage}

/-- Where a node and the strand below it become others, that strand changes and the others do
    not. -/
theorem forall₂_strands_fill {R : List (Nat × Stage) → List (Nat × Stage) → Prop}
    (hR : ∀ w, R w w) (before after : Forest Stage) (up : List (Frame Stage)) {i j : Nat}
    {a b : Stage} {cs ds : Forest Stage} (hbelow : (opening cs.strands).2 = (opening ds.strands).2)
    (h : ∀ w, R (w ++ (i, a) :: (opening cs.strands).1) (w ++ (j, b) :: (opening ds.strands).1)) :
    Forall₂ R (fill (⟨before, i, a, after⟩ :: up) cs).strands
      (fill (⟨before, j, b, after⟩ :: up) ds).strands := by
  obtain ⟨B, A, w, UP, hstrands⟩ := exists_strands_fill before after up
  rw [hstrands, hstrands, hbelow]
  exact Forall₂.fill hR UP ((Forall₂.refl hR B).append (.node (h w) (.refl hR _) (.refl hR A)))

/-- A move reroutes one strand and leaves the others. -/
theorem Rewrites.strands (h : Rewrites pass policy f f') (hp : pass ≠ .parse) :
    Forall₂ (Rerouted (fun _ _ => True) pass policy) f.strands f'.strands := by
  cases h with
  | @join fr b c h up i gc =>
    obtain ⟨before, p, a, after⟩ := fr
    exact forall₂_strands_fill .refl before after up rfl fun w => .join h trivial w p i _
  | @rise fr b dims h up i gc =>
    obtain ⟨before, p, a, after⟩ := fr
    exact forall₂_strands_fill .refl before after up rfl fun w => .rise h trivial w p i _
  | drop h => exact absurd h hp
  | put h => exact absurd h hp
  | widen h => exact absurd h hp

/-- What holds of every stage and its only child holds along every strand. -/
theorem adjoins_iff_strands :
    f.Adjoins C ↔ ∀ e ∈ f.strands.toList, e.2.IsChain fun x y => C x.2 y.2 := by
  constructor
  · intro hC
    -- an induction over the trees in a place of the forest, for all frames around the place
    suffices ∀ (t g : Forest Stage) (up : List (Frame Stage)), f = fill up (g ++ t) →
        ∀ e ∈ t.strands.toList, e.2.IsChain fun x y => C x.2 y.2 from this f nil [] rfl
    intro t
    induction t with
    | nil => exact fun _ _ _ e he => absurd he (by simp [strands, toList])
    | node i a cs rest ihc ihr =>
      intro g up hfill e he
      have hbelow := ihc nil (⟨g, i, a, rest⟩ :: up) hfill
      simp only [strands, toList, List.mem_cons, List.mem_append] at he
      rcases he with rfl | he | he
      · rcases opening_cases cs with ⟨j, b, gc, rfl, ho⟩ | ho
        · -- the strand goes on with an only child
          rw [ho]
          have hchain := hbelow (0, (j, b) :: (opening gc.strands).1) (by simp [strands, toList])
          exact .cons_cons (hC ⟨g, i, a, rest⟩ up j b gc hfill) hchain
        · rw [ho]
          exact .singleton _
      · exact hbelow e (mem_toList_of_opening he)
      · refine ihr (g ++ node i a cs nil) up ?_ e he
        rw [append_assoc]
        exact hfill
  · rintro h fr up i b gc rfl
    obtain ⟨before, p, a, after⟩ := fr
    obtain ⟨B, A, w, UP, hstrands⟩ := exists_strands_fill before after up
    -- a stage and its only child are on one strand
    have hmem : (0, w ++ (p, a) :: (i, b) :: (opening gc.strands).1) ∈
        (fill (⟨before, p, a, after⟩ :: up) (node i b gc nil)).strands.toList := by
      rw [hstrands, toList_eq_map_places _ []]
      exact List.mem_map_of_mem (mem_places_fill ⟨B, 0, _, A⟩ UP _)
    have hchain := h _ hmem
    exact (List.isChain_cons_cons.1 hchain.right_of_append).1

/-- What holds of all stages in a row holds along every strand. -/
theorem Fenced.strands {seen : List Stage} (h : f.Fenced R seen) :
    ∀ e ∈ f.strands.toList, e.2.Pairwise fun x y => R x.2 y.2 := by
  -- with the stages that the forest goes on from
  suffices (∀ e ∈ f.strands.toList, e.2.Pairwise fun x y => R x.2 y.2) ∧
      ∀ x ∈ (opening f.strands).1, ∀ b ∈ seen, R b x.2 from this.1
  induction f generalizing seen with
  | nil => exact ⟨by simp [Forest.strands, toList], by simp [Forest.strands, opening]⟩
  | node i a cs rest ihc ihr =>
    obtain ⟨ha, hc, hr⟩ := h
    obtain ⟨hbelow, -⟩ := ihc hc
    have hrow : ∀ x ∈ (opening cs.strands).1, ∀ b ∈ seen ++ [a], R b x.2 := by
      rcases opening_cases cs with ⟨j, b, gc, rfl, -⟩ | ho
      · rw [if_pos (by simp [roots])] at hc
        exact (ihc hc).2
      · simp [ho]
    have hstrand : ((i, a) :: (opening cs.strands).1).Pairwise fun x y => R x.2 y.2 := by
      refine List.pairwise_cons.2 ⟨fun x hx => hrow x hx a (by simp), ?_⟩
      rcases opening_cases cs with ⟨j, b, gc, rfl, ho⟩ | ho
      · rw [ho]
        exact hbelow (0, (j, b) :: (opening gc.strands).1) (by simp [Forest.strands, toList])
      · simp [ho]
    constructor
    · intro e he
      simp only [Forest.strands, toList, List.mem_cons, List.mem_append] at he
      rcases he with rfl | he | he
      · exact hstrand
      · exact hbelow e (mem_toList_of_opening he)
      · exact (ihr hr).1 e he
    · intro x hx b hb
      cases rest with
      | nil =>
        simp only [Forest.strands, opening, List.mem_cons] at hx
        rcases hx with rfl | hx
        · exact ha b hb
        · exact hrow x hx b (by simp [hb])
      | node => exact absurd hx (by simp [Forest.strands, opening])

/-! ### Passes -/

/-- A stage with siblings is not moved, unless it is a conversion. -/
theorem Frame.stay_of_not_alone {fr parent : Frame Stage} {up : List (Frame Stage)}
    {cs : Forest Stage} (hp : pass ≠ .parse) (hf : (fill (fr :: parent :: up) cs).Lawful)
    (hal : fr.alone = false) : fr.move pass policy parent = .stay := by
  cases hmove : fr.move pass policy parent with
  | stay => rfl
  | join =>
    obtain ⟨c, hj⟩ := Frame.joins_of_move hmove
    exact absurd (hf.alone_of_joins hj) (by simp [hal])
  | rise => exact absurd (Frame.rises_of_move hmove).2 (by simp [hal])
  | relocate => exact absurd (Frame.parse_of_move hmove).1 hp

/-- A stage without siblings moves below its parent as it would on a strand. -/
theorem Frame.move_alone {b : Stage} {i : Nat} {fr : Frame Stage} :
    (Frame.mk nil i b nil).move pass policy fr = .stay ↔
      (pass.handles b.tag = true → Move.choose policy b fr.content true = .stay) :=
  @Frame.move_only pass policy (fr.id, fr.content) (i, b)

/-- Once a pass has come to its end, its stages stay on every strand. -/
theorem Settled.stays (hs : Settled pass policy f) :
    ∀ e ∈ f.strands.toList, Stays pass policy e.2 := by
  refine (adjoins_iff_strands (C := fun a b =>
    pass.handles b.tag = true → Move.choose policy b a true = .stay)).1 ?_
  intro fr up i b gc hfill
  have hchain := hs.above (show f = fill (⟨nil, i, b, nil⟩ :: fr :: up) gc from hfill)
  exact Frame.move_alone.1 (List.isChain_cons_cons.1 hchain).1

/-- A pass has come to its end when its stages stay on every strand. -/
theorem settled_iff_strands (hp : pass ≠ .parse) (hf : f.Lawful) :
    Settled pass policy f ↔ ∀ e ∈ f.strands.toList, Stays pass policy e.2 := by
  refine ⟨Settled.stays, fun h fr up cs hfill hleaf => ?_⟩
  have hadjoins := (adjoins_iff_strands (C := fun a b =>
    pass.handles b.tag = true → Move.choose policy b a true = .stay)).2 h
  clear hleaf
  induction up generalizing fr cs with
  | nil => exact .singleton fr
  | cons parent up ih =>
    refine .cons_cons ?_ (ih parent (fr.close cs) hfill)
    cases hal : fr.alone with
    | false => exact Frame.stay_of_not_alone hp (hfill ▸ hf) hal
    | true =>
      obtain ⟨before, i, b, after⟩ := fr
      obtain ⟨rfl, rfl⟩ := Frame.alone_iff.1 hal
      exact Frame.move_alone.2 (hadjoins parent up i b cs hfill)

/-- What passes one after the other make of a strand, each until its stages stay. -/
inductive Reroutes (policy : FacetPolicy) :
    List Pass → List (Nat × Stage) → List (Nat × Stage) → Prop
  | nil (w) : Reroutes policy [] w w
  | cons {pass passes w w' w''}
      (hr : Relation.ReflTransGen (Rerouted (fun _ _ => True) pass policy) w w')
      (hs : Stays pass policy w') (rest : Reroutes policy passes w' w'') :
      Reroutes policy (pass :: passes) w w''

/-- So do any number of moves, each strand by its own. -/
theorem strands_of_rewrites (h : Relation.ReflTransGen (Rewrites pass policy) f f')
    (hp : pass ≠ .parse) :
    Forall₂ (Relation.ReflTransGen (Rerouted (fun _ _ => True) pass policy)) f.strands f'.strands := by
  induction h with
  | refl => exact .refl (fun _ => .refl) _
  | tail _ h ih => exact ih.trans (fun _ _ _ h h' => h.tail h') (h.strands hp)

/-- Passes turn every strand into another one. -/
theorem strands_of_passes {passes : List Pass} (h : Flow.Passes policy passes f f')
    (hp : .parse ∉ passes) : Forall₂ (Reroutes policy passes) f.strands f'.strands := by
  induction h with
  | nil f => exact .refl .nil _
  | @cons pass passes f g f' hr hg hs _ ih =>
    rw [List.mem_cons, not_or] at hp
    have hpass := Ne.symm hp.1
    have hstays := (settled_iff_strands hpass hg).1 hs
    refine (strands_of_rewrites hr hpass).trans (fun _ _ _ h h' => ?_) ((ih hp.2).and_left hstays)
    exact .cons h h'.1 h'.2

end ChartPipeline.Forest
