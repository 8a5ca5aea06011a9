import ChartPipeline.SortedMap

/-!
# Looking up in sorted maps

A sorted map is determined by the values at its keys, so equations between maps are proved key by
key.

## Key results

- `mem_entries_iff`: the entries are the keys with their values
- `ext_get?`: maps with the same value at every key are equal
- `get?_mergeWith`: the value at a key after a merge
-/

namespace ChartPipeline.SortedMap

variable {κ α : Type} [LT κ] [DecidableEq κ]

section

variable [Std.Irrefl (α := κ) (· < ·)]

/-- Keys ascend, so a search for the key of an entry finds that entry and no earlier one. -/
private theorem find?_of_mem {es : List (κ × α)} (h : es.Pairwise fun a b => a.1 < b.1)
    {e : κ × α} (he : e ∈ es) : es.find? (·.1 = e.1) = some e := by
  induction es with
  | nil => exact absurd he (by simp)
  | cons e' rest ih =>
    obtain ⟨hlt, hrest⟩ := List.pairwise_cons.1 h
    rcases List.mem_cons.1 he with rfl | he
    · simp
    · have hne : e'.1 ≠ e.1 := fun heq =>
        Std.Irrefl.irrefl (r := fun a b : κ => a < b) e.1 (heq ▸ hlt e he)
      rw [List.find?_cons_of_neg (by simpa using hne)]
      exact ih hrest he

/-- The entries are the keys with their values. -/
theorem mem_entries_iff {m : SortedMap κ α} {e : κ × α} :
    e ∈ m.entries ↔ m.get? e.1 = some e.2 := by
  constructor
  · intro he
    rw [get?, find?_of_mem m.sorted he]
    rfl
  · intro h
    rw [get?] at h
    obtain ⟨e', he', hval⟩ := Option.map_eq_some_iff.1 h
    have hkey : e'.1 = e.1 := by simpa using List.find?_some he'
    rw [← Prod.ext (x := e') (y := e) hkey hval]
    exact List.mem_of_find?_eq_some he'

end

variable [Trans (α := κ) (· < ·) (· < ·) (· < ·)] [Std.Irrefl (α := κ) (· < ·)]

omit [DecidableEq κ] in
/-- Ascending lists with the same entries are the same list. -/
private theorem entries_eq {es fs : List (κ × α)} (he : es.Pairwise fun a b => a.1 < b.1)
    (hf : fs.Pairwise fun a b => a.1 < b.1) (h : ∀ e, e ∈ es ↔ e ∈ fs) : es = fs := by
  have asymm (a b : κ) (hab : a < b) : ¬ b < a := fun hba =>
    Std.Irrefl.irrefl (r := fun a b : κ => a < b) a
      (Trans.trans (r := fun a b : κ => a < b) (s := fun a b : κ => a < b) hab hba)
  induction es generalizing fs with
  | nil =>
    cases fs with
    | nil => rfl
    | cons f fs => exact absurd ((h f).2 (by simp)) (by simp)
  | cons e es ih =>
    cases fs with
    | nil => exact absurd ((h e).1 (by simp)) (by simp)
    | cons f fs =>
      obtain ⟨helt, hes⟩ := List.pairwise_cons.1 he
      obtain ⟨hflt, hfs⟩ := List.pairwise_cons.1 hf
      -- both lists begin with their least key, so neither first entry can stand further down in the
      -- other list
      have hef : e = f := by
        rcases List.mem_cons.1 ((h e).1 (by simp)) with heq | hmem
        · exact heq
        · rcases List.mem_cons.1 ((h f).2 (by simp)) with heq | hmem'
          · exact heq.symm
          · exact absurd (hflt e hmem) (asymm _ _ (helt f hmem'))
      subst hef
      refine congrArg (e :: ·) (ih hes hfs fun x => ?_)
      -- the common first entry is in neither rest, so the rests have the same entries too
      have hx := h x
      simp only [List.mem_cons] at hx
      constructor
      · intro hm
        refine (hx.1 (.inr hm)).resolve_left ?_
        rintro rfl
        exact Std.Irrefl.irrefl (r := fun a b : κ => a < b) _ (helt _ hm)
      · intro hm
        refine (hx.2 (.inr hm)).resolve_left ?_
        rintro rfl
        exact Std.Irrefl.irrefl (r := fun a b : κ => a < b) _ (hflt _ hm)

/-- Maps with the same value at every key are equal. -/
theorem ext_get? {m n : SortedMap κ α} (h : ∀ k, m.get? k = n.get? k) : m = n :=
  ext (entries_eq m.sorted n.sorted fun e => by rw [mem_entries_iff, mem_entries_iff, h])

variable [DecidableLT κ] [Std.Trichotomous (α := κ) (· < ·)]

/-- The value at a key after another one was set. -/
theorem get?_insert (m : SortedMap κ α) (k : κ) (v : α) (x : κ) :
    (m.insert k v).get? x = if x = k then some v else m.get? x :=
  get?_upsert m k _ x

/-- Values set at different keys may be set in either order. -/
theorem insert_comm (m : SortedMap κ α) {k l : κ} (h : k ≠ l) (v w : α) :
    (m.insert k v).insert l w = (m.insert l w).insert k v := by
  refine ext_get? fun x => ?_
  simp only [get?_insert]
  by_cases hk : x = k
  · have hl : x ≠ l := fun hl => h (hk.symm.trans hl)
    rw [if_neg hl, if_pos hk, if_pos hk]
  · rw [if_neg hk, if_neg hk]

/-- What a merge leaves at a key: the entries of one map are put into the other one by one, and at
    most one of them has the key. -/
private theorem get?_foldl_upsert (f : α → α → α) {es : List (κ × α)}
    (h : es.Pairwise fun a b => a.1 < b.1) (m : SortedMap κ α) (x : κ) :
    (es.foldl (fun acc e => acc.upsert e.1 fun
      | some v => f v e.2
      | none => e.2) m).get? x =
      match m.get? x, (es.find? (·.1 = x)).map Prod.snd with
      | some v, some w => some (f v w)
      | some v, none => some v
      | none, w => w := by
  -- an induction over what is still to be put in, for any map it is put into
  induction es generalizing m with
  | nil =>
    rw [List.foldl_nil, List.find?_nil, Option.map_none]
    cases m.get? x <;> rfl
  | cons e es ih =>
    obtain ⟨hlt, hes⟩ := List.pairwise_cons.1 h
    rw [List.foldl_cons, ih hes, get?_upsert]
    by_cases hx : x = e.1
    · -- no later entry has the key
      have hnone : es.find? (·.1 = x) = none := by
        refine List.find?_eq_none.2 fun e' he' => ?_
        have := hlt e' he'
        simp only [decide_eq_true_eq]
        rintro rfl
        exact Std.Irrefl.irrefl (r := fun a b : κ => a < b) _ (hx ▸ this)
      subst hx
      rw [if_pos rfl, hnone, List.find?_cons_of_pos (by simp)]
      cases m.get? e.1 <;> rfl
    · rw [if_neg hx, List.find?_cons_of_neg (by simpa using fun h : e.1 = x => hx h.symm)]

/-- The value at a key after a merge: that of one map, or both joined. -/
theorem get?_mergeWith (f : α → α → α) (m other : SortedMap κ α) (x : κ) :
    (mergeWith f m other).get? x =
      match m.get? x, other.get? x with
      | some v, some w => some (f v w)
      | some v, none => some v
      | none, w => w :=
  get?_foldl_upsert f other.sorted m x

end ChartPipeline.SortedMap
