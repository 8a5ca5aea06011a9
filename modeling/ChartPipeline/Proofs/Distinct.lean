import ChartPipeline.Proofs.Printed
import ChartPipeline.Proofs.RoundTrip
import ChartPipeline.Proofs.ShortestText

/-!
# A text tells its value

How a text begins tells what kind of value it is of, its brackets and commas tell its parts, and
the digits of a number tell the number.  So no two values with finite floats have one text, and
since a declaration of data is read off its JSON form again, neither have two declarations.

## Key results

- `Json.eq_of_compact`: values with finite floats and one text are equal
- `DataSource.eq_of_compact`: declarations with finite floats and one text are equal
-/

namespace ChartPipeline

namespace Json

/-! ### Kinds of values -/

/-- The kinds of JSON values. -/
inductive Kind where
  | null
  | bool
  | int
  | float
  | str
  | arr
  | obj
deriving DecidableEq

/-- The kind of a value. -/
def kind : Json → Kind
  | null => .null
  | bool _ => .bool
  | int _ => .int
  | float _ => .float
  | str _ => .str
  | arr _ => .arr
  | obj _ => .obj

/-- The kind that the first character of a text tells; floats have a point or an exponent. -/
def textKind (cs : List Char) : Kind :=
  match cs.head? with
  | some 'n' => .null
  | some 't' => .bool
  | some 'f' => .bool
  | some '"' => .str
  | some '[' => .arr
  | some '\x7b' => .obj
  | _ => if '.' ∈ cs ∨ 'e' ∈ cs then .float else .int

variable {r s : String → String → Prop} {j k : Json}

/-- A text that begins with a sign or a digit is a number's. -/
theorem textKind_number {c : Char} {cs : List Char} (hc : c = '-' ∨ c.isDigit = true) :
    textKind (c :: cs) = if '.' ∈ c :: cs ∨ 'e' ∈ c :: cs then .float else .int := by
  have hne {mark : Char} (hmark : mark ≠ '-' ∧ mark.isDigit = false) :
      (c :: cs).head? ≠ some mark := by
    rw [List.head?_cons, ne_eq, Option.some.injEq]
    rintro rfl
    rcases hc with hc | hc
    · exact hmark.1 hc
    · exact absurd hmark.2 (by simp [hc])
  rw [textKind]
  -- none of the other characters is a sign or a digit
  split
  all_goals first | exact absurd ‹_› (hne (by decide)) | rfl

/-- The text of an integer: its sign and its digits. -/
theorem int_text (n : Int) : ∃ c cs, Nat.toDigits 10 n.natAbs = c :: cs ∧ c.isDigit = true ∧
    (toString n).toList = (FloatText.sign (n < 0)).toList ++ c :: cs := by
  obtain ⟨c, cs, hcs⟩ := List.exists_cons_of_ne_nil (Nat.toDigits_ne_nil (n := n.natAbs) (b := 10))
  refine ⟨c, cs, hcs, AllDigits.toDigits n.natAbs c (by simp [hcs]), ?_⟩
  rw [← hcs]
  cases n with
  | ofNat n => exact Nat.toList_repr
  | negSucc n => simp [Int.toString_eq_repr, Int.repr, FloatText.sign]

/-- An integer has neither a point nor an exponent. -/
theorem textKind_int (n : Int) : textKind (toString n).toList = .int := by
  obtain ⟨c, cs, hdigits, hc, htext⟩ := int_text n
  have hall : AllDigits (c :: cs) := hdigits ▸ .toDigits _
  have hpoint : '.' ∉ c :: cs := hall.not_mem (by decide)
  have hexponent : 'e' ∉ c :: cs := hall.not_mem (by decide)
  rw [htext]
  cases decide (n < 0) with
  | false => exact (textKind_number (.inr hc)).trans (if_neg (by simp [hpoint, hexponent]))
  | true => exact (textKind_number (.inl rfl)).trans (if_neg (by simp [hpoint, hexponent]))

/-- A float has one of them. -/
theorem textKind_float {x : Float} (hx : FloatText.finite x = true) :
    textKind (FloatText.json x).toList = .float := by
  obtain ⟨negative, m, q, c, cs, -, htext, hc, hmark, -⟩ := FloatText.json_tells hx
  cases negative with
  | false =>
    rw [htext]
    exact (textKind_number (.inr hc)).trans (if_pos hmark)
  | true =>
    rw [htext]
    exact (textKind_number (.inl rfl)).trans
      (if_pos (hmark.imp (List.mem_cons_of_mem _) (List.mem_cons_of_mem _)))

/-- The text of a value tells its kind. -/
theorem textKind_compact (hj : j.Tidy r) : textKind j.compact.toList = j.kind := by
  cases j with
  | null => decide
  | bool b => cases b <;> decide
  | int n => exact textKind_int n
  | float x => exact textKind_float hj
  | str s => rw [compact, Quoted.toList_json]; rfl
  | arr js => rw [toList_compact_arr]; rfl
  | obj fs => rw [toList_compact_obj]; rfl

/-- Values with one text are of one kind. -/
theorem kind_eq_of_compact (hj : j.Tidy r) (hk : k.Tidy s) (h : j.compact = k.compact) :
    j.kind = k.kind := by
  rw [← textKind_compact hj, h, textKind_compact hk]

/-! ### Values -/

/-- Integers with one text are equal. -/
theorem int_of_compact {m n : Int} (h : (int m).compact = (int n).compact) : m = n := by
  obtain ⟨c, cs, hdigits, hc, htext⟩ := int_text m
  obtain ⟨c', cs', hdigits', hc', htext'⟩ := int_text n
  have hlists : (toString m).toList = (toString n).toList := congrArg String.toList h
  rw [htext, htext'] at hlists
  obtain ⟨hsign, hcs⟩ := FloatText.sign_cancel hc hc' hlists
  -- the digits tell the size
  have habs : m.natAbs = n.natAbs := by
    rw [← Nat.ofDigitChars_ten_toDigits (n := m.natAbs), hdigits, hcs, ← hdigits',
      Nat.ofDigitChars_ten_toDigits]
  have hneg : m < 0 ↔ n < 0 := decide_eq_decide.1 hsign
  omega

/-- Lists whose items have the same images are equal, where images tell the items. -/
theorem eq_of_map_eq {α β : Type} {f : α → β} {as bs : List α} (h : as.map f = bs.map f)
    (hf : ∀ a ∈ as, ∀ b ∈ bs, f a = f b → a = b) : as = bs := by
  induction as generalizing bs with
  | nil => exact (List.map_eq_nil_iff.1 h.symm).symm
  | cons a as ih =>
    obtain ⟨b, bs, rfl, hb, hbs⟩ := List.map_eq_cons_iff.1 h.symm
    rw [hf a List.mem_cons_self b List.mem_cons_self hb.symm, ih hbs.symm fun a ha b hb =>
      hf a (List.mem_cons_of_mem _ ha) b (List.mem_cons_of_mem _ hb)]

/-- Values with finite floats and one text are equal. -/
theorem eq_of_compact : (j : Json) → {k : Json} → j.Tidy r → k.Tidy s →
    j.compact = k.compact → j = k
  | null, k, hj, hk, h => by
    cases k with
    | null => rfl
    | _ => cases kind_eq_of_compact hj hk h
  -- the text tells the kind, so that only values of one kind are left to compare
  | bool b, k, hj, hk, h => by
    cases k with
    | bool b' => cases b <;> cases b' <;> first | rfl | exact absurd h (by decide)
    | _ => cases kind_eq_of_compact hj hk h
  | int m, k, hj, hk, h => by
    cases k with
    | int n => rw [int_of_compact h]
    | _ => cases kind_eq_of_compact hj hk h
  | float x, k, hj, hk, h => by
    cases k with
    | float y => rw [FloatText.json_injective hj hk h]
    | _ => cases kind_eq_of_compact hj hk h
  | str a, k, hj, hk, h => by
    cases k with
    | str b => rw [str_of_compact h]
    | _ => cases kind_eq_of_compact hj hk h
  | arr js, k, hj, hk, h => by
    cases k with
    | arr ks =>
      have hitems : js = ks := eq_of_map_eq (items_of_compact h) fun j hmem k hmem' =>
        eq_of_compact j (tidyItems_iff.1 hj j hmem) (tidyItems_iff.1 hk k hmem')
      rw [hitems]
    | _ => cases kind_eq_of_compact hj hk h
  | obj fs, k, hj, hk, h => by
    cases k with
    | obj gs =>
      have hfields : fs = gs := eq_of_map_eq (fields_of_compact h) fun e hmem f hmem' hparts =>
        have ⟨hname, htext⟩ := Prod.ext_iff.1 hparts
        Prod.ext hname (eq_of_compact e.2 (tidyFields_iff.1 hj.2 e hmem)
          (tidyFields_iff.1 hk.2 f hmem') htext)
      rw [hfields]
    | _ => cases kind_eq_of_compact hj hk h
termination_by j => sizeOf j
decreasing_by
  · have := List.sizeOf_lt_of_mem hmem
    simp only [arr.sizeOf_spec]
    omega
  · have := List.sizeOf_lt_of_mem hmem
    obtain ⟨name, value⟩ := e
    simp only [Prod.mk.sizeOf_spec, obj.sizeOf_spec] at *
    omega

end Json

/-- Declarations with finite floats and one text are equal. -/
theorem DataSource.eq_of_compact {data data' : DataSource} (hd : data.Finite) (hd' : data'.Finite)
    (h : data.toJson.compact = data'.toJson.compact) : data = data' := by
  have hjson : data.toJson = data'.toJson :=
    Json.eq_of_compact _ (toJson_isSound hd) (toJson_isSound hd') h
  -- both declarations are read off one JSON value
  have hread := decode_shown hd (Json.shownBy_ofJson data.toJson)
  rw [hjson, decode_shown hd' (Json.shownBy_ofJson data'.toJson)] at hread
  exact (Option.some.inj hread).symm

end ChartPipeline
