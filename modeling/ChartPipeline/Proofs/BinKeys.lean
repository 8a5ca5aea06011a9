import ChartPipeline.Chart.Bin
import ChartPipeline.Proofs.Naming
import ChartPipeline.Proofs.ShortestText

/-!
# Keys of binnings

The key of a binning is made of words with underscores between them: the names and values of the
parameters that are given, and then the name of the field.  A word of the parameters has no
underscore and tells its value, so parameters can be read back from their words.  The name of a
field may have any number of underscores, so where the parameters end cannot be read off a key.

## Key results

- `FloatText.plain_injective`: the plain text of a float tells the float
- `BinParams.words_injective`: parameters are told by their words
- `BinParams.fieldKey_eq_iff`: exactly which binnings have one key
-/

namespace ChartPipeline

/-! ### Plain texts of floats -/

/-- Without a text after whole numbers, a positional text still tells its number. -/
theorem Digits.textNumber_positional_bare {d : Digits} (hd : AllDigits d.digits) :
    textNumber (d.positional "").toList = d.number := by
  rw [← d.textNumber_positional hd, positional, positional]
  split_ifs
  · rfl
  · have hdigits : AllDigits (d.digits ++ List.replicate (d.point.toNat - d.digits.length) '0') :=
      hd.append (.zeros _)
    -- the text with a point and a zero after it tells the same number
    have hpoint := textNumber_point hdigits (.zeros 1)
    generalize d.digits ++ List.replicate (d.point.toNat - d.digits.length) '0' = cs at *
    have he : 'e' ∉ cs := hdigits.not_mem (by decide)
    have htext : (String.ofList cs ++ ".0").toList = cs ++ '.' :: List.replicate 1 '0' := by simp
    rw [htext, hpoint, String.append_empty, String.toList_ofList, textNumber_plain he,
      pointNumber_whole hdigits, Nat.ofDigitChars_append, Nat.ofDigitChars_replicate_zero]
    push_cast
    norm_num
    ring
  · rfl

/-- A positional text has no underscore. -/
theorem Digits.underscore_notMem {d : Digits} (hd : AllDigits d.digits) :
    '_' ∉ (d.positional "").toList := by
  have hdigits : '_' ∉ d.digits := hd.not_mem (by decide)
  rw [positional]
  split_ifs
  · simp [hdigits]
  · simp [hdigits]
  · rw [String.toList_ofList, List.mem_append, List.mem_cons]
    rintro (h | h | h)
    · exact hdigits (List.mem_of_mem_take h)
    · exact absurd h (by decide)
    · exact hdigits (List.mem_of_mem_drop h)

namespace FloatText

/-- How a double is spelled after its sign. -/
inductive Spells : Double → Bool → List Char → Prop
  | nan : Spells .nan false ['N', 'a', 'N']
  | infinite (negative : Bool) : Spells (.infinite negative) negative ['i', 'n', 'f']
  | finite (negative : Bool) {m : Nat} {q : Int} {c : Char} {cs : List Char}
    (digit : c.isDigit = true) (word : '_' ∉ c :: cs) (canonical : Canonical m q)
    (rounds : RoundsTo (textNumber (c :: cs)) m q) : Spells (.finite negative m q) negative (c :: cs)

/-- A spelling is that of one double. -/
theorem Spells.unique {d d' : Double} {negative : Bool} {cs : List Char}
    (h : Spells d negative cs) (h' : Spells d' negative cs) : d = d' := by
  -- letters and digits differ in their first character
  cases h with
  | nan =>
    cases h' with
    | nan => rfl
    | finite _ digit => cases digit
  | infinite =>
    cases h' with
    | infinite => rfl
    | finite _ digit => cases digit
  | finite _ digit _ canonical rounds =>
    cases h' with
    | nan => cases digit
    | infinite => cases digit
    | finite _ _ _ canonical' rounds' =>
      obtain ⟨rfl, rfl⟩ := rounds.unique canonical canonical' rounds'
      rfl

/-- A sign is no part of what is spelled after it. -/
theorem Spells.sign_cancel {d d' : Double} {negative negative' : Bool} {cs cs' : List Char}
    (hd : Spells d negative cs) (hd' : Spells d' negative' cs')
    (h : (sign negative).toList ++ cs = (sign negative').toList ++ cs') :
    negative = negative' ∧ cs = cs' := by
  -- no spelling begins with a sign
  have hfront {d : Double} {negative : Bool} {cs : List Char} (hd : Spells d negative cs) :
      ∃ c rest, cs = c :: rest ∧ c ≠ '-' := by
    cases hd with
    | nan => exact ⟨_, _, rfl, by decide⟩
    | infinite => exact ⟨_, _, rfl, by decide⟩
    | finite _ digit => exact ⟨_, _, rfl, fun e => by rw [e] at digit; cases digit⟩
  obtain ⟨c, rest, rfl, hc⟩ := hfront hd
  obtain ⟨c', rest', rfl, hc'⟩ := hfront hd'
  cases negative <;> cases negative' <;> simp [sign] at h
  · simp [h]
  · exact absurd h.1 hc
  · exact absurd h.1.symm hc'
  · simp [h]

/-- The plain text of a float is its sign and its spelling. -/
theorem plain_spells (x : Float) : ∃ negative cs,
    (plain x).toList = (sign negative).toList ++ cs ∧ Spells (Double.ofFloat x) negative cs := by
  cases h : Double.ofFloat x with
  | nan => exact ⟨_, _, by simp [plain, h, sign], .nan⟩
  | infinite negative => exact ⟨_, _, by simp [plain, h], .infinite negative⟩
  | finite negative m q =>
    have hc := Double.canonical_of_bits h
    rcases Nat.eq_zero_or_pos m with rfl | hm
    · have hzero : textNumber ['0'] = 0 := by
        have hdigits : AllDigits ['0'] := .zeros 1
        rw [textNumber_plain (by decide), pointNumber_whole hdigits]
        simp [Nat.ofDigitChars]
      exact ⟨negative, ['0'], by simp [plain, h], .finite _ rfl (by decide) hc (hzero ▸ RoundsTo.zero q)⟩
    · have hround := Decimal.shortest_roundsTo .up hc hm
      rw [← Decimal.number_toDigits] at hround
      have hd : AllDigits (Decimal.shortest .up m q).toDigits.digits := .toDigits _
      have hne : (Decimal.shortest .up m q).toDigits.digits ≠ [] := Nat.toDigits_ne_nil
      have htext : plain x =
          sign negative ++ (Decimal.shortest .up m q).toDigits.positional "" := by
        rw [plain, h]
        split
        · contradiction
        · contradiction
        · next heq =>
          cases heq
          exact absurd hm (Nat.lt_irrefl 0)
        · next heq =>
          cases heq
          rfl
      -- from here on only the digits matter
      generalize (Decimal.shortest .up m q).toDigits = d at *
      obtain ⟨c, cs, hcs, hdigit⟩ := d.positional_head hd hne ""
      refine ⟨negative, c :: cs, by rw [htext, String.toList_append, hcs], ?_⟩
      exact .finite _ hdigit (hcs ▸ d.underscore_notMem hd) hc
        (hcs ▸ d.textNumber_positional_bare hd ▸ hround)

end FloatText

namespace Double

open Float.Model.UnpackedFloat in
/-- All floats that are no number have the same bits. -/
theorem toBits_of_nan {x : Float} (h : ofFloat x = nan) : x.toBits = 0x7ff8000000000000 := by
  simp only [ofFloat, ofBits] at h
  split_ifs at h with hmax hzero
  have hexponent : @unpackExponent .binary64 x.toBits.toBitVec = -1#_ := by
    rw [← BitVec.toNat_inj, unpackExponent, BitVec.toNat_cast, BitVec.extractLsb_toNat]
    simp [Nat.shiftRight_eq_div_pow]
    exact hmax
  have hmantissa : @unpackMantissa .binary64 x.toBits.toBitVec ≠ 0#_ := by
    rw [← BitVec.toNat_inj.ne, unpackMantissa, BitVec.toNat_cast, BitVec.extractLsb_toNat]
    simp [Nat.shiftRight_eq_div_pow]
    exact hzero
  refine UInt64.toBitVec_inj.1 ((x.toModel.valid.eq_packedNaN hexponent hmantissa).trans ?_)
  decide

/-- The bits of an infinite float are told by its sign. -/
theorem toBits_of_infinite {x : Float} {negative : Bool} (h : ofFloat x = infinite negative) :
    x.toBits = if negative then 0xfff0000000000000 else 0x7ff0000000000000 := by
  have hlt := x.toBits.toNat_lt
  simp only [ofFloat, ofBits] at h
  split_ifs at h with hmax hzero
  obtain rfl := Double.infinite.inj h
  refine UInt64.toNat_inj.1 ?_
  by_cases hsign : x.toBits.toNat / 2 ^ 63 = 1
  · rw [if_pos (decide_eq_true hsign)]
    show x.toBits.toNat = 0xfff0000000000000
    omega
  · rw [if_neg (by simpa using hsign)]
    show x.toBits.toNat = 0x7ff0000000000000
    omega

/-- A float is told by what it stands for. -/
theorem ofFloat_injective {x y : Float} (h : ofFloat x = ofFloat y) : x = y := by
  have hbits (hbits : x.toBits = y.toBits) : x = y := by
    obtain ⟨⟨bits, hx⟩⟩ := x
    obtain ⟨⟨bits', hy⟩⟩ := y
    obtain rfl : bits = bits' := hbits
    rfl
  -- only of numbers do the bits differ
  cases hy : ofFloat y with
  | nan => exact hbits ((toBits_of_nan (h.trans hy)).trans (toBits_of_nan hy).symm)
  | infinite negative =>
    exact hbits ((toBits_of_infinite (h.trans hy)).trans (toBits_of_infinite hy).symm)
  | finite negative m q => exact float_eq (h.trans hy) hy

end Double

/-- The plain text of a float tells the float. -/
theorem FloatText.plain_injective {x y : Float} (h : plain x = plain y) : x = y := by
  obtain ⟨negative, cs, hx, hsx⟩ := plain_spells x
  obtain ⟨negative', cs', hy, hsy⟩ := plain_spells y
  rw [h, hy] at hx
  obtain ⟨rfl, rfl⟩ := hsy.sign_cancel hsx hx
  exact Double.ofFloat_injective (hsx.unique hsy)

/-! ### Words with underscores between them -/

/-- Words and what comes after them, with underscores between. -/
def joined (ws : List String) (last : String) : String :=
  ws.foldr (fun w text => w ++ "_" ++ text) last

/-- A text that an underscore cannot cut. -/
def IsWord (w : String) : Prop := '_' ∉ w.toList

instance (w : String) : Decidable (IsWord w) := inferInstanceAs (Decidable ('_' ∉ w.toList))

@[simp] theorem joined_nil (last : String) : joined [] last = last := rfl

@[simp] theorem joined_cons (w : String) (ws : List String) (last : String) :
    joined (w :: ws) last = w ++ "_" ++ joined ws last := rfl

/-- Words before words. -/
theorem joined_append (ws vs : List String) (last : String) :
    joined (ws ++ vs) last = joined ws (joined vs last) :=
  List.foldr_append

/-- The first word can be read off a text. -/
theorem IsWord.cancel {w w' r r' : String} (hw : IsWord w) (hw' : IsWord w')
    (h : w ++ "_" ++ r = w' ++ "_" ++ r') : w = w' ∧ r = r' := by
  have htexts : w.toList ++ '_' :: r.toList = w'.toList ++ '_' :: r'.toList := by
    have := congrArg String.toList h
    simpa [String.toList_append] using this
  -- both texts are cut at their first underscore
  obtain ⟨htake, hdrop⟩ := cut_at hw r.toList
  obtain ⟨htake', hdrop'⟩ := cut_at hw' r'.toList
  rw [htexts, htake'] at htake
  rw [htexts, hdrop'] at hdrop
  exact ⟨String.toList_inj.1 htake.symm, String.toList_inj.1 (List.cons.inj hdrop).2.symm⟩

/-- Two texts of words are the same exactly if the words of one go on in what comes after those of
    the other. -/
theorem joined_eq_iff {ws vs : List String} (hws : ∀ w ∈ ws, IsWord w) (hvs : ∀ w ∈ vs, IsWord w)
    {f g : String} : joined ws f = joined vs g ↔
      (∃ rest, ws = vs ++ rest ∧ g = joined rest f) ∨
        ∃ rest, vs = ws ++ rest ∧ f = joined rest g := by
  constructor
  · intro h
    -- word by word, until one of the lists ends
    induction ws generalizing vs with
    | nil => exact .inr ⟨vs, rfl, h⟩
    | cons w ws ih =>
      cases vs with
      | nil => exact .inl ⟨w :: ws, rfl, h.symm⟩
      | cons v vs =>
        obtain ⟨rfl, hrest⟩ := (hws w (by simp)).cancel (hvs v (by simp)) h
        rcases ih (fun w hw => hws w (by simp [hw])) (fun w hw => hvs w (by simp [hw])) hrest with
          ⟨rest, rfl, hg⟩ | ⟨rest, rfl, hf⟩
        · exact .inl ⟨rest, rfl, hg⟩
        · exact .inr ⟨rest, rfl, hf⟩
  · rintro (⟨rest, rfl, rfl⟩ | ⟨rest, rfl, rfl⟩)
    · exact joined_append vs rest f
    · exact (joined_append ws rest g).symm

/-- The plain text of a float is a word. -/
theorem isWord_plain (x : Float) : IsWord (FloatText.plain x) := by
  obtain ⟨negative, cs, htext, hspells⟩ := FloatText.plain_spells x
  have hsign : '_' ∉ (FloatText.sign negative).toList := by cases negative <;> decide
  rw [IsWord, htext, List.mem_append]
  generalize Double.ofFloat x = d at hspells
  cases hspells with
  | nan => simpa using hsign
  | infinite => simpa using hsign
  | finite _ _ word => exact fun h => h.elim hsign word

/-- The text of a natural number is a word. -/
theorem isWord_toString (n : Nat) : IsWord (toString n) := by
  rw [IsWord, Nat.toString_eq_ofList_toDigits, String.toList_ofList]
  exact (AllDigits.toDigits n).not_mem (by decide)

/-! ### The words of parameters -/

namespace BinParams

/-- The parameters by their names, each with the words for its value if it is given. -/
def parts (p : BinParams) : List (String × Option (List String)) :=
  [("extent", p.extent.map fun e => [FloatText.plain e.1, FloatText.plain e.2]),
    ("maxbins", p.maxbins.map fun n => [toString n]),
    ("step", p.step.map fun x => [FloatText.plain x]),
    ("minstep", p.minstep.map fun x => [FloatText.plain x]),
    ("nice", p.nice.map fun b => [if b then "true" else "false"]),
    ("base", p.base.map fun x => [FloatText.plain x])]

/-- The words of parts, each given one after its name. -/
def spell (parts : List (String × Option (List String))) : List String :=
  parts.flatMap fun part => part.2.elim [] (part.1 :: ·)

/-- The words of the parameters that are given. -/
def words (p : BinParams) : List String := spell p.parts

/-- A part of a key, if it is given. -/
def part (name : String) : Option String → String
  | some text => "_" ++ name ++ "_" ++ text
  | none => ""

/-- A part goes before words as the words of its value. -/
theorem part_append {β : Type} {name : String} {text : β → String} {value : β → List String}
    (h : ∀ b r, text b ++ "_" ++ r = joined (value b) r) (b : Option β) (ws : List String)
    (last : String) : part name (b.map text) ++ ("_" ++ joined ws last) =
      "_" ++ joined ((b.map value).elim [] (name :: ·) ++ ws) last := by
  cases b with
  | none => rw [Option.map_none, part, String.empty_append]; rfl
  | some b =>
    simp only [Option.map_some, part, Option.elim_some, List.cons_append, joined_cons, joined_append,
      ← h, String.append_assoc]

/-- A key is the words of the parameters, and then the field. -/
theorem fieldKey_eq_joined (p : BinParams) (field : String) :
    p.fieldKey field = joined ("bin" :: p.words) field := by
  have hkey : p.fieldKey field = "bin" ++
      part "extent" (p.extent.map fun e => FloatText.plain e.1 ++ "_" ++ FloatText.plain e.2) ++
      part "maxbins" (p.maxbins.map toString) ++ part "step" (p.step.map FloatText.plain) ++
      part "minstep" (p.minstep.map FloatText.plain) ++
      part "nice" (p.nice.map fun b => if b then "true" else "false") ++
      part "base" (p.base.map FloatText.plain) ++ "_" ++ joined [] field := rfl
  -- the value of a part is one word, but for the extent, which has two
  have hone {β : Type} (text : β → String) (b : β) (r : String) :
      text b ++ "_" ++ r = joined [text b] r := rfl
  rw [hkey]
  simp only [String.append_assoc]
  have htwo (e : Float × Float) (r : String) :
      FloatText.plain e.1 ++ ("_" ++ FloatText.plain e.2) ++ "_" ++ r =
        joined [FloatText.plain e.1, FloatText.plain e.2] r := by
    simp only [joined_cons, joined_nil, String.append_assoc]
  rw [part_append (hone FloatText.plain),
    part_append (hone fun b : Bool => if b then "true" else "false"),
    part_append (hone FloatText.plain), part_append (hone FloatText.plain),
    part_append (hone toString), part_append htwo]
  rfl

/-- The words of the first part come before those of the others. -/
theorem spell_cons (name : String) (value : Option (List String))
    (ps : List (String × Option (List String))) :
    spell ((name, value) :: ps) = value.elim [] (name :: ·) ++ spell ps := rfl

/-- Words begin with a name that they are told to have. -/
theorem spell_ne_cons {name : String} {ps : List (String × Option (List String))}
    (h : name ∉ ps.map Prod.fst) (ws : List String) : spell ps ≠ name :: ws := by
  -- the first part that is given has another name
  induction ps with
  | nil => exact (List.cons_ne_nil name ws).symm
  | cons p ps ih =>
    obtain ⟨n, value⟩ := p
    rw [List.map_cons, List.mem_cons, not_or] at h
    rw [spell_cons]
    cases value with
    | none => exact ih h.2
    | some v => exact fun e => h.1 (List.cons.inj e).1.symm

/-- Parts with the same names can be read off their words, where the name tells how many words a
    value has. -/
theorem spell_injective {arity : String → Nat} {ps qs : List (String × Option (List String))}
    (hnames : ps.map Prod.fst = qs.map Prod.fst) (hn : (ps.map Prod.fst).Nodup)
    (hps : ∀ p ∈ ps, ∀ v ∈ p.2, v.length = arity p.1)
    (hqs : ∀ q ∈ qs, ∀ v ∈ q.2, v.length = arity q.1) (h : spell ps = spell qs) : ps = qs := by
  induction ps generalizing qs with
  | nil => exact (List.map_eq_nil_iff.1 hnames.symm).symm
  | cons p ps ih =>
    obtain ⟨q, qs, rfl⟩ := List.exists_cons_of_ne_nil (l := qs) fun e => by simp [e] at hnames
    obtain ⟨name, x⟩ := p
    obtain ⟨name', y⟩ := q
    rw [List.map_cons, List.map_cons, List.cons.injEq] at hnames
    obtain ⟨rfl : name = name', hnames⟩ := hnames
    rw [List.map_cons, List.nodup_cons] at hn
    rw [spell_cons, spell_cons] at h
    have htail (h : spell ps = spell qs) : ps = qs :=
      ih hnames hn.2 (fun p hp => hps p (List.mem_cons_of_mem _ hp))
        (fun q hq => hqs q (List.mem_cons_of_mem _ hq)) h
    -- the name is there or not, since the words of all later parts begin with other names
    match x, y with
    | none, none => rw [htail h]
    | none, some w => exact absurd h (spell_ne_cons hn.1 _)
    | some v, none => exact absurd h.symm (spell_ne_cons (hnames ▸ hn.1) _)
    | some v, some w =>
      have hlength : v.length = w.length :=
        (hps _ List.mem_cons_self v rfl).trans (hqs _ List.mem_cons_self w rfl).symm
      obtain ⟨rfl, hrest⟩ := List.append_inj (List.cons.inj h).2 hlength
      rw [htail hrest]

/-- How many words the value of a parameter has. -/
def arity (name : String) : Nat := if name = "extent" then 2 else 1

/-- The value of a parameter has as many words as its name tells. -/
theorem length_of_mem_parts (p : BinParams) :
    ∀ part ∈ p.parts, ∀ v ∈ part.2, v.length = arity part.1 := by
  have hlength {β : Type} {b : Option β} {value : β → List String} {n : Nat}
      (h : ∀ b, (value b).length = n) : ∀ v ∈ b.map value, v.length = n := by
    intro v hv
    obtain ⟨b, -, rfl⟩ := Option.map_eq_some_iff.1 hv
    exact h b
  simp only [parts, List.forall_mem_cons]
  exact ⟨hlength fun _ => rfl, hlength fun _ => rfl, hlength fun _ => rfl, hlength fun _ => rfl,
    hlength fun _ => rfl, hlength fun _ => rfl, by simp⟩

/-- Parameters are told by their words. -/
theorem words_injective {p q : BinParams} (h : p.words = q.words) : p = q := by
  have hnames : (p.parts.map Prod.fst).Nodup := by
    show ["extent", "maxbins", "step", "minstep", "nice", "base"].Nodup
    decide
  have hparts : p.parts = q.parts :=
    spell_injective rfl hnames p.length_of_mem_parts q.length_of_mem_parts h
  -- each value is told by its words
  have hfloat : Function.Injective fun x : Float => [FloatText.plain x] := fun x y hxy =>
    FloatText.plain_injective (List.cons.inj hxy).1
  have hbounds : Function.Injective fun e : Float × Float =>
      [FloatText.plain e.1, FloatText.plain e.2] := fun x y hxy =>
    Prod.ext (FloatText.plain_injective (List.cons.inj hxy).1)
      (FloatText.plain_injective (List.cons.inj (List.cons.inj hxy).2).1)
  have hnumber : Function.Injective fun n : Nat => [toString n] := fun m n hmn =>
    Assembly.toString_inj (List.cons.inj hmn).1
  have hflag : Function.Injective fun b : Bool => [if b then "true" else "false"] := by decide
  simp only [parts, List.cons.injEq, Prod.mk.injEq, true_and, and_true] at hparts
  obtain ⟨hextent, hmaxbins, hstep, hminstep, hnice, hbase⟩ := hparts
  obtain ⟨extent, maxbins, step, minstep, nice, base⟩ := p
  rw [mk.injEq]
  exact ⟨Option.map_injective hbounds hextent, Option.map_injective hnumber hmaxbins,
    Option.map_injective hfloat hstep, Option.map_injective hfloat hminstep,
    Option.map_injective hflag hnice, Option.map_injective hfloat hbase⟩

/-- No word of parameters has an underscore. -/
theorem isWord_of_mem_words (p : BinParams) : ∀ w ∈ p.words, IsWord w := by
  have hvalue {β : Type} {b : Option β} {value : β → List String}
      (h : ∀ b, ∀ w ∈ value b, IsWord w) : ∀ v ∈ b.map value, ∀ w ∈ v, IsWord w := by
    intro v hv
    obtain ⟨b, -, rfl⟩ := Option.map_eq_some_iff.1 hv
    exact h b
  have hplain (x : Float) : ∀ w ∈ [FloatText.plain x], IsWord w := by
    simpa using isWord_plain x
  -- the names of parameters are words, and so is each way to write a value
  have hparts : ∀ part ∈ p.parts, IsWord part.1 ∧ ∀ v ∈ part.2, ∀ w ∈ v, IsWord w := by
    simp only [parts, List.forall_mem_cons]
    refine ⟨⟨by decide, hvalue fun e => ?_⟩, ⟨by decide, hvalue fun n => ?_⟩,
      ⟨by decide, hvalue hplain⟩, ⟨by decide, hvalue hplain⟩, ⟨by decide, hvalue fun b => ?_⟩,
      ⟨by decide, hvalue hplain⟩, by simp⟩
    · simpa using ⟨isWord_plain e.1, isWord_plain e.2⟩
    · simpa using isWord_toString n
    · cases b <;> decide
  intro w hw
  obtain ⟨⟨name, value⟩, hpart, hw⟩ := List.mem_flatMap.1 hw
  obtain ⟨hname, hall⟩ := hparts _ hpart
  cases value with
  | none => cases hw
  | some v =>
    rcases List.mem_cons.1 hw with rfl | hw
    · exact hname
    · exact hall v rfl w hw

/-- The parameters of one binning go on in the name of the other one's field. -/
def RunsOn (p : BinParams) (field : String) (q : BinParams) (field' : String) : Prop :=
  ∃ rest, rest ≠ [] ∧ p.words = q.words ++ rest ∧ field' = joined rest field

/-- Two binnings have one key exactly if they are the same, or the parameters of one go on in the
    name of the other one's field. -/
theorem fieldKey_eq_iff {p q : BinParams} {field field' : String} :
    p.fieldKey field = q.fieldKey field' ↔
      (p = q ∧ field = field') ∨ p.RunsOn field q field' ∨ q.RunsOn field' p field := by
  -- both keys begin with the same word
  have hcancel : p.fieldKey field = q.fieldKey field' ↔
      joined p.words field = joined q.words field' := by
    rw [fieldKey_eq_joined, fieldKey_eq_joined, joined_cons, joined_cons, String.append_right_inj]
  rw [hcancel, joined_eq_iff p.isWord_of_mem_words q.isWord_of_mem_words]
  constructor
  · rintro (⟨rest, hwords, hfield⟩ | ⟨rest, hwords, hfield⟩)
    · rcases eq_or_ne rest [] with rfl | hne
      · rw [List.append_nil] at hwords
        exact .inl ⟨words_injective hwords, hfield.symm⟩
      · exact .inr (.inl ⟨rest, hne, hwords, hfield⟩)
    · rcases eq_or_ne rest [] with rfl | hne
      · rw [List.append_nil] at hwords
        exact .inl ⟨(words_injective hwords).symm, hfield⟩
      · exact .inr (.inr ⟨rest, hne, hwords, hfield⟩)
  · rintro (⟨rfl, rfl⟩ | ⟨rest, -, h⟩ | ⟨rest, -, h⟩)
    · exact .inl ⟨[], (List.append_nil _).symm, rfl⟩
    · exact .inl ⟨rest, h⟩
    · exact .inr ⟨rest, h⟩

end BinParams

end ChartPipeline
