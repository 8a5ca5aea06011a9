import ChartPipeline.Dataset.Encode
import ChartPipeline.Json.Reader
import ChartPipeline.Stage.Source
import Mathlib.Tactic.IntervalCases

/-!
# What a printed value tells

The text of a value says where it ends and what it is made of.  A string reads back from its
quotes.  Beyond strings, a text opens and closes brackets in pairs and has its commas inside them,
so that a list can be cut at its commas again.  It follows what two data declarations with one
text have in common.

* `Json.Read.stringRest_quoted` : what a quoted string stands for is read off its text
* `Json.items_of_compact`, `Json.fields_of_compact` : a text tells the texts of its parts
* `DataSource.alike_of_compact`, `Source.record_alike` : declarations with one text load the same
  data
-/

namespace ChartPipeline

namespace Quoted

/-- The number of a control character is read back from four hexadecimal digits. -/
theorem hex4_hex (n : Nat) (h : n < 32) (t : List Char) :
    Json.Read.hex4 (hex 4 n ++ t) = .ok (n, t) := by
  interval_cases n <;> rfl

/-- A character stands for itself, or an escape does. -/
theorem jsonChar_cases (c : Char) :
    (c ≠ '"' ∧ c ≠ '\\' ∧ 32 ≤ c.toNat ∧ jsonChar c = [c]) ∨
      ∃ e, jsonChar c = '\\' :: e ∧ ∀ t, Json.Read.escape (e ++ t) = .ok (c, t) := by
  unfold jsonChar
  split
  · next h => exact .inr ⟨_, rfl, fun t => by rw [h]; rfl⟩
  split
  · next h => exact .inr ⟨_, rfl, fun t => by rw [h]; rfl⟩
  split
  · next h => exact .inr ⟨_, rfl, fun t => by rw [h]; rfl⟩
  split
  · next h => exact .inr ⟨_, rfl, fun t => by rw [h]; rfl⟩
  split
  · next h => exact .inr ⟨_, rfl, fun t => by rw [h]; rfl⟩
  split
  · next h => exact .inr ⟨_, rfl, fun t => by rw [h]; rfl⟩
  split
  · next h => exact .inr ⟨_, rfl, fun t => by rw [h]; rfl⟩
  split
  · next h =>
    -- below a space, the number is that of no surrogate
    refine .inr ⟨_, rfl, fun t => ?_⟩
    simp only [List.cons_append, Json.Read.escape, Json.Read.unicodeEscape, hex4_hex _ h]
    have hlow : ¬ (0xDC00 ≤ c.toNat ∧ c.toNat ≤ 0xDFFF) := by omega
    have hplain : c.toNat < 0xD800 ∨ c.toNat > 0xDBFF := by omega
    simp [bind, Except.bind, hlow, hplain]
  · next hq hb _ _ _ _ _ h => exact .inl ⟨hq, hb, by omega, rfl⟩

end Quoted

namespace Json

namespace Read

/-- A string is read off its quoted text, and the text after it is left. -/
theorem stringRest_quoted (cs : List Char) (t : List Char) :
    ∀ (fuel : Nat) (acc : List Char), cs.length < fuel →
      stringRest fuel acc (cs.flatMap Quoted.jsonChar ++ '"' :: t) =
        .ok (String.ofList (acc.reverse ++ cs), t) := by
  induction cs with
  | nil =>
    rintro (_ | fuel) acc h
    · omega
    · simp [stringRest]
  | cons c cs ih =>
    -- one turn reads one character, as it stands or by its escape
    rintro (_ | fuel) acc h
    · simp at h
    · have hrest := ih fuel (c :: acc) (by simpa using h)
      obtain ⟨hq, hb, hn, hc⟩ | ⟨e, hc, he⟩ := Quoted.jsonChar_cases c
      · simp only [List.flatMap_cons, hc, List.cons_append, List.nil_append]
        rw [stringRest, if_neg (by omega), hrest]
        · simp
        · exact hq
        · exact hb
      · simp only [List.flatMap_cons, hc, List.cons_append, List.append_assoc]
        rw [stringRest, he]
        simp only [bind, Except.bind, hrest]
        simp

end Read

end Json

namespace Quoted

/-- A quoted text is its characters as they are written, between quotes. -/
theorem toList_json (s : String) :
    (json s).toList = '"' :: (s.toList.flatMap jsonChar ++ ['"']) := by
  simp [json]

/-- Quoted strings end where their quotes say. -/
theorem json_append_inj {s s' : String} {t t' : List Char}
    (h : (json s).toList ++ t = (json s').toList ++ t') : s = s' ∧ t = t' := by
  simp only [toList_json, List.cons_append, List.append_assoc, List.nil_append,
    List.cons.injEq, true_and] at h
  -- both are read with enough turns for either
  let fuel := s.toList.length + s'.toList.length + 1
  have hread := Json.Read.stringRest_quoted s.toList t fuel [] (by omega)
  rw [h, Json.Read.stringRest_quoted s'.toList t' fuel [] (by omega)] at hread
  simp only [List.reverse_nil, List.nil_append, String.ofList_toList, Except.ok.injEq,
    Prod.mk.injEq] at hread
  exact ⟨hread.1.symm, hread.2.symm⟩

/-- Different texts are quoted differently. -/
theorem json_injective {s s' : String} (h : json s = json s') : s = s' :=
  (@json_append_inj s s' [] [] (by rw [h])).1

end Quoted

/-! ### Cutting a text -/

namespace Json

/-- Where in a text a character stands. -/
inductive Spot where
  | outside
  /-- Inside a string. -/
  | quoted
  /-- Inside a string, right after a backslash. -/
  | escaped

/-- What is left of a text from the first comma or closing bracket on that stands in no string and
in none of the lists and objects opened since; `depth` of them are open now. -/
def beyond : Spot → Nat → List Char → List Char
  | _, _, [] => []
  | .escaped, depth, _ :: t => beyond .quoted depth t
  | .quoted, depth, c :: t =>
    beyond (if c = '\\' then .escaped else if c = '"' then .outside else .quoted) depth t
  | .outside, depth, c :: t =>
    if c = '"' then beyond .quoted depth t
    else if c = '[' ∨ c = '\x7b' then beyond .outside (depth + 1) t
    else if c = ']' ∨ c = '\x7d' then if depth = 0 then c :: t else beyond .outside (depth - 1) t
    else if c = ',' ∧ depth = 0 then c :: t
    else beyond .outside depth t

/-- The characters that mark where something begins or ends. -/
def marks : List Char := ['"', '[', '\x7b', ']', '\x7d', ',']

/-- The text is passed over where at least `level` lists and objects are open. -/
def Passed (level : Nat) (cs : List Char) : Prop :=
  ∀ depth t, level ≤ depth → beyond .outside depth (cs ++ t) = beyond .outside depth t

namespace Passed

variable {level : Nat} {cs ds : List Char}

theorem nil : Passed level [] := fun _ _ _ => rfl

/-- Texts that are passed over one by one are passed over together. -/
theorem append (h : Passed level cs) (k : Passed level ds) : Passed level (cs ++ ds) := by
  intro depth t hd
  rw [List.append_assoc, h depth _ hd, k depth t hd]

/-- A text that is passed over is so where more is open. -/
theorem mono {level' : Nat} (h : Passed level cs) (hl : level ≤ level') : Passed level' cs :=
  fun depth t hd => h depth t (hl.trans hd)

/-- A character that marks nothing. -/
theorem singleton {c : Char} (h : c ∉ marks) : Passed level [c] := by
  intro depth t _
  simp only [marks, List.mem_cons, List.not_mem_nil, or_false, not_or] at h
  simp [beyond, h]

/-- A text without marks is passed over. -/
theorem of_unmarked (h : ∀ c ∈ cs, c ∉ marks) : Passed level cs := by
  induction cs with
  | nil => exact nil
  | cons c cs ih =>
    exact (singleton (h c (by simp))).append (ih fun d hd => h d (by simp [hd]))

/-- Inside a list or an object, commas are passed over. -/
theorem comma : Passed 1 [','] := by
  intro depth t hd
  have hne : depth ≠ 0 := by omega
  simp [beyond, hne]

/-- A list or an object, from its opening bracket to the closing one. -/
theorem bracketed {start stop : Char} (hstart : start = '[' ∨ start = '\x7b')
    (hstop : stop = ']' ∨ stop = '\x7d') (h : Passed 1 cs) :
    Passed 0 (start :: (cs ++ [stop])) := by
  intro depth t _
  -- the bracket opens one list or object more
  have hopen : beyond .outside depth (start :: (cs ++ [stop] ++ t)) =
      beyond .outside (depth + 1) (cs ++ ([stop] ++ t)) := by
    rcases hstart with rfl | rfl <;> simp [beyond]
  rw [List.cons_append, hopen, h (depth + 1) _ (by omega)]
  rcases hstop with rfl | rfl <;> simp [beyond]

/-- The characters of a string up to its closing quote. -/
theorem beyond_quoted (cs : List Char) (depth : Nat) (t : List Char) :
    beyond .quoted depth (cs.flatMap Quoted.jsonChar ++ '"' :: t) = beyond .outside depth t := by
  induction cs with
  | nil => simp [beyond]
  | cons c cs ih =>
    rw [List.flatMap_cons, List.append_assoc, ← ih]
    -- what follows the character does not matter for it
    generalize cs.flatMap Quoted.jsonChar ++ '"' :: t = u
    unfold Quoted.jsonChar
    split_ifs with h
    all_goals try (simp [beyond]; done)
    · have hlt := ‹c.toNat < 32›
      generalize c.toNat = n at hlt
      interval_cases n <;> rfl
    · simp [beyond, *]

/-- A quoted text is passed over. -/
theorem quoted (s : String) : Passed 0 (Quoted.json s).toList := by
  intro depth t _
  rw [Quoted.toList_json]
  simp [beyond, beyond_quoted]

end Passed

/-! ### Numbers -/

/-- The characters in texts of numbers, and in those of `NaN`, `inf` and `null`. -/
def numerals : List Char :=
  ['0', '1', '2', '3', '4', '5', '6', '7', '8', '9', '+', '-', '.', 'e', 'N', 'a', 'i', 'n', 'f',
    'u', 'l']

/-- A closed text of numerals is checked by evaluation. -/
theorem numerals_of_all {cs : List Char} (h : (cs.all fun c => numerals.contains c) = true) :
    ∀ c ∈ cs, c ∈ numerals := by
  simpa using h

/-- Digits are numerals. -/
theorem isDigit_numeral {c : Char} (h : c.isDigit = true) : c ∈ numerals := by
  obtain ⟨hlow, hhigh⟩ : 48 ≤ c.toNat ∧ c.toNat ≤ 57 := by
    simpa [Char.isDigit, UInt32.le_iff_toNat_le] using h
  rw [← Char.ofNat_toNat c]
  generalize c.toNat = n at hlow hhigh
  interval_cases n <;> decide

/-- The digits of a number are numerals. -/
theorem toDigits_numerals {n : Nat} : ∀ c ∈ Nat.toDigits 10 n, c ∈ numerals :=
  fun _ hc => isDigit_numeral (Nat.isDigit_of_mem_toDigits (by omega) (by omega) hc)

/-- The text of a natural number has numerals only. -/
theorem nat_numerals (n : Nat) : ∀ c ∈ (toString n).toList, c ∈ numerals := by
  rw [Nat.toString_eq_ofList_toDigits, String.toList_ofList]
  exact toDigits_numerals

/-- So has that of an integer, with its sign. -/
theorem int_numerals (n : Int) : ∀ c ∈ (toString n).toList, c ∈ numerals := by
  cases n with
  | ofNat n => exact nat_numerals n
  | negSucc n =>
    have htext : (toString (Int.negSucc n)).toList = '-' :: (toString (n + 1)).toList := by
      simp [Int.toString_eq_repr, Int.repr]
    rw [htext]
    simp only [List.mem_cons, forall_eq_or_imp]
    exact ⟨by decide, nat_numerals (n + 1)⟩

/-- Digits written with a point have numerals only if the digits are. -/
theorem positional_numerals {d : Digits} (hd : ∀ c ∈ d.digits, c ∈ numerals) {whole : String}
    (hw : ∀ c ∈ whole.toList, c ∈ numerals) : ∀ c ∈ (d.positional whole).toList, c ∈ numerals := by
  -- the zeros that are put before or after
  have hzeros : ∀ n, ∀ c ∈ List.replicate n '0', c ∈ numerals := fun n c hc => by
    rw [List.eq_of_mem_replicate hc]; decide
  have hpoint : ∀ c ∈ "0.".toList, c ∈ numerals := numerals_of_all (by decide)
  intro c hc
  simp only [Digits.positional] at hc
  split at hc
  · simp only [String.toList_append, String.toList_ofList, List.mem_append] at hc
    rcases hc with hc | hc | hc
    · exact hpoint c hc
    · exact hzeros _ c hc
    · exact hd c hc
  split at hc
  · simp only [String.toList_append, String.toList_ofList, List.mem_append] at hc
    rcases hc with (hc | hc) | hc
    · exact hd c hc
    · exact hzeros _ c hc
    · exact hw c hc
  · simp only [String.toList_ofList, List.mem_append, List.mem_cons] at hc
    rcases hc with hc | rfl | hc
    · exact hd c (List.mem_of_mem_take hc)
    · decide
    · exact hd c (List.mem_of_mem_drop hc)

/-- Digits written with an exponent have numerals only if the digits are. -/
theorem scientific_numerals {d : Digits} (hd : ∀ c ∈ d.digits, c ∈ numerals) :
    ∀ c ∈ d.scientific.toList, c ∈ numerals := by
  obtain ⟨digits, point⟩ := d
  have hminus : ∀ c ∈ "e-".toList, c ∈ numerals := numerals_of_all (by decide)
  have hplus : ∀ c ∈ "e+".toList, c ∈ numerals := numerals_of_all (by decide)
  unfold Digits.scientific
  intro c hc
  simp only [String.toList_append, List.mem_append] at hc
  -- the mantissa, the mark of the exponent, and the exponent
  rcases hc with (hc | hc) | hc
  · match digits, hd, hc with
    | [], _, hc => simp at hc
    | [_], hd, hc => exact hd c (by simpa using hc)
    | e :: f :: rest, hd, hc =>
      simp only [String.toList_ofList, List.mem_cons] at hc
      rcases hc with rfl | rfl | hc
      · exact hd c (by simp)
      · decide
      · exact hd c (by simp [hc])
  · split at hc
    · exact hminus c hc
    · exact hplus c hc
  · exact nat_numerals _ c hc

/-- A sign may stand before a text of numerals. -/
theorem sign_append_numerals (negative : Bool) {text : String}
    (h : ∀ c ∈ text.toList, c ∈ numerals) :
    ∀ c ∈ (FloatText.sign negative ++ text).toList, c ∈ numerals := by
  have hsign : ∀ c ∈ (FloatText.sign negative).toList, c ∈ numerals := by
    cases negative <;> exact numerals_of_all (by decide)
  rw [String.toList_append, List.forall_mem_append]
  exact ⟨hsign, h⟩

/-- The JSON text of a float has numerals only. -/
theorem float_numerals (x : Float) : ∀ c ∈ (FloatText.json x).toList, c ∈ numerals := by
  unfold FloatText.json
  split
  · exact numerals_of_all (by decide)
  · exact numerals_of_all (by decide)
  · exact sign_append_numerals _ (numerals_of_all (by decide))
  · refine sign_append_numerals _ ?_
    split
    · exact positional_numerals (fun _ => toDigits_numerals _) (numerals_of_all (by decide))
    · exact scientific_numerals fun _ => toDigits_numerals _

/-- The plain text of a float has numerals only. -/
theorem plain_numerals (x : Float) : ∀ c ∈ (FloatText.plain x).toList, c ∈ numerals := by
  unfold FloatText.plain
  split
  · exact numerals_of_all (by decide)
  · exact sign_append_numerals _ (numerals_of_all (by decide))
  · exact sign_append_numerals _ (numerals_of_all (by decide))
  · exact sign_append_numerals _ (positional_numerals (fun _ => toDigits_numerals _)
      (numerals_of_all (by decide)))

/-- A closed text without marks is checked by evaluation. -/
theorem unmarked_of_all {cs : List Char} (h : (cs.all fun c => !marks.contains c) = true) :
    ∀ c ∈ cs, c ∉ marks := by
  simpa using h

/-- No numeral is a mark. -/
theorem unmarked_of_numerals {cs : List Char} (h : ∀ c ∈ cs, c ∈ numerals) : ∀ c ∈ cs, c ∉ marks :=
  have hall : ∀ c ∈ numerals, c ∉ marks := unmarked_of_all (by decide)
  fun c hc => hall c (h c hc)

/-! ### Parts of a text -/

/-- The text of a field. -/
def fieldText (e : String × Json) : String := Quoted.json e.1 ++ ":" ++ e.2.compact

/-- Items are written with commas between them. -/
theorem compactItems_eq (js : List Json) :
    compactItems js = ",".intercalate (js.map compact) := by
  induction js with
  | nil => simp [compactItems]
  | cons j js ih =>
    cases js with
    | nil => simp [compactItems]
    | cons k js =>
      rw [compactItems, ih]
      · simp only [List.map_cons, String.intercalate_cons_cons]
      · simp

/-- Fields are written with commas between them. -/
theorem compactFields_eq (fs : List (String × Json)) :
    compactFields fs = ",".intercalate (fs.map fieldText) := by
  induction fs with
  | nil => simp [compactFields]
  | cons e fs ih =>
    cases fs with
    | nil => simp [compactFields, fieldText]
    | cons k fs =>
      rw [compactFields, ih]
      · simp only [List.map_cons, String.intercalate_cons_cons, fieldText]
      · simp

/-- The text of a list: its items between brackets. -/
theorem toList_compact_arr (js : List Json) :
    (compact (arr js)).toList =
      '[' :: ([','].intercalate (js.map fun j => j.compact.toList) ++ [']']) := by
  simp only [compact, compactItems_eq, String.toList_append, String.toList_intercalate,
    List.map_map]
  rfl

/-- The text of an object: its fields between braces. -/
theorem toList_compact_obj (fs : List (String × Json)) :
    (compact (obj fs)).toList =
      '\x7b' :: ([','].intercalate (fs.map fun e => (fieldText e).toList) ++ ['\x7d']) := by
  simp only [compact, compactFields_eq, String.toList_append, String.toList_intercalate,
    List.map_map]
  rfl

/-- Texts with commas between them are passed over inside a list. -/
theorem Passed.joined {texts : List (List Char)} (h : ∀ cs ∈ texts, Passed 0 cs) :
    Passed 1 ([','].intercalate texts) := by
  induction texts with
  | nil => exact nil
  | cons cs texts ih =>
    have hcs : Passed 1 cs := (h cs (by simp)).mono (by omega)
    have hrest := ih fun ds hds => h ds (by simp [hds])
    cases texts with
    | nil => simpa using hcs
    | cons ds texts =>
      rw [List.intercalate_cons_of_ne_nil (by simp)]
      exact (hcs.append comma).append hrest

/-- A field is passed over if its value is. -/
theorem passed_fieldText {e : String × Json} (h : Passed 0 e.2.compact.toList) :
    Passed 0 (fieldText e).toList := by
  have hcolon : Passed 0 ":".toList := .of_unmarked (unmarked_of_all (by decide))
  simp only [fieldText, String.toList_append]
  exact ((Passed.quoted e.1).append hcolon).append h

/-- The text of a value has its brackets in pairs and its commas inside them. -/
theorem passed_compact : ∀ j : Json, Passed 0 j.compact.toList
  | null => .of_unmarked (unmarked_of_all (by decide))
  | bool b => .of_unmarked (by cases b <;> exact unmarked_of_all (by decide))
  | int n => .of_unmarked (unmarked_of_numerals (int_numerals n))
  | float x => .of_unmarked (unmarked_of_numerals (float_numerals x))
  | str s => .quoted s
  | arr js => by
    have hitems : ∀ cs ∈ js.map fun j => j.compact.toList, Passed 0 cs := by
      intro cs hcs
      obtain ⟨j, hj, rfl⟩ := List.mem_map.1 hcs
      exact passed_compact j
    rw [toList_compact_arr]
    exact .bracketed (.inl rfl) (.inl rfl) (.joined hitems)
  | obj fs => by
    have hfields : ∀ cs ∈ fs.map fun e => (fieldText e).toList, Passed 0 cs := by
      intro cs hcs
      obtain ⟨e, he, rfl⟩ := List.mem_map.1 hcs
      exact passed_fieldText (passed_compact e.2)
    rw [toList_compact_obj]
    exact .bracketed (.inr rfl) (.inr rfl) (.joined hfields)
termination_by j => sizeOf j
decreasing_by
  · have := List.sizeOf_lt_of_mem hj
    simp only [arr.sizeOf_spec]; omega
  · have := List.sizeOf_lt_of_mem he
    obtain ⟨name, value⟩ := e
    simp only [Prod.mk.sizeOf_spec, obj.sizeOf_spec] at *; omega

/-- The text of a float is not empty. -/
theorem float_ne_nil (x : Float) : (FloatText.json x).toList ≠ [] := by
  unfold FloatText.json
  split
  · decide
  · decide
  · simp
  · next m q _ _ =>
    -- a number has at least one digit
    have hdigits : (Decimal.shortest .even m q).toDigits.digits ≠ [] := Nat.toDigits_ne_nil
    simp only [String.toList_append, ne_eq, List.append_eq_nil_iff, not_and]
    intro _
    split
    · simp only [Digits.positional]
      split_ifs <;> simp [hdigits]
    · simp only [Digits.scientific]
      split_ifs <;> simp

/-- No value has the empty text. -/
theorem compact_ne_nil (j : Json) : j.compact.toList ≠ [] := by
  cases j with
  | null => decide
  | bool b => cases b <;> decide
  | int n =>
    cases n with
    | ofNat n => exact mt String.toList_eq_nil_iff.1 Nat.repr_ne_empty
    | negSucc n => simp [compact, Int.toString_eq_repr, Int.repr]
  | float x => exact float_ne_nil x
  | str s => simp [compact, Quoted.toList_json]
  | arr js => simp [toList_compact_arr]
  | obj fs => simp [toList_compact_obj]

/-- What follows the first of several joined texts. -/
def joinedTail : List (List Char) → List Char
  | [] => []
  | texts => ',' :: [','].intercalate texts

/-- The first of several joined texts, and what follows it. -/
theorem intercalate_cons (cs : List Char) (texts : List (List Char)) :
    [','].intercalate (cs :: texts) = cs ++ joinedTail texts := by
  cases texts with
  | nil => simp [joinedTail]
  | cons ds texts =>
    rw [List.intercalate_cons_of_ne_nil (by simp)]
    simp [joinedTail]

/-- What follows a text begins where a cut ends. -/
theorem beyond_joinedTail (texts : List (List Char)) :
    beyond .outside 0 (joinedTail texts) = joinedTail texts := by
  cases texts <;> simp [joinedTail, beyond]

/-- Joined texts can be told apart again. -/
theorem joined_inj {texts others : List (List Char)}
    (ht : ∀ cs ∈ texts, Passed 0 cs ∧ cs ≠ []) (ho : ∀ cs ∈ others, Passed 0 cs ∧ cs ≠ [])
    (h : [','].intercalate texts = [','].intercalate others) : texts = others := by
  induction texts generalizing others with
  | nil =>
    cases others with
    | nil => rfl
    | cons ds others =>
      rw [intercalate_cons, List.intercalate_nil] at h
      exact absurd (List.append_eq_nil_iff.1 h.symm).1 (ho ds (by simp)).2
  | cons cs texts ih =>
    cases others with
    | nil =>
      rw [intercalate_cons, List.intercalate_nil] at h
      exact absurd (List.append_eq_nil_iff.1 h).1 (ht cs (by simp)).2
    | cons ds others =>
      rw [intercalate_cons, intercalate_cons] at h
      -- passing over the first text on both sides leaves what follows it
      have htails : joinedTail texts = joinedTail others := by
        have hcut := congrArg (beyond .outside 0) h
        rwa [(ht cs (by simp)).1 0 _ le_rfl, (ho ds (by simp)).1 0 _ le_rfl,
          beyond_joinedTail, beyond_joinedTail] at hcut
      rw [htails] at h
      rw [List.append_cancel_right h]
      have hrest : [','].intercalate texts = [','].intercalate others := by
        cases texts <;> cases others <;> simp_all [joinedTail]
      rw [ih (fun cs hcs => ht cs (by simp [hcs])) (fun cs hcs => ho cs (by simp [hcs])) hrest]

/-- The text of a list tells the texts of its items. -/
theorem items_of_compact {js ks : List Json} (h : (arr js).compact = (arr ks).compact) :
    js.map compact = ks.map compact := by
  -- each item can be passed over and is not empty
  have hitem : ∀ ls : List Json, ∀ cs ∈ ls.map fun j => j.compact.toList,
      Passed 0 cs ∧ cs ≠ [] := by
    intro ls cs hcs
    obtain ⟨j, -, rfl⟩ := List.mem_map.1 hcs
    exact ⟨passed_compact j, compact_ne_nil j⟩
  have hlists := congrArg String.toList h
  rw [toList_compact_arr, toList_compact_arr, List.cons.injEq] at hlists
  have hjoined := joined_inj (hitem js) (hitem ks) (List.append_cancel_right hlists.2)
  have htexts := congrArg (List.map String.ofList) hjoined
  simpa [List.map_map, Function.comp_def] using htexts

/-- The text of a field tells its name and the text of its value. -/
theorem fieldText_inj {e f : String × Json} (h : fieldText e = fieldText f) :
    e.1 = f.1 ∧ e.2.compact = f.2.compact := by
  have hlists := congrArg String.toList h
  simp only [fieldText, String.toList_append, List.append_assoc] at hlists
  obtain ⟨hname, hvalue⟩ := Quoted.json_append_inj hlists
  exact ⟨hname, String.toList_inj.1 (List.append_cancel_left hvalue)⟩

/-- The name of a field and the text of its value. -/
def fieldParts (e : String × Json) : String × String := (e.1, e.2.compact)

/-- The texts of fields tell their names and the texts of their values. -/
theorem fieldParts_of_fieldText {fs gs : List (String × Json)}
    (h : fs.map fieldText = gs.map fieldText) : fs.map fieldParts = gs.map fieldParts := by
  induction fs generalizing gs with
  | nil => simpa [eq_comm] using h
  | cons e fs ih =>
    cases gs with
    | nil => simp at h
    | cons f gs =>
      simp only [List.map_cons, List.cons.injEq] at h ⊢
      obtain ⟨hname, hvalue⟩ := fieldText_inj h.1
      exact ⟨Prod.ext hname hvalue, ih h.2⟩

/-- The text of an object tells the names of its fields and the texts of their values. -/
theorem fields_of_compact {fs gs : List (String × Json)} (h : (obj fs).compact = (obj gs).compact) :
    fs.map fieldParts = gs.map fieldParts := by
  have hfield : ∀ es : List (String × Json), ∀ cs ∈ es.map fun e => (fieldText e).toList,
      Passed 0 cs ∧ cs ≠ [] := by
    intro es cs hcs
    obtain ⟨e, -, rfl⟩ := List.mem_map.1 hcs
    exact ⟨passed_fieldText (passed_compact e.2), by simp [fieldText]⟩
  have hlists := congrArg String.toList h
  rw [toList_compact_obj, toList_compact_obj, List.cons.injEq] at hlists
  have hjoined := joined_inj (hfield fs) (hfield gs) (List.append_cancel_right hlists.2)
  have htexts := congrArg (List.map String.ofList) hjoined
  simp only [List.map_map, Function.comp_def, String.ofList_toList] at htexts
  exact fieldParts_of_fieldText htexts

/-- An object's text is made of the names of its fields and the texts of their values. -/
theorem compact_obj_congr {fs gs : List (String × Json)}
    (h : fs.map fieldParts = gs.map fieldParts) : (obj fs).compact = (obj gs).compact := by
  have htext : ∀ es : List (String × Json), es.map fieldText =
      (es.map fieldParts).map fun p => Quoted.json p.1 ++ ":" ++ p.2 := fun es => by
    simp [fieldText, fieldParts]
  simp only [compact, compactFields_eq, htext, h]

/-- The text of a string tells the string. -/
theorem str_of_compact {s t : String} (h : (str s).compact = (str t).compact) : s = t :=
  Quoted.json_injective h

end Json

/-! ### Data declarations -/

/-- The text of a format tells its type. -/
theorem DataFormat.type_of_compact {f f' : DataFormat} (h : f.toJson.compact = f'.toJson.compact) :
    f.type = f'.type := by
  have hfields := Json.fields_of_compact h
  obtain ⟨type, parse⟩ := f
  obtain ⟨type', parse'⟩ := f'
  -- the two fields have different names, so that it is known which are there
  cases type <;> cases type' <;> cases parse <;> cases parse' <;>
    simp_all [Json.optional, Json.fieldParts]
  · exact Json.str_of_compact hfields
  · exact Json.str_of_compact hfields.1

/-- The type of an optional format. -/
def formatType (f : Option DataFormat) : Option String := f.bind DataFormat.type

/-- So does the text of a format that may be missing. -/
theorem formatType_of_optional {f f' : Option DataFormat}
    (h : (Json.optional "format" DataFormat.toJson f).map Json.fieldParts =
      (Json.optional "format" DataFormat.toJson f').map Json.fieldParts) :
    formatType f = formatType f' := by
  cases f <;> cases f' <;> simp_all [formatType, Json.optional, Json.fieldParts]
  exact DataFormat.type_of_compact h

/-- Two declarations of the same data, which may differ in the conversions of fields and where two
values are written alike. -/
inductive DataSource.Alike : DataSource → DataSource → Prop
  | values {rows rows' : List Json} {format format' : Option DataFormat}
      (same : rows.map Json.compact = rows'.map Json.compact)
      (type : formatType format = formatType format') :
      Alike (.values rows format) (.values rows' format')
  | url {address : String} {format format' : Option DataFormat}
      (type : formatType format = formatType format') :
      Alike (.url address format) (.url address format')
  | sequence {params params' : SequenceParams}
      (same : params.fields.map Json.fieldParts = params'.fields.map Json.fieldParts) :
      Alike (.sequence params) (.sequence params')
  | named {name : String} : Alike (.named name) (.named name)

/-- Declarations with one text are of the same data. -/
theorem DataSource.alike_of_compact {d d' : DataSource} (h : d.toJson.compact = d'.toJson.compact) :
    d.Alike d' := by
  -- the name of the first field tells the kind
  cases d <;> cases d' <;> have hfields := Json.fields_of_compact h <;>
    simp [Json.fieldParts] at hfields
  case values.values =>
    exact .values (Json.items_of_compact hfields.1) (formatType_of_optional hfields.2)
  case url.url =>
    rw [Json.str_of_compact hfields.1]
    exact .url (formatType_of_optional hfields.2)
  case sequence.sequence => exact .sequence (Json.fields_of_compact hfields)
  case named.named =>
    rw [Json.str_of_compact hfields]
    exact .named

/-- Two records load the same data: they differ at most in their names, in the conversions of
fields, and where two values are written alike. -/
structure DatasetRecord.Alike (r r' : DatasetRecord) : Prop where
  values : r.values.map (List.map Json.compact) = r'.values.map (List.map Json.compact)
  url : r.url = r'.url
  type : formatType r.format = formatType r'.format
  steps : r.steps.map (fun step => step.toJson.compact) =
    r'.steps.map (fun step => step.toJson.compact)

namespace DatasetRecord.Alike

variable {r r' r'' : DatasetRecord}

theorem refl (r : DatasetRecord) : r.Alike r := ⟨rfl, rfl, rfl, rfl⟩

/-- Loading the same data goes both ways. -/
theorem symm (h : r.Alike r') : r'.Alike r :=
  ⟨h.values.symm, h.url.symm, h.type.symm, h.steps.symm⟩

/-- It goes from one record to the next. -/
theorem trans (h : r.Alike r') (h' : r'.Alike r'') : r.Alike r'' :=
  ⟨h.values.trans h'.values, h.url.trans h'.url, h.type.trans h'.type, h.steps.trans h'.steps⟩

end DatasetRecord.Alike

namespace Source

variable {s s' : Source}

/-- Alike declarations make records that load the same data. -/
theorem record_alike (h : s.data.Alike s'.data) (name name' : String) :
    (s.record name).Alike (s'.record name') := by
  obtain ⟨data, hash⟩ := s
  obtain ⟨data', hash'⟩ := s'
  cases h with
  | values same type => exact ⟨by simp [record, same], rfl, type, rfl⟩
  | url type => exact ⟨rfl, rfl, type, rfl⟩
  | sequence same =>
    refine ⟨rfl, rfl, rfl, ?_⟩
    simp only [record, List.map_cons, List.map_nil, Step.toJson, Step.toJson.fields,
      List.cons.injEq, and_true]
    exact Json.compact_obj_congr (by simp [same, Step.kind])
  | named => exact ⟨rfl, rfl, rfl, rfl⟩

end Source

end ChartPipeline
