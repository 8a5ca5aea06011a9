import ChartPipeline.Text.NumberText
import ChartPipeline.Text.Quoted
import Mathlib.Data.List.Count
import Mathlib.Tactic.IntervalCases

/-!
# String literals

What the string literals of JavaScript, in which expressions are written, denote.  A text there is
a sequence of code units, and a literal is read character by character up to the first quote that
no backslash escapes.  An escape is longer than what it denotes, and a quote inside a literal
denotes a quote.  So a text that stands between quotes as it is denotes itself only if it needs no
escapes.

## Key results

- `Literal.read_verbatim`: a text without quotes, backslashes and line breaks denotes itself
- `Literal.read_json`: a text that is quoted for JSON denotes itself
- `Literal.read_eq_units_iff`: no other text denotes itself as it is
-/

namespace ChartPipeline

/-! ### Code units -/

/-- The code units of a code point: one, or a pair of surrogates. -/
def codeUnits (n : Nat) : List Nat :=
  if n < 0x10000 then [n] else [0xD800 + (n - 0x10000) / 0x400, 0xDC00 + (n - 0x10000) % 0x400]

/-- The code units of a text. -/
def units (cs : List Char) : List Nat := cs.flatMap fun c => codeUnits c.toNat

/-- The code units of a text are those of its characters, one after the other. -/
theorem units_cons (c : Char) (cs : List Char) : units (c :: cs) = codeUnits c.toNat ++ units cs :=
  List.flatMap_cons

/-- A code point has one code unit or two. -/
theorem length_codeUnits (n : Nat) : 1 ≤ (codeUnits n).length ∧ (codeUnits n).length ≤ 2 := by
  unfold codeUnits
  split <;> simp

/-- A text has a code unit of a quote for each quote. -/
theorem count_units (cs : List Char) : (units cs).count '"'.toNat = cs.count '"' := by
  induction cs with
  | nil => rfl
  | cons c cs ih =>
    rw [units_cons, List.count_append, List.count_cons, ih, Nat.add_comm]
    congr 1
    by_cases hc : c = '"'
    · subst hc
      rfl
    · have hne : c.toNat ≠ '"'.toNat := fun h => hc (Char.toNat_inj.1 h)
      rw [if_neg (by simpa using hc), List.count_eq_zero]
      -- surrogates are far from a quote, and other characters are themselves
      unfold codeUnits
      split <;> simp_all [Char.reduceToNat] <;> omega

namespace Literal

/-! ### Reading -/

/-- Where in a literal a character stands. -/
inductive Place where
  | plain
  /-- Right after a backslash. -/
  | escape
  /-- After the escape of the character zero, which no digit may follow. -/
  | zero
  /-- After an escaped carriage return, which a line feed may follow. -/
  | carriage
  /-- At a hexadecimal digit of a number, with `left` more to come. -/
  | digits (left number : Nat)
  /-- After a backslash and a `u`. -/
  | unicode
  /-- In the number of a code point between braces. -/
  | braced (number : Option Nat)
deriving DecidableEq

/-- What becomes of a literal at a character. -/
inductive Turn where
  | refuse
  | close
  /-- The literal goes on, and the character adds to what it denotes. -/
  | go (more : List Nat) (next : Place)
deriving DecidableEq

/-- A character that no escape contains. -/
def plainTurn (quote c : Char) : Turn :=
  if c = quote then .close
  else if c = '\\' then .go [] .escape
  else if c = '\n' ∨ c = '\r' then .refuse
  else .go (codeUnits c.toNat) .plain

/-- The characters that have a meaning of their own after a backslash.  Line breaks are left out. -/
def escapes : List (Char × Turn) :=
  [('b', .go [8] .plain), ('t', .go [9] .plain), ('n', .go [10] .plain), ('v', .go [11] .plain),
    ('f', .go [12] .plain), ('r', .go [13] .plain), ('0', .go [0] .zero),
    ('x', .go [] (.digits 1 0)), ('u', .go [] .unicode), ('\n', .go [] .plain),
    ('\r', .go [] .carriage), (Char.ofNat 0x2028, .go [] .plain),
    (Char.ofNat 0x2029, .go [] .plain)]

/-- The character after a backslash.  Other digits than zero are not allowed, and any other
character stands for itself. -/
def escapeTurn (c : Char) : Turn :=
  match escapes.lookup c with
  | some turn => turn
  | none => if c.isDigit then .refuse else .go (codeUnits c.toNat) .plain

/-- What a character does at a place of a literal between the given quotes. -/
def Place.turn (quote : Char) : Place → Char → Turn
  | plain, c => plainTurn quote c
  | escape, c => escapeTurn c
  | zero, c => if c.isDigit then .refuse else plainTurn quote c
  | carriage, c => if c = '\n' then .go [] plain else plainTurn quote c
  | digits left number, c =>
    match NumberText.hexDigit? c with
    | none => .refuse
    | some d =>
      if left = 0 then .go [number * 16 + d] plain else .go [] (digits (left - 1) (number * 16 + d))
  | unicode, c =>
    if c = '\x7b' then .go [] (braced none)
    else match NumberText.hexDigit? c with
      | none => .refuse
      | some d => .go [] (digits 2 d)
  | braced number, c =>
    if c = '\x7d' then
      match number with
      | none => .refuse
      | some n => .go (codeUnits n) plain
    else match NumberText.hexDigit? c with
      | none => .refuse
      | some d =>
        let n := number.getD 0 * 16 + d
        if n ≤ 0x10FFFF then .go [] (braced (some n)) else .refuse

/-- What a literal denotes from a place on, and the text after its closing quote. -/
def read (quote : Char) : Place → List Char → Option (List Nat × List Char)
  | _, [] => none
  | place, c :: cs =>
    match place.turn quote c with
    | .refuse => none
    | .close => some ([], cs)
    | .go more next => (read quote next cs).map fun r => (more ++ r.1, r.2)

variable {quote c : Char} {place next : Place} {cs rest rest' : List Char} {us more : List Nat}

/-- After a backslash a character has a meaning of its own, is refused, or stands for itself. -/
theorem escapeTurn_cases (c : Char) : (c, escapeTurn c) ∈ escapes ∨ escapeTurn c = .refuse ∨
    escapeTurn c = .go (codeUnits c.toNat) .plain := by
  unfold escapeTurn
  split
  · next turn h =>
    obtain ⟨before, after, heq, -⟩ := List.lookup_eq_some_iff.1 h
    exact .inl (by simp [heq])
  · split <;> simp

/-- Only the quote closes a literal. -/
theorem eq_of_close (h : place.turn quote c = .close) : c = quote := by
  -- wherever no escape is open, the quote is looked for first
  have hplain (h : plainTurn quote c = .close) : c = quote := by
    unfold plainTurn at h
    split_ifs at h with hc
    exact hc
  cases place with
  | plain => exact hplain h
  | escape =>
    -- none of the escapes closes the literal
    have hall : ∀ e ∈ escapes, e.2 ≠ .close := by decide
    rcases escapeTurn_cases c with hc | hc | hc
    · exact absurd h (hall _ hc)
    · exact absurd (hc.symm.trans h) (by simp)
    · exact absurd (hc.symm.trans h) (by simp)
  | zero =>
    simp only [Place.turn] at h
    split_ifs at h
    exact hplain h
  | carriage =>
    simp only [Place.turn] at h
    split_ifs at h
    exact hplain h
  | digits left number =>
    simp only [Place.turn] at h
    split at h
    · cases h
    · split_ifs at h
  | unicode =>
    simp only [Place.turn] at h
    split_ifs at h
    split at h <;> cases h
  | braced number =>
    simp only [Place.turn] at h
    split_ifs at h
    · cases number <;> cases h
    · split at h
      · cases h
      · split_ifs at h

/-- The closing quote ends what is read. -/
theorem read_cons_of_close (h : place.turn quote c = .close) :
    read quote place (c :: cs) = some ([], cs) := by
  rw [read, h]

/-- A character that goes on adds to what is read after it. -/
theorem read_cons_of_go (h : place.turn quote c = .go more next) :
    read quote place (c :: cs) = (read quote next cs).map fun r => (more ++ r.1, r.2) := by
  rw [read, h]

/-- What is read from a character that goes on begins with what this adds. -/
theorem read_cons_eq_some_iff (h : place.turn quote c = .go more next) :
    read quote place (c :: cs) = some (us, rest) ↔
      ∃ vs, read quote next cs = some (vs, rest) ∧ us = more ++ vs := by
  rw [read_cons_of_go h, Option.map_eq_some_iff]
  constructor
  · rintro ⟨⟨vs, after⟩, hread, heq⟩
    obtain ⟨rfl, rfl⟩ := Prod.mk.inj heq
    exact ⟨vs, hread, rfl⟩
  · rintro ⟨vs, hread, rfl⟩
    exact ⟨(vs, rest), hread, rfl⟩

/-! ### Texts that stand as they are -/

/-- The text can stand between the quotes as it is. -/
def Verbatim (quote : Char) (cs : List Char) : Prop :=
  ∀ c ∈ cs, c ≠ quote ∧ c ≠ '\\' ∧ c ≠ '\n' ∧ c ≠ '\r'

instance : Decidable (Verbatim quote cs) :=
  decidable_of_iff ((cs.all fun c => c ≠ quote ∧ c ≠ '\\' ∧ c ≠ '\n' ∧ c ≠ '\r') = true)
    (by simp [Verbatim])

/-- A text can stand as it is if its first character can, and the rest. -/
theorem Verbatim.cons_iff : Verbatim quote (c :: cs) ↔
    (c ≠ quote ∧ c ≠ '\\' ∧ c ≠ '\n' ∧ c ≠ '\r') ∧ Verbatim quote cs :=
  List.forall_mem_cons

/-- A character that can stand as it is denotes itself. -/
theorem plainTurn_of_verbatim (h : c ≠ quote ∧ c ≠ '\\' ∧ c ≠ '\n' ∧ c ≠ '\r') :
    Place.plain.turn quote c = .go (codeUnits c.toNat) .plain := by
  obtain ⟨hquote, hslash, hfeed, hreturn⟩ := h
  rw [Place.turn, plainTurn, if_neg hquote, if_neg hslash, if_neg (not_or.2 ⟨hfeed, hreturn⟩)]

/-- A text without quotes, backslashes and line breaks denotes itself. -/
theorem read_verbatim (h : Verbatim quote cs) :
    read quote .plain (cs ++ quote :: rest) = some (units cs, rest) := by
  induction cs with
  | nil => exact read_cons_of_close (if_pos rfl)
  | cons c cs ih =>
    obtain ⟨hc, hcs⟩ := Verbatim.cons_iff.1 h
    rw [List.cons_append, read_cons_of_go (plainTurn_of_verbatim hc), ih hcs, units_cons]
    rfl

/-! ### Texts that are quoted for JSON -/

/-- What a part of a literal denotes, and the place after it. -/
def Place.run (quote : Char) : Place → List Char → Option (List Nat × Place)
  | place, [] => some ([], place)
  | place, c :: cs =>
    match place.turn quote c with
    | .refuse | .close => none
    | .go more next => (run quote next cs).map fun r => (more ++ r.1, r.2)

/-- A part of a literal is read first, and then the rest from the place after it. -/
theorem read_append {part : List Char} (h : place.run quote part = some (us, next)) :
    read quote place (part ++ cs) = (read quote next cs).map fun r => (us ++ r.1, r.2) := by
  induction part generalizing place us with
  | nil =>
    obtain ⟨rfl, rfl⟩ := Prod.mk.inj (Option.some.inj h)
    simp
  | cons c part ih =>
    rw [Place.run] at h
    cases hturn : place.turn quote c with
    | refuse => simp [hturn] at h
    | close => simp [hturn] at h
    | go more after =>
      rw [hturn] at h
      obtain ⟨⟨vs, last⟩, hrun, heq⟩ := Option.map_eq_some_iff.1 h
      obtain ⟨rfl, rfl⟩ := Prod.mk.inj heq
      rw [List.cons_append, read_cons_of_go hturn, ih hrun, Option.map_map]
      exact congrArg (Option.map · _) (funext fun r => by simp)

/-- A character that is written for JSON denotes itself. -/
theorem run_jsonChar (c : Char) :
    Place.plain.run '"' (Quoted.jsonChar c) = some (codeUnits c.toNat, .plain) := by
  unfold Quoted.jsonChar
  split_ifs with hquote hslash hfeed hreturn htab hback hform hlow
  · rw [hquote]; rfl
  · rw [hslash]; rfl
  · rw [hfeed]; rfl
  · rw [hreturn]; rfl
  · rw [htab]; rfl
  · rw [hback]; rfl
  · rw [hform]; rfl
  -- the other control characters are written by their numbers
  · generalize c.toNat = n at hlow
    interval_cases n <;> rfl
  · rw [Place.run, plainTurn_of_verbatim ⟨hquote, hslash, hfeed, hreturn⟩]
    exact congrArg some (Prod.ext (List.append_nil _) rfl)

/-- A text that is quoted for JSON denotes itself. -/
theorem read_json (cs rest : List Char) :
    read '"' .plain (cs.flatMap Quoted.jsonChar ++ '"' :: rest) = some (units cs, rest) := by
  induction cs with
  | nil => rfl
  | cons c cs ih =>
    rw [List.flatMap_cons, List.append_assoc, read_append (run_jsonChar c), ih, units_cons]
    rfl

/-! ### Texts that denote themselves -/

/-- How much more than it is long what is left of an escape may denote. -/
def Place.slack : Place → Nat
  | braced (some _) => 1
  | _ => 0

/-- If the literal goes on, then with at most `n` more code units, slack included. -/
def Turn.Fits (n : Nat) : Turn → Prop
  | go more next => more.length + next.slack ≤ n
  | _ => True

instance (n : Nat) (turn : Turn) : Decidable (turn.Fits n) := by
  cases turn <;> unfold Turn.Fits <;> infer_instance

/-- A bound on what a turn adds may be raised. -/
theorem Turn.Fits.mono {m n : Nat} {turn : Turn} (h : turn.Fits m) (hmn : m ≤ n) : turn.Fits n := by
  cases turn with
  | go => exact Nat.le_trans h hmn
  | _ => trivial

/-- A character outside of escapes adds no more than it is long. -/
theorem fits_plainTurn : (plainTurn quote c).Fits (codeUnits c.toNat).length := by
  unfold plainTurn
  split_ifs <;> simp [Turn.Fits, Place.slack]

/-- Nor does a character after a backslash. -/
theorem fits_escapeTurn : (escapeTurn c).Fits (codeUnits c.toNat).length := by
  rcases escapeTurn_cases c with h | h | h
  · have hall : ∀ e ∈ escapes, e.2.Fits 1 := by decide
    exact (hall _ h).mono (length_codeUnits _).1
  · rw [h]
    trivial
  · rw [h]
    simp [Turn.Fits, Place.slack]

/-- What reads a hexadecimal digit fits if it fits for each digit. -/
theorem fits_hexDigit {n : Nat} (digit : Nat → Turn) (h : ∀ d, (digit d).Fits n) :
    (match NumberText.hexDigit? c with
      | none => Turn.refuse
      | some d => digit d).Fits n := by
  split
  · trivial
  · exact h _

/-- No character denotes more than it is long, but for the end of an escape in braces. -/
theorem fits_turn : (place.turn quote c).Fits (place.slack + (codeUnits c.toNat).length) := by
  have hc := length_codeUnits c.toNat
  -- a character that adds nothing leaves room for the slack
  have hsilent (next : Place) (h : next.slack ≤ 1) : (Turn.go [] next).Fits
      (place.slack + (codeUnits c.toNat).length) := by
    simp only [Turn.Fits, List.length_nil]
    omega
  have hplain : (plainTurn quote c).Fits (place.slack + (codeUnits c.toNat).length) :=
    fits_plainTurn.mono (by omega)
  cases place with
  | plain => exact hplain
  | escape => exact fits_escapeTurn.mono (by omega)
  | zero =>
    rw [Place.turn]
    split
    · trivial
    · exact hplain
  | carriage =>
    rw [Place.turn]
    split
    · exact hsilent _ (by decide)
    · exact hplain
  | digits left number =>
    refine fits_hexDigit _ fun d => ?_
    split
    · simp only [Turn.Fits, Place.slack, List.length_singleton]
      omega
    · exact hsilent _ (by simp [Place.slack])
  | unicode =>
    rw [Place.turn]
    split
    · exact hsilent _ (by decide)
    · exact fits_hexDigit _ fun d => hsilent _ (by simp [Place.slack])
  | braced number =>
    simp only [Place.turn]
    split
    · cases number with
      | none => trivial
      | some n =>
        -- the end of the escape adds up to two code units, one of which is slack
        have hn := length_codeUnits n
        simp only [Turn.Fits, Place.slack]
        omega
    · refine fits_hexDigit _ fun d => ?_
      split
      · exact hsilent _ (by simp [Place.slack])
      · trivial

/-- A quote inside a literal denotes a quote. -/
theorem count_of_go (h : place.turn '"' c = .go more next) :
    [c].count '"' ≤ more.count '"'.toNat := by
  by_cases hc : c = '"'
  · subst hc
    -- only after a backslash does a quote go on
    cases place with
    | escape => cases h; decide
    | plain => cases h
    | zero => cases h
    | carriage => cases h
    | digits => cases h
    | unicode => cases h
    | braced => cases h
  · simp [hc]

/-- What is read ends at a quote, denotes no more than it is long, and denotes the quotes in it. -/
theorem read_inv (h : read '"' place cs = some (us, rest)) : ∃ text, cs = text ++ '"' :: rest ∧
    us.length ≤ place.slack + (units text).length ∧ text.count '"' ≤ us.count '"'.toNat := by
  induction cs generalizing place us with
  | nil => cases h
  | cons c cs ih =>
    cases hturn : place.turn '"' c with
    | refuse => simp [read, hturn] at h
    | close =>
      rw [read_cons_of_close hturn] at h
      obtain ⟨rfl, rfl⟩ := Prod.mk.inj (Option.some.inj h)
      obtain rfl := eq_of_close hturn
      exact ⟨[], rfl, by simp, by simp⟩
    | go more next =>
      obtain ⟨vs, hread, rfl⟩ := (read_cons_eq_some_iff hturn).1 h
      obtain ⟨text, rfl, hlength, hcount⟩ := ih hread
      -- the bound for the character and that for the rest come to the whole
      have hgo : more.length + next.slack ≤ place.slack + (codeUnits c.toNat).length := by
        have hfits : (place.turn '"' c).Fits (place.slack + (codeUnits c.toNat).length) := fits_turn
        rwa [hturn] at hfits
      have hquotes := count_of_go hturn
      refine ⟨c :: text, rfl, ?_, ?_⟩
      · rw [units_cons, List.length_append, List.length_append]
        omega
      · rw [List.count_append, ← List.singleton_append, List.count_append]
        exact Nat.add_le_add hquotes hcount

/-- A text that is read up to its end stands as it is, or is longer than what it denotes. -/
theorem read_plain (h : read '"' .plain (cs ++ '"' :: rest) = some (us, rest)) :
    Verbatim '"' cs ∨ us.length < (units cs).length := by
  induction cs generalizing us with
  | nil => exact .inl (List.forall_mem_nil _)
  | cons c cs ih =>
    rw [List.cons_append] at h
    by_cases hquote : c = '"'
    · rw [read_cons_of_close (by rw [hquote]; rfl)] at h
      have hlength := congrArg (·.2.length) (Option.some.inj h)
      simp only [List.length_append, List.length_cons] at hlength
      omega
    by_cases hslash : c = '\\'
    · -- the rest of the escape is read without slack, so its backslash is one too many
      obtain ⟨vs, hread, rfl⟩ := (read_cons_eq_some_iff (by rw [hslash]; rfl)).1 h
      obtain ⟨text, htext, hlength, -⟩ := read_inv hread
      obtain rfl := List.append_cancel_right htext
      have hc := (length_codeUnits c.toNat).1
      refine .inr ?_
      rw [units_cons, List.length_append]
      simp only [Place.slack] at hlength
      omega
    by_cases hbreak : c = '\n' ∨ c = '\r'
    · rcases hbreak with rfl | rfl <;> cases h
    · have hc := And.intro hquote (And.intro hslash (not_or.1 hbreak))
      obtain ⟨vs, hread, rfl⟩ := (read_cons_eq_some_iff (plainTurn_of_verbatim hc)).1 h
      rcases ih hread with hcs | hlength
      · exact .inl (Verbatim.cons_iff.2 ⟨hc, hcs⟩)
      · refine .inr ?_
        rw [units_cons, List.length_append, List.length_append]
        exact Nat.add_lt_add_left hlength _

/-- Only a text that needs no escapes denotes itself as it is. -/
theorem read_eq_units_iff : read '"' .plain (cs ++ '"' :: rest) = some (units cs, rest') ↔
    Verbatim '"' cs ∧ rest' = rest := by
  constructor
  · intro h
    obtain ⟨text, htext, hlength, hcount⟩ := read_inv h
    rw [count_units] at hcount
    -- a longer text would have one more quote, and a shorter one would be too short
    rcases List.append_eq_append_iff.1 htext with ⟨more, rfl, hmore⟩ | ⟨more, rfl, hmore⟩
    · cases more with
      | nil =>
        obtain ⟨-, rfl⟩ := List.cons.inj hmore
        exact ⟨(read_plain h).resolve_right (lt_irrefl _), rfl⟩
      | cons c more =>
        obtain ⟨rfl, -⟩ := List.cons.inj hmore
        simp at hcount
    · cases more with
      | nil =>
        obtain ⟨-, rfl⟩ := List.cons.inj hmore
        rw [List.append_nil] at h ⊢
        exact ⟨(read_plain h).resolve_right (lt_irrefl _), rfl⟩
      | cons c more =>
        have hc := (length_codeUnits c.toNat).1
        simp only [units, List.flatMap_append, List.flatMap_cons, List.length_append,
          Place.slack] at hlength
        omega
  · rintro ⟨hcs, rfl⟩
    exact read_verbatim hcs

end Literal

end ChartPipeline
