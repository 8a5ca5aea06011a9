import ChartPipeline.Proofs.Literals
import ChartPipeline.Proofs.Printed
import Mathlib.Data.List.Forall2

/-!
# Fields that expressions access

An expression accesses a field of the current row by its name in a string literal.  The accessor is
found in the text character by character, as a reader of expressions finds it: other string
literals are passed over, and a word before the bracket is the row only if it is that word as a
whole.  Printed expressions put the name between the quotes as it is, so that they access the fields
they are made for exactly if no name needs an escape.

## Key results

- `Expression.accesses_datum`: what an accessor accesses, whatever stands around it
- `Expression.accesses_compact`: values that are written for JSON access nothing
- `Expression.Accesses.intercalate`: what joined texts access
-/

namespace ChartPipeline

namespace Expression

/-! ### Reading expressions -/

/-- Whether a character belongs to a word: a name, a number, or names with points between them. -/
def isWordChar (c : Char) : Bool := isIdentifierChar c || c = '.'

/-- The characters outside of words and string literals. -/
def operators : List Char :=
  [' ', '(', ')', '[', ']', '\x7b', '\x7d', ',', ':', '?', '!', '=', '<', '>', '&', '|', '+', '-',
    '*', '%', '^', '~']

/-- The word for the current row. -/
def row : List Char := ['d', 'a', 't', 'u', 'm']

/-- Where in an expression a character stands. -/
inductive Reader where
  /-- Outside of string literals, right after a word, which may be empty. -/
  | code (word : List Char)
  /-- After the row and an opening bracket. -/
  | opened
  /-- In a string literal; `names` says whether it names a field. -/
  | literal (names : Bool) (quote : Char) (place : Literal.Place) (read : List Nat)
  /-- After the name of a field. -/
  | named (name : List Nat)

/-- The names of the fields that an expression accesses from a place on.  A text that ends within
an accessor or a string literal is no expression, and comments, regular expressions and templates
are not read. -/
def reads : Reader → List Char → Option (List (List Nat))
  | .code _, [] => some []
  | .opened, [] | .literal .., [] | .named _, [] => none
  | .code word, c :: cs =>
    if isWordChar c then reads (.code (word ++ [c])) cs
    else if c = '[' ∧ word = row then reads .opened cs
    else if c = '"' ∨ c = '\'' then reads (.literal false c .plain []) cs
    else if operators.contains c then reads (.code []) cs
    else none
  | .opened, c :: cs =>
    if c = '"' ∨ c = '\'' then reads (.literal true c .plain []) cs else none
  | .literal names quote place us, c :: cs =>
    match place.turn quote c with
    | .refuse => none
    | .close => reads (if names then .named us else .code []) cs
    | .go more next => reads (.literal names quote next (us ++ more)) cs
  | .named name, c :: cs => if c = ']' then (reads (.code []) cs).map (name :: ·) else none

/-- The names of the fields that an expression accesses. -/
def fieldsRead (text : String) : Option (List (List Nat)) := reads (.code []) text.toList

/-- A string literal is read up to its closing quote. -/
theorem reads_literal (names : Bool) (quote : Char) (place : Literal.Place) (us : List Nat)
    (cs : List Char) : reads (.literal names quote place us) cs =
      (Literal.read quote place cs).bind fun r =>
        reads (if names then .named (us ++ r.1) else .code []) r.2 := by
  -- the code units read so far are general, as each character adds to them
  induction cs generalizing place us with
  | nil => rfl
  | cons c cs ih =>
    rw [reads, Literal.read]
    cases place.turn quote c with
    | refuse => rfl
    | close => simp
    | go more next => simp [ih, Option.bind_map]

/-! ### What texts access -/

variable {Next : List Char → Prop} {text text' : String} {fields fields' : List String}

/-- What follows does not go on with a word. -/
def Parted (rest : List Char) : Prop := ∀ c ∈ rest.head?, isWordChar c = false

/-- Whether the text begins with something other than a word. -/
def separates (text : String) : Bool := text.toList.head?.any fun c => !isWordChar c

/-- A text that begins with no word parts what is before it from what follows. -/
theorem parted_of_separates (h : separates text = true) (rest : List Char) :
    Parted (text.toList ++ rest) := by
  unfold separates at h
  cases hlist : text.toList with
  | nil => simp [hlist] at h
  | cons c cs => simpa [hlist, Parted] using h

/-- Anything may follow. -/
def Anything (_ : List Char) : Prop := True

/-- Where something follows for which `Next` holds, the text accesses the given fields, one after the
    other and no others, if and only if none of their names needs escapes; and then what follows is
    read like an expression of its own. -/
def Accesses (Next : List Char → Prop) (text : String) (fields : List String) : Prop :=
  ∀ rest more, Next rest →
    (reads (.code []) (text.toList ++ rest) = some (fields.map (fun f => units f.toList) ++ more) ↔
      (∀ f ∈ fields, Literal.Verbatim '"' f.toList) ∧ reads (.code []) rest = some more)

namespace Accesses

/-- At the end of an expression, the fields accessed are all that it reads. -/
theorem fieldsRead_iff (h : Accesses Parted text fields) :
    fieldsRead text = some (fields.map fun f => units f.toList) ↔
      ∀ f ∈ fields, Literal.Verbatim '"' f.toList := by
  have hall := h [] [] (by simp [Parted])
  rw [List.append_nil, List.append_nil] at hall
  exact hall.trans (and_iff_left rfl)

/-- A text that is passed over accesses nothing. -/
theorem of_passed (h : ∀ rest, Next rest →
    reads (.code []) (text.toList ++ rest) = reads (.code []) rest) : Accesses Next text [] := by
  intro rest more hrest
  simp [h rest hrest]

/-- A text that leaves the reader between two words. -/
theorem glue (text : String)
    (h : ∀ rest, reads (.code []) (text.toList ++ rest) = reads (.code []) rest) :
    Accesses Anything text [] :=
  of_passed fun rest _ => h rest

/-- One text after the other, where the first may be followed by the second. -/
theorem append {Next' : List Char → Prop} (h : Accesses Next' text fields)
    (h' : Accesses Next text' fields') (hnext : ∀ rest, Next rest → Next' (text'.toList ++ rest)) :
    Accesses Next (text ++ text') (fields ++ fields') := by
  intro rest more hrest
  rw [String.toList_append, List.append_assoc, List.map_append, List.append_assoc,
    h _ _ (hnext rest hrest), h' _ _ hrest, List.forall_mem_append, and_assoc]

/-- After a text that anything may follow, another one. -/
theorem followed (h : Accesses Anything text fields) (h' : Accesses Next text' fields') :
    Accesses Next (text ++ text') (fields ++ fields') :=
  h.append h' fun _ _ => trivial

/-- After a text that no word may follow, one that begins with none. -/
theorem parted (h : Accesses Parted text fields) (h' : Accesses Next text' fields')
    (hseparates : separates text' = true) : Accesses Next (text ++ text') (fields ++ fields') :=
  h.append h' fun rest _ => parted_of_separates hseparates rest

/-- Where anything may follow, something in particular may. -/
theorem mono (h : Accesses Anything text fields) : Accesses Next text fields :=
  fun rest more _ => h rest more trivial

/-- Of two texts one stands there, with its fields. -/
theorem ite {b : Bool} (h : Accesses Next text fields) (h' : Accesses Next text' fields') :
    Accesses Next (if b then text else text') (if b then fields else fields') := by
  cases b with
  | true => exact h
  | false => exact h'

/-- Texts with a separator between them. -/
theorem joined {sep : String} {texts : List String} {accessed : List (List String)}
    (hsep : Accesses Anything sep []) (hseparates : separates sep = true)
    (h : List.Forall₂ (Accesses Parted) texts accessed) :
    Accesses Parted (sep.intercalate texts) accessed.flatten := by
  induction h with
  | nil => exact of_passed fun _ _ => rfl
  | @cons text fields texts accessed hfirst hrest ih =>
    cases hrest with
    | nil => simpa using hfirst
    | cons =>
      -- the separator accesses nothing, and parts the first text from the others
      rw [String.intercalate_cons_cons, List.flatten_cons, ← List.append_nil fields]
      exact (hfirst.parted hsep hseparates).followed ih

/-- Texts made of the items of a list, with a separator between them. -/
theorem intercalate {α : Type} {sep : String} {text : α → String} {fields : α → List String}
    {xs : List α} (hsep : Accesses Anything sep []) (hseparates : separates sep = true)
    (h : ∀ x ∈ xs, Accesses Parted (text x) (fields x)) :
    Accesses Parted (sep.intercalate (xs.map text)) (xs.flatMap fields) := by
  rw [List.flatMap_def]
  refine joined hsep hseparates ?_
  rwa [List.forall₂_map_left_iff, List.forall₂_map_right_iff, List.forall₂_same]

end Accesses

/-- What an accessor accesses, whatever stands around it. -/
theorem accesses_datum (field : String) : Accesses Anything (datum field) [field] := by
  intro rest more _
  have htext : (datum field).toList ++ rest =
      row ++ '[' :: '"' :: (field.toList ++ '"' :: ']' :: rest) := by
    simp [datum, row]
  -- the row and the bracket are read, and the name is next
  have hopen : reads (.code []) (row ++ '[' :: '"' :: (field.toList ++ '"' :: ']' :: rest)) =
      reads (.literal true '"' .plain []) (field.toList ++ '"' :: ']' :: rest) := rfl
  rw [htext, hopen, reads_literal, List.forall_mem_singleton]
  constructor
  · intro h
    obtain ⟨⟨us, after⟩, hread, hnamed⟩ := Option.bind_eq_some_iff.1 h
    -- after the name there has to be a bracket that closes
    cases after with
    | nil => cases hnamed
    | cons c after =>
      rw [if_pos rfl, reads] at hnamed
      split at hnamed
      · obtain ⟨names, hnames, heq⟩ := Option.map_eq_some_iff.1 hnamed
        obtain ⟨rfl, rfl⟩ := List.cons.inj heq
        obtain ⟨hverbatim, hafter⟩ := Literal.read_eq_units_iff.1 hread
        exact ⟨hverbatim, (List.cons.inj hafter).2 ▸ hnames⟩
      · cases hnamed
  · rintro ⟨hverbatim, hrest⟩
    rw [Literal.read_verbatim hverbatim]
    simp [reads, hrest]

/-- A backslash in a name makes the accessor one of another field. -/
example : fieldsRead (datum "C:\\temp") = some [units "C:\temp".toList] := rfl

/-! ### Values in expressions -/

/-- Whether a character stands outside of string literals and in no word for the row. -/
def isPassed (c : Char) : Bool := c ≠ 'd' && (isWordChar c || operators.contains c)

/-- Words other than the row, and operators, are passed over. -/
theorem reads_passed {word cs rest : List Char} (hword : 'd' ∉ word)
    (hcs : cs.all isPassed = true) (hrest : Parted rest) :
    reads (.code word) (cs ++ rest) = reads (.code []) rest := by
  -- a word without its first letter is not the row
  have hrow {word : List Char} (hword : 'd' ∉ word) : word ≠ row :=
    fun h => hword (h ▸ List.mem_cons_self)
  induction cs generalizing word with
  | nil =>
    cases rest with
    | nil => rfl
    | cons c rest =>
      have hc : isWordChar c = false := hrest c rfl
      simp [reads, hc, hrow hword, hrow List.not_mem_nil]
  | cons c cs ih =>
    rw [List.all_cons, Bool.and_eq_true] at hcs
    obtain ⟨hd, hc⟩ : c ≠ 'd' ∧ (isWordChar c = true ∨ c ∈ operators) := by
      simpa [isPassed] using hcs.1
    rw [List.cons_append, reads]
    split
    · exact ih (by simpa [hword] using hd.symm) hcs.2
    · next hsplit =>
      -- an operator ends the word, and begins no literal
      have hoperator : c ∈ operators := hc.resolve_left hsplit
      have hquotes : ¬ (c = '"' ∨ c = '\'') := by
        rintro (rfl | rfl) <;> revert hoperator <;> decide
      rw [if_neg (not_and_of_not_right _ (hrow hword)), if_neg hquotes,
        if_pos (List.contains_iff_mem.2 hoperator)]
      exact ih List.not_mem_nil hcs.2

/-- A text of other words and operators accesses nothing. -/
theorem Accesses.passed (text : String) (h : text.toList.all isPassed = true) :
    Accesses Parted text [] :=
  .of_passed fun _ hrest => reads_passed List.not_mem_nil h hrest

/-- The text of a number accesses nothing. -/
theorem Accesses.numerals (h : ∀ c ∈ text.toList, c ∈ Json.numerals) : Accesses Parted text [] :=
  have hall : Json.numerals.all isPassed = true := rfl
  .passed text (List.all_eq_true.2 fun c hc => List.all_eq_true.1 hall c (h c hc))

/-- A text that is quoted for JSON is one string literal. -/
theorem accesses_json (s : String) : Accesses Anything (Quoted.json s) [] := by
  refine .of_passed fun rest _ => ?_
  rw [Quoted.toList_json]
  -- it is read like any literal that names no field
  have hopen : reads (.code []) ('"' :: (s.toList.flatMap Quoted.jsonChar ++ ['"']) ++ rest) =
      reads (.literal false '"' .plain []) (s.toList.flatMap Quoted.jsonChar ++ '"' :: rest) := by
    simp [reads, isWordChar, isIdentifierChar]
  rw [hopen, reads_literal, Literal.read_json]
  rfl

/-- Values between brackets, with commas between them. -/
theorem accesses_bracketed {α : Type} {start stop : String} {text : α → String} {xs : List α}
    (hstart : Accesses Anything start []) (hstop : Accesses Anything stop [])
    (hseparates : separates stop = true) (h : ∀ x ∈ xs, Accesses Parted (text x) []) :
    Accesses Anything (start ++ ",".intercalate (xs.map text) ++ stop) [] := by
  have hcomma : Accesses Anything "," [] := .glue _ fun _ => rfl
  have hjoined := Accesses.intercalate hcomma rfl h
  rw [List.flatMap_eq_nil_iff.2 fun _ _ => rfl] at hjoined
  exact (hstart.followed hjoined).parted hstop hseparates

/-- The text of a value accesses nothing. -/
theorem accesses_compact : ∀ j : Json, Accesses Parted j.compact []
  | .null => by
    rw [Json.compact]
    exact .passed _ rfl
  | .bool b => by
    rw [Json.compact]
    cases b <;> exact .passed _ rfl
  | .int n => .numerals (Json.int_numerals n)
  | .float x => .numerals (Json.float_numerals x)
  | .str s => (accesses_json s).mono
  -- brackets, commas and colons touch no accessor, and the parts are accessed one by one
  | .arr js => by
    have hopen : Accesses Anything "[" [] := .glue _ fun _ => rfl
    have hclose : Accesses Anything "]" [] := .glue _ fun _ => rfl
    rw [Json.compact, Json.compactItems_eq]
    have hitems : ∀ j ∈ js, Accesses Parted j.compact [] := fun j hj => accesses_compact j
    exact (accesses_bracketed hopen hclose rfl hitems).mono
  | .obj fs => by
    have hopen : Accesses Anything "\x7b" [] := .glue _ fun _ => rfl
    have hclose : Accesses Anything "\x7d" [] := .glue _ fun _ => rfl
    have hcolon : Accesses Anything ":" [] := .glue _ fun _ => rfl
    rw [Json.compact, Json.compactFields_eq]
    have hfields : ∀ e ∈ fs, Accesses Parted (Json.fieldText e) [] := by
      intro e he
      have hvalue := accesses_compact e.2
      exact ((accesses_json e.1).followed hcolon).followed hvalue
    exact (accesses_bracketed hopen hclose rfl hfields).mono
termination_by j => sizeOf j
decreasing_by
  · have := List.sizeOf_lt_of_mem hj
    simp only [Json.arr.sizeOf_spec]; omega
  · have := List.sizeOf_lt_of_mem he
    obtain ⟨name, value⟩ := e
    simp only [Prod.mk.sizeOf_spec, Json.obj.sizeOf_spec] at *; omega

end Expression

end ChartPipeline
