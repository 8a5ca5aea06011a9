import ChartPipeline.Flow.Hoisting
import ChartPipeline.Text.NumberText

/-!
# Settings as they are written

A setting comes from a file or from the environment.  Setting a table adds its entries to those
that are there; any other value takes the place of the old one.  What is written is read leniently:
a truth value may be a number or a word, and so may a number.
-/

namespace ChartPipeline

/-- A setting as it is written. -/
inductive Setting where
  | nothing
  | bool (value : Bool)
  | int (value : Int)
  | float (value : Float)
  | str (value : String)
  | list (items : List Setting)
  | table (entries : List (String × Setting))
deriving Inhabited

namespace Setting

/-! ### Entries -/

/-- The entry of a name. -/
def entry? (name : String) (entries : List (String × Setting)) : Option Setting :=
  (entries.find? (·.1 = name)).map Prod.snd

/-- Sets the entry of a name to what becomes of the one that is there. -/
def upsert (name : String) (f : Option Setting → Setting) :
    List (String × Setting) → List (String × Setting)
  | [] => [(name, f none)]
  | (n, v) :: rest => if n = name then (n, f (some v)) :: rest else (n, v) :: upsert name f rest

/-- The entries of a table; other settings have none. -/
def entries : Setting → List (String × Setting)
  | table es => es
  | _ => []

/-- The items of a list; other settings have none. -/
def items : Setting → List Setting
  | list vs => vs
  | _ => []

mutual

/-- Puts a setting under a name. -/
def put (name : String) : Setting → Setting → Setting
  | table incoming, target =>
    table (upsert name (fun old => putAll incoming (old.getD (table []))) target.entries)
  | v, target => table (upsert name (fun _ => v) target.entries)

/-- Puts several settings under their names. -/
def putAll : List (String × Setting) → Setting → Setting
  | [], target => target
  | (name, v) :: rest, target => putAll rest (put name v target)

end

/-! ### Paths -/

/-- A step of a path: to the entry of a table or to the item of a list. -/
inductive PathStep where
  | entry (name : String)
  | item (index : Nat)
deriving DecidableEq, Repr

/-- Whether a character may stand in a name of a path. -/
def isNameChar (c : Char) : Bool := c.isAlphanum || c = ' ' || c = '_' || c = '-'

/-- The steps of a path after its first name. -/
def pathSteps? : Nat → List Char → Option (List PathStep)
  | 0, _ => none
  | _, [] => some []
  | fuel + 1, '.' :: rest =>
    let name := rest.takeWhile isNameChar
    if name.isEmpty then none
    else (pathSteps? fuel (rest.drop name.length)).map (.entry (String.ofList name) :: ·)
  | fuel + 1, '[' :: rest =>
    let rest := rest.dropWhile fun c => c = ' ' || c = '\t'
    let digits := rest.takeWhile Char.isDigit
    match (rest.drop digits.length).dropWhile fun c => c = ' ' || c = '\t' with
    | ']' :: rest => do
      let n ← NumberText.digits? 10 digits
      let steps ← pathSteps? fuel rest
      pure (.item n :: steps)
    | _ => none
  | _, _ => none

/-- The path that a text spells: names with dots between them, and numbers of items in brackets.  A
text that is no path is a name. -/
def path (text : String) : List PathStep :=
  let cs := text.toList
  let first := cs.takeWhile isNameChar
  let steps := if first.isEmpty then none else pathSteps? (cs.length + 1) (cs.drop first.length)
  match steps with
  | some steps => .entry (String.ofList first) :: steps
  | none => [.entry text]

/-- Changes an item of a list, which is filled up as far as necessary. -/
def updateItem (f : Setting → Setting) : Nat → List Setting → List Setting
  | 0, [] => [f nothing]
  | 0, v :: rest => f v :: rest
  | n + 1, [] => nothing :: updateItem f n []
  | n + 1, v :: rest => v :: updateItem f n rest

/-- Sets the value at a path. -/
def assign (value : Setting) : List PathStep → Setting → Setting
  | [], target => target
  | [.entry name], target => put name value target
  | [.item i], target => list (updateItem (fun _ => value) i target.items)
  | .entry name :: rest, target =>
    table (upsert name (fun old => assign value rest (old.getD nothing)) target.entries)
  | .item i :: rest, target => list (updateItem (assign value rest) i target.items)

/-! ### Typed values -/

/-- The truth value of a word. -/
def boolOfWord? (s : String) : Option Bool :=
  let word := s.map Char.toLower
  if ["true", "on", "yes"].contains word then some true
  else if ["false", "off", "no"].contains word then some false
  else none

/-- A truth value; numbers are true unless they are zero. -/
def bool? : Setting → Option Bool
  | bool b => some b
  | int n => some (n ≠ 0)
  | float x => some (x != 0)
  | str s => if s = "1" then some true else if s = "0" then some false else boolOfWord? s
  | _ => none

/-- The bound of numbers. -/
def numberBound : Nat := 2 ^ 64

/-- A number within 64 bits without a sign; floats are rounded, down to the greatest number where
they are too great. -/
def nat? : Setting → Option Nat
  | bool b => some b.toNat
  | int n => if 0 ≤ n then some n.toNat else none
  | float x => some x.round.toUInt64.toNat
  | str s =>
    match boolOfWord? s with
    | some b => some b.toNat
    | none =>
      let cs := match s.toList with
        | '+' :: rest => rest
        | cs => cs
      (NumberText.digits? 10 cs).filter (· < numberBound)
  | _ => none

/-- A policy by its name, which may also be the only name in a table. -/
def policy? : Setting → Option FacetPolicy
  | str s => find s
  | table [(s, _)] => find s
  | _ => none
where
  /-- The policy of a name. -/
  find (s : String) : Option FacetPolicy :=
    [FacetPolicy.foldGroupby, .keepPartitioned].find? fun p => p.name = s

end Setting

end ChartPipeline
