import ChartPipeline.Value.Basic

/-!
# Giving values a type

The rules by which the parts of typed data are read off a document.  Where a value stands decides
how lenient reading is:

* directly in a JSON document, the fields of a record may also be listed in their order;
* directly in a YAML document, tags are ignored, and nothing stands for an empty record or list;
* below a part whose form had to be looked at first, records may again be listed, a record's
  field may be named by its number, and no tag may occur.
-/

namespace ChartPipeline

/-- Where a value stands. -/
inductive Place where
  | json
  | yaml
  /-- Below a part whose form had to be looked at first. -/
  | nested
deriving DecidableEq, Repr

/-- Reads a typed value off a document. -/
abbrev Decoder (α : Type) := Value → Option α

namespace Place

/-- The value as it is looked at: YAML ignores its tags. -/
def view (place : Place) (v : Value) : Value := if place = .yaml then v.untagged else v

/-- A string. -/
def string (place : Place) : Decoder String := fun v => (place.view v).str?

/-- A truth value. -/
def bool (place : Place) : Decoder Bool := fun v =>
  match place.view v with
  | .bool b => some b
  | _ => none

/-- A float; whole numbers are converted. -/
def float (place : Place) : Decoder Float := fun v =>
  match place.view v with
  | .float x => some x
  | .int n => some (Float.ofInt n)
  | _ => none

/-- A whole number below `bound`. -/
def nat (place : Place) (bound : Nat) : Decoder Nat := fun v =>
  match place.view v with
  | .int (.ofNat n) => if n < bound then some n else none
  | _ => none

/-- A value or nothing. -/
def option (_ : Place) (decode : Decoder α) : Decoder (Option α)
  | .null => some none
  | v => (decode v).map some

/-- A list. -/
def list (place : Place) (decode : Decoder α) : Decoder (List α) := fun v =>
  match place.view v with
  | .list vs => vs.mapM decode
  | .null => if place = .yaml then some [] else none
  | _ => none

/-- Exactly two values. -/
def pair (place : Place) (decode : Decoder α) : Decoder (α × α) := fun v =>
  match place.view v with
  | .list [a, b] => do
    let x ← decode a
    let y ← decode b
    pure (x, y)
  | _ => none

/-- Whether a value stands for the absence of content. -/
def isUnit : Place → Value → Bool
  | .nested, .map [] => true
  | .yaml, v => match v.untagged with
    | .null => true
    | _ => false
  | _, .null => true
  | _, _ => false

/-- One of several names.  A map with the name as its only key, and nothing under it, names it
too; in YAML a tag does. -/
def choice (place : Place) (name : α → String) (all : List α) : Decoder α := fun v =>
  let find (s : String) : Option α := all.find? fun a => name a = s
  match v with
  | .str s => find s
  | .map [(.str s, content)] => if place ≠ .yaml && place.isUnit content then find s else none
  | .tagged tag content =>
    if place = .yaml && place.isUnit content then
      find (if tag.startsWith "!" then (tag.drop 1).toString else tag)
    else none
  | _ => none

/-- The name of the field that a key stands for; the outer `none` refuses the key, the inner one
stands for a field that does not exist. -/
def fieldName (place : Place) (names : List String) : Value → Option (Option String)
  | .str s => some (some s)
  | .int (.ofNat n) => if place = .nested then some names[n]? else none
  | .tagged _ (.str s) => if place = .yaml then some (some s) else none
  | _ => none

/-- The named fields among the entries of a map, none twice. -/
def namedFields (place : Place) (names : List String) :
    List (Value × Value) → Option (List (String × Value))
  | [] => some []
  | (k, v) :: rest => do
    let name ← place.fieldName names k
    let fields ← namedFields place names rest
    match name with
    | some n =>
      if names.contains n then
        if fields.any (·.1 = n) then none else pure ((n, v) :: fields)
      else pure fields
    -- fields that do not exist are skipped
    | none => pure fields

/-- The fields of a record: the entries of a map, or, where it is allowed, the items of a list. -/
def record (place : Place) (names : List String) (v : Value) : Option (List (String × Value)) :=
  match place.view v with
  | .map entries => place.namedFields names entries
  | .list vs =>
    -- a list gives the fields in their order, the last of them may be missing
    if place = .yaml || vs.length > names.length then none else some (names.zip vs)
  | .null => if place = .yaml then some [] else none
  | _ => none

/-- The fields of one form of a part that has several forms; they are never listed. -/
def variant (names : List String) : Value → Option (List (String × Value))
  | .map entries => Place.nested.namedFields names entries
  | _ => none

/-- A part that names its form under the key `type`: the name and the rest.  The rest has no
tags, and a list starts with the name. -/
def form (place : Place) (names : List String) (v : Value) : Option (String × Value) :=
  match v with
  | .map entries => do
    let (_, tag) ← entries.find? fun e => e.1.str? = some "type"
    let name ← tagName tag
    let rest := Value.map (entries.filter fun e => e.1.str? ≠ some "type")
    if rest.isPlain then pure (name, rest) else none
  | .list (tag :: rest) => do
    let name ← tagName tag
    if (Value.list rest).isPlain then pure (name, .list rest) else none
  | _ => none
where
  /-- The name of the form; below other parts its number will do. -/
  tagName (tag : Value) : Option String :=
    match place.view tag with
    | .str s => if names.contains s then some s else none
    | .int (.ofNat n) => if place = .nested then names[n]? else none
    | _ => none

end Place

/-- The fields of a record, by name. -/
abbrev Fields := List (String × Value)

namespace Fields

/-- The value of a field. -/
def get? (fields : Fields) (name : String) : Option Value :=
  (fields.find? (·.1 = name)).map Prod.snd

/-- A field that has to be there. -/
def required (fields : Fields) (name : String) (decode : Decoder α) : Option α :=
  (fields.get? name).bind decode

/-- A field that may be left out. -/
def withDefault (fields : Fields) (name : String) (default : α) (decode : Decoder α) : Option α :=
  match fields.get? name with
  | none => some default
  | some v => decode v

/-- A field that may be left out or be nothing. -/
def optional (fields : Fields) (name : String) (place : Place) (decode : Decoder α) :
    Option (Option α) :=
  fields.withDefault name none (place.option decode)

end Fields

end ChartPipeline
