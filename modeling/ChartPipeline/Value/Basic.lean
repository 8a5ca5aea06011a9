import ChartPipeline.Json.Basic
import ChartPipeline.Text.FloatText

/-!
# Values of documents

A `Value` is what a document holds before its parts are given a type.  It goes beyond JSON where
YAML does: any value may be the key of an entry, and a value may carry a tag.
-/

namespace ChartPipeline

/-- A value of a document. -/
inductive Value where
  | null
  | bool (value : Bool)
  | int (value : Int)
  | float (value : Float)
  | str (value : String)
  | list (items : List Value)
  | map (entries : List (Value × Value))
  | tagged (tag : String) (value : Value)
deriving Inhabited

namespace Value

mutual

/-- The value of a JSON text. -/
def ofJson : Json → Value
  | .null => null
  | .bool b => bool b
  | .int n => int n
  | .float x => float x
  | .str s => str s
  | .arr items => list (ofItems items)
  | .obj fields => map (ofFields fields)

/-- The values of a list. -/
def ofItems : List Json → List Value
  | [] => []
  | j :: rest => ofJson j :: ofItems rest

/-- The entries of an object. -/
def ofFields : List (String × Json) → List (Value × Value)
  | [] => []
  | (k, j) :: rest => (str k, ofJson j) :: ofFields rest

end

mutual

/-- The JSON value of a value; there is none with tags or with keys that are not strings.  Floats
that JSON cannot write become `null`. -/
def toJson? : Value → Option Json
  | null => some .null
  | bool b => some (.bool b)
  | int n => some (.int n)
  | float x => some (if FloatText.finite x then .float x else .null)
  | str s => some (.str s)
  | list items => (itemsToJson? items).map .arr
  | map entries => (entriesToJson? entries).map .object
  | tagged _ _ => none

/-- The JSON values of a list. -/
def itemsToJson? : List Value → Option (List Json)
  | [] => some []
  | v :: rest => do
    let j ← toJson? v
    let js ← itemsToJson? rest
    pure (j :: js)

/-- The fields that the entries of a map make up. -/
def entriesToJson? : List (Value × Value) → Option (List (String × Json))
  | [] => some []
  | (.str k, v) :: rest => do
    let j ← toJson? v
    let fs ← entriesToJson? rest
    pure ((k, j) :: fs)
  | _ :: _ => none

end

mutual

/-- Whether no part of the value carries a tag. -/
def isPlain : Value → Bool
  | list items => itemsPlain items
  | map entries => entriesPlain entries
  | tagged _ _ => false
  | _ => true

/-- Whether no value of a list carries a tag. -/
def itemsPlain : List Value → Bool
  | [] => true
  | v :: rest => isPlain v && itemsPlain rest

/-- Whether no entry of a map carries a tag. -/
def entriesPlain : List (Value × Value) → Bool
  | [] => true
  | (k, v) :: rest => isPlain k && isPlain v && entriesPlain rest

end

mutual

/-- How deep lists and maps nest. -/
def depth : Value → Nat
  | list items => itemsDepth items + 1
  | map entries => entriesDepth entries + 1
  | tagged _ v => depth v + 1
  | _ => 0

/-- The greatest depth in a list. -/
def itemsDepth : List Value → Nat
  | [] => 0
  | v :: rest => max (depth v) (itemsDepth rest)

/-- The greatest depth among the values of a map. -/
def entriesDepth : List (Value × Value) → Nat
  | [] => 0
  | (_, v) :: rest => max (depth v) (entriesDepth rest)

end

/-- The value without the tags around it. -/
def untagged : Value → Value
  | tagged _ v => untagged v
  | v => v

/-- The text of a string value. -/
def str? : Value → Option String
  | str s => some s
  | _ => none

/-- The value at a string key of a map. -/
def field? (name : String) : Value → Option Value
  | map entries => (entries.find? fun e => e.1.str? = some name).map Prod.snd
  | _ => none

end Value

end ChartPipeline
