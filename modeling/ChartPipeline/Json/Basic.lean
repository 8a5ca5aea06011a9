import ChartPipeline.SortedMap

/-!
# JSON values

Integers stay apart from floats, so that both keep their text.  The fields of an object stand in
the order in which they are written; free JSON, which a document brings along, has them in the
order of their names, each name once.
-/

namespace ChartPipeline

/-- A JSON value. -/
inductive Json where
  | null
  | bool (value : Bool)
  | int (value : Int)
  | float (value : Float)
  | str (value : String)
  | arr (items : List Json)
  | obj (fields : List (String × Json))
deriving Inhabited

namespace Json

/-- The object with the given fields, in the order of their names; of several fields with one name
the last one stays. -/
def object (fields : List (String × Json)) : Json :=
  obj (fields.foldl (fun es e => SortedMap.upsertEntries e.1 (fun _ => e.2) es) [])

/-- The field of an object. -/
def field? (name : String) : Json → Option Json
  | obj fields => (fields.find? (·.1 = name)).map Prod.snd
  | _ => none

/-- The text of a string value. -/
def str? : Json → Option String
  | str s => some s
  | _ => none

/-- The optional field of an object under construction: nothing for `none`. -/
def optional (name : String) (encode : α → Json) : Option α → List (String × Json)
  | none => []
  | some a => [(name, encode a)]

/-- A list field of an object under construction: nothing for the empty list. -/
def nonempty (name : String) (encode : α → Json) : List α → List (String × Json)
  | [] => []
  | as => [(name, arr (as.map encode))]

/-- A value or `null`. -/
def orNull (encode : α → Json) : Option α → Json
  | none => null
  | some a => encode a

/-- A list of strings. -/
def strings (ss : List String) : Json := arr (ss.map str)

end Json

end ChartPipeline
