/-!
# Names inside expressions

Expressions read a field of the current row through an accessor, and signals are named by
identifiers, which `varName` makes out of any text.
-/

namespace ChartPipeline.Expression

/-- Whether a character may stand in an identifier. -/
def isIdentifierChar (c : Char) : Bool := c.isAlphanum || c = '_' || c = '$'

/-- The identifier made from a name: every other character becomes an underscore, and one is put
in front of a leading digit. -/
def varName (name : String) : String :=
  let cs := name.toList.map fun c => if isIdentifierChar c then c else '_'
  match cs with
  | c :: _ => String.ofList (if c.isDigit then '_' :: cs else cs)
  | [] => ""

/-- The accessor of a field of the current row. -/
def datum (field : String) : String := "datum[\"" ++ field ++ "\"]"

end ChartPipeline.Expression
