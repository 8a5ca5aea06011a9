import ChartPipeline.Json.Printer
import ChartPipeline.Text.Blank
import ChartPipeline.Expression
import ChartPipeline.Chart.Fault

/-!
# Filter predicates
-/

namespace ChartPipeline

/-- A condition on rows: the text of an expression, or a condition on one field. -/
inductive Predicate where
  | expression (text : String)
  | equal (field : String) (value : Json)
  | range (field : String) (low high : Float)
  | oneOf (field : String) (values : List Json)
deriving Inhabited

namespace Predicate

/-- Refuses a predicate that holds of no row or cannot be evaluated. -/
def validate : Predicate → Except DefinitionFault Unit
  | expression text => if isBlankText text then .error .blankExpression else .ok ()
  | equal _ _ => .ok ()
  | range field low high => if low ≤ high then .ok () else .error (.emptyRange low high field)
  | oneOf field values => if values.isEmpty then .error (.noMembers field) else .ok ()

/-- The predicate as an expression. -/
def toExpression : Predicate → String
  | expression text => text
  | equal field value => Expression.datum field ++ "===" ++ value.compact
  | range field low high =>
    "inrange(" ++ Expression.datum field ++ ", " ++ FloatText.plain low ++ ", " ++
      FloatText.plain high ++ ")"
  | oneOf field values =>
    "indexof([" ++ ",".intercalate (values.map Json.compact) ++ "], " ++
      Expression.datum field ++ ") !== -1"

/-- The expression that holds when all predicates do; a single one stands without parentheses. -/
def conjunction : List Predicate → String
  | [p] => p.toExpression
  | ps => " && ".intercalate (ps.map fun p => "(" ++ p.toExpression ++ ")")

end Predicate

end ChartPipeline
