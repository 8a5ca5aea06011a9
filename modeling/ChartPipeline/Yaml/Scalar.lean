import ChartPipeline.Text.FloatText
import ChartPipeline.Text.NumberText
import ChartPipeline.Value.Basic

/-!
# What plain scalars stand for

A plain scalar is nothing, a truth value, a number or a string.  Integers may be written with base
16, 8 or 2; decimal digits after a leading zero are a string.
-/

namespace ChartPipeline.Yaml

/-- Whether a text is the spelling of nothing. -/
def isNullText (text : String) : Bool := ["null", "Null", "NULL", "~"].contains text

/-- The truth value that a text spells. -/
def boolOfText? (text : String) : Option Bool :=
  if ["true", "True", "TRUE"].contains text then some true
  else if ["false", "False", "FALSE"].contains text then some false
  else none

/-- Whether a text consists of digits after a leading zero, with or without a sign. -/
def hasLeadingZero (cs : List Char) : Bool :=
  let cs := match cs with
    | '-' :: rest | '+' :: rest => rest
    | _ => cs
  match cs with
  | '0' :: rest => !rest.isEmpty && rest.all Char.isDigit
  | _ => false

/-- The size of an integer, after its sign. -/
def integerSize? : List Char → Option Nat
  | '0' :: 'x' :: rest => NumberText.digits? 16 rest
  | '0' :: 'o' :: rest => NumberText.digits? 8 rest
  | '0' :: 'b' :: rest => NumberText.digits? 2 rest
  | cs => if hasLeadingZero cs then none else NumberText.digits? 10 cs

/-- The integer that a text spells. -/
def integer? : List Char → Option Int
  | '-' :: rest => (integerSize? rest).map fun n => -(n : Int)
  | '+' :: rest => (integerSize? rest).map fun n => (n : Int)
  | cs => (integerSize? cs).map fun n => (n : Int)

/-- Where an integer lies. -/
inductive IntegerRange where
  /-- Within 64 bits, signed or not. -/
  | word
  /-- Within 128 bits; there are no such values. -/
  | double
  /-- Beyond that; such a text is no integer at all. -/
  | beyond
deriving DecidableEq, Repr

/-- Where an integer lies. -/
def IntegerRange.of (n : Int) : IntegerRange :=
  if -(2 ^ 63) ≤ n && n < 2 ^ 64 then word
  else if -(2 ^ 127) ≤ n && n < 2 ^ 128 then double
  else beyond

/-- The float that a text spells. -/
def float? (text : String) : Option Float :=
  if [".inf", ".Inf", ".INF", "+.inf", "+.Inf", "+.INF"].contains text then some (1.0 / 0.0)
  else if ["-.inf", "-.Inf", "-.INF"].contains text then some (-1.0 / 0.0)
  else if [".nan", ".NaN", ".NAN"].contains text then some (0.0 / 0.0)
  else (NumberText.float? text.toList).filter FloatText.finite

/-- What an integer stands for: within 128 bits but beyond 64 bits it has no value, and beyond
those its text is none. -/
def integerValue? (text : String) : Option (Option Value) :=
  match integer? text.toList with
  | none => none
  | some n =>
    match IntegerRange.of n with
    | .word => some (some (.int n))
    | .double => some none
    | .beyond => none

/-- What a plain scalar stands for; `none` if it has no value. -/
def plainValue? (text : String) : Option Value :=
  if text.isEmpty || isNullText text then some .null
  else match boolOfText? text with
    | some b => some (.bool b)
    | none =>
      match integerValue? text with
      | some value => value
      | none =>
        -- digits after a leading zero are no number
        if hasLeadingZero text.toList then some (.str text)
        else match float? text with
          | some x => some (.float x)
          | none => some (.str text)

/-- The beginning of the tags of the core types. -/
def coreTag (name : String) : String := "tag:yaml.org,2002:" ++ name

/-- What a scalar stands for that has no tag of its own; the tag of a core type has to fit. -/
def scalarValue? (tag : Option String) (plain : Bool) (text : String) : Option Value :=
  match tag with
  | none => if plain then plainValue? text else some (.str text)
  | some tag =>
    if tag = coreTag "bool" then (boolOfText? text).map .bool
    else if tag = coreTag "int" then (integerValue? text).bind id
    else if tag = coreTag "float" then (float? text).map .float
    else if tag = coreTag "null" then if isNullText text then some .null else none
    else some (.str text)

end ChartPipeline.Yaml
