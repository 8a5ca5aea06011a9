import ChartPipeline.Json.Basic
import ChartPipeline.Text.FloatText
import ChartPipeline.Text.Quoted

/-!
# Writing JSON

`Json.compact` writes a value without blanks, `Json.pretty` over several lines with an indentation
of two blanks, where empty lists and objects stay on one line.
-/

namespace ChartPipeline.Json

mutual

/-- The text of a value, without blanks. -/
def compact : Json → String
  | null => "null"
  | bool b => if b then "true" else "false"
  | int n => toString n
  | float x => FloatText.json x
  | str s => Quoted.json s
  | arr items => "[" ++ compactItems items ++ "]"
  | obj fields => "\x7b" ++ compactFields fields ++ "\x7d"

/-- The items of a list, with commas between them. -/
def compactItems : List Json → String
  | [] => ""
  | [j] => compact j
  | j :: rest => compact j ++ "," ++ compactItems rest

/-- The fields of an object, with commas between them. -/
def compactFields : List (String × Json) → String
  | [] => ""
  | [(k, j)] => Quoted.json k ++ ":" ++ compact j
  | (k, j) :: rest => Quoted.json k ++ ":" ++ compact j ++ "," ++ compactFields rest

end

/-- A line break and the indentation of a nesting level. -/
def newline (level : Nat) : String := "\n" ++ String.ofList (List.replicate (2 * level) ' ')

mutual

/-- The text of a value that stands at a nesting level, over several lines. -/
def prettyAt (level : Nat) : Json → String
  | arr [] => "[]"
  | arr items => "[" ++ prettyItems (level + 1) items ++ newline level ++ "]"
  | obj [] => "\x7b\x7d"
  | obj fields => "\x7b" ++ prettyFields (level + 1) fields ++ newline level ++ "\x7d"
  | null => "null"
  | bool b => if b then "true" else "false"
  | int n => toString n
  | float x => FloatText.json x
  | str s => Quoted.json s

/-- The items of a list, one on a line. -/
def prettyItems (level : Nat) : List Json → String
  | [] => ""
  | [j] => newline level ++ prettyAt level j
  | j :: rest => newline level ++ prettyAt level j ++ "," ++ prettyItems level rest

/-- The fields of an object, one on a line. -/
def prettyFields (level : Nat) : List (String × Json) → String
  | [] => ""
  | [(k, j)] => newline level ++ Quoted.json k ++ ": " ++ prettyAt level j
  | (k, j) :: rest =>
    newline level ++ Quoted.json k ++ ": " ++ prettyAt level j ++ "," ++ prettyFields level rest

end

/-- The text of a value over several lines. -/
def pretty (j : Json) : String := prettyAt 0 j

end ChartPipeline.Json
