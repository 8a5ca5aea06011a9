/-!
# Files of environment variables

A line of such a file sets a variable.  Values may stand in quotes, where they may go on over
several lines, may have escapes, and may mention variables, those of the environment first.
Comments follow a blank.  Reading ends at the first line that is wrong; what stands before it
counts.
-/

namespace ChartPipeline

/-- Variables with their values. -/
abbrev Variables := List (String × String)

namespace Variables

/-- The value of a variable. -/
def value? (vars : Variables) (name : String) : Option String :=
  (vars.find? (·.1 = name)).map Prod.snd

end Variables

namespace EnvFile

/-! ### Lines -/

/-- Where a line stands when a character was read. -/
inductive Position where
  | plain
  | escaped
  | single
  | singleEscaped
  | double
  | doubleEscaped
  | comment
  | blank
deriving DecidableEq, Repr

/-- Whether a character is white space. -/
def isSpace (c : Char) : Bool :=
  let n := c.toNat
  (9 ≤ n && n ≤ 13) || n = 32 || n = 0x85 || n = 0xA0 || n = 0x1680 ||
    (0x2000 ≤ n && n ≤ 0x200A) || n = 0x2028 || n = 0x2029 || n = 0x202F || n = 0x205F ||
    n = 0x3000

/-- The position at a character outside quotes. -/
def Position.enter (c : Char) : Position :=
  if c = '\\' then escaped
  else if c = '"' then double
  else if c = '\'' then single
  else plain

/-- The position after a character. -/
def Position.next (p : Position) (c : Char) : Position :=
  match p with
  | blank => if c = '#' then comment else enter c
  | escaped => plain
  | plain => if isSpace c && c ≠ '\n' && c ≠ '\r' then blank else enter c
  | double => if c = '\\' then doubleEscaped else if c = '"' then plain else double
  | doubleEscaped => double
  | single => if c = '\\' then singleEscaped else if c = '\'' then plain else single
  | singleEscaped => single
  | comment => comment

/-- Goes through a line; what stands before a comment, the last character in front. -/
def scanLine : Position → List Char → List Char → Position × List Char
  | p, acc, [] => (p, acc)
  | p, acc, c :: rest =>
    match p.next c with
    | .comment => (.comment, acc)
    | q => scanLine q (c :: acc) rest

/-- A text with its first line end taken off, and the rest. -/
def takeLine (cs : List Char) : List Char × List Char :=
  let line := cs.takeWhile (· ≠ '\n')
  match cs.drop line.length with
  | c :: rest => (line ++ [c], rest)
  | [] => (line, [])

/-- Leaves out the line end at the end of a reversed text. -/
def dropLineEnd : List Char → List Char
  | '\n' :: '\r' :: rest => rest
  | '\n' :: rest => rest
  | cs => cs

/-- The lines of a text, where quotes may go on over several; `none` stands for one that is never
closed. -/
def logicalLines : Nat → Position → List Char → List Char → List (Option (List Char))
  | 0, _, _, _ => []
  | _, .plain, [], [] => []
  | _, _, _, [] => [none]
  | fuel + 1, p, acc, cs =>
    let (line, rest) := takeLine cs
    let whole := acc.reverse ++ line
    -- a line that begins with a hash sign is a comment as a whole
    if (whole.dropWhile isSpace).head? = some '#' then
      logicalLines fuel .plain [] rest
    else
      match scanLine p acc line with
      | (.plain, acc) => some (dropLineEnd acc).reverse :: logicalLines fuel .plain [] rest
      | (.comment, acc) => some acc.reverse :: logicalLines fuel .plain [] rest
      -- quotes that are open go on in the next line
      | (q, acc) => logicalLines fuel q acc rest

/-! ### Values -/

/-- Whether a variable's name is being read inside a value. -/
inductive Mention where
  | none
  | bare
  | braced
deriving DecidableEq, Repr

/-- The state of reading a value. -/
structure ValueState where
  single : Bool := false
  double : Bool := false
  escaped : Bool := false
  /-- The value is over; only a comment may follow. -/
  ended : Bool := false
  mention : Mention := .none
  /-- The name of the variable that is mentioned, the last character in front. -/
  name : List Char := []
  /-- The value so far, the last character in front. -/
  output : List Char := []

namespace ValueState

/-- Appends a character. -/
def push (st : ValueState) (c : Char) : ValueState := { st with output := c :: st.output }

/-- Puts in the value of the variable that is mentioned. -/
def substitute (lookup : String → String) (st : ValueState) : ValueState :=
  { st with
    output := (lookup (String.ofList st.name.reverse)).toList.reverse ++ st.output
    name := [] }

/-- The state after a character of a mention. -/
def stepMention (lookup : String → String) (st : ValueState) (c : Char) : ValueState :=
  if c.isAlphanum then { st with name := c :: st.name }
  else if st.mention = .braced then
    if c = '\x7d' then { st.substitute lookup with mention := .none }
    else { st with name := c :: st.name }
  else if c = '\x7b' && st.name.isEmpty then { st with mention := .braced }
  else
    -- any other character ends the name, and may begin another mention
    let st := st.substitute lookup
    if c = '$' then { st with mention := .bare } else { st with mention := .none }.push c

/-- The state after a character; `none` if it may not stand there. -/
def step (lookup : String → String) (st : ValueState) (c : Char) : Option ValueState :=
  if st.ended then if c = ' ' || c = '\t' then some st else none
  else if st.escaped then
    let st := { st with escaped := false }
    if ['\\', '\'', '"', '$', ' '].contains c then some (st.push c)
    else if c = 'n' then some (st.push '\n')
    else none
  -- single quotes keep everything; in double quotes variables and escapes count
  else if st.single then
    some (if c = '\'' then { st with single := false } else st.push c)
  else if st.mention ≠ .none then some (st.stepMention lookup c)
  else if c = '$' then some { st with mention := .bare }
  else if c = '\\' then some { st with escaped := true }
  else if st.double then
    some (if c = '"' then { st with double := false } else st.push c)
  else if c = '\'' then some { st with single := true }
  else if c = '"' then some { st with double := true }
  else if c = ' ' || c = '\t' then some { st with ended := true }
  else some (st.push c)

/-- Goes through a value up to a comment. -/
def run (lookup : String → String) : ValueState → List Char → Option ValueState
  | st, [] => some st
  | st, c :: rest =>
    if st.ended && c = '#' then some st
    else do run lookup (← st.step lookup c) rest

end ValueState

/-- The value that a text spells. -/
def value? (lookup : String → String) (cs : List Char) : Option String := do
  let st ← ValueState.run lookup {} cs
  if st.mention = .braced || st.single || st.double then none
  else some (String.ofList (st.substitute lookup).output.reverse)

/-! ### Assignments -/

/-- The name at the beginning of a text, and what follows it. -/
def name? (cs : List Char) : Option (String × List Char) :=
  match cs with
  | c :: _ =>
    if c.isAlpha || c = '_' then
      let name := cs.takeWhile fun c => c.isAlphanum || c = '_' || c = '.'
      some (String.ofList name, (cs.drop name.length).dropWhile isSpace)
    else none
  | [] => none

/-- Skips the sign between a name and its value. -/
def skipEquals? : List Char → Option (List Char)
  | '=' :: rest => some (rest.dropWhile isSpace)
  | _ => none

/-- The name and the text of the value of a line; the name may follow the word `export`. -/
def assignment? (cs : List Char) : Option (String × List Char) := do
  let (name, rest) ← name? cs
  match skipEquals? rest with
  | some value => pure (name, value)
  | none =>
    if name = "export" then
      let (name, rest) ← name? rest
      let value ← skipEquals? rest
      pure (name, value)
    else none

/-- Leaves out white space at the end. -/
def trimEnd (cs : List Char) : List Char := (cs.reverse.dropWhile isSpace).reverse

/-- Reads lines after the variables that are set, and returns those that the lines add. -/
def assignments (environment : Variables) : Variables → List (Option (List Char)) → Variables
  | _, [] => []
  | _, none :: _ => []
  | known, some line :: rest =>
    let cs := (trimEnd line).dropWhile isSpace
    if cs.isEmpty || cs.head? = some '#' then assignments environment known rest
    else
      -- the environment goes before what earlier lines have set
      let lookup (name : String) : String :=
        ((environment.value? name).orElse fun _ => known.value? name).getD ""
      let read : Option (String × String) := do
        let (name, text) ← assignment? cs
        let value ← if text.head? = some '#' then some "" else value? lookup text
        pure (name, value)
      match read with
      -- the first line that is wrong ends the file
      | none => []
      | some (name, value) =>
        let environment :=
          if (environment.value? name).isSome then environment
          else environment ++ [(name, value)]
        (name, value) :: assignments environment ((name, value) :: known) rest

end EnvFile

/-- The environment with the variables of a file that are not set yet. -/
def Variables.withFile (environment : Variables) (text : String) : Variables :=
  let cs := text.toList
  -- a byte order mark in front is left out
  let cs := match cs with
    | c :: rest => if c.toNat = 0xFEFF then rest else cs
    | [] => cs
  let added := EnvFile.assignments environment []
    (EnvFile.logicalLines (cs.length + 1) .plain [] cs)
  added.foldl (fun env v => if (env.value? v.1).isSome then env else env ++ [v]) environment

end ChartPipeline
