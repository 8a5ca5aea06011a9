import ChartPipeline.Text.FloatText
import ChartPipeline.Text.NumberText
import ChartPipeline.Value.Basic

/-!
# Words of a TOML text

Strings, keys, numbers, truth values and points in time.  A reader takes the rest of the text and
returns what it read with the new rest.
-/

namespace ChartPipeline.Toml

/-! ### Characters -/

/-- Skips blanks and tabs. -/
def skipBlanks (cs : List Char) : List Char := cs.dropWhile fun c => c = ' ' || c = '\t'

/-- Whether a character may stand in comments and strings as it is. -/
def isPlainChar (c : Char) : Bool := c = '\t' || (32 ≤ c.toNat && c.toNat ≠ 127)

/-- Skips a comment, if there is one. -/
def skipComment : List Char → List Char
  | '#' :: rest => rest.dropWhile isPlainChar
  | cs => cs

/-- Skips a line end. -/
def newline? : List Char → Option (List Char)
  | '\n' :: rest => some rest
  | '\r' :: '\n' :: rest => some rest
  | _ => none

/-- Goes to the next line, past blanks and a comment. -/
def endLine? (cs : List Char) : Option (List Char) :=
  match skipComment (skipBlanks cs) with
  | [] => some []
  | cs => newline? cs

/-- Skips blanks, comments and line ends. -/
def skipLines : Nat → List Char → List Char
  | 0, cs => cs
  | fuel + 1, cs =>
    let cs := skipComment (skipBlanks cs)
    match newline? cs with
    | some rest => skipLines fuel rest
    | none => cs

/-! ### Strings -/

/-- Reads an escape after its backslash. -/
def escape? : List Char → Option (Char × List Char)
  | 'b' :: rest => some (Char.ofNat 8, rest)
  | 't' :: rest => some ('\t', rest)
  | 'n' :: rest => some ('\n', rest)
  | 'f' :: rest => some (Char.ofNat 12, rest)
  | 'r' :: rest => some ('\r', rest)
  | '"' :: rest => some ('"', rest)
  | '\\' :: rest => some ('\\', rest)
  | 'u' :: rest => code 4 rest
  | 'U' :: rest => code 8 rest
  | _ => none
where
  /-- The character of a number with so many digits. -/
  code (width : Nat) (rest : List Char) : Option (Char × List Char) := do
    let ds := rest.take width
    if ds.length < width then none
    let n ← NumberText.digits? 16 ds
    if n > 0x10FFFF || (0xD800 ≤ n && n ≤ 0xDFFF) then none
    else some (Char.ofNat n, rest.drop width)

/-- Reads a string on one line after its opening quote. -/
def lineString (quote : Char) : Nat → List Char → List Char → Option (String × List Char)
  | 0, _, _ => none
  | _, _, [] => none
  | fuel + 1, acc, c :: rest =>
    if c = quote then some (String.ofList acc.reverse, rest)
    else if c = '\\' && quote = '"' then do
      let (char, rest) ← escape? rest
      lineString quote fuel (char :: acc) rest
    else if isPlainChar c then lineString quote fuel (c :: acc) rest
    else none

/-- Skips blanks and line ends. -/
def skipSpace : Nat → List Char → List Char
  | 0, cs => cs
  | fuel + 1, cs =>
    let cs := skipBlanks cs
    match newline? cs with
    | some rest => skipSpace fuel rest
    | none => cs

/-- Reads a string of several lines after its opening quotes.  Up to two quotes may stand in front
of the closing ones. -/
def blockString (quote : Char) : Nat → List Char → List Char → Option (String × List Char)
  | 0, _, _ => none
  | _, _, [] => none
  | fuel + 1, acc, c :: rest =>
    if c = quote then
      -- the last three of the quotes close the string; those in front of them belong to it
      let quotes := (c :: rest).takeWhile (· = quote)
      if quotes.length ≥ 6 then none
      else if quotes.length ≥ 3 then
        some (String.ofList (quotes.drop 3 ++ acc).reverse, (c :: rest).drop quotes.length)
      else blockString quote fuel (c :: acc) rest
    else if c = '\\' && quote = '"' then
      -- a backslash at the end of a line leaves out all space after it
      match newline? (skipBlanks rest) with
      | some after => blockString quote fuel acc (skipSpace (after.length + 1) after)
      | none => do
        let (char, rest) ← escape? rest
        blockString quote fuel (char :: acc) rest
    else match newline? (c :: rest) with
      | some after => blockString quote fuel ('\n' :: acc) after
      | none => if isPlainChar c then blockString quote fuel (c :: acc) rest else none

/-- Reads a string that begins with a quote, on one line or on several. -/
def string? (quote : Char) (block : Bool) (rest : List Char) : Option (String × List Char) :=
  let fuel := rest.length + 1
  match rest with
  | a :: b :: after =>
    if block && a = quote && b = quote then
      -- a line end right behind the opening quotes is left out
      blockString quote fuel [] ((newline? after).getD after)
    else lineString quote fuel [] rest
  | _ => lineString quote fuel [] rest

/-! ### Keys -/

/-- Whether a character may stand in a key without quotes. -/
def isKeyChar (c : Char) : Bool := c.isAlphanum || c = '_' || c = '-'

/-- Reads one part of a key. -/
def keyPart : List Char → Option (String × List Char)
  | '"' :: rest => string? '"' false rest
  | '\'' :: rest => string? '\'' false rest
  | cs =>
    let name := cs.takeWhile isKeyChar
    if name.isEmpty then none else some (String.ofList name, cs.drop name.length)

/-- Reads a key: parts with dots between them. -/
def key : Nat → List Char → Option (List String × List Char)
  | 0, _ => none
  | fuel + 1, cs => do
    let (part, rest) ← keyPart (skipBlanks cs)
    match skipBlanks rest with
    | '.' :: rest =>
      let (parts, rest) ← key fuel rest
      pure (part :: parts, rest)
    | rest => pure ([part], rest)

/-! ### Numbers and dates -/

/-- Digits without the underscores between them. -/
def plainDigits? (cs : List Char) : Option (List Char) :=
  let groups := (String.ofList cs).splitOn "_"
  if groups.any String.isEmpty then none else some (groups.flatMap String.toList)

/-- Takes a sign off. -/
def unsigned : List Char → Bool × List Char
  | '-' :: rest => (true, rest)
  | '+' :: rest => (false, rest)
  | cs => (false, cs)

/-- Decimal digits without a leading zero. -/
def wholeDigits? (cs : List Char) : Option (List Char) := do
  let ds ← plainDigits? cs
  if ds.all Char.isDigit && (ds.length = 1 || ds.head? ≠ some '0') then some ds else none

/-- The size of an integer. -/
def integerSize? (signed : Bool) : List Char → Option Nat
  | '0' :: 'x' :: rest => based 16 rest
  | '0' :: 'o' :: rest => based 8 rest
  | '0' :: 'b' :: rest => based 2 rest
  | cs => (wholeDigits? cs).bind (NumberText.digits? 10)
where
  /-- The size of digits of another base, which have no sign. -/
  based (base : Nat) (rest : List Char) : Option Nat :=
    if signed then none else (plainDigits? rest).bind (NumberText.digits? base)

/-- An integer of 64 bits. -/
def integer? (cs : List Char) : Option Int := do
  let (negative, rest) := unsigned cs
  let size ← integerSize? (rest.length < cs.length) rest
  let n : Int := if negative then -(size : Int) else size
  if -(2 ^ 63) ≤ n && n < 2 ^ 63 then some n else none

/-- The text of a float without underscores. -/
def floatText? (cs : List Char) : Option (List Char) := do
  let whole := cs.takeWhile fun c => c.isDigit || c = '_'
  let rest := cs.drop whole.length
  let whole ← wholeDigits? whole
  let (fraction, rest) ← match rest with
    | '.' :: rest => do
      let fraction := rest.takeWhile fun c => c.isDigit || c = '_'
      let ds ← plainDigits? fraction
      pure ('.' :: ds, rest.drop fraction.length)
    | _ => pure ([], rest)
  match rest with
  -- without a point and an exponent this is no float
  | [] => if fraction.isEmpty then none else some (whole ++ fraction)
  | e :: rest =>
    if e = 'e' || e = 'E' then do
      let (negative, ds) := unsigned rest
      let ds ← plainDigits? ds
      if ds.all Char.isDigit then
        some (whole ++ fraction ++ 'e' :: (if negative then ['-'] else []) ++ ds)
      else none
    else none

/-- A float. -/
def float? (cs : List Char) : Option Float := do
  let (negative, rest) := unsigned cs
  let x ←
    if rest = "inf".toList || rest = "nan".toList then NumberText.namedFloat? rest
    else do
      let x ← NumberText.float? (← floatText? rest)
      -- a number beyond all doubles is refused, unless it is negative
      if FloatText.finite x || negative then some x else none
  pure (if negative then -x else x)

/-- A number of exactly so many digits, within bounds. -/
def fixed? (width low high : Nat) (cs : List Char) : Option (List Char) := do
  let ds := cs.take width
  if ds.length < width then none
  let n ← NumberText.digits? 10 ds
  if low ≤ n && n ≤ high then some (cs.drop width) else none

/-- Skips a character. -/
def skipChar? (char : Char) : List Char → Option (List Char)
  | c :: rest => if c = char then some rest else none
  | [] => none

/-- How many days a month has. -/
def daysIn (year month : Nat) : Nat :=
  if month = 2 then
    if year % 4 = 0 && (year % 100 ≠ 0 || year % 400 = 0) then 29 else 28
  else if [4, 6, 9, 11].contains month then 30
  else 31

/-- Skips a date. -/
def skipDate? (cs : List Char) : Option (List Char) := do
  let year ← NumberText.digits? 10 (cs.take 4)
  let rest ← skipChar? '-' (← fixed? 4 0 9999 cs)
  let month ← NumberText.digits? 10 (rest.take 2)
  let rest ← skipChar? '-' (← fixed? 2 1 12 rest)
  fixed? 2 1 (daysIn year month) rest

/-- Skips a time. -/
def skipTime? (cs : List Char) : Option (List Char) := do
  let rest ← skipChar? ':' (← fixed? 2 0 23 cs)
  let rest ← skipChar? ':' (← fixed? 2 0 59 rest)
  match ← fixed? 2 0 60 rest with
  | '.' :: rest =>
    let fraction := rest.takeWhile Char.isDigit
    if fraction.isEmpty then none else some (rest.drop fraction.length)
  | rest => some rest

/-- Skips the offset of a time, if there is one. -/
def skipOffset? : List Char → Option (List Char)
  | 'Z' :: rest | 'z' :: rest => some rest
  | '+' :: rest | '-' :: rest => do fixed? 2 0 59 (← skipChar? ':' (← fixed? 2 0 24 rest))
  | cs => some cs

/-- Skips a point in time: a date, a time, or both. -/
def skipMoment? (cs : List Char) : Option (List Char) :=
  match skipDate? cs with
  | none => skipTime? cs
  | some rest =>
    match rest with
    | 'T' :: time | 't' :: time => (skipTime? time).bind skipOffset?
    | ' ' :: time =>
      -- a blank may lead to a time, or follow the date
      match skipTime? time with
      | some rest => skipOffset? rest
      | none => some rest
    | _ => some rest

/-- Reads a point in time, of which the text is kept. -/
def moment? (cs : List Char) : Option (String × List Char) := do
  let rest ← skipMoment? cs
  pure (String.ofList (cs.take (cs.length - rest.length)), rest)

/-- Whether a character may stand in a number or a word. -/
def isAtomChar (c : Char) : Bool := c.isAlphanum || c = '_' || c = '+' || c = '-' || c = '.'

/-- Reads a number, a truth value, or a point in time. -/
def atom (cs : List Char) : Option (Value × List Char) :=
  match moment? cs with
  | some (text, rest) => some (.str text, rest)
  | none =>
    let word := cs.takeWhile isAtomChar
    let rest := cs.drop word.length
    if word = "true".toList then some (.bool true, rest)
    else if word = "false".toList then some (.bool false, rest)
    else match integer? word with
      | some n => some (.int n, rest)
      | none => (float? word).map fun x => (.float x, rest)

end ChartPipeline.Toml
