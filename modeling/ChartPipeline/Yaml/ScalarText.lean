import ChartPipeline.Text.NumberText
import ChartPipeline.Yaml.Cursor

/-!
# The text of YAML scalars

A scalar is plain, quoted, or a block.  Within plain and quoted scalars a line end is a blank, and
further line ends stand for themselves; blocks keep their lines or fold them, and say what becomes
of the line ends after them.
-/

namespace ChartPipeline.Yaml

/-- What stands between two runs of characters: blanks, or line ends. -/
structure Gap where
  /-- Whether there was a line end. -/
  broken : Bool := false
  blanks : List Char := []
  /-- The first line end. -/
  first : List Char := []
  /-- The line ends after the first. -/
  others : List Char := []

/-- What a gap stands for. -/
def Gap.text (gap : Gap) : List Char :=
  if !gap.broken then gap.blanks
  else if gap.first = ['\n'] then
    if gap.others.isEmpty then [' '] else gap.others
  else gap.first ++ gap.others

/-- Reads a gap.  Where a plain scalar goes on, no tab may stand before column `indent` of a new
line. -/
def readGap (indent : Option Int) : Nat → Gap → Cursor → Option (Gap × Cursor)
  | 0, _, _ => none
  | fuel + 1, gap, c =>
    match c.peek with
    | none => some (gap, c)
    | some char =>
      if isBlank char then
        if gap.broken && char = '\t' && indent.any (fun n : Int => (c.column : Int) < n) then none
        else
          -- blanks at the beginning of a line are indentation
          let gap := if gap.broken then gap else { gap with blanks := gap.blanks ++ [char] }
          readGap indent fuel gap c.skip
      else if isBreak char then
        let (text, c) := c.readBreak
        let gap :=
          if gap.broken then { gap with others := gap.others ++ text }
          else { broken := true, first := text }
        readGap indent fuel gap c
      else some (gap, c)

/-- Whether a character sets off parts of a flow collection. -/
def isFlowIndicator (c : Char) : Bool :=
  c = ',' || c = '[' || c = ']' || c = '\x7b' || c = '\x7d'

/-- Reads the characters of a plain scalar up to the next gap or indicator. -/
def readPlainRun (flow : Bool) : Nat → List Char → Cursor → Option (List Char × Cursor)
  | 0, _, _ => none
  | fuel + 1, acc, c =>
    match c.peek with
    | none => some (acc, c)
    | some char =>
      if isBlank char || isBreak char then some (acc, c)
      -- in a flow collection, a colon right in front of an indicator is refused
      else if flow && char = ':' && (c.peekAt 1).any (fun d => isFlowIndicator d || d = '?') then
        none
      else if char = ':' && c.atGap 1 then some (acc, c)
      else if flow && isFlowIndicator char then some (acc, c)
      else readPlainRun flow fuel (char :: acc) c.skip

/-- Reads a plain scalar: its text, the last character in front, and whether a line ended behind
it. -/
def readPlain (flow : Bool) (indent : Int) (limit : Nat) :
    Nat → List Char → Gap → Cursor → Option (List Char × Bool × Cursor)
  | 0, _, _, _ => none
  | fuel + 1, acc, gap, c =>
    -- a mark between documents or a comment ends the scalar
    if c.atDocumentMark || c.looksAt '#' then some (acc, gap.broken, c)
    else do
      let (run, c) ← readPlainRun flow limit [] c
      let acc := if run.isEmpty then acc else run ++ gap.text.reverse ++ acc
      let gap : Gap := if run.isEmpty then gap else {}
      if c.atBlank || c.atBreak then
        let (gap, c) ← readGap (some indent) limit gap c
        -- a line that is not indented is part of what is around
        if !flow && (c.column : Int) < indent then some (acc, gap.broken, c)
        else readPlain flow indent limit fuel acc gap c
      else some (acc, gap.broken, c)

/-- The character of a number, if there is one. -/
def charOfCode? (n : Nat) : Option Char :=
  if n > 0x10FFFF || (0xD800 ≤ n && n ≤ 0xDFFF) then none else some (Char.ofNat n)

/-- Reads an escape after its backslash. -/
def readEscape (c : Cursor) : Option (Char × Cursor) := do
  let char ← c.peek
  let code (digits : Nat) : Option (Char × Cursor) := do
    let ds := (c.rest.drop 1).take digits
    if ds.length < digits then none
    let n ← ds.foldlM (fun n d => (NumberText.hexDigit? d).map (n * 16 + ·)) 0
    let char ← charOfCode? n
    pure (char, c.skipN (digits + 1))
  let single (n : Nat) : Option (Char × Cursor) := some (Char.ofNat n, c.skip)
  match char with
  | '0' => single 0
  | 'a' => single 7
  | 'b' => single 8
  | 't' | '\t' => single 9
  | 'n' => single 10
  | 'v' => single 11
  | 'f' => single 12
  | 'r' => single 13
  | 'e' => single 27
  | ' ' | '"' | '/' | '\\' => some (char, c.skip)
  | 'N' => single 0x85
  | '_' => single 0xA0
  | 'L' => single 0x2028
  | 'P' => single 0x2029
  | 'x' => code 2
  | 'u' => code 4
  | 'U' => code 8
  | _ => none

/-- Reads the characters of a quoted scalar up to the next gap or the closing quote; also whether
it stopped behind an escaped line end. -/
def readQuotedRun (single : Bool) : Nat → List Char → Cursor → Option (List Char × Bool × Cursor)
  | 0, _, _ => none
  | fuel + 1, acc, c =>
    match c.peek with
    | none => some (acc, false, c)
    | some char =>
      if isBlank char || isBreak char then some (acc, false, c)
      else if single && char = '\'' then
        -- two quotes stand for one
        if c.looksAt '\'' 1 then readQuotedRun single fuel ('\'' :: acc) (c.skipN 2)
        else some (acc, false, c)
      else if !single && char = '"' then some (acc, false, c)
      else if !single && char = '\\' then
        -- an escaped line end joins two lines without a blank
        if (c.peekAt 1).any isBreak then some (acc, true, c.skip.skipBreak)
        else do
          let (escaped, c) ← readEscape c.skip
          readQuotedRun single fuel (escaped :: acc) c
      else readQuotedRun single fuel (char :: acc) c.skip

/-- Reads a quoted scalar after its opening quote: its text, the last character in front. -/
def readQuoted (single : Bool) (limit : Nat) : Nat → List Char → Cursor → Option (List Char × Cursor)
  | 0, _, _ => none
  | fuel + 1, acc, c =>
    if c.atDocumentMark || c.atEnd then none
    else do
      let (run, escapedBreak, c) ← readQuotedRun single limit [] c
      let acc := run ++ acc
      if c.looksAt (if single then '\'' else '"') then some (acc, c.skip)
      else
        let (gap, c) ← readGap none limit { broken := escapedBreak } c
        readQuoted single limit fuel (gap.text.reverse ++ acc) c

/-- What becomes of the line ends after a block. -/
inductive Chomp where
  | strip | clip | keep
deriving DecidableEq

/-- Reads blank lines in or before a block, and finds the indentation of the block if it is not
known yet. -/
def readBlankLines : Nat → Option Nat → Nat → List Char → Cursor →
    Option (List Char × Nat × Cursor)
  | 0, _, _, _, _ => none
  | fuel + 1, indent, deepest, acc, c =>
    -- how far blanks are indentation; without bound while that of the block is unknown
    let within (c : Cursor) : Bool := indent.all fun n => c.column < n
    if within c && c.looksAt ' ' then readBlankLines fuel indent deepest acc c.skip
    else
      let deepest := max deepest c.column
      if within c && c.looksAt '\t' then none
      else if c.atBreak then
        let (text, c) := c.readBreak
        readBlankLines fuel indent deepest (acc ++ text) c
      else some (acc, deepest, c)

/-- Reads the lines of a block. -/
def readBlockLines (literal : Bool) (indent limit : Nat) :
    Nat → List Char → List Char → List Char → Bool → Cursor →
    Option (List Char × List Char × List Char × Cursor)
  | 0, _, _, _, _, _ => none
  | fuel + 1, acc, first, others, leadingBlank, c =>
    if c.column = indent && !c.atEnd then do
      let blank := c.atBlank
      -- a line end becomes a blank only between two lines that begin with no blank
      let folds := !literal && first = ['\n'] && !leadingBlank && !blank
      let join := if folds then (if others.isEmpty then [' '] else []) else first
      let (line, c) := c.takeWhile fun _ => true
      let acc := line.reverse ++ others.reverse ++ join.reverse ++ acc
      let (first, c) := c.readBreak
      let (others, _, c) ← readBlankLines limit (some indent) 0 [] c
      readBlockLines literal indent limit fuel acc first others blank c
    else some (acc, first, others, c)

/-- Reads a block after its indicator; `parent` is the indentation around it. -/
def readBlock (literal : Bool) (parent : Int) (limit : Nat) (c : Cursor) :
    Option (List Char × Cursor) := do
  let chomp? (c : Cursor) : Option Chomp :=
    if c.looksAt '+' then some .keep else if c.looksAt '-' then some .strip else none
  let digit? (c : Cursor) : Option Nat :=
    c.peek.bind fun char => if char.isDigit then some (char.toNat - '0'.toNat) else none
  -- the two indicators come in any order
  let (chomp, increment, c) :=
    match chomp? c with
    | some chomp =>
      match digit? c.skip with
      | some n => (chomp, some n, c.skipN 2)
      | none => (chomp, none, c.skip)
    | none =>
      match digit? c with
      | some n =>
        match chomp? c.skip with
        | some chomp => (chomp, some n, c.skipN 2)
        | none => (.clip, some n, c.skip)
      | none => (.clip, none, c)
  if increment = some 0 then none
  let c := c.skipWhile isBlank
  let c := if c.looksAt '#' then c.skipWhile fun _ => true else c
  if !c.atBreakOrEnd then none
  let c := c.skipBreak
  -- an indentation that is given counts from that of the block around
  let given := increment.map fun n => (if parent ≥ 0 then parent.toNat else 0) + n
  let (others, deepest, c) ← readBlankLines limit given 0 [] c
  -- otherwise the lines in front say how far the block is indented
  let indent := given.getD (max (max deepest (parent + 1).toNat) 1)
  let (acc, first, others, c) ← readBlockLines literal indent limit limit [] [] others false c
  let tail := match chomp with
    | .strip => []
    | .clip => first
    | .keep => first ++ others
  some (acc.reverse ++ tail, c)

end ChartPipeline.Yaml
