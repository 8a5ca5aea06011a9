/-!
# Positions in a YAML text

A cursor is the rest of a text with the position it starts at.  Line ends come in six spellings;
reading one yields a line feed, except for the separators of lines and paragraphs, which stay.
-/

namespace ChartPipeline.Yaml

/-- The rest of a text, with its position. -/
structure Cursor where
  rest : List Char
  index : Nat := 0
  line : Nat := 0
  column : Nat := 0

/-- Whether a character ends a line. -/
def isBreak (c : Char) : Bool :=
  c = '\n' || c = '\r' || c.toNat = 0x85 || c.toNat = 0x2028 || c.toNat = 0x2029

/-- Whether a character is a blank or a tab. -/
def isBlank (c : Char) : Bool := c = ' ' || c = '\t'

/-- Whether a character may stand in a text at all. -/
def isAllowed (c : Char) : Bool :=
  let n := c.toNat
  n = 9 || n = 10 || n = 13 || (0x20 ≤ n && n ≤ 0x7E) || n = 0x85 ||
    (0xA0 ≤ n && n ≤ 0xFFFD) || 0x10000 ≤ n

/-- Whether a character may stand in a name. -/
def isNameChar (c : Char) : Bool := c.isAlphanum || c = '_' || c = '-'

namespace Cursor

/-- The character at the cursor. -/
def peek (c : Cursor) : Option Char := c.rest.head?

/-- The character `n` places further on. -/
def peekAt (c : Cursor) (n : Nat) : Option Char := c.rest[n]?

/-- Whether the character `n` places further on is the given one. -/
def looksAt (c : Cursor) (char : Char) (n : Nat := 0) : Bool := c.peekAt n = some char

/-- Whether the text ends at the cursor. -/
def atEnd (c : Cursor) : Bool := c.rest.isEmpty

/-- Whether there is a line end at the cursor. -/
def atBreak (c : Cursor) : Bool := c.peek.any isBreak

/-- Whether there is a line end or the end of the text at the cursor. -/
def atBreakOrEnd (c : Cursor) : Bool := c.atEnd || c.atBreak

/-- Whether there is a blank or a tab at the cursor. -/
def atBlank (c : Cursor) : Bool := c.peek.any isBlank

/-- Whether there is a blank, a line end or the end of the text `n` places further on. -/
def atGap (c : Cursor) (n : Nat := 0) : Bool :=
  match c.peekAt n with
  | none => true
  | some char => isBlank char || isBreak char

/-- Goes past one character of a line. -/
def skip (c : Cursor) : Cursor :=
  { c with rest := c.rest.tail, index := c.index + 1, column := c.column + 1 }

/-- Goes past `n` characters of a line. -/
def skipN (c : Cursor) : Nat → Cursor
  | 0 => c
  | n + 1 => c.skip.skipN n

/-- Goes past a line end and returns what it stands for. -/
def readBreak (c : Cursor) : List Char × Cursor :=
  match c.rest with
  | '\r' :: '\n' :: rest => (['\n'], ⟨rest, c.index + 2, c.line + 1, 0⟩)
  | char :: rest =>
    if isBreak char then
      let keep := char.toNat = 0x2028 || char.toNat = 0x2029
      ([if keep then char else '\n'], ⟨rest, c.index + 1, c.line + 1, 0⟩)
    else ([], c)
  | [] => ([], c)

/-- Goes past a line end. -/
def skipBreak (c : Cursor) : Cursor := c.readBreak.2

/-- Goes past the characters of the line that satisfy `p` and returns them. -/
def takeWhile (c : Cursor) (p : Char → Bool) : List Char × Cursor :=
  let taken := c.rest.takeWhile fun char => !isBreak char && p char
  (taken, { c with
    rest := c.rest.drop taken.length
    index := c.index + taken.length
    column := c.column + taken.length })

/-- Goes past the characters of the line that satisfy `p`. -/
def skipWhile (c : Cursor) (p : Char → Bool) : Cursor := (c.takeWhile p).2

/-- Whether a line starts at the cursor with the given three characters as a word. -/
def atMark (c : Cursor) (char : Char) : Bool :=
  c.column = 0 && c.looksAt char && c.looksAt char 1 && c.looksAt char 2 && c.atGap 3

/-- Whether a line starts at the cursor with a mark between documents. -/
def atDocumentMark (c : Cursor) : Bool := c.atMark '-' || c.atMark '.'

end Cursor

end ChartPipeline.Yaml
