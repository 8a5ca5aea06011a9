import ChartPipeline.Yaml.ScalarText

/-!
# YAML tokens

The tokens of a YAML text.  Indentation becomes tokens that open and close blocks.  Whether a
scalar is a key shows only at the colon behind it, so the places where a key may have begun are
kept, one for each level of flow collections, and the tokens of a key are put in afterwards.
-/

namespace ChartPipeline.Yaml

/-- A token. -/
inductive Token where
  | versionDirective (major minor : Nat)
  | tagDirective (handle start : String)
  | documentStart
  | documentEnd
  | blockSequenceStart
  | blockMappingStart
  | blockEnd
  | flowSequenceStart
  | flowSequenceEnd
  | flowMappingStart
  | flowMappingEnd
  | blockEntry
  | flowEntry
  | key
  | value
  | alias (name : String)
  | anchor (name : String)
  /-- A tag: its handle and the rest. -/
  | tag (handle suffix : String)
  | scalar (plain : Bool) (text : String)
deriving DecidableEq, Repr, Inhabited

/-- A place where a key may have begun. -/
structure KeyPlace where
  possible : Bool := false
  /-- The key has to come, because the line stands where the keys of its block do. -/
  required : Bool := false
  /-- The number of tokens before the key. -/
  token : Nat := 0
  index : Nat := 0
  line : Nat := 0
  column : Nat := 0

/-- The state of reading tokens. -/
structure Scan where
  cursor : Cursor
  tokens : Array Token := #[]
  /-- The indentation of the block, and of those around it. -/
  indent : Int := -1
  indents : List Int := []
  /-- Whether a key may begin here. -/
  keyAllowed : Bool := true
  /-- The places of keys, that of the innermost flow collection first. -/
  keys : List KeyPlace := [{}]
  /-- More than the number of steps that any loop takes. -/
  limit : Nat

namespace Scan

/-- Whether the cursor is inside a flow collection. -/
def inFlow (s : Scan) : Bool := s.keys.length > 1

/-- Appends a token. -/
def push (s : Scan) (t : Token) : Scan := { s with tokens := s.tokens.push t }

/-- Goes past `n` characters. -/
def skip (s : Scan) (n : Nat := 1) : Scan := { s with cursor := s.cursor.skipN n }

/-- Puts a token before others that are there already. -/
def insertAt (s : Scan) (i : Nat) (t : Token) : Scan :=
  { s with tokens := (s.tokens.extract 0 i).push t ++ s.tokens.extract i s.tokens.size }

/-- Gives up the place of a key at this level; a required one must not be given up. -/
def dropKey (s : Scan) : Option Scan :=
  match s.keys with
  | k :: rest =>
    if k.possible && k.required then none
    else some { s with keys := { k with possible := false } :: rest }
  | [] => some s

/-- Gives up the places whose line has ended or that lie too far back. -/
def dropStaleKeys (s : Scan) : Option Scan := do
  let keys ← s.keys.mapM fun k =>
    -- a key stands on one line, at most 1024 characters before its colon
    if k.possible && (k.line < s.cursor.line || k.index + 1024 < s.cursor.index) then
      if k.required then none else some { k with possible := false }
    else some k
  pure { s with keys }

/-- Notes that a key may begin here. -/
def saveKey (s : Scan) : Option Scan :=
  if !s.keyAllowed then some s
  else do
    let s ← s.dropKey
    let c := s.cursor
    pure { s with
      keys := {
        possible := true
        required := !s.inFlow && s.indent = (c.column : Int)
        token := s.tokens.size
        index := c.index, line := c.line, column := c.column } :: s.keys.tail }

/-- Opens a block at a column, if it is deeper than the one before; the token goes to place `at?`
or to the end. -/
def openBlock (s : Scan) (column : Nat) (at? : Option Nat) (t : Token) : Scan :=
  if s.inFlow || !(s.indent < (column : Int)) then s
  else
    let s := { s with indents := s.indent :: s.indents, indent := column }
    match at? with
    | some i => s.insertAt i t
    | none => s.push t

/-- Closes blocks that are deeper than a column. -/
def closeBlocks (s : Scan) (column : Int) : Scan :=
  if s.inFlow then s else go s.indents s
where
  /-- Closes blocks, given those around. -/
  go : List Int → Scan → Scan
    | outer :: rest, s =>
      if s.indent > column then
        go rest { s.push .blockEnd with indent := outer, indents := rest }
      else s
    | [], s => s

/-- Goes to the next token, past blanks, comments and line ends. -/
def skipToToken : Nat → Scan → Scan
  | 0, s => s
  | fuel + 1, s =>
    let c := s.cursor
    -- a byte order mark may stand at the front of the text
    let c := if c.index = 0 && c.peek.any (·.toNat = 0xFEFF) then c.skip else c
    -- a tab does not indent, so where a key may begin it is not a blank
    let c := c.skipWhile fun char =>
      char = ' ' || ((s.inFlow || !s.keyAllowed) && char = '\t')
    let c := if c.looksAt '#' then c.skipWhile fun _ => true else c
    if c.atBreak then
      skipToToken fuel
        { s with cursor := c.skipBreak, keyAllowed := if s.inFlow then s.keyAllowed else true }
    else { s with cursor := c }

/-- A number of a version, of at most nine digits. -/
def readVersionNumber (c : Cursor) : Option (Nat × Cursor) :=
  let (ds, c) := c.takeWhile Char.isDigit
  if ds.isEmpty || ds.length > 9 then none
  else some (ds.foldl (fun n d => n * 10 + (d.toNat - '0'.toNat)) 0, c)

/-- Whether a character may stand in a tag. -/
def isTagChar (verbatim : Bool) (c : Char) : Bool :=
  isNameChar c || ";/?:@&=+$.!~*'()%".toList.contains c ||
    (verbatim && [',', '[', ']'].contains c)

/-- Decodes the bytes given by their numbers in a tag. -/
def decodeTag : Nat → List UInt8 → List Char → Option (List UInt8)
  | 0, _, _ => none
  | _, acc, [] => some acc
  | fuel + 1, acc, '%' :: a :: b :: rest => do
    let x ← NumberText.hexDigit? a
    let y ← NumberText.hexDigit? b
    decodeTag fuel (acc ++ [UInt8.ofNat (x * 16 + y)]) rest
  | _, _, '%' :: _ => none
  | fuel + 1, acc, c :: rest => decodeTag fuel (acc ++ c.toString.toUTF8.toList) rest

/-- The text of a tag, which may begin with characters read before. -/
def readTagText (verbatim : Bool) (before : List Char) (c : Cursor) : Option (String × Cursor) := do
  let (cs, c) := c.takeWhile (isTagChar verbatim)
  let bytes ← decodeTag (cs.length + before.length + 1) [] (before ++ cs)
  let text ← String.fromUTF8? (ByteArray.mk bytes.toArray)
  pure (text, c)

/-- A tag's handle: names between exclamation marks, or a mark and the beginning of a name. -/
def readTagHandle (c : Cursor) : Option (List Char × Cursor) := do
  if !c.looksAt '!' then none
  let (name, c) := c.skip.takeWhile isNameChar
  if c.looksAt '!' then some ('!' :: name ++ ['!'], c.skip) else some ('!' :: name, c)

/-- A directive, after its line has begun with a percent sign. -/
def readDirective (c : Cursor) : Option (Token × Cursor) := do
  let (name, c) := c.skip.takeWhile isNameChar
  if name.isEmpty || !c.atGap then none
  let c := c.skipWhile isBlank
  let (token, c) ←
    if name = "YAML".toList then do
      let (major, c) ← readVersionNumber c
      if !c.looksAt '.' then none
      let (minor, c) ← readVersionNumber c.skip
      some (Token.versionDirective major minor, c)
    else if name = "TAG".toList then do
      let (handle, c) ← readTagHandle c
      if handle.length > 1 && handle.getLast? ≠ some '!' then none
      if !c.atBlank then none
      let (start, c) ← readTagText true [] (c.skipWhile isBlank)
      if start.isEmpty || !c.atGap then none
      some (Token.tagDirective (String.ofList handle) start, c)
    else none
  -- only a comment may follow on the line
  let c := c.skipWhile isBlank
  let c := if c.looksAt '#' then c.skipWhile fun _ => true else c
  if !c.atBreakOrEnd then none
  some (token, c.skipBreak)

/-- A tag. -/
def readTag (flow : Bool) (c : Cursor) : Option (Token × Cursor) := do
  let (token, c) ←
    if c.looksAt '<' 1 then do
      -- a tag in angle brackets counts as it is written
      let (text, c) ← readTagText true [] (c.skipN 2)
      if text.isEmpty || !c.looksAt '>' then none
      some (Token.tag "" text, c.skip)
    else do
      let (handle, c) ← readTagHandle c
      if handle.length > 1 && handle.getLast? = some '!' then
        let (suffix, c) ← readTagText false [] c
        if suffix.isEmpty then none
        some (Token.tag (String.ofList handle) suffix, c)
      else
        -- what was read is no handle but the beginning of a name
        let (suffix, c) ← readTagText false handle.tail c
        some (if suffix.isEmpty then Token.tag "" "!" else Token.tag "!" suffix, c)
  if c.atGap || (flow && c.looksAt ',') then some (token, c) else none

/-- The name of an anchor or an alias. -/
def readAnchorName (c : Cursor) : Option (String × Cursor) := do
  let (name, c) := c.skip.takeWhile isNameChar
  let ends := c.atGap || c.peek.any fun char => "?:,]\x7d%@`".toList.contains char
  if name.isEmpty || !ends then none
  some (String.ofList name, c)

/-- The mark that begins a document or ends it. -/
def fetchDocumentMark (s : Scan) (t : Token) : Option Scan := do
  let s ← (s.closeBlocks (-1)).dropKey
  pure { (s.push t).skip 3 with keyAllowed := false }

/-- A bracket that opens a flow collection. -/
def fetchFlowStart (s : Scan) (t : Token) : Option Scan := do
  let s ← s.saveKey
  pure { (s.push t).skip with keys := {} :: s.keys, keyAllowed := true }

/-- A bracket that closes a flow collection. -/
def fetchFlowEnd (s : Scan) (t : Token) : Option Scan := do
  let s ← s.dropKey
  let keys := if s.inFlow then s.keys.tail else s.keys
  pure { (s.push t).skip with keys, keyAllowed := false }

/-- A comma between the parts of a flow collection. -/
def fetchFlowEntry (s : Scan) : Option Scan := do
  let s ← s.dropKey
  pure { (s.push .flowEntry).skip with keyAllowed := true }

/-- The dash before an item of a block sequence. -/
def fetchBlockEntry (s : Scan) : Option Scan := do
  if !s.inFlow && !s.keyAllowed then none
  let s ← (s.openBlock s.cursor.column none .blockSequenceStart).dropKey
  pure { (s.push .blockEntry).skip with keyAllowed := true }

/-- The question mark before a key. -/
def fetchKey (s : Scan) : Option Scan := do
  if !s.inFlow && !s.keyAllowed then none
  let s ← (s.openBlock s.cursor.column none .blockMappingStart).dropKey
  pure { (s.push .key).skip with keyAllowed := !s.inFlow }

/-- The colon before a value; a key that may have begun before it is one. -/
def fetchValue (s : Scan) : Option Scan :=
  match s.keys with
  | k :: rest =>
    if k.possible then
      let s := { s with keys := { k with possible := false } :: rest }
      -- only now it shows that this was a key, so its tokens go in front of it
      let s := (s.insertAt k.token .key).openBlock k.column (some k.token) .blockMappingStart
      some { (s.push .value).skip with keyAllowed := false }
    else do
      -- there is no key in front of the colon
      if !s.inFlow && !s.keyAllowed then none
      let s := s.openBlock s.cursor.column none .blockMappingStart
      pure { (s.push .value).skip with keyAllowed := !s.inFlow }
  | [] => none

/-- An anchor, an alias, a tag, or a quoted scalar: something that may begin a key. -/
def fetchSimple (s : Scan) (read : Cursor → Option (Token × Cursor)) : Option Scan := do
  let s ← s.saveKey
  let (t, cursor) ← read s.cursor
  pure { s.push t with cursor, keyAllowed := false }

/-- A block scalar. -/
def fetchBlockScalar (s : Scan) (literal : Bool) : Option Scan := do
  let s ← s.dropKey
  let (text, cursor) ← readBlock literal s.indent s.limit s.cursor.skip
  pure { s.push (.scalar false (String.ofList text)) with cursor, keyAllowed := true }

/-- A plain scalar. -/
def fetchPlain (s : Scan) : Option Scan := do
  let s ← s.saveKey
  let (acc, broken, cursor) ← readPlain s.inFlow (s.indent + 1) s.limit s.limit [] {} s.cursor
  pure { s.push (.scalar true (String.ofList acc.reverse)) with cursor, keyAllowed := broken }

/-- A quoted scalar. -/
def readQuotedToken (single : Bool) (limit : Nat) (c : Cursor) : Option (Token × Cursor) := do
  let (acc, c) ← readQuoted single limit limit [] c.skip
  pure (.scalar false (String.ofList acc.reverse), c)

/-- Whether a plain scalar may begin at the cursor. -/
def startsPlain (s : Scan) (char : Char) : Bool :=
  let c := s.cursor
  if char = '-' then !(c.peekAt 1).any isBlank
  else if char = '?' || char = ':' then !s.inFlow && !c.atGap 1
  else !("#&*!|>'\"%@`".toList.contains char || isFlowIndicator char)

/-- Reads the next token, at the cursor. -/
def fetch (s : Scan) (char : Char) : Option Scan :=
  let c := s.cursor
  if c.column = 0 && char = '%' then do
    let s ← (s.closeBlocks (-1)).dropKey
    let (t, cursor) ← readDirective c
    pure { s.push t with cursor, keyAllowed := false }
  else if c.atMark '-' then s.fetchDocumentMark .documentStart
  else if c.atMark '.' then s.fetchDocumentMark .documentEnd
  else match char with
    | '[' => s.fetchFlowStart .flowSequenceStart
    | '{' => s.fetchFlowStart .flowMappingStart
    | ']' => s.fetchFlowEnd .flowSequenceEnd
    | '}' => s.fetchFlowEnd .flowMappingEnd
    | ',' => s.fetchFlowEntry
    | _ =>
      -- outside of flow collections these signs count only where a gap follows
      if char = '-' && c.atGap 1 then s.fetchBlockEntry
      else if char = '?' && (s.inFlow || c.atGap 1) then s.fetchKey
      else if char = ':' && (s.inFlow || c.atGap 1) then s.fetchValue
      else if char = '*' then
        s.fetchSimple fun c => (readAnchorName c).map fun (name, c) => (.alias name, c)
      else if char = '&' then
        s.fetchSimple fun c => (readAnchorName c).map fun (name, c) => (.anchor name, c)
      else if char = '!' then s.fetchSimple (readTag s.inFlow)
      else if char = '|' && !s.inFlow then s.fetchBlockScalar true
      else if char = '>' && !s.inFlow then s.fetchBlockScalar false
      else if char = '\'' then s.fetchSimple (readQuotedToken true s.limit)
      else if char = '"' then s.fetchSimple (readQuotedToken false s.limit)
      else if s.startsPlain char then s.fetchPlain
      else none

/-- Reads tokens to the end of the text. -/
def run : Nat → Scan → Option (Array Token)
  | 0, _ => none
  | fuel + 1, s => do
    let s ← (s.skipToToken s.limit).dropStaleKeys
    let s := s.closeBlocks s.cursor.column
    match s.cursor.peek with
    | some char => run fuel (← s.fetch char)
    | none =>
      -- at its end the text closes all blocks
      let s ← (s.closeBlocks (-1)).dropKey
      pure s.tokens

end Scan

/-- The tokens of a text. -/
def tokens? (text : String) : Option (List Token) :=
  let cs := text.toList
  if cs.all isAllowed then
    (Scan.run (cs.length + 2) { cursor := ⟨cs, 0, 0, 0⟩, limit := cs.length + 2 }).map
      Array.toList
  else none

end ChartPipeline.Yaml
