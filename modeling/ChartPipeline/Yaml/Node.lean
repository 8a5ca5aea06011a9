import ChartPipeline.Yaml.Token

/-!
# YAML nodes

The nodes that the tokens of a text stand for: scalars, sequences, mappings, and references to
nodes with an anchor.  A node that is missing where one may stand is an empty plain scalar.
-/

namespace ChartPipeline.Yaml

/-- A node.  References name the number of an anchor. -/
inductive Node where
  | scalar (tag : Option String) (plain : Bool) (text : String)
  | seq (tag : Option String) (items : List Node)
  | map (tag : Option String) (entries : List (Node × Node))
  | reference (anchor : Nat)
deriving Inhabited

namespace Node

/-- The node in place of a missing one. -/
def missing : Node := scalar none true ""

mutual

/-- How many parts a node is written with: one for a scalar or a reference, two for the ends of a
sequence or a mapping besides what is inside. -/
def parts : Node → Nat
  | scalar .. | reference _ => 1
  | seq _ items => partsOfItems items + 2
  | map _ entries => partsOfEntries entries + 2

/-- The parts of several nodes. -/
def partsOfItems : List Node → Nat
  | [] => 0
  | node :: rest => parts node + partsOfItems rest

/-- The parts of several entries. -/
def partsOfEntries : List (Node × Node) → Nat
  | [] => 0
  | (k, v) :: rest => parts k + parts v + partsOfEntries rest

end

end Node

/-- The anchors of a document.  An anchor gets as its number the number of names that are known
before it, so a name that is given a second time makes two anchors share a number; a reference then
stands for the one that begins last. -/
structure Anchors where
  /-- The numbers of names, the latest first. -/
  names : List (String × Nat) := []
  /-- How many names there are. -/
  count : Nat := 0
  /-- Where anchors begin: their numbers with the serial numbers of their nodes, the latest
  first. -/
  starts : List (Nat × Nat) := []
  /-- The nodes that are complete, by serial number. -/
  nodes : List (Nat × Node) := []
deriving Inhabited

namespace Anchors

/-- The number of a name. -/
def number? (a : Anchors) (name : String) : Option Nat :=
  (a.names.find? (·.1 = name)).map Prod.snd

/-- Begins a node with an anchor, and returns its serial number. -/
def start (a : Anchors) (name : String) : Nat × Anchors :=
  let serial := a.starts.length
  let number := a.count
  let known := (a.number? name).isSome
  (serial, { a with
    names := (name, number) :: a.names
    count := if known then a.count else a.count + 1
    starts := (number, serial) :: a.starts })

/-- Completes a node with an anchor. -/
def complete (a : Anchors) (serial : Nat) (node : Node) : Anchors :=
  { a with nodes := (serial, node) :: a.nodes }

/-- The node that a reference stands for. -/
def node? (a : Anchors) (number : Nat) : Option Node := do
  let (_, serial) ← a.starts.find? (·.1 = number)
  let (_, node) ← a.nodes.find? (·.1 = serial)
  pure node

end Anchors

/-- The state of reading nodes. -/
structure Composition where
  tokens : List Token
  /-- What the handles of tags stand for. -/
  handles : List (String × String) := []
  anchors : Anchors := {}

/-- A step of reading nodes. -/
abbrev Compose (α : Type) := StateT Composition Option α

namespace Compose

/-- The next token. -/
def peek : Compose (Option Token) := return (← get).tokens.head?

/-- Goes past the next token. -/
def skip : Compose Unit := modify fun st => { st with tokens := st.tokens.tail }

/-- Goes past the next token if it is the given one, and says whether it was. -/
def eat (t : Token) : Compose Bool := do
  if (← peek) = some t then
    skip
    pure true
  else pure false

/-- Goes past the next token, which has to be the given one. -/
def expect (t : Token) : Compose Unit := do
  if !(← eat t) then failure

/-- The text of a tag. -/
def resolveTag (handle suffix : String) : Compose String := do
  if handle.isEmpty then pure suffix
  else match (← get).handles.find? (·.1 = handle) with
    | some (_, start) => pure (start ++ suffix)
    | none => failure

/-- Reads an anchor if there is one. -/
def anchor? : Compose (Option String) := do
  match ← peek with
  | some (.anchor name) => skip *> pure (some name)
  | _ => pure none

/-- Reads a tag if there is one. -/
def tag? : Compose (Option String) := do
  match ← peek with
  | some (.tag handle suffix) => skip *> some <$> resolveTag handle suffix
  | _ => pure none

/-- Reads the anchor and the tag of a node, in any order. -/
def properties : Compose (Option String × Option String) := do
  match ← anchor? with
  | some name => return (some name, ← tag?)
  | none =>
    let tag ← tag?
    return (← anchor?, tag)

/-- The tag of a scalar with content: the one that says nothing does not count. -/
def scalarTag (tag : Option String) : Option String := if tag = some "!" then none else tag

/-- Reads a node, and notes it under its anchor. -/
def anchored (name : Option String) (read : Compose Node) : Compose Node := do
  match name with
  | none => read
  | some name =>
    let (serial, anchors) := (← get).anchors.start name
    modify fun st => { st with anchors }
    let node ← read
    modify fun st => { st with anchors := st.anchors.complete serial node }
    pure node

mutual

/-- Reads a node.  Block collections may begin here only if `block` is set, and block sequences
that are not indented only if `indentless` is. -/
def node (block indentless : Bool) : Nat → Compose Node
  | 0 => failure
  | fuel + 1 => do
    match ← peek with
    | some (.alias name) =>
      skip
      let number ← StateT.lift ((← get).anchors.number? name)
      pure (.reference number)
    | _ =>
      let (name, tag) ← properties
      anchored name (content block indentless (name.isSome || tag.isSome) tag fuel)

/-- Reads what follows the anchor and the tag of a node; without those, something has to. -/
def content (block indentless optional : Bool) (tag : Option String) : Nat → Compose Node
  | 0 => failure
  | fuel + 1 => do
    match ← peek, block with
    | some (.scalar plain text), _ =>
      skip
      pure (.scalar (scalarTag tag) plain text)
    | some .flowSequenceStart, _ => skip *> .seq tag <$> flowItems true fuel
    | some .flowMappingStart, _ => skip *> .map tag <$> flowEntries true fuel
    | some .blockSequenceStart, true => skip *> .seq tag <$> blockItems fuel
    | some .blockMappingStart, true => skip *> .map tag <$> blockEntries fuel
    | some .blockEntry, _ =>
      -- the dashes of the sequence stand where the keys of its mapping do
      if indentless then .seq tag <$> indentlessItems fuel
      else if optional then pure (.scalar tag true "")
      else failure
    | _, _ => if optional then pure (.scalar tag true "") else failure

/-- Reads a node, which is missing if one of the given tokens comes next. -/
def nodeUnless (ends : List Token) (block indentless : Bool) : Nat → Compose Node
  | 0 => failure
  | fuel + 1 => do
    match ← peek with
    | none => node block indentless fuel
    | some t => if ends.contains t then pure .missing else node block indentless fuel

/-- Reads the items of a block sequence. -/
def blockItems : Nat → Compose (List Node)
  | 0 => failure
  | fuel + 1 => do
    if ← eat .blockEntry then
      let item ← nodeUnless [.blockEntry, .blockEnd] true false fuel
      return item :: (← blockItems fuel)
    else
      expect .blockEnd
      pure []

/-- Reads the items of a sequence that stands where the keys of its mapping do. -/
def indentlessItems : Nat → Compose (List Node)
  | 0 => failure
  | fuel + 1 => do
    if ← eat .blockEntry then
      let item ← nodeUnless [.blockEntry, .key, .value, .blockEnd] true false fuel
      return item :: (← indentlessItems fuel)
    else pure []

/-- Reads the entries of a block mapping. -/
def blockEntries : Nat → Compose (List (Node × Node))
  | 0 => failure
  | fuel + 1 => do
    if ← eat .key then
      let key ← nodeUnless [.key, .value, .blockEnd] true true fuel
      let value ←
        if ← eat .value then nodeUnless [.key, .value, .blockEnd] true true fuel
        else pure .missing
      return (key, value) :: (← blockEntries fuel)
    else
      expect .blockEnd
      pure []

/-- Reads the items of a flow sequence; an item may be a single entry. -/
def flowItems (first : Bool) : Nat → Compose (List Node)
  | 0 => failure
  | fuel + 1 => do
    if ← eat .flowSequenceEnd then pure []
    else
      if !first then expect .flowEntry
      -- a comma may stand behind the last item
      if ← eat .flowSequenceEnd then pure []
      else if ← eat .key then
        let item ← singleEntry fuel
        return item :: (← flowItems false fuel)
      else
        let item ← node false false fuel
        return item :: (← flowItems false fuel)

/-- Reads the single entry that is an item of a flow sequence.  Where the key is missing, the
token that shows it is skipped. -/
def singleEntry : Nat → Compose Node
  | 0 => failure
  | fuel + 1 => do
    let ends : List Token := [.flowEntry, .flowSequenceEnd]
    let key ←
      if (← peek).any (.value :: ends).contains then skip *> pure .missing
      else node false false fuel
    let value ←
      if ← eat .value then nodeUnless ends false false fuel else pure .missing
    pure (.map none [(key, value)])

/-- Reads the entries of a flow mapping. -/
def flowEntries (first : Bool) : Nat → Compose (List (Node × Node))
  | 0 => failure
  | fuel + 1 => do
    let ends : List Token := [.flowEntry, .flowMappingEnd]
    if ← eat .flowMappingEnd then pure []
    else
      if !first then expect .flowEntry
      if ← eat .flowMappingEnd then pure []
      else if ← eat .key then
        let key ← nodeUnless (.value :: ends) false false fuel
        let value ←
          if ← eat .value then nodeUnless ends false false fuel else pure .missing
        return (key, value) :: (← flowEntries false fuel)
      else
        let key ← node false false fuel
        -- without a key sign the entry has no value
        return (key, .missing) :: (← flowEntries false fuel)

end

end Compose

end ChartPipeline.Yaml
