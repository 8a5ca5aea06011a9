import ChartPipeline.Yaml.Node
import ChartPipeline.Yaml.Scalar

/-!
# YAML documents

The value of a text that holds one YAML document.  References are replaced by what they stand for;
how deep values nest and how many references are followed is limited, so that a text can neither
refer to itself nor grow without bound.
-/

namespace ChartPipeline.Yaml

/-! ### Equal values -/

/-- Whether two floats are the same key. -/
def sameFloat (x y : Float) : Bool := x == y || (x.isNaN && y.isNaN)

mutual

/-- Whether two values are the same key; the order of entries does not matter. -/
def same : Value → Value → Bool
  | .null, .null => true
  | .bool a, .bool b => a = b
  | .int a, .int b => a = b
  | .float a, .float b => sameFloat a b
  | .str a, .str b => a = b
  | .list as, .list bs => sameItems as bs
  | .map as, .map bs => as.length = bs.length && sameEntries as bs
  | .tagged t a, .tagged u b => t = u && same a b
  | _, _ => false

/-- Whether two lists hold the same values. -/
def sameItems : List Value → List Value → Bool
  | [], [] => true
  | a :: as, b :: bs => same a b && sameItems as bs
  | _, _ => false

/-- Whether all entries are among others. -/
def sameEntries : List (Value × Value) → List (Value × Value) → Bool
  | [], _ => true
  | (k, v) :: rest, bs => bs.any (fun e => same k e.1 && same v e.2) && sameEntries rest bs

end

/-! ### Values of nodes -/

/-- How deep collections may nest. -/
def maxNesting : Nat := 128

/-- How values are made of nodes. -/
structure Schema where
  /-- The value of a scalar: its tag, whether it is plain, and its text. -/
  scalar : Option String → Bool → String → Option Value
  /-- The value of a collection with a tag. -/
  collection : Option String → Value → Option Value

/-- What is needed to find the values of nodes. -/
structure Scope where
  schema : Schema
  anchors : Anchors
  /-- How many references may be followed. -/
  maxReferences : Nat

/-- A step of finding values; the number of references followed is its state. -/
abbrev Evaluate (α : Type) := StateT Nat Option α

namespace Scope

/-- Follows a reference. -/
def follow (scope : Scope) (anchor : Nat) : Evaluate Node := do
  let count ← get
  if count + 1 > scope.maxReferences then failure
  set (count + 1)
  StateT.lift (scope.anchors.node? anchor)

mutual

/-- The value of a node; collections may nest `depth` deep in it. -/
def value (scope : Scope) (depth : Nat) : Nat → Node → Evaluate Value
  | 0, _ => failure
  | fuel + 1, node =>
    match node with
    | .reference anchor => do value scope depth fuel (← scope.follow anchor)
    | .scalar tag plain text => StateT.lift (scope.schema.scalar tag plain text)
    | .seq tag nodes =>
      match depth with
      | 0 => failure
      | depth + 1 => do
        let vs ← items scope depth fuel nodes
        StateT.lift (scope.schema.collection tag (.list vs))
    | .map tag nodes =>
      match depth with
      | 0 => failure
      | depth + 1 => do
        let es ← entries scope depth fuel [] nodes
        StateT.lift (scope.schema.collection tag (.map es))

/-- The values of nodes. -/
def items (scope : Scope) (depth : Nat) : Nat → List Node → Evaluate (List Value)
  | 0, _ => failure
  | _, [] => pure []
  | fuel + 1, node :: rest => do
    let v ← value scope depth fuel node
    return v :: (← items scope depth fuel rest)

/-- The values of entries, after those that are there; no key may occur twice. -/
def entries (scope : Scope) (depth : Nat) : Nat → List (Value × Value) → List (Node × Node) →
    Evaluate (List (Value × Value))
  | 0, _, _ => failure
  | _, done, [] => pure done.reverse
  | fuel + 1, done, (keyNode, valueNode) :: rest => do
    let key ← value scope depth fuel keyNode
    if done.any fun e => same key e.1 then failure
    let v ← value scope depth fuel valueNode
    entries scope depth fuel ((key, v) :: done) rest

end

end Scope

/-! ### Documents -/

namespace Compose

/-- Whether a token is a directive. -/
def isDirective : Token → Bool
  | .versionDirective .. | .tagDirective .. => true
  | _ => false

/-- Reads the directives of a document; one version and every handle may be given once. -/
def directives (version : Bool) : Nat → Compose Unit
  | 0 => failure
  | fuel + 1 => do
    match ← peek with
    | some (.versionDirective major minor) =>
      if version || major ≠ 1 || (minor ≠ 1 && minor ≠ 2) then failure
      skip
      directives true fuel
    | some (.tagDirective handle start) =>
      let st ← get
      if st.handles.any (·.1 = handle) then failure
      set { st with handles := (handle, start) :: st.handles }
      skip
      directives version fuel
    | _ => pure ()

/-- Adds the handles that every document has. -/
def defaultHandles : Compose Unit :=
  modify fun st => { st with
    handles := st.handles ++ [("!", "!"), ("!!", "tag:yaml.org,2002:")] }

/-- Goes past the marks that end a document. -/
def documentEnds : Nat → Compose Unit
  | 0 => failure
  | fuel + 1 => do if ← eat .documentEnd then documentEnds fuel

/-- Reads the only document of a text: after it, there may be nothing but the marks that end
it. -/
def document (fuel : Nat) : Compose Node := do
  let explicit := (← peek).any fun t => isDirective t || t = .documentStart
  let root ←
    if explicit then do
      directives false fuel
      defaultHandles
      expect .documentStart
      match ← peek with
      | some t =>
        -- a document that is begun may be empty
        if isDirective t || t = .documentStart || t = .documentEnd then pure .missing
        else node true false fuel
      | none => pure .missing
    else do
      defaultHandles
      node true false fuel
  documentEnds fuel
  if (← peek).isSome then failure
  pure root

end Compose

/-- The root of a text with one document, with its anchors; the inner `none` stands for a text
without any document. -/
def root? (text : String) : Option (Option (Node × Anchors)) := do
  let tokens ← tokens? text
  if tokens.isEmpty then pure none
  else
    let (root, st) ← (Compose.document (4 * tokens.length + 4)).run { tokens }
    pure (some (root, st.anchors))

/-- The value of a node.  A hundred references may be followed for every part of it, and that
bounds how often any node is looked at. -/
def nodeValue (schema : Schema) (anchors : Anchors) (root : Node) : Option Value := do
  let scope : Scope := { schema, anchors, maxReferences := 100 * root.parts }
  let (v, _) ← (scope.value maxNesting ((scope.maxReferences + 2) * (root.parts + 2)) root).run 0
  pure v

/-- A tag of the document's own, without its mark. -/
def ownTag? (tag : Option String) : Option String :=
  tag.bind fun t => if t.startsWith "!" then some (t.drop 1).toString else none

/-- Puts a value under a tag of the document's own; that tag must have a name. -/
def underTag (tag : Option String) (v : Value) : Option Value :=
  match ownTag? tag with
  | none => some v
  -- the mark alone names no tag
  | some name => if name.isEmpty then none else some (.tagged name v)

/-- The values of documents: tags of the document's own stay with the values. -/
def documentSchema : Schema where
  scalar tag plain text :=
    if (ownTag? tag).isSome then (scalarValue? none plain text).bind (underTag tag)
    else scalarValue? tag plain text
  collection := underTag

/-- The value of a text with one document; an empty text stands for nothing. -/
def read (text : String) : Option Value := do
  match ← root? text with
  | none => pure .null
  | some (root, anchors) => nodeValue documentSchema anchors root

end ChartPipeline.Yaml
