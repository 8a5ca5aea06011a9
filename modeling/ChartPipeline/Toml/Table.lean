import ChartPipeline.Value.Basic

/-!
# Tables of a TOML text

A table may be declared once: by a header, by entries whose keys have dots, or as a value.  A
`Node` keeps how a table came about, so that a second declaration can be refused.
-/

namespace ChartPipeline.Toml

/-- How a table came about. -/
inductive Origin where
  /-- By its header, or as the whole text. -/
  | declared
  /-- By the header of a table inside. -/
  | implied
  /-- By a key with dots. -/
  | dotted
deriving DecidableEq, Repr

/-- A value, or a table in the making. -/
inductive Node where
  | value (v : Value)
  | table (origin : Origin) (entries : List (String × Node))
  /-- Tables in a list, the last one in front. -/
  | tables (reversed : List (List (String × Node)))
deriving Inhabited

/-- The entries of a table in the making. -/
abbrev Entries := List (String × Node)

mutual

/-- The value that a node stands for. -/
def Node.toValue : Node → Value
  | .value v => v
  | .table _ es => .map (entriesToValues es)
  | .tables reversed => .list (tablesToValues reversed).reverse

/-- The entries of a map. -/
def entriesToValues : List (String × Node) → List (Value × Value)
  | [] => []
  | (name, node) :: rest => (.str name, node.toValue) :: entriesToValues rest

/-- The values of tables in a list. -/
def tablesToValues : List (List (String × Node)) → List Value
  | [] => []
  | es :: rest => .map (entriesToValues es) :: tablesToValues rest

end

/-- The node of a name. -/
def node? (name : String) (es : Entries) : Option Node := (es.find? (·.1 = name)).map Prod.snd

/-- Puts a node under a name. -/
def putNode (name : String) (node : Node) : Entries → Entries
  | [] => [(name, node)]
  | (n, old) :: rest => if n = name then (n, node) :: rest else (n, old) :: putNode name node rest

/-- Changes the entries of the table at a path, given how that table came about.  Tables that are
missing are added.  Keys with dots do not go into tables that were declared. -/
def descend (byDots : Bool) (f : Origin → Entries → Option Entries) :
    List String → Origin → Entries → Option Entries
  | [], origin, es => f origin es
  | name :: rest, _, es =>
    match node? name es with
    | none => do
      let origin := if byDots then .dotted else .implied
      let inner ← descend byDots f rest origin []
      pure (putNode name (.table origin inner) es)
    | some (.table origin inner) => do
      if byDots && origin = .declared then none
      let inner ← descend byDots f rest origin inner
      pure (putNode name (.table origin inner) es)
    -- of the tables of a list, the latest one is open
    | some (.tables (last :: others)) => do
      let last ← descend byDots f rest .declared last
      pure (putNode name (.tables (last :: others)) es)
    | some _ => none

/-- Adds an entry below a table; with dots in its key, only to tables that came about by dots. -/
def addEntry (key : List String) (v : Value) (es : Entries) : Option Entries :=
  match key.reverse with
  | [] => none
  | name :: before =>
    let path := before.reverse
    descend true (fun origin es =>
      if (node? name es).isSome || (!path.isEmpty && origin ≠ .dotted) then none
      else some (putNode name (.value v) es)) path .declared es

/-- Declares a table. -/
def declareTable (key : List String) (es : Entries) : Option Entries :=
  match key.reverse with
  | [] => none
  | name :: before =>
    descend false (fun _ es =>
      match node? name es with
      | none => some (putNode name (.table .declared []) es)
      -- a table that others implied may still get a header
      | some (.table .implied inner) => some (putNode name (.table .declared inner) es)
      | some _ => none) before.reverse .declared es

/-- Appends a table to a list. -/
def appendTable (key : List String) (es : Entries) : Option Entries :=
  match key.reverse with
  | [] => none
  | name :: before =>
    descend false (fun _ es =>
      match node? name es with
      | none => some (putNode name (.tables [[]]) es)
      | some (.tables reversed) => some (putNode name (.tables ([] :: reversed)) es)
      | some _ => none) before.reverse .declared es

/-- Adds an entry below the table that was declared last. -/
def addUnder (table key : List String) (v : Value) (es : Entries) : Option Entries :=
  descend false (fun _ inner => addEntry key v inner) table .declared es

end ChartPipeline.Toml
