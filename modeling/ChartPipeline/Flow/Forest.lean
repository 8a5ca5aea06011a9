/-!
# Ordered forests

A forest is given by its first tree and the rest: the root's name and content, its children, and
the trees after it.  Every view of a forest — its preorder, its leaves, the path to a node — and
every edit is one structural recursion, so the views agree and the edits end.
-/

namespace ChartPipeline

/-- An ordered forest of named nodes. -/
inductive Forest (α : Type) where
  | nil
  /-- A tree, with the children of its root, and the trees after it. -/
  | node (id : Nat) (content : α) (children rest : Forest α)
deriving Inhabited

namespace Forest

variable {α : Type}

/-- The tree of a single node. -/
def leaf (id : Nat) (content : α) : Forest α := node id content nil nil

/-- The trees of one forest, then those of another. -/
def append : Forest α → Forest α → Forest α
  | nil, other => other
  | node i a cs rest, other => node i a cs (rest.append other)

instance : Append (Forest α) := ⟨append⟩

/-! ### Views -/

/-- The nodes with their contents: each before its children, the children in order. -/
def toList : Forest α → List (Nat × α)
  | nil => []
  | node i a cs rest => (i, a) :: (cs.toList ++ rest.toList)

/-- The names of the nodes, each before its children. -/
def walk (f : Forest α) : List Nat := f.toList.map Prod.fst

/-- The number of nodes. -/
def size (f : Forest α) : Nat := f.toList.length

/-- The roots, in order. -/
def roots : Forest α → List Nat
  | nil => []
  | node i _ _ rest => i :: rest.roots

/-- Whether there is no tree. -/
def isEmpty : Forest α → Bool
  | nil => true
  | node .. => false

/-- The nodes without children, in order. -/
def leaves : Forest α → List Nat
  | nil => []
  | node i _ cs rest => (if cs.isEmpty then [i] else cs.leaves) ++ rest.leaves

/-- The content and the children of a node. -/
def find? (id : Nat) : Forest α → Option (α × Forest α)
  | nil => none
  | node i a cs rest =>
    if i = id then some (a, cs) else (cs.find? id).orElse fun _ => rest.find? id

/-- The content of a node. -/
def content? (id : Nat) (f : Forest α) : Option α := (f.find? id).map Prod.fst

/-- The children of a node. -/
def children (id : Nat) (f : Forest α) : List Nat :=
  match f.find? id with
  | some (_, cs) => cs.roots
  | none => []

/-- Whether a node is in the forest. -/
def contains (id : Nat) (f : Forest α) : Bool := (f.find? id).isSome

/-- The proper ancestors of a node, from its parent up. -/
def ancestors? (id : Nat) : Forest α → Option (List Nat)
  | nil => none
  | node i _ cs rest =>
    if i = id then some []
    else match cs.ancestors? id with
      | some path => some (path ++ [i])
      | none => rest.ancestors? id

/-- The proper ancestors of a node; none for one that is not in the forest. -/
def ancestors (id : Nat) (f : Forest α) : List Nat := (f.ancestors? id).getD []

/-- The parent of a node. -/
def parent? (id : Nat) (f : Forest α) : Option Nat := (f.ancestors id).head?

/-- The root of the tree that a node is in; a node outside is its own root. -/
def rootOf (id : Nat) (f : Forest α) : Nat := (f.ancestors id).getLastD id

/-- Whether `ancestor` is a proper ancestor of `id`. -/
def isAncestor (ancestor id : Nat) (f : Forest α) : Bool := (f.ancestors id).contains ancestor

/-- One line for each node, below and to the right of its parent. -/
def render (label : α → String) (depth : Nat) : Forest α → String
  | nil => ""
  | node i a cs rest =>
    String.ofList (List.replicate (2 * depth) ' ') ++ "n" ++ toString i ++ " " ++ label a ++ "\n" ++
      cs.render label (depth + 1) ++ rest.render label depth

/-! ### Edits -/

/-- Changes the content of a node. -/
def update (id : Nat) (f : α → α) : Forest α → Forest α
  | nil => nil
  | node i a cs rest =>
    node i (if i = id then f a else a) (cs.update id f) (rest.update id f)

/-- Takes a node out and lets its children take its place. -/
def splice (id : Nat) : Forest α → Forest α
  | nil => nil
  | node i a cs rest =>
    if i = id then cs ++ rest else node i a (cs.splice id) (rest.splice id)

/-- Takes a node out together with everything below it. -/
def without (id : Nat) : Forest α → Forest α
  | nil => nil
  | node i a cs rest => if i = id then rest else node i a (cs.without id) (rest.without id)

/-- Puts trees after the children of a node. -/
def attach : Forest α → Nat → Forest α → Forest α
  | nil, _, _ => nil
  | node i a cs rest, parent, trees =>
    if i = parent then node i a (cs ++ trees) rest
    else node i a (cs.attach parent trees) (rest.attach parent trees)

/-- The only tree of a forest: its root with content and children. -/
def single? : Forest α → Option (Nat × α × Forest α)
  | node i a cs nil => some (i, a, cs)
  | _ => none

/-- Exchanges a node with its parent, of which it is the only child: the parent keeps the
children of the node. -/
def lift (id : Nat) : Forest α → Forest α
  | nil => nil
  | node p a cs rest =>
    match cs.single? with
    | some (i, b, grandchildren) =>
      if i = id then node i b (node p a grandchildren nil) rest
      else node p a (cs.lift id) (rest.lift id)
    | none => node p a (cs.lift id) (rest.lift id)

/-- Takes out every node whose content is as said; their children take their places. -/
def prune (p : α → Bool) : Forest α → Forest α
  | nil => nil
  | node i a cs rest =>
    if p a then cs.prune p ++ rest.prune p else node i a (cs.prune p) (rest.prune p)

end Forest

end ChartPipeline
