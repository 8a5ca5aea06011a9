import ChartPipeline.Proofs.FailedEdits

/-!
# Flows in tables

The stages of a flow may be kept in a table, in the order in which they were added.  An entry has
the name of its parent and the names of its children, and the table has those of the roots, so every
link stands at two places and an edit has to keep them in step.  A stage that was taken out keeps
its entry, without links.

Going from parent to parent need not end in a table, so this is done for a number of turns only, and
it is left to prove that some number is always enough.

A table shows a forest if all its links are those of the forest.  Around a hole, the entries depend
on what is in the hole only as to its roots, so an edit in the hole changes one list around it.

## Key results

- `StageTable.shows_fill`: the entries of a forest around a hole and in the hole
- `StageTable.Stores.apply`: a change of a table that stores a flow
- `StageTable.stores_after`: the table after any changes
- `Flow.linked_after`: the links of a flow, and those stored in its table, after any operations
-/

namespace ChartPipeline

/-- A stage with the names of its parent and of its children. -/
structure StageEntry where
  stage : Stage
  parent : Option Nat := none
  children : List Nat := []
  /-- Whether the stage is in the forest. -/
  attached : Bool := true

/-- Stages by their names. -/
structure StageTable where
  entries : List StageEntry := []
  roots : List Nat := []
  /-- The number of changes to the structure. -/
  revision : Nat := 0

/-- Puts names into a list in place of another one. -/
def putFor (id : Nat) (ids : List Nat) : List Nat → List Nat
  | [] => []
  | i :: rest => if i = id then ids ++ rest else i :: putFor id ids rest

/-- A name that is not in the first part is replaced in the second one. -/
theorem putFor_append {id : Nat} {before : List Nat} (h : id ∉ before) (ids after : List Nat) :
    putFor id ids (before ++ id :: after) = before ++ (ids ++ after) := by
  induction before with
  | nil => rw [List.nil_append, putFor, if_pos rfl, List.nil_append]
  | cons i before ih =>
    rw [List.mem_cons, not_or] at h
    obtain ⟨hi, hbefore⟩ := h
    rw [List.cons_append, putFor, if_neg (fun e => hi e.symm), ih hbefore, List.cons_append]

/-- What is done for a number of turns, without an answer if there are too few, has this answer if
there are enough of them. -/
def Ends {α : Type} (run : Nat → Option α) (a : α) : Prop :=
  ∃ n, ∀ turns, n ≤ turns → run turns = some a

/-- There is one answer at most. -/
theorem Ends.eq_iff {α : Type} {run : Nat → Option α} {a b : α} (h : Ends run a) :
    Ends run b ↔ a = b := by
  constructor
  · intro hb
    obtain ⟨n, hn⟩ := h
    obtain ⟨m, hm⟩ := hb
    -- with enough turns for both, the two answers are those of one run
    exact Option.some.inj ((hn (max n m) (Nat.le_max_left n m)).symm.trans
      (hm (max n m) (Nat.le_max_right n m)))
  · rintro rfl
    exact h

/-- What is made of an answer is an answer of the same turns. -/
theorem Ends.map {α β : Type} {run : Nat → Option α} {a : α} (h : Ends run a) (f : α → β) :
    Ends (fun turns => (run turns).map f) (f a) := by
  obtain ⟨n, hn⟩ := h
  exact ⟨n, fun turns hturns => congrArg (Option.map f) (hn turns hturns)⟩

namespace StageTable

/-! ### Looking up and changing entries -/

/-- The stage of a name, in the forest or taken out. -/
def stage? (t : StageTable) (id : Nat) : Option Stage := t.entries[id]?.map StageEntry.stage

/-- The parent that is stored for a stage. -/
def parent? (t : StageTable) (id : Nat) : Option Nat := t.entries[id]?.bind StageEntry.parent

/-- The children that are stored for a stage. -/
def children (t : StageTable) (id : Nat) : List Nat :=
  (t.entries[id]?.map StageEntry.children).getD []

/-- Whether a stage is marked as one of the forest. -/
def isAttached (t : StageTable) (id : Nat) : Bool :=
  (t.entries[id]?.map StageEntry.attached).getD false

/-- Looks for a stage from a node up. -/
def meets (t : StageTable) (ancestor : Nat) : Nat → Option Nat → Option Bool
  | _, none => some false
  | 0, some _ => none
  | turns + 1, some id =>
    if id = ancestor then some true else t.meets ancestor turns (t.parent? id)

/-- Whether a stage is above another one. -/
def isAncestor (t : StageTable) (ancestor id turns : Nat) : Option Bool :=
  t.meets ancestor turns (t.parent? id)

/-- Changes the entry of a stage. -/
def change (t : StageTable) (id : Nat) (u : StageEntry → StageEntry) : StageTable :=
  { t with entries := t.entries.modify id u }

/-- Changes the list of the children of a stage, or that of the roots. -/
def changeSiblings (t : StageTable) (parent : Option Nat) (u : List Nat → List Nat) :
    StageTable :=
  match parent with
  | some p => t.change p fun e => { e with children := u e.children }
  | none => { t with roots := u t.roots }

/-- Gives stages another parent. -/
def adopt (t : StageTable) (ids : List Nat) (parent : Option Nat) : StageTable :=
  ids.foldl (fun t id => t.change id fun e => { e with parent }) t

/-- Counts a change. -/
def count (t : StageTable) : StageTable := { t with revision := t.revision + 1 }

/-! ### Operations -/

/-- Adds a stage as a new root. -/
def add (t : StageTable) (stage : Stage) : StageTable where
  entries := t.entries ++ [{ stage }]
  roots := t.roots ++ [t.entries.length]
  revision := t.revision + 1

/-- Takes a stage from the children of its parent, or from the roots. -/
def detach (t : StageTable) (id : Nat) : StageTable :=
  if t.isAttached id then
    (t.changeSiblings (t.parent? id) (·.filter (· ≠ id))).change id fun e =>
      { e with parent := none }
  else t

/-- Puts a stage that is nobody's child after the children of another one. -/
def put (t : StageTable) (id parent : Nat) : StageTable :=
  (t.changeSiblings (some parent) (· ++ [id])).change id fun e =>
    { e with parent := some parent, attached := true }

/-- Puts a stage with all below it after the children of another one, unless it is known that this
makes a cycle. -/
def reparent (t : StageTable) (id parent : Nat) (cycle : Bool) :
    Except FlowFault Unit × StageTable :=
  if cycle then (.error (.cycle id parent), t)
  else if !t.isAttached parent then (.error (.parentRemoved id parent), t)
  else if (t.stage? id).isNone then (.error (.alreadyRemoved id), t)
  else (.ok (), ((t.detach id).put id parent).count)

/-- Puts a stage with all below it after the children of another one, above which it must not be. -/
def setParent (t : StageTable) (id parent turns : Nat) :
    Option (Except FlowFault Unit × StageTable) :=
  (if id = parent then some true else t.isAncestor id parent turns).map (t.reparent id parent)

/-- Adds a stage after the children of another one. -/
def addChild (t : StageTable) (parent : Nat) (stage : Stage) (turns : Nat) :
    Option (Except FlowFault Unit × StageTable) :=
  (t.add stage).setParent t.entries.length parent turns

/-- Takes a stage out of its tree and lets its children take its place. -/
def cut (t : StageTable) (id : Nat) : StageTable :=
  let parent := t.parent? id
  let children := t.children id
  let t := (t.change id fun e => { e with children := [] }).adopt children parent
  let t := t.changeSiblings parent (putFor id children)
  t.change id fun e => { e with parent := none, attached := false }

/-- Takes a stage out, if it is in the forest. -/
def remove (t : StageTable) (id : Nat) : Except FlowFault Unit × StageTable :=
  if t.isAttached id then (.ok (), (t.cut id).count) else (.error (.alreadyRemoved id), t)

/-- Puts a stage in the place of its parent, and the parent below it. -/
def exchange (t : StageTable) (id parent : Nat) : StageTable :=
  let grandparent := t.parent? parent
  let t := t.changeSiblings grandparent (putFor parent [id])
  let grandchildren := t.children id
  let t := t.adopt grandchildren (some parent)
  let t := t.change id fun e => { e with parent := grandparent, children := [parent] }
  t.change parent fun e => { e with parent := some id, children := grandchildren }

/-- Exchanges a stage with its parent, of which it has to be the only child. -/
def swapWithParent (t : StageTable) (id : Nat) : Except FlowFault Unit × StageTable :=
  match t.parent? id with
  | none => (.error (.noParent id), t)
  | some parent =>
    if t.children parent = [id] then (.ok (), (t.exchange id parent).count)
    else (.error (.notOnlyChild id parent), t)

/-- Changes what a stage holds. -/
def hold (t : StageTable) (id : Nat) (stage : Stage) : StageTable :=
  t.change id fun e => { e with stage }

/-- Joins what a stage holds into another stage of its kind. -/
def absorb (t : StageTable) (keep other : Nat) : Except FlowFault Unit × StageTable :=
  match t.stage? keep, t.stage? other with
  | some a, some b =>
    match a.merge? b with
    | some joined => (.ok (), t.hold keep joined)
    | none => (.error (.notMergeable b.tag a.tag), t)
  | _, _ => (.error (.alreadyRemoved other), t)

/-- Joins a stage into another one of its kind and takes it out. -/
def merge (t : StageTable) (keep other : Nat) : Except FlowFault Unit × StageTable :=
  if keep = other then (.error (.mergeIntoItself keep), t)
  else match t.absorb keep other with
    | (.ok (), t) => t.remove other
    | (.error fault, t) => (.error fault, t)

end StageTable

/-- What can be asked of a flow: an edit of its structure, or that a stage holds something else. -/
inductive Change where
  | edit (operation : Flow.Operation)
  | hold (id : Nat) (stage : Stage)

namespace Change

/-- What a change returns, but for the name of a new stage. -/
def result (flow : Flow) : Change → Except FlowFault Unit
  | edit operation => operation.result flow
  | hold .. => .ok ()

/-- The flow after a change, whether this has failed or not. -/
def apply (flow : Flow) : Change → Flow
  | edit operation => operation.apply flow
  | hold id stage => flow.updateStage id fun _ => stage

end Change

/-- The flow after changes, starting with nothing. -/
def Flow.afterChanges (changes : List Change) : Flow := changes.foldl Change.apply {}

namespace StageTable

/-- What a change of a table returns, and the table after it. -/
def apply (t : StageTable) (change : Change) (turns : Nat) :
    Option (Except FlowFault Unit × StageTable) :=
  match change with
  | .edit (.add stage) => some (.ok (), t.add stage)
  | .edit (.addChild parent stage) => t.addChild parent stage turns
  | .edit (.setParent id parent) => t.setParent id parent turns
  | .edit (.remove id) => some (t.remove id)
  | .edit (.swapWithParent id) => some (t.swapWithParent id)
  | .edit (.merge keep other) => some (t.merge keep other)
  | .hold id stage => some (.ok (), t.hold id stage)

/-- The table after changes, starting with nothing. -/
def after (changes : List Change) (turns : Nat) : Option StageTable :=
  changes.foldlM (fun t change => (t.apply change turns).map Prod.snd) {}

open Forest

variable {t t' : StageTable} {flow : Flow} {parent parent' : Option Nat} {id i p : Nat}
  {ids changed : List Nat} {f g cs s : Forest Stage} {fr : Frame Stage} {up : List (Frame Stage)}
  {a : Stage} {u : List Nat → List Nat}

/-! ### Changed entries -/

/-- A change of one entry leaves the others. -/
@[simp] theorem getElem?_change (t : StageTable) (id : Nat) (u : StageEntry → StageEntry)
    (i : Nat) : (t.change id u).entries[i]? =
      if id = i then t.entries[i]?.map u else t.entries[i]? := by
  rw [change, List.getElem?_modify]
  split <;> simp

/-- A change of the children of a stage is one of its entry. -/
@[simp] theorem getElem?_changeSiblings (t : StageTable) (parent : Option Nat)
    (u : List Nat → List Nat) (i : Nat) : (t.changeSiblings parent u).entries[i]? =
      if parent = some i then t.entries[i]?.map fun e => { e with children := u e.children }
      else t.entries[i]? := by
  cases parent with
  | none => simp [changeSiblings]
  | some p => simp [changeSiblings, getElem?_change]

/-- Stages that get another parent keep the rest of their entries. -/
@[simp] theorem getElem?_adopt (t : StageTable) (ids : List Nat) (parent : Option Nat) (i : Nat) :
    (t.adopt ids parent).entries[i]? =
      if i ∈ ids then t.entries[i]?.map fun e => { e with parent } else t.entries[i]? := by
  induction ids generalizing t with
  | nil => simp [adopt]
  | cons id ids ih =>
    have hrest : t.adopt (id :: ids) parent =
        (t.change id fun e => { e with parent }).adopt ids parent := rfl
    rw [hrest, ih, getElem?_change]
    -- the first stage may be listed again, and then its parent is set twice
    by_cases hid : id = i
    · subst hid
      by_cases hmem : id ∈ ids
      · simp [hmem, Function.comp_def]
      · simp [hmem]
    · have hid' : i ≠ id := fun e => hid e.symm
      simp [hid, hid']

/-- A change of an entry leaves the list of the roots. -/
@[simp] theorem roots_change (t : StageTable) (id : Nat) (u : StageEntry → StageEntry) :
    (t.change id u).roots = t.roots := rfl

/-- The list of the roots is changed where there is no parent. -/
@[simp] theorem roots_changeSiblings (t : StageTable) (parent : Option Nat)
    (u : List Nat → List Nat) :
    (t.changeSiblings parent u).roots = if parent = none then u t.roots else t.roots := by
  cases parent <;> rfl

@[simp] theorem revision_change (t : StageTable) (id : Nat) (u : StageEntry → StageEntry) :
    (t.change id u).revision = t.revision := rfl

/-- Giving stages another parent leaves the list of the roots. -/
@[simp] theorem roots_adopt (t : StageTable) (ids : List Nat) (parent : Option Nat) :
    (t.adopt ids parent).roots = t.roots := by
  induction ids generalizing t with
  | nil => rfl
  | cons id ids ih => exact ih (t.change id fun e => { e with parent })

/-- Giving stages another parent is not counted by itself. -/
@[simp] theorem revision_adopt (t : StageTable) (ids : List Nat) (parent : Option Nat) :
    (t.adopt ids parent).revision = t.revision := by
  induction ids generalizing t with
  | nil => rfl
  | cons id ids ih => exact ih (t.change id fun e => { e with parent })

/-- A change of an entry adds none. -/
@[simp] theorem length_change (t : StageTable) (id : Nat) (u : StageEntry → StageEntry) :
    (t.change id u).entries.length = t.entries.length :=
  List.length_modify ..

/-- Giving stages another parent adds no entry. -/
@[simp] theorem length_adopt (t : StageTable) (ids : List Nat) (parent : Option Nat) :
    (t.adopt ids parent).entries.length = t.entries.length := by
  induction ids generalizing t with
  | nil => rfl
  | cons id ids ih => exact (ih (t.change id fun e => { e with parent })).trans (length_change ..)

/-- A change of a list of children adds no entry. -/
@[simp] theorem length_changeSiblings (t : StageTable) (parent : Option Nat)
    (u : List Nat → List Nat) : (t.changeSiblings parent u).entries.length = t.entries.length := by
  cases parent with
  | none => rfl
  | some p => exact length_change ..

/-- A change of a list of children is not counted by itself. -/
@[simp] theorem revision_changeSiblings (t : StageTable) (parent : Option Nat)
    (u : List Nat → List Nat) : (t.changeSiblings parent u).revision = t.revision := by
  cases parent <;> rfl

/-- Putting a stage below another one changes the entries of these two only. -/
theorem put_same {i : Nat} (hi : i ≠ id) (hp : i ≠ p) :
    (t.put id p).entries[i]? = t.entries[i]? := by
  simp [put, hi.symm, hp.symm]

/-- Taking a stage from its parent adds no entry. -/
@[simp] theorem length_detach (t : StageTable) (id : Nat) :
    (t.detach id).entries.length = t.entries.length := by
  unfold detach
  split <;> simp

/-- Taking a stage from its parent is not counted by itself. -/
@[simp] theorem revision_detach (t : StageTable) (id : Nat) :
    (t.detach id).revision = t.revision := by
  unfold detach
  split <;> simp

/-! ### The entries of a forest -/

/-- The entries of a forest of which the roots have a parent or none. -/
def Hangs (t : StageTable) (parent : Option Nat) : Forest Stage → Prop
  | .nil => True
  | .node i a cs rest =>
    t.entries[i]? = some ⟨a, parent, cs.roots, true⟩ ∧ t.Hangs (some i) cs ∧ t.Hangs parent rest

/-- What the roots in a hole have for their parent. -/
def holder (up : List (Frame Stage)) : Option Nat := (up.map Frame.id).head?

/-- The entries around a hole, if those are the roots in it. -/
def Around (t : StageTable) : List (Frame Stage) → List Nat → Prop
  | [], ids => t.roots = ids
  | fr :: up, ids =>
    t.entries[fr.id]? = some ⟨fr.content, holder up, ids, true⟩ ∧
      t.Hangs (holder up) fr.before ∧ t.Hangs (holder up) fr.after ∧
        t.Around up (fr.before.roots ++ fr.id :: fr.after.roots)

/-- The links in a table are those of a forest. -/
def Shows (t : StageTable) (f : Forest Stage) : Prop := t.roots = f.roots ∧ t.Hangs none f

/-- Two forests hang from one parent if each does. -/
theorem hangs_append : t.Hangs parent (f ++ g) ↔ t.Hangs parent f ∧ t.Hangs parent g := by
  induction f with
  | nil => simp [Hangs]
  | node i a cs rest _ ih => simp only [node_append, Hangs, ih, and_assoc]

/-- A table shows a forest if it has the entries around the hole, for the roots in it, and those in
    the hole. -/
theorem shows_fill : t.Shows (fill up s) ↔ t.Around up s.roots ∧ t.Hangs (holder up) s := by
  induction up generalizing s with
  | nil => exact Iff.rfl
  | cons fr up ih =>
    -- a frame is closed first, so that the induction has the hole around it
    rw [fill, ih, Frame.close, roots_append, Forest.roots, hangs_append, Hangs, Around]
    simp only [holder, List.map_cons, List.head?_cons]
    tauto

/-- A forest hangs in every table that has the same entries for its nodes. -/
theorem Hangs.congr (h : t.Hangs parent f)
    (hsame : ∀ i ∈ f.walk, t'.entries[i]? = t.entries[i]?) : t'.Hangs parent f := by
  induction f generalizing parent with
  | nil => trivial
  | node i a cs rest ihc ihr =>
    -- the roots below stay what they were, so the entry of the root is as it was
    obtain ⟨hi, hcs, hrest⟩ := h
    refine ⟨(hsame i (by simp)).trans hi, ihc hcs fun j hj => ?_, ihr hrest fun j hj => ?_⟩
    · exact hsame j (by simp [hj])
    · exact hsame j (by simp [hj])

/-- It hangs elsewhere where its roots have another parent. -/
theorem Hangs.adopted (h : t.Hangs parent f) (hn : f.walk.Nodup)
    (hroots : ∀ i ∈ f.roots,
      t'.entries[i]? = t.entries[i]?.map fun e => { e with parent := parent' })
    (hsame : ∀ i ∈ f.walk, i ∉ f.roots → t'.entries[i]? = t.entries[i]?) :
    t'.Hangs parent' f := by
  induction f with
  | nil => trivial
  | node i a cs rest _ ihr =>
    obtain ⟨hi, hcs, hrest⟩ := h
    obtain ⟨hout, -, hnrest, hapart⟩ := nodup_walk_node.1 hn
    -- the root has its new parent; what is below it does not change, and what is beside it is
    -- adopted as well
    refine ⟨?_, hcs.congr fun j hj => ?_, ihr hrest hnrest (fun j hj => ?_) fun j hj hjr => ?_⟩
    · rw [hroots i List.mem_cons_self, hi, Option.map_some]
    -- a node below the root is no root itself, as no name stands twice
    · refine hsame j (by simp [hj]) fun hjr => ?_
      rcases List.mem_cons.1 hjr with rfl | hjr
      · exact hout.1 hj
      · exact hapart j hj (mem_walk_of_mem_roots hjr)
    · exact hroots j (List.mem_cons_of_mem _ hj)
    · refine hsame j (by simp [hj]) fun hmem => ?_
      rcases List.mem_cons.1 hmem with rfl | hmem
      · exact hout.2 hj
      · exact hjr hmem

/-- The entries around a hole are there in every table with the same entries for the names around
    it. -/
theorem Around.congr (h : t.Around up ids) (hroots : t'.roots = t.roots)
    (hsame : ∀ i ∈ outside up, t'.entries[i]? = t.entries[i]?) : t'.Around up ids := by
  induction up generalizing ids with
  | nil => exact hroots.trans h
  | cons fr up ih =>
    obtain ⟨hid, hbefore, hafter, hup⟩ := h
    simp only [outside_cons, Frame.names, List.mem_append, List.mem_cons] at hsame
    refine ⟨(hsame _ (by simp)).trans hid, hbefore.congr fun i hi => ?_,
      hafter.congr fun i hi => ?_, ih hup fun i hi => ?_⟩
    · exact hsame i (by simp [hi])
    · exact hsame i (by simp [hi])
    · exact hsame i (by simp [hi])

/-- The parent of the roots in a hole is around it. -/
theorem holder_mem_outside (h : holder up = some i) : i ∈ outside up := by
  cases up with
  | nil => exact absurd h (by simp [holder])
  | cons fr up =>
    obtain rfl := Option.some.inj h
    simp [Frame.names]

/-- Around a hole one list tells the roots in it. -/
theorem Around.changeSiblings (h : t.Around up ids) (hn : (outside up).Nodup)
    (u : List Nat → List Nat) : (t.changeSiblings (holder up) u).Around up (u ids) := by
  cases up with
  | nil => exact congrArg u h
  | cons fr up =>
    obtain ⟨hid, hbefore, hafter, hup⟩ := h
    have hholder : holder (fr :: up) = some fr.id := rfl
    -- only the entry of the innermost frame is changed
    have hother {i : Nat} (hi : i ≠ fr.id) :
        (t.changeSiblings (some fr.id) u).entries[i]? = t.entries[i]? := by
      rw [getElem?_changeSiblings, if_neg (by simpa using fun e => hi e.symm)]
    -- and its name is at one place around the hole
    have hout : fr.id ∉ fr.before.walk ∧ fr.id ∉ fr.after.walk ∧ fr.id ∉ outside up := by
      have hcount := List.nodup_iff_count.1 hn fr.id
      simp only [outside_cons, Frame.names, List.count_append, List.count_cons_self] at hcount
      simp only [← List.count_eq_zero]
      omega
    rw [hholder]
    refine ⟨?_, hbefore.congr fun i hi => hother ?_, hafter.congr fun i hi => hother ?_,
      hup.congr rfl fun i hi => hother ?_⟩
    · rw [getElem?_changeSiblings, if_pos rfl, hid, Option.map_some]
    · exact fun e => hout.1 (e ▸ hi)
    · exact fun e => hout.2.1 (e ▸ hi)
    · exact fun e => hout.2.2 (e ▸ hi)

/-- The names of a tree, of those beside it and of the nodes above are all different. -/
structure Apart (fr : Frame Stage) (up : List (Frame Stage)) (cs : Forest Stage) : Prop where
  around : (outside (fr :: up)).Nodup
  above : (outside up).Nodup
  inner : cs.walk.Nodup
  root : fr.id ∉ cs.walk ∧ fr.id ∉ outside up
  below : ∀ i ∈ cs.walk, i ≠ fr.id ∧ i ∉ outside up
  beside : ∀ i ∈ fr.before.walk ++ fr.after.walk, i ≠ fr.id ∧ i ∉ cs.walk ∧ i ∉ outside up

/-- Where no name stands twice, the names of a tree and around it are apart. -/
theorem apart_of_nodup (hn : (fill (fr :: up) cs).walk.Nodup) : Apart fr up cs := by
  obtain ⟨haround, hinner, hapart⟩ :=
    List.nodup_append.1 ((walk_fill_perm (fr :: up) cs).nodup_iff.1 hn)
  have hnames := haround
  rw [outside_cons, Frame.names] at hnames hapart
  simp only [List.nodup_append, List.nodup_cons, List.mem_append, List.mem_cons] at hnames hapart
  constructor <;> grind

/-- A name that is not in a forest is no root of it. -/
theorem notMem_roots (h : i ∉ f.walk) : i ∉ f.roots := fun hmem => h (mem_walk_of_mem_roots hmem)

/-- A name that is not around a hole is not the parent of the roots in it. -/
theorem holder_ne (h : i ∉ outside up) : holder up ≠ some i := fun e => h (holder_mem_outside e)

/-- The root of a tree is no root before it. -/
theorem Apart.notMem_before (h : Apart fr up cs) : fr.id ∉ fr.before.roots :=
  notMem_roots fun hmem => (h.beside _ (List.mem_append_left _ hmem)).1 rfl

/-- The root of a tree is no root after it. -/
theorem Apart.notMem_after (h : Apart fr up cs) : fr.id ∉ fr.after.roots :=
  notMem_roots fun hmem => (h.beside _ (List.mem_append_right _ hmem)).1 rfl

/-- What is below the root of a tree is not around it. -/
theorem Apart.notMem_outside (h : Apart fr up cs) (hi : i ∈ cs.walk) : i ∉ outside (fr :: up) := by
  obtain ⟨hne, hup⟩ := h.below i hi
  simp only [outside_cons, Frame.names, List.mem_append, List.mem_cons, not_or]
  exact ⟨⟨fun hmem => (h.beside i (List.mem_append_left _ hmem)).2.1 hi, hne,
    fun hmem => (h.beside i (List.mem_append_right _ hmem)).2.1 hi⟩, hup⟩

/-- Counting a change leaves the links. -/
theorem Shows.count (h : t.Shows f) : t.count.Shows f := ⟨h.1, h.2.congr fun _ _ => rfl⟩

/-! ### Edits in a hole -/

/-- Another table in which one list around a hole is changed, and some entries in the hole. -/
structure Edited (t : StageTable) (up : List (Frame Stage)) (u : List Nat → List Nat)
    (changed : List Nat) (t' : StageTable) : Prop where
  roots : t'.roots = (t.changeSiblings (holder up) u).roots
  entries : ∀ i ∉ changed, t'.entries[i]? = (t.changeSiblings (holder up) u).entries[i]?

/-- An entry that is neither changed nor around the hole stays. -/
theorem Edited.same (h : t.Edited up u changed t') (hi : i ∉ changed) (hout : i ∉ outside up) :
    t'.entries[i]? = t.entries[i]? := by
  rw [h.entries i hi, getElem?_changeSiblings, if_neg fun e => hout (holder_mem_outside e)]

/-- Around the hole all is well, so only what is in it is left to look at. -/
theorem Edited.shows (h : t.Edited up u changed t') (hup : t.Around up f.roots)
    (hn : (outside up).Nodup) (hchanged : ∀ i ∈ changed, i ∉ outside up)
    (hu : u f.roots = g.roots) (hg : t'.Hangs (holder up) g) : t'.Shows (fill up g) := by
  refine shows_fill.2 ⟨?_, hg⟩
  rw [← hu]
  exact (hup.changeSiblings hn u).congr h.roots fun i hi =>
    h.entries i fun hmem => hchanged i hmem hi

/-- The entry of a stage in the forest. -/
theorem Shows.entry (h : t.Shows (fill (fr :: up) cs)) :
    t.entries[fr.id]? = some ⟨fr.content, holder up, cs.roots, true⟩ :=
  (shows_fill.1 h).1.1

/-- The parent stored for a stage is what holds its tree. -/
theorem Shows.parent? (h : t.Shows (fill (fr :: up) cs)) : t.parent? fr.id = holder up := by
  rw [StageTable.parent?, h.entry, Option.bind_some]

/-- The children stored for a stage are the roots in the hole below it. -/
theorem Shows.children (h : t.Shows (fill (fr :: up) cs)) : t.children fr.id = cs.roots := by
  rw [StageTable.children, h.entry, Option.map_some, Option.getD_some]

/-- A tree gives place to others, and what is beside it stays. -/
theorem Edited.shows_between (h : t.Edited up u changed t') (hf : t.Shows (fill (fr :: up) cs))
    (hn : Apart fr up cs) (hchanged : ∀ i ∈ changed, i = fr.id ∨ i ∈ cs.walk)
    (hu : u (fr.before.roots ++ fr.id :: fr.after.roots) =
      fr.before.roots ++ (g.roots ++ fr.after.roots))
    (hg : t'.Hangs (holder up) g) : t'.Shows (fill up (fr.before ++ (g ++ fr.after))) := by
  obtain ⟨⟨-, hbefore, hafter, hup⟩, -⟩ := shows_fill.1 hf
  -- the trees beside keep their entries, as only names of the tree are changed
  have hbeside : ∀ i ∈ fr.before.walk ++ fr.after.walk, t'.entries[i]? = t.entries[i]? := by
    intro i hi
    obtain ⟨hne, hc, hout⟩ := hn.beside i hi
    exact h.same (fun hmem => (hchanged i hmem).elim hne hc) hout
  have hclose : (fr.close cs).roots = fr.before.roots ++ fr.id :: fr.after.roots := by
    rw [Frame.close, roots_append, Forest.roots]
  refine h.shows (hclose ▸ hup) hn.above (fun i hi => ?_) ?_
    (hangs_append.2 ⟨?_, hangs_append.2 ⟨hg, ?_⟩⟩)
  · rcases hchanged i hi with rfl | hi
    · exact hn.root.2
    · exact (hn.below i hi).2
  · rw [hclose, hu, roots_append, roots_append]
  · exact hbefore.congr fun i hi => hbeside i (List.mem_append_left _ hi)
  · exact hafter.congr fun i hi => hbeside i (List.mem_append_right _ hi)

/-- Stages that are not in the forest are not touched. -/
theorem Edited.same_of_notMem (h : t.Edited up u changed t')
    (hchanged : ∀ i ∈ changed, i = fr.id ∨ i ∈ cs.walk) (hi : i ∉ (fill (fr :: up) cs).walk) :
    t'.entries[i]? = t.entries[i]? := by
  rw [(walk_fill_perm (fr :: up) cs).mem_iff, outside_cons, Frame.names] at hi
  simp only [List.mem_append, List.mem_cons, not_or] at hi
  obtain ⟨⟨⟨-, hne, -⟩, hout⟩, hc⟩ := hi
  exact h.same (fun hmem => (hchanged i hmem).elim hne hc) hout

/-- A stage that is taken out changes its own entry and those of its children, and the list that it
    was in. -/
theorem edited_cut (h : t.Shows (fill (fr :: up) cs)) :
    t.Edited up (putFor fr.id cs.roots) (fr.id :: cs.roots) (t.cut fr.id) := by
  constructor
  · simp [cut, h.parent?, h.children]
  · intro i hi
    rw [List.mem_cons, not_or] at hi
    simp [cut, h.parent?, h.children, hi.2, Ne.symm hi.1]

/-- The entries changed by taking a stage out are in its tree. -/
theorem mem_cut (i : Nat) (hi : i ∈ id :: cs.roots) : i = id ∨ i ∈ cs.walk :=
  (List.mem_cons.1 hi).imp_right mem_walk_of_mem_roots

/-- A stage is taken out, and its children take its place. -/
theorem Shows.cut (h : t.Shows (fill (fr :: up) cs)) (hn : Apart fr up cs) :
    (t.cut fr.id).Shows (fill up (fr.before ++ (cs ++ fr.after))) ∧
      (t.cut fr.id).entries[fr.id]? = some ⟨fr.content, none, [], false⟩ := by
  -- the children get the parent of the stage, and what is below them stays
  have hadopted : (t.cut fr.id).Hangs (holder up) cs := by
    refine (shows_fill.1 h).2.adopted hn.inner (fun i hi => ?_) fun i hi hroot => ?_
    · obtain ⟨hne, hout⟩ := hn.below i (mem_walk_of_mem_roots hi)
      simp [StageTable.cut, h.parent?, h.children, hi, hne.symm, holder_ne hout]
    · obtain ⟨hne, hout⟩ := hn.below i hi
      exact (edited_cut h).same (List.not_mem_cons_of_ne_of_not_mem hne hroot) hout
  constructor
  · exact (edited_cut h).shows_between h hn mem_cut (putFor_append hn.notMem_before _ _) hadopted
  · simp [StageTable.cut, h.parent?, h.children, notMem_roots hn.root.1, holder_ne hn.root.2,
      h.entry]

/-- A stage taken from its parent changes its own entry and the list that it was in. -/
theorem edited_detach (h : t.Shows (fill (fr :: up) cs)) :
    t.Edited up (·.filter (· ≠ fr.id)) [fr.id] (t.detach fr.id) := by
  have hatt : t.isAttached fr.id = true := by rw [isAttached, h.entry]; rfl
  rw [detach, if_pos hatt, h.parent?]
  constructor
  · rfl
  · intro i hi
    rw [List.mem_singleton] at hi
    rw [getElem?_change, if_neg (Ne.symm hi)]

/-- A tree is taken from its place; it keeps all its entries but for the parent of its root. -/
theorem Shows.detach (h : t.Shows (fill (fr :: up) cs)) (hn : Apart fr up cs) :
    (t.detach fr.id).Shows (fill up (fr.before ++ fr.after)) ∧
      (t.detach fr.id).entries[fr.id]? = some ⟨fr.content, none, cs.roots, true⟩ ∧
        (t.detach fr.id).Hangs (some fr.id) cs := by
  have hedited := edited_detach h
  have hatt : t.isAttached fr.id = true := by rw [isAttached, h.entry]; rfl
  refine ⟨?_, ?_, ?_⟩
  · refine hedited.shows_between (g := nil) h hn (fun i hi => .inl (List.mem_singleton.1 hi)) ?_
      trivial
    -- only the stage itself is filtered out, since its name is not beside it
    have hkept {ids : List Nat} (hids : fr.id ∉ ids) : ids.filter (· ≠ fr.id) = ids :=
      List.filter_eq_self.2 fun i hi => decide_eq_true fun e => hids (e ▸ hi)
    rw [List.filter_append, List.filter_cons_of_neg (by simp), hkept hn.notMem_before,
      hkept hn.notMem_after]
    rfl
  · rw [StageTable.detach, if_pos hatt, h.parent?]
    simp [holder_ne hn.root.2, h.entry]
  · refine (shows_fill.1 h).2.congr fun i hi => ?_
    obtain ⟨hne, hout⟩ := hn.below i hi
    exact hedited.same (by simpa using hne) hout

/-- A stage put below another one changes its own entry and the list of the children there. -/
theorem edited_put (t : StageTable) (id : Nat) (fr : Frame Stage) (up : List (Frame Stage)) :
    t.Edited (fr :: up) (· ++ [id]) [id] (t.put id fr.id) := by
  constructor
  · rfl
  · intro i hi
    rw [List.mem_singleton] at hi
    rw [put, getElem?_change, if_neg (Ne.symm hi)]
    rfl

/-- A tree that hangs nowhere is put below a stage. -/
theorem Shows.put {attached : Bool} (h : t.Shows (fill (fr :: up) f))
    (hn : Apart fr up (f ++ node id a cs nil))
    (hid : t.entries[id]? = some ⟨a, parent, cs.roots, attached⟩) (hcs : t.Hangs (some id) cs) :
    (t.put id fr.id).Shows (fill (fr :: up) (f ++ node id a cs nil)) := by
  have hedited := edited_put t id fr up
  obtain ⟨hup, hf⟩ := shows_fill.1 h
  -- the trees below the stage with the new one after them
  have hmem (i : Nat) : i ∈ (f ++ node id a cs nil).walk ↔ i ∈ f.walk ∨ i = id ∨ i ∈ cs.walk := by
    simp
  have hinner := hn.inner
  simp only [walk_append, walk_node, walk_nil, List.append_nil, List.nodup_append,
    List.nodup_cons, List.mem_cons] at hinner
  obtain ⟨-, ⟨hidcs, -⟩, hapart⟩ := hinner
  have hidout := hn.notMem_outside ((hmem id).2 (.inr (.inl rfl)))
  refine hedited.shows hup hn.around (fun i hi => ?_) ?_ (hangs_append.2 ⟨?_, ?_, ?_, trivial⟩)
  · rwa [List.mem_singleton.1 hi]
  · rw [roots_append]
    rfl
  · refine hf.congr fun i hi => ?_
    refine hedited.same ?_ (hn.notMem_outside ((hmem i).2 (.inl hi)))
    rw [List.mem_singleton]
    exact hapart i hi id (.inl rfl)
  -- the new root has the stage for its parent, and is marked as one of the forest
  · have hne : fr.id ≠ id := fun e => hidout (e ▸ by simp [Frame.names])
    simp [StageTable.put, hne, hid, holder]
  · refine hcs.congr fun i hi => ?_
    refine hedited.same ?_ (hn.notMem_outside ((hmem i).2 (.inr (.inr hi))))
    rw [List.mem_singleton]
    exact fun e => hidcs (e ▸ hi)

/-- A tree that hangs nowhere is put below any stage of the forest. -/
theorem Shows.attach {attached : Bool} (h : t.Shows f) (hn : f.walk.Nodup) (hp : p ∈ f.walk)
    (hn' : (f.attach p (node id a cs nil)).walk.Nodup)
    (hid : t.entries[id]? = some ⟨a, parent, cs.roots, attached⟩) (hcs : t.Hangs (some id) cs) :
    (t.put id p).Shows (f.attach p (node id a cs nil)) := by
  obtain ⟨fr, up, ps, rfl, rfl⟩ := exists_fill_of_mem hp
  rw [attach_first hn] at hn' ⊢
  exact h.put (apart_of_nodup hn') hid hcs

/-- An only child keeps its children when its parent is given another place. -/
theorem Shows.children_only {b : Stage} (h : t.Shows (fill (fr :: up) (node id b cs nil)))
    (hid : id ∉ outside up) (u : List Nat → List Nat) :
    (t.changeSiblings (holder up) u).children id = cs.roots := by
  rw [StageTable.children, getElem?_changeSiblings, if_neg (holder_ne hid), (shows_fill.1 h).2.1]
  rfl

/-- An exchange changes the entries of the two stages and of the children, and the list that the
    parent was in. -/
theorem edited_exchange {b : Stage} (h : t.Shows (fill (fr :: up) (node id b cs nil)))
    (hid : id ∉ outside up) :
    t.Edited up (putFor fr.id [id]) (id :: fr.id :: cs.roots) (t.exchange id fr.id) := by
  constructor
  · simp [exchange, h.parent?, h.children_only hid]
  · intro i hi
    simp only [List.mem_cons, not_or] at hi
    simp [exchange, h.parent?, h.children_only hid, hi.2.2, Ne.symm hi.1, Ne.symm hi.2.1]

/-- The entries changed by an exchange are in the tree of the parent. -/
theorem mem_exchange {b : Stage} (i : Nat) (hi : i ∈ id :: p :: cs.roots) :
    i = p ∨ i ∈ (node id b cs nil).walk := by
  rw [walk_node, walk_nil, List.append_nil, List.mem_cons]
  simp only [List.mem_cons] at hi
  rcases hi with rfl | rfl | hi
  · exact .inr (.inl rfl)
  · exact .inl rfl
  · exact .inr (.inr (mem_walk_of_mem_roots hi))

/-- A stage that is an only child changes places with its parent. -/
theorem Shows.exchange {b : Stage} (h : t.Shows (fill (fr :: up) (node id b cs nil)))
    (hn : Apart fr up (node id b cs nil)) : (t.exchange id fr.id).Shows
      (fill ({ fr with id := id, content := b } :: up) (node fr.id fr.content cs nil)) := by
  obtain ⟨hid, hcs, -⟩ := (shows_fill.1 h).2
  have hmem (i : Nat) : i ∈ (node id b cs nil).walk ↔ i = id ∨ i ∈ cs.walk := by simp
  have hinner := hn.inner
  rw [walk_node, walk_nil, List.append_nil, List.nodup_cons] at hinner
  have hidp : id ≠ fr.id := (hn.below id ((hmem id).2 (.inl rfl))).1
  have hidout := (hn.below id ((hmem id).2 (.inl rfl))).2
  have hedited := edited_exchange h hidout
  have hbelow : ∀ i ∈ cs.walk, i ≠ fr.id ∧ i ∉ outside up := fun i hi =>
    hn.below i ((hmem i).2 (.inr hi))
  have hpcs : fr.id ∉ cs.walk := fun hi => (hbelow _ hi).1 rfl
  -- the children of the child go to the parent
  have hadopted : (t.exchange id fr.id).Hangs (some fr.id) cs := by
    refine hcs.adopted hinner.2 (fun i hi => ?_) fun i hi hroot => ?_
    · obtain ⟨hne, hout⟩ := hbelow i (mem_walk_of_mem_roots hi)
      have hne' : id ≠ i := fun e => hinner.1 (e ▸ mem_walk_of_mem_roots hi)
      simp [StageTable.exchange, h.parent?, h.children_only hidout, hi, hne.symm, hne',
        holder_ne hout]
    · obtain ⟨hne, hout⟩ := hbelow i hi
      refine hedited.same ?_ hout
      simp only [List.mem_cons, not_or]
      exact ⟨fun e => hinner.1 (e ▸ hi), hne, hroot⟩
  -- seen from the hole of the parent, one tree gives place to another
  show (t.exchange id fr.id).Shows
    (fill up (fr.before ++ (node id b (node fr.id fr.content cs nil) nil ++ fr.after)))
  refine hedited.shows_between h hn mem_exchange (putFor_append hn.notMem_before _ _)
    ⟨?_, ⟨?_, hadopted, trivial⟩, trivial⟩
  · simp [StageTable.exchange, h.parent?, h.children_only hidout, hid, hidp.symm,
      notMem_roots hinner.1, holder_ne hidout, Forest.roots]
  · simp [StageTable.exchange, h.parent?, h.children_only hidout, hidp, h.entry,
      notMem_roots hpcs, holder_ne hn.root.2]

/-! ### A table that stores a flow -/

/-- A name without a stage is not in the forest. -/
theorem notMem_of_stage? (h : flow.stage? id = none) : id ∉ flow.stages.walk := by
  rw [← find?_eq_none]
  rw [Flow.stage?, content?] at h
  cases hfind : flow.stages.find? id with
  | none => rfl
  | some e => rw [hfind] at h; cases h

/-- The stages of a flow are in a table: those of the forest with its links, and those that were
    taken out without links. -/
structure Stores (t : StageTable) (flow : Flow) : Prop where
  shows : t.Shows flow.stages
  removed : ∀ e ∈ flow.removed, t.entries[e.1]? = some ⟨e.2, none, [], false⟩
  length : t.entries.length = flow.next
  revision : t.revision = flow.revision

namespace Stores

/-- The entries of a table are those that the views of the flow make up. -/
theorem getElem?_eq (h : t.Stores flow) (ha : flow.Accounted) (id : Nat) :
    t.entries[id]? = (flow.stage? id).map fun a =>
      ⟨a, flow.stages.parent? id, flow.stages.children id, flow.isAttached id⟩ := by
  by_cases hmem : id ∈ flow.stages.walk
  · have hn := ha.nodup_walk
    have hshows := h.shows
    have hat := Flow.isAttached_iff.2 hmem
    obtain ⟨fr, up, cs, hf, rfl⟩ := exists_fill_of_mem hmem
    rw [hat, Flow.stage?_of_content? (hf ▸ content?_first (hf ▸ hn))]
    rw [hf] at hn hshows ⊢
    rw [parent?_first up hn, children_first hn]
    exact hshows.entry
  -- outside the forest there are stages that were taken out, and names not given out yet
  · have hout := find?_eq_none.2 hmem
    have hcontent : flow.stage? id = (flow.removed.find? (·.1 = id)).map Prod.snd := by
      rw [Flow.stage?, content?, hout]
      rfl
    rw [hcontent, parent?_of_notMem hmem, children_of_notMem hmem,
      Flow.isAttached_eq_false_iff.2 hmem]
    cases hfind : flow.removed.find? (·.1 = id) with
    | some e =>
      obtain rfl : e.1 = id := by simpa using List.find?_some hfind
      exact h.removed e (List.mem_of_find?_eq_some hfind)
    | none =>
      -- the name was not given out yet
      have hnext : ¬ id < flow.next := by
        rw [ha.lt_next_iff]
        rintro (hin | hin)
        · exact hmem hin
        · obtain ⟨e, he, rfl⟩ := List.mem_map.1 hin
          exact absurd (List.find?_eq_none.1 hfind e he) (by simp)
      rw [List.getElem?_eq_none (by rw [h.length]; omega)]
      rfl

/-- The stage of a name is the same in the table and in the flow. -/
theorem stage?_eq (h : t.Stores flow) (ha : flow.Accounted) (id : Nat) :
    t.stage? id = flow.stage? id := by
  rw [StageTable.stage?, h.getElem?_eq ha, Option.map_map]
  exact Option.map_id'

/-- The parent stored for a stage is its parent in the flow. -/
theorem parent?_eq (h : t.Stores flow) (ha : flow.Accounted) (id : Nat) :
    t.parent? id = flow.stages.parent? id := by
  rw [StageTable.parent?, h.getElem?_eq ha]
  cases hstage : flow.stage? id with
  | some a => rfl
  | none => exact (parent?_of_notMem (notMem_of_stage? hstage)).symm

/-- The children stored for a stage are its children in the flow. -/
theorem children_eq (h : t.Stores flow) (ha : flow.Accounted) (id : Nat) :
    t.children id = flow.stages.children id := by
  rw [StageTable.children, h.getElem?_eq ha]
  cases hstage : flow.stage? id with
  | some a => rfl
  | none => exact (children_of_notMem (notMem_of_stage? hstage)).symm

/-- The stages marked as those of the forest are those. -/
theorem isAttached_eq (h : t.Stores flow) (ha : flow.Accounted) (id : Nat) :
    t.isAttached id = flow.isAttached id := by
  rw [StageTable.isAttached, h.getElem?_eq ha]
  cases hstage : flow.stage? id with
  | some a => rfl
  | none => exact (Flow.isAttached_eq_false_iff.2 (notMem_of_stage? hstage)).symm

/-- Looking for a stage from a node up takes no more turns than there are stages above it. -/
theorem isAncestor_eq (h : t.Stores flow) (ha : flow.Accounted) {turns : Nat} (ancestor id : Nat)
    (hturns : (flow.stages.ancestors id).length ≤ turns) :
    t.isAncestor ancestor id turns = some (flow.stages.isAncestor ancestor id) := by
  rw [StageTable.isAncestor, h.parent?_eq ha, Forest.isAncestor]
  induction turns generalizing id with
  | zero =>
    have hnone := List.length_eq_zero_iff.1 (Nat.le_zero.1 hturns)
    rw [Forest.parent?, hnone, List.head?_nil, meets]
    rfl
  | succ turns ih =>
    cases hp : flow.stages.parent? id with
    | none =>
      have hnone : flow.stages.ancestors id = [] := List.head?_eq_none_iff.1 hp
      rw [hnone, meets]
      rfl
    | some p =>
      -- one turn goes to the parent, above which there is one stage less
      rw [ancestors_of_parent? ha.nodup_walk hp] at hturns ⊢
      rw [meets, h.parent?_eq ha, ih p (by simpa using hturns)]
      by_cases hpa : p = ancestor
      · simp [hpa]
      · simp [hpa, Ne.symm hpa]

/-- Looking for a stage from a node up ends with the answer of the flow. -/
theorem ends_isAncestor (h : t.Stores flow) (ha : flow.Accounted) (ancestor id : Nat) :
    Ends (t.isAncestor ancestor id) (flow.stages.isAncestor ancestor id) :=
  ⟨_, fun _ => h.isAncestor_eq ha ancestor id⟩

/-! ### Operations -/

/-- A new root has a new entry, and the others stay. -/
theorem add (h : t.Stores flow) (ha : flow.Accounted) (stage : Stage) :
    (t.add stage).Stores ((Flow.add stage : Edit FlowFault Nat) flow).2 := by
  have hlt {i : Nat} (hi : i ∈ flow.stages.walk ∨ i ∈ flow.removedNames) :
      (t.add stage).entries[i]? = t.entries[i]? :=
    List.getElem?_append_left (by rw [h.length]; exact ha.lt_next_iff.2 hi)
  refine ⟨⟨?_, hangs_append.2 ⟨h.shows.2.congr fun i hi => hlt (.inl hi), ?_, trivial, trivial⟩⟩,
    fun e he => (hlt (.inr (List.mem_map_of_mem he))).trans (h.removed e he), ?_, ?_⟩
  · show t.roots ++ [t.entries.length] = (flow.stages ++ leaf flow.next stage).roots
    rw [roots_append, ← h.shows.1, h.length]
    rfl
  · rw [StageTable.add, ← h.length, List.getElem?_concat_length]
    rfl
  · rw [StageTable.add, List.length_append, h.length]
    rfl
  · exact congrArg (· + 1) h.revision

/-- A table with another stage at one name shows the forest with this changed. -/
theorem hangs_hold {f : Forest Stage} {parent : Option Nat} (h : t.Hangs parent f) (id : Nat)
    (stage : Stage) : (t.hold id stage).Hangs parent (f.update id fun _ => stage) := by
  induction f generalizing parent with
  | nil => trivial
  | node i a cs rest ihc ihr =>
    obtain ⟨hi, hcs, hrest⟩ := h
    refine ⟨?_, ihc hcs, ihr hrest⟩
    rw [StageTable.hold, getElem?_change, hi, roots_update]
    by_cases hid : i = id
    · rw [if_pos hid, if_pos hid.symm]
      rfl
    · rw [if_neg hid, if_neg (Ne.symm hid)]

/-- What a stage holds may be changed in the table and in the flow alike. -/
theorem hold (h : t.Stores flow) (id : Nat) (stage : Stage) :
    (t.hold id stage).Stores (flow.updateStage id fun _ => stage) := by
  refine ⟨⟨h.shows.1.trans (roots_update _).symm, hangs_hold h.shows.2 id stage⟩, fun e he => ?_,
    (length_change ..).trans h.length, h.revision⟩
  obtain ⟨e, hmem, rfl⟩ := List.mem_map.1 he
  rw [StageTable.hold, getElem?_change]
  by_cases hid : e.1 = id
  · rw [if_pos hid, if_pos hid.symm, h.removed e hmem]
    rfl
  · rw [if_neg hid, if_neg (Ne.symm hid), h.removed e hmem]

/-- An edit in a hole leaves the stages that were taken out before. -/
theorem removed_of_edited (h : t.Stores flow) (ha : flow.Accounted)
    (hf : flow.stages = fill (fr :: up) cs) (hedited : t.Edited up u changed t')
    (hchanged : ∀ i ∈ changed, i = fr.id ∨ i ∈ cs.walk) :
    ∀ e ∈ flow.removed, t'.entries[e.1]? = some ⟨e.2, none, [], false⟩ := by
  intro e he
  have hout : e.1 ∉ flow.stages.walk := ha.notMem_of_removed (List.mem_map_of_mem he)
  exact (hedited.same_of_notMem hchanged (hf ▸ hout)).trans (h.removed e he)

/-- Taking a stage out of the table returns and leaves what it does on the flow. -/
theorem remove (h : t.Stores flow) (ha : flow.Accounted) (id : Nat) :
    (t.remove id).1 = (Flow.remove id flow).1 ∧ (t.remove id).2.Stores (Flow.remove id flow).2 := by
  have hn := ha.nodup_walk
  rw [StageTable.remove, h.isAttached_eq ha]
  by_cases hmem : id ∈ flow.stages.walk
  · rw [if_pos (Flow.isAttached_iff.2 hmem)]
    have hshows := h.shows
    obtain ⟨fr, up, cs, hf, rfl⟩ := exists_fill_of_mem hmem
    rw [hf] at hn hshows
    have hcontent : flow.stages.content? fr.id = some fr.content := hf ▸ content?_first hn
    obtain ⟨hcut, hid⟩ := hshows.cut (apart_of_nodup hn)
    simp only [Flow.remove, hcontent, true_and]
    have hremoved := h.removed_of_edited ha hf (edited_cut hshows) mem_cut
    refine ⟨?_, List.forall_mem_cons.2 ⟨hid, hremoved⟩, ?_, ?_⟩
    · show (t.cut fr.id).count.Shows (flow.stages.splice fr.id)
      rw [hf, splice_first hn]
      exact hcut.count
    · simpa [count, cut, Flow.restructure] using h.length
    · simpa [count, cut, Flow.restructure] using h.revision
  · rw [if_neg (by rwa [Flow.isAttached_iff])]
    have hcontent : flow.stages.content? id = none := by rw [content?, find?_eq_none.2 hmem]; rfl
    simp only [Flow.remove, hcontent, true_and]
    exact h

/-- An exchange in the table returns and leaves what it does on the flow. -/
theorem swapWithParent (h : t.Stores flow) (ha : flow.Accounted) (id : Nat) :
    (t.swapWithParent id).1 = (Flow.swapWithParent id flow).1 ∧
      (t.swapWithParent id).2.Stores (Flow.swapWithParent id flow).2 := by
  have hn := ha.nodup_walk
  simp only [StageTable.swapWithParent, Flow.swapWithParent, h.parent?_eq ha]
  cases hp : flow.stages.parent? id with
  | none => exact ⟨rfl, h⟩
  | some parent =>
    simp only [h.children_eq ha]
    by_cases hc : flow.stages.children parent = [id]
    · have hshows := h.shows
      -- the stage is the only node in the hole below its parent
      obtain ⟨fr, up, cs, b, hf, rfl⟩ := exists_fill_of_only hn (mem_walk_of_parent? hn hp) hc
      rw [hf] at hn hshows
      have hapart := apart_of_nodup hn
      have hid := (hapart.below id (by simp)).2
      rw [if_pos hc, if_pos hc]
      have hremoved := h.removed_of_edited ha hf (edited_exchange hshows hid) mem_exchange
      refine ⟨rfl, ?_, hremoved, ?_, ?_⟩
      · show (t.exchange id fr.id).count.Shows (flow.stages.lift id)
        rw [hf, lift_first hn]
        exact (hshows.exchange hapart).count
      · simpa [count, exchange, Flow.restructure] using h.length
      · simpa [count, exchange, Flow.restructure] using h.revision
    · rw [if_neg hc, if_neg hc]
      exact ⟨rfl, h⟩

/-- Joining what stages hold returns and leaves what it does on the flow. -/
theorem absorb (h : t.Stores flow) (ha : flow.Accounted) (keep other : Nat) :
    (t.absorb keep other).1 = (Flow.absorb keep other flow).1 ∧
      (t.absorb keep other).2.Stores (Flow.absorb keep other flow).2 := by
  simp only [StageTable.absorb, Flow.absorb, h.stage?_eq ha]
  cases flow.stage? keep with
  | none => exact ⟨rfl, h⟩
  | some a =>
    cases flow.stage? other with
    | none => exact ⟨rfl, h⟩
    | some b =>
      cases hjoin : a.merge? b with
      | none => simpa only [hjoin, true_and] using h
      | some joined => simpa only [hjoin, true_and] using h.hold keep joined

/-- A merge in the table returns and leaves what it does on the flow, also where it stops half
    way. -/
theorem merge (h : t.Stores flow) (ha : flow.Accounted) (keep other : Nat) :
    (t.merge keep other).1 = (Flow.merge keep other flow).1 ∧
      (t.merge keep other).2.Stores (Flow.merge keep other flow).2 := by
  rw [StageTable.merge]
  by_cases hne : keep = other
  · rw [if_pos hne, Flow.merge, if_pos hne]
    exact ⟨rfl, h⟩
  · have hmerge : Flow.merge keep other flow =
        (do Flow.absorb keep other; Flow.remove other : Edit _ _) flow := by
      rw [Flow.merge, if_neg hne]
    obtain ⟨hresult, hstores⟩ := h.absorb ha keep other
    have habsorb := ha.absorb keep other
    cases hrun : Flow.absorb keep other flow with
    | mk result flow₁ =>
    cases hrun' : t.absorb keep other with
    | mk result' t₁ =>
    rw [hrun] at hresult hstores habsorb
    rw [hrun'] at hresult hstores
    obtain rfl : result' = result := hresult
    rw [hmerge, if_neg hne]
    -- the join went the same way in both, and so does what follows it
    cases result' with
    | error fault =>
      rw [Run.bind_error hrun]
      exact ⟨rfl, hstores⟩
    | ok =>
      rw [Run.bind_ok hrun]
      exact hstores.remove habsorb other

/-- The tree of a stage is taken from its place and put below another stage. -/
theorem move (h : t.Stores flow) (ha : flow.Accounted) (hid : id ∈ flow.stages.walk)
    (hne : id ≠ p) (habove : flow.stages.isAncestor id p = false)
    (hp : p ∈ flow.stages.walk) : ∃ flow', Flow.setParent id p flow = (.ok (), flow') ∧
      ((t.detach id).put id p).count.Stores flow' := by
  have hn := ha.nodup_walk
  have hshows := h.shows
  have hres := (ha.setParent id p).nodup_walk
  have hleft := mem_walk_without hn hne.symm hp (by simpa [Forest.isAncestor] using habove)
  obtain ⟨fr, up, cs, hf, rfl⟩ := exists_fill_of_mem hid
  have hfind : flow.stages.find? fr.id = some (fr.content, cs) := hf ▸ find?_first (hf ▸ hn)
  have hnleft := (List.nodup_append.1 ((perm_walk_without hn hfind).nodup_iff.1 hn)).1
  -- past the guards, the edit of the flow takes the tree out and puts it below the parent
  have hrun : Flow.setParent fr.id p flow = (.ok (), flow.restructure fun f =>
      (f.without fr.id).attach p (node fr.id fr.content cs nil)) := by
    simp [Flow.setParent, hne, habove, Flow.isAttached_iff.2 hp, hfind]
  have hwithout : flow.stages.without fr.id = fill up (fr.before ++ fr.after) :=
    hf ▸ without_first (hf ▸ hn)
  -- the table does the same in two steps, each seen around a hole
  rw [hrun, Flow.restructure] at hres
  rw [hf] at hn hshows
  obtain ⟨hdetach, hentry, hcs⟩ := hshows.detach (apart_of_nodup hn)
  rw [← hwithout] at hdetach
  refine ⟨_, hrun, (hdetach.attach hnleft hleft hres hentry hcs).count, fun e he => ?_, ?_, ?_⟩
  · have hout := ha.notMem_of_removed (List.mem_map_of_mem he)
    exact (put_same (ne_of_mem_of_not_mem hid hout).symm (ne_of_mem_of_not_mem hp hout).symm).trans
      (h.removed_of_edited ha hf (edited_detach hshows)
        (fun i hi => .inl (List.mem_singleton.1 hi)) e he)
  · simpa [count, put, Flow.restructure] using h.length
  · simpa [count, put, Flow.restructure] using h.revision

/-- A stage that was taken out comes back alone. -/
theorem putBack (h : t.Stores flow) (ha : flow.Accounted) {a : Stage}
    (hid : id ∉ flow.stages.walk) (hstage : flow.stage? id = some a) (hne : id ≠ p)
    (habove : flow.stages.isAncestor id p = false) (hp : p ∈ flow.stages.walk) :
    ∃ flow', Flow.setParent id p flow = (.ok (), flow') ∧
      ((t.detach id).put id p).count.Stores flow' := by
  have hres := (ha.setParent id p).nodup_walk
  have hfind := find?_eq_none.2 hid
  -- it has no parent that it could be taken from
  have hdetach : t.detach id = t := by
    rw [detach, h.isAttached_eq ha, if_neg (by rwa [Flow.isAttached_iff])]
  have hremoved : (flow.removed.find? (·.1 = id)).map Prod.snd = some a := by
    rw [← hstage, Flow.stage?, content?, hfind]
    rfl
  obtain ⟨e, he, rfl⟩ := Option.map_eq_some_iff.1 hremoved
  obtain rfl : e.1 = id := by simpa using List.find?_some he
  -- and the edit of the flow finds it among those taken out
  have hrun : Flow.setParent e.1 p flow =
      (.ok (), { flow.restructure (·.attach p (leaf e.1 e.2)) with
        removed := flow.removed.filter (·.1 ≠ e.1) }) := by
    simp [Flow.setParent, hne, habove, Flow.isAttached_iff.2 hp, hfind, he]
  rw [hrun, Flow.restructure] at hres
  rw [hdetach]
  refine ⟨_, hrun, ?_, fun d hd => ?_, ?_, ?_⟩
  · exact (h.shows.attach ha.nodup_walk hp hres (h.removed e (List.mem_of_find?_eq_some he))
      trivial).count
  · obtain ⟨hd, hde⟩ := List.mem_filter.1 hd
    have hout := ha.notMem_of_removed (List.mem_map_of_mem hd)
    exact (put_same (by simpa using hde) (ne_of_mem_of_not_mem hp hout).symm).trans
      (h.removed d hd)
  · simpa [count, put, Flow.restructure] using h.length
  · simpa [count, put, Flow.restructure] using h.revision

/-- What makes a cycle in the flow is known, and then a stage is put below another one, or not, as
    in the flow. -/
theorem reparent (h : t.Stores flow) (ha : flow.Accounted) (id parent : Nat) {cycle : Bool}
    (hcycle : cycle = (decide (id = parent) || flow.stages.isAncestor id parent)) :
    (t.reparent id parent cycle).1 = (Flow.setParent id parent flow).1 ∧
      (t.reparent id parent cycle).2.Stores (Flow.setParent id parent flow).2 := by
  rw [StageTable.reparent, hcycle, h.isAttached_eq ha, h.stage?_eq ha]
  by_cases hc : (decide (id = parent) || flow.stages.isAncestor id parent) = true
  · rw [if_pos hc, Flow.setParent, if_pos hc]
    exact ⟨rfl, h⟩
  by_cases hat : (!flow.isAttached parent) = true
  · rw [if_neg hc, if_pos hat, Flow.setParent, if_neg hc, if_pos hat]
    exact ⟨rfl, h⟩
  rw [if_neg hc, if_neg hat]
  rw [Bool.or_eq_true, decide_eq_true_eq, not_or, Bool.not_eq_true] at hc
  have hp : parent ∈ flow.stages.walk := Flow.isAttached_iff.1 (by simpa using hat)
  cases hstage : flow.stage? id with
  | none =>
    -- there is no stage of this name
    have hrun : Flow.setParent id parent flow = (.error (.alreadyRemoved id), flow) := by
      have hfind := find?_eq_none.2 (notMem_of_stage? hstage)
      have hremoved : flow.removed.find? (·.1 = id) = none := by
        rw [Flow.stage?, content?, hfind] at hstage
        exact Option.map_eq_none_iff.1 hstage
      simp [Flow.setParent, hc.1, hc.2, Flow.isAttached_iff.2 hp, hfind, hremoved]
    rw [hrun]
    exact ⟨rfl, h⟩
  | some a =>
    have hput : ∃ flow', Flow.setParent id parent flow = (.ok (), flow') ∧
        ((t.detach id).put id parent).count.Stores flow' := by
      by_cases hid : id ∈ flow.stages.walk
      · exact h.move ha hid hc.1 hc.2 hp
      · exact h.putBack ha hid hstage hc.1 hc.2 hp
    obtain ⟨flow', hrun, hstores⟩ := hput
    rw [hrun]
    exact ⟨rfl, hstores⟩

/-- Putting a stage below another one ends, with what it returns and leaves on the flow. -/
theorem setParent (h : t.Stores flow) (ha : flow.Accounted) (id parent : Nat) :
    ∃ t', Ends (t.setParent id parent) ((Flow.setParent id parent flow).1, t') ∧
      t'.Stores (Flow.setParent id parent flow).2 := by
  -- only the search for the stage above the parent takes turns
  have hcycle : Ends (fun turns =>
        if id = parent then some true else t.isAncestor id parent turns)
      (decide (id = parent) || flow.stages.isAncestor id parent) := by
    by_cases hid : id = parent
    · simp only [if_pos hid, decide_eq_true hid, Bool.true_or]
      exact ⟨0, fun _ _ => rfl⟩
    · simp only [if_neg hid, decide_eq_false hid, Bool.false_or]
      exact h.ends_isAncestor ha id parent
  obtain ⟨hresult, hstores⟩ := h.reparent ha id parent rfl
  rw [← hresult]
  exact ⟨_, hcycle.map (t.reparent id parent), hstores⟩

/-- Adding a stage below another one ends, with what it returns and leaves on the flow, but for the
    name. -/
theorem addChild (h : t.Stores flow) (ha : flow.Accounted) (parent : Nat) (stage : Stage) :
    ∃ t', Ends (t.addChild parent stage)
      ((Flow.addChild parent stage flow).1.map fun _ => (), t') ∧
        t'.Stores (Flow.addChild parent stage flow).2 := by
  obtain ⟨t', hends, hstores⟩ := (h.add ha stage).setParent (ha.add stage) flow.next parent
  have hadd : Flow.addChild parent stage flow =
      (do Flow.setParent flow.next parent; pure flow.next : Edit FlowFault Nat)
        ((Flow.add stage : Edit FlowFault Nat) flow).2 := Run.bind_ok rfl
  -- in the table the new name is the number of entries
  have hchild : t.addChild parent stage = (t.add stage).setParent flow.next parent := by
    rw [← h.length]
    rfl
  rw [hchild, hadd]
  cases hset : Flow.setParent flow.next parent ((Flow.add stage : Edit FlowFault Nat) flow).2 with
  | mk result flow₂ =>
    rw [hset] at hends hstores
    cases result with
    | error fault =>
      rw [Run.bind_error hset]
      exact ⟨t', hends, hstores⟩
    | ok =>
      rw [Run.bind_ok hset]
      exact ⟨t', hends, hstores⟩

end Stores

end StageTable

/-- A change keeps every name at one place. -/
theorem Flow.Accounted.change {flow : Flow} (ha : flow.Accounted) (c : Change) :
    (c.apply flow).Accounted := by
  cases c with
  | edit operation => exact ha.apply operation
  | hold id stage => exact ha.updateStage id _

namespace StageTable

variable {t : StageTable} {flow : Flow}

/-- A change of a table that stores a flow ends.  It fails if and as it fails on the flow, and the
    table after it stores the flow after it. -/
theorem Stores.apply (h : t.Stores flow) (ha : flow.Accounted) (c : Change) :
    ∃ t', Ends (t.apply c) (c.result flow, t') ∧ t'.Stores (c.apply flow) := by
  -- a change without a search ends at once
  have hdone {x : Except FlowFault Unit × StageTable} (hrun : t.apply c = fun _ => some x)
      (hresult : x.1 = c.result flow) (hstores : x.2.Stores (c.apply flow)) :
      ∃ t', Ends (t.apply c) (c.result flow, t') ∧ t'.Stores (c.apply flow) :=
    ⟨x.2, ⟨0, fun turns _ => by rw [hrun, ← hresult]⟩, hstores⟩
  cases c with
  | hold id stage => exact hdone rfl rfl (h.hold id stage)
  | edit operation =>
    cases operation with
    | add stage => exact hdone rfl rfl (h.add ha stage)
    | addChild parent stage => exact h.addChild ha parent stage
    | setParent id parent => exact h.setParent ha id parent
    | remove id => exact hdone rfl (h.remove ha id).1 (h.remove ha id).2
    | swapWithParent id => exact hdone rfl (h.swapWithParent ha id).1 (h.swapWithParent ha id).2
    | merge keep other => exact hdone rfl (h.merge ha keep other).1 (h.merge ha keep other).2

/-- Whatever is asked for, one after the other, a table can be kept for the flow. -/
theorem stores_after (changes : List Change) :
    ∃ t, Ends (after changes) t ∧ t.Stores (Flow.afterChanges changes) ∧
      (Flow.afterChanges changes).Accounted := by
  -- the last change is split off, since it is made on what the others have left
  induction changes using List.reverseRecOn with
  | nil =>
    refine ⟨{}, ⟨0, fun _ _ => rfl⟩, ⟨⟨rfl, trivial⟩, ?_, rfl, rfl⟩, Flow.accounted_empty⟩
    exact List.forall_mem_nil _
  | append_singleton changes c ih =>
    obtain ⟨t, ⟨n, hn⟩, hstores, ha⟩ := ih
    obtain ⟨t', ⟨m, hm⟩, hstores'⟩ := hstores.apply ha c
    -- with enough turns for the others and for the last one
    refine ⟨t', ⟨max n m, fun turns hturns => ?_⟩, ?_, ?_⟩
    · have ht := hn turns (by omega)
      have hrun := hm turns (by omega)
      rw [after] at ht ⊢
      rw [List.foldlM_append, ht]
      simp [hrun]
    · rw [Flow.afterChanges] at hstores' ⊢
      rwa [List.foldl_append]
    · rw [Flow.afterChanges] at ha ⊢
      rw [List.foldl_append]
      exact ha.change c

/-- How the stages of a table hang together, by the links that are stored in it. -/
def Linked (t : StageTable) : Prop := Flow.LinkedBy t.roots t.parent? t.children t.isAttached

/-- The links that are stored for a flow are its links, so they keep in step with each other. -/
theorem Stores.linked (h : t.Stores flow) (ha : flow.Accounted) : t.Linked := by
  have hparent : t.parent? = flow.stages.parent? := funext (h.parent?_eq ha)
  have hchildren : t.children = flow.stages.children := funext (h.children_eq ha)
  have hattached : t.isAttached = flow.isAttached := funext (h.isAttached_eq ha)
  rw [Linked, h.shows.1, hparent, hchildren, hattached]
  exact ha.linked.toLinkedBy

end StageTable

/-- Edits of the structure are changes. -/
theorem Flow.afterChanges_edits (operations : List Operation) :
    afterChanges (operations.map .edit) = after operations :=
  List.foldl_map

/-- Whatever operations are asked for, one after the other, from the empty flow on, and whether they
    fail or not: the stages hang together as a forest, and so they do by the links that a table
    stores at both ends. -/
theorem Flow.linked_after (operations : List Operation) : (after operations).Linked ∧
    ∃ t, Ends (StageTable.after (operations.map .edit)) t ∧ t.Stores (after operations) ∧
      t.Linked := by
  obtain ⟨t, hends, hstores, ha⟩ := StageTable.stores_after (operations.map .edit)
  rw [afterChanges_edits] at hstores ha
  exact ⟨ha.linked, t, hends, hstores, hstores.linked ha⟩

end ChartPipeline
