import DirectoryStore.Tree.Contract

/-!
# Trees in memory

Nodes live in a table of slots.  A slot that a deletion frees is used again before the
table grows, the last one freed first, but under a new generation, which a handle records:
so a handle to a deleted node does not lead to the node that took its slot.

Children keep the order in which they came.  A node holds its relative name and the handle
of its parent; its name is found on the way up, and a move only links one node anew.

Edits change the table step by step.  A step that takes the node of a handle fails if the
handle is stale, and then what the steps before it changed stays changed.  `addChild`,
`deleteChild` and `moveTo` say what the edits come to as a whole.
-/

namespace DirectoryStore

/-- A handle: a slot, and its generation at the time. -/
structure NodeId where
  index : Nat
  generation : UInt32
deriving DecidableEq, Repr

/-- What a slot holds. -/
structure MemoryNode where
  /-- The parent, and the relative name below it; the root has neither. -/
  place : Option (NodeId × Rdn)
  attributes : AttributeMap
  children : List NodeId
deriving DecidableEq

/-- A slot.  Its generation grows by one when it is freed, and starts again at zero after the
    greatest number of its width. -/
structure Slot where
  generation : UInt32
  node : Option MemoryNode
deriving DecidableEq

/-- A tree in memory. -/
structure MemoryTree where
  rootDn : Dn
  slots : List Slot
  /-- The free slots, the last one freed first. -/
  free : List Nat
deriving DecidableEq

namespace MemoryTree

/-- The handle of the root. -/
def rootId : NodeId := ⟨0, 0⟩

/-- The tree of one entry. -/
def ofRoot (e : Entry) : MemoryTree :=
  ⟨e.dn, [⟨0, some ⟨none, e.attributes, []⟩⟩], []⟩

/-- The tree of one entry without attributes. -/
def ofDn (d : Dn) : MemoryTree :=
  ofRoot ⟨d, .empty⟩

/-- The tree of the empty name. -/
def start : MemoryTree :=
  ofDn .empty

/-- The number of nodes. -/
def nodeCount (t : MemoryTree) : Nat :=
  t.slots.length - t.free.length

/-- The node of a handle. -/
def node? (t : MemoryTree) (id : NodeId) : Option MemoryNode :=
  match t.slots[id.index]? with
  | none => none
  | some slot => if slot.generation = id.generation then slot.node else none

/-- The node of a handle, which is stale if there is none. -/
def node (t : MemoryTree) (id : NodeId) : Except TreeError MemoryNode :=
  match t.node? id with
  | some n => .ok n
  | none => .error .staleHandle

/-- Changes the node of a handle. -/
def modifyNode (t : MemoryTree) (id : NodeId) (f : MemoryNode → MemoryNode) : MemoryTree :=
  { t with slots := t.slots.modify id.index fun slot => { slot with node := slot.node.map f } }

/-- Puts a node into a free slot, or into a new one if none is free. -/
def insert (t : MemoryTree) (n : MemoryNode) : NodeId × MemoryTree :=
  match t.free with
  | [] => (⟨t.slots.length, 0⟩, { t with slots := t.slots ++ [⟨0, some n⟩] })
  | index :: free =>
      let generation := (t.slots[index]?.map Slot.generation).getD 0
      (⟨index, generation⟩, { t with slots := t.slots.set index ⟨generation, some n⟩, free })

/-- Frees a slot. -/
def release (t : MemoryTree) (id : NodeId) : MemoryTree :=
  { t with
    slots := t.slots.modify id.index fun slot => ⟨slot.generation + 1, none⟩
    free := id.index :: t.free }

/-- The relative names on the way from a node up, the root's excepted.  A way has no more than
    `steps` of them. -/
def rdnsAbove (t : MemoryTree) : Nat → NodeId → Except TreeError (List Rdn)
  | steps, id =>
      match t.node id with
      | .error e => .error e
      | .ok n =>
          match n.place, steps with
          | none, _ => .ok []
          | some _, 0 => .error .staleHandle
          | some (up, r), steps + 1 =>
              match rdnsAbove t steps up with
              | .error e => .error e
              | .ok rs => .ok (r :: rs)

/-- The name of a node. -/
def dn (t : MemoryTree) (id : NodeId) : Except TreeError Dn :=
  match t.rdnsAbove t.slots.length id with
  | .error e => .error e
  | .ok rs => .ok ⟨rs ++ t.rootDn.rdns⟩

/-- The entry at a node. -/
def entry (t : MemoryTree) (id : NodeId) : Except TreeError Entry :=
  match t.node id with
  | .error e => .error e
  | .ok n =>
      match t.dn id with
      | .error e => .error e
      | .ok d => .ok ⟨d, n.attributes⟩

/-- The parent of a node. -/
def parent (t : MemoryTree) (id : NodeId) : Except TreeError (Option NodeId) :=
  match t.node id with
  | .error e => .error e
  | .ok n => .ok (n.place.map Prod.fst)

/-- The children of a node, in the order in which they came. -/
def children (t : MemoryTree) (id : NodeId) : Except TreeError (List NodeId) :=
  match t.node id with
  | .error e => .error e
  | .ok n => .ok n.children

/-- The first of some nodes that has the given relative name.  Those before it must be there. -/
def firstNamed (t : MemoryTree) (r : Rdn) : List NodeId → Except TreeError (Option NodeId)
  | [] => .ok none
  | id :: ids =>
      match t.node id with
      | .error e => .error e
      | .ok n => if n.place.any fun p => p.2.same r then .ok (some id) else firstNamed t r ids

/-- The child of the given relative name. -/
def child (t : MemoryTree) (id : NodeId) (r : Rdn) : Except TreeError (Option NodeId) :=
  match t.children id with
  | .error e => .error e
  | .ok below => t.firstNamed r below

/-! ## What edits come to -/

/-- Adds a child as the last one. -/
def addChild (t : MemoryTree) (id : NodeId) (r : Rdn) (attributes : AttributeMap) :
    Except TreeError (NodeId × MemoryTree) := do
  let d ← t.dn id
  match ← t.child id r with
  | some _ => .error (.alreadyExists (d.child r))
  | none =>
      let (added, t') := t.insert ⟨some (id, r), attributes, []⟩
      return (added, t'.modifyNode id fun n => { n with children := n.children ++ [added] })

/-- Takes a child off the list of its parent. -/
def unlink (t : MemoryTree) (up id : NodeId) : MemoryTree :=
  t.modifyNode up fun n => { n with children := n.children.filter (· ≠ id) }

/-- Deletes a child that has no children. -/
def deleteChild (t : MemoryTree) (id : NodeId) (r : Rdn) :
    Except TreeError (Unit × MemoryTree) := do
  match ← t.child id r with
  | none => .error (.notFound ((← t.dn id).child r))
  | some found =>
      let d ← t.dn found
      if (← t.children found).isEmpty then return ((), (t.unlink id found).release found)
      else .error (.notLeaf d)

/-- Replaces the attributes of a node. -/
def setAttributes (t : MemoryTree) (id : NodeId) (attributes : AttributeMap) :
    Except TreeError (Unit × MemoryTree) := do
  let _ ← t.node id
  return ((), t.modifyNode id fun n => { n with attributes })

instance : TreeView MemoryTree NodeId where
  root _ := rootId
  dn := dn
  entry := entry
  parent := parent
  children := children
  child := child
  height t := t.slots.length

/-- Moves a node to another name, as the last child of the node of the name above. -/
def moveTo (t : MemoryTree) (id : NodeId) (target : Dn) :
    Except TreeError (NodeId × MemoryTree) := do
  let d ← t.dn id
  match ← t.parent id with
  | none => .error (.rootStays d)
  | some up =>
      if d.same target then .error (.alreadyExists d)
      else if d.contains target then .error (.invalidMove d target)
      else
        let newUp ← Tree.lookup t rootId (← Tree.above target)
        let r ← Tree.leaf target
        if (← t.child newUp r).isSome then .error (.alreadyExists target)
        else
          let linked := (t.unlink up id).modifyNode newUp fun n =>
            { n with children := n.children ++ [id] }
          return (id, linked.modifyNode id fun n => { n with place := some (newUp, r) })

/-! ## Edits -/

/-- Changes the node of a handle, which must not be stale. -/
def alter (id : NodeId) (f : MemoryNode → MemoryNode) : Edit MemoryTree Unit :=
  Edit.change fun t =>
    match t.node id with
    | .error e => .error e
    | .ok _ => .ok ((), t.modifyNode id f)

/-- Adds a child as the last one: puts it into a slot, then links it. -/
def grow (id : NodeId) (r : Rdn) (attributes : AttributeMap) : Edit MemoryTree NodeId := do
  let d ← Edit.look fun t : MemoryTree => t.dn id
  match ← Edit.look fun t : MemoryTree => t.child id r with
  | some _ => Edit.fail (.alreadyExists (d.child r))
  | none => do
      let added ← Edit.change fun t : MemoryTree => .ok (t.insert ⟨some (id, r), attributes, []⟩)
      alter id fun n => { n with children := n.children ++ [added] }
      return added

/-- Deletes a child that has no children: unlinks it, then frees its slot. -/
def prune (id : NodeId) (r : Rdn) : Edit MemoryTree Unit := do
  match ← Edit.look fun t : MemoryTree => t.child id r with
  | none => do
      let d ← Edit.look fun t : MemoryTree => t.dn id
      Edit.fail (.notFound (d.child r))
  | some found => do
      let d ← Edit.look fun t : MemoryTree => t.dn found
      let below ← Edit.look fun t : MemoryTree => t.children found
      if below.isEmpty then do
        alter id fun n => { n with children := n.children.filter (· ≠ found) }
        Edit.change fun t : MemoryTree => .ok ((), t.release found)
      else Edit.fail (.notLeaf d)

/-- Moves a node to another name: takes it off the list of its parent, appends it to that of the
    node of the name above, and gives it its new place. -/
def relink (id : NodeId) (target : Dn) : Edit MemoryTree NodeId := do
  let d ← Edit.look fun t : MemoryTree => t.dn id
  match ← Edit.look fun t : MemoryTree => t.parent id with
  | none => Edit.fail (.rootStays d)
  | some up =>
      if d.same target then Edit.fail (.alreadyExists d)
      else if d.contains target then Edit.fail (.invalidMove d target)
      else do
        let above ← Edit.ofExcept (Tree.above target)
        let newUp ← Edit.look fun t : MemoryTree => Tree.lookup t rootId above
        let r ← Edit.ofExcept (Tree.leaf target)
        if (← Edit.look fun t : MemoryTree => t.child newUp r).isSome then
          Edit.fail (.alreadyExists target)
        else do
          alter up fun n => { n with children := n.children.filter (· ≠ id) }
          alter newUp fun n => { n with children := n.children ++ [id] }
          alter id fun n => { n with place := some (newUp, r) }
          return id

instance : DirectoryTree MemoryTree NodeId where
  addChild := grow
  deleteChild := prune
  setAttributes id attributes := alter id fun n => { n with attributes }
  moveTo := relink

end MemoryTree
end DirectoryStore
