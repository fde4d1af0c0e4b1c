import DirectoryStore.Filter.Eval
import DirectoryStore.Tree.Edit

/-!
# Looking at a directory tree

A tree holds entries at nodes, which handles name.  The name of a child is that of its
parent with one relative name in front, and siblings have different relative names.

`TreeView` lists what a kind of tree lets one see; what follows from it, for any kind of
tree, is defined after it.  Walks through a tree recurse as deep as the tree is high, and
`height` bounds that.
-/

namespace DirectoryStore

/-- Trees `τ` whose nodes are named by handles `ν`. -/
class TreeView (τ : Type) (ν : outParam Type) where
  /-- The top node. -/
  root : τ → ν
  /-- The name of a node. -/
  dn : τ → ν → Except TreeError Dn
  /-- The entry at a node. -/
  entry : τ → ν → Except TreeError Entry
  /-- The node above; the root has none. -/
  parent : τ → ν → Except TreeError (Option ν)
  /-- The nodes directly below. -/
  children : τ → ν → Except TreeError (List ν)
  /-- The node directly below that has the given relative name. -/
  child : τ → ν → Rdn → Except TreeError (Option ν)
  /-- A number of levels that no way down from a node exceeds. -/
  height : τ → Nat

namespace Tree

variable {τ ν : Type} [TreeView τ ν]

open TreeView

/-- The most specific relative name, which the empty name lacks. -/
def leaf (d : Dn) : Except TreeError Rdn :=
  match d.leaf? with
  | some r => .ok r
  | none => .error (.name .emptyDn)

/-- The name directly above, which the empty name lacks. -/
def above (d : Dn) : Except TreeError Dn :=
  match d.up? with
  | some up => .ok up
  | none => .error (.name .emptyDn)

/-- Goes down from a node along relative names, the topmost first. -/
def descend (t : τ) (target : Dn) : List Rdn → ν → Except TreeError ν
  | [], node => .ok node
  | r :: rs, node =>
      match child t node r with
      | .error e => .error e
      | .ok none => .error (.notFound target)
      | .ok (some below) => descend t target rs below

/-- The node of a name, at or below `base`. -/
def lookup (t : τ) (base : ν) (target : Dn) : Except TreeError ν :=
  match dn t base with
  | .error e => .error e
  | .ok baseDn =>
      match baseDn.relative? target with
      | none => .error (.notFound target)
      | some rs => descend t target rs.reverse base

/-- Joins lists that are found for each of `xs`, up to the first fault. -/
def gather {α β : Type} (f : α → Except TreeError (List β)) : List α → Except TreeError (List β)
  | [] => .ok []
  | x :: xs =>
      match f x with
      | .error e => .error e
      | .ok here =>
          match gather f xs with
          | .error e => .error e
          | .ok rest => .ok (here ++ rest)

/-- A node and all below it, at most `depth` levels, each node before those below it. -/
def preorder (t : τ) : Nat → ν → Except TreeError (List ν)
  | 0, node => .ok [node]
  | depth + 1, node =>
      match children t node with
      | .error e => .error e
      | .ok below =>
          match gather (preorder t depth) below with
          | .error e => .error e
          | .ok rest => .ok (node :: rest)

/-- A node and all below it, each node before those below it. -/
def subtree (t : τ) (node : ν) : Except TreeError (List ν) :=
  preorder t (height t) node

/-- Visits nodes one by one, until a visit fails.  A visit keeps what it has gathered in a
    state of its own. -/
def visitAll {σ : Type} (visit : ν → Edit σ Unit) : List ν → Edit σ Unit
  | [] => pure ()
  | node :: nodes => do
      visit node
      visitAll visit nodes

/-- Visits the nodes directly below a node. -/
def visitChildren {σ : Type} (t : τ) (node : ν) (visit : ν → Edit σ Unit) : Edit σ Unit := do
  visitAll visit (← Edit.ofExcept (children t node))

/-- Visits a node and all below it, at most `depth` levels, in preorder. -/
def visitLevels {σ : Type} (t : τ) (visit : ν → Edit σ Unit) : Nat → ν → Edit σ Unit
  | 0, node => visit node
  | depth + 1, node => do
      visit node
      visitAll (visitLevels t visit depth) (← Edit.ofExcept (children t node))

/-- Visits a node and all below it in preorder.  A node is visited before what is below it is
    looked for. -/
def visitSubtree {σ : Type} (t : τ) (node : ν) (visit : ν → Edit σ Unit) : Edit σ Unit :=
  visitLevels t visit (height t) node

/-- Whether the entry at a node satisfies a filter. -/
def accepts (t : τ) (node : ν) (filter : Filter) : Except TreeError Bool :=
  match entry t node with
  | .error e => .error e
  | .ok found => .ok (filter.accepts found)

end Tree
end DirectoryStore
