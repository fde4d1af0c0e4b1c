import DirectoryStore.Entry.Change
import DirectoryStore.Tree.View

/-!
# Changing a directory tree

`DirectoryTree` lists the edits that a kind of tree provides.  The root is never removed.
What follows for any kind of tree is defined after it: deletion by handle, modification,
and changes by name.
-/

namespace DirectoryStore

/-- Trees that can be changed. -/
class DirectoryTree (τ : Type) (ν : outParam Type) extends TreeView τ ν where
  /-- Adds a node directly below. -/
  addChild : ν → Rdn → AttributeMap → Edit τ ν
  /-- Deletes the node directly below that has the given relative name; it must have none
      below itself. -/
  deleteChild : ν → Rdn → Edit τ Unit
  /-- Replaces all attributes of a node. -/
  setAttributes : ν → AttributeMap → Edit τ Unit
  /-- Moves a node, and all below it, to another name.  The handle after the move may be a
      different one. -/
  moveTo : ν → Dn → Edit τ ν

namespace Tree

variable {τ ν : Type} [DirectoryTree τ ν]

open TreeView DirectoryTree

/-- Deletes a node without children. -/
def delete (node : ν) : Edit τ Unit := do
  let d ← Edit.look fun t : τ => dn t node
  match ← Edit.look fun t : τ => parent t node with
  | none => Edit.fail (.rootStays d)
  | some up => deleteChild up (← Edit.ofExcept (leaf d))

/-- Applies edits to the attributes of a node: all of them, or if one fails none. -/
def modify (node : ν) (edits : List Modification) : Edit τ Unit := do
  let found ← Edit.look fun t : τ => entry t node
  match Modification.applyAll edits found.attributes with
  | (_, some e) => Edit.fail (.entry e)
  | (attributes, none) => setAttributes node attributes

/-- Carries out a change at the node that its name leads to from the root. -/
def patch (c : Change) : Edit τ Unit :=
  match c with
  | .modify target edits => do
      modify (← Edit.look fun t : τ => lookup t (root t) target) edits
  | .delete target => do
      delete (← Edit.look fun t : τ => lookup t (root t) target)
  | .add e => do
      let up ← Edit.ofExcept (above e.dn)
      let node ← Edit.look fun t : τ => lookup t (root t) up
      let _ ← addChild node (← Edit.ofExcept (leaf e.dn)) e.attributes

/-- Carries out changes one after another, up to the first that fails, and counts them. -/
def patchAll : List Change → Edit τ Nat
  | [] => pure 0
  | c :: cs => do
      patch c
      let rest ← patchAll cs
      return rest + 1

end Tree
end DirectoryStore
