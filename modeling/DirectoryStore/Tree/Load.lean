import DirectoryStore.Ldif.Reader
import DirectoryStore.Tree.Contract

/-!
# Filling a tree

A tree takes entries from an LDIF document or from another tree.  In a document the
record of a parent comes before those of its children.  Another tree is read while the copy
grows, so that a tree in the same files shows what has been copied already.
-/

namespace DirectoryStore
namespace Tree

open TreeView DirectoryTree

section Load

variable {τ ν : Type} [DirectoryTree τ ν]

/-- Stores an entry at or below `base`, whose name is `baseDn`: an entry of that name replaces
    the attributes of the base, any other one is added below the node of the name above it. -/
def loadEntry (base : ν) (baseDn : Dn) (e : Entry) : Edit τ Unit :=
  if e.dn.same baseDn then setAttributes base e.attributes
  else do
    let up ← Edit.ofExcept (above e.dn)
    let node ← Edit.look fun t : τ => lookup t base up
    let _ ← addChild node (← Edit.ofExcept (leaf e.dn)) e.attributes

/-- Stores entries one after another, up to the first that fails. -/
def loadEntries (base : ν) (baseDn : Dn) : List Entry → Edit τ Unit
  | [] => pure ()
  | e :: es => do
      loadEntry base baseDn e
      loadEntries base baseDn es

/-- Stores the entries of a document at or below `base` and counts them. -/
def loadLdif (base : ν) (text : String) : Edit τ Nat := do
  let baseDn ← Edit.look fun t : τ => dn t base
  match Ldif.parseEntries text with
  | .error e => Edit.fail (.ldif e)
  | .ok es => do
      loadEntries base baseDn es
      return es.length

end Load

section Copy

variable {σ μ τ ν : Type} [TreeView σ μ] [DirectoryTree τ ν]

/-- Adds copies of nodes below `target`, each with what is below it as `deeper` copies it, and
    counts them.  `see` shows the source while the target is in a given state: a source of its
    own stays the same, one that stands in the same files changes with them. -/
def copyEach (see : τ → σ) (deeper : μ → ν → Edit τ Nat) (target : ν) : List μ → Edit τ Nat
  | [] => pure 0
  | node :: nodes => do
      let e ← Edit.look fun t => entry (see t) node
      let copy ← addChild target (← Edit.ofExcept (leaf e.dn)) e.attributes
      let below ← deeper node copy
      let rest ← copyEach see deeper target nodes
      return 1 + below + rest

/-- Adds copies of all that is below `node`, at most `depth` levels, below `target`. -/
def copyChildren (see : τ → σ) : Nat → μ → ν → Edit τ Nat
  | 0, _, _ => pure 0
  | depth + 1, node, target => do
      copyEach see (copyChildren see depth) target (← Edit.look fun t => children (see t) node)

/-- Makes `target`, which has no children, a copy of `node` and of all below it, and counts the
    nodes.  The target keeps its own name. -/
def copyTree (see : τ → σ) (node : μ) (target : ν) : Edit τ Nat := do
  let e ← Edit.look fun t => entry (see t) node
  setAttributes target e.attributes
  let depth ← Edit.look fun t => .ok (height (see t))
  let below ← copyChildren see depth node target
  return 1 + below

end Copy

end Tree
end DirectoryStore
