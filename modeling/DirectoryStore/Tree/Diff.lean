import DirectoryStore.Entry.Diff
import DirectoryStore.Tree.View

/-!
# Difference of two trees

The changes that turn what is below one node into what is below another: first the
modification of the nodes themselves, then the changes of the children that both have,
then the additions of what only the second has, parents first, then the deletions of what
only the first has, children first.  Siblings are taken in the order of their names, so
the result depends on nothing but the entries.
-/

namespace DirectoryStore

/-- Why two trees cannot be compared. -/
inductive DiffError where
  /-- The nodes to start from have different names. -/
  | rootMismatch (ours theirs : Dn)
  /-- Entries of different names came to be compared below nodes of the same name. -/
  | entryMismatch (cause : NameMismatch)
  | tree (cause : TreeError)
deriving DecidableEq

/-- The wording of an error. -/
def DiffError.message : DiffError → String
  | rootMismatch ours theirs => s!"cannot diff {ours.text} against {theirs.text}: names differ"
  | entryMismatch cause =>
    s!"cannot diff {cause.ours.text} against {cause.theirs.text}: names differ"
  | tree cause => s!"tree error: {cause.message}"

namespace Tree

open TreeView

/-- Passes on the fault of a tree. -/
def inTree {α : Type} : Except TreeError α → Except DiffError α
  | .ok a => .ok a
  | .error e => .error (.tree e)

section Single

variable {τ ν : Type} [TreeView τ ν]

/-- Nodes with their relative names, in the order of these. -/
def named (t : τ) : List ν → Except TreeError (List (Rdn × ν))
  | [] => .ok []
  | node :: nodes =>
      match dn t node with
      | .error e => .error e
      | .ok d =>
          match named t nodes with
          | .error e => .error e
          | .ok rest =>
              match d.leaf? with
              | none => .ok rest
              | some r =>
                  if rest.any fun x => x.1.same r then .ok rest
                  else .ok (Rising.put (fun x : Rdn × ν => x.1.key) (r, node) rest)

/-- The nodes directly below a node, with their relative names and in the order of these. -/
def childrenByRdn (t : τ) (node : ν) : Except TreeError (List (Rdn × ν)) :=
  match children t node with
  | .error e => .error e
  | .ok below => named t below

/-- The child of a relative name. -/
def childNamed (r : Rdn) (below : List (Rdn × ν)) : Option ν :=
  (Rising.find? (fun x : Rdn × ν => x.1.key) r.key below).map Prod.snd

/-- The additions of a node and of all below it, at most `depth` levels, parents first. -/
def additions (t : τ) : Nat → ν → Except TreeError (List Change)
  | depth, node =>
      match entry t node with
      | .error e => .error e
      | .ok found =>
          match depth with
          | 0 => .ok [.add found]
          | depth + 1 =>
              match childrenByRdn t node with
              | .error e => .error e
              | .ok below =>
                  match gather (fun x => additions t depth x.2) below with
                  | .error e => .error e
                  | .ok rest => .ok (.add found :: rest)

/-- The deletions of a node and of all below it, at most `depth` levels, children first. -/
def deletions (t : τ) : Nat → ν → Except TreeError (List Change)
  | depth, node =>
      match depth with
      | 0 =>
          match dn t node with
          | .error e => .error e
          | .ok d => .ok [.delete d]
      | depth + 1 =>
          match childrenByRdn t node with
          | .error e => .error e
          | .ok below =>
              match gather (fun x => deletions t depth x.2) below with
              | .error e => .error e
              | .ok rest =>
                  match dn t node with
                  | .error e => .error e
                  | .ok d => .ok (rest ++ [.delete d])

end Single

section Pair

variable {σ μ τ ν : Type} [TreeView σ μ] [TreeView τ ν]

/-- Joins the changes that are found for each of `xs`, up to the first error. -/
def gatherChanges {α : Type} (f : α → Except DiffError (List Change)) :
    List α → Except DiffError (List Change)
  | [] => .ok []
  | x :: xs => do
      let here ← f x
      let rest ← gatherChanges f xs
      return here ++ rest

/-- The changes that turn `ours` into `theirs`, with all that is below them, at most `depth`
    levels. -/
def diffNodes (a : σ) (b : τ) : Nat → μ → ν → Except DiffError (List Change)
  | depth, ours, theirs => do
      let ourEntry ← inTree (entry a ours)
      let theirEntry ← inTree (entry b theirs)
      let own ← match ourEntry.diff theirEntry with
        | .ok change => .ok change.toList
        | .error cause => .error (.entryMismatch cause)
      match depth with
      | 0 => return own
      | depth + 1 =>
          let ourBelow ← inTree (childrenByRdn a ours)
          let theirBelow ← inTree (childrenByRdn b theirs)
          let shared ← gatherChanges (fun x => match childNamed x.1 theirBelow with
            | some other => diffNodes a b depth x.2 other
            | none => .ok []) ourBelow
          let added ← inTree (gather (fun x => additions b depth x.2)
            (theirBelow.filter fun x => (childNamed x.1 ourBelow).isNone))
          let deleted ← inTree (gather (fun x => deletions a depth x.2)
            (ourBelow.filter fun x => (childNamed x.1 theirBelow).isNone))
          return own ++ shared ++ added ++ deleted

/-- The changes that turn what is at and below `ours` into what is at and below `theirs`.  The
    two nodes must have the same name. -/
def diffSubtrees (a : σ) (ours : μ) (b : τ) (theirs : ν) : Except DiffError (List Change) := do
  let ourEntry ← inTree (entry a ours)
  let theirEntry ← inTree (entry b theirs)
  if !ourEntry.dn.same theirEntry.dn then .error (.rootMismatch ourEntry.dn theirEntry.dn)
  else diffNodes a b (height a + height b) ours theirs

/-- The changes that turn one tree into another. -/
def diffTrees (a : σ) (b : τ) : Except DiffError (List Change) :=
  diffSubtrees a (root a) b (root b)

end Pair

end Tree
end DirectoryStore
