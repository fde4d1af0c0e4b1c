import DirectoryStore.Filter.Reader
import DirectoryStore.Tree.View

/-!
# Searching a tree

A search delivers the entries in its scope that satisfy its filter, in preorder, up to
its limit.  Which attributes it returns has no influence on which entries it delivers.
-/

namespace DirectoryStore

/-- Which nodes a search looks at. -/
inductive Scope where
  /-- The base alone. -/
  | base
  /-- The nodes directly below the base. -/
  | oneLevel
  /-- The base and all below it. -/
  | subtree
deriving DecidableEq, Repr

/-- What to search for. -/
structure SearchRequest where
  filter : Filter
  scope : Scope
  /-- The greatest number of entries; none and zero stand for no limit. -/
  sizeLimit : Option Nat
  /-- The attributes to return; none and a star stand for all. -/
  attributes : List String
deriving DecidableEq

namespace SearchRequest

/-- The request for all entries with a class. -/
def all : SearchRequest :=
  ⟨.item (.present "objectClass"), .subtree, none, []⟩

/-- The limit that holds. -/
def limit? (q : SearchRequest) : Option Nat :=
  q.sizeLimit.filter (0 < ·)

end SearchRequest

namespace Tree

variable {τ ν : Type} [TreeView τ ν]

open TreeView

/-- The nodes in scope. -/
def inScope (t : τ) (base : ν) : Scope → Except TreeError (List ν)
  | .base => .ok [base]
  | .oneLevel => children t base
  | .subtree => subtree t base

/-- Hands what a search delivers from nodes to `take`, after `count` entries have been delivered:
    their number with those before.  `take` may fail, which ends the search. -/
def deliverTo {σ : Type} (t : τ) (q : SearchRequest) (take : Entry → Edit σ Unit) (count : Nat) :
    List ν → Edit σ Nat
  | [] => pure count
  | node :: nodes =>
      if q.limit?.any (· ≤ count) then pure count
      else do
        let found ← Edit.ofExcept (entry t node)
        if q.filter.accepts found then
          take (found.project q.attributes)
          deliverTo t q take (count + 1) nodes
        else deliverTo t q take count nodes

/-- Searches and hands the entries to `take`, which keeps what it has gathered in a state of its
    own. -/
def searchTo {σ : Type} (t : τ) (base : ν) (q : SearchRequest) (take : Entry → Edit σ Unit) :
    Edit σ Nat := do
  deliverTo t q take 0 (← Edit.ofExcept (inScope t base q.scope))

/-- What is delivered from nodes to one who takes all of it, after `count` entries have been
    delivered: the entries, and their number with those before, or the fault that ended the
    search. -/
def deliver (t : τ) (q : SearchRequest) (count : Nat) :
    List ν → List Entry × Except TreeError Nat
  | [] => ([], .ok count)
  | node :: nodes =>
      if q.limit?.any (· ≤ count) then ([], .ok count)
      else match entry t node with
        | .error e => ([], .error e)
        | .ok found =>
            if q.filter.accepts found then
              let rest := deliver t q (count + 1) nodes
              (found.project q.attributes :: rest.1, rest.2)
            else deliver t q count nodes

/-- The entries that a search delivers to one who takes all of them, and their number or the fault
    that ended it. -/
def searchWith (t : τ) (base : ν) (q : SearchRequest) : List Entry × Except TreeError Nat :=
  match inScope t base q.scope with
  | .error e => ([], .error e)
  | .ok nodes => deliver t q 0 nodes

/-- The entries that a search delivers, unless it ends with a fault. -/
def search (t : τ) (base : ν) (q : SearchRequest) : Except TreeError (List Entry) :=
  match searchWith t base q with
  | (_, .error e) => .error e
  | (found, .ok _) => .ok found

/-- The entries in scope that satisfy a filter given as text. -/
def searchText (t : τ) (base : ν) (filter : String) (scope : Scope) :
    Except TreeError (List Entry) :=
  match Filter.parse filter with
  | .error e => .error (.filter e)
  | .ok f => search t base { SearchRequest.all with filter := f, scope }

end Tree
end DirectoryStore
