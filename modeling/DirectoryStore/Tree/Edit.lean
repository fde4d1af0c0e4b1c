import DirectoryStore.Tree.Error

/-!
# Edits of a tree

An edit takes a tree to a result or a fault and to the tree afterwards.  A failing edit
may have changed the tree: edits in sequence are not undone when a later one fails.
-/

namespace DirectoryStore

/-- What becomes of a tree `τ`: a result or a fault, and the tree afterwards. -/
def Edit (τ α : Type) : Type :=
  τ → Except TreeError α × τ

namespace Edit

variable {τ α β : Type}

/-- Leaves the tree alone. -/
def pure (a : α) : Edit τ α :=
  fun t => (.ok a, t)

/-- Goes on with the result of an edit, unless it failed. -/
def bind (x : Edit τ α) (f : α → Edit τ β) : Edit τ β :=
  fun t =>
    match x t with
    | (.ok a, t') => f a t'
    | (.error e, t') => (.error e, t')

instance : Monad (Edit τ) where
  pure := pure
  bind := bind

/-- Fails and leaves the tree alone. -/
def fail (e : TreeError) : Edit τ α :=
  fun t => (.error e, t)

/-- Looks at the tree. -/
def look (f : τ → Except TreeError α) : Edit τ α :=
  fun t => (f t, t)

/-- A result or a fault that does not depend on the tree. -/
def ofExcept (x : Except TreeError α) : Edit τ α :=
  fun t => (x, t)

/-- Changes the tree as a whole; if that fails the tree stays as it was. -/
def change (f : τ → Except TreeError (α × τ)) : Edit τ α :=
  fun t =>
    match f t with
    | .ok (a, t') => (.ok a, t')
    | .error e => (.error e, t)

end Edit
end DirectoryStore
