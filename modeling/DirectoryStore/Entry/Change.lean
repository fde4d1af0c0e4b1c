import DirectoryStore.Entry.Modification

/-!
# Changes

A change adds an entry to a tree, deletes one, or modifies the attributes of one.
-/

namespace DirectoryStore

/-- A change of one entry of a tree. -/
inductive Change where
  | add (entry : Entry)
  | delete (dn : Dn)
  | modify (dn : Dn) (edits : List Modification)
deriving DecidableEq

namespace Change

/-- The name of the entry that is changed. -/
def dn : Change → Dn
  | add entry => entry.dn
  | delete dn => dn
  | modify dn _ => dn

/-- Edits that agree one by one. -/
def sameEdits : List Modification → List Modification → Bool
  | [], [] => true
  | m :: ms, n :: ns => m.same n && sameEdits ms ns
  | _, _ => false

/-- The same kind of change of the same entry with the same operands. -/
def same : Change → Change → Bool
  | add e, add f => e.same f
  | delete d, delete d' => d.same d'
  | modify d ms, modify d' ns => d.same d' && sameEdits ms ns
  | _, _ => false

end Change
end DirectoryStore
