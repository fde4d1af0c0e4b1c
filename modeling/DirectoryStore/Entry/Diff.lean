import DirectoryStore.Entry.Change

/-!
# Difference of two entries

The edits that turn the attributes of one entry into those of another: first whole
attributes to add, then whole attributes to delete, then for each shared attribute the
values to add and the values to delete; within each group by attribute type.
-/

namespace DirectoryStore
namespace AttributeMap

/-- The edits of an attribute that both sides have. -/
def sharedEdits (ours theirs : AttributeSet) : List Modification :=
  let gained := theirs.diff ours
  let lost := ours.diff theirs
  (if gained.values.isEmpty then [] else [⟨.add, gained⟩]) ++
    (if lost.values.isEmpty then [] else [⟨.delete, lost⟩])

/-- The edits that turn `m` into `n`. -/
def edits (m n : AttributeMap) : List Modification :=
  (n.sets.filter fun s => !m.contains s.key).map (⟨.add, ·⟩) ++
    (m.sets.filter fun s => !n.contains s.key).map (⟨.delete, ·⟩) ++
    n.sets.flatMap fun theirs =>
      match m.get? theirs.key with
      | some ours => sharedEdits ours theirs
      | none => []

end AttributeMap

/-- Two entries that have to be of one name and are not. -/
structure NameMismatch where
  ours : Dn
  theirs : Dn
deriving DecidableEq, Repr

namespace Entry

/-- The change that turns the attributes of `a` into those of `b`, unless they are the same
    already.  Both have to be of one name. -/
def diff (a b : Entry) : Except NameMismatch (Option Change) :=
  if !a.dn.same b.dn then .error ⟨a.dn, b.dn⟩
  else if a.attributes.same b.attributes then .ok none
  else .ok (some (.modify a.dn (a.attributes.edits b.attributes)))

end Entry
end DirectoryStore
