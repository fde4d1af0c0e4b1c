import DirectoryStore.Attribute.AttributeMap
import DirectoryStore.Name.Basic

/-!
# Entries

An entry is a distinguished name with attributes.
-/

namespace DirectoryStore

/-- A name with its attributes. -/
structure Entry where
  dn : Dn
  attributes : AttributeMap
deriving DecidableEq

namespace Entry

/-- The same name with the same attributes. -/
def same (a b : Entry) : Bool :=
  a.dn.same b.dn && a.attributes.same b.attributes

/-- Whether a list of attribute types asks for every attribute. -/
def wantsAll (keys : List String) : Bool :=
  keys.isEmpty || keys.contains "*"

/-- The entry with only the attributes that `keys` names; an empty list, or one with `*` in
    it, names all. -/
def project (e : Entry) (keys : List String) : Entry :=
  if wantsAll keys then e
  else ⟨e.dn, e.attributes.filter fun s => keys.any (sameIgnoringCase s.key)⟩

end Entry
end DirectoryStore
