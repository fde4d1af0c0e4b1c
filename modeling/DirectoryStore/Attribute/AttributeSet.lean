import DirectoryStore.Attribute.ValueSet
import DirectoryStore.Text.Ascii

/-!
# The values of one attribute

An attribute set binds a set of values to an attribute type.  The type keeps its
spelling and is compared without regard to ASCII case.
-/

namespace DirectoryStore

/-- An attribute type and a set of values. -/
structure AttributeSet where
  key : String
  values : ValueSet
deriving DecidableEq

namespace AttributeSet

/-- The type in lower case, which decides about sameness and order. -/
def foldedKey (s : AttributeSet) : String :=
  foldCase s.key

/-- The set with the values of a list. -/
def ofList (key : String) (values : List Value) : AttributeSet :=
  ⟨key, ValueSet.ofList values⟩

/-- The same type, and the same values. -/
def same (s t : AttributeSet) : Bool :=
  s.foldedKey == t.foldedKey && s.values == t.values

/-- The type of `s` with the values of either set. -/
def union (s t : AttributeSet) : AttributeSet :=
  ⟨s.key, s.values.union t.values⟩

/-- The type of `s` with the values of both sets. -/
def inter (s t : AttributeSet) : AttributeSet :=
  ⟨s.key, s.values.inter t.values⟩

/-- The type of `s` with its values that are not in `t`. -/
def diff (s t : AttributeSet) : AttributeSet :=
  ⟨s.key, s.values.diff t.values⟩

/-- The type of `s` with the values of just one of the sets. -/
def symmDiff (s t : AttributeSet) : AttributeSet :=
  ⟨s.key, s.values.symmDiff t.values⟩

end AttributeSet
end DirectoryStore
