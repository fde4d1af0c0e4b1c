import DirectoryStore.Attribute.AttributeSet

/-!
# Attributes of an entry

A map holds one attribute set for each attribute type, in the order of the types in
lower case, and no set in it is empty.  An attribute that loses its last value is gone,
and its spelling with it.
-/

namespace DirectoryStore

/-- Attribute sets by type. -/
structure AttributeMap where
  sets : List AttributeSet
  rising : Rising AttributeSet.foldedKey sets
  nonempty : ∀ s ∈ sets, s.values.isEmpty = false
deriving DecidableEq

namespace AttributeMap

/-- The map without attributes. -/
def empty : AttributeMap := ⟨[], List.Pairwise.nil, by simp⟩

def isEmpty (m : AttributeMap) : Bool :=
  m.sets.isEmpty

/-- The number of attributes. -/
def size (m : AttributeMap) : Nat :=
  m.sets.length

/-- The types in their stored spelling. -/
def keys (m : AttributeMap) : List String :=
  m.sets.map AttributeSet.key

/-- The set of an attribute. -/
def get? (m : AttributeMap) (key : String) : Option AttributeSet :=
  Rising.find? AttributeSet.foldedKey (foldCase key) m.sets

def contains (m : AttributeMap) (key : String) : Bool :=
  (m.get? key).isSome

/-- The sets that satisfy `p`. -/
def filter (p : AttributeSet → Bool) (m : AttributeMap) : AttributeMap :=
  ⟨m.sets.filter p, Rising.filter_rising p m.rising,
    fun s hs => m.nonempty s (List.mem_filter.mp hs).1⟩

/-- The map without an attribute. -/
def erase (m : AttributeMap) (key : String) : AttributeMap :=
  m.filter fun s => s.foldedKey ≠ foldCase key

/-- The map with `set` for the attribute that it names; an empty set removes the attribute. -/
def insert (m : AttributeMap) (set : AttributeSet) : AttributeMap :=
  if h : set.values.isEmpty = false then
    ⟨Rising.put AttributeSet.foldedKey set m.sets, Rising.put_rising set m.rising, by
      intro s hs
      rcases Rising.mem_put.mp hs with rfl | hs
      · exact h
      · exact m.nonempty s hs.1⟩
  else m.erase set.key

/-- The set that `key` has after values were added or removed: the stored spelling stays. -/
def update (m : AttributeMap) (key : String) (f : ValueSet → ValueSet) : AttributeMap :=
  match m.get? key with
  | some set => m.insert ⟨set.key, f set.values⟩
  | none => m.insert ⟨key, f .empty⟩

/-- The map with more values for an attribute, which is created if need be. -/
def addValues (m : AttributeMap) (key : String) (values : List Value) : AttributeMap :=
  m.update key fun s => s.insertAll values

/-- The map with fewer values for an attribute, which goes with its last value. -/
def removeValues (m : AttributeMap) (key : String) (values : List Value) : AttributeMap :=
  m.update key fun s => values.foldl ValueSet.erase s

/-- The map of pairs of a type and values; pairs of one type are merged. -/
def ofPairs (pairs : List (String × List Value)) : AttributeMap :=
  pairs.foldl (fun m p => m.addValues p.1 p.2) empty

/-- The map of attribute sets; sets of one type are merged. -/
def ofSets (sets : List AttributeSet) : AttributeMap :=
  sets.foldl (fun m s => m.addValues s.key s.values.toList) empty

/-- What a map says apart from spellings: values by type in lower case. -/
def view (m : AttributeMap) : List (String × ValueSet) :=
  m.sets.map fun s => (s.foldedKey, s.values)

/-- The same types with the same values. -/
def same (m n : AttributeMap) : Bool :=
  m.view == n.view

end AttributeMap
end DirectoryStore
