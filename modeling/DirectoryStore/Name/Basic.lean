import DirectoryStore.Text.Ascii

/-!
# Distinguished names

A name is a path of relative names, the most specific first; a relative name holds one
or more components, each an attribute type with a value.

One policy decides when names are the same, how they are ordered and which name contains
which: types are compared without regard to ASCII case, values exactly, and names from
their least specific end.  `Dn.key` carries that policy.  Names are the same when their
keys are equal, ordered as their keys are, and a name contains those whose keys its own
key begins; so a name sorts before everything below it.
-/

namespace DirectoryStore

/-- An attribute type with a value. -/
structure Component where
  type : String
  value : String
deriving DecidableEq, Repr

/-- A relative name: one component or more, in written order. -/
structure Rdn where
  first : Component
  more : List Component
deriving DecidableEq, Repr

/-- A distinguished name: relative names, the most specific first.  The empty name stands
    for the top of a hierarchy. -/
structure Dn where
  rdns : List Rdn
deriving DecidableEq, Repr

namespace Component

/-- What comparisons look at: the type in lower case, then the value. -/
def key (c : Component) : List String :=
  [foldCase c.type, c.value]

end Component

namespace Rdn

/-- A relative name of one component. -/
def single (type value : String) : Rdn :=
  ⟨⟨type, value⟩, []⟩

/-- All components, in written order. -/
def components (r : Rdn) : List Component :=
  r.first :: r.more

/-- The relative name with the given components, unless there are none. -/
def ofComponents? : List Component → Option Rdn
  | [] => none
  | c :: cs => some ⟨c, cs⟩

/-- The number of components. -/
def size (r : Rdn) : Nat :=
  r.components.length

/-- The only component, if there is just one. -/
def only? (r : Rdn) : Option Component :=
  if r.more.isEmpty then some r.first else none

/-- What comparisons look at: the keys of the components in written order. -/
def key (r : Rdn) : List (List String) :=
  r.components.map Component.key

/-- Sameness of relative names. -/
def same (a b : Rdn) : Bool :=
  a.key = b.key

/-- `a` comes before `b`. -/
def lt (a b : Rdn) : Bool :=
  a.key < b.key

/-- The value, if this is a single component of type `dc`. -/
def domainLabel? (r : Rdn) : Option String :=
  r.only?.bind fun c => if sameIgnoringCase c.type "dc" then some c.value else none

end Rdn

namespace Dn

/-- The name without relative names. -/
def empty : Dn := ⟨[]⟩

/-- The number of relative names. -/
def size (d : Dn) : Nat :=
  d.rdns.length

def isEmpty (d : Dn) : Bool :=
  d.rdns.isEmpty

/-- The most specific relative name. -/
def leaf? (d : Dn) : Option Rdn :=
  d.rdns.head?

/-- The name directly above; the empty name has none. -/
def up? (d : Dn) : Option Dn :=
  match d.rdns with
  | [] => none
  | _ :: rs => some ⟨rs⟩

/-- The name called `r` directly below `d`. -/
def child (d : Dn) (r : Rdn) : Dn :=
  ⟨r :: d.rdns⟩

/-- What comparisons look at: the keys of the relative names, the least specific first. -/
def key (d : Dn) : List (List (List String)) :=
  d.rdns.reverse.map Rdn.key

/-- Sameness of names. -/
def same (a b : Dn) : Bool :=
  a.key = b.key

/-- The order of names. -/
def compare (a b : Dn) : Ordering :=
  compareOfLessAndEq a.key b.key

/-- `a` does not come after `b`. -/
def le (a b : Dn) : Bool :=
  !decide (b.key < a.key)

/-- Names in order; of names that are the same the earlier one stays first. -/
def sort (ds : List Dn) : List Dn :=
  ds.mergeSort le

/-- `d` is `base` or lies below it. -/
def contains (base d : Dn) : Bool :=
  base.key.isPrefixOf d.key

/-- The relative names of `d` below `base`, the most specific first. -/
def relative? (base d : Dn) : Option (List Rdn) :=
  if base.contains d then some (d.rdns.take (d.size - base.size)) else none

/-- The labels of the `dc` components at the least specific end, joined by dots; nothing if
    there are none. -/
def domainName? (d : Dn) : Option String :=
  let labels := ((d.rdns.reverse.map Rdn.domainLabel?).takeWhile Option.isSome).reverse
  if labels.isEmpty then none else some (String.intercalate "." (labels.filterMap id))

end Dn
end DirectoryStore
