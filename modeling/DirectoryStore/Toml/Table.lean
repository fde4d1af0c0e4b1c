/-!
# Tables of TOML

A table grows while a text is read.  How it came about decides what may still be added:
one that a dotted key made takes more dotted keys, one that a header only passed through
takes a header of its own once, and a list of tables grows at its end.
-/

namespace DirectoryStore
namespace Toml

/-- A value.  Only texts are kept as they are, since nothing else is ever asked for. -/
inductive Value where
  | text (s : String)
  /-- A number, a truth value, a date, an array or an inline table. -/
  | other
deriving DecidableEq, Repr, Inhabited

/-- How a table came about. -/
inductive Origin where
  /-- A key with dots went through it. -/
  | dotted
  /-- A header went through it. -/
  | implied
  /-- A header named it. -/
  | named
deriving DecidableEq, Repr

/-- What a name stands for in a table. -/
inductive Node where
  | value (v : Value)
  | table (origin : Origin) (entries : List (String × Node))
  /-- A list of tables, of which only the last can still grow and is kept. -/
  | tables (last : List (String × Node))

/-- The entries of a table, by name. -/
abbrev Table := List (String × Node)

/-- A key: the names of the tables on the way, and the name in the innermost one. -/
structure Key where
  outer : List String
  name : String
deriving DecidableEq, Repr

/-- The key of a sequence of names. -/
def Key.ofNames? (names : List String) : Option Key :=
  names.getLast?.map fun name => ⟨names.dropLast, name⟩

namespace Table

/-- What a name stands for. -/
def find? (t : Table) (name : String) : Option Node :=
  t.lookup name

/-- The table with `node` under `name`, in place of what was there. -/
def set (t : Table) (name : String) (node : Node) : Table :=
  (name, node) :: t.filter (·.1 ≠ name)

/-- Adds a value under a key.  A name is used once, and a table that a header made or went
    through is not added to at the end of a dotted key. -/
def add (name : String) (v : Value) : (outer : List String) → Table → Option Table
  | [], t =>
      match t.find? name with
      | none => some (t.set name (.value v))
      | some _ => none
  | first :: outer, t =>
      match t.find? first with
      | none => (add name v outer []).map fun inner => t.set first (.table .dotted inner)
      | some (.table .dotted inner) =>
          (add name v outer inner).map fun inner => t.set first (.table .dotted inner)
      | some (.table .implied inner) =>
          if outer.isEmpty then none
          else (add name v outer inner).map fun inner => t.set first (.table .implied inner)
      | some (.tables last) =>
          if outer.isEmpty then none
          else (add name v outer last).map fun last => t.set first (.tables last)
      | some (.table .named _) | some (.value _) => none

/-- Changes the table at the end of a path of headers, in the last table of each list on the
    way.  Tables that are not there are made. -/
def within (change : Table → Option Table) : (path : List String) → Table → Option Table
  | [], t => change t
  | first :: path, t =>
      match t.find? first with
      | none => (within change path []).map fun inner => t.set first (.table .implied inner)
      | some (.table origin inner) =>
          (within change path inner).map fun inner => t.set first (.table origin inner)
      | some (.tables last) =>
          (within change path last).map fun last => t.set first (.tables last)
      | some (.value _) => none

/-- Makes the table that a header names. -/
def openTable (name : String) (t : Table) : Option Table :=
  match t.find? name with
  | none => some (t.set name (.table .named []))
  | some (.table .implied inner) => some (t.set name (.table .named inner))
  | some _ => none

/-- Makes one more table of the list that a header names. -/
def openNext (name : String) (t : Table) : Option Table :=
  match t.find? name with
  | none | some (.tables _) => some (t.set name (.tables []))
  | some _ => none

end Table
end Toml
end DirectoryStore
