import DirectoryStore.Toml.Scalar
import DirectoryStore.Toml.Table
import DirectoryStore.Toml.Text

/-!
# Reading TOML

A text is a sequence of lines: headers, keys with their values, and empty ones.  The
lines are read first; `Document.table?` then builds the table that they describe.
-/

namespace DirectoryStore
namespace Toml

/-- Arrays and inline tables stand in one another at most this often, and a key has at most
    as many names. -/
def nesting : Nat := 79

/-- Characters of a name without quotes. -/
def isBareChar (c : Char) : Bool :=
  isLetter c || isDigit c || c == '_' || c == '-'

/-- Reads one name of a key. -/
def name : Reader String
  | '"' :: rest => lineText '"' rest
  | '\'' :: rest => lineText '\'' rest
  | cs =>
      let word := cs.takeWhile isBareChar
      if word.isEmpty then none else some (String.ofList word, cs.dropWhile isBareChar)

/-- Reads a key, with blanks around its names. -/
def key : Reader Key := fun cs => do
  let part : Reader String := fun cs => do
    let (n, rest) ← name (skipBlanks cs)
    return (n, skipBlanks rest)
  let (names, rest) ← separated (char '.') part cs
  guard (names.length ≤ nesting)
  return (← Key.ofNames? names, rest)

/-- Reads a key and its value. -/
def pair (value : Reader Value) : Reader (Key × Value) := fun cs => do
  let (k, rest) ← key cs
  let (_, rest) ← char '=' rest
  let (v, rest) ← value (skipBlanks rest)
  return ((k, v), rest)

/-- Reads the rest of an array.  A comma may follow its last element. -/
def array (value : Reader Value) : Reader Value := fun cs => do
  let element : Reader Unit := fun cs => do
    let (_, rest) ← value (skipSpace cs)
    return ((), skipSpace rest)
  let rest := match separated (char ',') element cs with
    | some (_, ',' :: rest) => rest
    | some (_, rest) => rest
    | none => cs
  let (_, after) ← char ']' (skipSpace rest)
  return (.other, after)

/-- Reads the rest of an inline table. -/
def inlineTable (value : Reader Value) : Reader Value := fun cs => do
  let part : Reader (Key × Value) := fun cs => do
    let (p, rest) ← pair value cs
    return (p, skipBlanks rest)
  let (pairs, rest) := (separated (char ',') part cs).getD ([], skipBlanks cs)
  let (_, after) ← char '\x7d' rest
  let _ ← pairs.foldlM (fun (t : Table) (k, v) => t.add k.name v k.outer) []
  return (.other, after)

/-- Reads a value in which arrays and inline tables go `depth` deep at most. -/
def value : (depth : Nat) → Reader Value
  | depth + 1, '[' :: rest => array (value depth) rest
  | depth + 1, '\x7b' :: rest => inlineTable (value depth) rest
  | _, cs =>
      match cs with
      | '"' :: _ | '\'' :: _ => (quotedText cs).map fun (s, rest) => (.text s, rest)
      | _ => (scalar cs).map fun (_, rest) => (.other, rest)

/-- A line of a document. -/
inductive Line where
  | empty
  | pair (key : Key) (value : Value)
  /-- The header of a table. -/
  | table (key : Key)
  /-- The header of one more table of a list. -/
  | next (key : Key)
deriving DecidableEq, Repr

/-- Reads a line without what may follow it: blanks and a comment. -/
def lineContent : Reader Line
  | '[' :: '[' :: rest => do
      let (k, rest) ← key rest
      let (_, rest) ← char ']' rest
      let (_, rest) ← char ']' rest
      return (.next k, rest)
  | '[' :: rest => do
      let (k, rest) ← key rest
      let (_, rest) ← char ']' rest
      return (.table k, rest)
  | cs =>
      match cs with
      | [] | '#' :: _ | '\n' :: _ | '\r' :: _ => some (.empty, cs)
      | _ => (pair (value nesting) cs).map fun ((k, v), rest) => (.pair k v, rest)

/-- Reads a line up to its end. -/
def line : Reader Line := fun cs => do
  let (l, rest) ← lineContent (skipBlanks cs)
  let rest := skipBlanks rest
  return (l, ((comment rest).map Prod.snd).getD rest)

/-- The lines of a text.  A byte order mark in front does not count. -/
def lines? (text : String) : Option (List Line) :=
  let cs := match text.toList with
    | '\uFEFF' :: rest => rest
    | cs => cs
  match separated newline line cs with
  | some (ls, []) => some ls
  | _ => none

/-- A table under construction, with the path of the header last read. -/
structure Document where
  table : Table
  path : List String

namespace Document

/-- The document with one more line. -/
def add (d : Document) : Line → Option Document
  | .empty => some d
  | .pair k v => do
      return { d with table := ← d.table.within (·.add k.name v k.outer) d.path }
  | .table k => do
      return ⟨← d.table.within (·.openTable k.name) k.outer, k.outer ++ [k.name]⟩
  | .next k => do
      return ⟨← d.table.within (·.openNext k.name) k.outer, k.outer ++ [k.name]⟩

/-- The table that lines describe. -/
def table? (ls : List Line) : Option Table :=
  (ls.foldlM add ⟨[], []⟩).map Document.table

end Document

/-- The table that a text describes, unless it is malformed. -/
def parse? (text : String) : Option Table :=
  lines? text >>= Document.table?

end Toml
end DirectoryStore
