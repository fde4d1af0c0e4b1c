/-!
# Paths

A path is the list of names that lead from the top of a file system to an object, the
innermost first, so that the directory of an object is the tail of its path.  The empty
path is the top itself.
-/

namespace DirectoryStore

/-- The names on the way to an object, the innermost first. -/
abbrev Path := List String

namespace Path

/-- The written form: the names from the top on, joined by slashes. -/
def text (p : Path) : String :=
  String.intercalate "/" p.reverse

/-- The names that lead from `base` to a path at or below it, the outermost first. -/
def relative? (base p : Path) : Option (List String) :=
  if base.isSuffixOf p then some (p.take (p.length - base.length)).reverse else none

/-- Whether a path lies below `base`. -/
def isBelow (base p : Path) : Bool :=
  base.isSuffixOf p && base.length < p.length

/-- The parts of a text between slashes, one at least. -/
def splitSlashes : List Char → List (List Char)
  | [] => [[]]
  | c :: cs =>
      if c = '/' then [] :: splitSlashes cs
      else match splitSlashes cs with
        | [] => [[c]]
        | part :: parts => (c :: part) :: parts

/-- The parts of a text between slashes, one at least. -/
def parts (text : String) : List String :=
  (splitSlashes text.toList).map String.ofList

/-- One step of a written path: a dot stays, two dots go up, a name goes down. -/
def step (p : Path) (part : String) : Path :=
  if part = "" ∨ part = "." then p
  else if part = ".." then p.tail
  else part :: p

/-- The parts of a written path by which it is told from others.  A slash in front counts and
    is an empty part here, a dot in front counts too; other empty parts and dots do not. -/
def tellingParts (text : String) : List String :=
  match parts text with
  | [] | [""] => []
  | first :: rest => first :: rest.filter fun part => part ≠ "" && part ≠ "."

/-- Whether the parts that are left of a written path are a dot, or more than one, at its end. -/
def onlyDots (parts : List String) : Bool :=
  parts.contains "." && parts.all fun part => part = "" || part = "."

/-- The path that a text describes from `base` on. -/
def resolve (base : Path) (text : String) : Path :=
  (parts text).foldl step base

end Path
end DirectoryStore
