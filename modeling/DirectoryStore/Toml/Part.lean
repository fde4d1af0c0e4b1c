/-!
# Parts of a TOML text

A reader takes a part from the start of a text and leaves the rest, or finds that the
part is not there.  `many` and `separated` repeat a reader; everything larger is put
together from them.
-/

namespace DirectoryStore
namespace Toml

/-- Takes a part from the start of a text and leaves the rest. -/
abbrev Reader (α : Type) := List Char → Option (α × List Char)

/-- Reads a part up to `n` times, for as long as it is there. -/
def upTo {α : Type} (part : Reader α) : Nat → List Char → List α × List Char
  | 0, cs => ([], cs)
  | n + 1, cs =>
      match part cs with
      | none => ([], cs)
      | some (a, rest) =>
          let r := upTo part n rest
          (a :: r.1, r.2)

/-- Reads a part that takes at least one character as often as it is there. -/
def many {α : Type} (part : Reader α) (cs : List Char) : List α × List Char :=
  upTo part cs.length cs

/-- Reads a given character. -/
def char (wanted : Char) : Reader Unit
  | c :: rest => if c = wanted then some ((), rest) else none
  | [] => none

/-- Reads parts with `sep` between each two.  A `sep` without a part after it is left. -/
def separated {α : Type} (sep : Reader Unit) (part : Reader α) : Reader (List α) := fun cs => do
  let (a, rest) ← part cs
  let (as, after) := many (fun cs => do part (← sep cs).2) rest
  return (a :: as, after)

/-- Spaces and tabs. -/
def isBlank (c : Char) : Bool :=
  c == ' ' || c == '\t'

/-- Characters that may stand in texts and comments: all but control characters, of which
    the tab alone is allowed. -/
def isPlain (c : Char) : Bool :=
  c == '\t' || (' ' ≤ c && c != '\x7f')

def skipBlanks (cs : List Char) : List Char :=
  cs.dropWhile isBlank

/-- Reads the end of a line. -/
def newline : Reader Unit
  | '\n' :: rest => some ((), rest)
  | '\r' :: '\n' :: rest => some ((), rest)
  | _ => none

/-- Reads a blank. -/
def blank : Reader Unit
  | c :: rest => if isBlank c then some ((), rest) else none
  | [] => none

/-- Reads a comment, which goes on to the end of its line. -/
def comment : Reader Unit
  | '#' :: rest => some ((), rest.dropWhile isPlain)
  | _ => none

/-- Skips blanks and ends of lines. -/
def skipLines (cs : List Char) : List Char :=
  (many (fun cs => blank cs <|> newline cs) cs).2

/-- Skips blanks, ends of lines and comments. -/
def skipSpace (cs : List Char) : List Char :=
  (many (fun cs => blank cs <|> newline cs <|> comment cs) cs).2

end Toml
end DirectoryStore
