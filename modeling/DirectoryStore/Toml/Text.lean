import DirectoryStore.Text.Hex
import DirectoryStore.Toml.Part

/-!
# Texts in TOML

A text stands in double quotes, where a backslash starts an escape, or in single quotes,
where it does not.  Three quotes enclose a text of several lines: a line end right after
the opening ones does not count, every other is one `\n`, and up to two more quotes may
stand before the closing ones.
-/

namespace DirectoryStore
namespace Toml

/-- The character of a code point given in hexadecimal digits. -/
def codePoint? (digits : List Char) : Option Char := do
  let values ← digits.mapM Hex.value?
  let n := values.foldl (fun n v => n * 16 + v) 0
  if n.isValidChar then some (Char.ofNat n) else none

/-- Reads a code point with a fixed number of digits. -/
def code (width : Nat) : Reader Char := fun cs => do
  guard (width ≤ cs.length)
  return (← codePoint? (cs.take width), cs.drop width)

/-- Reads what follows the backslash of an escape. -/
def escape : Reader Char
  | 'b' :: rest => some ('\x08', rest)
  | 't' :: rest => some ('\t', rest)
  | 'n' :: rest => some ('\n', rest)
  | 'f' :: rest => some ('\x0c', rest)
  | 'r' :: rest => some ('\r', rest)
  | '"' :: rest => some ('"', rest)
  | '\\' :: rest => some ('\\', rest)
  | 'u' :: rest => code 4 rest
  | 'U' :: rest => code 8 rest
  | _ => none

/-- A reader's character as a piece of text. -/
def single (r : Option (Char × List Char)) : Option (List Char × List Char) :=
  r.map fun (c, rest) => ([c], rest)

/-- Reads a piece of a text between single characters `quote`. -/
def linePiece (quote : Char) : Reader (List Char)
  | [] => none
  | c :: rest =>
      if c = quote then none
      else if c = '\\' ∧ quote = '"' then single (escape rest)
      else if isPlain c then some ([c], rest)
      else none

/-- Reads a piece of a text of several lines.  In double quotes a backslash at the end of a
    line joins the next text to it. -/
def blockPiece (quote : Char) : Reader (List Char)
  | [] => none
  | c :: rest =>
      if c = quote ∧ [quote, quote].isPrefixOf rest then none
      else if c = '\\' ∧ quote = '"' then
        match newline (skipBlanks rest) with
        | some (_, after) => some ([], skipLines after)
        | none => single (escape rest)
      else if isPlain c then some ([c], rest)
      else (newline (c :: rest)).map fun (_, after) => (['\n'], after)

/-- Reads the quotes that close a text of several lines, with those before them that belong
    to it. -/
def blockEnd (quote : Char) : Reader (List Char) := fun cs =>
  let quotes := (cs.takeWhile (· == quote)).length
  let extra := min (quotes - 3) 2
  if 3 ≤ quotes then some (List.replicate extra quote, cs.drop (3 + extra)) else none

/-- Reads the rest of a text on one line. -/
def lineText (quote : Char) : Reader String := fun cs => do
  let (pieces, rest) := many (linePiece quote) cs
  let (_, after) ← char quote rest
  return (String.ofList pieces.flatten, after)

/-- Reads the rest of a text of several lines. -/
def blockText (quote : Char) : Reader String := fun cs => do
  let start := match newline cs with
    | some (_, rest) => rest
    | none => cs
  let (pieces, rest) := many (blockPiece quote) start
  let (extra, after) ← blockEnd quote rest
  return (String.ofList (pieces.flatten ++ extra), after)

/-- Reads a text in quotes. -/
def quotedText : Reader String
  | '"' :: '"' :: '"' :: rest => blockText '"' rest
  | '"' :: rest => lineText '"' rest
  | '\'' :: '\'' :: '\'' :: rest => blockText '\'' rest
  | '\'' :: rest => lineText '\'' rest
  | _ => none

end Toml
end DirectoryStore
