import DirectoryStore.Text.Hex

/-!
# Quoted text in messages

Messages show the text they complain about in quotes, with the quote itself, the
backslash and everything unprintable escaped, so that the shown form is one line.
-/

namespace DirectoryStore
namespace Quoted

/-- Characters that messages do not show as themselves: the controls of both ranges, the
    non-breaking space, the soft hyphen, the zero-width space and the ideographic space. -/
def isUnprintable (c : Char) : Bool :=
  let n := c.toNat
  n < 0x20 || (0x7F ≤ n && n ≤ 0xA0) || n == 0xAD || n == 0x200B || n == 0x3000

/-- One character inside the quotes `quote`. -/
def escapeChar (quote c : Char) : List Char :=
  if c = quote then ['\\', c]
  else match c with
    | '\\' => ['\\', '\\']
    | '\n' => ['\\', 'n']
    | '\r' => ['\\', 'r']
    | '\t' => ['\\', 't']
    | '\x00' => ['\\', '0']
    | c =>
        if isUnprintable c then ['\\', 'u', '\x7b'] ++ Hex.ofNat c.toNat ++ ['\x7d'] else [c]

/-- A text between quotes. -/
def enclose (quote : Char) (cs : List Char) : String :=
  String.ofList (quote :: cs.flatMap (escapeChar quote) ++ [quote])

end Quoted

/-- A text in double quotes. -/
def quoteText (s : String) : String :=
  Quoted.enclose '"' s.toList

/-- A character in single quotes. -/
def quoteChar (c : Char) : String :=
  Quoted.enclose '\'' [c]

end DirectoryStore
