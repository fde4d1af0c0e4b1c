import DirectoryStore.Filter.Basic
import DirectoryStore.Text.Hex

/-!
# The written form of filters

Filters are written in parentheses with the operator first.  In values the star, the
parentheses, the backslash and NUL are escaped as hexadecimal pairs; a value that is no
UTF-8 text has every byte beyond ASCII escaped too, so the written form is always text.
-/

namespace DirectoryStore

namespace Item

/-- Characters that no written value contains as themselves. -/
def isSpecial (c : Char) : Bool :=
  c = '*' || c = '(' || c = ')' || c = '\\' || c = '\x00'

/-- A character of a value. -/
def escapeChar (c : Char) : List Char :=
  if isSpecial c then '\\' :: Hex.lowerPair (UInt8.ofNat c.toNat) else [c]

/-- A byte of a value that is no text. -/
def escapeByte (b : UInt8) : List Char :=
  if b.toNat < 128 then escapeChar (Char.ofNat b.toNat) else '\\' :: Hex.lowerPair b

/-- A value as it is written inside a filter. -/
def valueChars (v : Value) : List Char :=
  match Utf8.decode? v with
  | some cs => cs.flatMap escapeChar
  | none => v.flatMap escapeByte

/-- The sign of a comparison. -/
def sign : Comparison → List Char
  | .equal => ['=']
  | .approximate => ['~', '=']
  | .atLeast => ['>', '=']
  | .atMost => ['<', '=']

/-- The written form of an optional part. -/
def partChars (part : Option Value) : List Char :=
  part.toList.flatMap valueChars

/-- The inside of the parentheses. -/
def chars : Item → List Char
  | compare c key value => key.toList ++ sign c ++ valueChars value
  | present key => key.toList ++ ['=', '*']
  | substrings key initial any final =>
      key.toList ++ '=' :: partChars initial ++ '*' ::
        any.flatMap (fun v => valueChars v ++ ['*']) ++ partChars final
  | extensible key withDn rule value =>
      (key.map String.toList).getD [] ++ (if withDn then [':', 'd', 'n'] else []) ++
        (rule.map fun r => ':' :: r.toList).getD [] ++ ':' :: '=' :: valueChars value

end Item

namespace Filter

mutual

/-- The characters of the written form. -/
def chars : Filter → List Char
  | and fs => '(' :: '&' :: charsAll fs ++ [')']
  | or fs => '(' :: '|' :: charsAll fs ++ [')']
  | not f => '(' :: '!' :: chars f ++ [')']
  | item i => '(' :: i.chars ++ [')']

/-- The characters of filters one after another. -/
def charsAll : List Filter → List Char
  | [] => []
  | f :: fs => chars f ++ charsAll fs

end

/-- The written form. -/
def text (f : Filter) : String :=
  String.ofList f.chars

end Filter
end DirectoryStore
