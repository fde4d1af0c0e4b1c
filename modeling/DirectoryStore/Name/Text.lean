import DirectoryStore.Name.Basic
import DirectoryStore.Text.Hex

/-!
# The written form of names

Relative names are joined by commas and components by plus signs.  In a value the
separators and quoting marks are escaped everywhere, a space only at either end, a
number sign only at the start, and control characters as hexadecimal pairs.
-/

namespace DirectoryStore
namespace Name

/-- Characters escaped wherever they stand in a value. -/
def specials : List Char :=
  [',', '+', '"', '\\', '<', '>', ';']

/-- One character of a value, given whether it is the first and whether it is the last. -/
def escapeChar (isFirst isLast : Bool) (c : Char) : List Char :=
  if c ∈ specials then ['\\', c]
  else if c = ' ' ∧ (isFirst ∨ isLast) then ['\\', ' ']
  else if c = '#' ∧ isFirst then ['\\', '#']
  else if c.toNat < 32 then '\\' :: Hex.upperPair (UInt8.ofNat c.toNat)
  else [c]

/-- The characters of a value, given whether its start is still to come. -/
def escapeFrom (isFirst : Bool) : List Char → List Char
  | [] => []
  | c :: cs => escapeChar isFirst cs.isEmpty c ++ escapeFrom false cs

/-- A value as it is written inside a name. -/
def escapeValue (value : String) : String :=
  String.ofList (escapeFrom true value.toList)

end Name

namespace Component

/-- The characters of the written form. -/
def chars (c : Component) : List Char :=
  c.type.toList ++ '=' :: Name.escapeFrom true c.value.toList

/-- The written form. -/
def text (c : Component) : String :=
  String.ofList c.chars

end Component

namespace Rdn

/-- The characters of the written form. -/
def chars (r : Rdn) : List Char :=
  ['+'].intercalate (r.components.map Component.chars)

/-- The written form. -/
def text (r : Rdn) : String :=
  String.ofList r.chars

end Rdn

namespace Dn

/-- The characters of the written form. -/
def chars (d : Dn) : List Char :=
  [','].intercalate (d.rdns.map Rdn.chars)

/-- The written form. -/
def text (d : Dn) : String :=
  String.ofList d.chars

end Dn
end DirectoryStore
