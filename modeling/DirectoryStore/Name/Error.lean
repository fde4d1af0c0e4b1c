import DirectoryStore.Text.Quoted

/-!
# What can be wrong with a name

The reader reports each cause with its place.  A place is first the text that is still to
be read and becomes the number of bytes before it once the whole text is known; `Place`
stands for either.
-/

namespace DirectoryStore

/-- Why a text is no distinguished name. -/
inductive Malformation (Place : Type) where
  /-- A character that no attribute type contains. -/
  | strayInType (met : Char) (place : Place)
  /-- No attribute type where one has to start. -/
  | missingType (place : Place)
  /-- No `=` after an attribute type. -/
  | missingEquals (place : Place)
  /-- A quoted value without its closing quote. -/
  | openQuote
  /-- A character that has to be escaped in a value. -/
  | unescaped (met : Char) (place : Place)
  /-- Escapes that spell no UTF-8 text. -/
  | notUtf8
  /-- A backslash at the very end. -/
  | danglingEscape
  /-- A single hexadecimal digit at the very end. -/
  | truncatedHex (place : Place)
  /-- A hexadecimal digit without a second one. -/
  | invalidHex (place : Place)
  /-- A backslash before a character that is never escaped. -/
  | invalidEscape (met : Char) (place : Place)
  /-- A relative name of no components. -/
  | noComponents
  /-- An empty name where a relative name is wanted. -/
  | emptyRelative
  /-- A longer name where a relative name is wanted. -/
  | severalRelative
deriving DecidableEq, Repr

namespace Malformation

/-- The same cause with another way of giving the place. -/
def map {P Q : Type} (f : P → Q) : Malformation P → Malformation Q
  | strayInType met place => strayInType met (f place)
  | missingType place => missingType (f place)
  | missingEquals place => missingEquals (f place)
  | openQuote => openQuote
  | unescaped met place => unescaped met (f place)
  | notUtf8 => notUtf8
  | danglingEscape => danglingEscape
  | truncatedHex place => truncatedHex (f place)
  | invalidHex place => invalidHex (f place)
  | invalidEscape met place => invalidEscape met (f place)
  | noComponents => noComponents
  | emptyRelative => emptyRelative
  | severalRelative => severalRelative

/-- The wording of a cause whose place is a byte offset. -/
def message : Malformation Nat → String
  | strayInType met place => s!"unexpected {quoteChar met} in attribute type at offset {place}"
  | missingType place => s!"missing attribute type at offset {place}"
  | missingEquals place => s!"expected '=' at offset {place}"
  | openQuote => "unterminated quoted value"
  | unescaped met place => s!"unescaped {quoteChar met} in value at offset {place}"
  | notUtf8 => "value is not valid UTF-8"
  | danglingEscape => "dangling escape at end of name"
  | truncatedHex place => s!"truncated hex escape at offset {place}"
  | invalidHex place => s!"invalid hex escape at offset {place}"
  | invalidEscape met place => s!"invalid escape {quoteChar met} at offset {place}"
  | noComponents => "relative name needs at least one component"
  | emptyRelative => "empty relative name"
  | severalRelative => "expected a single relative name"

end Malformation

/-- A fault of a name. -/
inductive NameError where
  /-- The text is no name of the wanted kind. -/
  | malformed (text : String) (cause : Malformation Nat)
  /-- The empty name has nothing above it. -/
  | emptyDn
deriving DecidableEq, Repr

/-- The wording of a fault. -/
def NameError.message : NameError → String
  | malformed text cause => s!"malformed distinguished name {quoteText text}: {cause.message}"
  | emptyDn => "the empty distinguished name has no parent"

end DirectoryStore
