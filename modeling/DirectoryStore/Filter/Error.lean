import DirectoryStore.Text.Quoted

/-!
# What can be wrong with a filter

Every fault has a place: the text still to be read while the reader runs, and the number
of bytes before it in the end.  Where a character was met, none means the end of the text.
-/

namespace DirectoryStore

/-- Why a text is no filter. -/
inductive FilterFault where
  /-- Text after the end of the filter. -/
  | trailing
  /-- Another character than the one that has to stand here. -/
  | expected (wanted : Char) (met : Option Char)
  /-- No attribute where one has to start. -/
  | expectedAttribute (met : Option Char)
  /-- No operator after an attribute. -/
  | afterAttribute (met : Option Char)
  /-- No word after a colon. -/
  | expectedRule
  /-- A second matching rule. -/
  | unexpectedRule
  /-- Neither an attribute nor a matching rule. -/
  | missingRule
  /-- Two stars with nothing between them. -/
  | emptySubstring
  /-- A character that has to be escaped in a value. -/
  | unescaped (met : Char)
  /-- A backslash with fewer than two bytes after it. -/
  | truncatedEscape
  /-- A backslash without two hexadecimal digits after it. -/
  | invalidEscape
deriving DecidableEq, Repr

/-- The wording of a fault. -/
def FilterFault.message : FilterFault → String
  | trailing => "unexpected trailing characters"
  | expected wanted (some met) => s!"expected {quoteChar wanted}, found {quoteChar met}"
  | expected wanted none => s!"expected {quoteChar wanted}, found end of input"
  | expectedAttribute (some met) => s!"expected attribute, found {quoteChar met}"
  | expectedAttribute none => "expected attribute, found end of input"
  | afterAttribute (some met) => s!"unexpected {quoteChar met} after attribute"
  | afterAttribute none => "unexpected end of input after attribute"
  | expectedRule => "expected \"dn\" or a matching rule"
  | unexpectedRule => "unexpected token in extensible match"
  | missingRule => "extensible match without attribute needs a matching rule"
  | emptySubstring => "empty substring between '*'"
  | unescaped met => s!"unescaped {quoteChar met} in value"
  | truncatedEscape => "truncated escape"
  | invalidEscape => "invalid hex escape"

/-- A fault in a text, at a byte offset. -/
structure FilterError where
  text : String
  offset : Nat
  fault : FilterFault
deriving DecidableEq, Repr

/-- The wording of an error. -/
def FilterError.message (e : FilterError) : String :=
  s!"invalid filter {quoteText e.text} at offset {e.offset}: {e.fault.message}"

end DirectoryStore
