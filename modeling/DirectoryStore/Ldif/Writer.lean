import DirectoryStore.Entry.Change
import DirectoryStore.Name.Text
import DirectoryStore.Text.Base64

/-!
# Writing LDIF

A record is a `dn` line, lines for its content, and a blank line.  A line holds a name
and a value; a value that plain text would not preserve is written in base64.  Lines are
never folded.  A document opens with a version record.
-/

namespace DirectoryStore
namespace Ldif

/-- Bytes that no plain value contains: NUL, the line ends and everything beyond ASCII. -/
def isUnsafe (b : UInt8) : Bool :=
  b = 0x00 || b = 0x0A || b = 0x0D || 0x7F < b

/-- Bytes that no plain value starts with: besides the unsafe ones a space, a colon and `<`. -/
def isUnsafeStart (b : UInt8) : Bool :=
  isUnsafe b || b = 0x20 || b = 0x3A || b = 0x3C

/-- A value that has to be written in base64. -/
def needsBase64 (value : Bytes) : Bool :=
  value.head?.any isUnsafeStart || value.getLast? == some 0x20 || value.any isUnsafe

/-- ASCII bytes as characters. -/
def plainChars (value : Bytes) : List Char :=
  value.map fun b => Char.ofNat b.toNat

/-- The separator and the value of a line. -/
def valueChars (value : Bytes) : List Char :=
  if needsBase64 value then ':' :: ':' :: ' ' :: Base64.encode value
  else ':' :: ' ' :: plainChars value

/-- A line with its end. -/
def lineChars (name : String) (value : Bytes) : List Char :=
  name.toList ++ valueChars value ++ ['\n']

/-- A line with its end. -/
def line (name : String) (value : Bytes) : String :=
  String.ofList (lineChars name value)

/-- The `dn` line of a record. -/
def dnLine (dn : Dn) : List Char :=
  lineChars "dn" (utf8 dn.text)

/-- A line for each value of an attribute. -/
def setLines (s : AttributeSet) : List Char :=
  s.values.toList.flatMap (lineChars s.key)

/-- The attribute that is written before all others. -/
def leadingKey : String := "objectClass"

/-- The lines of attributes: `objectClass` first, the others by type. -/
def attributeLines (attrs : AttributeMap) : List Char :=
  (attrs.get? leadingKey).toList.flatMap setLines ++
    (attrs.sets.filter fun s => !sameIgnoringCase s.key leadingKey).flatMap setLines

/-- The record of an entry. -/
def entryChars (e : Entry) : List Char :=
  dnLine e.dn ++ attributeLines e.attributes ++ ['\n']

/-- The word for a kind of edit. -/
def editWord : EditKind → String
  | .add => "add"
  | .delete => "delete"
  | .replace => "replace"

/-- The lines of an edit: what is done to which attribute, the operands, and a dash. -/
def editChars (m : Modification) : List Char :=
  (editWord m.kind).toList ++ [':', ' '] ++ m.key.toList ++ ['\n'] ++ setLines m.operands ++
    ['-', '\n']

/-- The lines that open a change record. -/
def changeHead (dn : Dn) (word : String) : List Char :=
  dnLine dn ++ "changetype: ".toList ++ word.toList ++ ['\n']

/-- The record of a change. -/
def changeChars : Change → List Char
  | .add e => changeHead e.dn "add" ++ attributeLines e.attributes ++ ['\n']
  | .delete dn => changeHead dn "delete" ++ ['\n']
  | .modify dn edits => changeHead dn "modify" ++ edits.flatMap editChars ++ ['\n']

/-- What opens a document of records: a line for the version of the format and a blank line. -/
def header : List Char :=
  lineChars "version" (utf8 "1") ++ ['\n']

/-- The document of entries. -/
def writeEntries (entries : List Entry) : String :=
  String.ofList (header ++ entries.flatMap entryChars)

/-- The document of changes. -/
def writeChanges (changes : List Change) : String :=
  String.ofList (header ++ changes.flatMap changeChars)

/-- A writer that adds records to a document one by one.  The header goes out with the first
    record, so a document without records stays empty. -/
structure Stream where
  written : List Char
  hasHeader : Bool
deriving DecidableEq, Repr

namespace Stream

/-- The writer before its first record. -/
def start : Stream := ⟨[], false⟩

/-- Writes a record. -/
def record (s : Stream) (chars : List Char) : Stream :=
  ⟨s.written ++ (if s.hasHeader then [] else header) ++ chars, true⟩

/-- Writes an entry. -/
def entry (s : Stream) (e : Entry) : Stream :=
  s.record (entryChars e)

/-- Writes a change. -/
def change (s : Stream) (c : Change) : Stream :=
  s.record (changeChars c)

/-- All that was written. -/
def text (s : Stream) : String :=
  String.ofList s.written

end Stream
end Ldif

/-- The lines of the attributes of an entry. -/
def Entry.attributeLines (e : Entry) : String :=
  String.ofList (Ldif.attributeLines e.attributes)

/-- The record of an entry. -/
def Entry.ldif (e : Entry) : String :=
  String.ofList (Ldif.entryChars e)

/-- The lines of an edit. -/
def Modification.ldif (m : Modification) : String :=
  String.ofList (Ldif.editChars m)

/-- The record of a change. -/
def Change.ldif (c : Change) : String :=
  String.ofList (Ldif.changeChars c)

end DirectoryStore
