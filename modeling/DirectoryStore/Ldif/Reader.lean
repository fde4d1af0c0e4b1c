import DirectoryStore.Entry.Change
import DirectoryStore.Ldif.Error
import DirectoryStore.Name.Reader

/-!
# Reading LDIF

The reader takes a document in chunks of any size.  It takes in the physical lines that end
in a chunk and keeps the bytes after the last of them for the next chunk.  A line that
starts with a space continues the one before it, and the joined lines are logical lines.
A logical line that starts with `#` is a comment.  The others drive the state of the
current record, which a blank line completes.
-/

namespace DirectoryStore
namespace Ldif

/-- Which records a document holds. -/
inductive Mode where
  /-- Entries with their attributes. -/
  | content
  /-- Changes of entries. -/
  | changes
deriving DecidableEq, Repr

/-- A record. -/
inductive Record where
  | entry (entry : Entry)
  | change (change : Change)
deriving DecidableEq

/-- The entry of a content record. -/
def Record.entry? : Record → Option Entry
  | entry e => some e
  | change _ => none

/-- The change of a change record. -/
def Record.change? : Record → Option Change
  | entry _ => none
  | change c => some c

/-- A logical line, with the physical line on which it starts. -/
structure LogicalLine where
  number : Nat
  bytes : Bytes
deriving DecidableEq, Repr

/-- How far the current record has been read. -/
inductive RecordState where
  /-- Between records. -/
  | idle
  /-- In a content record. -/
  | content (dn : Dn) (attrs : AttributeMap)
  /-- In a change record, before the kind of change is known. -/
  | untyped (dn : Dn)
  /-- In the record of an addition. -/
  | adding (dn : Dn) (attrs : AttributeMap)
  /-- In the record of a deletion. -/
  | deleting (dn : Dn)
  /-- In the record of a modification, with the edits that are complete and the open one. -/
  | modifying (dn : Dn) (edits : List Modification) (open? : Option Modification)
deriving DecidableEq

/-- White space of ASCII, which base64 text may contain anywhere. -/
def isAsciiBlank (b : UInt8) : Bool :=
  b = 0x20 || b = 0x09 || b = 0x0A || b = 0x0C || b = 0x0D

/-- A text of bytes, lossy and without blanks around it. -/
def looseText (bytes : Bytes) : String :=
  trim (Utf8.decodeLossy bytes)

/-- The value that follows a name and its colon. -/
def readValue : Bytes → Except Violation Value
  | 0x3A :: encoded =>
      match Base64.decode (encoded.filter fun b => !isAsciiBlank b) with
      | .ok value => .ok value
      | .error cause => .error (.invalidBase64 cause)
  | 0x3C :: _ => .error .urlValue
  | plain => .ok (plain.dropWhile (· = 0x20))

/-- The name and the value of a logical line. -/
def splitLine (bytes : Bytes) : Except Violation (String × Value) :=
  match bytes.dropWhile (· ≠ 0x3A) with
  | [] => .error .noSeparator
  | _ :: rest =>
      match readValue rest with
      | .error v => .error v
      | .ok value => .ok (looseText (bytes.takeWhile (· ≠ 0x3A)), value)

/-- A line that ends an edit: a dash, possibly with spaces after it. -/
def isDash (bytes : Bytes) : Bool :=
  (bytes.reverse.dropWhile (· = 0x20)) == [0x2D]

/-- The bound of version numbers: they fit into 64 bits. -/
def versionBound : Nat := UInt64.size

/-- The number that decimal digits write, one at least. -/
def readDigits? (cs : List Char) : Option Nat :=
  if cs.isEmpty || !cs.all isDigit then none
  else some (cs.foldl (fun n c => n * 10 + (c.toNat - '0'.toNat)) 0)

/-- A version number, possibly with a plus sign. -/
def readVersion? (cs : List Char) : Option Nat :=
  let digits := match cs with
    | '+' :: rest => rest
    | cs => cs
  (readDigits? digits).filter (· < versionBound)

/-- Accepts the value of a version line: the number one. -/
def checkVersion (value : Value) : Except Violation Unit :=
  match readVersion? (looseText value).toList with
  | none => .error (.versionNotNumber (Utf8.decodeLossy value))
  | some n => if n = 1 then .ok () else .error (.unknownVersion n)

/-- The kind of edit that a word names. -/
def editKind? (word : String) : Option EditKind :=
  if sameIgnoringCase word "add" then some .add
  else if sameIgnoringCase word "delete" then some .delete
  else if sameIgnoringCase word "replace" then some .replace
  else none

namespace RecordState

/-- The record that starts with a `dn` line of the given value. -/
def start (mode : Mode) (value : Value) : Except Violation RecordState :=
  match Utf8.text? value with
  | none => .error .dnNotText
  | some text =>
      match Dn.parse text with
      | .error e => .error (.name e)
      | .ok dn =>
          match mode with
          | .content => .ok (.content dn .empty)
          | .changes => .ok (.untyped dn)

/-- The first line of a record, or the version line of a document. -/
def acceptFirst (mode : Mode) (isFirst : Bool) (name : String) (value : Value) :
    Except Violation RecordState :=
  if isFirst && sameIgnoringCase name "version" then
    match checkVersion value with
    | .error v => .error v
    | .ok () => .ok .idle
  else if sameIgnoringCase name "dn" then start mode value
  else .error (.noDnLine name)

/-- The line that tells the kind of change. -/
def acceptType (dn : Dn) (name : String) (value : Value) : Except Violation RecordState :=
  if !sameIgnoringCase name "changetype" then .error .noChangetype
  else
    let word := looseText value
    if sameIgnoringCase word "add" then .ok (.adding dn .empty)
    else if sameIgnoringCase word "delete" then .ok (.deleting dn)
    else if sameIgnoringCase word "modify" then .ok (.modifying dn [] none)
    else .error (.unknownChangetype (Utf8.decodeLossy value))

/-- The line that opens an edit. -/
def acceptEdit (dn : Dn) (edits : List Modification) (name : String) (value : Value) :
    Except Violation RecordState :=
  match editKind? name with
  | none => .error (.unknownEdit name)
  | some kind => .ok (.modifying dn edits (some ⟨kind, looseText value, .empty⟩))

/-- A line with an operand of the open edit. -/
def acceptOperand (dn : Dn) (edits : List Modification) (edit : Modification) (name : String)
    (value : Value) : Except Violation RecordState :=
  if name = edit.key then
    .ok (.modifying dn edits (some ⟨edit.kind, edit.key, edit.operands.values.insert value⟩))
  else .error (.strayOperand edit.key name)

/-- The state after a line that is no comment.  `isFirst` tells the first such line of the
    document. -/
def accept (mode : Mode) (isFirst : Bool) (bytes : Bytes) (state : RecordState) :
    Except Violation RecordState :=
  match state with
  | .idle => do
      let (name, value) ← splitLine bytes
      acceptFirst mode isFirst name value
  | .content dn attrs => do
      let (name, value) ← splitLine bytes
      return .content dn (attrs.addValues name [value])
  | .untyped dn => do
      let (name, value) ← splitLine bytes
      acceptType dn name value
  | .adding dn attrs => do
      let (name, value) ← splitLine bytes
      return .adding dn (attrs.addValues name [value])
  | .deleting _ => .error .deletionWithBody
  | .modifying dn edits none =>
      if isDash bytes then .error (.unknownEdit "-")
      else do
        let (name, value) ← splitLine bytes
        acceptEdit dn edits name value
  | .modifying dn edits (some edit) =>
      if isDash bytes then .ok (.modifying dn (edits ++ [edit]) none)
      else do
        let (name, value) ← splitLine bytes
        acceptOperand dn edits edit name value

/-- The record that a blank line completes, if there is one. -/
def complete : RecordState → Except Violation (Option Record)
  | .idle => .ok none
  | .content dn attrs => .ok (some (.entry ⟨dn, attrs⟩))
  | .untyped _ => .error .noChangetype
  | .adding dn attrs =>
      if attrs.isEmpty then .error .emptyAddition
      else .ok (some (.change (.add ⟨dn, attrs⟩)))
  | .deleting dn => .ok (some (.change (.delete dn)))
  | .modifying _ _ (some _) => .error .openEdit
  | .modifying dn edits none => .ok (some (.change (.modify dn edits)))

end RecordState

/-- A reader in the middle of a document. -/
structure Reader where
  mode : Mode
  /-- The bytes of the line that is not ended yet. -/
  unended : Bytes
  /-- The number of physical lines that are ended. -/
  lines : Nat
  /-- Whether a line that is no comment has been read. -/
  isStarted : Bool
  /-- The logical line that may still be continued. -/
  pending : Option LogicalLine
  state : RecordState
  /-- Complete records that have not been handed over. -/
  records : List Record
deriving DecidableEq

namespace Reader

/-- The reader before a document. -/
def start (mode : Mode) : Reader :=
  ⟨mode, [], 0, false, none, .idle, []⟩

/-- Takes in a logical line. -/
def logicalLine (r : Reader) (line : LogicalLine) : Except LdifError Reader :=
  if line.bytes.head? = some 0x23 then .ok r
  else match r.state.accept r.mode (!r.isStarted) line.bytes with
    | .error v => .error ⟨line.number, v⟩
    | .ok state => .ok { r with isStarted := true, state }

/-- Takes in the pending line, which nothing continues any more. -/
def flush (r : Reader) : Except LdifError Reader :=
  match r.pending with
  | none => .ok r
  | some line => logicalLine { r with pending := none } line

/-- Completes the current record at the blank line of the given number. -/
def endRecord (r : Reader) (number : Nat) : Except LdifError Reader :=
  match r.state.complete with
  | .error v => .error ⟨number, v⟩
  | .ok record => .ok { r with state := .idle, records := r.records ++ record.toList }

/-- A physical line without the carriage return at its end. -/
def withoutReturn (bytes : Bytes) : Bytes :=
  if bytes.getLast? = some 0x0D then bytes.dropLast else bytes

/-- Takes in the physical line of the given number. -/
def physicalLine (r : Reader) (number : Nat) (bytes : Bytes) : Except LdifError Reader :=
  match bytes with
  | [] => do (← r.flush).endRecord number
  | 0x20 :: rest =>
      match r.pending with
      | none => .error ⟨number, .nothingContinued⟩
      | some line => .ok { r with pending := some ⟨line.number, line.bytes ++ rest⟩ }
  | bytes => do return { (← r.flush) with pending := some ⟨number, bytes⟩ }

/-- Takes in the next physical line, given without its line feed. -/
def endLine (r : Reader) (bytes : Bytes) : Except LdifError Reader :=
  physicalLine { r with unended := [], lines := r.lines + 1 } (r.lines + 1)
    (withoutReturn bytes)

/-- Takes in the lines that end in a buffer one after another, and keeps what comes after the
    last of them. -/
def takeLines (r : Reader) (buffer : Bytes) : Except LdifError Reader :=
  match _h : buffer.dropWhile (· ≠ 0x0A) with
  | [] => .ok { r with unended := buffer }
  | _ :: rest =>
      match r.endLine (buffer.takeWhile (· ≠ 0x0A)) with
      | .error e => .error e
      | .ok r => takeLines r rest
termination_by buffer.length
decreasing_by
  have hsuffix := (List.dropWhile_suffix (· ≠ 0x0A) (l := buffer)).length_le
  rw [_h, List.length_cons] at hsuffix
  omega

/-- Takes in a chunk of bytes and hands over the records that are complete. -/
def feed (r : Reader) (bytes : Bytes) : Except LdifError (Reader × List Record) := do
  let r ← r.takeLines (r.unended ++ bytes)
  return ({ r with records := [] }, r.records)

/-- Takes in chunks one after another, and gathers the records that are handed over. -/
def feedAll (r : Reader) : List Bytes → Except LdifError (Reader × List Record)
  | [] => .ok (r, [])
  | chunk :: chunks => do
      let (r, records) ← r.feed chunk
      let (r, more) ← feedAll r chunks
      return (r, records ++ more)

/-- Ends the document and hands over the records that are left.  A document may end without
    a line end, but not inside a record. -/
def finish (r : Reader) : Except LdifError (List Record) := do
  let r ← if r.unended.isEmpty then pure r else r.endLine r.unended
  let r ← r.flush
  if r.state = .idle then return r.records else throw ⟨r.lines, .endsInsideRecord⟩

end Reader

/-- The records of a document. -/
def read (mode : Mode) (bytes : Bytes) : Except LdifError (List Record) := do
  let (r, records) ← (Reader.start mode).feed bytes
  return records ++ (← r.finish)

/-- The records of a document that comes in chunks. -/
def readChunks (mode : Mode) (chunks : List Bytes) : Except LdifError (List Record) := do
  let (r, records) ← (Reader.start mode).feedAll chunks
  return records ++ (← r.finish)

/-- The entries of a content document. -/
def parseEntries (text : String) : Except LdifError (List Entry) := do
  return (← read .content (utf8 text)).filterMap Record.entry?

/-- The changes of a change document. -/
def parseChanges (text : String) : Except LdifError (List Change) := do
  return (← read .changes (utf8 text)).filterMap Record.change?

end Ldif
end DirectoryStore
