import DirectoryStore.Name.Error
import DirectoryStore.Text.Base64

/-!
# What can be wrong with LDIF

A violation belongs to a physical line, that on which the offending logical line starts.
A bad name in a `dn` line is shown without its line.
-/

namespace DirectoryStore

/-- Why a document is not LDIF. -/
inductive Violation where
  /-- A line without a colon. -/
  | noSeparator
  /-- A record that starts with another line than `dn`. -/
  | noDnLine (key : String)
  | dnNotText
  /-- A continuation line with no line before it. -/
  | nothingContinued
  | versionNotNumber (value : String)
  /-- A version other than one. -/
  | unknownVersion (version : Nat)
  | endsInsideRecord
  /-- A value given by its address. -/
  | urlValue
  | invalidBase64 (cause : Base64.DecodeError)
  /-- A change record that does not tell its kind. -/
  | noChangetype
  | unknownChangetype (changetype : String)
  /-- An addition without attributes. -/
  | emptyAddition
  /-- A deletion with more lines than its kind. -/
  | deletionWithBody
  | unknownEdit (word : String)
  /-- A value of another attribute than the edit is of. -/
  | strayOperand (expected found : String)
  /-- A record that ends before the dash of an edit. -/
  | openEdit
  | name (cause : NameError)
deriving DecidableEq, Repr

/-- A violation at a physical line, counted from one. -/
structure LdifError where
  line : Nat
  violation : Violation
deriving DecidableEq, Repr

/-- The wording of a violation. -/
def Violation.message : Violation → String
  | noSeparator => "no ':' separator"
  | noDnLine key => s!"record starts with {quoteText key} instead of dn"
  | dnNotText => "dn value is not valid UTF-8"
  | nothingContinued => "record starts with a continuation line"
  | versionNotNumber value => s!"version {quoteText value} is not a number"
  | unknownVersion version => s!"unsupported LDIF version {version}"
  | endsInsideRecord => "input ends inside a record"
  | urlValue => "URL values are not supported"
  | invalidBase64 cause => s!"invalid base64 value: {cause.message}"
  | noChangetype => "expected a changetype line"
  | unknownChangetype changetype => s!"unsupported changetype {quoteText changetype}"
  | emptyAddition => "add record has no attributes"
  | deletionWithBody => "delete record must end after the changetype line"
  | unknownEdit word => s!"unknown modification {quoteText word}"
  | strayOperand expected found =>
      s!"value for {quoteText found} inside modification of {quoteText expected}"
  | openEdit => "modification not terminated by '-'"
  | name cause => cause.message

namespace LdifError

/-- The line to report, if the violation is one of LDIF itself. -/
def line? (e : LdifError) : Option Nat :=
  match e.violation with
  | .name _ => none
  | _ => some e.line

/-- The wording of an error. -/
def message (e : LdifError) : String :=
  match e.line? with
  | none => e.violation.message
  | some n => s!"line {n}: {e.violation.message}"

end LdifError
end DirectoryStore
