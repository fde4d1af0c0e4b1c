import DirectoryStore.Entry.Basic
import DirectoryStore.Text.Quoted

/-!
# Modifications

A modification edits the values of one attribute.  Its operands are an attribute set; for
a deletion the empty set means the whole attribute, for a replacement no values at all.
-/

namespace DirectoryStore

/-- What a modification does with its operands. -/
inductive EditKind where
  /-- Unites them with the values. -/
  | add
  /-- Takes them out of the values. -/
  | delete
  /-- Puts them in the stead of the values. -/
  | replace
deriving DecidableEq, Repr

/-- An edit of one attribute. -/
structure Modification where
  kind : EditKind
  operands : AttributeSet
deriving DecidableEq

/-- Why a modification cannot be applied. -/
inductive EntryError where
  /-- A deletion from an attribute that is not there. -/
  | noSuchAttribute (key : String)
  /-- A deletion of a value that is not there. -/
  | noSuchValue (key : String) (value : String)
deriving DecidableEq, Repr

/-- The wording of an error. -/
def EntryError.message : EntryError → String
  | noSuchAttribute key => s!"no such attribute: {key}"
  | noSuchValue key value => s!"attribute {key} has no value {quoteText value}"

namespace Modification

/-- The attribute that is edited. -/
def key (m : Modification) : String :=
  m.operands.key

/-- The same kind of edit with the same operands. -/
def same (m n : Modification) : Bool :=
  m.kind = n.kind && m.operands.same n.operands

/-- The attributes after the edit. -/
def apply (m : Modification) (attrs : AttributeMap) : Except EntryError AttributeMap :=
  match m.kind with
  | .add => .ok (attrs.addValues m.key m.operands.values.toList)
  | .replace => .ok (attrs.insert m.operands)
  | .delete =>
      match attrs.get? m.key with
      | none => .error (.noSuchAttribute m.key)
      | some current =>
          if m.operands.values.isEmpty then .ok (attrs.erase m.key)
          else match m.operands.values.toList.find? fun v => !current.values.contains v with
            | some missing => .error (.noSuchValue m.key (Utf8.decodeLossy missing))
            | none => .ok (attrs.removeValues m.key m.operands.values.toList)

/-- Applies edits one after another, up to the first that fails: the attributes then reached,
    with the failure if there was one. -/
def applyAll : List Modification → AttributeMap → AttributeMap × Option EntryError
  | [], attrs => (attrs, none)
  | m :: ms, attrs =>
      match m.apply attrs with
      | .error e => (attrs, some e)
      | .ok attrs => applyAll ms attrs

end Modification
end DirectoryStore
