import DirectoryStore.Entry.Basic
import DirectoryStore.Filter.Basic

/-!
# Which entries satisfy a filter

Values are compared as bytes, attribute types without regard to ASCII case.  A matching
rule is exact or ignores the case of ASCII letters; an item with any other rule is never
satisfied.
-/

namespace DirectoryStore

/-- A value with its ASCII letters in lower case. -/
def foldValue (v : Value) : Value :=
  v.map foldByte

/-- The relation of a value of the entry to the value that an item gives. -/
def Comparison.holds (c : Comparison) (given v : Value) : Bool :=
  match c with
  | .equal => v = given
  | .approximate => foldValue v = foldValue given
  | .atLeast => !(v < given : Bool)
  | .atMost => !(given < v : Bool)

namespace Item

/-- What follows `start` in a value that starts with it. -/
def afterStart? (start v : Value) : Option Value :=
  if start.isPrefixOf v then some (v.drop start.length) else none

/-- What precedes `finish` in a value that ends with it. -/
def beforeEnd? (finish v : Value) : Option Value :=
  if finish.isSuffixOf v then some (v.take (v.length - finish.length)) else none

/-- What follows the first occurrence of `needle` in a value. -/
def afterFirst? (needle : Value) : Value → Option Value
  | [] => if needle.isEmpty then some [] else none
  | b :: rest =>
      match afterStart? needle (b :: rest) with
      | some after => some after
      | none => afterFirst? needle rest

/-- Whether a value has the given start, end and parts in between. -/
def hasParts (initial : Option Value) (any : List Value) (final : Option Value) (v : Value) :
    Bool :=
  let inner := do
    let afterInitial ← afterStart? (initial.getD []) v
    let beforeFinal ← beforeEnd? (final.getD []) afterInitial
    any.foldlM (fun rest needle => afterFirst? needle rest) beforeFinal
  inner.isSome

/-- The comparison that a matching rule stands for. -/
def ruleComparison? : Option String → Option Comparison
  | none => some .equal
  | some name =>
      if sameIgnoringCase name "caseExactMatch" || name == "2.5.13.5" then some .equal
      else if sameIgnoringCase name "caseIgnoreMatch" || name == "2.5.13.2" then
        some .approximate
      else none

/-- Whether an extensible match looks at an attribute type. -/
def wants (key : Option String) (type : String) : Bool :=
  key.all (sameIgnoringCase type)

/-- Whether some value of the attribute satisfies `p`. -/
def someValue (e : Entry) (key : String) (p : Value → Bool) : Bool :=
  (e.attributes.get? key).any fun s => s.values.toList.any p

/-- Whether some value in the attributes that an extensible match looks at satisfies `p`. -/
def someWanted (e : Entry) (key : Option String) (p : Value → Bool) : Bool :=
  (e.attributes.sets.filter fun s => wants key s.key).any fun s => s.values.toList.any p

/-- Whether some component of the name that an extensible match looks at satisfies `p`. -/
def someComponent (dn : Dn) (key : Option String) (p : Value → Bool) : Bool :=
  ((dn.rdns.flatMap Rdn.components).filter fun c => wants key c.type).any
    fun c => p (utf8 c.value)

/-- Whether an entry passes the test. -/
def holds (i : Item) (e : Entry) : Bool :=
  match i with
  | .compare c key value => someValue e key (c.holds value)
  | .present key => e.attributes.contains key
  | .substrings key initial any final => someValue e key (hasParts initial any final)
  | .extensible key withDn rule value =>
      match ruleComparison? rule with
      | none => false
      | some c =>
          someWanted e key (c.holds value) || (withDn && someComponent e.dn key (c.holds value))

end Item

namespace Filter

mutual

/-- Whether an entry satisfies the filter. -/
def accepts : Filter → Entry → Bool
  | and fs, e => allAccept fs e
  | or fs, e => anyAccept fs e
  | not f, e => !accepts f e
  | item i, e => i.holds e

/-- Whether an entry satisfies every filter of a list. -/
def allAccept : List Filter → Entry → Bool
  | [], _ => true
  | f :: fs, e => accepts f e && allAccept fs e

/-- Whether an entry satisfies some filter of a list. -/
def anyAccept : List Filter → Entry → Bool
  | [], _ => false
  | f :: fs, e => accepts f e || anyAccept fs e

end

end Filter
end DirectoryStore
