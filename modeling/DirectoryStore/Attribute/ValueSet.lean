import DirectoryStore.Attribute.Rising
import DirectoryStore.Text.Utf8

/-!
# Sets of values

A value is a sequence of bytes.  A set of values is kept in byte order without
repetition, so that two sets are equal when they have the same members.
-/

namespace DirectoryStore

/-- A value of an attribute. -/
abbrev Value := Bytes

/-- A set of values, listed in byte order. -/
structure ValueSet where
  toList : List Value
  rising : Rising (fun v : Value => v) toList
deriving DecidableEq

namespace ValueSet

/-- The set without values. -/
def empty : ValueSet := ⟨[], List.Pairwise.nil⟩

def isEmpty (s : ValueSet) : Bool :=
  s.toList.isEmpty

/-- The number of values. -/
def size (s : ValueSet) : Nat :=
  s.toList.length

/-- The smallest value. -/
def first? (s : ValueSet) : Option Value :=
  s.toList.head?

def contains (s : ValueSet) (v : Value) : Bool :=
  s.toList.contains v

/-- The set with `v` in it. -/
def insert (s : ValueSet) (v : Value) : ValueSet :=
  ⟨Rising.put (fun v => v) v s.toList, Rising.put_rising v s.rising⟩

/-- The values that satisfy `p`. -/
def filter (p : Value → Bool) (s : ValueSet) : ValueSet :=
  ⟨s.toList.filter p, Rising.filter_rising p s.rising⟩

/-- The set without `v`. -/
def erase (s : ValueSet) (v : Value) : ValueSet :=
  s.filter (· ≠ v)

/-- The set with all of `vs` in it. -/
def insertAll (s : ValueSet) (vs : List Value) : ValueSet :=
  vs.foldl insert s

/-- The values of a list. -/
def ofList (vs : List Value) : ValueSet :=
  empty.insertAll vs

/-- The values of either set. -/
def union (s t : ValueSet) : ValueSet :=
  s.insertAll t.toList

/-- The values of both sets. -/
def inter (s t : ValueSet) : ValueSet :=
  s.filter t.contains

/-- The values of `s` that are not in `t`. -/
def diff (s t : ValueSet) : ValueSet :=
  s.filter fun v => !t.contains v

/-- The values of just one of the sets. -/
def symmDiff (s t : ValueSet) : ValueSet :=
  (s.diff t).union (t.diff s)

instance : Membership Value ValueSet := ⟨fun s v => v ∈ s.toList⟩

theorem mem_toList {s : ValueSet} {v : Value} : v ∈ s.toList ↔ v ∈ s := Iff.rfl

theorem contains_iff {s : ValueSet} {v : Value} : s.contains v = true ↔ v ∈ s := by
  simp [contains, ← mem_toList]

/-- Sets with the same members are equal. -/
theorem ext {s t : ValueSet} (h : ∀ v, v ∈ s ↔ v ∈ t) : s = t := by
  obtain ⟨l, hl⟩ := s
  obtain ⟨m, hm⟩ := t
  have : l = m := Rising.ext hl hm h
  subst this
  rfl

theorem not_mem_empty (v : Value) : v ∉ empty := List.not_mem_nil

theorem mem_insert {s : ValueSet} {v w : Value} : w ∈ s.insert v ↔ w = v ∨ w ∈ s := by
  rw [← mem_toList, insert, Rising.mem_put, mem_toList]
  constructor
  · rintro (h | h)
    · exact .inl h
    · exact .inr h.1
  · rintro (h | h)
    · exact .inl h
    · by_cases hw : w = v
      · exact .inl hw
      · exact .inr ⟨h, hw⟩

theorem mem_filter {p : Value → Bool} {s : ValueSet} {v : Value} :
    v ∈ s.filter p ↔ v ∈ s ∧ p v = true := by
  simp [← mem_toList, filter]

theorem mem_erase {s : ValueSet} {v w : Value} : w ∈ s.erase v ↔ w ∈ s ∧ w ≠ v := by
  simp [erase, mem_filter]

theorem mem_insertAll {vs : List Value} {s : ValueSet} {v : Value} :
    v ∈ s.insertAll vs ↔ v ∈ s ∨ v ∈ vs := by
  induction vs generalizing s with
  | nil => simp [insertAll]
  | cons w vs ih =>
      have : s.insertAll (w :: vs) = (s.insert w).insertAll vs := rfl
      rw [this, ih, mem_insert, List.mem_cons]
      constructor
      · rintro ((h | h) | h) <;> simp [h]
      · rintro (h | h | h) <;> simp [h]

theorem mem_diff {s t : ValueSet} {v : Value} : v ∈ s.diff t ↔ v ∈ s ∧ v ∉ t := by
  rw [diff, mem_filter, ← contains_iff (s := t)]
  simp

end ValueSet
end DirectoryStore
