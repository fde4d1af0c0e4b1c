import DirectoryStore.Proofs.Entry.Edits
import Mathlib.Data.Finset.Basic
import Mathlib.Data.Set.Card
import Mathlib.Logic.Function.Basic

/-!
# Histories of attribute maps

What an attribute map holds after any operations is told without lists that rise: for each type in
lower case a spelling and a set of values that is not empty.  An operation looks at one type, in
whatever case it is written, and leaves the others alone.  A spelling stays as long as its type has
a value; it goes with the last one and is replaced by an insertion.
-/

namespace DirectoryStore

/-- The members of a set of values, in no order. -/
def ValueSet.members (s : ValueSet) : Finset Value :=
  s.toList.toFinset

/-- What is held of attribute types in lower case: a spelling and values. -/
abbrev Holdings := String → Option (String × Finset Value)

namespace Holdings

/-- Nothing is held. -/
def empty : Holdings := fun _ => none

/-- A spelling with its values, which is nothing if there are none. -/
def kept (spelling : String) (values : Finset Value) : Option (String × Finset Value) :=
  if values = ∅ then none else some (spelling, values)

/-- Both the spelling and the values of a type are replaced. -/
def insert (h : Holdings) (spelling : String) (values : Finset Value) : Holdings :=
  Function.update h (foldCase spelling) (kept spelling values)

/-- A type that is held keeps its spelling; another one comes with that of the addition. -/
def addValues (h : Holdings) (key : String) (values : List Value) : Holdings :=
  if values = [] then h
  else Function.update h (foldCase key) (match h (foldCase key) with
    | some (spelling, held) => some (spelling, held ∪ values.toFinset)
    | none => some (key, values.toFinset))

def remove (h : Holdings) (key : String) : Holdings :=
  Function.update h (foldCase key) none

/-- A type that loses its last value loses its spelling. -/
def removeValues (h : Holdings) (key : String) (values : List Value) : Holdings :=
  match h (foldCase key) with
  | some (spelling, held) =>
      Function.update h (foldCase key) (kept spelling (held \ values.toFinset))
  | none => h

def ofPairs (pairs : List (String × List Value)) : Holdings :=
  pairs.foldl (fun h p => h.addValues p.1 p.2) empty

end Holdings

/-- What can be done to an attribute map; it is made anew from pairs or from sets. -/
inductive AttributeMap.Operation where
  | ofPairs (pairs : List (String × List Value))
  | ofSets (sets : List AttributeSet)
  | insert (set : AttributeSet)
  | addValues (key : String) (values : List Value)
  | remove (key : String)
  | removeValues (key : String) (values : List Value)

open AttributeMap (Operation)

def AttributeMap.perform (m : AttributeMap) : Operation → AttributeMap
  | .ofPairs pairs => .ofPairs pairs
  | .ofSets sets => .ofSets sets
  | .insert set => m.insert set
  | .addValues key values => m.addValues key values
  | .remove key => m.erase key
  | .removeValues key values => m.removeValues key values

def Holdings.perform (h : Holdings) : Operation → Holdings
  | .ofPairs pairs => .ofPairs pairs
  | .ofSets sets => .ofPairs (sets.map fun s => (s.key, s.values.toList))
  | .insert set => h.insert set.key set.values.members
  | .addValues key values => h.addValues key values
  | .remove key => h.remove key
  | .removeValues key values => h.removeValues key values

/-- The map after operations one after another, from the map without attributes on. -/
def AttributeMap.after (operations : List Operation) : AttributeMap :=
  operations.foldl perform empty

/-- What is held after operations one after another, from nothing on. -/
def Holdings.after (operations : List Operation) : Holdings :=
  operations.foldl perform empty

/-- What a map holds. -/
def AttributeMap.holdings (m : AttributeMap) : Holdings :=
  fun k => (m.setAt? k).map fun s => (s.key, s.values.members)

/-- A map is in order, and what it answers is what is held. -/
structure AttributeMap.Represents (m : AttributeMap) (h : Holdings) : Prop where
  nonempty : ∀ s ∈ m.sets, s.values.isEmpty = false
  /-- A set is found under its own type in any case, and under no other. -/
  stored : ∀ s ∈ m.sets, ∀ key, m.get? key = some s ↔ foldCase key = foldCase s.key
  rising : m.sets.Pairwise fun s t => foldCase s.key < foldCase t.key
  get? : ∀ key, (m.get? key).map (fun s => (s.key, s.values.members)) = h (foldCase key)
  contains : ∀ key, m.contains key = (h (foldCase key)).isSome
  size : m.size = {k | (h k).isSome}.ncard
  folded : ∀ k, (h k).isSome → foldCase k = k

namespace ValueSet

variable {s t : ValueSet} {v : Value}

@[simp] theorem mem_members : v ∈ s.members ↔ v ∈ s := List.mem_toFinset

theorem members_inj : s.members = t.members ↔ s = t := by
  rw [Finset.ext_iff]
  simp only [mem_members]
  exact ⟨ext, fun h v => h ▸ Iff.rfl⟩

theorem members_eq_empty : s.members = ∅ ↔ s.isEmpty = true := by
  rw [Finset.eq_empty_iff_forall_notMem, isEmpty_iff]
  simp only [mem_members]

theorem members_insertAll (s : ValueSet) (vs : List Value) :
    (s.insertAll vs).members = s.members ∪ vs.toFinset := by
  ext v
  rw [mem_members, mem_insertAll, Finset.mem_union, mem_members, List.mem_toFinset]

theorem members_eraseAll (s : ValueSet) (vs : List Value) :
    (vs.foldl erase s).members = s.members \ vs.toFinset := by
  ext v
  rw [mem_members, mem_eraseAll, Finset.mem_sdiff, mem_members, List.mem_toFinset]

theorem members_empty : empty.members = ∅ := rfl

end ValueSet

namespace AttributeMap

variable {m n : AttributeMap}

/-! ## One operation -/

/-- A set as it is held. -/
theorem kept_members (spelling : String) (values : ValueSet) :
    Holdings.kept spelling values.members =
      (if values.isEmpty then none else some (⟨spelling, values⟩ : AttributeSet)).map
        fun s => (s.key, s.values.members) := by
  rw [Holdings.kept]
  simp only [ValueSet.members_eq_empty]
  split <;> rfl

theorem holdings_insert (m : AttributeMap) (set : AttributeSet) :
    (m.insert set).holdings = m.holdings.insert set.key set.values.members := by
  funext k
  rw [holdings, setAt?_insert, Holdings.insert, Function.update_apply, kept_members]
  exact apply_ite _ _ _ _

theorem holdings_erase (m : AttributeMap) (key : String) :
    (m.erase key).holdings = m.holdings.remove key := by
  funext k
  rw [holdings, setAt?_erase, Holdings.remove, Function.update_apply]
  exact apply_ite _ _ _ _

/-- A change of the values of a type keeps its spelling if it is held. -/
theorem holdings_update (m : AttributeMap) (key : String) (f : ValueSet → ValueSet) :
    (m.update key f).holdings = Function.update m.holdings (foldCase key)
      (match m.get? key with
        | some s => Holdings.kept s.key (f s.values).members
        | none => Holdings.kept key (f .empty).members) := by
  rw [update]
  cases hget : m.get? key with
  | none => exact holdings_insert m _
  | some s =>
      have hs : foldCase s.key = foldCase key := (setAt?_eq_some_iff.mp hget).2
      dsimp only
      rw [holdings_insert, Holdings.insert, hs]

theorem holdings_addValues (m : AttributeMap) (key : String) (values : List Value) :
    (m.addValues key values).holdings = m.holdings.addValues key values := by
  have hheld : m.holdings (foldCase key) =
      (m.get? key).map fun s => (s.key, s.values.members) := rfl
  rw [addValues, holdings_update, Holdings.addValues, hheld]
  by_cases hvalues : values = []
  · -- without values a type that is not held does not come into the map
    rw [if_pos hvalues, hvalues]
    refine Function.update_eq_self_iff.mpr ?_
    rw [hheld]
    cases hget : m.get? key with
    | none => rfl
    | some s =>
        have hs := m.nonempty s (setAt?_eq_some_iff.mp hget).1
        have hnone : s.values.insertAll [] = s.values := rfl
        simp only [hnone, kept_members, hs, Bool.false_eq_true, if_false]
  · have hne : ∀ s : ValueSet, s.members ∪ values.toFinset ≠ ∅ := by
      intro s he
      rw [Finset.union_eq_empty, List.toFinset_eq_empty_iff] at he
      exact hvalues he.2
    rw [if_neg hvalues]
    cases m.get? key with
    | none =>
        have hfirst := hne .empty
        rw [ValueSet.members_empty, Finset.empty_union] at hfirst
        simp only [ValueSet.members_insertAll, ValueSet.members_empty, Finset.empty_union,
          Holdings.kept, if_neg hfirst, Option.map_none]
    | some s =>
        simp only [ValueSet.members_insertAll, Holdings.kept, if_neg (hne s.values),
          Option.map_some]

theorem holdings_removeValues (m : AttributeMap) (key : String) (values : List Value) :
    (m.removeValues key values).holdings = m.holdings.removeValues key values := by
  have hheld : m.holdings (foldCase key) =
      (m.get? key).map fun s => (s.key, s.values.members) := rfl
  rw [removeValues, holdings_update, Holdings.removeValues, hheld]
  cases hget : m.get? key with
  | none =>
      refine Function.update_eq_self_iff.mpr ?_
      rw [hheld, hget, ValueSet.members_eraseAll, ValueSet.members_empty, Finset.empty_sdiff]
      rfl
  | some s => simp only [ValueSet.members_eraseAll, Option.map_some]

theorem holdings_ofPairs (pairs : List (String × List Value)) :
    (ofPairs pairs).holdings = Holdings.ofPairs pairs := by
  have hfold : ∀ m : AttributeMap,
      (pairs.foldl (fun m p => m.addValues p.1 p.2) m).holdings =
        pairs.foldl (fun h p => h.addValues p.1 p.2) m.holdings := by
    intro m
    induction pairs generalizing m with
    | nil => rfl
    | cons p pairs ih => rw [List.foldl_cons, List.foldl_cons, ih, holdings_addValues]
  exact hfold empty

theorem holdings_perform (m : AttributeMap) (o : Operation) :
    (m.perform o).holdings = m.holdings.perform o := by
  cases o with
  | ofPairs pairs => exact holdings_ofPairs pairs
  | ofSets sets =>
      have hpairs : ofSets sets = ofPairs (sets.map fun s => (s.key, s.values.toList)) := by
        rw [ofSets, ofPairs, List.foldl_map]
      rw [perform, hpairs, holdings_ofPairs]
      rfl
  | insert set => exact holdings_insert m set
  | addValues key values => exact holdings_addValues m key values
  | remove key => exact holdings_erase m key
  | removeValues key values => exact holdings_removeValues m key values

/-! ## Whole histories -/

theorem holdings_after (operations : List Operation) :
    (after operations).holdings = Holdings.after operations := by
  have hfold : ∀ m : AttributeMap,
      (operations.foldl perform m).holdings = operations.foldl Holdings.perform m.holdings := by
    intro m
    induction operations generalizing m with
    | nil => rfl
    | cons o operations ih => rw [List.foldl_cons, List.foldl_cons, ih, holdings_perform]
  exact hfold empty

theorem isSome_holdings_iff {k : String} :
    (m.holdings k).isSome = true ↔ k ∈ m.sets.map AttributeSet.foldedKey := by
  rw [holdings, Option.isSome_map, Option.isSome_iff_exists, List.mem_map]
  simp only [setAt?_eq_some_iff]

/-- A map stands for what it holds. -/
theorem represents_holdings (m : AttributeMap) : m.Represents m.holdings where
  nonempty := m.nonempty
  stored := by
    intro s hs key
    rw [get?_eq, setAt?_eq_some_iff, and_iff_right hs]
    exact eq_comm
  rising := m.rising
  get? _ := rfl
  contains key := by
    rw [contains, holdings, Option.isSome_map]
    rfl
  size := by
    have hkeys : {k | (m.holdings k).isSome} =
        ((m.sets.map AttributeSet.foldedKey).toFinset : Set String) := by
      ext k
      rw [Set.mem_ofPred_eq, isSome_holdings_iff, List.coe_toFinset]
      exact Iff.rfl
    have hnodup : (m.sets.map AttributeSet.foldedKey).Nodup :=
      List.pairwise_map.mpr (Rising.pairwise_ne m.rising)
    rw [hkeys, Set.ncard_coe_finset, List.toFinset_card_of_nodup hnodup, List.length_map]
    rfl
  folded := by
    intro k hk
    obtain ⟨s, -, rfl⟩ := List.mem_map.mp (isSome_holdings_iff.mp hk)
    exact foldCase_foldCase s.key

theorem same_iff_holdings : m.same n = true ↔
    ∀ k, (m.holdings k).map Prod.snd = (n.holdings k).map Prod.snd := by
  have hvalues : ∀ (m : AttributeMap) k,
      (m.holdings k).map Prod.snd = (m.valuesAt? k).map ValueSet.members := by
    intro m k
    rw [holdings, valuesAt?, Option.map_map, Option.map_map]
    rfl
  have hinj : Function.Injective ValueSet.members := fun _ _ => ValueSet.members_inj.mp
  simp only [same_iff, hvalues, (Option.map_injective hinj).eq_iff]

/-- After any operations a map answers as is told by what is held, and two maps are the same just
    if the same values are held of the same types, whatever the spellings. -/
theorem after_represents (operations : List Operation) :
    (after operations).Represents (Holdings.after operations) ∧
      ∀ operations', (after operations).same (after operations') = true ↔
        ∀ k, (Holdings.after operations k).map Prod.snd =
          (Holdings.after operations' k).map Prod.snd := by
  refine ⟨?_, fun operations' => ?_⟩
  · rw [← holdings_after]
    exact represents_holdings _
  · rw [same_iff_holdings, holdings_after, holdings_after]

/-- A type comes back in another spelling once its last value has gone. -/
example : Holdings.after [.addValues "Sn" [[1]], .addValues "SN" [[2]],
    .removeValues "sn" [[1], [2]], .addValues "sN" [[1]]] "sn" = some ("sN", {[1]}) := by
  decide

end AttributeMap
end DirectoryStore
