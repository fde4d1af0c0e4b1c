import DirectoryStore.Entry.Diff
import DirectoryStore.Proofs.Attribute.Lookup

/-!
# Edits between two attribute maps

The edits that lead from one map to another act on one type each.  Each finds the values
that it takes away, whatever was done to other types before, so the edits succeed one after
another and give every type the values that it has in the other map.
-/

namespace DirectoryStore

namespace ValueSet

variable {s t : ValueSet} {v : Value} {vs : List Value}

theorem isEmpty_iff : s.isEmpty = true ↔ ∀ v, v ∉ s := by
  rw [isEmpty, List.isEmpty_iff, List.eq_nil_iff_forall_not_mem]
  exact Iff.rfl

theorem mem_eraseAll : v ∈ vs.foldl erase s ↔ v ∈ s ∧ v ∉ vs := by
  induction vs generalizing s with
  | nil => simp
  | cons w vs ih => rw [List.foldl_cons, ih, mem_erase, List.mem_cons, not_or, and_assoc]

/-- What is gained and what is lost lead from one set to the other. -/
theorem eraseAll_insertAll (s t : ValueSet) :
    (s.diff t).toList.foldl erase (s.insertAll (t.diff s).toList) = t := by
  refine ext fun v => ?_
  rw [mem_eraseAll, mem_insertAll, mem_toList, mem_toList, mem_diff, mem_diff]
  by_cases hs : v ∈ s <;> by_cases ht : v ∈ t <;> simp [hs, ht]

end ValueSet

namespace Modification

variable {es fs : List Modification} {m m' : AttributeMap} {k : String}
variable {u v w : Option ValueSet}

theorem applyAll_append (h : applyAll es m = (m', none)) :
    applyAll (es ++ fs) m = applyAll fs m' := by
  induction es generalizing m with
  | nil =>
      cases h
      rfl
  | cons e es ih =>
      rw [List.cons_append, applyAll]
      rw [applyAll] at h
      cases he : e.apply m with
      | error err =>
          rw [he] at h
          cases h
      | ok m₁ =>
          rw [he] at h
          exact ih h

/-- Edits that take the values of one type from `v` to `w` and leave other types alone. -/
def Acts (es : List Modification) (k : String) (v w : Option ValueSet) : Prop :=
  ∀ m : AttributeMap, m.valuesAt? k = v → ∃ m', applyAll es m = (m', none) ∧
    m'.valuesAt? k = w ∧ ∀ k', k' ≠ k → m'.valuesAt? k' = m.valuesAt? k'

namespace Acts

theorem nil : Acts [] k v v :=
  fun m hm => ⟨m, rfl, hm, fun _ _ => rfl⟩

theorem append (h : Acts es k u v) (h' : Acts fs k v w) : Acts (es ++ fs) k u w := by
  intro m hm
  obtain ⟨m₁, h₁, hk, hne⟩ := h m hm
  obtain ⟨m₂, h₂, hk', hne'⟩ := h' m₁ hk
  refine ⟨m₂, ?_, hk', fun k' hk => (hne' k' hk).trans (hne k' hk)⟩
  rw [applyAll_append h₁, h₂]

/-- Edits of different types in sequence. -/
theorem all {α : Type} {l : List α} {f : α → List Modification} {g : α → String}
    {v w : α → Option ValueSet} (hf : ∀ x ∈ l, Acts (f x) (g x) (v x) (w x))
    (hne : l.Pairwise fun x y => g x ≠ g y) (hm : ∀ x ∈ l, m.valuesAt? (g x) = v x) :
    ∃ m', applyAll (l.flatMap f) m = (m', none) ∧
      (∀ x ∈ l, m'.valuesAt? (g x) = w x) ∧
      ∀ k, (∀ x ∈ l, g x ≠ k) → m'.valuesAt? k = m.valuesAt? k := by
  induction l generalizing m with
  | nil => exact ⟨m, rfl, nofun, fun _ _ => rfl⟩
  | cons x l ih =>
      obtain ⟨hx, hne⟩ := List.pairwise_cons.mp hne
      obtain ⟨m₁, h₁, hk₁, hne₁⟩ := hf x List.mem_cons_self m (hm x List.mem_cons_self)
      have hm₁ : ∀ y ∈ l, m₁.valuesAt? (g y) = v y := fun y hy =>
        (hne₁ _ (Ne.symm (hx y hy))).trans (hm y (List.mem_cons_of_mem _ hy))
      obtain ⟨m₂, h₂, hk₂, hne₂⟩ := ih (fun y hy => hf y (List.mem_cons_of_mem _ hy)) hne hm₁
      refine ⟨m₂, ?_, fun y hy => ?_, fun k hk => ?_⟩
      · rw [List.flatMap_cons, applyAll_append h₁, h₂]
      · rcases List.mem_cons.mp hy with rfl | hy
        · rw [hne₂ _ fun z hz => Ne.symm (hx z hz), hk₁]
        · exact hk₂ y hy
      · rw [hne₂ k fun y hy => hk y (List.mem_cons_of_mem _ hy)]
        exact hne₁ k (Ne.symm (hk x List.mem_cons_self))

/-- Operands are added to the values. -/
theorem add (s : AttributeSet) (h : s.values.isEmpty = false) :
    Acts [⟨.add, s⟩] s.foldedKey v
      (some ((v.getD .empty).insertAll s.values.toList)) := by
  intro m hm
  refine ⟨m.addValues s.key s.values.toList, rfl, ?_, fun k' hk => ?_⟩
  · have hne : ((v.getD .empty).insertAll s.values.toList).isEmpty = false := by
      rw [Bool.eq_false_iff, Ne, ValueSet.isEmpty_iff] at h ⊢
      exact fun hall => h fun x hx => hall x (ValueSet.mem_insertAll.mpr (.inr hx))
    refine (AttributeMap.valuesAt?_update ..).trans ((if_pos rfl).trans ?_)
    simp only [hm, hne]
    rfl
  · exact (AttributeMap.valuesAt?_update ..).trans (if_neg hk)

/-- Operands that are among the values are taken out of them. -/
theorem delete (s : AttributeSet) {values : ValueSet} (h : s.values.isEmpty = false)
    (hsub : ∀ x ∈ s.values, x ∈ values) :
    Acts [⟨.delete, s⟩] s.foldedKey (some values)
      (let rest := s.values.toList.foldl ValueSet.erase values
       if rest.isEmpty then none else some rest) := by
  intro m hm
  obtain ⟨current, hget, hcurrent⟩ := Option.map_eq_some_iff.mp hm
  have hfind : s.values.toList.find? (fun x => !current.values.contains x) = none := by
    rw [List.find?_eq_none]
    intro x hx
    rw [hcurrent, ValueSet.contains_iff.mpr (hsub x hx)]
    exact Bool.false_ne_true
  have happly : applyAll [⟨.delete, s⟩] m =
      (m.removeValues s.key s.values.toList, none) := by
    have hget : m.get? s.key = some current := hget
    simp only [applyAll, apply, key, hget, h, hfind]
    rfl
  refine ⟨_, happly, ?_, fun k' hk => ?_⟩
  · refine (AttributeMap.valuesAt?_update ..).trans ((if_pos rfl).trans ?_)
    rw [hm]
    rfl
  · rw [AttributeMap.removeValues, AttributeMap.valuesAt?_update]
    exact if_neg hk

end Acts
end Modification

namespace AttributeMap

open Modification (Acts)

variable {m n : AttributeMap} {ours theirs : AttributeSet}

theorem acts_gained (h : theirs.values.isEmpty = false) :
    Acts [⟨.add, theirs⟩] theirs.foldedKey none (some theirs.values) := by
  have := Acts.add (v := none) theirs h
  rwa [Option.getD_none, ValueSet.empty_insertAll] at this

theorem acts_lost (h : ours.values.isEmpty = false) :
    Acts [⟨.delete, ours⟩] ours.foldedKey (some ours.values) none := by
  have hrest : (ours.values.toList.foldl ValueSet.erase ours.values).isEmpty = true := by
    rw [ValueSet.isEmpty_iff]
    intro v hv
    rw [ValueSet.mem_eraseAll] at hv
    exact hv.2 hv.1
  have := Acts.delete ours h fun _ hx => hx
  simpa [hrest] using this

theorem acts_shared (hkey : ours.foldedKey = theirs.foldedKey)
    (h : theirs.values.isEmpty = false) :
    Acts (sharedEdits ours theirs) theirs.foldedKey (some ours.values) (some theirs.values) := by
  have hgain : Acts
      (if (theirs.diff ours).values.isEmpty then [] else [⟨.add, theirs.diff ours⟩])
      theirs.foldedKey (some ours.values)
      (some (ours.values.insertAll (theirs.values.diff ours.values).toList)) := by
    split
    · rename_i he
      have : (theirs.values.diff ours.values).toList = [] := List.isEmpty_iff.mp he
      rw [this]
      exact Acts.nil
    · rename_i he
      rw [Bool.not_eq_true] at he
      exact Acts.add (v := some ours.values) (theirs.diff ours) he
  have hloss : Acts
      (if (ours.diff theirs).values.isEmpty then [] else [⟨.delete, ours.diff theirs⟩])
      theirs.foldedKey (some (ours.values.insertAll (theirs.values.diff ours.values).toList))
      (some theirs.values) := by
    have hback := ValueSet.eraseAll_insertAll ours.values theirs.values
    split
    · rename_i he
      have : (ours.values.diff theirs.values).toList = [] := List.isEmpty_iff.mp he
      rw [this, List.foldl_nil] at hback
      rw [hback]
      exact Acts.nil
    · rename_i he
      rw [Bool.not_eq_true] at he
      have hsub : ∀ x ∈ (ours.diff theirs).values,
          x ∈ ours.values.insertAll (theirs.values.diff ours.values).toList := fun x hx =>
        ValueSet.mem_insertAll.mpr (.inl (ValueSet.mem_diff.mp hx).1)
      have hdel := Acts.delete (ours.diff theirs) he hsub
      have hfolded : (ours.diff theirs).foldedKey = theirs.foldedKey := hkey
      have hvalues : (ours.diff theirs).values = ours.values.diff theirs.values := rfl
      rw [hfolded, hvalues, hback] at hdel
      simpa [h] using hdel
  exact hgain.append hloss

theorem contains_eq (m : AttributeMap) (s : AttributeSet) :
    m.contains s.key = (m.setAt? s.foldedKey).isSome := rfl

theorem edits_eq (m n : AttributeMap) : m.edits n =
    (n.sets.filter fun s => !m.contains s.key).map (⟨.add, ·⟩) ++
      (m.sets.filter fun s => !n.contains s.key).map (⟨.delete, ·⟩) ++
      n.sets.flatMap fun theirs => (m.get? theirs.key).elim [] (sharedEdits · theirs) := by
  rw [edits]
  congr 2
  funext theirs
  cases m.get? theirs.key <;> rfl

/-- The edits are about attributes of either side, in their spelling there. -/
theorem forall_key_edits {p : String → Prop} (hm : ∀ s ∈ m.sets, p s.key)
    (hn : ∀ s ∈ n.sets, p s.key) : ∀ x ∈ m.edits n, p x.key := by
  have hshared : ∀ ours ∈ m.sets, ∀ theirs ∈ n.sets, ∀ x ∈ sharedEdits ours theirs, p x.key := by
    intro ours hours theirs htheirs x hx
    rcases List.mem_append.mp hx with hx | hx
    · split at hx
      · cases hx
      · obtain rfl := List.mem_singleton.mp hx
        exact hn theirs htheirs
    · split at hx
      · cases hx
      · obtain rfl := List.mem_singleton.mp hx
        exact hm ours hours
  intro x hx
  rw [edits_eq, List.mem_append, List.mem_append, List.mem_map, List.mem_map,
    List.mem_flatMap] at hx
  rcases hx with (⟨s, hs, rfl⟩ | ⟨s, hs, rfl⟩) | ⟨theirs, htheirs, hx⟩
  · exact hn s (List.mem_filter.mp hs).1
  · exact hm s (List.mem_filter.mp hs).1
  · cases hget : m.get? theirs.key with
    | none =>
        rw [hget] at hx
        cases hx
    | some ours =>
        rw [hget] at hx
        exact hshared ours (setAt?_eq_some_iff.mp hget).1 theirs htheirs x hx

theorem mem_filter_not_contains (m n : AttributeMap) (s : AttributeSet) :
    s ∈ n.sets.filter (fun s => !m.contains s.key) ↔
      s ∈ n.sets ∧ m.setAt? s.foldedKey = none := by
  rw [List.mem_filter, contains_eq, Bool.not_eq_true', Option.isSome_eq_false_iff,
    Option.isNone_iff_eq_none]

/-- What is gained gives types that were missing their values. -/
theorem applyAll_gained (m n : AttributeMap) : ∃ m',
    Modification.applyAll ((n.sets.filter fun s => !m.contains s.key).map (⟨.add, ·⟩)) m =
      (m', none) ∧ ∀ k, m'.valuesAt? k = (m.valuesAt? k).or (n.valuesAt? k) := by
  have hmem := mem_filter_not_contains m n
  have hgains : ∀ s ∈ n.sets.filter fun s => !m.contains s.key,
      Acts [⟨.add, s⟩] s.foldedKey none (some s.values) := fun s hs =>
    acts_gained (n.nonempty s ((hmem s).mp hs).1)
  obtain ⟨m', h, hgain, hkeep⟩ := Acts.all hgains (n.rising.pairwise_ne.filter _)
    fun s hs => valuesAt?_eq_none ((hmem s).mp hs).2
  rw [← List.map_eq_flatMap] at h
  refine ⟨m', h, fun k => ?_⟩
  cases hm : m.setAt? k with
  | some s =>
      have hother : ∀ s' ∈ n.sets.filter fun s => !m.contains s.key, s'.foldedKey ≠ k := by
        rintro s' hs' rfl
        rw [((hmem s').mp hs').2] at hm
        cases hm
      rw [hkeep k hother, valuesAt?_eq_some hm, Option.some_or]
  | none =>
      rw [valuesAt?_eq_none hm, Option.none_or]
      cases hn : n.setAt? k with
      | some s =>
          obtain ⟨hs, rfl⟩ := setAt?_eq_some_iff.mp hn
          rw [hgain s ((hmem s).mpr ⟨hs, hm⟩), valuesAt?_eq_some hn]
      | none =>
          have hnot := setAt?_eq_none_iff.mp hn
          rw [hkeep k fun s hs => hnot s ((hmem s).mp hs).1, valuesAt?_eq_none hm,
            valuesAt?_eq_none hn]

/-- What is lost leaves the types of the other map alone. -/
theorem applyAll_lost {m₁ : AttributeMap} (m n : AttributeMap)
    (h₁ : ∀ k, m₁.valuesAt? k = (m.valuesAt? k).or (n.valuesAt? k)) : ∃ m',
    Modification.applyAll ((m.sets.filter fun s => !n.contains s.key).map (⟨.delete, ·⟩)) m₁ =
      (m', none) ∧ (∀ k, n.setAt? k = none → m'.valuesAt? k = none) ∧
        ∀ k, n.setAt? k ≠ none → m'.valuesAt? k = m₁.valuesAt? k := by
  have hmem := mem_filter_not_contains n m
  have hlosses : ∀ s ∈ m.sets.filter fun s => !n.contains s.key,
      Acts [⟨.delete, s⟩] s.foldedKey (some s.values) none := fun s hs =>
    acts_lost (m.nonempty s ((hmem s).mp hs).1)
  have hours : ∀ s ∈ m.sets.filter fun s => !n.contains s.key,
      m₁.valuesAt? s.foldedKey = some s.values := fun s hs => by
    rw [h₁, valuesAt?_eq_some (setAt?_of_mem ((hmem s).mp hs).1), Option.some_or]
  obtain ⟨m', h, hloss, hkeep⟩ := Acts.all hlosses (m.rising.pairwise_ne.filter _) hours
  rw [← List.map_eq_flatMap] at h
  refine ⟨m', h, fun k hn => ?_, fun k hn => hkeep k ?_⟩
  · cases hm : m.setAt? k with
    | some s =>
        obtain ⟨hs, rfl⟩ := setAt?_eq_some_iff.mp hm
        exact hloss s ((hmem s).mpr ⟨hs, hn⟩)
    | none =>
        have hnot := setAt?_eq_none_iff.mp hm
        rw [hkeep k fun s hs => hnot s ((hmem s).mp hs).1, h₁, valuesAt?_eq_none hm,
          valuesAt?_eq_none hn, Option.or_none]
  · rintro s hs rfl
    exact hn ((hmem s).mp hs).2

/-- The edits of types that both maps have give them the values of the other map. -/
theorem applyAll_shared {m₂ : AttributeMap} (m n : AttributeMap)
    (hother : ∀ k, n.setAt? k = none → m₂.valuesAt? k = none)
    (hshared : ∀ k, n.setAt? k ≠ none →
      m₂.valuesAt? k = (m.valuesAt? k).or (n.valuesAt? k)) : ∃ m',
    Modification.applyAll
      (n.sets.flatMap fun theirs => (m.get? theirs.key).elim [] (sharedEdits · theirs)) m₂ =
      (m', none) ∧ ∀ k, m'.valuesAt? k = n.valuesAt? k := by
  have hedits : ∀ s ∈ n.sets, Acts ((m.get? s.key).elim [] (sharedEdits · s)) s.foldedKey
      (m₂.valuesAt? s.foldedKey) (some s.values) := fun s hs => by
    have hn := setAt?_of_mem hs
    have hget : m.get? s.key = m.setAt? s.foldedKey := rfl
    rw [hshared s.foldedKey (by rw [hn]; exact Option.some_ne_none _), hget]
    cases hm : m.setAt? s.foldedKey with
    | none =>
        rw [valuesAt?_eq_none hm, valuesAt?_eq_some hn, Option.none_or]
        exact Acts.nil
    | some ours =>
        rw [valuesAt?_eq_some hm, Option.some_or]
        exact acts_shared (setAt?_eq_some_iff.mp hm).2 (n.nonempty s hs)
  obtain ⟨m', h, hdone, hkeep⟩ := Acts.all hedits n.rising.pairwise_ne fun _ _ => rfl
  refine ⟨m', h, fun k => ?_⟩
  cases hn : n.setAt? k with
  | some s =>
      obtain ⟨hs, rfl⟩ := setAt?_eq_some_iff.mp hn
      rw [hdone s hs, valuesAt?_eq_some hn]
  | none =>
      rw [hkeep k (setAt?_eq_none_iff.mp hn), hother k hn, valuesAt?_eq_none hn]

/-- The edits from one map to another succeed and lead to a map that says what the other one
    does. -/
theorem applyAll_edits (m n : AttributeMap) :
    ∃ m', Modification.applyAll (m.edits n) m = (m', none) ∧ m'.same n = true := by
  obtain ⟨m₁, h₁, hgained⟩ := applyAll_gained m n
  obtain ⟨m₂, h₂, hlost, hkept⟩ := applyAll_lost m n hgained
  obtain ⟨m₃, h₃, hshared⟩ := applyAll_shared m n hlost
    fun k hk => (hkept k hk).trans (hgained k)
  refine ⟨m₃, ?_, same_iff.mpr hshared⟩
  rw [edits_eq, List.append_assoc, Modification.applyAll_append h₁,
    Modification.applyAll_append h₂, h₃]

end AttributeMap
end DirectoryStore
