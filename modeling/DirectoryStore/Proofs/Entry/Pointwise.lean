import DirectoryStore.Proofs.Entry.Edits
import DirectoryStore.Proofs.Name.Key

/-!
# Edits attribute by attribute

An edit looks at the set of its attribute type and at no other: whether it can be applied depends
on that set alone, and so does what it leaves of it.  Other types keep their sets as they are, in
their spelling.  Hence edits of different types do not get in each other's way.
-/

namespace DirectoryStore

/-- The values of an attribute type, none where the type is not there. -/
def AttributeMap.valuesOf (m : AttributeMap) (key : String) : ValueSet :=
  ((m.get? key).map AttributeSet.values).getD .empty

namespace Modification

/-- Applies an edit to an entry: the entry then, with the failure if there was one. -/
def patch (m : Modification) (e : Entry) : Entry × Option EntryError :=
  let (attributes, failure) := applyAll [m] e.attributes
  (⟨e.dn, attributes⟩, failure)

/-- The edit cannot be applied: it deletes from an attribute that is not there, or values that are
    not all there, the first of which is named. -/
inductive Refused (m : Modification) (e : Entry) : EntryError → Prop
  | noSuchAttribute (hkind : m.kind = .delete) (h : e.attributes.get? m.key = none) :
      Refused m e (.noSuchAttribute m.key)
  | noSuchValue {set : AttributeSet} {v : Value} (hkind : m.kind = .delete)
      (h : e.attributes.get? m.key = some set)
      (hv : (m.operands.values.diff set.values).first? = some v) :
      Refused m e (.noSuchValue m.key (Utf8.decodeLossy v))

/-- What an edit makes of the values of its type. -/
def result (m : Modification) (values : ValueSet) : ValueSet :=
  match m.kind with
  | .add => values.union m.operands.values
  | .delete => if m.operands.values.isEmpty then .empty else values.diff m.operands.values
  | .replace => m.operands.values

/-- The spelling of its type that an edit leaves: a replacement brings its own. -/
def spelling (m : Modification) (found : Option AttributeSet) : String :=
  if m.kind = .replace then m.key else (found.map AttributeSet.key).getD m.key

/-- What an edit makes of the set of its type. -/
def leaves (m : Modification) (found : Option AttributeSet) : Option AttributeSet :=
  let values := m.result ((found.map AttributeSet.values).getD .empty)
  if values.isEmpty then none else some ⟨m.spelling found, values⟩

/-- The second entry is the first one after the edit: its type has the values that the edit makes
    of those before and is gone if these are none, and all else is as it was. -/
structure Applied (m : Modification) (e e' : Entry) : Prop where
  dn : e'.dn = e.dn
  values : e'.attributes.valuesOf m.key = m.result (e.attributes.valuesOf m.key)
  absent : e'.attributes.get? m.key = none ↔
    (m.result (e.attributes.valuesOf m.key)).isEmpty = true
  spelling : ∀ set, e'.attributes.get? m.key = some set →
    set.key = m.spelling (e.attributes.get? m.key)
  others : ∀ key, sameIgnoringCase m.key key = false →
    e'.attributes.get? key = e.attributes.get? key

/-- Each of two edits succeeds or fails as it does alone, whichever comes first, and both orders
    lead to one entry. -/
structure Independent (m n : Modification) (e : Entry) : Prop where
  second : (n.patch (m.patch e).1).2 = (n.patch e).2
  first : (m.patch (n.patch e).1).2 = (m.patch e).2
  entry : (n.patch (m.patch e).1).1 = (m.patch (n.patch e).1).1

variable {m n : Modification} {e e' : Entry} {attrs attrs' : AttributeMap} {err : EntryError}

/-! ## Whether an edit can be applied -/

theorem patch_of_ok (h : m.apply e.attributes = .ok attrs) :
    m.patch e = (⟨e.dn, attrs⟩, none) := by
  rw [patch, applyAll, h]
  rfl

theorem patch_of_error (h : m.apply e.attributes = .error err) : m.patch e = (e, some err) := by
  rw [patch, applyAll, h]

theorem apply_eq_error_iff : m.apply e.attributes = .error err ↔ m.Refused e err := by
  constructor
  · intro h
    unfold apply at h
    split at h
    · cases h
    · cases h
    · rename_i hkind
      split at h
      · rename_i hnone
        cases h
        exact .noSuchAttribute hkind hnone
      · rename_i set hset
        split at h
        · cases h
        · split at h
          · rename_i v hv
            cases h
            exact .noSuchValue hkind hset (List.head?_filter.trans hv)
          · cases h
  · rintro (⟨hkind, hnone⟩ | @⟨set, v, hkind, hset, hv⟩)
    · simp only [apply, hkind, hnone]
    · have hne : m.operands.values.isEmpty = false := by
        rw [Bool.eq_false_iff, Ne, ValueSet.isEmpty_iff]
        exact fun hall => hall v (ValueSet.mem_diff.mp (List.mem_of_mem_head? hv)).1
      have hfind : m.operands.values.toList.find? (fun v => !set.values.contains v) = some v :=
        List.head?_filter.symm.trans hv
      simp only [apply, hkind, hset, hne, hfind, Bool.false_eq_true, if_false]

/-- An edit fails as it is refused, and leaves the entry alone then. -/
theorem patch_failure_iff : (m.patch e).2 = some err ↔ m.Refused e err := by
  rw [← apply_eq_error_iff]
  cases h : m.apply e.attributes with
  | ok attrs => simp [patch_of_ok h]
  | error err' => simp [patch_of_error h]

theorem patch_unchanged (h : (m.patch e).2 = some err) : (m.patch e).1 = e := by
  rw [patch_of_error (apply_eq_error_iff.mpr (patch_failure_iff.mp h))]

/-- To be refused is a matter of the set of the type. -/
theorem Refused.congr (h : e.attributes.get? m.key = e'.attributes.get? m.key) :
    m.Refused e err ↔ m.Refused e' err := by
  constructor
  · rintro (⟨hkind, hnone⟩ | ⟨hkind, hset, hv⟩)
    · exact .noSuchAttribute hkind (h.symm.trans hnone)
    · exact .noSuchValue hkind (h.symm.trans hset) hv
  · rintro (⟨hkind, hnone⟩ | ⟨hkind, hset, hv⟩)
    · exact .noSuchAttribute hkind (h.trans hnone)
    · exact .noSuchValue hkind (h.trans hset) hv

theorem failure_congr (h : e.attributes.get? m.key = e'.attributes.get? m.key) :
    (m.patch e).2 = (m.patch e').2 := by
  refine Option.ext fun err => ?_
  rw [patch_failure_iff, patch_failure_iff, Refused.congr h]

theorem exists_refused_iff : (∃ err, m.Refused e err) ↔ m.kind = .delete ∧
    (e.attributes.get? m.key = none ∨
      ∃ v ∈ m.operands.values, v ∉ e.attributes.valuesOf m.key) := by
  constructor
  · rintro ⟨err, ⟨hkind, hnone⟩ | @⟨set, v, hkind, hset, hv⟩⟩
    · exact ⟨hkind, .inl hnone⟩
    · obtain ⟨hmem, hnot⟩ := ValueSet.mem_diff.mp (List.mem_of_mem_head? hv)
      refine ⟨hkind, .inr ⟨v, hmem, ?_⟩⟩
      rw [AttributeMap.valuesOf, hset]
      exact hnot
  · rintro ⟨hkind, hfault⟩
    cases hfound : e.attributes.get? m.key with
    | none => exact ⟨_, .noSuchAttribute hkind hfound⟩
    | some set =>
        rw [AttributeMap.valuesOf, hfound] at hfault
        obtain ⟨v, hv, hnot⟩ := hfault.resolve_left nofun
        have hdiff : v ∈ (m.operands.values.diff set.values).toList :=
          ValueSet.mem_diff.mpr ⟨hv, hnot⟩
        cases hfirst : (m.operands.values.diff set.values).first? with
        | none =>
            rw [List.head?_eq_none_iff.mp hfirst] at hdiff
            cases hdiff
        | some w => exact ⟨_, .noSuchValue hkind hfound hfirst⟩

/-! ## What an edit leaves -/

theorem eraseAll_eq_diff (s t : ValueSet) : t.toList.foldl ValueSet.erase s = s.diff t :=
  ValueSet.ext fun v => by rw [ValueSet.mem_eraseAll, ValueSet.mem_diff, ValueSet.mem_toList]

/-- The set of each type after an edit. -/
theorem setAt?_apply (h : m.apply attrs = .ok attrs') (k : String) :
    attrs'.setAt? k = if k = foldCase m.key then m.leaves (attrs.setAt? k) else attrs.setAt? k := by
  -- Each outcome is a change of the map at one key.
  unfold apply at h
  split at h
  · rename_i hkind
    cases h
    rw [AttributeMap.addValues, AttributeMap.setAt?_update]
    refine ite_congr rfl (fun hk => ?_) fun _ => rfl
    rw [hk, ← AttributeMap.get?_eq]
    simp only [leaves, result, spelling, hkind]
    cases attrs.get? m.key <;> rfl
  · rename_i hkind
    cases h
    rw [AttributeMap.setAt?_insert]
    refine ite_congr rfl (fun _ => ?_) fun _ => rfl
    simp only [leaves, result, spelling, hkind]
    rfl
  · rename_i hkind
    split at h
    · cases h
    · rename_i set hset
      split at h
      · rename_i hall
        cases h
        rw [AttributeMap.setAt?_erase]
        refine ite_congr rfl (fun _ => ?_) fun _ => rfl
        simp only [leaves, result, hkind, if_pos hall]
        rfl
      · rename_i hsome
        split at h
        · cases h
        · cases h
          rw [AttributeMap.removeValues, AttributeMap.setAt?_update]
          refine ite_congr rfl (fun hk => ?_) fun _ => rfl
          rw [hk, ← AttributeMap.get?_eq, hset]
          simp only [leaves, result, spelling, hkind, if_neg hsome, eraseAll_eq_diff]
          rfl

/-- The set of each type after an edit that may fail. -/
theorem setAt?_patch (m : Modification) (e : Entry) (k : String) :
    (m.patch e).1.attributes.setAt? k = if (m.patch e).2 = none ∧ k = foldCase m.key
      then m.leaves (e.attributes.setAt? k) else e.attributes.setAt? k := by
  cases h : m.apply e.attributes with
  | ok attrs => simp [patch_of_ok h, setAt?_apply h]
  | error err => simp [patch_of_error h]

theorem get?_patch_of_ne {key : String} (h : sameIgnoringCase m.key key = false) (e : Entry) :
    (m.patch e).1.attributes.get? key = e.attributes.get? key := by
  rw [sameIgnoringCase, beq_eq_false_iff_ne] at h
  rw [AttributeMap.get?_eq, setAt?_patch, if_neg fun hk => h hk.2.symm]
  rfl

theorem get?_patch (h : (m.patch e).2 = none) :
    (m.patch e).1.attributes.get? m.key = m.leaves (e.attributes.get? m.key) := by
  rw [AttributeMap.get?_eq, setAt?_patch, if_pos ⟨h, rfl⟩]
  rfl

theorem applied_patch (h : (m.patch e).2 = none) : m.Applied e (m.patch e).1 := by
  have hleaves := get?_patch h
  have hvalues : m.leaves (e.attributes.get? m.key) =
      if (m.result (e.attributes.valuesOf m.key)).isEmpty then none
      else some ⟨m.spelling (e.attributes.get? m.key), m.result (e.attributes.valuesOf m.key)⟩ :=
    rfl
  rw [hvalues] at hleaves
  refine ⟨rfl, ?_, ?_, ?_, fun key hkey => get?_patch_of_ne hkey e⟩
  · rw [AttributeMap.valuesOf, hleaves]
    split
    · rename_i hempty
      exact (ValueSet.isEmpty_iff_eq.mp hempty).symm
    · rfl
  · rw [hleaves]
    split <;> simp_all
  · intro set hset
    rw [hleaves] at hset
    split at hset
    · cases hset
    · cases hset
      rfl

/-! ## Two edits -/

theorem independent (h : sameIgnoringCase m.key n.key = false) (e : Entry) :
    Independent m n e := by
  have h' : sameIgnoringCase n.key m.key = false := by
    rw [sameIgnoringCase, beq_eq_false_iff_ne] at h ⊢
    exact h.symm
  have hsecond := failure_congr (get?_patch_of_ne h e)
  have hfirst := failure_congr (get?_patch_of_ne h' e)
  refine ⟨hsecond, hfirst, ?_⟩
  have hmap : (n.patch (m.patch e).1).1.attributes = (m.patch (n.patch e).1).1.attributes := by
    refine AttributeMap.ext_setAt? fun k => ?_
    rw [setAt?_patch n, setAt?_patch m (n.patch e).1, hsecond, hfirst, setAt?_patch m e,
      setAt?_patch n e]
    rw [sameIgnoringCase, beq_eq_false_iff_ne] at h
    by_cases hm : k = foldCase m.key
    · have hn : k ≠ foldCase n.key := hm ▸ h
      simp [hn]
    · simp [hm]
  calc (n.patch (m.patch e).1).1
      = ⟨e.dn, (n.patch (m.patch e).1).1.attributes⟩ := rfl
    _ = ⟨e.dn, (m.patch (n.patch e).1).1.attributes⟩ := by rw [hmap]
    _ = (m.patch (n.patch e).1).1 := rfl

/-- An edit fails just if it deletes what is not there, and leaves the entry alone then.  Else it
    edits the values of its type as a set, and nothing more.  So edits of different types may be
    applied in either order. -/
theorem patch_pointwise (m : Modification) (e : Entry) :
    ((∃ err, (m.patch e).2 = some err) ↔ m.kind = .delete ∧
        (e.attributes.get? m.key = none ∨
          ∃ v ∈ m.operands.values, v ∉ e.attributes.valuesOf m.key)) ∧
      (∀ err, (m.patch e).2 = some err ↔ m.Refused e err) ∧
      (∀ err, (m.patch e).2 = some err → (m.patch e).1 = e) ∧
      ((m.patch e).2 = none → m.Applied e (m.patch e).1) ∧
      ∀ n : Modification, sameIgnoringCase m.key n.key = false → Independent m n e := by
  refine ⟨?_, fun _ => patch_failure_iff, fun _ => patch_unchanged, applied_patch,
    fun n h => independent h e⟩
  rw [← exists_refused_iff]
  exact exists_congr fun _ => patch_failure_iff

/-- A deletion of all the values that an attribute has, in another spelling of its type, next to an
    addition to another attribute; and a deletion that names a value too many. -/
theorem patch_pointwise_spellings :
    let e : Entry := ⟨⟨[.single "cn" "x"]⟩, .ofPairs [("Mail", [[97], [98]]), ("SN", [[99]])]⟩
    let m : Modification := ⟨.delete, .ofList "mail" [[98], [97]]⟩
    let n : Modification := ⟨.add, .ofList "sn" [[100]]⟩
    let x : Modification := ⟨.delete, .ofList "sn" [[99], [100]]⟩
    m.Applied e ⟨e.dn, .ofPairs [("SN", [[99]])]⟩ ∧ Independent m n e ∧
      (n.patch (m.patch e).1).1 = ⟨e.dn, .ofPairs [("SN", [[99], [100]])]⟩ ∧
      (x.patch e).2 = some (.noSuchValue "sn" "d") ∧ (x.patch e).1 = e := by
  intro e m n x
  have hm : m.patch e = (⟨e.dn, .ofPairs [("SN", [[99]])]⟩, none) := by decide
  have happlied := (patch_pointwise m e).2.2.2.1 (by rw [hm])
  rw [hm] at happlied
  have hx : (x.patch e).2 = some (.noSuchValue "sn" "d") := by decide +kernel
  exact ⟨happlied, (patch_pointwise m e).2.2.2.2 n (by decide), by decide, hx,
    (patch_pointwise x e).2.2.1 _ hx⟩

end Modification
end DirectoryStore
