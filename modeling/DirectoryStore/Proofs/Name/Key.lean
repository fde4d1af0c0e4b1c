import DirectoryStore.Name.Basic

/-!
# Sameness and containment of names

Names are compared by their keys.  Containment is a prefix of keys, so it goes along with
sameness on either side, and what lies below a name is found by cutting that name off at
the least specific end.
-/

namespace DirectoryStore

namespace Rdn

theorem same_iff {r s : Rdn} : r.same s = true ↔ r.key = s.key := by
  simp [same]

theorem same_refl (r : Rdn) : r.same r = true :=
  same_iff.mpr rfl

end Rdn

namespace Dn

theorem same_iff {a b : Dn} : a.same b = true ↔ a.key = b.key := by
  simp [same]

theorem same_refl (d : Dn) : d.same d = true :=
  same_iff.mpr rfl

theorem same_symm {a b : Dn} (h : a.same b = true) : b.same a = true :=
  same_iff.mpr (same_iff.mp h).symm

theorem same_comm (a b : Dn) : a.same b = b.same a := by
  rw [Bool.eq_iff_iff]
  exact ⟨same_symm, same_symm⟩

theorem same_trans {a b c : Dn} (hab : a.same b = true) (hbc : b.same c = true) :
    a.same c = true :=
  same_iff.mpr ((same_iff.mp hab).trans (same_iff.mp hbc))

/-- The key of a list of relative names, the most specific first. -/
theorem key_mk (rs : List Rdn) : (Dn.mk rs).key = (rs.map Rdn.key).reverse := by
  simp [key, List.map_reverse]

@[simp] theorem key_child (d : Dn) (r : Rdn) : (d.child r).key = d.key ++ [r.key] := by
  simp [child, key]

theorem key_append (rs ups : List Rdn) :
    (Dn.mk (rs ++ ups)).key = (Dn.mk ups).key ++ (rs.map Rdn.key).reverse := by
  simp [key_mk]

@[simp] theorem length_key (d : Dn) : d.key.length = d.size := by
  simp [key, size]

theorem size_eq_of_same {a b : Dn} (h : a.same b = true) : a.size = b.size := by
  rw [← length_key, ← length_key, same_iff.mp h]

theorem contains_iff {base d : Dn} : base.contains d = true ↔ base.key <+: d.key := by
  simp [contains]

theorem contains_refl (d : Dn) : d.contains d = true :=
  contains_iff.mpr (List.prefix_refl _)

theorem contains_of_same {a b : Dn} (h : a.same b = true) : a.contains b = true := by
  have hkey : a.key <+: b.key := same_iff.mp h ▸ List.prefix_refl _
  exact contains_iff.mpr hkey

theorem contains_trans {a b c : Dn} (hab : a.contains b = true) (hbc : b.contains c = true) :
    a.contains c = true :=
  contains_iff.mpr ((contains_iff.mp hab).trans (contains_iff.mp hbc))

theorem contains_child (d : Dn) (r : Rdn) : d.contains (d.child r) = true := by
  simp [contains_iff]

theorem size_le_of_contains {a b : Dn} (h : a.contains b = true) : a.size ≤ b.size := by
  rw [← length_key, ← length_key]
  exact (contains_iff.mp h).length_le

/-- A name that contains another and is not longer is the same. -/
theorem same_of_contains {a b : Dn} (h : a.contains b = true) (hlen : b.size ≤ a.size) :
    a.same b = true := by
  have hpre := contains_iff.mp h
  rw [← length_key, ← length_key] at hlen
  exact same_iff.mpr (hpre.eq_of_length (Nat.le_antisymm hpre.length_le hlen))

/-- What is above a name lies with it below a base, unless the name is the base. -/
theorem contains_up {base up : Dn} {r : Rdn} (h : base.contains (up.child r) = true)
    (hne : base.same (up.child r) = false) : base.contains up = true := by
  have hpre := contains_iff.mp h
  rw [key_child] at hpre
  rcases List.prefix_concat_iff.mp hpre with heq | hpre
  · have : base.same (up.child r) = true := same_iff.mpr (by rw [heq, key_child])
    rw [hne] at this
    cases this
  · exact contains_iff.mpr hpre

/-- A name contains another when cutting off enough relative names leaves the same name. -/
theorem contains_append_iff {base : Dn} {rs ups : List Rdn} (hlen : ups.length = base.size) :
    base.contains ⟨rs ++ ups⟩ = true ↔ (Dn.mk ups).same base = true := by
  rw [contains_iff, key_append, same_iff]
  have hlen' : base.key.length = (Dn.mk ups).key.length := by
    rw [length_key, length_key, ← hlen, size]
  constructor
  · intro h
    have hpre := List.prefix_of_prefix_length_le h (List.prefix_append _ _) (Nat.le_of_eq hlen')
    exact (hpre.eq_of_length hlen').symm
  · intro h
    rw [h]
    exact List.prefix_append _ _

/-- The relative names of `d` below `base` are what is left when the part that is the same as
    `base` is cut off. -/
theorem relative?_eq_some_iff {base d : Dn} {rs : List Rdn} :
    base.relative? d = some rs ↔ ∃ ups, d.rdns = rs ++ ups ∧ (Dn.mk ups).same base = true := by
  constructor
  · intro h
    unfold relative? at h
    split at h
    · rename_i hc
      cases h
      have hlen : base.size ≤ d.size := by
        have := (contains_iff.mp hc).length_le
        rwa [length_key, length_key] at this
      refine ⟨d.rdns.drop (d.size - base.size), (List.take_append_drop _ _).symm, ?_⟩
      have hdrop : (d.rdns.drop (d.size - base.size)).length = base.size := by
        rw [List.length_drop]
        simp only [size] at hlen ⊢
        omega
      rw [← contains_append_iff hdrop, List.take_append_drop]
      exact hc
    · cases h
  · rintro ⟨ups, hd, hups⟩
    have hlen : ups.length = base.size := size_eq_of_same hups
    have hc : base.contains d = true := by
      have : base.contains ⟨rs ++ ups⟩ = true := (contains_append_iff hlen).mpr hups
      rwa [← hd] at this
    rw [relative?, if_pos hc, size, hd, List.length_append, ← hlen, Nat.add_sub_cancel,
      List.take_left]

theorem relative?_eq_none_iff {base d : Dn} :
    base.relative? d = none ↔ base.contains d = false := by
  unfold relative?
  split <;> simp_all

/-- The relative names below a base fix the name up to the spelling of the base. -/
theorem same_of_relative? {base d : Dn} {rs : List Rdn} (h : base.relative? d = some rs) :
    d.same ⟨rs ++ base.rdns⟩ = true := by
  obtain ⟨ups, hd, hups⟩ := relative?_eq_some_iff.mp h
  rw [same_iff, key_append, ← same_iff.mp hups, ← key_append, ← hd]

end Dn
end DirectoryStore
