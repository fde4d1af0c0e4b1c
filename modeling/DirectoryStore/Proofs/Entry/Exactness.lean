import DirectoryStore.Proofs.Entry.Edits
import DirectoryStore.Proofs.Name.Key

/-!
# Exact differences

The edits between two attribute maps name the values that just one of them has, and each of these
once: an edit adds what its type gains or deletes what it loses, and a type has one edit of either
kind at most.  So the difference of two entries of one name says neither too much nor too little,
and it leads from the one to the other.
-/

namespace DirectoryStore

namespace AttributeMap

/-- The map has a value of an attribute type, in whatever spelling this stands. -/
def Has (m : AttributeMap) (key : String) (v : Value) : Prop :=
  ∃ set, m.get? key = some set ∧ v ∈ set.values

end AttributeMap

namespace Modification

/-- The edit names a value of an attribute type, in whatever spelling this stands. -/
def Names (x : Modification) (key : String) (v : Value) : Prop :=
  sameIgnoringCase x.key key = true ∧ v ∈ x.operands.values

theorem names_iff {x : Modification} {key : String} {v : Value} :
    x.Names key v ↔ x.operands.foldedKey = foldCase key ∧ v ∈ x.operands.values := by
  rw [Names, sameIgnoringCase, beq_iff_eq]
  rfl

/-- The edit adds the values of its type that only `n` has, or deletes those that only `m` has. -/
structure Exact (m n : AttributeMap) (x : Modification) : Prop where
  named : x.operands.values.isEmpty = false
  kind : x.kind = .add ∧ (∀ v, v ∈ x.operands.values ↔ n.Has x.key v ∧ ¬ m.Has x.key v) ∨
    x.kind = .delete ∧ ∀ v, v ∈ x.operands.values ↔ m.Has x.key v ∧ ¬ n.Has x.key v

/-- Edits of different types, or of different kinds. -/
def Apart (x y : Modification) : Prop :=
  x.operands.foldedKey = y.operands.foldedKey → x.kind ≠ y.kind

end Modification

namespace AttributeMap

open Modification (Apart Exact)

variable {m n : AttributeMap} {s ours theirs : AttributeSet} {k key : String} {v : Value}
variable {x y : Modification}

/-! ## What a map has -/

theorem has_congr (h : foldCase k = foldCase key) : m.Has k v ↔ m.Has key v := by
  rw [Has, Has, get?_eq, get?_eq, h]

theorem has_of_setAt? (h : m.setAt? (foldCase key) = some s) : m.Has key v ↔ v ∈ s.values := by
  rw [Has, get?_eq, h]
  constructor
  · rintro ⟨set, hset, hv⟩
    cases hset
    exact hv
  · exact fun hv => ⟨s, rfl, hv⟩

theorem not_has_of_setAt? (h : m.setAt? (foldCase key) = none) : ¬ m.Has key v := by
  rintro ⟨set, hset, -⟩
  rw [get?_eq, h] at hset
  cases hset

theorem has_of_mem (h : s ∈ m.sets) : m.Has s.key v ↔ v ∈ s.values :=
  has_of_setAt? (setAt?_of_mem h)

/-! ## Which edits there are -/

theorem mem_sharedEdits : x ∈ sharedEdits ours theirs ↔
    (theirs.diff ours).values.isEmpty = false ∧ x = ⟨.add, theirs.diff ours⟩ ∨
      (ours.diff theirs).values.isEmpty = false ∧ x = ⟨.delete, ours.diff theirs⟩ := by
  rw [sharedEdits, List.mem_append]
  refine or_congr ?_ ?_
  · cases (theirs.diff ours).values.isEmpty <;> simp
  · cases (ours.diff theirs).values.isEmpty <;> simp

/-- The edits of a type, if the first map has it. -/
theorem mem_elim_sharedEdits : x ∈ (m.get? theirs.key).elim [] (sharedEdits · theirs) ↔
    ∃ ours, m.setAt? theirs.foldedKey = some ours ∧ x ∈ sharedEdits ours theirs := by
  have hget : m.get? theirs.key = m.setAt? theirs.foldedKey := rfl
  rw [hget]
  cases m.setAt? theirs.foldedKey with
  | none => simp
  | some ours => simp

theorem mem_edits : x ∈ m.edits n ↔
    (∃ s ∈ n.sets, m.setAt? s.foldedKey = none ∧ x = ⟨.add, s⟩) ∨
      (∃ s ∈ m.sets, n.setAt? s.foldedKey = none ∧ x = ⟨.delete, s⟩) ∨
      ∃ theirs ∈ n.sets, ∃ ours, m.setAt? theirs.foldedKey = some ours ∧
        x ∈ sharedEdits ours theirs := by
  rw [edits_eq, List.mem_append, List.mem_append, or_assoc, List.mem_map, List.mem_map,
    List.mem_flatMap]
  refine or_congr ?_ (or_congr ?_ ?_)
  · refine exists_congr fun s => ?_
    rw [mem_filter_not_contains, and_assoc, @eq_comm _ x]
  · refine exists_congr fun s => ?_
    rw [mem_filter_not_contains, and_assoc, @eq_comm _ x]
  · exact exists_congr fun theirs => and_congr_right fun _ => mem_elim_sharedEdits

/-- Every edit is exact. -/
theorem exact_of_mem_edits (h : x ∈ m.edits n) : Exact m n x := by
  rcases mem_edits.mp h with ⟨s, hs, hnone, rfl⟩ | ⟨s, hs, hnone, rfl⟩ |
    ⟨theirs, htheirs, ours, hours, hx⟩
  · refine ⟨n.nonempty s hs, .inl ⟨rfl, fun v => ?_⟩⟩
    exact (and_iff_left (not_has_of_setAt? hnone)).trans (has_of_mem hs) |>.symm
  · refine ⟨m.nonempty s hs, .inr ⟨rfl, fun v => ?_⟩⟩
    exact (and_iff_left (not_has_of_setAt? hnone)).trans (has_of_mem hs) |>.symm
  · obtain ⟨hmem, hkey⟩ := setAt?_eq_some_iff.mp hours
    have hm : ∀ v, m.Has theirs.key v ↔ v ∈ ours.values := fun v => has_of_setAt? hours
    have hm' : ∀ v, m.Has ours.key v ↔ v ∈ ours.values := fun v => has_of_mem hmem
    have hn : ∀ v, n.Has theirs.key v ↔ v ∈ theirs.values := fun v => has_of_mem htheirs
    have hn' : ∀ v, n.Has ours.key v ↔ v ∈ theirs.values := fun v =>
      (has_congr hkey).trans (hn v)
    rcases mem_sharedEdits.mp hx with ⟨hne, rfl⟩ | ⟨hne, rfl⟩
    · refine ⟨hne, .inl ⟨rfl, fun v => ?_⟩⟩
      exact ValueSet.mem_diff.trans (and_congr (hn v) (not_congr (hm v))).symm
    · refine ⟨hne, .inr ⟨rfl, fun v => ?_⟩⟩
      exact ValueSet.mem_diff.trans (and_congr (hm' v) (not_congr (hn' v))).symm

theorem not_isEmpty_of_mem {s : ValueSet} (h : v ∈ s) : s.isEmpty = false := by
  rw [Bool.eq_false_iff, Ne, ValueSet.isEmpty_iff]
  exact fun hall => hall v h

/-- What is gained is added. -/
theorem exists_gaining (hn : n.Has key v) (hm : ¬ m.Has key v) :
    ∃ x ∈ m.edits n, x.Names key v := by
  obtain ⟨theirs, htheirs, hv⟩ := hn
  obtain ⟨hmem, hkey⟩ := setAt?_eq_some_iff.mp htheirs
  cases hours : m.setAt? theirs.foldedKey with
  | none =>
      exact ⟨⟨.add, theirs⟩, mem_edits.mpr (.inl ⟨theirs, hmem, hours, rfl⟩),
        Modification.names_iff.mpr ⟨hkey, hv⟩⟩
  | some ours =>
      have hv' : v ∈ (theirs.diff ours).values :=
        ValueSet.mem_diff.mpr ⟨hv, mt (has_of_setAt? (hkey ▸ hours)).mpr hm⟩
      have hedit := mem_sharedEdits.mpr (.inl ⟨not_isEmpty_of_mem hv', rfl⟩)
      exact ⟨_, mem_edits.mpr (.inr (.inr ⟨theirs, hmem, ours, hours, hedit⟩)),
        Modification.names_iff.mpr ⟨hkey, hv'⟩⟩

/-- What is lost is deleted. -/
theorem exists_losing (hm : m.Has key v) (hn : ¬ n.Has key v) : ∃ x ∈ m.edits n, x.Names key v := by
  obtain ⟨ours, hours, hv⟩ := hm
  obtain ⟨hmem, hkey⟩ := setAt?_eq_some_iff.mp hours
  cases htheirs : n.setAt? ours.foldedKey with
  | none =>
      exact ⟨⟨.delete, ours⟩, mem_edits.mpr (.inr (.inl ⟨ours, hmem, htheirs, rfl⟩)),
        Modification.names_iff.mpr ⟨hkey, hv⟩⟩
  | some theirs =>
      obtain ⟨hmem', hkey'⟩ := setAt?_eq_some_iff.mp htheirs
      have hv' : v ∈ (ours.diff theirs).values :=
        ValueSet.mem_diff.mpr ⟨hv, mt (has_of_setAt? (hkey ▸ htheirs)).mpr hn⟩
      have hedit := mem_sharedEdits.mpr (.inr ⟨not_isEmpty_of_mem hv', rfl⟩)
      have hours' : m.setAt? theirs.foldedKey = some ours := by
        rw [hkey', hkey]
        exact hours
      exact ⟨_, mem_edits.mpr (.inr (.inr ⟨theirs, hmem', ours, hours', hedit⟩)),
        Modification.names_iff.mpr ⟨hkey, hv'⟩⟩

/-! ## No two edits name one value -/

theorem foldedKey_of_mem_sharedEdits (hkey : ours.foldedKey = theirs.foldedKey)
    (h : x ∈ sharedEdits ours theirs) : x.operands.foldedKey = theirs.foldedKey := by
  rcases mem_sharedEdits.mp h with ⟨-, rfl⟩ | ⟨-, rfl⟩
  · rfl
  · exact hkey

theorem sharedEdits_pairwise (ours theirs : AttributeSet) :
    (sharedEdits ours theirs).Pairwise Apart := by
  refine List.pairwise_append.mpr ⟨?_, ?_, ?_⟩
  · split
    · exact .nil
    · exact List.pairwise_singleton _ _
  · split
    · exact .nil
    · exact List.pairwise_singleton _ _
  · intro x hx y hy _
    split at hx
    · cases hx
    split at hy
    · cases hy
    rw [List.mem_singleton.mp hx, List.mem_singleton.mp hy]
    nofun

/-- Edits with whole sets of a map are of different types. -/
theorem pairwise_map_filter (kind : EditKind) (p : AttributeSet → Bool) :
    ((m.sets.filter p).map (⟨kind, ·⟩)).Pairwise Apart := by
  rw [List.pairwise_map]
  exact (m.rising.pairwise_ne.filter p).imp fun hne hkey => absurd hkey hne

/-- The edits of a type that both maps have are of this type. -/
theorem foldedKey_of_mem_elim (h : x ∈ (m.get? theirs.key).elim [] (sharedEdits · theirs)) :
    x.operands.foldedKey = theirs.foldedKey := by
  obtain ⟨ours, hours, hx⟩ := mem_elim_sharedEdits.mp h
  exact foldedKey_of_mem_sharedEdits (setAt?_eq_some_iff.mp hours).2 hx

/-- The edits of types that both maps have are of different types from type to type. -/
theorem pairwise_flatMap_sharedEdits (m n : AttributeMap) :
    (n.sets.flatMap fun theirs => (m.get? theirs.key).elim [] (sharedEdits · theirs)).Pairwise
      Apart := by
  refine List.pairwise_flatMap.mpr ⟨fun theirs _ => ?_, n.rising.pairwise_ne.imp ?_⟩
  · cases m.get? theirs.key with
    | none => exact .nil
    | some ours => exact sharedEdits_pairwise ours theirs
  · intro s t hne x hx y hy hkey
    rw [foldedKey_of_mem_elim hx, foldedKey_of_mem_elim hy] at hkey
    exact absurd hkey hne

theorem edits_pairwise (m n : AttributeMap) : (m.edits n).Pairwise Apart := by
  rw [edits_eq]
  refine List.pairwise_append.mpr ⟨List.pairwise_append.mpr ⟨pairwise_map_filter _ _,
    pairwise_map_filter _ _, ?_⟩, pairwise_flatMap_sharedEdits m n, ?_⟩
  · -- a whole set that is added and one that is deleted are of different kinds
    intro x hx y hy _
    obtain ⟨s, -, rfl⟩ := List.mem_map.mp hx
    obtain ⟨t, -, rfl⟩ := List.mem_map.mp hy
    nofun
  · -- only one of the maps has the type of a whole set
    intro x hx y hy hsame
    obtain ⟨theirs, htheirs, hy⟩ := List.mem_flatMap.mp hy
    obtain ⟨ours, hours, -⟩ := mem_elim_sharedEdits.mp hy
    rw [foldedKey_of_mem_elim hy] at hsame
    rcases List.mem_append.mp hx with hx | hx
    · obtain ⟨s, hs, rfl⟩ := List.mem_map.mp hx
      have hnone := ((mem_filter_not_contains m n s).mp hs).2
      rw [show s.foldedKey = _ from hsame, hours] at hnone
      cases hnone
    · obtain ⟨s, hs, rfl⟩ := List.mem_map.mp hx
      have hnone := ((mem_filter_not_contains n m s).mp hs).2
      rw [show s.foldedKey = _ from hsame, setAt?_of_mem htheirs] at hnone
      cases hnone

/-- An exact edit that adds and one that deletes have no value in common. -/
theorem not_names_of_apart (hx : Exact m n x) (hy : Exact m n y) (h : Apart x y)
    (hv : x.Names key v) : ¬ y.Names key v := by
  intro hv'
  rw [Modification.names_iff] at hv hv'
  have hkind := h (hv.1.trans hv'.1.symm)
  have hxkey : ∀ {m : AttributeMap}, m.Has x.key v ↔ m.Has key v := has_congr hv.1
  have hykey : ∀ {m : AttributeMap}, m.Has y.key v ↔ m.Has key v := has_congr hv'.1
  rcases hx.kind with ⟨hx, hxv⟩ | ⟨hx, hxv⟩ <;> rcases hy.kind with ⟨hy, hyv⟩ | ⟨hy, hyv⟩
  · exact hkind (hx.trans hy.symm)
  · exact ((hyv v).mp hv'.2).2 (hykey.mpr (hxkey.mp ((hxv v).mp hv.2).1))
  · exact ((hyv v).mp hv'.2).2 (hykey.mpr (hxkey.mp ((hxv v).mp hv.2).1))
  · exact hkind (hx.trans hy.symm)

/-- The edits name the values that just one of the maps has. -/
theorem exists_names_iff (m n : AttributeMap) (key : String) (v : Value) :
    (∃ x ∈ m.edits n, x.Names key v) ↔
      m.Has key v ∧ ¬ n.Has key v ∨ n.Has key v ∧ ¬ m.Has key v := by
  constructor
  · rintro ⟨x, hx, hv⟩
    rw [Modification.names_iff] at hv
    have hkey : ∀ {m : AttributeMap}, m.Has x.key v ↔ m.Has key v := has_congr hv.1
    rcases (exact_of_mem_edits hx).kind with ⟨-, hall⟩ | ⟨-, hall⟩
    · obtain ⟨hn, hm⟩ := (hall v).mp hv.2
      exact .inr ⟨hkey.mp hn, mt hkey.mpr hm⟩
    · obtain ⟨hm, hn⟩ := (hall v).mp hv.2
      exact .inl ⟨hkey.mp hm, mt hkey.mpr hn⟩
  · rintro (⟨hm, hn⟩ | ⟨hn, hm⟩)
    · exact exists_losing hm hn
    · exact exists_gaining hn hm

end AttributeMap

namespace Entry

variable {a b : Entry}

/-- The edits between two entries: there are some, no two name one value of one type, those that
    are named are those that just one of the entries has, and they turn the first entry into the
    second one. -/
structure Separates (a b : Entry) (edits : List Modification) : Prop where
  nonempty : edits ≠ []
  once : edits.Pairwise fun x y => ∀ key v, x.Names key v → ¬ y.Names key v
  named : ∀ key v, (∃ x ∈ edits, x.Names key v) ↔
    a.attributes.Has key v ∧ ¬ b.attributes.Has key v ∨
      b.attributes.Has key v ∧ ¬ a.attributes.Has key v
  /-- No deletion stands for a whole attribute that it does not name. -/
  operands : ∀ x ∈ edits, x.operands.values.isEmpty = false
  patch : ∃ attributes, Modification.applyAll edits a.attributes = (attributes, none) ∧
    same ⟨a.dn, attributes⟩ b = true

/-- The edits between entries with different attributes separate them. -/
theorem separates_edits (h : a.dn.same b.dn = true)
    (hne : a.attributes.same b.attributes = false) :
    Separates a b (a.attributes.edits b.attributes) := by
  obtain ⟨attributes, hall, hsame⟩ := a.attributes.applyAll_edits b.attributes
  refine ⟨fun hnil => ?_, ?_, AttributeMap.exists_names_iff _ _, fun x hx =>
    (AttributeMap.exact_of_mem_edits hx).named, attributes, hall, ?_⟩
  · rw [hnil] at hall
    cases hall
    rw [hsame] at hne
    cases hne
  · refine (AttributeMap.edits_pairwise _ _).imp_of_mem fun hx hy hapart key v => ?_
    exact AttributeMap.not_names_of_apart (AttributeMap.exact_of_mem_edits hx)
      (AttributeMap.exact_of_mem_edits hy) hapart
  · rw [same, h, hsame]
    rfl

/-- Entries of one name have no difference just if their attributes are the same, and else one
    that separates them. -/
theorem diff_separates (h : a.dn.same b.dn = true) :
    (a.diff b = .ok none ↔ a.attributes.same b.attributes = true) ∧
      (a.attributes.same b.attributes = false → ∃ edits,
        a.diff b = .ok (some (.modify a.dn edits)) ∧ Separates a b edits) := by
  cases hsame : a.attributes.same b.attributes with
  | true => exact ⟨by simp [diff, h, hsame], nofun⟩
  | false =>
      exact ⟨by simp [diff, h, hsame], fun _ => ⟨_, by simp [diff, h, hsame],
        separates_edits h hsame⟩⟩

/-- Two spellings of one name, with an attribute in common that has a value of its own on either
    side, and with one more attribute on either side. -/
theorem diff_separates_spellings :
    let a : Entry := ⟨⟨[.single "cn" "x"]⟩, .ofPairs [("mail", [[97], [98]]), ("sn", [[99]])]⟩
    let b : Entry := ⟨⟨[.single "CN" "x"]⟩, .ofPairs [("MAIL", [[98], [99]]), ("o", [[97]])]⟩
    a.dn.same b.dn = true ∧ a.attributes.same b.attributes = false ∧
      ∃ edits, a.diff b = .ok (some (.modify a.dn edits)) ∧ Separates a b edits := by
  intro a b
  have hdn : a.dn.same b.dn = true := by decide
  have hne : a.attributes.same b.attributes = false := by decide
  exact ⟨hdn, hne, (diff_separates hdn).2 hne⟩

end Entry
end DirectoryStore
