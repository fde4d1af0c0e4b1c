import Mathlib.Data.List.Forall2
import DirectoryStore.Entry.Diff
import DirectoryStore.Proofs.Attribute.Lookup
import DirectoryStore.Proofs.Name.Key

/-!
# Entries that differ in spelling

The difference of two entries looks at attribute types without regard to case, so entries that are
the same have the same differences, edit by edit and in the same order.
-/

namespace DirectoryStore

open List (Forall₂)

namespace AttributeMap

variable {m m' n n' : AttributeMap} {s s' : AttributeSet}

theorem same_congr (hm : m.same m' = true) (hn : n.same n' = true) : m.same n = m'.same n' := by
  rw [same, beq_iff_eq] at hm hn
  rw [same, same, hm, hn]

/-- Maps that say the same have sets of the same types and values, in the same order. -/
theorem forall₂_sets (h : m.same m' = true) :
    Forall₂ (fun s s' => s.same s' = true) m.sets m'.sets := by
  rw [same, beq_iff_eq, view, view, ← List.forall₂_eq_eq_eq, List.forall₂_map_left_iff,
    List.forall₂_map_right_iff] at h
  refine h.imp fun s s' he => ?_
  rw [AttributeSet.same, (Prod.mk.inj he).1, (Prod.mk.inj he).2, beq_self_eq_true,
    beq_self_eq_true, Bool.and_true]

/-- A map finds a type in any spelling, in the spelling that it has itself. -/
theorem get?_rel (h : m.same m' = true) (hs : s.same s' = true) :
    Option.Rel (fun t t' => AttributeSet.same t t' = true) (m.get? s.key) (m'.get? s'.key) := by
  rw [AttributeSet.same, Bool.and_eq_true, beq_iff_eq, beq_iff_eq] at hs
  have hvalues := same_iff.mp h s.foldedKey
  rw [get?_eq, get?_eq, ← AttributeSet.foldedKey, ← AttributeSet.foldedKey, ← hs.1]
  rw [valuesAt?, valuesAt?] at hvalues
  cases ht : m.setAt? s.foldedKey with
  | none =>
      rw [ht, Option.map_none, eq_comm, Option.map_eq_none_iff] at hvalues
      rw [hvalues]
      exact .none
  | some t =>
      rw [ht, Option.map_some, eq_comm, Option.map_eq_some_iff] at hvalues
      obtain ⟨t', ht', hsame⟩ := hvalues
      have hkey := (setAt?_eq_some_iff.mp ht).2.trans (setAt?_eq_some_iff.mp ht').2.symm
      rw [ht']
      refine .some ?_
      rw [AttributeSet.same, hkey, hsame, beq_self_eq_true, beq_self_eq_true, Bool.and_true]

theorem contains_congr (h : m.same m' = true) (hs : s.same s' = true) :
    m.contains s.key = m'.contains s'.key := by
  have hrel := get?_rel h hs
  rw [contains, contains]
  generalize m.get? s.key = found, m'.get? s'.key = found' at hrel ⊢
  cases hrel <;> rfl

end AttributeMap

namespace Modification

/-- Edits that are the same one by one. -/
def Alike (ms ns : List Modification) : Prop :=
  Forall₂ (fun m n => m.same n = true) ms ns

theorem alike_iff {ms ns : List Modification} : Alike ms ns ↔ Change.sameEdits ms ns = true := by
  induction ms generalizing ns with
  | nil => cases ns <;> simp [Alike, Change.sameEdits]
  | cons m ms ih =>
      cases ns with
      | nil => simp [Alike, Change.sameEdits]
      | cons n ns =>
          rw [Alike, List.forall₂_cons, Change.sameEdits, Bool.and_eq_true, ← ih]
          rfl

theorem same_mk {kind : EditKind} {s s' : AttributeSet} (h : s.same s' = true) :
    Modification.same ⟨kind, s⟩ ⟨kind, s'⟩ = true := by
  simp [same, h]

end Modification

namespace AttributeMap

open Modification (Alike)

variable {m m' n n' : AttributeMap} {ours ours' theirs theirs' : AttributeSet}

/-- Edits with the sets that satisfy a condition, which does not look at spellings. -/
theorem alike_filter {kind : EditKind} {p q : AttributeSet → Bool} (h : m.same m' = true)
    (hpq : ∀ s s' : AttributeSet, s.same s' = true → p s = q s') :
    Alike ((m.sets.filter p).map (⟨kind, ·⟩)) ((m'.sets.filter q).map (⟨kind, ·⟩)) := by
  rw [Alike, List.forall₂_map_left_iff, List.forall₂_map_right_iff]
  refine (List.rel_filter ?_ (forall₂_sets h)).imp fun s s' => Modification.same_mk
  intro s s' hs
  exact iff_of_eq (congrArg (· = true) (hpq s s' hs))

/-- The edit with a set, unless that is empty. -/
theorem alike_ite {kind : EditKind} {s s' : AttributeSet} (h : s.same s' = true) :
    Alike (if s.values.isEmpty then [] else [⟨kind, s⟩])
      (if s'.values.isEmpty then [] else [⟨kind, s'⟩]) := by
  have hvalues : s.values = s'.values := by
    rw [AttributeSet.same, Bool.and_eq_true, beq_iff_eq, beq_iff_eq] at h
    exact h.2
  rw [hvalues]
  split
  · exact .nil
  · exact .cons (Modification.same_mk h) .nil

theorem alike_sharedEdits (hours : ours.same ours' = true) (htheirs : theirs.same theirs' = true) :
    Alike (sharedEdits ours theirs) (sharedEdits ours' theirs') := by
  have hdiff : ∀ {s s' t t' : AttributeSet}, s.same s' = true → t.same t' = true →
      (s.diff t).same (s'.diff t') = true := by
    intro s s' t t' hs ht
    simp only [AttributeSet.same, Bool.and_eq_true, beq_iff_eq] at hs ht ⊢
    exact ⟨hs.1, by rw [AttributeSet.diff, AttributeSet.diff, hs.2, ht.2]⟩
  exact List.rel_append (alike_ite (hdiff htheirs hours)) (alike_ite (hdiff hours htheirs))

/-- Maps that say the same have the same edits between them. -/
theorem alike_edits (hm : m.same m' = true) (hn : n.same n' = true) :
    Alike (m.edits n) (m'.edits n') := by
  refine List.rel_append (List.rel_append ?_ ?_) (List.rel_flatMap (forall₂_sets hn) ?_)
  · exact alike_filter hn fun s s' hs => by rw [contains_congr hm hs]
  · exact alike_filter hm fun s s' hs => by rw [contains_congr hn hs]
  · intro theirs theirs' htheirs
    have hrel := get?_rel hm htheirs
    dsimp only
    generalize m.get? theirs.key = found, m'.get? theirs'.key = found' at hrel ⊢
    cases hrel with
    | none => exact .nil
    | some hours => exact alike_sharedEdits hours htheirs

end AttributeMap

namespace Entry

variable {e e' f f' : Entry}

theorem same_iff :
    e.same f = true ↔ e.dn.same f.dn = true ∧ e.attributes.same f.attributes = true := by
  rw [same, Bool.and_eq_true]

/-- Entries that are the same have the same difference, and it is found if the names are the
    same. -/
theorem diff_rel (he : e.same e' = true) (hf : f.same f' = true) (h : e.dn.same f.dn = true) :
    ∃ own own', e.diff f = .ok own ∧ e'.diff f' = .ok own' ∧
      Forall₂ (fun c c' => Change.same c c' = true) own.toList own'.toList := by
  rw [same_iff] at he hf
  have h' : e'.dn.same f'.dn = true :=
    Dn.same_trans (Dn.same_symm he.1) (Dn.same_trans h hf.1)
  have hattrs := AttributeMap.same_congr he.2 hf.2
  by_cases hsame : e.attributes.same f.attributes = true
  · refine ⟨none, none, by simp [diff, h, hsame], by simp [diff, h', ← hattrs, hsame], .nil⟩
  · refine ⟨some (.modify e.dn (e.attributes.edits f.attributes)),
      some (.modify e'.dn (e'.attributes.edits f'.attributes)), by simp [diff, h, hsame],
      by simp [diff, h', ← hattrs, hsame], ?_⟩
    refine .cons ?_ .nil
    rw [Change.same, he.1, Bool.true_and, ← Modification.alike_iff]
    exact AttributeMap.alike_edits he.2 hf.2

end Entry
end DirectoryStore
