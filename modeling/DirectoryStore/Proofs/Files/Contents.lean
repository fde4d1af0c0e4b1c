import DirectoryStore.Proofs.Files.Places
import DirectoryStore.Proofs.Ldif.RoundTrip
import DirectoryStore.Proofs.Name.Key

/-!
# Contents

The contents of a tree are the attributes of its entries by the relative names that lead to
them from the root.  What an operation may do to them keeps them proper: parents are there,
siblings have different names, and everything can be written and read.
-/

namespace DirectoryStore

open Ldif (SafeKey)

/-- The attributes of entries by the relative names that lead to them, the most specific
    first. -/
abbrev Contents := List Rdn → Option AttributeMap

/-- Attributes whose types LDIF preserves. -/
def AttributeMap.Writable (a : AttributeMap) : Prop :=
  ∀ s ∈ a.sets, SafeKey s.key

instance (a : AttributeMap) : Decidable a.Writable :=
  inferInstanceAs (Decidable (∀ s ∈ a.sets, SafeKey s.key))

/-! ## Attributes that LDIF preserves -/

namespace AttributeMap.Writable

variable {a b : AttributeMap}

theorem erase (h : a.Writable) (key : String) : (a.erase key).Writable :=
  fun s hs => h s (List.mem_filter.mp hs).1

theorem insert (h : a.Writable) {s : AttributeSet} (hs : SafeKey s.key) : (a.insert s).Writable :=
  forall_key_insert h hs

theorem update (h : a.Writable) {key : String} (hkey : SafeKey key) (f : ValueSet → ValueSet) :
    (a.update key f).Writable :=
  forall_key_update h hkey f

theorem apply (h : a.Writable) {m : Modification} (hm : SafeKey m.key)
    (happly : m.apply a = .ok b) : b.Writable := by
  unfold Modification.apply at happly
  split at happly
  · cases happly
    exact h.update hm _
  · cases happly
    exact h.insert hm
  · split at happly
    · cases happly
    · split at happly
      · cases happly
        exact h.erase _
      · split at happly
        · cases happly
        · cases happly
          exact h.update hm _

theorem applyAll {edits : List Modification} (h : a.Writable)
    (hedits : ∀ m ∈ edits, SafeKey m.key) :
    (Modification.applyAll edits a).1.Writable := by
  induction edits generalizing a with
  | nil => exact h
  | cons m edits ih =>
      rw [List.forall_mem_cons] at hedits
      rw [Modification.applyAll]
      split
      · exact h
      · rename_i happly
        exact ih (h.apply hedits.1 happly) hedits.2

theorem empty : AttributeMap.empty.Writable :=
  nofun

end AttributeMap.Writable

namespace Contents

/-- The contents with something else, or nothing, at one place. -/
def set (c : Contents) (rs : List Rdn) (a : Option AttributeMap) : Contents :=
  fun qs => if qs = rs then a else c qs

/-- The contents with `src` and all below it gone to `dst`. -/
def move (c : Contents) (src dst : List Rdn) : Contents :=
  fun qs => if dst <:+ qs then c (rebase dst src qs) else if src <:+ qs then none else c qs

/-- There is a node: an entry, or the root, which is there in any case. -/
def Has (c : Contents) (rs : List Rdn) : Prop :=
  rs = [] ∨ ∃ a, c rs = some a

/-- There is a child. -/
def HasChild (c : Contents) (rs : List Rdn) : Prop :=
  ∃ r a, c (r :: rs) = some a

/-- There is a directory: for children, or that of the tree. -/
def Opens (c : Contents) (rs : List Rdn) : Prop :=
  rs = [] ∨ c.HasChild rs

/-- The contents with the root, which has no attributes if it has no file. -/
def withRoot (c : Contents) : Contents
  | [] => some ((c []).getD .empty)
  | rs => c rs

/-- Contents of a tree. -/
structure Proper (c : Contents) : Prop where
  closed : ∀ {r rs a}, c (r :: rs) = some a → c.Has rs
  distinct : ∀ {r s rs a b}, c (r :: rs) = some a → c (s :: rs) = some b → r.same s = true →
    r = s
  legible : ∀ {r rs a}, c (r :: rs) = some a → r.Legible
  writable : ∀ {rs a}, c rs = some a → a.Writable

variable {c : Contents} {rs : List Rdn}

/-! ## Changes of contents -/

variable {r : Rdn} {qs : List Rdn} {a : AttributeMap}

theorem set_self (c : Contents) (rs : List Rdn) (a : Option AttributeMap) : c.set rs a rs = a :=
  if_pos rfl

theorem set_of_ne {b : Option AttributeMap} (h : qs ≠ rs) : c.set rs b qs = c qs :=
  if_neg h

theorem Has.set_some (h : c.Has qs) (rs : List Rdn) (a : AttributeMap) :
    (c.set rs (some a)).Has qs := by
  rcases h with hnil | ⟨b, hb⟩
  · exact .inl hnil
  · by_cases hq : qs = rs
    · exact .inr ⟨a, by rw [hq, set_self]⟩
    · exact .inr ⟨b, by rw [set_of_ne hq, hb]⟩

/-- Either a child of the given name is there, or none is. -/
theorem child_cases (c : Contents) (rs : List Rdn) (r : Rdn) :
    (∃ s a, c (s :: rs) = some a ∧ s.same r = true) ∨
      ∀ s a, c (s :: rs) = some a → s.same r = false := by
  by_cases hex : ∃ s a, c (s :: rs) = some a ∧ s.same r = true
  · exact .inl hex
  · refine .inr fun s a hs => ?_
    rw [Bool.eq_false_iff]
    exact fun hsame => hex ⟨s, a, hs, hsame⟩

/-- An entry may be put where its parent is there and no sibling has its name. -/
theorem Proper.set_some (h : c.Proper) (ha : a.Writable)
    (hnew : ∀ r qs, rs = r :: qs → c.Has qs ∧ r.Legible ∧
      ∀ s b, c (s :: qs) = some b → s.same r = true → s = r) :
    (c.set rs (some a)).Proper where
  closed := by
    intro q qs b hb
    by_cases hq : q :: qs = rs
    · exact ((hnew q qs hq.symm).1).set_some rs a
    · rw [set_of_ne hq] at hb
      exact (h.closed hb).set_some rs a
  distinct := by
    intro p q qs b b' hb hb' hsame
    by_cases hp : p :: qs = rs <;> by_cases hq : q :: qs = rs
    · rw [← hq, List.cons.injEq] at hp
      exact hp.1
    · rw [set_of_ne hq] at hb'
      have hsame' : q.same p = true := Rdn.same_iff.mpr (Rdn.same_iff.mp hsame).symm
      exact ((hnew p qs hp.symm).2.2 q b' hb' hsame').symm
    · rw [set_of_ne hp] at hb
      exact (hnew q qs hq.symm).2.2 p b hb hsame
    · rw [set_of_ne hp] at hb
      rw [set_of_ne hq] at hb'
      exact h.distinct hb hb' hsame
  legible := by
    intro q qs b hb
    by_cases hq : q :: qs = rs
    · exact (hnew q qs hq.symm).2.1
    · rw [set_of_ne hq] at hb
      exact h.legible hb
  writable := by
    intro qs b hb
    by_cases hq : qs = rs
    · rw [hq, set_self, Option.some.injEq] at hb
      exact hb ▸ ha
    · rw [set_of_ne hq] at hb
      exact h.writable hb

theorem Proper.add (h : c.Proper) (ha : a.Writable) (hr : r.Legible) (hrs : c.Has rs)
    (hno : ∀ s b, c (s :: rs) = some b → s.same r = false) :
    (c.set (r :: rs) (some a)).Proper := by
  refine h.set_some ha ?_
  intro r' qs he
  cases he
  refine ⟨hrs, hr, fun s b hb hsame => ?_⟩
  rw [hno s b hb] at hsame
  cases hsame

theorem Proper.replace (h : c.Proper) (ha : a.Writable) (hrs : c.Has rs) :
    (c.set rs (some a)).Proper := by
  refine h.set_some ha ?_
  intro r qs he
  subst he
  rcases hrs with hnil | ⟨b, hb⟩
  · cases hnil
  · exact ⟨h.closed hb, h.legible hb, fun s b' hb' hsame => h.distinct hb' hb hsame⟩

theorem has_set_none : (c.set rs none).Has qs → c.Has qs := by
  intro h
  rcases h with hnil | ⟨b, hb⟩
  · exact .inl hnil
  · by_cases hq : qs = rs
    · rw [hq, set_self] at hb
      cases hb
    · rw [set_of_ne hq] at hb
      exact .inr ⟨b, hb⟩

/-- A leaf may go. -/
theorem Proper.remove (h : c.Proper) (hleaf : ¬ c.HasChild rs) : (c.set rs none).Proper := by
  have hkeep : ∀ {qs b}, c.set rs none qs = some b → c qs = some b ∧ qs ≠ rs := by
    intro qs b hb
    by_cases hq : qs = rs
    · rw [hq, set_self] at hb
      cases hb
    · rw [set_of_ne hq] at hb
      exact ⟨hb, hq⟩
  refine ⟨fun {q qs b} hb => ?_, fun hb hb' => h.distinct (hkeep hb).1 (hkeep hb').1,
    fun hb => h.legible (hkeep hb).1, fun hb => h.writable (hkeep hb).1⟩
  have hq : qs ≠ rs := by
    intro he
    subst he
    exact hleaf ⟨q, b, (hkeep hb).1⟩
  rw [Has, set_of_ne hq]
  exact h.closed (hkeep hb).1

theorem opens_set_cons (c : Contents) (r : Rdn) (rs qs : List Rdn) (a : AttributeMap) :
    (c.set (r :: rs) (some a)).Opens qs ↔ qs = rs ∨ c.Opens qs := by
  constructor
  · intro h
    rcases h with hnil | ⟨q, b, hb⟩
    · exact .inr (.inl hnil)
    · by_cases hq : q :: qs = r :: rs
      · exact .inl (List.cons.inj hq).2
      · rw [set_of_ne hq] at hb
        exact .inr (.inr ⟨q, b, hb⟩)
  · intro h
    rcases h with rfl | hnil | ⟨q, b, hb⟩
    · exact .inr ⟨r, a, set_self _ _ _⟩
    · exact .inl hnil
    · rcases Has.set_some (.inr ⟨b, hb⟩) (r :: rs) a with hnil | ⟨b', hb'⟩
      · cases hnil
      · exact .inr ⟨q, b', hb'⟩

theorem opens_replace (hrs : c.Has rs) (a : AttributeMap) :
    (c.set rs (some a)).Opens qs ↔ c.Opens qs := by
  cases rs with
  | nil =>
      rw [Opens, Opens, HasChild, HasChild]
      simp only [set_of_ne (List.cons_ne_nil _ _)]
  | cons r rs =>
      obtain ⟨b, hb⟩ := hrs.resolve_left (List.cons_ne_nil _ _)
      rw [opens_set_cons, or_iff_right_of_imp]
      intro he
      rw [he]
      exact .inr ⟨r, b, hb⟩

theorem opens_remove (h : c (r :: rs) = some a) :
    c.Opens qs ↔ qs = rs ∨ (c.set (r :: rs) none).Opens qs := by
  constructor
  · intro hopen
    rcases hopen with hnil | ⟨q, b, hb⟩
    · exact .inr (.inl hnil)
    · by_cases hq : q :: qs = r :: rs
      · exact .inl (List.cons.inj hq).2
      · exact .inr (.inr ⟨q, b, by rw [set_of_ne hq, hb]⟩)
  · intro hopen
    rcases hopen with rfl | hnil | ⟨q, b, hb⟩
    · exact .inr ⟨r, a, h⟩
    · exact .inl hnil
    · by_cases hq : q :: qs = r :: rs
      · rw [hq, set_self] at hb
        cases hb
      · rw [set_of_ne hq] at hb
        exact .inr ⟨q, b, hb⟩

theorem Proper.has_of_append (h : c.Proper) {qs : List Rdn} (hrs : c.Has (qs ++ rs)) :
    c.Has rs := by
  induction qs with
  | nil => exact hrs
  | cons q qs ih =>
      rcases hrs with hnil | ⟨a, ha⟩
      · cases hnil
      · exact ih (h.closed ha)

theorem Proper.has_legible (h : c.Proper) (hrs : c.Has rs) : ∀ r ∈ rs, r.Legible := by
  induction rs with
  | nil => exact fun r hr => absurd hr List.not_mem_nil
  | cons r rs ih =>
      rcases hrs with hnil | ⟨a, ha⟩
      · cases hnil
      · exact List.forall_mem_cons.mpr ⟨h.legible ha, ih (h.closed ha)⟩

theorem Proper.getD_writable (h : c.Proper) (rs : List Rdn) : ((c rs).getD .empty).Writable := by
  cases hc : c rs with
  | none => exact AttributeMap.Writable.empty
  | some a => exact h.writable hc

/-! ## Moves -/

variable {s : Rdn} {src dst us vs : List Rdn}

theorem move_append (c : Contents) (src dst l : List Rdn) :
    c.move src dst (l ++ dst) = c (l ++ src) := by
  rw [move, if_pos (List.suffix_append _ _), rebase_append]

theorem move_eq_some_iff : c.move src dst qs = some a ↔
    (∃ l, qs = l ++ dst ∧ c (l ++ src) = some a) ∨
      (¬ dst <:+ qs ∧ ¬ src <:+ qs ∧ c qs = some a) := by
  by_cases hd : dst <:+ qs
  · obtain ⟨l, rfl⟩ := hd
    rw [move_append]
    constructor
    · intro h
      exact .inl ⟨l, rfl, h⟩
    · intro h
      rcases h with ⟨l', hl, h⟩ | ⟨hno, -⟩
      · rw [List.append_cancel_right hl]
        exact h
      · exact absurd (List.suffix_append _ _) hno
  · rw [move, if_neg hd]
    by_cases hs : src <:+ qs
    · rw [if_pos hs]
      constructor
      · intro h
        cases h
      · intro h
        rcases h with ⟨l, rfl, -⟩ | ⟨-, hno, -⟩
        · exact absurd (List.suffix_append _ _) hd
        · exact absurd hs hno
    · rw [if_neg hs]
      constructor
      · intro h
        exact .inr ⟨hd, hs, h⟩
      · intro h
        rcases h with ⟨l, rfl, -⟩ | ⟨-, -, h⟩
        · exact absurd (List.suffix_append _ _) hd
        · exact h

/-- An entry and a place, not below it, where it may go with all that is below it. -/
structure Movable (c : Contents) (s : Rdn) (us : List Rdn) (r : Rdn) (vs : List Rdn) : Prop where
  source : ∃ a, c (s :: us) = some a
  parent : c.Has vs
  free : ∀ u b, c (u :: vs) = some b → u.same r = false
  outside : ¬ s :: us <:+ vs
  legible : r.Legible

namespace Movable

/-- Nothing is at or below the new place. -/
theorem eq_none (hm : c.Movable s us r vs) (h : c.Proper) (hq : r :: vs <:+ qs) :
    c qs = none := by
  rw [Option.eq_none_iff_forall_ne_some]
  intro a ha
  obtain ⟨l, rfl⟩ := hq
  obtain ⟨b, hb⟩ := (h.has_of_append (.inr ⟨a, ha⟩)).resolve_left (List.cons_ne_nil _ _)
  have hsame := hm.free r b hb
  rw [Rdn.same_refl] at hsame
  cases hsame

theorem not_source_suffix (hm : c.Movable s us r vs) (h : c.Proper) :
    ¬ s :: us <:+ r :: vs := by
  intro hsuffix
  rcases List.suffix_cons_iff.mp hsuffix with he | hvs
  · obtain ⟨a, ha⟩ := hm.source
    rw [hm.eq_none h (he ▸ List.suffix_refl _)] at ha
    cases ha
  · exact hm.outside hvs

theorem not_suffix_source (hm : c.Movable s us r vs) (h : c.Proper) :
    ¬ r :: vs <:+ s :: us := by
  intro hsuffix
  obtain ⟨a, ha⟩ := hm.source
  rw [hm.eq_none h hsuffix] at ha
  cases ha

end Movable

theorem cons_not_suffix (r : Rdn) (rs : List Rdn) : ¬ r :: rs <:+ rs := by
  intro h
  have hle := h.length_le
  rw [List.length_cons] at hle
  omega

theorem suffix_of_cons {l : List Rdn} (h : l <:+ qs) (r : Rdn) : l <:+ r :: qs :=
  h.trans (List.suffix_cons _ _)

/-- The new place and its parent are there after a move. -/
theorem Movable.parent_move (hm : c.Movable s us r vs) :
    (c.move (s :: us) (r :: vs)).Has vs := by
  rcases hm.parent with hnil | ⟨a, ha⟩
  · exact .inl hnil
  · exact .inr ⟨a, move_eq_some_iff.mpr (.inr ⟨cons_not_suffix _ _, hm.outside, ha⟩)⟩

/-- What is below the top after a move: the moved entry, one that went with it, or one that
    stays. -/
theorem move_cons_cases {q : Rdn} (hb : c.move (s :: us) (r :: vs) (q :: qs) = some b) :
    (q = r ∧ qs = vs) ∨ (∃ l, qs = l ++ r :: vs ∧ c (q :: (l ++ s :: us)) = some b) ∨
      (¬ r :: vs <:+ qs ∧ ¬ s :: us <:+ qs ∧ c (q :: qs) = some b) := by
  rcases move_eq_some_iff.mp hb with ⟨l, he, hb⟩ | ⟨hd, hs, hb⟩
  · cases l with
    | nil =>
        rw [List.nil_append, List.cons.injEq] at he
        exact .inl he
    | cons p l =>
        rw [List.cons_append, List.cons.injEq] at he
        refine .inr (.inl ⟨l, he.2, ?_⟩)
        rw [he.1]
        exact hb
  · exact .inr (.inr ⟨mt (suffix_of_cons · q) hd, mt (suffix_of_cons · q) hs, hb⟩)

theorem Proper.move (h : c.Proper) (hm : c.Movable s us r vs) :
    (c.move (s :: us) (r :: vs)).Proper where
  closed := by
    intro q qs b hb
    rcases move_cons_cases hb with ⟨-, hqs⟩ | ⟨l, hqs, hb⟩ | ⟨hd, hs, hb⟩
    · exact hqs ▸ hm.parent_move
    · obtain ⟨b', hb'⟩ := (h.closed hb).resolve_left (by simp)
      exact .inr ⟨b', move_eq_some_iff.mpr (.inl ⟨l, hqs, hb'⟩)⟩
    · rcases h.closed hb with hnil | ⟨b', hb'⟩
      · exact .inl hnil
      · exact .inr ⟨b', move_eq_some_iff.mpr (.inr ⟨hd, hs, hb'⟩)⟩
  distinct := by
    intro p q qs b b' hb hb' hsame
    rcases move_cons_cases hb with ⟨hp, hqs⟩ | ⟨l, hqs, hb⟩ | ⟨hd, -, hb⟩ <;>
      rcases move_cons_cases hb' with ⟨hq, hqs'⟩ | ⟨l', hqs', hb'⟩ | ⟨hd', -, hb'⟩
    · rw [hp, hq]
    · exact absurd ⟨l', hqs'.symm.trans hqs⟩ (cons_not_suffix r vs)
    · have hfree := hm.free q b' (hqs ▸ hb')
      rw [← hp, Rdn.same_iff.mpr (Rdn.same_iff.mp hsame).symm] at hfree
      cases hfree
    · exact absurd ⟨l, hqs.symm.trans hqs'⟩ (cons_not_suffix r vs)
    · have hl : l = l' := List.append_cancel_right (hqs.symm.trans hqs')
      exact h.distinct hb (hl ▸ hb') hsame
    · exact absurd ⟨l, hqs.symm⟩ hd'
    · have hfree := hm.free p b (hqs' ▸ hb)
      rw [← hq, hsame] at hfree
      cases hfree
    · exact absurd ⟨l', hqs'.symm⟩ hd
    · exact h.distinct hb hb' hsame
  legible := by
    intro q qs b hb
    rcases move_cons_cases hb with ⟨hq, -⟩ | ⟨l, -, hb⟩ | ⟨-, -, hb⟩
    · exact hq ▸ hm.legible
    · exact h.legible hb
    · exact h.legible hb
  writable := by
    intro qs b hb
    rcases move_eq_some_iff.mp hb with ⟨l, -, hb⟩ | ⟨-, -, hb⟩
    · exact h.writable hb
    · exact h.writable hb

/-- Where directories are after a move, before the old parent's is pruned: the new parent has
    one, and those below the entry go with it. -/
theorem Movable.opens_iff (hm : c.Movable s us r vs) (h : c.Proper) :
    (r :: vs <:+ qs ∧ (rebase (r :: vs) (s :: us) qs = vs ∨
        c.Opens (rebase (r :: vs) (s :: us) qs))) ∨
        (¬ r :: vs <:+ qs ∧ ¬ s :: us <:+ qs ∧ (qs = vs ∨ c.Opens qs)) ↔
      qs = us ∨ (c.move (s :: us) (r :: vs)).Opens qs := by
  obtain ⟨a, ha⟩ := hm.source
  constructor
  · intro hopen
    rcases hopen with ⟨⟨l, rfl⟩, hopen⟩ | ⟨hd, hs, rfl | hnil | ⟨q, b, hb⟩⟩
    · rw [rebase_append] at hopen
      have hne : l ++ s :: us ≠ vs := by
        intro he
        exact hm.outside (he ▸ List.suffix_append _ _)
      obtain ⟨q, b, hb⟩ := (hopen.resolve_left hne).resolve_left (by simp)
      exact .inr (.inr ⟨q, b, move_eq_some_iff.mpr (.inl ⟨q :: l, rfl, hb⟩)⟩)
    · exact .inr (.inr ⟨r, a, move_eq_some_iff.mpr (.inl ⟨[], rfl, ha⟩)⟩)
    · exact .inr (.inl hnil)
    · by_cases hsq : s :: us <:+ q :: qs
      · rcases List.suffix_cons_iff.mp hsq with he | hsq
        · exact .inl (List.cons.inj he).2.symm
        · exact absurd hsq hs
      · refine .inr (.inr ⟨q, b, move_eq_some_iff.mpr (.inr ⟨fun hdq => ?_, hsq, hb⟩)⟩)
        rw [hm.eq_none h hdq] at hb
        cases hb
  · intro hopen
    rcases hopen with rfl | rfl | ⟨q, b, hb⟩
    · refine .inr ⟨fun hd => hm.not_suffix_source h (suffix_of_cons hd s), cons_not_suffix _ _, ?_⟩
      exact .inr (.inr ⟨s, a, ha⟩)
    · exact .inr ⟨by simp, by simp, .inr (.inl rfl)⟩
    · rcases move_eq_some_iff.mp hb with ⟨l, he, hb⟩ | ⟨hd, hs, hb⟩
      · cases l with
        | nil =>
            rw [List.nil_append, List.cons.injEq] at he
            rw [he.2]
            exact .inr ⟨cons_not_suffix _ _, hm.outside, .inl rfl⟩
        | cons p l =>
            rw [List.cons_append, List.cons.injEq] at he
            rw [he.2]
            refine .inl ⟨List.suffix_append _ _, .inr (.inr ⟨p, b, ?_⟩)⟩
            rw [rebase_append]
            exact hb
      · exact .inr ⟨mt (suffix_of_cons · q) hd, mt (suffix_of_cons · q) hs, .inr (.inr ⟨q, b, hb⟩)⟩

/-! ## The root -/

theorem withRoot_cons (c : Contents) (r : Rdn) (rs : List Rdn) :
    c.withRoot (r :: rs) = c (r :: rs) := rfl

theorem withRoot_set (c : Contents) (rs : List Rdn) (a : AttributeMap) :
    (c.set rs (some a)).withRoot = c.withRoot.set rs (some a) := by
  funext qs
  cases qs with
  | nil =>
      cases rs with
      | nil => rfl
      | cons r rs => rfl
  | cons q qs => rfl

theorem withRoot_remove (c : Contents) (r : Rdn) (rs : List Rdn) :
    (c.set (r :: rs) none).withRoot = c.withRoot.set (r :: rs) none := by
  funext qs
  cases qs with
  | nil => rfl
  | cons q qs => rfl

theorem withRoot_move (c : Contents) (s r : Rdn) (us vs : List Rdn) :
    (c.move (s :: us) (r :: vs)).withRoot = c.withRoot.move (s :: us) (r :: vs) := by
  funext qs
  cases qs with
  | nil =>
      have hnot : ∀ (q : Rdn) (ls : List Rdn), ¬ q :: ls <:+ [] := by simp
      rw [withRoot, move, move, if_neg (hnot _ _), if_neg (hnot _ _), if_neg (hnot _ _),
        if_neg (hnot _ _)]
      rfl
  | cons q qs =>
      rw [withRoot_cons, move, move]
      split
      · rename_i hd
        obtain ⟨ls, hls⟩ := hd
        rw [← hls, rebase_append]
        cases ls with
        | nil => rfl
        | cons l ls => rfl
      · rfl

theorem withRoot_eq_some_iff : c.withRoot rs = some a ↔ c.Has rs ∧ (c rs).getD .empty = a := by
  cases rs with
  | nil =>
      rw [withRoot, Option.some.injEq]
      exact (and_iff_right (.inl rfl)).symm
  | cons r rs =>
      rw [withRoot_cons]
      constructor
      · intro h
        exact ⟨.inr ⟨a, h⟩, by rw [h, Option.getD_some]⟩
      · intro h
        obtain ⟨b, hb⟩ := h.1.resolve_left (List.cons_ne_nil _ _)
        rw [hb, Option.getD_some] at h
        rw [hb, h.2]

end Contents

end DirectoryStore
