import DirectoryStore.Name.Reader
import DirectoryStore.Proofs.Name.Key
import Mathlib.Data.List.Forall2
import Mathlib.Logic.Relation

/-!
# One policy of names

Sameness, order and containment of names all look at keys.  Here they are tied to what they
mean for the components of names, and to one another: the order is total and its equality is
sameness, containment is what steps upward reach and what remains when relative names are cut
off, and what a name contains is an interval of the order that starts with the name.  So in
names that are in order each subtree is one piece.
-/

namespace DirectoryStore

/-- The components of a name with the letters of their types in lower case. -/
def Dn.folded (d : Dn) : List (List (String × String)) :=
  d.rdns.map fun r => r.components.map fun c => (foldCase c.type, c.value)

/-- A step upward, from a name to the one directly above it. -/
def Dn.Up (d above : Dn) : Prop :=
  d.up = .ok above

/-- The order of components: types without regard to case, then values. -/
def Component.compare (c d : Component) : Ordering :=
  (compareOfLessAndEq (foldCase c.type) (foldCase d.type)).then
    (compareOfLessAndEq c.value d.value)

/-- The order of relative names, component by component. -/
def Rdn.compare (r s : Rdn) : Ordering :=
  List.compareLex Component.compare r.components s.components

/-- What sameness, order and containment of names have to do with one another. -/
structure Dn.Policy (a b c : Dn) : Prop where
  /-- The order goes relative name by relative name, from the least specific one on. -/
  componentwise : a.compare b = List.compareLex Rdn.compare a.rdns.reverse b.rdns.reverse
  swap : (a.compare b).swap = b.compare a
  trans : (a.compare b).isLE = true → (b.compare c).isLE = true → (a.compare c).isLE = true
  equal_iff : a.compare b = .eq ↔ a.same b = true
  same_iff_folded : a.same b = true ↔ a.folded = b.folded
  contains_self : a.contains a = true
  contains_trans : a.contains b = true → b.contains c = true → a.contains c = true
  contains_antisymm : a.contains b = true → b.contains a = true → a.same b = true
  /-- Steps upward from `b` reach `a`, perhaps in another spelling. -/
  contains_iff_up : a.contains b = true ↔
    ∃ d, Relation.ReflTransGen Dn.Up b d ∧ d.same a = true
  /-- The relative names of `b` end in those of `a`, perhaps in another spelling. -/
  contains_iff_relative : a.contains b = true ↔
    ∃ rs ups, a.relative? b = some rs ∧ b.rdns = rs ++ ups ∧
      List.Forall₂ (fun r s => r.same s = true) ups a.rdns
  le_of_contains : a.contains b = true → (a.compare b).isLE = true
  between : a.contains c = true → (a.compare b).isLE = true → (b.compare c).isLE = true →
    a.contains b = true

/-- Names in an order that keeps hierarchies together. -/
structure Dn.Grouped (ds : List Dn) : Prop where
  /-- No name stands behind one that lies below it. -/
  ancestors_first : ds.Pairwise fun d e => e.contains d = true → e.same d = true
  /-- The names at and below any other name stand in one piece. -/
  subtrees : ∀ base : Dn, ∃ before piece after, ds = before ++ (piece ++ after) ∧
    (∀ d ∈ piece, base.contains d = true) ∧ ∀ d ∈ before ++ after, base.contains d = false

section Keys

/-! ## Prefixes in the order of lists -/

variable {κ : Type} [LT κ] {p k l : List κ}

theorem not_lt_of_prefixed [Std.Irrefl (α := κ) (· < ·)] (h : p <+: k) : ¬ k < p := by
  obtain ⟨rest, rfl⟩ := h
  induction p with
  | nil => exact List.not_lt_nil _
  | cons x p ih =>
      rw [List.cons_append, List.cons_lt_cons_iff]
      rintro (hlt | ⟨-, hlt⟩)
      · exact Std.Irrefl.irrefl x hlt
      · exact ih hlt

/-- What lies between a list and one that it begins is begun by it as well. -/
theorem prefix_of_between [Std.Trichotomous (α := κ) (· < ·)] (h : p <+: l) (hp : ¬ k < p)
    (hl : ¬ l < k) : p <+: k := by
  obtain ⟨rest, rfl⟩ := h
  induction p generalizing k with
  | nil => exact List.nil_prefix
  | cons x p ih =>
      cases k with
      | nil => exact absurd (List.nil_lt_cons x p) hp
      | cons y k =>
          rw [List.cons_append] at hl
          rw [List.cons_lt_cons_iff, not_or, not_and] at hp hl
          rcases Std.lt_trichotomy x y with hlt | rfl | hlt
          · exact absurd hlt hl.1
          · exact List.cons_prefix_cons.mpr ⟨rfl, ih (hp.2 rfl) (hl.2 rfl)⟩
          · exact absurd hlt hp.1

theorem lt_of_append_prefix {x : κ} (h : p ++ [x] <+: k) : p < k := by
  obtain ⟨rest, rfl⟩ := h
  induction p with
  | nil => exact List.nil_lt_cons x rest
  | cons y p ih => exact List.cons_lt_cons_iff.mpr (.inr ⟨rfl, ih⟩)

/-- What the first of two lists of one length begins comes before what the second begins. -/
theorem lt_of_prefixed {q : List κ} (hlen : p.length = q.length) (hlt : p < q) (hk : p <+: k)
    (hl : q <+: l) : k < l := by
  obtain ⟨rest, rfl⟩ := hk
  obtain ⟨rest', rfl⟩ := hl
  induction p generalizing q with
  | nil =>
      rw [List.eq_nil_of_length_eq_zero hlen.symm] at hlt
      exact absurd hlt (List.not_lt_nil _)
  | cons x p ih =>
      cases q with
      | nil => cases hlen
      | cons y q =>
          rw [List.cons_append, List.cons_append, List.cons_lt_cons_iff]
          rcases List.cons_lt_cons_iff.mp hlt with hxy | ⟨rfl, hpq⟩
          · exact .inl hxy
          · exact .inr ⟨rfl, ih (Nat.succ.inj hlen) hpq⟩

variable [DecidableEq κ] [DecidableLT κ]

theorem compareOfLessAndEq_cons [Std.Irrefl (α := κ) (· < ·)] (x y : κ) (k l : List κ) :
    compareOfLessAndEq (x :: k) (y :: l) =
      (compareOfLessAndEq x y).then (compareOfLessAndEq k l) := by
  simp only [compareOfLessAndEq, List.cons_lt_cons_iff, List.cons.injEq]
  by_cases hlt : x < y
  · simp [hlt]
  · by_cases he : x = y
    · simp [he, Std.Irrefl.irrefl y]
    · simp [hlt, he]

theorem compareLex_map [Std.Irrefl (α := κ) (· < ·)] {α : Type} (key : α → κ) (xs ys : List α) :
    List.compareLex (fun x y => compareOfLessAndEq (key x) (key y)) xs ys =
      compareOfLessAndEq (xs.map key) (ys.map key) := by
  induction xs generalizing ys with
  | nil => cases ys <;> simp [compareOfLessAndEq, List.compareLex]
  | cons x xs ih =>
      cases ys with
      | nil => simp [compareOfLessAndEq, List.compareLex]
      | cons y ys =>
          rw [List.map_cons, List.map_cons, compareOfLessAndEq_cons, ← ih, List.compareLex]
          cases compareOfLessAndEq (key x) (key y) <;> rfl

end Keys

theorem Component.compareOfLessAndEq_key (c d : Component) :
    compareOfLessAndEq c.key d.key = c.compare d := by
  rw [key, key, compareOfLessAndEq_cons, compareOfLessAndEq_cons, Component.compare]
  cases compareOfLessAndEq c.value d.value <;> rfl

theorem Dn.compare_eq_compareLex (a b : Dn) :
    a.compare b = List.compareLex Rdn.compare a.rdns.reverse b.rdns.reverse := by
  have hrdn (r s : Rdn) : r.compare s = compareOfLessAndEq r.key s.key := by
    rw [Rdn.key, Rdn.key, ← compareLex_map]
    simp only [Component.compareOfLessAndEq_key]
    rfl
  rw [Dn.compare, Dn.key, Dn.key, ← compareLex_map]
  simp only [← hrdn]

namespace Dn

variable {a b c base d : Dn} {ds : List Dn}

/-! ## The order -/

theorem compare_cases (a b : Dn) : a.key < b.key ∧ a.compare b = .lt ∨
    a.key = b.key ∧ a.compare b = .eq ∨ b.key < a.key ∧ a.compare b = .gt := by
  rcases Std.lt_trichotomy a.key b.key with hlt | he | hlt
  · exact .inl ⟨hlt, if_pos hlt⟩
  · refine .inr (.inl ⟨he, ?_⟩)
    rw [compare, compareOfLessAndEq, he, if_neg (List.lt_irrefl _), if_pos rfl]
  · have hne : a.key ≠ b.key := fun he => List.lt_irrefl _ (he ▸ hlt)
    refine .inr (.inr ⟨hlt, ?_⟩)
    rw [compare, compareOfLessAndEq, if_neg (List.lt_asymm hlt), if_neg hne]

theorem compare_eq_lt_iff : a.compare b = .lt ↔ a.key < b.key := by
  rcases compare_cases a b with ⟨hlt, h⟩ | ⟨he, h⟩ | ⟨hlt, h⟩
  · exact iff_of_true h hlt
  · exact iff_of_false (by simp [h]) (he ▸ List.lt_irrefl _)
  · exact iff_of_false (by simp [h]) (List.lt_asymm hlt)

theorem compare_eq_gt_iff : a.compare b = .gt ↔ b.key < a.key := by
  rcases compare_cases a b with ⟨hlt, h⟩ | ⟨he, h⟩ | ⟨hlt, h⟩
  · exact iff_of_false (by simp [h]) (List.lt_asymm hlt)
  · exact iff_of_false (by simp [h]) (he ▸ List.lt_irrefl _)
  · exact iff_of_true h hlt

theorem compare_eq_eq_iff : a.compare b = .eq ↔ a.same b = true := by
  rw [same_iff]
  rcases compare_cases a b with ⟨hlt, h⟩ | ⟨he, h⟩ | ⟨hlt, h⟩
  · have hne : a.key ≠ b.key := fun he => List.lt_irrefl _ (he ▸ hlt)
    simp [h, hne]
  · simp [h, he]
  · have hne : a.key ≠ b.key := fun he => List.lt_irrefl _ (he ▸ hlt)
    simp [h, hne]

theorem isLE_compare : (a.compare b).isLE = true ↔ ¬ b.key < a.key := by
  rw [← compare_eq_gt_iff]
  cases a.compare b <;> simp

theorem swap_compare (a b : Dn) : (a.compare b).swap = b.compare a := by
  rcases compare_cases a b with ⟨hlt, h⟩ | ⟨he, h⟩ | ⟨hlt, h⟩
  · rw [h, compare_eq_gt_iff.mpr hlt]
    rfl
  · rw [h, compare_eq_eq_iff.mpr (same_iff.mpr he.symm)]
    rfl
  · rw [h, compare_eq_lt_iff.mpr hlt]
    rfl

theorem isLE_trans (hab : (a.compare b).isLE = true) (hbc : (b.compare c).isLE = true) :
    (a.compare c).isLE = true := by
  rw [isLE_compare] at hab hbc ⊢
  intro hca
  rcases Std.lt_trichotomy a.key b.key with hlt | he | hlt
  · exact hbc (List.lt_trans hca hlt)
  · exact hbc (he ▸ hca)
  · exact hab hlt

theorem le_eq_isLE (a b : Dn) : a.le b = (a.compare b).isLE := by
  rw [Bool.eq_iff_iff, isLE_compare]
  simp [le]

theorem isLE_total (a b : Dn) : (a.compare b).isLE = true ∨ (b.compare a).isLE = true := by
  rw [isLE_compare, isLE_compare]
  exact Decidable.or_iff_not_imp_left.mpr fun h => List.lt_asymm (Decidable.of_not_not h)

theorem same_of_isLE (hab : (a.compare b).isLE = true) (hba : (b.compare a).isLE = true) :
    a.same b = true := by
  rw [isLE_compare] at hab hba
  rcases Std.lt_trichotomy a.key b.key with hlt | he | hlt
  · exact absurd hlt hba
  · exact same_iff.mpr he
  · exact absurd hlt hab

/-! ## Components -/

theorem key_eq_iff {c d : Component} :
    c.key = d.key ↔ (foldCase c.type, c.value) = (foldCase d.type, d.value) := by
  simp [Component.key]

/-- Lists are the same under one map just if they are the same under another that tells the
    same elements apart. -/
theorem map_eq_map_congr {α β γ : Type} {f : α → β} {g : α → γ}
    (h : ∀ x y, f x = f y ↔ g x = g y) (xs ys : List α) :
    xs.map f = ys.map f ↔ xs.map g = ys.map g := by
  induction xs generalizing ys with
  | nil => cases ys <;> simp
  | cons x xs ih =>
      cases ys with
      | nil => simp
      | cons y ys => simp only [List.map_cons, List.cons.injEq, h x y, ih ys]

theorem same_iff_map_key : a.same b = true ↔ a.rdns.map Rdn.key = b.rdns.map Rdn.key := by
  rw [same_iff, key, key, List.map_reverse, List.map_reverse, List.reverse_inj]

theorem same_iff_folded : a.same b = true ↔ a.folded = b.folded := by
  rw [same_iff_map_key]
  refine map_eq_map_congr (fun r s => ?_) a.rdns b.rdns
  exact map_eq_map_congr (fun _ _ => key_eq_iff) r.components s.components

theorem same_iff_forall₂ : a.same b = true ↔
    List.Forall₂ (fun r s => r.same s = true) a.rdns b.rdns := by
  simp only [Rdn.same_iff, same_iff_map_key, ← List.forall₂_eq_eq_eq, List.forall₂_map_left_iff,
    List.forall₂_map_right_iff]

/-! ## Containment -/

theorem up_iff : d.Up base ↔ ∃ r, d = base.child r := by
  obtain ⟨rdns⟩ := d
  obtain ⟨above⟩ := base
  cases rdns with
  | nil => simp [Up, up, up?, child]
  | cons r rs => simp [Up, up, up?, child]

theorem contains_of_up (h : Relation.ReflTransGen Up d base) : base.contains d = true := by
  induction h with
  | refl => exact contains_refl d
  | tail _ hup ih =>
      obtain ⟨r, rfl⟩ := up_iff.mp hup
      exact contains_trans (contains_child _ r) ih

theorem exists_up_of_contains (h : base.contains d = true) :
    ∃ above, Relation.ReflTransGen Up d above ∧ above.same base = true := by
  obtain ⟨rdns⟩ := d
  induction rdns with
  | nil => exact ⟨_, .refl, same_symm (same_of_contains h (Nat.zero_le _))⟩
  | cons r rs ih =>
      cases hsame : base.same ⟨r :: rs⟩ with
      | true => exact ⟨_, .refl, same_symm hsame⟩
      | false =>
          obtain ⟨above, hup, habove⟩ := ih (@contains_up base ⟨rs⟩ r h hsame)
          exact ⟨above, .head rfl hup, habove⟩

theorem contains_iff_up : base.contains d = true ↔
    ∃ above, Relation.ReflTransGen Up d above ∧ above.same base = true := by
  constructor
  · exact exists_up_of_contains
  · rintro ⟨above, hup, habove⟩
    exact contains_trans (contains_of_same (same_symm habove)) (contains_of_up hup)

theorem contains_iff_relative : base.contains d = true ↔
    ∃ rs ups, base.relative? d = some rs ∧ d.rdns = rs ++ ups ∧
      List.Forall₂ (fun r s => r.same s = true) ups base.rdns := by
  constructor
  · intro h
    obtain ⟨rs, hrs⟩ : ∃ rs, base.relative? d = some rs := ⟨_, if_pos h⟩
    obtain ⟨ups, hd, hups⟩ := relative?_eq_some_iff.mp hrs
    exact ⟨rs, ups, hrs, hd, same_iff_forall₂.mp hups⟩
  · rintro ⟨rs, -, hrs, -⟩
    by_contra h
    rw [Bool.not_eq_true, ← relative?_eq_none_iff, hrs] at h
    cases h

theorem isLE_of_contains (h : a.contains b = true) : (a.compare b).isLE = true :=
  isLE_compare.mpr (not_lt_of_prefixed (contains_iff.mp h))

theorem contains_of_between (h : a.contains c = true) (hab : (a.compare b).isLE = true)
    (hbc : (b.compare c).isLE = true) : a.contains b = true :=
  contains_iff.mpr (prefix_of_between (contains_iff.mp h) (isLE_compare.mp hab)
    (isLE_compare.mp hbc))

theorem policy (a b c : Dn) : Policy a b c where
  componentwise := compare_eq_compareLex a b
  swap := swap_compare a b
  trans := isLE_trans
  equal_iff := compare_eq_eq_iff
  same_iff_folded := same_iff_folded
  contains_self := contains_refl a
  contains_trans := contains_trans
  contains_antisymm hab hba := same_of_isLE (isLE_of_contains hab) (isLE_of_contains hba)
  contains_iff_up := contains_iff_up
  contains_iff_relative := contains_iff_relative
  le_of_contains := isLE_of_contains
  between := contains_of_between

/-! ## Names in order -/

/-- What is sorted by its names is in the order of its names. -/
theorem ordered_mergeSort {α : Type} (name : α → Dn) (l : List α) :
    (l.mergeSort fun x y => (name x).le (name y)).Pairwise
      fun x y => ((name x).compare (name y)).isLE = true := by
  have h := @List.pairwise_mergeSort _ (fun x y => (name x).le (name y)) (fun x y z hxy hyz => ?_)
    (fun x y => ?_) l
  · simpa only [le_eq_isLE] using h
  · rw [le_eq_isLE] at hxy hyz ⊢
    exact isLE_trans hxy hyz
  · simp only [le_eq_isLE, Bool.or_eq_true]
    exact isLE_total (name x) (name y)

theorem ordered_sort (ds : List Dn) : (sort ds).Pairwise fun d e => (d.compare e).isLE = true :=
  ordered_mergeSort id ds

theorem ancestors_first_of_ordered (h : ds.Pairwise fun d e => (d.compare e).isLE = true) :
    ds.Pairwise fun d e => e.contains d = true → e.same d = true :=
  h.imp fun hle hcontains => same_of_isLE (isLE_of_contains hcontains) hle

/-- Names in order are those before a subtree, those of the subtree and those after it. -/
theorem subtree_of_ordered (h : ds.Pairwise fun d e => (d.compare e).isLE = true) (base : Dn) :
    ∃ before piece after, ds = before ++ (piece ++ after) ∧
      (∀ d ∈ piece, base.contains d = true) ∧ ∀ d ∈ before ++ after, base.contains d = false := by
  induction ds with
  | nil => exact ⟨[], [], [], rfl, nofun, nofun⟩
  | cons d ds ih =>
      rw [List.pairwise_cons] at h
      obtain ⟨before, piece, after, rfl, hpiece, hout⟩ := ih h.2
      cases hd : base.contains d with
      | false =>
          refine ⟨d :: before, piece, after, rfl, hpiece, ?_⟩
          exact List.forall_mem_cons.mpr ⟨hd, hout⟩
      | true =>
          cases piece with
          | nil =>
              refine ⟨[], [d], before ++ after, rfl, ?_, hout⟩
              exact List.forall_mem_singleton.mpr hd
          | cons e piece =>
              cases before with
              | nil =>
                  refine ⟨[], d :: e :: piece, after, rfl, ?_, hout⟩
                  exact List.forall_mem_cons.mpr ⟨hd, hpiece⟩
              | cons x before =>
                  -- This name stands between two of the subtree and so would be one of it.
                  have hdx := h.1 x List.mem_cons_self
                  have hxe := (List.pairwise_cons.mp h.2).1 e (by simp)
                  have hx := contains_of_between (hpiece e List.mem_cons_self)
                    (isLE_trans (isLE_of_contains hd) hdx) hxe
                  rw [hout x List.mem_cons_self] at hx
                  cases hx

theorem grouped_of_ordered (h : ds.Pairwise fun d e => (d.compare e).isLE = true) :
    Grouped ds :=
  ⟨ancestors_first_of_ordered h, subtree_of_ordered h⟩

/-- Sameness, order and containment are one policy, and names that are in order, such as those
    that have been sorted, keep hierarchies together. -/
theorem one_policy : (∀ a b c : Dn, Policy a b c) ∧
    (∀ ds, (sort ds).Perm ds ∧ Grouped (sort ds)) ∧
    ∀ ds, (ds.Pairwise fun d e => (d.compare e).isLE = true) → Grouped ds :=
  ⟨policy, fun ds => ⟨List.mergeSort_perm ds le, grouped_of_ordered (ordered_sort ds)⟩,
    fun _ => grouped_of_ordered⟩

/-- Names in order, with two spellings of one name between a name above and one below. -/
theorem one_policy_spellings :
    let ds : List Dn := [⟨[.single "dc" "x"]⟩, ⟨[.single "ou" "a", .single "DC" "x"]⟩,
      ⟨[.single "OU" "a", .single "dc" "x"]⟩,
      ⟨[.single "cn" "b", .single "ou" "a", .single "dc" "x"]⟩, ⟨[.single "dc" "y"]⟩]
    (ds.Pairwise fun d e => (d.compare e).isLE = true) ∧ Grouped ds := by
  have hordered : ([⟨[.single "dc" "x"]⟩, ⟨[.single "ou" "a", .single "DC" "x"]⟩,
      ⟨[.single "OU" "a", .single "dc" "x"]⟩,
      ⟨[.single "cn" "b", .single "ou" "a", .single "dc" "x"]⟩, ⟨[.single "dc" "y"]⟩] :
      List Dn).Pairwise fun d e => (d.compare e).isLE = true := by
    decide
  exact ⟨hordered, one_policy.2.2 _ hordered⟩

end Dn
end DirectoryStore
