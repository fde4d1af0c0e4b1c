import DirectoryStore.Proofs.Name.Key
import DirectoryStore.Tree.View

/-!
# What trees hold

A tree is observed by the entries that names lead to from its root, and a part of it by the
entries that a walk from its top meets.  Two parts are alike when they hold the same
entries.
-/

namespace DirectoryStore

theorem Entry.same_symm {e f : Entry} (h : e.same f = true) : f.same e = true := by
  simp only [Entry.same, Bool.and_eq_true, AttributeMap.same, beq_iff_eq] at h ⊢
  exact ⟨Dn.same_symm h.1, h.2.symm⟩

namespace Tree

open TreeView

variable {σ μ τ ν : Type} [TreeView σ μ] [TreeView τ ν]

/-- The entry that a name leads to from the root. -/
def entryAt? (t : τ) (d : Dn) : Option Entry :=
  match lookup t (root t) d with
  | .error _ => none
  | .ok node => (entry t node).toOption

/-- A walk from `base` meets the node `x`. -/
def Below (t : τ) (base x : ν) : Prop :=
  ∃ l, subtree t base = .ok l ∧ x ∈ l

/-- A node at or below `base` has the entry `e`. -/
def Holds (t : τ) (base : ν) (e : Entry) : Prop :=
  ∃ x, Below t base x ∧ entry t x = .ok e

/-- Below two nodes of different trees are the same entries. -/
structure Alike (a : σ) (x : μ) (b : τ) (y : ν) : Prop where
  left : ∀ e, Holds a x e → ∃ f, Holds b y f ∧ e.same f = true
  right : ∀ f, Holds b y f → ∃ e, Holds a x e ∧ e.same f = true

/-- The root has a name, up to spelling. -/
def Named (t : τ) (d : Dn) : Prop :=
  ∃ d', TreeView.dn t (TreeView.root t) = .ok d' ∧ d'.same d = true

/-- Every node that a walk from the root meets has an entry. -/
def Readable (t : τ) : Prop :=
  ∀ x, Below t (TreeView.root t) x → ∃ e, TreeView.entry t x = .ok e

/-- Two trees hold equal entries: names lead to the same ones, and walks from the roots meet the
    same ones. -/
structure HoldSame (a : σ) (b : τ) : Prop where
  found : ∀ d, entryAt? a d = entryAt? b d
  met : ∀ e, Holds a (root a) e ↔ Holds b (root b) e

/-- Entries that are the same, or no entry on either side. -/
def Match (e f : Option Entry) : Prop :=
  Option.Rel (fun e f => Entry.same e f = true) e f

namespace Match

variable {e f : Option Entry}

theorem eq_none (h : Match e none) : e = none := by
  cases h
  rfl

theorem isSome_eq (h : Match e f) : e.isSome = f.isSome := by
  cases h <;> rfl

theorem symm (h : Match e f) : Match f e := by
  cases h with
  | none => exact .none
  | some h => exact .some (Entry.same_symm h)

end Match

theorem Alike.symm {a : σ} {x : μ} {b : τ} {y : ν} (h : Alike a x b y) : Alike b y a x := by
  refine ⟨fun f hf => ?_, fun e he => ?_⟩
  · obtain ⟨e, he, hs⟩ := h.right f hf
    exact ⟨e, he, Entry.same_symm hs⟩
  · obtain ⟨f, hf, hs⟩ := h.left e he
    exact ⟨f, hf, Entry.same_symm hs⟩

/-! ## Ways down -/

/-- Going down leads to what going down one level leads to. -/
theorem of_descend {p : ν → Prop} {t : τ} {target : Dn}
    (hchild : ∀ {node r below}, p node → child t node r = .ok (some below) → p below)
    {rs : List Rdn} {node found : ν} (hnode : p node)
    (h : descend t target rs node = .ok found) : p found := by
  induction rs generalizing node with
  | nil =>
      cases h
      exact hnode
  | cons r rs ih =>
      rw [descend] at h
      split at h
      · cases h
      · cases h
      · rename_i below hbelow
        exact ih (hchild hnode hbelow) h

theorem of_lookup {p : ν → Prop} {t : τ} {target : Dn}
    (hchild : ∀ {node r below}, p node → child t node r = .ok (some below) → p below)
    {base found : ν} (hbase : p base) (h : lookup t base target = .ok found) : p found := by
  rw [lookup] at h
  split at h
  · cases h
  · split at h
    · cases h
    · exact of_descend hchild hbase h

theorem descend_append {t : τ} {target : Dn} {rs ss : List Rdn} {node : ν} :
    descend t target (rs ++ ss) node =
      (descend t target rs node).bind (descend t target ss) := by
  induction rs generalizing node with
  | nil => rfl
  | cons r rs ih =>
      rw [List.cons_append, descend, descend]
      split
      · rfl
      · rfl
      · exact ih

/-- What is found does not depend on the name that an error would tell. -/
theorem descend_target {t : τ} {target target' : Dn} {rs : List Rdn} {node found : ν}
    (h : descend t target rs node = .ok found) : descend t target' rs node = .ok found := by
  induction rs generalizing node with
  | nil => exact h
  | cons r rs ih =>
      rw [descend] at h ⊢
      split at h
      · cases h
      · cases h
      · exact ih h

theorem lookup_self {t : τ} {base : ν} {d : Dn} (hd : dn t base = .ok d) :
    lookup t base d = .ok base := by
  have hnone : d.relative? d = some [] :=
    Dn.relative?_eq_some_iff.mpr ⟨d.rdns, rfl, Dn.same_refl d⟩
  simp only [lookup, hd, hnone]
  rfl

/-- A name leads to the child that its relative name has below what the name above leads to. -/
theorem lookup_child_eq_ok_iff {t : τ} {base x : ν} {dbase d : Dn} {r : Rdn}
    (hd : dn t base = .ok dbase) (hc : dbase.contains d = true) :
    lookup t base (d.child r) = .ok x ↔
      ∃ up, lookup t base d = .ok up ∧ child t up r = .ok (some x) := by
  obtain ⟨rs, hrs⟩ : ∃ rs, dbase.relative? d = some rs := by
    rw [Dn.relative?, if_pos hc]
    exact ⟨_, rfl⟩
  have hrs' : dbase.relative? (d.child r) = some (r :: rs) := by
    obtain ⟨ups, hups, hsame⟩ := Dn.relative?_eq_some_iff.mp hrs
    refine Dn.relative?_eq_some_iff.mpr ⟨ups, ?_, hsame⟩
    rw [Dn.child, hups, List.cons_append]
  simp only [lookup, hd, hrs, hrs', List.reverse_cons, descend_append]
  constructor
  · intro h
    cases hup : descend t (d.child r) rs.reverse base with
    | error e =>
        rw [hup] at h
        cases h
    | ok up =>
        rw [hup] at h
        refine ⟨up, descend_target hup, ?_⟩
        simp only [Except.bind, descend] at h
        split at h
        · cases h
        · cases h
        · rename_i below hbelow
          cases h
          exact hbelow
  · rintro ⟨up, hup, hx⟩
    rw [descend_target hup]
    simp only [Except.bind, descend, hx]

/-! ## Walks -/

variable {α β : Type}

theorem gather_eq_ok {f : α → Except TreeError (List β)} {g : α → List β} {xs : List α}
    (h : ∀ x ∈ xs, f x = .ok (g x)) : gather f xs = .ok (xs.flatMap g) := by
  induction xs with
  | nil => rfl
  | cons x xs ih =>
      rw [gather, h x List.mem_cons_self, ih fun y hy => h y (List.mem_cons_of_mem _ hy)]
      rfl

theorem gather_congr {f g : α → Except TreeError (List β)} {xs : List α}
    (h : ∀ x ∈ xs, f x = g x) : gather f xs = gather g xs := by
  induction xs with
  | nil => rfl
  | cons x xs ih =>
      rw [gather, gather, h x List.mem_cons_self, ih fun y hy => h y (List.mem_cons_of_mem _ hy)]

/-- What is gathered from lists that are all found. -/
theorem exists_gather {f : α → Except TreeError (List β)} {p : α → List β → Prop} {xs : List α}
    (h : ∀ x ∈ xs, ∃ l, f x = .ok l ∧ p x l) :
    ∃ g : α → List β, gather f xs = .ok (xs.flatMap g) ∧ ∀ x ∈ xs, p x (g x) := by
  refine ⟨fun x => (f x).toOption.getD [], gather_eq_ok fun x hx => ?_, fun x hx => ?_⟩
  · obtain ⟨l, hl, -⟩ := h x hx
    rw [hl]
    rfl
  · obtain ⟨l, hl, hp⟩ := h x hx
    simp only [hl]
    exact hp

/-! ## Deciding what a walk meets -/

/-- The nodes that a walk from the root meets. -/
def met (t : τ) : List ν :=
  (subtree t (TreeView.root t)).toOption.getD []

/-- The entries that a walk from the root meets. -/
def entriesMet (t : τ) : List Entry :=
  (met t).filterMap fun x => (TreeView.entry t x).toOption

theorem mem_met {t : τ} {x : ν} : x ∈ met t ↔ Below t (TreeView.root t) x := by
  rw [met, Below]
  cases subtree t (TreeView.root t) with
  | error e => simp [Except.toOption]
  | ok l => simp [Except.toOption]

theorem toOption_eq_some_iff {ε : Type} {x : Except ε α} {v : α} :
    x.toOption = some v ↔ x = .ok v := by
  cases x <;> simp [Except.toOption]

theorem mem_entriesMet {t : τ} {e : Entry} :
    e ∈ entriesMet t ↔ Holds t (TreeView.root t) e := by
  simp only [entriesMet, List.mem_filterMap, mem_met, toOption_eq_some_iff, Holds]

instance (t : τ) (d : Dn) : Decidable (Named t d) :=
  decidable_of_iff ((TreeView.dn t (TreeView.root t)).toOption.any (·.same d) = true) (by
    simp only [Option.any_eq_true, toOption_eq_some_iff, Named])

instance (t : τ) : Decidable (Readable t) :=
  decidable_of_iff (∀ x ∈ met t, (TreeView.entry t x).toOption.isSome = true) (by
    simp only [mem_met, Option.isSome_iff_exists, toOption_eq_some_iff]
    rfl)

instance (a : σ) (b : τ) : Decidable (Alike a (TreeView.root a) b (TreeView.root b)) :=
  decidable_of_iff ((∀ e ∈ entriesMet a, ∃ f ∈ entriesMet b, e.same f = true) ∧
      ∀ f ∈ entriesMet b, ∃ e ∈ entriesMet a, e.same f = true) (by
    simp only [mem_entriesMet]
    exact ⟨fun h => ⟨h.1, h.2⟩, fun h => ⟨h.left, h.right⟩⟩)

end Tree
end DirectoryStore
