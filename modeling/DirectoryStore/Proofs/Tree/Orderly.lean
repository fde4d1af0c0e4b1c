import DirectoryStore.Proofs.Attribute.Lookup
import DirectoryStore.Proofs.Tree.Content
import DirectoryStore.Tree.Diff

/-!
# Orderly trees

In an orderly tree names tell nodes apart: a child has the name of its parent with one relative
name in front, siblings have different names, and no way down is longer than the tree is high.
Then a walk from the root meets every node, and the children of a node can be put in the order of
their relative names.
-/

namespace DirectoryStore
namespace Tree

variable {τ ν : Type} [TreeView τ ν] {t : τ} {n m depth : Nat} {x y c : ν} {d d' base : Dn}
variable {ids : List ν} {e : Entry}

/-- A node that is so many levels below the root. -/
inductive Level (t : τ) : Nat → ν → Prop where
  | root : Level t 0 (TreeView.root t)
  | child {n : Nat} {x c : ν} {below : List ν} :
      Level t n x → TreeView.children t x = .ok below → c ∈ below → Level t (n + 1) c

structure Orderly (t : τ) : Prop where
  /-- The children of a node are found, and each has the name of the node with one relative name
      in front. -/
  children : ∀ {n x}, Level t n x → ∃ d below, TreeView.dn t x = .ok d ∧
    TreeView.children t x = .ok below ∧ ∀ c ∈ below, ∃ r, TreeView.dn t c = .ok (d.child r)
  /-- Siblings have different names. -/
  apart : ∀ {n x below c c' d d'}, Level t n x → TreeView.children t x = .ok below →
    c ∈ below → c' ∈ below → TreeView.dn t c = .ok d → TreeView.dn t c' = .ok d' →
    d.same d' = true → c = c'
  /-- An entry has the name of its node. -/
  entry_dn : ∀ {x e}, TreeView.entry t x = .ok e → TreeView.dn t x = .ok e.dn
  level_le : ∀ {n x}, Level t n x → n ≤ TreeView.height t

/-! ## Children by name -/

/-- Nodes whose names differ in the relative name in front are put in the order of these. -/
theorem named_eq_ok (hnames : ∀ c ∈ ids, ∃ r, TreeView.dn t c = .ok (d.child r))
    (hapart : ∀ r s, r.same s = true → ∀ c ∈ ids, ∀ c' ∈ ids, TreeView.dn t c = .ok (d.child r) →
      TreeView.dn t c' = .ok (d.child s) → c = c') :
    ∃ l, named t ids = .ok l ∧ Rising (fun z : Rdn × ν => z.1.key) l ∧
      ∀ r c, (r, c) ∈ l ↔ c ∈ ids ∧ TreeView.dn t c = .ok (d.child r) := by
  induction ids with
  | nil => exact ⟨[], rfl, List.Pairwise.nil, by simp⟩
  | cons c ids ih =>
      obtain ⟨r, hr⟩ := hnames c List.mem_cons_self
      obtain ⟨l, hl, hrising, hmem⟩ := ih (fun y hy => hnames y (List.mem_cons_of_mem _ hy))
        fun r s hrs y hy z hz =>
          hapart r s hrs y (List.mem_cons_of_mem _ hy) z (List.mem_cons_of_mem _ hz)
      -- what has the key of the first node is that node once more
      have hfirst : ∀ s y, (s, y) ∈ l → s.key = r.key → (s, y) = (r, c) := by
        intro s y hy hkey
        obtain ⟨hy, hs⟩ := (hmem s y).mp hy
        obtain rfl := hapart s r (Rdn.same_iff.mpr hkey) y (List.mem_cons_of_mem _ hy) c
          List.mem_cons_self hs hr
        cases hs.symm.trans hr
        rfl
      have hleaf : (d.child r).leaf? = some r := rfl
      have hname : ∀ s, TreeView.dn t c = .ok (d.child s) → s = r := by
        intro s hs
        cases hs.symm.trans hr
        rfl
      by_cases hany : (l.any fun z => z.1.same r) = true
      · refine ⟨l, by simp only [named, hr, hl, hleaf, hany, if_true], hrising, fun s y => ?_⟩
        obtain ⟨⟨s', y'⟩, hy', hsame⟩ := List.any_eq_true.mp hany
        cases hfirst s' y' hy' (Rdn.same_iff.mp hsame)
        rw [hmem, List.mem_cons]
        constructor
        · rintro ⟨hy, hs⟩
          exact ⟨.inr hy, hs⟩
        · rintro ⟨rfl | hy, hs⟩
          · exact ⟨((hmem r y).mp hy').1, hs⟩
          · exact ⟨hy, hs⟩
      · rw [Bool.not_eq_true] at hany
        refine ⟨Rising.put (fun z : Rdn × ν => z.1.key) (r, c) l,
          by simp only [named, hr, hl, hleaf, hany, Bool.false_eq_true, if_false],
          Rising.put_rising _ hrising, fun s y => ?_⟩
        have hnew : (s, y) ∈ l → s.key ≠ r.key := by
          intro hy hkey
          rw [Bool.eq_false_iff, Ne, List.any_eq_true] at hany
          exact hany ⟨(s, y), hy, Rdn.same_iff.mpr hkey⟩
        rw [Rising.mem_put, List.mem_cons, and_iff_left_of_imp hnew, hmem]
        constructor
        · rintro (he | ⟨hy, hs⟩)
          · cases he
            exact ⟨.inl rfl, hr⟩
          · exact ⟨.inr hy, hs⟩
        · rintro ⟨rfl | hy, hs⟩
          · exact .inl (by rw [hname s hs])
          · exact .inr ⟨hy, hs⟩

theorem Level.eq_root (h : Level t 0 x) : x = TreeView.root t := by
  cases h
  rfl

theorem same_child_iff {r s : Rdn} : (d.child r).same (d'.child s) = true ↔
    d.same d' = true ∧ r.same s = true := by
  rw [Dn.same_iff, Dn.same_iff, Rdn.same_iff, Dn.key_child, Dn.key_child]
  constructor
  · intro h
    obtain ⟨hup, hleaf⟩ := List.append_inj' h rfl
    exact ⟨hup, (List.cons.inj hleaf).1⟩
  · rintro ⟨hup, hleaf⟩
    rw [hup, hleaf]

namespace Orderly

/-- The children of a node, in the order of their relative names. -/
theorem childrenByRdn_eq_ok (h : Orderly t) (hx : Level t n x) :
    ∃ d below l, TreeView.dn t x = .ok d ∧ TreeView.children t x = .ok below ∧
      childrenByRdn t x = .ok l ∧ Rising (fun z : Rdn × ν => z.1.key) l ∧
      ∀ r c, (r, c) ∈ l ↔ c ∈ below ∧ TreeView.dn t c = .ok (d.child r) := by
  obtain ⟨d, below, hd, hbelow, hnames⟩ := h.children hx
  obtain ⟨l, hl, hrising, hmem⟩ := named_eq_ok hnames fun r s hrs c hc c' hc' hr hs =>
    h.apart hx hbelow hc hc' hr hs (same_child_iff.mpr ⟨Dn.same_refl d, hrs⟩)
  exact ⟨d, below, l, hd, hbelow, by simp only [childrenByRdn, hbelow, hl], hrising, hmem⟩

/-! ## Names and levels -/

theorem exists_dn (h : Orderly t) (hx : Level t n x) : ∃ d, TreeView.dn t x = .ok d := by
  obtain ⟨d, -, hd, -⟩ := h.children hx
  exact ⟨d, hd⟩

/-- The name of a child is that of its parent with one relative name in front. -/
theorem exists_up (h : Orderly t) (hc : Level t (n + 1) c) (hd : TreeView.dn t c = .ok d) :
    ∃ x up below r, Level t n x ∧ TreeView.dn t x = .ok up ∧
      TreeView.children t x = .ok below ∧ c ∈ below ∧ d = up.child r := by
  cases hc with
  | @child n x c below hx hbelow hmem =>
      obtain ⟨up, below', hup, hbelow', hnames⟩ := h.children hx
      cases hbelow.symm.trans hbelow'
      obtain ⟨r, hr⟩ := hnames c hmem
      exact ⟨x, up, below, r, hx, hup, hbelow, hmem, Except.ok.inj (hd.symm.trans hr)⟩

theorem size_eq (h : Orderly t) (hroot : TreeView.dn t (TreeView.root t) = .ok base)
    (hx : Level t n x) (hd : TreeView.dn t x = .ok d) : d.size = base.size + n := by
  induction n generalizing x d with
  | zero =>
      cases hx.eq_root
      cases hd.symm.trans hroot
      rfl
  | succ n ih =>
      obtain ⟨y, up, below, r, hy, hup, -, -, rfl⟩ := h.exists_up hx hd
      have hsize : (up.child r).size = up.size + 1 := rfl
      rw [hsize, ih hy hup, Nat.add_assoc]

/-- A name tells where a node is. -/
theorem unique (h : Orderly t) (hx : Level t n x) (hy : Level t m y)
    (hd : TreeView.dn t x = .ok d) (hd' : TreeView.dn t y = .ok d') (hsame : d.same d' = true) :
    n = m ∧ x = y := by
  obtain ⟨base, hbase⟩ := h.exists_dn .root
  obtain rfl : n = m := by
    have hn := h.size_eq hbase hx hd
    have hm := h.size_eq hbase hy hd'
    have hsize := Dn.size_eq_of_same hsame
    omega
  refine ⟨rfl, ?_⟩
  induction n generalizing x y d d' with
  | zero => rw [hx.eq_root, hy.eq_root]
  | succ n ih =>
      obtain ⟨x', up, below, r, hx', hup, hbelow, hmem, rfl⟩ := h.exists_up hx hd
      obtain ⟨y', up', below', s, hy', hup', hbelow', hmem', rfl⟩ := h.exists_up hy hd'
      cases ih hx' hup hup' (same_child_iff.mp hsame).1 hy'
      cases hbelow.symm.trans hbelow'
      exact h.apart hx' hbelow hmem hmem' hd hd' hsame

end Orderly

/-! ## Walks -/

section Walks

variable (hchildren : ∀ {n x}, Level t n x → ∃ below, TreeView.children t x = .ok below)
variable (hheight : ∀ {n x}, Level t n x → n ≤ TreeView.height t)

include hchildren hheight

/-- A walk that is deep enough meets its start and the children of all that it meets. -/
theorem preorder_of_levels (hx : Level t n x) (hdepth : TreeView.height t ≤ depth + n) :
    ∃ l, preorder t depth x = .ok l ∧ x ∈ l ∧ (∀ y ∈ l, ∃ m, Level t m y) ∧
      ∀ y ∈ l, ∀ below, TreeView.children t y = .ok below → below ⊆ l := by
  induction depth generalizing n x with
  | zero =>
      refine ⟨[x], rfl, List.mem_singleton_self x, fun y hy => ?_, fun y hy below hbelow c hc => ?_⟩
      · rw [List.mem_singleton] at hy
        exact ⟨n, hy ▸ hx⟩
      · rw [List.mem_singleton] at hy
        subst hy
        have hdeep := hheight (hx.child hbelow hc)
        omega
  | succ depth ih =>
      obtain ⟨below, hbelow⟩ := hchildren hx
      obtain ⟨g, hg, hgs⟩ := exists_gather fun c hc => ih (hx.child hbelow hc) (by omega)
      refine ⟨x :: below.flatMap g, by simp only [preorder, hbelow, hg], List.mem_cons_self,
        fun y hy => ?_, fun y hy below' hbelow' c' hc' => ?_⟩
      · rcases List.mem_cons.mp hy with rfl | hy
        · exact ⟨n, hx⟩
        · obtain ⟨c, hc, hy⟩ := List.mem_flatMap.mp hy
          exact (hgs c hc).2.1 y hy
      · refine List.mem_cons_of_mem _ (List.mem_flatMap.mpr ?_)
        rcases List.mem_cons.mp hy with rfl | hy
        · cases hbelow.symm.trans hbelow'
          exact ⟨c', hc', (hgs c' hc').1⟩
        · obtain ⟨c, hc, hy⟩ := List.mem_flatMap.mp hy
          exact ⟨c, hc, (hgs c hc).2.2 y hy below' hbelow' hc'⟩

/-- A walk from the root meets the nodes of all levels. -/
theorem subtree_of_levels :
    ∃ l, subtree t (TreeView.root t) = .ok l ∧ ∀ x, x ∈ l ↔ ∃ n, Level t n x := by
  obtain ⟨l, hl, hroot, hlevel, hclosed⟩ :=
    preorder_of_levels hchildren hheight .root (Nat.le_refl (TreeView.height t))
  refine ⟨l, hl, fun x => ⟨hlevel x, ?_⟩⟩
  rintro ⟨n, hx⟩
  induction hx with
  | root => exact hroot
  | child _ hbelow hc ih => exact hclosed _ ih _ hbelow hc

end Walks

theorem Orderly.below_iff (h : Orderly t) : Below t (TreeView.root t) x ↔ ∃ n, Level t n x := by
  obtain ⟨l, hl, hmem⟩ := subtree_of_levels
    (fun hx => by
      obtain ⟨-, below, -, hbelow, -⟩ := h.children hx
      exact ⟨below, hbelow⟩)
    h.level_le
  rw [← hmem]
  constructor
  · rintro ⟨l', hl', hx⟩
    cases hl.symm.trans hl'
    exact hx
  · exact fun hx => ⟨l, hl, hx⟩

end Tree
end DirectoryStore
