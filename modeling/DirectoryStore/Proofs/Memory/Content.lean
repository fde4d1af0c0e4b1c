import DirectoryStore.Proofs.Memory.Run
import DirectoryStore.Proofs.Tree.Content

/-!
# What trees in memory hold

The names and entries of the nodes of a linked tree, and what becomes of them when a node
gets other attributes, a child is added or a leaf goes: one name leads to another entry,
and all other names lead where they led before.
-/

namespace DirectoryStore
namespace MemoryTree

open DirectoryStore.Tree (entryAt?)

variable {t t' : MemoryTree} {id up new x y : NodeId} {n : MemoryNode} {r : Rdn}
variable {d dx dy : Dn} {e f : Entry} {attrs : AttributeMap} {rs ws : List Rdn}

/-! ## Nodes, names and entries -/

theorem Linked.dn_live (h : Linked t) (hd : t.dn x = .ok d) : ∃ n, t.node? x = some n := by
  obtain ⟨rs, hw, -⟩ := h.dn_eq_ok_iff.mp hd
  exact hw.live

theorem Linked.entry_eq_ok_iff (h : Linked t) :
    t.entry x = .ok e ↔
      t.dn x = .ok e.dn ∧ ∃ n, t.node? x = some n ∧ n.attributes = e.attributes := by
  constructor
  · intro he
    cases hn : t.node? x with
    | none =>
        rw [entry_stale hn] at he
        cases he
    | some n =>
        obtain ⟨ws, hw⟩ := h.grounded hn
        rw [entry_of_way h hw hn] at he
        cases he
        exact ⟨h.dn_of_way hw, n, rfl, rfl⟩
  · rintro ⟨hd, n, hn, ha⟩
    simp only [entry, node_eq_ok hn, hd, ha]

theorem Linked.exists_entry (h : Linked t) (hd : t.dn x = .ok d) :
    ∃ attrs, t.entry x = .ok ⟨d, attrs⟩ := by
  obtain ⟨n, hn⟩ := h.dn_live hd
  exact ⟨n.attributes, h.entry_eq_ok_iff.mpr ⟨hd, n, hn, rfl⟩⟩

/-- A name tells a node from all others. -/
theorem Linked.eq_of_same (h : Linked t) (hx : t.dn x = .ok dx) (hy : t.dn y = .ok dy)
    (hs : dx.same dy = true) : x = y := by
  obtain ⟨rs, hrs, rfl⟩ := h.dn_eq_ok_iff.mp hx
  obtain ⟨ws, hws, rfl⟩ := h.dn_eq_ok_iff.mp hy
  rw [Dn.same_iff, Dn.key_append, Dn.key_append, List.append_cancel_left_eq,
    List.reverse_inj] at hs
  exact h.eq_of_keys_eq hrs hws hs

theorem Linked.lookup_eq_ok_iff (h : Linked t) :
    Tree.lookup t rootId d = .ok x ↔ ∃ dx, t.dn x = .ok dx ∧ dx.same d = true := by
  rw [h.lookup_root_eq_ok_iff]
  constructor
  · rintro ⟨rs, hw, hs⟩
    exact ⟨_, h.dn_of_way hw, hs⟩
  · rintro ⟨dx, hd, hs⟩
    obtain ⟨rs, hw, rfl⟩ := h.dn_eq_ok_iff.mp hd
    exact ⟨rs, hw, hs⟩

theorem Linked.entryAt?_eq_some_iff (h : Linked t) :
    entryAt? t d = some e ↔ ∃ x, t.entry x = .ok e ∧ e.dn.same d = true := by
  unfold entryAt?
  have hroot : TreeView.root t = rootId := rfl
  rw [hroot]
  cases hl : Tree.lookup t rootId d with
  | error err =>
      constructor
      · nofun
      · rintro ⟨x, he, hs⟩
        have hd := (h.entry_eq_ok_iff.mp he).1
        rw [h.lookup_eq_ok_iff.mpr ⟨_, hd, hs⟩] at hl
        cases hl
  | ok x =>
      obtain ⟨dx, hd, hs⟩ := h.lookup_eq_ok_iff.mp hl
      obtain ⟨attrs, hx⟩ := h.exists_entry hd
      have hx' : TreeView.entry t x = .ok ⟨dx, attrs⟩ := hx
      dsimp only
      rw [hx']
      constructor
      · intro he
        cases he
        exact ⟨x, hx, hs⟩
      · rintro ⟨y, he, hs'⟩
        have hdy := (h.entry_eq_ok_iff.mp he).1
        cases h.eq_of_same hdy hd (Dn.same_trans hs' (Dn.same_symm hs))
        rw [hx] at he
        cases he
        rfl

theorem Linked.entryAt?_eq_none_iff (h : Linked t) :
    entryAt? t d = none ↔ ∀ x dx, t.dn x = .ok dx → dx.same d = false := by
  rw [Option.eq_none_iff_forall_ne_some]
  constructor
  · intro hnone x dx hd
    rw [Bool.eq_false_iff]
    intro hs
    obtain ⟨attrs, he⟩ := h.exists_entry hd
    exact hnone _ (h.entryAt?_eq_some_iff.mpr ⟨x, he, hs⟩)
  · intro hall e he
    obtain ⟨x, hx, hs⟩ := h.entryAt?_eq_some_iff.mp he
    rw [hall x _ (h.entry_eq_ok_iff.mp hx).1] at hs
    cases hs

theorem Linked.entryAt?_of_entry (h : Linked t) (he : t.entry x = .ok e) :
    entryAt? t e.dn = some e :=
  h.entryAt?_eq_some_iff.mpr ⟨x, he, Dn.same_refl _⟩

theorem Linked.dn_root (h : Linked t) : t.dn rootId = .ok t.rootDn :=
  h.dn_of_way h.root_way

/-- The place of a node shows in its name. -/
theorem Linked.dn_of_placed (h : Linked t) (hp : Placed t x up r) (hd : t.dn up = .ok d) :
    t.dn x = .ok (d.child r) := by
  obtain ⟨ws, hw, rfl⟩ := h.dn_eq_ok_iff.mp hd
  exact h.dn_of_way (.step hp hw)

/-- A node is the root, or has a parent whose name its own extends. -/
theorem Linked.dn_cases (h : Linked t) (hd : t.dn x = .ok d) :
    (x = rootId ∧ d = t.rootDn) ∨
      ∃ up r dup, Placed t x up r ∧ t.dn up = .ok dup ∧ d = dup.child r := by
  obtain ⟨rs, hw, rfl⟩ := h.dn_eq_ok_iff.mp hd
  cases hw with
  | here _ => exact .inl ⟨rfl, rfl⟩
  | step hp hw => exact .inr ⟨_, _, _, hp, h.dn_of_way hw, rfl⟩

/-! ## After a change -/

namespace Reattributed

theorem dn_eq (h : Reattributed t t' id attrs) (hl : Linked t) (hroot : t'.rootDn = t.rootDn)
    (x : NodeId) : t'.dn x = .ok d ↔ t.dn x = .ok d := by
  rw [(h.linked hl).dn_eq_ok_iff, hl.dn_eq_ok_iff, hroot]
  simp only [h.way_iff]

theorem entryAt?_eq (h : Reattributed t t' id attrs) (hl : Linked t)
    (hroot : t'.rootDn = t.rootDn) (hid : t.dn id = .ok dx) (d : Dn) :
    entryAt? t' d = if dx.same d then some ⟨dx, attrs⟩ else entryAt? t d := by
  obtain ⟨n, hn⟩ := hl.dn_live hid
  have hl' := h.linked hl
  split
  · rename_i hs
    refine hl'.entryAt?_eq_some_iff.mpr ⟨id, hl'.entry_eq_ok_iff.mpr ⟨?_, ?_⟩, hs⟩
    · exact (h.dn_eq hl hroot id).mpr hid
    · rw [h id, if_pos rfl, hn]
      exact ⟨_, rfl, rfl⟩
  · rename_i hs
    apply Option.ext
    intro e
    rw [hl'.entryAt?_eq_some_iff, hl.entryAt?_eq_some_iff]
    refine exists_congr fun x => and_congr_left fun hsame => ?_
    rw [hl'.entry_eq_ok_iff, hl.entry_eq_ok_iff, h.dn_eq hl hroot]
    refine and_congr_right fun hx => ?_
    rw [h x, if_neg]
    rintro rfl
    rw [hid] at hx
    cases hx
    exact hs hsame

end Reattributed

namespace Grown

theorem dn_eq_ok_iff (h : Grown t t' up new r attrs) (hl : Linked t)
    (hfree : ∀ {c s}, Placed t c up s → s.same r = false) (hroot : t'.rootDn = t.rootDn)
    (hup : t.dn up = .ok d) (x : NodeId) :
    t'.dn x = .ok dx ↔ t.dn x = .ok dx ∨ (x = new ∧ dx = d.child r) := by
  obtain ⟨ws, hw, rfl⟩ := hl.dn_eq_ok_iff.mp hup
  rw [(h.linked hl hfree).dn_eq_ok_iff, hl.dn_eq_ok_iff, hroot]
  have hlive := hl.root_way.live
  constructor
  · rintro ⟨rs, hrs, rfl⟩
    rcases (h.way_iff hl hlive).mp hrs with hrs | ⟨rfl, qs, hqs, rfl⟩
    · exact .inl ⟨rs, hrs, rfl⟩
    · cases hl.way_unique hqs hw
      exact .inr ⟨rfl, rfl⟩
  · rintro (⟨rs, hrs, rfl⟩ | ⟨rfl, rfl⟩)
    · exact ⟨rs, (h.way_iff hl hlive).mpr (.inl hrs), rfl⟩
    · exact ⟨r :: ws, (h.way_iff hl hlive).mpr (.inr ⟨rfl, ws, hw, rfl⟩), rfl⟩

theorem entryAt?_eq (h : Grown t t' up new r attrs) (hl : Linked t)
    (hfree : ∀ {c s}, Placed t c up s → s.same r = false) (hroot : t'.rootDn = t.rootDn)
    (hup : t.dn up = .ok dx) (d : Dn) :
    entryAt? t' d = if (dx.child r).same d then some ⟨dx.child r, attrs⟩ else entryAt? t d := by
  have hl' := h.linked hl hfree
  have hnew : t'.dn new = .ok (dx.child r) :=
    (h.dn_eq_ok_iff hl hfree hroot hup new).mpr (.inr ⟨rfl, rfl⟩)
  split
  · rename_i hs
    refine hl'.entryAt?_eq_some_iff.mpr ⟨new, hl'.entry_eq_ok_iff.mpr ⟨?_, ?_⟩, hs⟩
    · exact hnew
    · rw [h.node? new, if_pos rfl]
      exact ⟨_, rfl, rfl⟩
  · rename_i hs
    apply Option.ext
    intro e
    rw [hl'.entryAt?_eq_some_iff, hl.entryAt?_eq_some_iff]
    refine exists_congr fun x => and_congr_left fun hsame => ?_
    rw [hl'.entry_eq_ok_iff, hl.entry_eq_ok_iff, h.dn_eq_ok_iff hl hfree hroot hup]
    have hold : ¬ (x = new ∧ e.dn = dx.child r) := by
      rintro ⟨-, he⟩
      rw [← he] at hs
      exact hs hsame
    rw [or_iff_left hold]
    refine and_congr_right fun hx => ?_
    obtain ⟨m, hm⟩ := hl.dn_live hx
    have hne : x ≠ new := by
      rintro rfl
      rw [h.fresh] at hm
      cases hm
    rw [h.node? x, if_neg hne]
    split
    · simp [hm]
    · rfl

end Grown

namespace Pruned

theorem dn_eq_ok_iff (h : Pruned t t' up id) (hl : Linked t) (hroot : t'.rootDn = t.rootDn)
    (x : NodeId) : t'.dn x = .ok d ↔ t.dn x = .ok d ∧ x ≠ id := by
  rw [(h.linked hl).dn_eq_ok_iff, hl.dn_eq_ok_iff, hroot]
  simp only [h.way_iff hl (h.ne_root hl), ← exists_and_right, and_right_comm]

theorem entryAt?_eq (h : Pruned t t' up id) (hl : Linked t) (hroot : t'.rootDn = t.rootDn)
    (hid : t.dn id = .ok dx) (d : Dn) :
    entryAt? t' d = if dx.same d then none else entryAt? t d := by
  have hl' := h.linked hl
  split
  · rename_i hs
    refine hl'.entryAt?_eq_none_iff.mpr fun y dy hy => ?_
    obtain ⟨hy, hne⟩ := (h.dn_eq_ok_iff hl hroot y).mp hy
    rw [Bool.eq_false_iff]
    intro hsame
    exact hne (hl.eq_of_same hy hid (Dn.same_trans hsame (Dn.same_symm hs)))
  · rename_i hs
    apply Option.ext
    intro e
    rw [hl'.entryAt?_eq_some_iff, hl.entryAt?_eq_some_iff]
    refine exists_congr fun x => and_congr_left fun hsame => ?_
    rw [hl'.entry_eq_ok_iff, hl.entry_eq_ok_iff, h.dn_eq_ok_iff hl hroot]
    have hne : t.dn x = .ok e.dn → x ≠ id := by
      rintro hx rfl
      rw [hid] at hx
      cases hx
      exact hs hsame
    rw [and_iff_left_of_imp hne]
    refine and_congr_right fun hx => ?_
    rw [h.node? x, if_neg (hne hx)]
    split
    · cases t.node? x <;> simp
    · rfl

end Pruned

end MemoryTree
end DirectoryStore
