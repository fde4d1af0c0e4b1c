import DirectoryStore.Proofs.Files.Reading

/-!
# Walks through trees in files

No way down is longer than a path can be, so a walk from the root meets all that is stored.
-/

namespace DirectoryStore
namespace FileTree
namespace Houses

variable {t : FileTree} {top : AttributeMap → FileObject} {c : Contents} {rs : List Rdn}
variable {node : FileNode}

theorem length_le (h : t.Houses top c) (hrs : c.Has rs) : rs.length ≤ FileSystem.pathLimit := by
  cases rs with
  | nil => exact Nat.zero_le _
  | cons r rs =>
      obtain ⟨name, name', up, hdir, -, -⟩ := h.rooted.top.exists_eq
      obtain ⟨a, ha⟩ := hrs.resolve_left (List.cons_ne_nil _ _)
      have hfits := (h.fits ha).1
      rw [FileSystem.fits, decide_eq_true_eq] at hfits
      have hlen := FileSystem.length_le_byteCount (t.root.down (r :: rs)).ldif
      have hpath : (t.root.down (r :: rs)).ldif.length = rs.length + up.length + 2 := by
        rw [FileNode.down_ldif, FileNode.down_dir, hdir]
        simp only [List.length_cons, List.length_append, List.length_map]
        omega
      rw [hpath] at hlen
      rw [List.length_cons]
      omega

/-- A walk that is deep enough meets the node that it starts from and all below it. -/
theorem preorder_eq_ok (h : t.Houses top c) {depth : Nat} (hrs : c.Has rs)
    (hdepth : FileSystem.pathLimit ≤ depth + rs.length) :
    ∃ l, Tree.preorder t depth (t.root.down rs) = .ok l ∧
      ∀ node, node ∈ l ↔ ∃ ls, c.Has (ls ++ rs) ∧ node = t.root.down (ls ++ rs) := by
  induction depth generalizing rs with
  | zero =>
      refine ⟨[t.root.down rs], rfl, fun node => ?_⟩
      rw [List.mem_singleton]
      constructor
      · intro hnode
        exact ⟨[], hrs, hnode⟩
      · intro hnode
        obtain ⟨ls, hls, rfl⟩ := hnode
        have hlen := h.length_le hls
        rw [List.length_append] at hlen
        obtain rfl : ls = [] := List.length_eq_zero_iff.mp (by omega)
        rfl
  | succ depth ih =>
      have hbelow : ∀ node ∈ t.childNodes (t.root.down rs),
          ∃ l, Tree.preorder t depth node = .ok l ∧ ∃ s a, c (s :: rs) = some a ∧
            node = t.root.down (s :: rs) ∧ ∀ node', node' ∈ l ↔
              ∃ ls, c.Has (ls ++ s :: rs) ∧ node' = t.root.down (ls ++ s :: rs) := by
        intro node hmem
        obtain ⟨s, a, hs, rfl⟩ := (h.mem_childNodes (h.legible hrs)).mp hmem
        have hhas : c.Has (s :: rs) := .inr ⟨a, hs⟩
        obtain ⟨l, hl, hall⟩ := ih hhas (by
          rw [List.length_cons]
          omega)
        exact ⟨l, hl, s, a, hs, rfl, hall⟩
      obtain ⟨g, hg, hgs⟩ := Tree.exists_gather hbelow
      have hchildren : TreeView.children t (t.root.down rs) =
          .ok (t.childNodes (t.root.down rs)) := rfl
      refine ⟨t.root.down rs :: (t.childNodes (t.root.down rs)).flatMap g,
        by simp only [Tree.preorder, hchildren, hg], fun node => ?_⟩
      rw [List.mem_cons, List.mem_flatMap]
      constructor
      · intro hnode
        rcases hnode with rfl | ⟨child, hchild, hnode⟩
        · exact ⟨[], hrs, rfl⟩
        · obtain ⟨s, a, -, -, hall⟩ := hgs child hchild
          obtain ⟨ls, hls, he⟩ := (hall node).mp hnode
          exact ⟨ls ++ [s], by simpa using hls, by simpa using he⟩
      · intro hnode
        obtain ⟨ls, hls, rfl⟩ := hnode
        rcases List.eq_nil_or_concat ls with rfl | ⟨ls, s, rfl⟩
        · exact .inl rfl
        · rw [List.concat_eq_append, List.append_assoc, List.singleton_append] at hls ⊢
          obtain ⟨a, hs⟩ := (h.proper.has_of_append hls).resolve_left (List.cons_ne_nil _ _)
          have hchild := (h.mem_childNodes (h.legible hrs)).mpr ⟨s, a, hs, rfl⟩
          obtain ⟨s', -, -, he, hall⟩ := hgs _ hchild
          obtain rfl : s = s' := (List.cons.inj (FileNode.down_inj he)).1
          exact .inr ⟨_, hchild, (hall _).mpr ⟨ls, hls, rfl⟩⟩

/-- A walk from the root meets the nodes that are there. -/
theorem below_iff (h : t.Houses top c) :
    Tree.Below t t.root node ↔ ∃ rs, c.Has rs ∧ node = t.root.down rs := by
  obtain ⟨l, hl, hall⟩ := h.preorder_eq_ok (show c.Has [] from .inl rfl)
    (Nat.le_refl FileSystem.pathLimit)
  have hsubtree : Tree.subtree t t.root = .ok l := hl
  simp only [List.append_nil] at hall
  constructor
  · intro hbelow
    obtain ⟨l', hl', hnode⟩ := hbelow
    obtain rfl : l = l' := Except.ok.inj (hsubtree.symm.trans hl')
    exact (hall node).mp hnode
  · intro hnode
    exact ⟨l, hsubtree, (hall node).mpr hnode⟩

end Houses

/-- What is below the root is what is stored. -/
theorem Stores.holds_iff {t : FileTree} {c : Contents} (h : t.Stores c) {e : Entry} :
    Tree.Holds t t.root e ↔
      ∃ rs, c.Has rs ∧ e = ⟨(t.root.down rs).dn, (c rs).getD .empty⟩ := by
  constructor
  · intro he
    obtain ⟨node, hbelow, hentry⟩ := he
    obtain ⟨rs, hrs, rfl⟩ := h.below_iff.mp hbelow
    exact ⟨rs, hrs, Except.ok.inj (hentry.symm.trans (h.entry_eq hrs))⟩
  · intro he
    obtain ⟨rs, hrs, rfl⟩ := he
    exact ⟨_, h.below_iff.mpr ⟨rs, hrs, rfl⟩, h.entry_eq hrs⟩

end FileTree
end DirectoryStore
