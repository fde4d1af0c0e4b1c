import DirectoryStore.Proofs.Memory.Links
import DirectoryStore.Proofs.Tree.Content

/-!
# Walks through linked trees

A walk from a node of a linked tree does not run out of levels, and meets every node below
its start once.
-/

namespace DirectoryStore

namespace MemoryTree

variable {t : MemoryTree} {id x : NodeId} {n : MemoryNode} {ws : List Rdn} {l : List NodeId}

theorem children_eq_ok (hn : t.node? id = some n) : t.children id = .ok n.children := by
  simp [MemoryTree.children, node_eq_ok hn]

/-- What lies below a node is the node itself, or lies below one of its children. -/
theorem Linked.way_iff_child (h : Linked t) (hn : t.node? id = some n) :
    (∃ qs, Way t id x qs) ↔ x = id ∨ ∃ c ∈ n.children, ∃ qs, Way t c x qs := by
  constructor
  · rintro ⟨qs, hw⟩
    rcases List.eq_nil_or_concat qs with rfl | ⟨qs, r, rfl⟩
    · exact .inl hw.eq_of_nil
    · rw [List.concat_eq_append] at hw
      obtain ⟨c, hc, hx⟩ := hw.split
      obtain ⟨up, hp, hup⟩ := hc.of_cons
      cases hup.eq_of_nil
      exact .inr ⟨c, (h.children hn).mpr ⟨r, hp⟩, qs, hx⟩
  · rintro (rfl | ⟨c, hc, qs, hw⟩)
    · exact ⟨[], .here hn⟩
    · obtain ⟨r, hp⟩ := (h.children hn).mp hc
      exact ⟨_, (Way.step hp (.here hn)).append hw⟩

/-- Nothing lies below two children of a node. -/
theorem Linked.child_unique (h : Linked t) {c c' : NodeId} {r s : Rdn} {qs qs' : List Rdn}
    (hc : Placed t c id r) (hc' : Placed t c' id s) (hx : Way t c x qs) (hx' : Way t c' x qs') :
    c = c' := by
  obtain ⟨m, hm, -⟩ := h.parent_live hc
  obtain ⟨ws, hws⟩ := h.grounded hm
  have hrs := h.way_unique ((Way.step hc hws).append hx) ((Way.step hc' hws).append hx')
  have hlen : qs.length = qs'.length := by
    have := congrArg List.length hrs
    simp only [List.length_append, List.length_cons] at this
    omega
  cases List.append_inj_right hrs hlen
  exact h.distinct hc hc' (Rdn.same_refl r)

theorem Linked.preorder_eq_ok (h : Linked t) {depth : Nat} (hw : Way t rootId id ws)
    (hdepth : t.slots.length ≤ depth + ws.length) :
    ∃ l, Tree.preorder t depth id = .ok l ∧ l.Nodup ∧ ∀ x, x ∈ l ↔ ∃ qs, Way t id x qs := by
  induction depth generalizing id ws with
  | zero =>
      have := h.way_length_lt hw
      omega
  | succ depth ih =>
      obtain ⟨n, hn⟩ := hw.live
      have hbelow : ∀ c ∈ n.children, ∃ l, Tree.preorder t depth c = .ok l ∧
          (l.Nodup ∧ ∀ x, x ∈ l ↔ ∃ qs, Way t c x qs) := fun c hc => by
        obtain ⟨r, hp⟩ := (h.children hn).mp hc
        refine ih (.step hp hw) ?_
        rw [List.length_cons]
        omega
      obtain ⟨g, hg, hgs⟩ := Tree.exists_gather hbelow
      have hchildren : TreeView.children t id = .ok n.children := children_eq_ok hn
      refine ⟨id :: n.children.flatMap g, by simp only [Tree.preorder, hchildren, hg], ?_,
        fun x => ?_⟩
      · refine List.nodup_cons.mpr ⟨fun hid => ?_, List.pairwise_flatMap.mpr ⟨?_, ?_⟩⟩
        · obtain ⟨c, hc, hid⟩ := List.mem_flatMap.mp hid
          obtain ⟨qs, hq⟩ := ((hgs c hc).2 id).mp hid
          obtain ⟨r, hp⟩ := (h.children hn).mp hc
          exact h.not_way_parent hp hq
        · exact fun c hc => (hgs c hc).1
        · refine (h.nodup hn).imp_of_mem fun {c c'} hc hc' hne x hx y hy => ?_
          rintro rfl
          obtain ⟨qs, hq⟩ := ((hgs c hc).2 x).mp hx
          obtain ⟨qs', hq'⟩ := ((hgs c' hc').2 x).mp hy
          obtain ⟨r, hp⟩ := (h.children hn).mp hc
          obtain ⟨s, hp'⟩ := (h.children hn).mp hc'
          exact hne (h.child_unique hp hp' hq hq')
      · rw [List.mem_cons, h.way_iff_child hn, List.mem_flatMap]
        refine or_congr_right (exists_congr fun c => and_congr_right fun hc => ?_)
        exact (hgs c hc).2 x

/-- A walk that is not at its end is a node and the walks from its children. -/
theorem Linked.preorder_succ (h : Linked t) (hw : Way t rootId id ws) (hn : t.node? id = some n)
    {depth : Nat} (hdepth : t.slots.length ≤ depth + 1 + ws.length) :
    ∃ g : NodeId → List NodeId, Tree.preorder t (depth + 1) id = .ok (id :: n.children.flatMap g) ∧
      ∀ c ∈ n.children, Tree.preorder t depth c = .ok (g c) ∧ (g c).Nodup ∧
        ∀ x, x ∈ g c ↔ ∃ qs, Way t c x qs := by
  have hbelow : ∀ c ∈ n.children, ∃ l, Tree.preorder t depth c = .ok l ∧
      (Tree.preorder t depth c = .ok l ∧ l.Nodup ∧ ∀ x, x ∈ l ↔ ∃ qs, Way t c x qs) := by
    intro c hc
    obtain ⟨r, hp⟩ := (h.children hn).mp hc
    have hdepth' : t.slots.length ≤ depth + (r :: ws).length := by
      rw [List.length_cons]
      omega
    obtain ⟨l, hl, hfacts⟩ := h.preorder_eq_ok (.step hp hw) hdepth'
    exact ⟨l, hl, hl, hfacts⟩
  obtain ⟨g, hg, hgs⟩ := Tree.exists_gather hbelow
  have hchildren : TreeView.children t id = .ok n.children := children_eq_ok hn
  exact ⟨g, by simp only [Tree.preorder, hchildren, hg], hgs⟩

theorem preorder_head {depth : Nat} (hl : Tree.preorder t depth id = .ok l) :
    ∃ rest, l = id :: rest := by
  cases depth with
  | zero =>
      cases hl
      exact ⟨[], rfl⟩
  | succ depth =>
      rw [Tree.preorder] at hl
      split at hl
      · cases hl
      · split at hl
        · cases hl
        · cases hl
          exact ⟨_, rfl⟩

/-- Of the nodes of a walk through a node those that are its children stand in their order. -/
theorem Linked.filter_preorder (h : Linked t) (hw : Way t rootId id ws)
    (hn : t.node? id = some n) {depth : Nat} (hdepth : t.slots.length ≤ depth + ws.length)
    (hl : Tree.preorder t depth id = .ok l) : l.filter (· ∈ n.children) = n.children := by
  cases depth with
  | zero =>
      have := h.way_length_lt hw
      omega
  | succ depth =>
      obtain ⟨g, hg, hgs⟩ := h.preorder_succ hw hn hdepth
      rw [hg] at hl
      cases hl
      have hid : id ∉ n.children := by
        intro hid
        obtain ⟨r, hp⟩ := (h.children hn).mp hid
        exact h.ne_parent hp rfl
      -- From each of the walks below only the child stays with which it starts.
      have hpiece : ∀ c ∈ n.children, (g c).filter (· ∈ n.children) = [c] := by
        intro c hc
        obtain ⟨hwalk, hnd, hmem⟩ := hgs c hc
        obtain ⟨rest, hrest⟩ := preorder_head hwalk
        rw [hrest] at hnd hmem
        rw [hrest, List.filter_cons_of_pos (by simpa using hc), List.filter_eq_nil_iff.mpr]
        intro y hy hchild
        obtain ⟨qs, hq⟩ := (hmem y).mp (List.mem_cons_of_mem c hy)
        obtain ⟨r, hp⟩ := (h.children hn).mp (by simpa using hchild)
        obtain ⟨s, hp'⟩ := (h.children hn).mp hc
        cases h.child_unique hp hp' (.here hp.live.choose_spec) hq
        exact (List.nodup_cons.mp hnd).1 hy
      rw [List.filter_cons_of_neg (by simpa using hid), List.filter_flatMap]
      rw [List.flatMap, List.map_congr_left hpiece, ← List.flatMap, List.flatMap_singleton']

/-- A walk from a node meets what lies below it, each node once. -/
theorem Linked.subtree_eq_ok (h : Linked t) (hn : t.node? id = some n) :
    ∃ l, Tree.subtree t id = .ok l ∧ l.Nodup ∧ ∀ x, x ∈ l ↔ ∃ qs, Way t id x qs := by
  obtain ⟨ws, hw⟩ := h.grounded hn
  exact h.preorder_eq_ok hw (Nat.le_add_right _ _)

end MemoryTree
end DirectoryStore
