import DirectoryStore.Proofs.Memory.Walk

/-!
# Nodes by name

In a linked tree a relative name leads to at most one child, and a name to at most one
node.  Looking up a name finds the node that bears it if there is one, and otherwise fails
with that name.
-/

namespace DirectoryStore
namespace MemoryTree

variable {t : MemoryTree} {base c id x : NodeId} {n : MemoryNode} {r : Rdn} {d e : Dn}
variable {qs rs ws : List Rdn}

/-! ## Children by relative name -/

/-- Whether a node is there and has the given relative name. -/
def isNamed (t : MemoryTree) (r : Rdn) (id : NodeId) : Bool :=
  (t.node? id).any fun n => n.place.any fun p => p.2.same r

/-- Among nodes that are all there the search for a relative name does not fail. -/
theorem firstNamed_eq {ids : List NodeId} (hlive : ∀ c ∈ ids, ∃ m, t.node? c = some m) (r : Rdn) :
    t.firstNamed r ids = .ok (ids.find? (t.isNamed r)) := by
  induction ids with
  | nil => rfl
  | cons c ids ih =>
      obtain ⟨m, hm⟩ := hlive c List.mem_cons_self
      have hnamed : t.isNamed r c = m.place.any fun p => p.2.same r := by simp [isNamed, hm]
      have hrest := ih fun c hc => hlive c (List.mem_cons_of_mem _ hc)
      simp only [firstNamed, node_eq_ok hm, ← hnamed, hrest, List.find?_cons]
      cases t.isNamed r c <;> rfl

theorem Linked.child_eq (h : Linked t) (hn : t.node? id = some n) (r : Rdn) :
    t.child id r = .ok (n.children.find? (t.isNamed r)) := by
  rw [child, children_eq_ok hn]
  refine firstNamed_eq (fun c hc => ?_) r
  obtain ⟨s, hp⟩ := (h.children hn).mp hc
  exact hp.live

theorem Placed.isNamed_iff {s : Rdn} (h : Placed t c id s) : t.isNamed r c = true ↔ s.same r := by
  obtain ⟨m, hm, hp⟩ := h
  simp [isNamed, hm, hp]

theorem Linked.child_eq_some_iff (h : Linked t) (hn : t.node? id = some n) :
    t.child id r = .ok (some c) ↔ ∃ s, Placed t c id s ∧ s.same r = true := by
  simp only [h.child_eq hn, Except.ok.injEq]
  constructor
  · intro hc
    obtain ⟨s, hp⟩ := (h.children hn).mp (List.mem_of_find?_eq_some hc)
    exact ⟨s, hp, hp.isNamed_iff.mp (List.find?_some hc)⟩
  · rintro ⟨s, hp, hs⟩
    cases hf : n.children.find? (t.isNamed r) with
    | none =>
        have := List.find?_eq_none.mp hf c ((h.children hn).mpr ⟨s, hp⟩)
        exact absurd (hp.isNamed_iff.mpr hs) this
    | some c' =>
        obtain ⟨s', hp'⟩ := (h.children hn).mp (List.mem_of_find?_eq_some hf)
        have hs' := hp'.isNamed_iff.mp (List.find?_some hf)
        rw [h.distinct hp hp' (Rdn.same_iff.mpr _)]
        rw [Rdn.same_iff.mp hs, Rdn.same_iff.mp hs']

theorem Linked.child_eq_none_iff (h : Linked t) (hn : t.node? id = some n) :
    t.child id r = .ok none ↔ ∀ {c s}, Placed t c id s → s.same r = false := by
  simp only [h.child_eq hn, Except.ok.injEq, List.find?_eq_none]
  constructor
  · intro hall c s hp
    have := hall c ((h.children hn).mpr ⟨s, hp⟩)
    rwa [hp.isNamed_iff, Bool.not_eq_true] at this
  · intro hall c hc
    obtain ⟨s, hp⟩ := (h.children hn).mp hc
    rw [hp.isNamed_iff, hall hp]
    exact Bool.false_ne_true

/-- The child of a relative name is there or it is not. -/
theorem Linked.child_cases (h : Linked t) (hn : t.node? id = some n) (r : Rdn) :
    (∃ c s, t.child id r = .ok (some c) ∧ Placed t c id s ∧ s.same r = true) ∨
      (t.child id r = .ok none ∧ ∀ {c s}, Placed t c id s → s.same r = false) := by
  cases hc : n.children.find? (t.isNamed r) with
  | none =>
      have hnone : t.child id r = .ok none := by rw [h.child_eq hn, hc]
      exact .inr ⟨hnone, (h.child_eq_none_iff hn).mp hnone⟩
  | some c =>
      have hsome : t.child id r = .ok (some c) := by rw [h.child_eq hn, hc]
      obtain ⟨s, hp, hs⟩ := (h.child_eq_some_iff hn).mp hsome
      exact .inl ⟨c, s, hsome, hp, hs⟩

theorem child_eq_error (hn : t.node? id = none) : t.child id r = .error .staleHandle := by
  simp [child, MemoryTree.children, node_eq_error hn]

/-! ## Nodes by name -/

/-- Going down along relative names leads to the node that bears them, or fails if there is
    none. -/
theorem Linked.descend_cases (h : Linked t) (target : Dn) (hn : t.node? id = some n)
    (rs : List Rdn) :
    (∃ x qs, Tree.descend t target rs id = .ok x ∧ Way t id x qs ∧
        (qs.map Rdn.key).reverse = rs.map Rdn.key) ∨
      (Tree.descend t target rs id = .error (.notFound target) ∧
        ∀ {x qs}, Way t id x qs → (qs.map Rdn.key).reverse ≠ rs.map Rdn.key) := by
  induction rs generalizing id n with
  | nil => exact .inl ⟨id, [], rfl, .here hn, rfl⟩
  | cons r rs ih =>
      rcases h.child_cases hn r with ⟨c, s, hc, hp, hs⟩ | ⟨hc, hfree⟩
      · have hstep : Tree.descend t target (r :: rs) id = Tree.descend t target rs c := by
          simp only [Tree.descend, TreeView.child, hc]
        obtain ⟨m, hm⟩ := hp.live
        rcases ih hm with ⟨x, qs, hx, hw, hkeys⟩ | ⟨herr, hnot⟩
        · refine .inl ⟨x, qs ++ [s], hstep.trans hx, (Way.step hp (.here hn)).append hw, ?_⟩
          simp [Rdn.same_iff.mp hs, hkeys]
        · refine .inr ⟨hstep.trans herr, fun {x qs} hw hkeys => ?_⟩
          rcases List.eq_nil_or_concat qs with rfl | ⟨qs, s', rfl⟩
          · cases hkeys
          · rw [List.concat_eq_append] at hw hkeys
            obtain ⟨c', hc', hx⟩ := hw.split
            obtain ⟨up, hp', hup⟩ := hc'.of_cons
            cases hup.eq_of_nil
            simp only [List.map_append, List.reverse_append, List.map_cons, List.map_nil,
              List.reverse_cons, List.reverse_nil, List.nil_append, List.cons_append,
              List.cons.injEq] at hkeys
            rw [h.distinct hp' hp (Rdn.same_iff.mpr _)] at hx
            · exact hnot hx hkeys.2
            · rw [hkeys.1, Rdn.same_iff.mp hs]
      · refine .inr ⟨by simp only [Tree.descend, TreeView.child, hc], fun {x qs} hw hkeys => ?_⟩
        rcases List.eq_nil_or_concat qs with rfl | ⟨qs, s, rfl⟩
        · cases hkeys
        · rw [List.concat_eq_append] at hw hkeys
          obtain ⟨c, hc, -⟩ := hw.split
          obtain ⟨up, hp, hup⟩ := hc.of_cons
          cases hup.eq_of_nil
          simp only [List.map_append, List.reverse_append, List.map_cons, List.map_nil,
            List.reverse_cons, List.reverse_nil, List.nil_append, List.cons_append,
            List.cons.injEq] at hkeys
          have := hfree hp
          rw [Rdn.same_iff.mpr hkeys.1] at this
          cases this

/-- Looking up a name at or below a node finds the node that bears it, or fails if there is
    none. -/
theorem Linked.lookup_cases (h : Linked t) (hw : Way t rootId base ws) (d : Dn) :
    (∃ x qs, Tree.lookup t base d = .ok x ∧ Way t base x qs ∧
        (Dn.mk (qs ++ ws ++ t.rootDn.rdns)).same d = true) ∨
      (Tree.lookup t base d = .error (.notFound d) ∧
        ∀ {x qs}, Way t base x qs → (Dn.mk (qs ++ ws ++ t.rootDn.rdns)).same d = false) := by
  have hdn : TreeView.dn t base = .ok ⟨ws ++ t.rootDn.rdns⟩ := h.dn_of_way hw
  obtain ⟨n, hn⟩ := hw.live
  cases hrel : (Dn.mk (ws ++ t.rootDn.rdns)).relative? d with
  | none =>
      refine .inr ⟨by simp only [Tree.lookup, hdn, hrel], fun {x qs} _ => ?_⟩
      rw [Bool.eq_false_iff]
      intro hsame
      have hcontains : (Dn.mk (ws ++ t.rootDn.rdns)).contains d = true := by
        rw [Dn.contains_iff, ← Dn.same_iff.mp hsame, List.append_assoc, Dn.key_append qs]
        exact List.prefix_append _ _
      rw [Dn.relative?_eq_none_iff, hcontains] at hrel
      cases hrel
  | some rs =>
      have hlook : Tree.lookup t base d = Tree.descend t d rs.reverse base := by
        simp only [Tree.lookup, hdn, hrel]
      have hd := Dn.same_iff.mp (Dn.same_of_relative? hrel)
      have hkeys : ∀ qs : List Rdn, (Dn.mk (qs ++ ws ++ t.rootDn.rdns)).same d = true ↔
          (qs.map Rdn.key).reverse = rs.reverse.map Rdn.key := fun qs => by
        rw [Dn.same_iff, hd, List.append_assoc, Dn.key_append qs, Dn.key_append rs,
          List.append_cancel_left_eq, List.map_reverse]
      rcases h.descend_cases d hn rs.reverse with ⟨x, qs, hx, hqs, hk⟩ | ⟨herr, hnot⟩
      · exact .inl ⟨x, qs, hlook.trans hx, hqs, (hkeys qs).mpr hk⟩
      · refine .inr ⟨hlook.trans herr, fun {x qs} hqs => ?_⟩
        rw [Bool.eq_false_iff]
        exact fun hsame => hnot hqs ((hkeys qs).mp hsame)

/-- Looking up a name from the root. -/
theorem Linked.lookup_root_cases (h : Linked t) (d : Dn) :
    (∃ x rs, Tree.lookup t rootId d = .ok x ∧ Way t rootId x rs ∧
        (Dn.mk (rs ++ t.rootDn.rdns)).same d = true) ∨
      (Tree.lookup t rootId d = .error (.notFound d) ∧
        ∀ {x rs}, Way t rootId x rs → (Dn.mk (rs ++ t.rootDn.rdns)).same d = false) := by
  have := h.lookup_cases h.root_way d
  simpa using this

/-- A name leads from the root to the node that bears it. -/
theorem Linked.lookup_root_eq_ok_iff (h : Linked t) :
    Tree.lookup t rootId d = .ok x ↔
      ∃ rs, Way t rootId x rs ∧ (Dn.mk (rs ++ t.rootDn.rdns)).same d = true := by
  rcases h.lookup_root_cases d with ⟨y, ws, hy, hw, hsame⟩ | ⟨herr, hnot⟩
  · rw [hy]
    constructor
    · intro he
      cases he
      exact ⟨ws, hw, hsame⟩
    · rintro ⟨rs, hrs, hs⟩
      have hkeys := (Dn.same_iff.mp hsame).trans (Dn.same_iff.mp hs).symm
      rw [Dn.key_append, Dn.key_append, List.append_cancel_left_eq, List.reverse_inj] at hkeys
      rw [h.eq_of_keys_eq hw hrs hkeys]
  · rw [herr]
    constructor
    · intro he
      cases he
    · rintro ⟨rs, hrs, hs⟩
      rw [hnot hrs] at hs
      cases hs

end MemoryTree
end DirectoryStore
