import DirectoryStore.Proofs.Attribute.Lookup
import DirectoryStore.Proofs.Memory.Content
import DirectoryStore.Proofs.Tree.Orderly

/-!
# Parts of trees in memory

What lies below a node is what its name begins the names of, and it falls into the node
itself and what lies below its children, which their relative names tell apart.
-/

namespace DirectoryStore

namespace Tree

variable {ν : Type} {l : List (Rdn × ν)} {r : Rdn} {c : ν}

theorem childNamed_eq_some_iff (h : Rising (fun x : Rdn × ν => x.1.key) l) :
    childNamed r l = some c ↔ ∃ s, (s, c) ∈ l ∧ s.key = r.key := by
  rw [childNamed, Option.map_eq_some_iff]
  constructor
  · rintro ⟨⟨s, c⟩, hf, rfl⟩
    exact ⟨s, (Rising.find?_eq_some_iff h).mp hf⟩
  · rintro ⟨s, hs⟩
    exact ⟨(s, c), (Rising.find?_eq_some_iff h).mpr hs, rfl⟩

theorem childNamed_eq_none_iff :
    childNamed r l = none ↔ ∀ s c, (s, c) ∈ l → s.key ≠ r.key := by
  rw [childNamed, Option.map_eq_none_iff, Rising.find?_eq_none_iff, Prod.forall]

end Tree

namespace MemoryTree

open DirectoryStore.Tree (entryAt? Below Holds)

variable {t : MemoryTree} {base c id x : NodeId} {n : MemoryNode} {r s : Rdn}
variable {d dbase dx : Dn} {e : Entry} {ids : List NodeId} {q : List (List String)}

theorem Linked.level_way {k : Nat} (h : Linked t) (hx : Tree.Level t k x) :
    ∃ rs, Way t rootId x rs ∧ rs.length = k := by
  induction hx with
  | root => exact ⟨[], h.root_way, rfl⟩
  | @child k up c below _ hbelow hc ih =>
      obtain ⟨rs, hw, rfl⟩ := ih
      obtain ⟨n, hn⟩ := hw.live
      cases hbelow.symm.trans (children_eq_ok hn)
      obtain ⟨r, hp⟩ := (h.children hn).mp hc
      exact ⟨r :: rs, .step hp hw, rfl⟩

/-- A child is placed under the relative name in front of its name. -/
theorem Linked.placed_iff (h : Linked t) (hn : t.node? id = some n) (hd : t.dn id = .ok d) :
    Placed t c id r ↔ c ∈ n.children ∧ t.dn c = .ok (d.child r) := by
  constructor
  · intro hp
    exact ⟨(h.children hn).mpr ⟨r, hp⟩, h.dn_of_placed hp hd⟩
  · rintro ⟨hc, hr⟩
    obtain ⟨s, hp⟩ := (h.children hn).mp hc
    cases hr.symm.trans (h.dn_of_placed hp hd)
    exact hp

/-- Linked trees are orderly. -/
theorem Linked.orderly (h : Linked t) : Tree.Orderly t where
  children := by
    intro k x hx
    obtain ⟨rs, hw, -⟩ := h.level_way hx
    obtain ⟨n, hn⟩ := hw.live
    refine ⟨_, n.children, h.dn_of_way hw, children_eq_ok hn, fun c hc => ?_⟩
    obtain ⟨r, hp⟩ := (h.children hn).mp hc
    exact ⟨r, h.dn_of_placed hp (h.dn_of_way hw)⟩
  apart := by
    intro k x below c c' d d' _ _ _ _ hd hd' hsame
    exact h.eq_of_same hd hd' hsame
  entry_dn := by
    intro x e he
    exact (h.entry_eq_ok_iff.mp he).1
  level_le := by
    intro k x hx
    obtain ⟨rs, hw, rfl⟩ := h.level_way hx
    exact Nat.le_of_lt (h.way_length_lt hw)

/-- The children of a node, in the order of their relative names. -/
theorem Linked.childrenByRdn_eq_ok (h : Linked t) (hn : t.node? id = some n) :
    ∃ l, Tree.childrenByRdn t id = .ok l ∧ Rising (fun x : Rdn × NodeId => x.1.key) l ∧
      ∀ r c, (r, c) ∈ l ↔ Placed t c id r := by
  have hbelow : TreeView.children t id = .ok n.children := children_eq_ok hn
  obtain ⟨rs, hw⟩ := h.grounded hn
  have hd := h.dn_of_way hw
  have hnames : ∀ c ∈ n.children, ∃ r, TreeView.dn t c = .ok (Dn.child ⟨_⟩ r) := fun c hc => by
    obtain ⟨r, hp⟩ := (h.children hn).mp hc
    exact ⟨r, h.dn_of_placed hp hd⟩
  obtain ⟨l, hl, hrising, hmem⟩ := Tree.named_eq_ok hnames fun r s hrs c hc c' hc' hr hs =>
    h.distinct ((h.placed_iff hn hd).mpr ⟨hc, hr⟩) ((h.placed_iff hn hd).mpr ⟨hc', hs⟩) hrs
  refine ⟨l, by simp only [Tree.childrenByRdn, hbelow, hl], hrising, fun r c => ?_⟩
  rw [hmem, h.placed_iff hn hd]
  rfl

/-! ## Below a node -/

theorem Linked.way_iff_prefix_key (h : Linked t) (hb : t.dn base = .ok dbase)
    (hx : t.dn x = .ok dx) : (∃ qs, Way t base x qs) ↔ dbase.key <+: dx.key := by
  obtain ⟨ws, hws, rfl⟩ := h.dn_eq_ok_iff.mp hb
  obtain ⟨rs, hrs, rfl⟩ := h.dn_eq_ok_iff.mp hx
  rw [Dn.key_append, Dn.key_append, List.prefix_append_right_inj, List.reverse_prefix]
  constructor
  · rintro ⟨qs, hq⟩
    rw [h.way_unique hrs (hws.append hq), List.map_append]
    exact List.suffix_append _ _
  · rintro ⟨ks, hks⟩
    obtain ⟨qs, ws', rfl, rfl, hkeys⟩ := List.map_eq_append_iff.mp hks.symm
    obtain ⟨y, hy, hyx⟩ := hrs.split
    cases h.eq_of_keys_eq hws hy hkeys.symm
    exact ⟨qs, hyx⟩

theorem Linked.below_iff (h : Linked t) (hb : t.dn base = .ok dbase) (hx : t.dn x = .ok dx) :
    Below t base x ↔ dbase.key <+: dx.key := by
  obtain ⟨n, hn⟩ := h.dn_live hb
  obtain ⟨l, hl, -, hmem⟩ := h.subtree_eq_ok hn
  rw [← h.way_iff_prefix_key hb hx, ← hmem]
  constructor
  · rintro ⟨l', hl', hx⟩
    rw [hl] at hl'
    cases hl'
    exact hx
  · intro hx
    exact ⟨l, hl, hx⟩

/-- A part holds the entries whose names begin with the name of its top. -/
theorem Linked.holds_iff (h : Linked t) (hb : t.dn base = .ok dbase) :
    Holds t base e ↔ dbase.key <+: e.dn.key ∧ entryAt? t e.dn = some e := by
  constructor
  · rintro ⟨x, hx, he⟩
    have hdn := (h.entry_eq_ok_iff.mp he).1
    exact ⟨(h.below_iff hb hdn).mp hx, h.entryAt?_of_entry he⟩
  · rintro ⟨hpre, he⟩
    obtain ⟨x, hx, -⟩ := h.entryAt?_eq_some_iff.mp he
    exact ⟨x, (h.below_iff hb (h.entry_eq_ok_iff.mp hx).1).mpr hpre, hx⟩

theorem Linked.prefix_root (h : Linked t) (hx : t.dn x = .ok dx) : t.rootDn.key <+: dx.key := by
  obtain ⟨rs, -, rfl⟩ := h.dn_eq_ok_iff.mp hx
  rw [Dn.key_append]
  exact List.prefix_append _ _

/-- What lies properly below a node lies below one of its children. -/
theorem Linked.exists_child (h : Linked t) (hb : t.dn base = .ok dbase)
    (he : entryAt? t d = some e) (hpre : dbase.key ++ [q] <+: d.key) :
    ∃ c s, Placed t c base s ∧ s.key = q := by
  obtain ⟨x, hx, hs⟩ := h.entryAt?_eq_some_iff.mp he
  have hdn := (h.entry_eq_ok_iff.mp hx).1
  rw [← Dn.same_iff.mp hs] at hpre
  obtain ⟨qs, hq⟩ := (h.way_iff_prefix_key hb hdn).mpr ((List.prefix_append _ _).trans hpre)
  obtain ⟨ws, hw, rfl⟩ := h.dn_eq_ok_iff.mp hb
  have hd : e.dn = ⟨qs ++ (ws ++ t.rootDn.rdns)⟩ := by
    have := h.dn_of_way (hw.append hq)
    rw [hdn] at this
    rw [← List.append_assoc]
    exact Except.ok.inj this
  rw [hd, Dn.key_append qs, List.prefix_append_right_inj] at hpre
  rcases List.eq_nil_or_concat qs with rfl | ⟨qs, s, rfl⟩
  · cases List.prefix_nil.mp hpre
  · rw [List.concat_eq_append] at hq hpre
    obtain ⟨c, hc, -⟩ := hq.split
    obtain ⟨up, hp, hup⟩ := hc.of_cons
    cases hup.eq_of_nil
    refine ⟨c, s, hp, ?_⟩
    simp only [List.map_append, List.map_cons, List.map_nil, List.reverse_append,
      List.reverse_cons, List.reverse_nil, List.nil_append, List.cons_append] at hpre
    exact (List.cons_prefix_cons.mp hpre).1.symm

theorem Linked.entryAt?_congr (h : Linked t) {d' : Dn} (hk : d.key = d'.key) :
    entryAt? t d = entryAt? t d' := by
  apply Option.ext
  intro e
  rw [h.entryAt?_eq_some_iff, h.entryAt?_eq_some_iff, Dn.same, Dn.same, hk]

end MemoryTree
end DirectoryStore
