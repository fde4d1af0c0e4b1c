import DirectoryStore.Proofs.Files.Contents
import DirectoryStore.Proofs.Memory.Consistency

/-!
# Contents of trees in memory

A tree in memory stores contents if the ways to its nodes are the places of the contents.
Each operation changes the contents at one place, or moves them, and fails only for a reason
that shows in them.
-/

namespace DirectoryStore

namespace MemoryTree

variable {t t' : MemoryTree} {c : Contents} {id up new x y : NodeId} {r s : Rdn}
variable {rs us vs : List Rdn} {a : AttributeMap} {d target : Dn}

/-- The attributes of the node of a handle. -/
def attributes? (t : MemoryTree) (id : NodeId) : Option AttributeMap :=
  (t.node? id).map MemoryNode.attributes

/-- The ways to the nodes of a tree are the places of contents. -/
def Bears (t : MemoryTree) (c : Contents) : Prop :=
  ∀ rs a, c rs = some a ↔ ∃ x, Way t rootId x rs ∧ t.attributes? x = some a

/-! ## Changes -/

theorem Grown.attributes?_eq (h : Grown t t' up new r a) (x : NodeId) :
    t'.attributes? x = if x = new then some a else t.attributes? x := by
  rw [attributes?, attributes?, h.node? x]
  split
  · rfl
  · split
    · rw [Option.map_map]
      rfl
    · rfl

theorem Grown.bears (h : Grown t t' up new r a) (hl : Linked t)
    (hfree : ∀ {c s}, Placed t c up s → s.same r = false) (hup : Way t rootId up rs)
    (hb : t.Bears c) : t'.Bears (c.set (r :: rs) (some a)) := by
  have hway : ∀ {x qs}, Way t' rootId x qs ↔
      Way t rootId x qs ∨ (x = new ∧ ∃ ws, Way t rootId up ws ∧ qs = r :: ws) :=
    h.way_iff hl hl.root_way.live
  have hold : ∀ {x qs}, Way t rootId x qs → x ≠ new := by
    intro x qs hw he
    obtain ⟨n, hn⟩ := hw.live
    rw [he, h.fresh] at hn
    cases hn
  intro qs b
  constructor
  · intro hc
    by_cases hq : qs = r :: rs
    · rw [hq, Contents.set_self] at hc
      refine ⟨new, hway.mpr (.inr ⟨rfl, rs, hup, hq⟩), ?_⟩
      rw [h.attributes?_eq, if_pos rfl, hc]
    · rw [Contents.set_of_ne hq] at hc
      obtain ⟨x, hx, ha⟩ := (hb qs b).mp hc
      refine ⟨x, hway.mpr (.inl hx), ?_⟩
      rw [h.attributes?_eq, if_neg (hold hx), ha]
  · intro hc
    obtain ⟨x, hx, ha⟩ := hc
    rw [h.attributes?_eq] at ha
    rcases hway.mp hx with hx | ⟨hnew, ws, hws, rfl⟩
    · have hq : qs ≠ r :: rs := by
        intro he
        subst he
        obtain ⟨up', hp, hw⟩ := hx.of_cons
        rw [hl.eq_of_keys_eq hw hup rfl] at hp
        have hsame := hfree hp
        rw [Rdn.same_refl] at hsame
        cases hsame
      rw [if_neg (hold hx)] at ha
      rw [Contents.set_of_ne hq]
      exact (hb qs b).mpr ⟨x, hx, ha⟩
    · rw [if_pos hnew] at ha
      rw [hl.way_unique hws hup, Contents.set_self, ha]

theorem Pruned.attributes?_eq (h : Pruned t t' up id) (x : NodeId) :
    t'.attributes? x = if x = id then none else t.attributes? x := by
  rw [attributes?, attributes?, h.node? x]
  split
  · rfl
  · split
    · rw [Option.map_map]
      rfl
    · rfl

theorem Pruned.bears (h : Pruned t t' up id) (hl : Linked t) (hid : Way t rootId id rs)
    (hb : t.Bears c) : t'.Bears (c.set rs none) := by
  have hway : ∀ {x qs}, Way t' rootId x qs ↔ Way t rootId x qs ∧ x ≠ id :=
    h.way_iff hl (h.ne_root hl)
  intro qs b
  constructor
  · intro hc
    have hq : qs ≠ rs := by
      intro he
      rw [he, Contents.set_self] at hc
      cases hc
    rw [Contents.set_of_ne hq] at hc
    obtain ⟨x, hx, ha⟩ := (hb qs b).mp hc
    have hne := hl.ne_of_way hx hid hq
    refine ⟨x, hway.mpr ⟨hx, hne⟩, ?_⟩
    rw [h.attributes?_eq, if_neg hne, ha]
  · intro hc
    obtain ⟨x, hx, ha⟩ := hc
    obtain ⟨hx, hne⟩ := hway.mp hx
    have hq : qs ≠ rs := by
      intro he
      subst he
      exact hne (hl.eq_of_keys_eq hx hid rfl)
    rw [h.attributes?_eq, if_neg hne] at ha
    rw [Contents.set_of_ne hq]
    exact (hb qs b).mpr ⟨x, hx, ha⟩

theorem Reattributed.attributes?_eq (h : Reattributed t t' id a) (hid : ∃ n, t.node? id = some n)
    (x : NodeId) : t'.attributes? x = if x = id then some a else t.attributes? x := by
  rw [attributes?, attributes?, h x]
  split
  · rename_i hx
    obtain ⟨n, hn⟩ := hid
    rw [hx, hn]
    rfl
  · rfl

theorem Reattributed.bears (h : Reattributed t t' id a) (hl : Linked t)
    (hid : Way t rootId id rs) (hb : t.Bears c) : t'.Bears (c.set rs (some a)) := by
  intro qs b
  constructor
  · intro hc
    by_cases hq : qs = rs
    · rw [hq, Contents.set_self] at hc
      refine ⟨id, h.way_iff.mpr (hq ▸ hid), ?_⟩
      rw [h.attributes?_eq hid.live, if_pos rfl, hc]
    · rw [Contents.set_of_ne hq] at hc
      obtain ⟨x, hx, ha⟩ := (hb qs b).mp hc
      have hne := hl.ne_of_way hx hid hq
      refine ⟨x, h.way_iff.mpr hx, ?_⟩
      rw [h.attributes?_eq hid.live, if_neg hne, ha]
  · intro hc
    obtain ⟨x, hx, ha⟩ := hc
    replace hx := h.way_iff.mp hx
    rw [h.attributes?_eq hid.live] at ha
    by_cases hq : qs = rs
    · rw [if_pos (hl.eq_of_keys_eq hx hid (by rw [hq]))] at ha
      rw [hq, Contents.set_self, ha]
    · have hne : x ≠ id := by
        intro he
        subst he
        exact hq (hl.way_unique hx hid)
      rw [if_neg hne] at ha
      rw [Contents.set_of_ne hq]
      exact (hb qs b).mpr ⟨x, hx, ha⟩

theorem Relinked.attributes?_eq {newUp : NodeId} (h : Relinked t t' id up newUp r) (x : NodeId) :
    t'.attributes? x = t.attributes? x := by
  rw [attributes?, attributes?, h.node? x, Option.map_map]
  rfl

theorem Relinked.bears {newUp : NodeId} (h : Relinked t t' id up newUp r) (hl : Linked t)
    (hid : Way t rootId id us) (hnew : Way t rootId newUp vs)
    (hfree : ∀ qs, r :: vs <:+ qs → c qs = none) (hb : t.Bears c) :
    t'.Bears (c.move us (r :: vs)) := by
  have hbelow : ∀ {x qs}, Way t rootId x qs → ((∃ ls, Way t id x ls) ↔ us <:+ qs) := by
    intro x qs hw
    constructor
    · intro hls
      obtain ⟨ls, hls⟩ := hls
      exact ⟨ls, (hl.way_unique hw (hid.append hls)).symm⟩
    · intro hs
      obtain ⟨ls, rfl⟩ := hs
      exact ⟨ls, (hl.way_iff_append hid).mpr hw⟩
  intro qs b
  rw [Contents.move_eq_some_iff]
  constructor
  · intro hc
    rcases hc with ⟨ls, rfl, hc⟩ | ⟨-, hs, hc⟩
    · obtain ⟨x, hx, ha⟩ := (hb _ b).mp hc
      refine ⟨x, (h.way_iff hl).mpr (.inr ⟨ls, vs, rfl, hnew, ?_⟩), ?_⟩
      · exact (hl.way_iff_append hid).mpr hx
      · rw [h.attributes?_eq, ha]
    · obtain ⟨x, hx, ha⟩ := (hb _ b).mp hc
      refine ⟨x, (h.way_iff hl).mpr (.inl ⟨hx, fun ls hls => ?_⟩), ?_⟩
      · exact hs ((hbelow hx).mp ⟨ls, hls⟩)
      · rw [h.attributes?_eq, ha]
  · intro hc
    obtain ⟨x, hx, ha⟩ := hc
    rw [h.attributes?_eq] at ha
    rcases (h.way_iff hl).mp hx with ⟨hx, hout⟩ | ⟨ls, ws, rfl, hws, hls⟩
    · have hc := (hb qs b).mpr ⟨x, hx, ha⟩
      refine .inr ⟨fun hd => ?_, fun hs => ?_, hc⟩
      · rw [hfree qs hd] at hc
        cases hc
      · obtain ⟨ls, hls⟩ := (hbelow hx).mpr hs
        exact hout ls hls
    · rw [hl.way_unique hws hnew]
      exact .inl ⟨ls, rfl, (hb _ b).mpr ⟨x, hid.append hls, ha⟩⟩

/-! ## Trees that store contents -/

/-- A well-formed tree that bears contents, the root included. -/
structure Stores (t : MemoryTree) (c : Contents) : Prop where
  wellFormed : WellFormed t
  bears : t.Bears c.withRoot

namespace Stores

theorem ofDn (d : Dn) : (MemoryTree.ofDn d).Stores fun _ => none where
  wellFormed := wellFormed_ofRoot ⟨d, .empty⟩
  bears := by
    have hnode := node?_ofRoot ⟨d, .empty⟩
    intro rs a
    constructor
    · intro hc
      obtain ⟨hhas, ha⟩ := Contents.withRoot_eq_some_iff.mp hc
      obtain rfl : rs = [] := hhas.resolve_right nofun
      refine ⟨rootId, (wellFormed_ofRoot ⟨d, .empty⟩).linked.root_way, ?_⟩
      rw [MemoryTree.ofDn, attributes?, hnode, if_pos rfl]
      exact congrArg some ha
    · intro hx
      obtain ⟨x, hx, ha⟩ := hx
      cases hx with
      | here _ =>
          rw [MemoryTree.ofDn, attributes?, hnode, if_pos rfl] at ha
          exact ha
      | step hp _ => exact absurd hp (not_placed_ofRoot _)

theorem exists_way (h : t.Stores c) (hrs : c.Has rs) :
    ∃ x, Way t rootId x rs ∧ t.attributes? x = some ((c rs).getD .empty) :=
  (h.bears rs _).mp (Contents.withRoot_eq_some_iff.mpr ⟨hrs, rfl⟩)

theorem attributes?_of_way (h : t.Stores c) (hw : Way t rootId x rs) :
    c.Has rs ∧ t.attributes? x = some ((c rs).getD .empty) := by
  obtain ⟨n, hn⟩ := hw.live
  have ha : t.attributes? x = some n.attributes := by rw [attributes?, hn, Option.map_some]
  obtain ⟨hhas, he⟩ := Contents.withRoot_eq_some_iff.mp ((h.bears rs _).mpr ⟨x, hw, ha⟩)
  rw [he]
  exact ⟨hhas, ha⟩

/-- The children of a node are those of its place. -/
theorem exists_child_iff (h : t.Stores c) (hw : Way t rootId x rs) {s : Rdn} :
    (∃ y, Placed t y x s) ↔ ∃ a, c (s :: rs) = some a := by
  constructor
  · intro hy
    obtain ⟨y, hp⟩ := hy
    exact (h.attributes?_of_way (.step hp hw)).1.resolve_left (List.cons_ne_nil _ _)
  · intro hs
    obtain ⟨y, hy, -⟩ := h.exists_way (.inr hs)
    obtain ⟨up, hp, hup⟩ := hy.of_cons
    rw [h.wellFormed.linked.eq_of_keys_eq hup hw rfl] at hp
    exact ⟨y, hp⟩

theorem free_iff (h : t.Stores c) (hw : Way t rootId x rs) :
    (∀ {y s}, Placed t y x s → s.same r = false) ↔
      ∀ s a, c (s :: rs) = some a → s.same r = false := by
  constructor
  · intro hfree s a hs
    obtain ⟨y, hp⟩ := (h.exists_child_iff hw).mpr ⟨a, hs⟩
    exact hfree hp
  · intro hfree y s hp
    obtain ⟨a, hs⟩ := (h.exists_child_iff hw).mp ⟨y, hp⟩
    exact hfree s a hs

/-- The entry of a node has the name and the attributes of its place. -/
theorem entry_eq (h : t.Stores c) (hw : Way t rootId x rs) :
    t.entry x = .ok ⟨⟨rs ++ t.rootDn.rdns⟩, (c rs).getD .empty⟩ := by
  obtain ⟨n, hn⟩ := hw.live
  have ha := (h.attributes?_of_way hw).2
  rw [attributes?, hn, Option.map_some, Option.some.injEq] at ha
  rw [entry_of_way h.wellFormed.linked hw hn, ha]

/-- A name leads to the node that bears it, or there is none. -/
theorem lookup_cases (h : t.Stores c) (d : Dn) :
    (∃ rs x, c.Has rs ∧ Way t rootId x rs ∧ (Dn.mk (rs ++ t.rootDn.rdns)).same d = true ∧
      Tree.lookup t rootId d = .ok x) ∨
    (Tree.lookup t rootId d = .error (.notFound d) ∧
      ∀ rs, c.Has rs → (Dn.mk (rs ++ t.rootDn.rdns)).same d = false) := by
  rcases h.wellFormed.linked.lookup_root_cases d with ⟨x, rs, hx, hw, hs⟩ | ⟨herr, hno⟩
  · exact .inl ⟨rs, x, (h.attributes?_of_way hw).1, hw, hs, hx⟩
  · refine .inr ⟨herr, fun rs hrs => ?_⟩
    obtain ⟨x, hw, -⟩ := h.exists_way hrs
    exact hno hw

/-- What is below the root is what is stored. -/
theorem holds_iff (h : t.Stores c) {e : Entry} :
    Tree.Holds t rootId e ↔
      ∃ rs, c.Has rs ∧ e = ⟨⟨rs ++ t.rootDn.rdns⟩, (c rs).getD .empty⟩ := by
  obtain ⟨n, hn⟩ := h.wellFormed.linked.root_way.live
  obtain ⟨l, hl, -, hall⟩ := h.wellFormed.linked.subtree_eq_ok hn
  constructor
  · intro he
    obtain ⟨x, ⟨l', hl', hx⟩, hentry⟩ := he
    obtain rfl : l = l' := Except.ok.inj (hl.symm.trans hl')
    obtain ⟨rs, hw⟩ := (hall x).mp hx
    exact ⟨rs, (h.attributes?_of_way hw).1, Except.ok.inj (hentry.symm.trans (h.entry_eq hw))⟩
  · intro he
    obtain ⟨rs, hrs, rfl⟩ := he
    obtain ⟨x, hw, -⟩ := h.exists_way hrs
    exact ⟨x, ⟨l, hl, (hall x).mpr ⟨rs, hw⟩⟩, h.entry_eq hw⟩

/-! ## Operations -/

theorem addChild_exists (h : t.Stores c) (hw : Way t rootId x rs) (hs : c (s :: rs) = some a)
    (hsame : s.same r = true) (b : AttributeMap) :
    t.addChild x r b = .error (.alreadyExists ⟨r :: rs ++ t.rootDn.rdns⟩) := by
  rcases addChild_cases h.wellFormed hw r b with ⟨-, herr⟩ | ⟨hfree, -⟩
  · exact herr
  · rw [(h.free_iff hw).mp hfree s a hs] at hsame
    cases hsame

theorem addChild_ok (h : t.Stores c) (hw : Way t rootId x rs)
    (hno : ∀ s b, c (s :: rs) = some b → s.same r = false) (a : AttributeMap) :
    ∃ new t', t.addChild x r a = .ok (new, t') ∧ t'.rootDn = t.rootDn ∧
      t'.Stores (c.set (r :: rs) (some a)) := by
  rcases addChild_cases h.wellFormed hw r a with ⟨⟨y, s, hp, hsame⟩, -⟩ |
    ⟨hfree, new, t', hok, hgrown, hf⟩
  · rw [(h.free_iff hw).mpr hno hp] at hsame
    cases hsame
  · refine ⟨new, t', hok, hf.rootDn, hf.wellFormed, ?_⟩
    rw [Contents.withRoot_set]
    exact hgrown.bears h.wellFormed.linked hfree hw h.bears

theorem deleteChild_missing (h : t.Stores c) (hw : Way t rootId x rs)
    (hno : ∀ s b, c (s :: rs) = some b → s.same r = false) :
    t.deleteChild x r = .error (.notFound ⟨r :: rs ++ t.rootDn.rdns⟩) := by
  rcases deleteChild_cases h.wellFormed hw r with ⟨-, herr⟩ | ⟨y, s, hp, hsame, -⟩
  · exact herr
  · rw [(h.free_iff hw).mpr hno hp] at hsame
    cases hsame

/-- The child that a deletion finds is the one of the given name. -/
theorem deleteChild_found (h : t.Stores c) (hproper : c.Proper) (hw : Way t rootId x rs)
    (hs : c (s :: rs) = some a) (hsame : s.same r = true) :
    (c.HasChild (s :: rs) ∧
      t.deleteChild x r = .error (.notLeaf ⟨s :: rs ++ t.rootDn.rdns⟩)) ∨
    (¬ c.HasChild (s :: rs) ∧ ∃ t', t.deleteChild x r = .ok ((), t') ∧ t'.rootDn = t.rootDn ∧
      t'.Stores (c.set (s :: rs) none)) := by
  rcases deleteChild_cases h.wellFormed hw r with ⟨hfree, -⟩ | ⟨y, s', hp, hsame', hcases⟩
  · rw [(h.free_iff hw).mp hfree s a hs] at hsame
    cases hsame
  · obtain ⟨b, hs'⟩ := (h.exists_child_iff hw).mp ⟨y, hp⟩
    obtain rfl : s = s' := hproper.distinct hs hs' (Rdn.same_iff.mpr
      ((Rdn.same_iff.mp hsame).trans (Rdn.same_iff.mp hsame').symm))
    have hy : Way t rootId y (s :: rs) := .step hp hw
    rcases hcases with ⟨⟨z, u, hz⟩, herr⟩ | ⟨hleaf, t', hok, hpruned, hf⟩
    · obtain ⟨b', hb'⟩ := (h.exists_child_iff hy).mp ⟨z, hz⟩
      exact .inl ⟨⟨u, b', hb'⟩, herr⟩
    · refine .inr ⟨fun hchild => ?_, t', hok, hf.rootDn, hf.wellFormed, ?_⟩
      · obtain ⟨u, b', hb'⟩ := hchild
        obtain ⟨z, hz⟩ := (h.exists_child_iff hy).mpr ⟨b', hb'⟩
        exact hleaf hz
      · rw [Contents.withRoot_remove]
        exact hpruned.bears h.wellFormed.linked hy h.bears

theorem setAttributes_ok (h : t.Stores c) (hw : Way t rootId x rs) (a : AttributeMap) :
    ∃ t', t.setAttributes x a = .ok ((), t') ∧ t'.rootDn = t.rootDn ∧
      t'.Stores (c.set rs (some a)) := by
  obtain ⟨n, hn⟩ := hw.live
  obtain ⟨t', hok, hre, hf⟩ := setAttributes_live h.wellFormed hn a
  refine ⟨t', hok, hf.rootDn, hf.wellFormed, ?_⟩
  rw [Contents.withRoot_set]
  exact hre.bears h.wellFormed.linked hw h.bears

/-- A move of one node moves what is stored at and below its place. -/
theorem relinked {newUp : NodeId} (h : t.Stores c) (hproper : c.Proper)
    (hrel : Relinked t t' id up newUp r) (hf : Follows t t') (hw : Way t rootId id (s :: us))
    (hnew : Way t rootId newUp vs) (hfree : ∀ {y u}, Placed t y newUp u → u.same r = false)
    (hr : r.Legible) : c.Movable s us r vs ∧ t'.Stores (c.move (s :: us) (r :: vs)) := by
  have hm : c.Movable s us r vs := by
    refine ⟨?_, (h.attributes?_of_way hnew).1, (h.free_iff hnew).mp hfree, fun hs => ?_, hr⟩
    · exact (h.attributes?_of_way hw).1.resolve_left (List.cons_ne_nil _ _)
    · obtain ⟨ls, rfl⟩ := hs
      exact hrel.outside ls ((h.wellFormed.linked.way_iff_append hw).mpr hnew)
  have hnone : ∀ qs, r :: vs <:+ qs → c.withRoot qs = none := by
    intro qs hq
    cases qs with
    | nil => exact absurd (List.suffix_nil.mp hq) (List.cons_ne_nil _ _)
    | cons q qs => exact hm.eq_none hproper hq
  refine ⟨hm, hf.wellFormed, ?_⟩
  rw [Contents.withRoot_move]
  exact hrel.bears h.wellFormed.linked hw hnew hnone h.bears

end Stores
end MemoryTree
end DirectoryStore
