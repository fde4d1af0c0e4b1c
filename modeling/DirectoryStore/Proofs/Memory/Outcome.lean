import DirectoryStore.Proofs.Memory.Lookup
import DirectoryStore.Proofs.Memory.Relink

/-!
# What the operations of a tree in memory do

Each operation is taken apart once into the cases it distinguishes: every failure with its
condition, and the success with the change that it makes.  Later proofs use these cases and
do not look into the operations.
-/

namespace DirectoryStore
namespace MemoryTree

/-- A tree whose slots are tidy and whose nodes are linked. -/
structure WellFormed (t : MemoryTree) : Prop where
  tidy : Tidy t
  linked : Linked t

/-- `t'` comes from `t` by an operation that keeps it in order, and has room for as many nodes
    as either tree holds. -/
structure Follows (t t' : MemoryTree) : Prop where
  wellFormed : WellFormed t'
  rootDn : t'.rootDn = t.rootDn
  room : t'.slots.length = max t.slots.length t'.nodeCount

variable {t t' : MemoryTree} {id up : NodeId} {n : MemoryNode} {r : Rdn} {d target : Dn}
variable {attrs : AttributeMap} {ws : List Rdn}

theorem Follows.refl (h : WellFormed t) : Follows t t where
  wellFormed := h
  rootDn := rfl
  room := (Nat.max_eq_left nodeCount_le).symm

/-- A change that needs no slot more. -/
theorem Follows.of_length_eq (h : WellFormed t') (hroot : t'.rootDn = t.rootDn)
    (hlen : t'.slots.length = t.slots.length) : Follows t t' where
  wellFormed := h
  rootDn := hroot
  room := by
    rw [hlen]
    exact (Nat.max_eq_left (hlen ▸ nodeCount_le)).symm

theorem addChild_cases (h : WellFormed t) (hw : Way t rootId id ws) (r : Rdn)
    (attrs : AttributeMap) :
    ((∃ c s, Placed t c id s ∧ s.same r = true) ∧
      t.addChild id r attrs = .error (.alreadyExists ⟨r :: ws ++ t.rootDn.rdns⟩)) ∨
    ((∀ {c s}, Placed t c id s → s.same r = false) ∧ ∃ new t',
      t.addChild id r attrs = .ok (new, t') ∧ Grown t t' id new r attrs ∧ Follows t t') := by
  obtain ⟨n, hn⟩ := hw.live
  have hdn := h.linked.dn_of_way hw
  rcases h.linked.child_cases hn r with ⟨c, s, hc, hp, hs⟩ | ⟨hc, hfree⟩
  · refine .inl ⟨⟨c, s, hp, hs⟩, ?_⟩
    simp only [addChild, hdn, hc, bind, Except.bind]
    rfl
  · have hfresh := node?_insert_self h.tidy ⟨some (id, r), attrs, []⟩
    have hins := node?_insert h.tidy ⟨some (id, r), attrs, []⟩
    have hlen := length_slots_insert h.tidy ⟨some (id, r), attrs, []⟩
    have htidy := h.tidy.insert ⟨some (id, r), attrs, []⟩
    have hroot : (t.insert ⟨some (id, r), attrs, []⟩).2.rootDn = t.rootDn := rootDn_insert _
    have hadd : t.addChild id r attrs = .ok ((t.insert ⟨some (id, r), attrs, []⟩).1,
        (t.insert ⟨some (id, r), attrs, []⟩).2.modifyNode id fun n =>
          { n with children := n.children ++ [(t.insert ⟨some (id, r), attrs, []⟩).1] }) := by
      simp only [addChild, hdn, hc, bind, Except.bind, pure, Except.pure]
    generalize t.insert ⟨some (id, r), attrs, []⟩ = added at *
    obtain ⟨new, t₁⟩ := added
    have hne : id ≠ new := by
      rintro rfl
      rw [hn] at hfresh
      cases hfresh
    have hid : t₁.node? id = some n := by rw [hins, if_neg hne, hn]
    have hgrown : Grown t (t₁.modifyNode id fun n => { n with children := n.children ++ [new] })
        id new r attrs := by
      refine ⟨hfresh, ⟨n, hn⟩, fun x => ?_⟩
      rw [node?_modifyNode _ hid, hins]
      by_cases hx : x = new
      · subst hx
        rw [if_neg (Ne.symm hne), if_pos rfl, if_pos rfl]
      · rw [if_neg hx, if_neg hx]
        split
        · rename_i hxid
          rw [hxid, hn]
          rfl
        · rfl
    refine .inr ⟨hfree, new, _, hadd, hgrown, ?_, hroot, ?_⟩
    · exact ⟨htidy.modifyNode _ _, hgrown.linked h.linked hfree⟩
    · rw [length_slots_modifyNode, nodeCount, length_slots_modifyNode, free_modifyNode]
      exact hlen

theorem addChild_stale (hn : t.node? id = none) :
    t.addChild id r attrs = .error .staleHandle := by
  simp only [addChild, dn_eq_error hn, bind, Except.bind]

theorem deleteChild_cases (h : WellFormed t) (hw : Way t rootId id ws) (r : Rdn) :
    ((∀ {c s}, Placed t c id s → s.same r = false) ∧
      t.deleteChild id r = .error (.notFound ⟨r :: ws ++ t.rootDn.rdns⟩)) ∨
    ∃ c s, Placed t c id s ∧ s.same r = true ∧
      (((∃ x u, Placed t x c u) ∧
        t.deleteChild id r = .error (.notLeaf ⟨s :: ws ++ t.rootDn.rdns⟩)) ∨
      ((∀ {x u}, ¬ Placed t x c u) ∧ ∃ t', t.deleteChild id r = .ok ((), t') ∧
        Pruned t t' id c ∧ Follows t t')) := by
  obtain ⟨n, hn⟩ := hw.live
  have hdn := h.linked.dn_of_way hw
  rcases h.linked.child_cases hn r with ⟨c, s, hc, hp, hs⟩ | ⟨hc, hfree⟩
  · obtain ⟨m, hm⟩ := hp.live
    have hdnc := h.linked.dn_of_way (.step hp hw)
    refine .inr ⟨c, s, hp, hs, ?_⟩
    cases hbelow : m.children with
    | cons x xs =>
        have hx : x ∈ m.children := by rw [hbelow]; exact List.mem_cons_self
        obtain ⟨u, hu⟩ := (h.linked.children hm).mp hx
        refine .inl ⟨⟨x, u, hu⟩, ?_⟩
        simp only [deleteChild, hc, hdnc, children_eq_ok hm, hbelow, bind, Except.bind]
        rfl
    | nil =>
        have hleaf : ∀ {x u}, ¬ Placed t x c u := fun hu => by
          have := (h.linked.children hm).mpr ⟨_, hu⟩
          rw [hbelow] at this
          cases this
        have hdel : t.deleteChild id r = .ok ((), (t.unlink id c).release c) := by
          simp only [deleteChild, hc, hdnc, children_eq_ok hm, hbelow, bind, Except.bind]
          rfl
        have hne : c ≠ id := h.linked.ne_parent hp
        have hm' : (t.unlink id c).node? c = some m := by
          rw [unlink, node?_modifyNode _ hn, if_neg hne, hm]
        have hpruned : Pruned t ((t.unlink id c).release c) id c := by
          refine ⟨⟨m, hm, hbelow⟩, ⟨s, hp⟩, fun x => ?_⟩
          rw [node?_release hm', unlink, node?_modifyNode _ hn]
          by_cases hx : x = id
          · rw [if_pos hx, if_pos hx, hx, hn]
            rfl
          · rw [if_neg hx, if_neg hx]
        refine .inr ⟨hleaf, _, hdel, hpruned,
          .of_length_eq ⟨?_, hpruned.linked h.linked⟩ rfl (by simp [release, unlink])⟩
        exact (h.tidy.modifyNode _ _).release hm'
  · refine .inl ⟨hfree, ?_⟩
    simp only [deleteChild, hc, hdn, bind, Except.bind]
    rfl

theorem deleteChild_stale (hn : t.node? id = none) :
    t.deleteChild id r = .error .staleHandle := by
  simp only [deleteChild, child_eq_error hn, bind, Except.bind]

/-- A change of one node that keeps its place and its children. -/
theorem setAttributes_live (h : WellFormed t) (hn : t.node? id = some n) (attrs : AttributeMap) :
    ∃ t', t.setAttributes id attrs = .ok ((), t') ∧ Reattributed t t' id attrs ∧
      Follows t t' := by
  have hset : t.setAttributes id attrs =
      .ok ((), t.modifyNode id fun n => { n with attributes := attrs }) := by
    simp only [setAttributes, node_eq_ok hn, bind, Except.bind, pure, Except.pure]
  have heff : Reattributed t (t.modifyNode id fun n => { n with attributes := attrs }) id
      attrs := fun x => by
    rw [node?_modifyNode _ hn]
    split
    · rename_i hx
      rw [hx, hn]
      rfl
    · rfl
  exact ⟨_, hset, heff, .of_length_eq ⟨h.tidy.modifyNode _ _, heff.linked h.linked⟩ rfl
    (length_slots_modifyNode _)⟩

theorem setAttributes_stale (hn : t.node? id = none) :
    t.setAttributes id attrs = .error .staleHandle := by
  simp only [setAttributes, node_eq_error hn, bind, Except.bind]

theorem parent_of_placed (h : Placed t id up r) : t.parent id = .ok (some up) := by
  obtain ⟨n, hn, hp⟩ := h
  simp [parent, node_eq_ok hn, hp]

theorem parent_root (h : Linked t) : t.parent rootId = .ok none := by
  obtain ⟨n, hn, hp⟩ := h.root
  simp [parent, node_eq_ok hn, hp]

theorem moveTo_root (h : Linked t) (target : Dn) :
    t.moveTo rootId target = .error (.rootStays t.rootDn) := by
  have hdn := h.dn_of_way h.root_way
  rw [List.nil_append] at hdn
  simp only [moveTo, hdn, parent_root h, bind, Except.bind]

theorem moveTo_stale (hn : t.node? id = none) : t.moveTo id target = .error .staleHandle := by
  simp only [moveTo, dn_eq_error hn, bind, Except.bind]

/-- The nodes after a move are linked anew in one place. -/
theorem relinked_of_move {newUp : NodeId} {s : Rdn} (hp : Placed t id up s)
    (hup : ∃ m, t.node? up = some m) (hnew : ∃ m, t.node? newUp = some m)
    (hout : ∀ qs, ¬ Way t id newUp qs) :
    Relinked t (((t.unlink up id).modifyNode newUp fun n =>
        { n with children := n.children ++ [id] }).modifyNode id fun n =>
          { n with place := some (newUp, r) }) id up newUp r := by
  obtain ⟨n, hn⟩ := hp.live
  obtain ⟨m, hm⟩ := hup
  obtain ⟨k, hk⟩ := hnew
  have hunlink : ∀ x, (t.unlink up id).node? x = (t.node? x).map fun n =>
      { n with children := if x = up then n.children.filter (· ≠ id) else n.children } := by
    intro x
    rw [unlink, node?_modifyNode _ hm]
    split
    · rename_i hx
      rw [hx, hm]
      rfl
    · cases t.node? x <;> rfl
  have hk' := hunlink newUp
  rw [hk] at hk'
  have hlink : ∀ x, ((t.unlink up id).modifyNode newUp fun n =>
      { n with children := n.children ++ [id] }).node? x = (t.node? x).map fun n =>
      { n with children := (if x = up then n.children.filter (· ≠ id) else n.children) ++
          if x = newUp then [id] else [] } := by
    intro x
    rw [node?_modifyNode _ hk', hunlink]
    split
    · rename_i hx
      rw [hx, hk]
      rfl
    · cases t.node? x <;> simp
  have hn' := hlink id
  rw [hn] at hn'
  refine ⟨⟨s, hp⟩, ⟨k, hk⟩, hout, fun x => ?_⟩
  rw [node?_modifyNode _ hn', hlink]
  split
  · rename_i hx
    rw [hx, hn]
    rfl
  · cases t.node? x <;> rfl

/-- The parent of a name that a node's own name does not contain is not below the node. -/
theorem Linked.not_way_of_not_contains {x : NodeId} {vs rs qs : List Rdn} (h : Linked t)
    (hid : Way t rootId id rs) (hx : Way t rootId x ws)
    (hs : (Dn.mk (ws ++ t.rootDn.rdns)).same ⟨vs⟩ = true) (htarget : target.rdns = r :: vs)
    (hout : (Dn.mk (rs ++ t.rootDn.rdns)).contains target = false) : ¬ Way t id x qs := by
  intro hq
  have hws := h.way_unique hx (hid.append hq)
  have hchild : target = (Dn.mk vs).child r := by rw [Dn.child, ← htarget]
  have hin : (Dn.mk (rs ++ t.rootDn.rdns)).contains target = true := by
    rw [Dn.contains_iff, hchild, Dn.key_child, ← Dn.same_iff.mp hs, hws, List.append_assoc,
      Dn.key_append qs]
    exact (List.prefix_append _ _).trans (List.prefix_append _ _)
  rw [hout] at hin
  cases hin

theorem moveTo_cases {s : Rdn} {us : List Rdn} (h : WellFormed t) (hp : Placed t id up s)
    (hw : Way t rootId up us) (target : Dn) :
    let d : Dn := ⟨s :: us ++ t.rootDn.rdns⟩
    (d.same target = true ∧ t.moveTo id target = .error (.alreadyExists d)) ∨
    (d.same target = false ∧ d.contains target = true ∧
      t.moveTo id target = .error (.invalidMove d target)) ∨
    (d.contains target = false ∧ target.rdns = [] ∧
      t.moveTo id target = .error (.name .emptyDn)) ∨
    (d.contains target = false ∧ ∃ r vs, target.rdns = r :: vs ∧
      ((Tree.lookup t rootId ⟨vs⟩ = .error (.notFound ⟨vs⟩) ∧
        t.moveTo id target = .error (.notFound ⟨vs⟩)) ∨
      ∃ newUp ws, Tree.lookup t rootId ⟨vs⟩ = .ok newUp ∧ Way t rootId newUp ws ∧
        (Dn.mk (ws ++ t.rootDn.rdns)).same ⟨vs⟩ = true ∧
        (((∃ c u, Placed t c newUp u ∧ u.same r = true) ∧
          t.moveTo id target = .error (.alreadyExists target)) ∨
        ((∀ {c u}, Placed t c newUp u → u.same r = false) ∧ ∃ t',
          t.moveTo id target = .ok (id, t') ∧ Relinked t t' id up newUp r ∧
          Follows t t')))) := by
  intro d
  have hid : Way t rootId id (s :: us) := .step hp hw
  have hdn : t.dn id = .ok d := h.linked.dn_of_way hid
  have hpar := parent_of_placed hp
  by_cases hsame : d.same target = true
  · refine .inl ⟨hsame, ?_⟩
    simp only [moveTo, hdn, hpar, hsame, bind, Except.bind]
    rfl
  rw [Bool.not_eq_true] at hsame
  by_cases hcontains : d.contains target = true
  · refine .inr (.inl ⟨hsame, hcontains, ?_⟩)
    simp only [moveTo, hdn, hpar, hsame, hcontains, bind, Except.bind]
    rfl
  rw [Bool.not_eq_true] at hcontains
  cases hrs : target.rdns with
  | nil =>
      refine .inr (.inr (.inl ⟨hcontains, rfl, ?_⟩))
      simp only [moveTo, hdn, hpar, hsame, hcontains, Tree.above, Dn.up?, hrs, bind, Except.bind]
      rfl
  | cons r vs =>
      refine .inr (.inr (.inr ⟨hcontains, r, vs, rfl, ?_⟩))
      have habove : Tree.above target = .ok ⟨vs⟩ := by simp [Tree.above, Dn.up?, hrs]
      have hleaf : Tree.leaf target = .ok r := by simp [Tree.leaf, Dn.leaf?, hrs]
      rcases h.linked.lookup_root_cases ⟨vs⟩ with ⟨newUp, ws, hx, hws, hs⟩ | ⟨herr, -⟩
      · refine .inr ⟨newUp, ws, hx, hws, hs, ?_⟩
        obtain ⟨k, hk⟩ := hws.live
        rcases h.linked.child_cases hk r with ⟨c, u, hc, hpc, hu⟩ | ⟨hc, hfree⟩
        · refine .inl ⟨⟨c, u, hpc, hu⟩, ?_⟩
          simp only [moveTo, hdn, hpar, hsame, hcontains, habove, hleaf, hx, hc, bind, Except.bind]
          rfl
        · have hout : ∀ qs, ¬ Way t id newUp qs := fun _ =>
            h.linked.not_way_of_not_contains hid hws hs hrs hcontains
          have hmove : t.moveTo id target = .ok (id, ((t.unlink up id).modifyNode newUp fun n =>
              { n with children := n.children ++ [id] }).modifyNode id fun n =>
                { n with place := some (newUp, r) }) := by
            simp only [moveTo, hdn, hpar, hsame, hcontains, habove, hleaf, hx, hc, bind,
              Except.bind]
            rfl
          have hrel := relinked_of_move (r := r) hp hw.live ⟨k, hk⟩ hout
          refine .inr ⟨hfree, _, hmove, hrel,
            .of_length_eq ⟨?_, hrel.linked h.linked hfree⟩ rfl (by simp [unlink])⟩
          exact ((h.tidy.modifyNode _ _).modifyNode _ _).modifyNode _ _
      · refine .inl ⟨herr, ?_⟩
        simp only [moveTo, hdn, hpar, hsame, hcontains, habove, herr, bind, Except.bind]
        rfl

end MemoryTree
end DirectoryStore
