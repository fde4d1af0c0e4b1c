import DirectoryStore.Proofs.Memory.Mapping

/-!
# Moves of parts of a tree

A move decides by names whether it is allowed and then changes one link.  What can stand
against it are six things, of which the first in order is reported.  Nothing does just if the
new parent is there, lies outside the part that is moved, and has no child of the new name; so
the link makes no cycle, and the nodes of the part, which it alone renames, all follow.
-/

namespace DirectoryStore
namespace MemoryTree

variable {t t' : MemoryTree} {id up newUp x : NodeId} {r s : Rdn} {d dup target above : Dn}
variable {err err' : TreeError} {qs rs us vs ws : List Rdn}

/-- Some node has the name. -/
def Names (t : MemoryTree) (d : Dn) : Prop :=
  ∃ x dx, t.dn x = .ok dx ∧ dx.same d = true

/-- What stands first against moving the node `id` of the name `d` to the name `target`. -/
inductive MoveFault (t : MemoryTree) (id : NodeId) (d target : Dn) : TreeError → Prop where
  | root : id = TreeView.root t → MoveFault t id d target (.rootStays d)
  | unchanged : id ≠ TreeView.root t → d.same target = true →
      MoveFault t id d target (.alreadyExists d)
  | below : id ≠ TreeView.root t → d.same target = false → d.contains target = true →
      MoveFault t id d target (.invalidMove d target)
  | nameless : id ≠ TreeView.root t → d.same target = false → d.contains target = false →
      target = .empty → MoveFault t id d target (.name .emptyDn)
  | orphaned {above : Dn} : id ≠ TreeView.root t → d.same target = false →
      d.contains target = false → target.up? = some above → ¬ Names t above →
      MoveFault t id d target (.notFound above)
  | taken {above : Dn} : id ≠ TreeView.root t → d.same target = false →
      d.contains target = false → target.up? = some above → Names t above → Names t target →
      MoveFault t id d target (.alreadyExists target)

/-- `t'` is `t` with the part from `id` on, which had the name `d`, under the name that the
    last child `r` of `newUp` has. -/
structure Rerooted (t t' : MemoryTree) (id newUp : NodeId) (d dup : Dn) (r : Rdn) : Prop where
  /-- The links still make one tree. -/
  consistent : Consistent t'
  /-- The part keeps its handles, its attributes and the relative names inside it. -/
  part : ∀ x, Tree.Below t id x → ∃ qs a, t.entry x = .ok ⟨⟨qs ++ d.rdns⟩, a⟩ ∧
    t'.entry x = .ok ⟨⟨qs ++ (dup.child r).rdns⟩, a⟩
  others : ∀ x, ¬ Tree.Below t id x → t'.entry x = t.entry x
  parent : t'.parent id = .ok (some newUp)
  lists : ∀ x, t'.children x =
    (t.children x).map fun l => l.filter (· ≠ id) ++ if x = newUp then [id] else []
  nodeCount : t'.nodeCount = t.nodeCount

theorem MoveFault.unique (h : MoveFault t id d target err) (h' : MoveFault t id d target err') :
    err = err' := by
  cases h <;> cases h' <;> simp_all [Dn.up?, Dn.empty]

/-! ## What a new link does -/

namespace Relinked

/-- The nodes below the moved one follow it. -/
theorem dn_below (h : Relinked t t' id up newUp r) (hl : Linked t) (hl' : Linked t')
    (hroot : t'.rootDn = t.rootDn) (hd : t.dn id = .ok d) (hnew : t.dn newUp = .ok dup)
    (hq : Way t id x qs) :
    t.dn x = .ok ⟨qs ++ d.rdns⟩ ∧ t'.dn x = .ok ⟨qs ++ (dup.child r).rdns⟩ := by
  obtain ⟨ws, hw, rfl⟩ := hl.dn_eq_ok_iff.mp hd
  obtain ⟨us, hu, rfl⟩ := hl.dn_eq_ok_iff.mp hnew
  constructor
  · rw [hl.dn_of_way (hw.append hq), List.append_assoc]
  · have hway : Way t' rootId x (qs ++ r :: us) := (h.way_iff hl).mpr (.inr ⟨qs, us, rfl, hu, hq⟩)
    rw [hl'.dn_of_way hway, hroot, Dn.child, List.append_assoc, List.cons_append]

theorem attributes_eq (h : Relinked t t' id up newUp r) (x : NodeId) :
    (t'.node? x).map MemoryNode.attributes = (t.node? x).map MemoryNode.attributes := by
  rw [h.node? x]
  cases t.node? x <;> rfl

/-- The names of all other nodes stay. -/
theorem dn_outside (h : Relinked t t' id up newUp r) (hl : Linked t) (hl' : Linked t')
    (hroot : t'.rootDn = t.rootDn) (hx : ∀ qs, ¬ Way t id x qs) :
    t'.dn x = .ok d ↔ t.dn x = .ok d := by
  rw [hl'.dn_eq_ok_iff, hl.dn_eq_ok_iff, hroot]
  apply exists_congr
  intro rs
  rw [h.way_iff hl, or_iff_left, and_iff_left hx]
  rintro ⟨qs, ws, -, -, hq⟩
  exact hx qs hq

theorem children_eq (h : Relinked t t' id up newUp r) (hl : Linked t) (x : NodeId) :
    t'.children x =
      (t.children x).map fun l => l.filter (· ≠ id) ++ if x = newUp then [id] else [] := by
  have hx := h.node? x
  cases hn : t.node? x with
  | none =>
      rw [hn, Option.map_none] at hx
      simp [children, node_eq_error hn, node_eq_error hx, Except.map]
  | some n =>
      rw [hn, Option.map_some] at hx
      rw [children_eq_ok hx, children_eq_ok hn]
      -- only the old parent lists the node
      have hkept : (if x = up then n.children.filter (· ≠ id) else n.children) =
          n.children.filter (· ≠ id) := by
        split
        · rfl
        · rename_i hne
          refine (List.filter_eq_self.mpr fun c hc => ?_).symm
          rw [decide_eq_true_eq]
          rintro rfl
          obtain ⟨s, hp⟩ := (hl.children hn).mp hc
          obtain ⟨s', hp'⟩ := h.placed
          exact hne (hp.unique hp').1
      simp only [Except.map, hkept]

theorem nodeCount_eq (h : Relinked t t' id up newUp r) (ht : Tidy t) (ht' : Tidy t') :
    t'.nodeCount = t.nodeCount := by
  have hperm : t'.handles.Perm t.handles := by
    apply (List.perm_ext_iff_of_nodup nodup_handles nodup_handles).mpr
    intro x
    rw [mem_handles_iff, mem_handles_iff, h.live_iff]
  rw [MemoryTree.nodeCount_eq ht', MemoryTree.nodeCount_eq ht, hperm.length_eq]

theorem rerooted (h : Relinked t t' id up newUp r) (hwf : WellFormed t) (hf : Follows t t')
    (hd : t.dn id = .ok d) (hnew : t.dn newUp = .ok dup) : Rerooted t t' id newUp d dup r where
  consistent := hf.wellFormed.consistent
  part x hx := by
    obtain ⟨n, hn⟩ := hwf.linked.dn_live hd
    obtain ⟨l, hl, -, hmem⟩ := hwf.linked.subtree_eq_ok hn
    obtain ⟨l', hl', hx⟩ := hx
    rw [hl, Except.ok.injEq] at hl'
    subst hl'
    obtain ⟨qs, hq⟩ := (hmem x).mp hx
    obtain ⟨hdn, hdn'⟩ := h.dn_below hwf.linked hf.wellFormed.linked hf.rootDn hd hnew hq
    obtain ⟨m, hm⟩ := hq.live
    have ha := h.attributes_eq x
    rw [hm, Option.map_some, Option.map_eq_some_iff] at ha
    refine ⟨qs, m.attributes, ?_, ?_⟩
    · exact hwf.linked.entry_eq_ok_iff.mpr ⟨hdn, m, hm, rfl⟩
    · exact hf.wellFormed.linked.entry_eq_ok_iff.mpr ⟨hdn', ha⟩
  others x hx := by
    have hout : ∀ qs, ¬ Way t id x qs := by
      intro qs hq
      obtain ⟨n, hn⟩ := hwf.linked.dn_live hd
      obtain ⟨l, hl, -, hmem⟩ := hwf.linked.subtree_eq_ok hn
      exact hx ⟨l, hl, (hmem x).mpr ⟨qs, hq⟩⟩
    apply entry_congr hwf.linked hf.wellFormed.linked
    · intro dx
      exact h.dn_outside hwf.linked hf.wellFormed.linked hf.rootDn hout
    · exact h.attributes_eq x
  parent := parent_of_placed (h.placed_iff.mpr (.inl ⟨rfl, rfl, rfl⟩))
  lists := h.children_eq hwf.linked
  nodeCount := h.nodeCount_eq hwf.tidy hf.wellFormed.tidy

end Relinked

/-! ## What a move comes to -/

/-- A node of a name is a child of any node of the name above. -/
theorem Linked.names_child_iff (h : Linked t) (hup : t.dn newUp = .ok dup)
    (hs : dup.same above = true) :
    Names t (above.child r) ↔ ∃ c s, Placed t c newUp s ∧ s.same r = true := by
  rw [← h.child_taken_iff hup, h.attributesAt?_ne_none_iff, Names]
  simp only [Dn.same_iff, Dn.key_child, Dn.same_iff.mp hs]

theorem Linked.not_names_of_lookup (h : Linked t)
    (hlook : Tree.lookup t rootId d = .error err) : ¬ Names t d := by
  rintro ⟨x, dx, hx, hs⟩
  rw [h.lookup_eq_ok_iff.mpr ⟨dx, hx, hs⟩] at hlook
  cases hlook

/-- Nothing stands against a move out of the part to a free name below a node. -/
theorem Linked.not_moveFault (h : Linked t) (hne : id ≠ TreeView.root t)
    (hsame : d.same (above.child r) = false) (hcontains : d.contains (above.child r) = false)
    (hup : t.dn newUp = .ok dup) (hs : dup.same above = true)
    (hfree : ∀ {c s}, Placed t c newUp s → s.same r = false) :
    ¬ MoveFault t id d (above.child r) err := by
  intro hfault
  cases hfault with
  | root hroot => exact hne hroot
  | unchanged _ hsame' => exact Bool.eq_false_iff.mp hsame hsame'
  | below _ _ hcontains' => exact Bool.eq_false_iff.mp hcontains hcontains'
  | nameless _ _ _ hempty => cases hempty
  | orphaned _ _ _ habove hnot =>
      cases habove
      exact hnot ⟨newUp, dup, hup, hs⟩
  | taken _ _ _ _ _ htaken =>
      obtain ⟨c, u, hc, hu⟩ := (h.names_child_iff hup hs).mp htaken
      rw [hfree hc] at hu
      cases hu

/-- A move fails with what stands first against it, or it does what a new link does. -/
theorem moveTo_outcome (h : WellFormed t) (hd : t.dn id = .ok d) (target : Dn) :
    (∃ err, MoveFault t id d target err ∧
      (DirectoryTree.moveTo id target).run t = (.error err, t)) ∨
    (∀ err, ¬ MoveFault t id d target err) ∧ ∃ newUp dup above r t',
      target = above.child r ∧ t.dn newUp = .ok dup ∧ dup.same above = true ∧
      (DirectoryTree.moveTo id target).run t = (.ok id, t') ∧
      Rerooted t t' id newUp d dup r := by
  have hl := h.linked
  have hrun := run_moveTo h id target
  rw [Edit.run_change] at hrun
  rcases hl.dn_cases hd with ⟨rfl, rfl⟩ | ⟨up, s, dup, hp, hup, rfl⟩
  · rw [moveTo_root hl] at hrun
    exact .inl ⟨_, .root rfl, hrun⟩
  have hne : id ≠ TreeView.root t := by
    rintro rfl
    exact hl.not_placed_root hp
  obtain ⟨us, hw, rfl⟩ := hl.dn_eq_ok_iff.mp hup
  rcases moveTo_cases h hp hw target with ⟨hsame, herr⟩ | ⟨hsame, hcontains, herr⟩ |
    ⟨hcontains, hempty, herr⟩ | ⟨hcontains, r, vs, htarget, hrest⟩
  · rw [herr] at hrun
    exact .inl ⟨_, .unchanged hne hsame, hrun⟩
  · rw [herr] at hrun
    exact .inl ⟨_, .below hne hsame hcontains, hrun⟩
  all_goals
    have hsame : (Dn.mk (s :: us ++ t.rootDn.rdns)).same target = false := by
      rw [Bool.eq_false_iff]
      intro hsame
      rw [Dn.contains_of_same hsame] at hcontains
      cases hcontains
  · rw [herr] at hrun
    exact .inl ⟨_, .nameless hne hsame hcontains (congrArg Dn.mk hempty), hrun⟩
  have habove : target.up? = some ⟨vs⟩ := by rw [Dn.up?, htarget]
  have htarget : target = (Dn.mk vs).child r := congrArg Dn.mk htarget
  rcases hrest with ⟨hlook, herr⟩ | ⟨newUp, ws, hlook, hws, hs, hrest⟩
  · rw [herr] at hrun
    exact .inl ⟨_, .orphaned hne hsame hcontains habove (hl.not_names_of_lookup hlook), hrun⟩
  have hnew := hl.dn_of_way hws
  have hnames : Names t ⟨vs⟩ := ⟨newUp, _, hnew, hs⟩
  rcases hrest with ⟨hchild, herr⟩ | ⟨hfree, t', hmove, heff, hf⟩
  · rw [herr] at hrun
    have htaken : Names t target := by
      rw [htarget]
      exact (hl.names_child_iff hnew hs).mpr hchild
    exact .inl ⟨_, .taken hne hsame hcontains habove hnames htaken, hrun⟩
  · rw [hmove] at hrun
    refine .inr ⟨fun err => ?_, newUp, _, _, r, t', htarget, hnew, hs, hrun,
      heff.rerooted h hf hd hnew⟩
    rw [htarget] at hsame hcontains ⊢
    exact hl.not_moveFault hne hsame hcontains hnew hs hfree

/-- After any calls: a move fails just with what stands first against it, and if nothing does, it
    renames the nodes of one part of the tree and leaves all others alone. -/
theorem afterCalls_rerooted (e : Entry) (calls : List (NodeId × Call)) :
    let t := Tree.afterCalls calls (ofRoot e)
    ∀ id n, t.node? id = some n → ∃ d, t.dn id = .ok d ∧ ∀ target,
      (∀ err, (DirectoryTree.moveTo id target).run t = (.error err, t) ↔
        MoveFault t id d target err) ∧
      ((∀ err, ¬ MoveFault t id d target err) →
        ∃ newUp dup above r t', target = above.child r ∧ t.dn newUp = .ok dup ∧
          dup.same above = true ∧ (DirectoryTree.moveTo id target).run t = (.ok id, t') ∧
          Rerooted t t' id newUp d dup r) := by
  intro t id n hn
  have h := wellFormed_afterCalls (wellFormed_ofRoot e) calls
  obtain ⟨ws, hw⟩ := h.linked.grounded hn
  have hd := h.linked.dn_of_way hw
  refine ⟨_, hd, fun target => ?_⟩
  rcases moveTo_outcome h hd target with ⟨err, hfault, hrun⟩ | ⟨hnone, hmoved⟩
  · refine ⟨fun err' => ⟨fun hrun' => ?_, fun hfault' => ?_⟩, fun hnone => ?_⟩
    · rw [hrun] at hrun'
      cases hrun'
      exact hfault
    · rw [hfault'.unique hfault]
      exact hrun
    · exact absurd hfault (hnone err)
  · refine ⟨fun err => ⟨fun hrun' => ?_, fun hfault => absurd hfault (hnone err)⟩, fun _ => hmoved⟩
    obtain ⟨_, _, _, _, _, -, -, -, hrun, -⟩ := hmoved
    rw [hrun] at hrun'
    cases hrun'

/-- A node in a slot that another one had before is moved once more, and what it was moved below
    cannot be moved below it. -/
theorem afterCalls_rerooted_reused :
    let e : Entry := ⟨⟨[.single "dc" "x"]⟩, .empty⟩
    let calls : List (NodeId × Call) := [(rootId, .addChild (.single "ou" "a") .empty),
      (rootId, .addChild (.single "ou" "b") .empty), (⟨2, 0⟩, .delete),
      (rootId, .addChild (.single "ou" "c") .empty),
      (⟨2, 1⟩, .moveTo ⟨[.single "cn" "d", .single "OU" "a", .single "dc" "x"]⟩)]
    let t := Tree.afterCalls calls (ofRoot e)
    let up : Dn := ⟨[.single "ou" "a", .single "dc" "x"]⟩
    let d : Dn := up.child (.single "cn" "d")
    (DirectoryTree.moveTo ⟨1, 0⟩ (d.child (.single "ou" "a"))).run t =
        (.error (.invalidMove up (d.child (.single "ou" "a"))), t) ∧
      ∃ newUp dup t', (DirectoryTree.moveTo ⟨2, 1⟩ (e.dn.child (.single "cn" "e"))).run t =
          (.ok ⟨2, 1⟩, t') ∧ Rerooted t t' ⟨2, 1⟩ newUp d dup (.single "cn" "e") := by
  intro e calls t up d
  have hup : t.dn ⟨1, 0⟩ = .ok up := by decide +kernel
  have hd : t.dn ⟨2, 1⟩ = .ok d := by decide +kernel
  have hmoved : ((DirectoryTree.moveTo ⟨2, 1⟩ (e.dn.child (.single "cn" "e"))).run t).1 =
      .ok ⟨2, 1⟩ := by decide +kernel
  have hliveUp : (t.node? ⟨1, 0⟩).isSome = true := by decide +kernel
  have hlive : (t.node? ⟨2, 1⟩).isSome = true := by decide +kernel
  obtain ⟨n, hn⟩ := Option.isSome_iff_exists.mp hliveUp
  obtain ⟨m, hm⟩ := Option.isSome_iff_exists.mp hlive
  have h := afterCalls_rerooted e calls
  obtain ⟨up', hup', houter⟩ := h ⟨1, 0⟩ n hn
  obtain ⟨d', hd', hinner⟩ := h ⟨2, 1⟩ m hm
  cases hup.symm.trans hup'
  cases hd.symm.trans hd'
  constructor
  · exact ((houter _).1 _).mpr (.below (by decide) (by decide) (by decide))
  · obtain ⟨hfault, hdone⟩ := hinner (e.dn.child (.single "cn" "e"))
    obtain ⟨newUp, dup, ⟨_⟩, r, t', htarget, -, -, hrun, hre⟩ := hdone fun err hf => by
      rw [(hfault err).mpr hf] at hmoved
      cases hmoved
    cases htarget
    exact ⟨newUp, dup, t', hrun, hre⟩

end MemoryTree
end DirectoryStore
