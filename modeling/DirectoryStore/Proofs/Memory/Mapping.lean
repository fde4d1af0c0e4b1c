import DirectoryStore.Proofs.Memory.Consistency
import DirectoryStore.Proofs.Memory.Siblings
import Mathlib.Data.List.Basic

/-!
# Trees in memory as maps

Seen from outside, a tree is a map from names to attributes.  A call acts on the map at one
name and leaves the rest of it alone, with all handles of other nodes and the order of their
children, and whether it succeeds can be told from the map.
-/

namespace DirectoryStore
namespace MemoryTree

open DirectoryStore.Tree (entryAt?)

variable {t t' : MemoryTree} {id up new x c : NodeId} {n : MemoryNode} {r s : Rdn}
variable {d dup : Dn} {e : Entry} {a : AttributeMap}

/-- The attributes that a tree holds under a name. -/
def attributesAt? (t : MemoryTree) (d : Dn) : Option AttributeMap :=
  (entryAt? t d).map Entry.attributes

/-- Under the name `d` the tree `t'` holds `a`, and under all other names what `t` holds. -/
def UpdatedAt (t t' : MemoryTree) (d : Dn) (a : Option AttributeMap) : Prop :=
  ∀ d', t'.attributesAt? d' = if d.same d' then a else t.attributesAt? d'

/-- `t'` is `t` with a new last child of `id`, which has the name `d` and the attributes `a`. -/
structure Added (t t' : MemoryTree) (id new : NodeId) (d : Dn) (a : AttributeMap) : Prop where
  map : UpdatedAt t t' d (some a)
  fresh : t.node? new = none
  entry : t'.entry new = .ok ⟨d, a⟩
  siblings : t'.children id = (t.children id).map (· ++ [new])
  lists : ∀ x, x ≠ id → x ≠ new → t'.children x = t.children x
  others : ∀ x, x ≠ new → t'.entry x = t.entry x

/-- `t'` is `t` without the child `gone` of `id`, which had the name `d`. -/
structure Deleted (t t' : MemoryTree) (id gone : NodeId) (d : Dn) : Prop where
  map : UpdatedAt t t' d none
  name : ∃ e, t.entry gone = .ok e ∧ e.dn.same d = true
  dead : t'.node? gone = none
  siblings : t'.children id = (t.children id).map (List.filter (· ≠ gone))
  lists : ∀ x, x ≠ id → x ≠ gone → t'.children x = t.children x
  others : ∀ x, x ≠ gone → t'.entry x = t.entry x

/-- `t'` is `t` with the attributes `a` for `id`, which has the name `d`. -/
structure Replaced (t t' : MemoryTree) (id : NodeId) (d : Dn) (a : AttributeMap) : Prop where
  map : UpdatedAt t t' d (some a)
  entry : t'.entry id = .ok ⟨d, a⟩
  lists : ∀ x, t'.children x = t.children x
  others : ∀ x, x ≠ id → t'.entry x = t.entry x

/-- A tree is a map of the entries of its nodes, and each call acts on it as one. -/
structure ActsAsMap (t : MemoryTree) : Prop where
  /-- The map holds the attributes of the nodes under their names, and nothing else. -/
  view : ∀ d a, t.attributesAt? d = some a ↔
    ∃ x e, t.entry x = .ok e ∧ e.dn.same d = true ∧ e.attributes = a
  live : ∀ id n, t.node? id = some n → ∃ e, t.entry id = .ok e
  addTaken : ∀ id e r a, t.entry id = .ok e → t.attributesAt? (e.dn.child r) ≠ none →
    (DirectoryTree.addChild id r a).run t = (.error (.alreadyExists (e.dn.child r)), t)
  addFree : ∀ id e r a, t.entry id = .ok e → t.attributesAt? (e.dn.child r) = none →
    ∃ new t', (DirectoryTree.addChild id r a).run t = (.ok new, t') ∧
      Added t t' id new (e.dn.child r) a
  deleteMissing : ∀ id e r, t.entry id = .ok e → t.attributesAt? (e.dn.child r) = none →
    (DirectoryTree.deleteChild id r).run t = (.error (.notFound (e.dn.child r)), t)
  deleteInner : ∀ id e r d, t.entry id = .ok e → (e.dn.child r).contains d = true →
    (e.dn.child r).same d = false → t.attributesAt? d ≠ none →
    ∃ dc, dc.same (e.dn.child r) = true ∧
      (DirectoryTree.deleteChild id r).run t = (.error (.notLeaf dc), t)
  deleteLeaf : ∀ id e r, t.entry id = .ok e → t.attributesAt? (e.dn.child r) ≠ none →
    (∀ d, (e.dn.child r).contains d = true → t.attributesAt? d ≠ none →
      (e.dn.child r).same d = true) →
    ∃ gone t', (DirectoryTree.deleteChild id r).run t = (.ok (), t') ∧
      Deleted t t' id gone (e.dn.child r)
  deleteRoot : (Tree.delete (TreeView.root t)).run t = (.error (.rootStays t.rootDn), t)
  /-- Deletion by handle is deletion as a child of the parent. -/
  deleteOther : ∀ id e, t.entry id = .ok e → id ≠ TreeView.root t →
    ∃ up f r, t.parent id = .ok (some up) ∧ t.entry up = .ok f ∧ e.dn = f.dn.child r ∧
      (Tree.delete id).run t = (DirectoryTree.deleteChild up r).run t
  setAttributes : ∀ id e a, t.entry id = .ok e →
    ∃ t', (DirectoryTree.setAttributes id a).run t = (.ok (), t') ∧ Replaced t t' id e.dn a
  modifyApplied : ∀ id e edits a, t.entry id = .ok e →
    Modification.applyAll edits e.attributes = (a, none) →
    ∃ t', (Tree.modify id edits).run t = (.ok (), t') ∧ Replaced t t' id e.dn a
  modifyRefused : ∀ id e edits a err, t.entry id = .ok e →
    Modification.applyAll edits e.attributes = (a, some err) →
    (Tree.modify id edits).run t = (.error (.entry err), t)

/-! ## The map -/

theorem Linked.attributesAt?_eq_some_iff (h : Linked t) :
    t.attributesAt? d = some a ↔
      ∃ x e, t.entry x = .ok e ∧ e.dn.same d = true ∧ e.attributes = a := by
  rw [attributesAt?, Option.map_eq_some_iff]
  constructor
  · rintro ⟨e, he, ha⟩
    obtain ⟨x, hx, hs⟩ := h.entryAt?_eq_some_iff.mp he
    exact ⟨x, e, hx, hs, ha⟩
  · rintro ⟨x, e, hx, hs, ha⟩
    exact ⟨e, h.entryAt?_eq_some_iff.mpr ⟨x, hx, hs⟩, ha⟩

theorem attributesAt?_eq_none_iff : t.attributesAt? d = none ↔ entryAt? t d = none :=
  Option.map_eq_none_iff

/-- The map has something under the names of nodes. -/
theorem Linked.attributesAt?_ne_none_iff (h : Linked t) :
    t.attributesAt? d ≠ none ↔ ∃ x dx, t.dn x = .ok dx ∧ dx.same d = true := by
  rw [Ne, attributesAt?_eq_none_iff, h.entryAt?_eq_none_iff]
  simp only [Classical.not_forall, Bool.not_eq_false, exists_prop]

theorem exists_entryAt? (h : t.attributesAt? d ≠ none) : ∃ e, entryAt? t d = some e := by
  rw [Ne, attributesAt?_eq_none_iff] at h
  exact Option.ne_none_iff_exists'.mp h

theorem updatedAt_of_entryAt? {f : Option Entry} (h : ∀ d', entryAt? t' d' =
    if d.same d' then f else entryAt? t d') : UpdatedAt t t' d (f.map Entry.attributes) := by
  intro d'
  rw [attributesAt?, h d']
  split <;> rfl

theorem Linked.entry_eq_ok (h : Linked t) (hn : t.node? id = some n) :
    ∃ e, t.entry id = .ok e := by
  obtain ⟨ws, hw⟩ := h.grounded hn
  exact ⟨_, entry_of_way h hw hn⟩

/-- What the map has right below the name of a node are the children of the node. -/
theorem Linked.child_taken_iff (h : Linked t) (hd : t.dn id = .ok d) :
    t.attributesAt? (d.child r) ≠ none ↔ ∃ c s, Placed t c id s ∧ s.same r = true := by
  rw [h.attributesAt?_ne_none_iff]
  constructor
  · rintro ⟨x, dx, hx, hs⟩
    rw [Dn.same_iff, Dn.key_child] at hs
    rcases h.dn_cases hx with ⟨rfl, rfl⟩ | ⟨up, s, dup, hp, hup, rfl⟩
    · -- the root is at least as high as the node
      have hpre := (h.way_iff_prefix_key h.dn_root hd).mp
        (((h.dn_eq_ok_iff).mp hd).imp fun _ hw => hw.1)
      have hlen := congrArg List.length hs
      rw [List.length_append, List.length_singleton] at hlen
      have := hpre.length_le
      omega
    · rw [Dn.key_child] at hs
      have hkeys := List.append_inj' hs rfl
      have hup : up = id := h.eq_of_same hup hd (Dn.same_iff.mpr hkeys.1)
      subst hup
      exact ⟨x, s, hp, Rdn.same_iff.mpr (by simpa using hkeys.2)⟩
  · rintro ⟨c, s, hp, hs⟩
    refine ⟨c, _, h.dn_of_placed hp hd, ?_⟩
    rw [Dn.same_iff, Dn.key_child, Dn.key_child, Rdn.same_iff.mp hs]

/-- What the map has further below the name of a node shows that the node has children. -/
theorem Linked.exists_placed_of_below {d' : Dn} (h : Linked t) (hd : t.dn id = .ok d)
    (hc : d.contains d' = true) (hne : d.same d' = false) (hd' : t.attributesAt? d' ≠ none) :
    ∃ c s, Placed t c id s := by
  obtain ⟨f, hf⟩ := exists_entryAt? hd'
  obtain ⟨ks, hks⟩ := Dn.contains_iff.mp hc
  cases ks with
  | nil =>
      rw [List.append_nil] at hks
      rw [Dn.same_iff.mpr hks] at hne
      cases hne
  | cons k ks =>
      obtain ⟨c, s, hp, -⟩ := h.exists_child hd hf (q := k) ⟨ks, by simpa using hks⟩
      exact ⟨c, s, hp⟩

/-! ## What calls leave alone -/

theorem entry_congr (h : Linked t) (h' : Linked t')
    (hd : ∀ d, t'.dn x = .ok d ↔ t.dn x = .ok d)
    (ha : (t'.node? x).map MemoryNode.attributes = (t.node? x).map MemoryNode.attributes) :
    t'.entry x = t.entry x := by
  cases hn : t.node? x with
  | none =>
      rw [hn, Option.map_none, Option.map_eq_none_iff] at ha
      rw [entry_stale hn, entry_stale ha]
  | some n =>
      obtain ⟨e, he⟩ := h.entry_eq_ok hn
      obtain ⟨hdn, m, hm, hattrs⟩ := h.entry_eq_ok_iff.mp he
      rw [hm, Option.map_some, Option.map_eq_some_iff] at ha
      obtain ⟨m', hm', heq⟩ := ha
      rw [he]
      exact h'.entry_eq_ok_iff.mpr ⟨(hd _).mpr hdn, m', hm', heq.trans hattrs⟩

theorem children_congr
    (h : (t'.node? x).map MemoryNode.children = (t.node? x).map MemoryNode.children) :
    t'.children x = t.children x := by
  cases hn : t.node? x with
  | none =>
      rw [hn, Option.map_none, Option.map_eq_none_iff] at h
      simp [children, node_eq_error hn, node_eq_error h]
  | some n =>
      rw [hn, Option.map_some, Option.map_eq_some_iff] at h
      obtain ⟨m, hm, hc⟩ := h
      rw [children_eq_ok hn, children_eq_ok hm, hc]

namespace Grown

theorem added (h : Grown t t' id new r a) (hl : Linked t)
    (hfree : ∀ {c s}, Placed t c id s → s.same r = false) (hroot : t'.rootDn = t.rootDn)
    (hid : t.dn id = .ok d) : Added t t' id new (d.child r) a where
  map := updatedAt_of_entryAt? (h.entryAt?_eq hl hfree hroot hid)
  fresh := h.fresh
  entry := by
    refine (h.linked hl hfree).entry_eq_ok_iff.mpr ⟨?_, ?_⟩
    · exact (h.dn_eq_ok_iff hl hfree hroot hid new).mpr (.inr ⟨rfl, rfl⟩)
    · rw [h.node? new, if_pos rfl]
      exact ⟨_, rfl, rfl⟩
  siblings := by
    obtain ⟨m, hm⟩ := h.parent
    have hid' := h.node? id
    rw [if_neg (Ne.symm h.ne_parent), if_pos rfl, hm, Option.map_some] at hid'
    rw [children_eq_ok hm, children_eq_ok hid']
    rfl
  lists x hx hnew := by
    apply children_congr
    rw [h.node? x, if_neg hnew, if_neg hx]
  others x hnew := by
    apply entry_congr hl (h.linked hl hfree)
    · intro dx
      rw [h.dn_eq_ok_iff hl hfree hroot hid, or_iff_left]
      rintro ⟨hx, -⟩
      exact hnew hx
    · rw [h.node? x, if_neg hnew]
      split <;> cases t.node? x <;> rfl

end Grown

namespace Pruned

theorem deleted (h : Pruned t t' id c) (hl : Linked t) (hroot : t'.rootDn = t.rootDn)
    (hp : Placed t c id s) (hs : s.same r = true) (hid : t.dn id = .ok d) :
    Deleted t t' id c (d.child r) where
  map := by
    have hkey : (d.child s).key = (d.child r).key := by
      rw [Dn.key_child, Dn.key_child, Rdn.same_iff.mp hs]
    have hat := h.entryAt?_eq hl hroot (hl.dn_of_placed hp hid)
    refine updatedAt_of_entryAt? (f := none) fun d' => ?_
    rw [hat d', Dn.same, Dn.same, hkey]
  name := by
    obtain ⟨m, hm⟩ := hp.live
    obtain ⟨e, he⟩ := hl.entry_eq_ok hm
    have hdn := (hl.entry_eq_ok_iff.mp he).1
    rw [hl.dn_of_placed hp hid, Except.ok.injEq] at hdn
    refine ⟨e, he, ?_⟩
    rw [← hdn, Dn.same_iff, Dn.key_child, Dn.key_child, Rdn.same_iff.mp hs]
  dead := by rw [h.node? c, if_pos rfl]
  siblings := by
    obtain ⟨m, hm⟩ := hl.dn_live hid
    have hid' := h.node? id
    rw [if_neg (Ne.symm (hl.ne_parent hp)), if_pos rfl, hm, Option.map_some] at hid'
    rw [children_eq_ok hm, children_eq_ok hid']
    rfl
  lists x hx hc := by
    apply children_congr
    rw [h.node? x, if_neg hc, if_neg hx]
  others x hc := by
    apply entry_congr hl (h.linked hl)
    · intro dx
      rw [h.dn_eq_ok_iff hl hroot, and_iff_left hc]
    · rw [h.node? x, if_neg hc]
      split <;> cases t.node? x <;> rfl

end Pruned

namespace Reattributed

theorem replaced (h : Reattributed t t' id a) (hl : Linked t) (hroot : t'.rootDn = t.rootDn)
    (hid : t.dn id = .ok d) : Replaced t t' id d a where
  map := updatedAt_of_entryAt? (h.entryAt?_eq hl hroot hid)
  entry := by
    obtain ⟨n, hn⟩ := hl.dn_live hid
    refine (h.linked hl).entry_eq_ok_iff.mpr ⟨(h.dn_eq hl hroot id).mpr hid, ?_⟩
    rw [h id, if_pos rfl, hn]
    exact ⟨_, rfl, rfl⟩
  lists x := by
    apply children_congr
    rw [h x]
    split <;> cases t.node? x <;> rfl
  others x hx := by
    apply entry_congr hl (h.linked hl) fun dx => h.dn_eq hl hroot x
    rw [h x, if_neg hx]

end Reattributed

/-! ## The calls -/

theorem addChild_taken (h : WellFormed t) (hid : t.dn id = .ok d)
    (htaken : t.attributesAt? (d.child r) ≠ none) (a : AttributeMap) :
    (DirectoryTree.addChild id r a).run t = (.error (.alreadyExists (d.child r)), t) := by
  obtain ⟨c, s, hp, hs⟩ := (h.linked.child_taken_iff hid).mp htaken
  obtain ⟨ws, hw, rfl⟩ := h.linked.dn_eq_ok_iff.mp hid
  rw [run_addChild h, Edit.run_change]
  rcases addChild_cases h hw r a with ⟨-, herr⟩ | ⟨hfree, -⟩
  · rw [herr]
    rfl
  · rw [hfree hp] at hs
    cases hs

theorem addChild_free (h : WellFormed t) (hid : t.dn id = .ok d)
    (hnone : t.attributesAt? (d.child r) = none) (a : AttributeMap) :
    ∃ new t', (DirectoryTree.addChild id r a).run t = (.ok new, t') ∧
      Added t t' id new (d.child r) a := by
  obtain ⟨ws, hw, -⟩ := h.linked.dn_eq_ok_iff.mp hid
  rcases addChild_cases h hw r a with ⟨hp, -⟩ | ⟨hfree, new, t', hadd, heff, hf⟩
  · exact absurd hnone ((h.linked.child_taken_iff hid).mpr hp)
  · refine ⟨new, t', ?_, heff.added h.linked hfree hf.rootDn hid⟩
    rw [run_addChild h, Edit.run_change, hadd]

theorem deleteChild_missing (h : WellFormed t) (hid : t.dn id = .ok d)
    (hnone : t.attributesAt? (d.child r) = none) :
    (DirectoryTree.deleteChild id r).run t = (.error (.notFound (d.child r)), t) := by
  have hfree : ¬ ∃ c s, Placed t c id s ∧ s.same r = true := fun hc =>
    (h.linked.child_taken_iff hid).mpr hc hnone
  obtain ⟨ws, hw, rfl⟩ := h.linked.dn_eq_ok_iff.mp hid
  rw [run_deleteChild h, Edit.run_change]
  rcases deleteChild_cases h hw r with ⟨-, herr⟩ | ⟨c, s, hp, hs, -⟩
  · rw [herr]
    rfl
  · exact absurd ⟨c, s, hp, hs⟩ hfree

theorem deleteChild_inner {d' : Dn} (h : WellFormed t) (hid : t.dn id = .ok d)
    (hc : (d.child r).contains d' = true) (hne : (d.child r).same d' = false)
    (hd' : t.attributesAt? d' ≠ none) :
    ∃ dc, dc.same (d.child r) = true ∧
      (DirectoryTree.deleteChild id r).run t = (.error (.notLeaf dc), t) := by
  have hl := h.linked
  -- a node below a name has a node of that name above it
  obtain ⟨f, hf⟩ := exists_entryAt? hd'
  have hpre := Dn.contains_iff.mp hc
  rw [Dn.key_child] at hpre
  obtain ⟨c, s, hp, hkey⟩ := hl.exists_child hid hf hpre
  have hs : s.same r = true := Rdn.same_iff.mpr hkey
  have hdc := hl.dn_of_placed hp hid
  have hsame : (d.child s).same (d.child r) = true := by
    rw [Dn.same_iff, Dn.key_child, Dn.key_child, hkey]
  have hbelow : (d.child s).contains d' = true :=
    Dn.contains_trans (Dn.contains_of_same hsame) hc
  have hother : (d.child s).same d' = false := by
    rw [Dn.same, Dn.same_iff.mp hsame]
    exact hne
  have hinner := hl.exists_placed_of_below hdc hbelow hother hd'
  refine ⟨d.child s, hsame, ?_⟩
  obtain ⟨ws, hw, rfl⟩ := hl.dn_eq_ok_iff.mp hid
  rw [run_deleteChild h, Edit.run_change]
  rcases deleteChild_cases h hw r with ⟨hfree, -⟩ | ⟨c', s', hp', hs', hcases⟩
  · rw [hfree hp] at hs
    cases hs
  · obtain rfl : c' = c := hl.distinct hp' hp
      (Rdn.same_iff.mpr ((Rdn.same_iff.mp hs').trans hkey.symm))
    obtain ⟨-, rfl⟩ := hp'.unique hp
    rcases hcases with ⟨-, herr⟩ | ⟨hleaf, -⟩
    · rw [herr]
      rfl
    · obtain ⟨y, u, hy⟩ := hinner
      exact absurd hy hleaf

theorem deleteChild_leaf (h : WellFormed t) (hid : t.dn id = .ok d)
    (htaken : t.attributesAt? (d.child r) ≠ none)
    (hleaf : ∀ d', (d.child r).contains d' = true → t.attributesAt? d' ≠ none →
      (d.child r).same d' = true) :
    ∃ gone t', (DirectoryTree.deleteChild id r).run t = (.ok (), t') ∧
      Deleted t t' id gone (d.child r) := by
  have hl := h.linked
  obtain ⟨c, s, hp, hs⟩ := (hl.child_taken_iff hid).mp htaken
  obtain ⟨ws, hw, -⟩ := hl.dn_eq_ok_iff.mp hid
  rcases deleteChild_cases h hw r with
    ⟨hfree, -⟩ | ⟨c', s', hp', hs', ⟨⟨y, u, hy⟩, -⟩ | ⟨-, t', hdel, heff, hf⟩⟩
  · rw [hfree hp] at hs
    cases hs
  · have hdy := hl.dn_of_placed hy (hl.dn_of_placed hp' hid)
    have hkey : ((d.child s').child u).key = (d.child r).key ++ [u.key] := by
      rw [Dn.key_child, Dn.key_child, Dn.key_child, Rdn.same_iff.mp hs']
    have hsame := hleaf _ (Dn.contains_iff.mpr (hkey ▸ List.prefix_append _ _))
      (hl.attributesAt?_ne_none_iff.mpr ⟨y, _, hdy, Dn.same_refl _⟩)
    rw [Dn.same_iff, hkey] at hsame
    simp at hsame
  · refine ⟨c', t', ?_, heff.deleted hl hf.rootDn hp' hs' hid⟩
    rw [run_deleteChild h, Edit.run_change, hdel]

theorem setAttributes_replaces (h : WellFormed t) (hid : t.dn id = .ok d) (a : AttributeMap) :
    ∃ t', (DirectoryTree.setAttributes id a).run t = (.ok (), t') ∧ Replaced t t' id d a := by
  obtain ⟨n, hn⟩ := h.linked.dn_live hid
  obtain ⟨t', hset, heff, hf⟩ := setAttributes_live h hn a
  refine ⟨t', ?_, heff.replaced h.linked hf.rootDn hid⟩
  rw [run_setAttributes, Edit.run_change, hset]

theorem modify_eq (h : Linked t) (he : t.entry id = .ok e) (edits : List Modification) :
    (Tree.modify id edits).run t =
      match Modification.applyAll edits e.attributes with
      | (_, some err) => (.error (.entry err), t)
      | (a, none) => (DirectoryTree.setAttributes id a).run t := by
  obtain ⟨-, n, hn, ha⟩ := h.entry_eq_ok_iff.mp he
  refine (modify_of_node h hn edits).trans ?_
  cases hall : Modification.applyAll edits n.attributes with
  | mk a fault => cases fault <;> simp only [← ha, hall]

theorem delete_other (h : WellFormed t) (hid : t.dn id = .ok d) (hne : id ≠ rootId) :
    ∃ up f r, t.parent id = .ok (some up) ∧ t.entry up = .ok f ∧ d = f.dn.child r ∧
      (Tree.delete id).run t = (DirectoryTree.deleteChild up r).run t := by
  have hl := h.linked
  rcases hl.dn_cases hid with ⟨hroot, -⟩ | ⟨up, r, dup, hp, hup, rfl⟩
  · exact absurd hroot hne
  · obtain ⟨attrs, hf⟩ := hl.exists_entry hup
    obtain ⟨ws, hw, -⟩ := hl.dn_eq_ok_iff.mp hup
    exact ⟨up, _, r, parent_of_placed hp, hf, rfl, delete_of_placed hl hp hw⟩

theorem WellFormed.actsAsMap (h : WellFormed t) : ActsAsMap t where
  view _ _ := h.linked.attributesAt?_eq_some_iff
  live _ _ hn := h.linked.entry_eq_ok hn
  addTaken _ _ _ a he htaken := addChild_taken h (h.linked.entry_eq_ok_iff.mp he).1 htaken a
  addFree _ _ _ a he hnone := addChild_free h (h.linked.entry_eq_ok_iff.mp he).1 hnone a
  deleteMissing _ _ _ he hnone := deleteChild_missing h (h.linked.entry_eq_ok_iff.mp he).1 hnone
  deleteInner _ _ _ _ he hc hne hd :=
    deleteChild_inner h (h.linked.entry_eq_ok_iff.mp he).1 hc hne hd
  deleteLeaf _ _ _ he htaken hleaf :=
    deleteChild_leaf h (h.linked.entry_eq_ok_iff.mp he).1 htaken hleaf
  deleteRoot := delete_root h.linked
  deleteOther _ _ he hne := delete_other h (h.linked.entry_eq_ok_iff.mp he).1 hne
  setAttributes _ _ a he := setAttributes_replaces h (h.linked.entry_eq_ok_iff.mp he).1 a
  modifyApplied _ _ edits a he happly := by
    rw [modify_eq h.linked he, happly]
    exact setAttributes_replaces h (h.linked.entry_eq_ok_iff.mp he).1 a
  modifyRefused _ _ edits _ _ he happly := by rw [modify_eq h.linked he, happly]

/-- After any calls a tree is a map from the names of its nodes to their attributes, which the
    next call changes at one name or not at all. -/
theorem afterCalls_actsAsMap (e : Entry) (calls : List (NodeId × Call)) :
    ActsAsMap (Tree.afterCalls calls (ofRoot e)) :=
  (wellFormed_afterCalls (wellFormed_ofRoot e) calls).actsAsMap

/-- What was moved below a node in a slot that another one had before keeps that node from being
    deleted, and is a leaf itself. -/
theorem afterCalls_actsAsMap_reused :
    let e : Entry := ⟨⟨[.single "dc" "x"]⟩, .empty⟩
    let calls : List (NodeId × Call) := [(rootId, .addChild (.single "ou" "a") .empty),
      (⟨1, 0⟩, .delete), (rootId, .addChild (.single "ou" "b") .empty),
      (rootId, .addChild (.single "ou" "c") .empty),
      (⟨2, 0⟩, .moveTo ⟨[.single "cn" "d", .single "OU" "b", .single "dc" "x"]⟩)]
    let t := Tree.afterCalls calls (ofRoot e)
    let up : Dn := ⟨[.single "ou" "b", .single "dc" "x"]⟩
    let r : Rdn := .single "CN" "d"
    t.entry rootId = .ok e ∧ t.entry ⟨1, 1⟩ = .ok ⟨up, .empty⟩ ∧
      t.attributesAt? (up.child r) ≠ none ∧
      (∃ d, d.same up = true ∧ (DirectoryTree.deleteChild rootId (.single "OU" "b")).run t =
        (.error (.notLeaf d), t)) ∧
      ∃ gone t', (DirectoryTree.deleteChild ⟨1, 1⟩ r).run t = (.ok (), t') ∧
        Deleted t t' ⟨1, 1⟩ gone (up.child r) := by
  intro e calls t up r
  have hroot : t.entry rootId = .ok e := by decide +kernel
  have hup : t.entry ⟨1, 1⟩ = .ok ⟨up, .empty⟩ := by decide +kernel
  have hheld : t.attributesAt? (up.child r) ≠ none := by decide +kernel
  have hdeleted : ((DirectoryTree.deleteChild ⟨1, 1⟩ r).run t).1 = .ok () := by decide +kernel
  have h := afterCalls_actsAsMap e calls
  refine ⟨hroot, hup, hheld,
    h.deleteInner rootId e (.single "OU" "b") _ hroot (by decide) (by decide) hheld,
    h.deleteLeaf _ _ r hup hheld fun d hbelow hd => ?_⟩
  -- what stands below the child would keep it from being deleted
  by_contra hsame
  obtain ⟨_, -, hrun⟩ := h.deleteInner _ _ r d hup hbelow (by simpa using hsame) hd
  rw [hrun] at hdeleted
  cases hdeleted

end MemoryTree
end DirectoryStore
