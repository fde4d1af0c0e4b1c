import DirectoryStore.Proofs.Memory.Outcome
import DirectoryStore.Proofs.Tree.Calls

/-!
# Runs of a tree in memory

Every call of every handle keeps a tree well-formed, whether it fails or not, so all trees
that a run reaches are well-formed.  For these the slots, the links and the walks agree, and
the table is as long as the tree was large at its largest.
-/

namespace DirectoryStore
namespace MemoryTree

variable {t t' : MemoryTree} {id up : NodeId} {n : MemoryNode} {r s : Rdn} {us : List Rdn}

/-! ## Deletion by handle and modification -/

theorem delete_stale (hn : t.node? id = none) :
    (Tree.delete id).run t = (.error .staleHandle, t) := by
  have hdn : TreeView.dn t id = .error .staleHandle := dn_eq_error hn
  simp [Tree.delete, hdn]

theorem delete_root (h : Linked t) :
    (Tree.delete rootId).run t = (.error (.rootStays t.rootDn), t) := by
  have hdn : TreeView.dn t rootId = .ok ⟨[] ++ t.rootDn.rdns⟩ := h.dn_of_way h.root_way
  have hpar : TreeView.parent t rootId = .ok none := parent_root h
  simp [Tree.delete, hdn, hpar]

theorem delete_of_placed (h : Linked t) (hp : Placed t id up s) (hw : Way t rootId up us) :
    (Tree.delete id).run t = (DirectoryTree.deleteChild up s).run t := by
  have hdn : TreeView.dn t id = .ok ⟨s :: us ++ t.rootDn.rdns⟩ := h.dn_of_way (.step hp hw)
  have hpar : TreeView.parent t id = .ok (some up) := parent_of_placed hp
  simp [Tree.delete, hdn, hpar, Tree.leaf, Dn.leaf?]

theorem entry_of_way (h : Linked t) (hw : Way t rootId id us) (hn : t.node? id = some n) :
    t.entry id = .ok ⟨⟨us ++ t.rootDn.rdns⟩, n.attributes⟩ := by
  simp only [entry, node_eq_ok hn, h.dn_of_way hw]

theorem entry_stale (hn : t.node? id = none) : t.entry id = .error .staleHandle := by
  simp only [entry, node_eq_error hn]

theorem modify_stale (hn : t.node? id = none) (edits : List Modification) :
    (Tree.modify id edits).run t = (.error .staleHandle, t) := by
  have hentry : TreeView.entry t id = .error .staleHandle := entry_stale hn
  simp [Tree.modify, hentry]

theorem modify_of_node (h : Linked t) (hn : t.node? id = some n) (edits : List Modification) :
    (Tree.modify id edits).run t =
      match Modification.applyAll edits n.attributes with
      | (_, some e) => (.error (.entry e), t)
      | (attributes, none) => (DirectoryTree.setAttributes id attributes).run t := by
  obtain ⟨ws, hw⟩ := h.grounded hn
  have hentry : TreeView.entry t id = .ok ⟨⟨ws ++ t.rootDn.rdns⟩, n.attributes⟩ :=
    entry_of_way h hw hn
  simp only [Tree.modify, Edit.run_bind, Edit.run_look, hentry]
  split <;> simp_all

/-! ## Edits step by step -/

theorem run_alter (hn : t.node? id = some n) (f : MemoryNode → MemoryNode) :
    (alter id f).run t = (.ok (), t.modifyNode id f) := by
  simp [alter, node_eq_ok hn]

theorem alter_stale (hn : t.node? id = none) (f : MemoryNode → MemoryNode) :
    (alter id f).run t = (.error .staleHandle, t) := by
  simp [alter, node_eq_error hn]

theorem grow_stale (hn : t.node? id = none) (r : Rdn) (attrs : AttributeMap) :
    (grow id r attrs).run t = (.error .staleHandle, t) := by
  simp only [grow, Edit.run_bind, Edit.run_look, dn_eq_error hn]

theorem prune_stale (hn : t.node? id = none) (r : Rdn) :
    (prune id r).run t = (.error .staleHandle, t) := by
  simp only [prune, Edit.run_bind, Edit.run_look, child_eq_error hn]

theorem relink_stale (hn : t.node? id = none) (target : Dn) :
    (relink id target).run t = (.error .staleHandle, t) := by
  simp only [relink, Edit.run_bind, Edit.run_look, dn_eq_error hn]

theorem run_setAttributes (id : NodeId) (attrs : AttributeMap) :
    (DirectoryTree.setAttributes id attrs).run t =
      (Edit.change fun t => MemoryTree.setAttributes t id attrs).run t := by
  show (alter id _).run t = _
  rw [alter, Edit.run_change, Edit.run_change, MemoryTree.setAttributes]
  cases t.node id <;> rfl

/-- The parent that is to list a new child is still there when the child has its slot. -/
theorem run_addChild (h : WellFormed t) (id : NodeId) (r : Rdn) (attrs : AttributeMap) :
    (DirectoryTree.addChild id r attrs).run t =
      (Edit.change fun t => MemoryTree.addChild t id r attrs).run t := by
  show (grow id r attrs).run t = _
  rw [Edit.run_change]
  cases hn : t.node? id with
  | none => rw [addChild_stale hn, grow_stale hn]
  | some n =>
      obtain ⟨ws, hw⟩ := h.linked.grounded hn
      have hd := h.linked.dn_of_way hw
      rcases h.linked.child_cases hn r with ⟨c, s, hc, -, -⟩ | ⟨hc, -⟩
      · simp only [MemoryTree.addChild, hd, hc, bind, Except.bind]
        simp only [grow, Edit.run_bind, Edit.run_look, hd, hc, Edit.run_fail]
      · have hfresh := node?_insert_self h.tidy ⟨some (id, r), attrs, []⟩
        have hid := node?_insert h.tidy ⟨some (id, r), attrs, []⟩ id
        have hne : id ≠ (t.insert ⟨some (id, r), attrs, []⟩).1 := by
          intro he
          rw [← he, hn] at hfresh
          cases hfresh
        rw [if_neg hne, hn] at hid
        simp only [MemoryTree.addChild, hd, hc, bind, Except.bind]
        simp only [grow, Edit.run_bind, Edit.run_look, hd, hc, Edit.run_change, run_alter hid]
        rfl

theorem run_deleteChild (h : WellFormed t) (id : NodeId) (r : Rdn) :
    (DirectoryTree.deleteChild id r).run t =
      (Edit.change fun t => MemoryTree.deleteChild t id r).run t := by
  show (prune id r).run t = _
  rw [Edit.run_change]
  cases hn : t.node? id with
  | none => rw [deleteChild_stale hn, prune_stale hn]
  | some n =>
      obtain ⟨ws, hw⟩ := h.linked.grounded hn
      rcases h.linked.child_cases hn r with ⟨c, s, hc, hp, -⟩ | ⟨hc, -⟩
      · obtain ⟨m, hm⟩ := hp.live
        have hd := h.linked.dn_of_way (.step hp hw)
        have hbelow := children_eq_ok hm
        simp only [MemoryTree.deleteChild, hc, hd, hbelow, bind, Except.bind]
        simp only [prune, Edit.run_bind, Edit.run_look, hc, hd, hbelow]
        cases m.children with
        | nil =>
            simp only [List.isEmpty_nil, if_true, Edit.run_bind, run_alter hn, Edit.run_change]
            rfl
        | cons x xs => rfl
      · have hd := h.linked.dn_of_way hw
        simp only [MemoryTree.deleteChild, hc, hd, bind, Except.bind]
        simp only [prune, Edit.run_bind, Edit.run_look, hc, hd, Edit.run_fail]

/-- The three links that a move changes are changed one after another. -/
theorem run_links {newUp : NodeId} (hup : ∃ m, t.node? up = some m)
    (hnew : ∃ m, t.node? newUp = some m) (hid : ∃ m, t.node? id = some m)
    (f g k : MemoryNode → MemoryNode) :
    (do alter up f; alter newUp g; alter id k; return id : Edit MemoryTree NodeId).run t =
      (.ok id, ((t.modifyNode up f).modifyNode newUp g).modifyNode id k) := by
  obtain ⟨m, hm⟩ := hup
  have hlive : ∀ {t : MemoryTree} {x y : NodeId} {m : MemoryNode} (f : MemoryNode → MemoryNode),
      t.node? x = some m → (∃ l, t.node? y = some l) →
        ∃ l, (t.modifyNode x f).node? y = some l := by
    intro t x y m f hm hy
    rw [node?_modifyNode f hm]
    split
    · exact ⟨_, rfl⟩
    · exact hy
  obtain ⟨l, hl⟩ := hlive f hm hnew
  obtain ⟨j, hj⟩ := hlive g hl (hlive f hm hid)
  simp only [Edit.run_bind, run_alter hm, run_alter hl, run_alter hj, Edit.run_pure]

/-- A move takes nothing away of what its later steps need. -/
theorem run_moveTo (h : WellFormed t) (id : NodeId) (target : Dn) :
    (DirectoryTree.moveTo id target).run t =
      (Edit.change fun t => MemoryTree.moveTo t id target).run t := by
  show (relink id target).run t = _
  rw [Edit.run_change]
  cases hn : t.node? id with
  | none => rw [moveTo_stale hn, relink_stale hn]
  | some n =>
      obtain ⟨ws, hw⟩ := h.linked.grounded hn
      have hd := h.linked.dn_of_way hw
      cases hw with
      | here _ =>
          have hpar := parent_root h.linked
          simp only [MemoryTree.moveTo, hd, hpar, bind, Except.bind]
          simp only [relink, Edit.run_bind, Edit.run_look, hd, hpar, Edit.run_fail]
      | step hp hup =>
          have hpar := parent_of_placed hp
          simp only [MemoryTree.moveTo, hd, hpar, bind, Except.bind]
          simp only [relink, Edit.run_bind, Edit.run_look, hd, hpar]
          split
          · rfl
          split
          · rfl
          simp only [Edit.run_bind, Edit.run_ofExcept, Edit.run_look]
          cases Tree.above target with
          | error e => rfl
          | ok above =>
              rcases h.linked.lookup_root_cases above with ⟨newUp, vs, hlook, hnew, -⟩ | ⟨hlook, -⟩
              · simp only [hlook]
                cases Tree.leaf target with
                | error e => rfl
                | ok r =>
                    obtain ⟨m, hm⟩ := hnew.live
                    rcases h.linked.child_cases hm r with ⟨c, s, hc, -, -⟩ | ⟨hc, -⟩
                    · simp only [hc]
                      rfl
                    · simp only [hc, Option.isSome_none, Bool.false_eq_true, if_false]
                      exact run_links hup.live ⟨m, hm⟩ ⟨n, hn⟩ _ _ _
              · simp only [hlook]

/-! ## One call -/

/-- A call of a handle whose node is gone fails and changes nothing. -/
theorem call_stale (hn : t.node? id = none) (c : Call) :
    (Tree.call id c).run t = (.error .staleHandle, t) := by
  cases c with
  | addChild r attrs =>
      have hgrow : (DirectoryTree.addChild id r attrs).run t = _ := grow_stale hn r attrs
      rw [Tree.call, Edit.run_bind, hgrow]
  | deleteChild r => exact prune_stale hn r
  | delete => exact delete_stale hn
  | setAttributes attrs => exact alter_stale hn _
  | modify edits => exact modify_stale hn edits
  | moveTo target =>
      have hrelink : (DirectoryTree.moveTo id target).run t = _ := relink_stale hn target
      rw [Tree.call, Edit.run_bind, hrelink]

/-- What a call can do: nothing, or what one of the operations does that succeeds. -/
theorem call_cases (h : WellFormed t) (id : NodeId) (c : Call) {t' : MemoryTree}
    (hc : ((Tree.call id c).run t).2 = t') :
    t' = t ∨ (∃ up r attrs new, t.addChild up r attrs = .ok (new, t')) ∨
    (∃ up r, t.deleteChild up r = .ok ((), t')) ∨
    (∃ x attrs, t.setAttributes x attrs = .ok ((), t')) ∨
    ∃ x target new, t.moveTo x target = .ok (new, t') := by
  have hdelete : ∀ {up r}, ((DirectoryTree.deleteChild up r).run t).2 = t' →
      t' = t ∨ ∃ up r, t.deleteChild up r = .ok ((), t') := by
    intro up r hc
    rw [run_deleteChild h] at hc
    rcases Edit.snd_change t (fun t => MemoryTree.deleteChild t up r) with hsame | ⟨⟨⟩, hok⟩
    · exact .inl (hc.symm.trans hsame)
    · exact .inr ⟨up, r, hc ▸ hok⟩
  have hset : ∀ {x attrs}, ((DirectoryTree.setAttributes x attrs).run t).2 = t' →
      t' = t ∨ ∃ x attrs, t.setAttributes x attrs = .ok ((), t') := by
    intro x attrs hc
    rw [run_setAttributes] at hc
    rcases Edit.snd_change t (fun t => MemoryTree.setAttributes t x attrs) with hsame | ⟨⟨⟩, hok⟩
    · exact .inl (hc.symm.trans hsame)
    · exact .inr ⟨x, attrs, hc ▸ hok⟩
  cases hn : t.node? id with
  | none =>
      rw [call_stale hn c] at hc
      exact .inl hc.symm
  | some n =>
  obtain ⟨ws, hw⟩ := h.linked.grounded hn
  cases c with
  | addChild r attrs =>
      rw [Tree.call, Edit.snd_discard, run_addChild h] at hc
      rcases Edit.snd_change t (fun t => MemoryTree.addChild t id r attrs) with hsame | ⟨new, hok⟩
      · exact .inl (hc.symm.trans hsame)
      · exact .inr (.inl ⟨id, r, attrs, new, hc ▸ hok⟩)
  | deleteChild r => exact (hdelete hc).imp_right fun hok => .inr (.inl hok)
  | delete =>
      rw [Tree.call] at hc
      cases hw with
      | here _ =>
          rw [delete_root h.linked] at hc
          exact .inl hc.symm
      | step hp hup =>
          rw [delete_of_placed h.linked hp hup] at hc
          exact (hdelete hc).imp_right fun hok => .inr (.inl hok)
  | setAttributes attrs => exact (hset hc).imp_right fun hok => .inr (.inr (.inl hok))
  | modify edits =>
      rw [Tree.call, modify_of_node h.linked hn] at hc
      split at hc
      · exact .inl hc.symm
      · exact (hset hc).imp_right fun hok => .inr (.inr (.inl hok))
  | moveTo target =>
      rw [Tree.call, Edit.snd_discard, run_moveTo h] at hc
      rcases Edit.snd_change t (fun t => MemoryTree.moveTo t id target) with hsame | ⟨new, hok⟩
      · exact .inl (hc.symm.trans hsame)
      · exact .inr (.inr (.inr (.inr ⟨id, target, new, hc ▸ hok⟩)))

/-! ## One call keeps a tree well-formed -/

theorem addChild_follows (h : WellFormed t) {attrs : AttributeMap} {new : NodeId}
    (hok : t.addChild id r attrs = .ok (new, t')) : Follows t t' := by
  cases hn : t.node? id with
  | none =>
      rw [addChild_stale hn] at hok
      cases hok
  | some n =>
      obtain ⟨ws, hw⟩ := h.linked.grounded hn
      rcases addChild_cases h hw r attrs with ⟨-, herr⟩ | ⟨-, new', t₁, hadd, -, hf⟩
      · rw [herr] at hok
        cases hok
      · rw [hadd] at hok
        cases hok
        exact hf

theorem deleteChild_follows (h : WellFormed t) (hok : t.deleteChild id r = .ok ((), t')) :
    Follows t t' := by
  cases hn : t.node? id with
  | none =>
      rw [deleteChild_stale hn] at hok
      cases hok
  | some n =>
      obtain ⟨ws, hw⟩ := h.linked.grounded hn
      rcases deleteChild_cases h hw r with
        ⟨-, herr⟩ | ⟨c, s, -, -, ⟨-, herr⟩ | ⟨-, t₁, hdel, -, hf⟩⟩
      · rw [herr] at hok
        cases hok
      · rw [herr] at hok
        cases hok
      · rw [hdel] at hok
        cases hok
        exact hf

theorem setAttributes_follows (h : WellFormed t) {attrs : AttributeMap}
    (hok : t.setAttributes id attrs = .ok ((), t')) : Follows t t' := by
  cases hn : t.node? id with
  | none =>
      rw [setAttributes_stale hn] at hok
      cases hok
  | some n =>
      obtain ⟨t₁, hset, -, hf⟩ := setAttributes_live h hn attrs
      rw [hset] at hok
      cases hok
      exact hf

theorem moveTo_follows (h : WellFormed t) {target : Dn} {new : NodeId}
    (hok : t.moveTo id target = .ok (new, t')) : Follows t t' := by
  cases hn : t.node? id with
  | none =>
      rw [moveTo_stale hn] at hok
      cases hok
  | some n =>
      obtain ⟨ws, hw⟩ := h.linked.grounded hn
      cases hw with
      | here _ =>
          rw [moveTo_root h.linked target] at hok
          cases hok
      | step hp hup =>
          rcases moveTo_cases h hp hup target with ⟨-, herr⟩ | ⟨-, -, herr⟩ | ⟨-, -, herr⟩ |
            ⟨-, s, vs, -, ⟨-, herr⟩ | ⟨newUp, us, -, -, -, ⟨-, herr⟩ | ⟨-, t₁, hmove, -, hf⟩⟩⟩
          · rw [herr] at hok
            cases hok
          · rw [herr] at hok
            cases hok
          · rw [herr] at hok
            cases hok
          · rw [herr] at hok
            cases hok
          · rw [herr] at hok
            cases hok
          · rw [hmove] at hok
            cases hok
            exact hf

/-- Every call keeps a tree well-formed. -/
theorem call_follows (h : WellFormed t) (id : NodeId) (c : Call) :
    Follows t ((Tree.call id c).run t).2 := by
  rcases call_cases h id c rfl with hsame | ⟨up, r, attrs, new, hok⟩ | ⟨up, r, hok⟩ |
    ⟨x, attrs, hok⟩ | ⟨x, target, new, hok⟩
  · rw [hsame]
    exact .refl h
  · exact addChild_follows h hok
  · exact deleteChild_follows h hok
  · exact setAttributes_follows h hok
  · exact moveTo_follows h hok

end MemoryTree
end DirectoryStore
