import DirectoryStore.Proofs.Memory.Grafting
import DirectoryStore.Proofs.Tree.Exchange
import DirectoryStore.Tree.Load

/-!
# Trees that are written and loaded again

The entries that a walk through a tree finds, each after that of its parent, rebuild the tree
when they are loaded one after another: at any time the tree that is built holds the parent of
the next entry and no sibling of its name.  Between the two trees the entries may be a document,
if names and attribute types can be written.
-/

namespace DirectoryStore

namespace MemoryTree

variable {s t t' t₀ : MemoryTree} {base id x up : NodeId} {n m : MemoryNode} {r : Rdn} {d : Dn}
variable {e : Entry} {es : List Entry} {l pre post : List NodeId} {f : NodeId → NodeId}

/-- `t'` is `t` with other handles: `f` takes each node of `t` to the node of `t'` that has the
    same entry, to the letter, and the same children in the same order. -/
structure Replica (t t' : MemoryTree) (f : NodeId → NodeId) : Prop where
  root : f rootId = rootId
  entry : ∀ x n, t.node? x = some n → ∃ e, t.entry x = .ok e ∧ t'.entry (f x) = .ok e
  children : ∀ x n, t.node? x = some n →
    ∃ l, t.children x = .ok l ∧ t'.children (f x) = .ok (l.map f)
  injective : ∀ x y n m, t.node? x = some n → t.node? y = some m → f x = f y → x = y
  onto : ∀ y m, t'.node? y = some m → ∃ x n, t.node? x = some n ∧ f x = y

/-! ## Loading entry by entry -/

/-- The entry of a node whose parent has been copied is added there. -/
theorem Grafted.run_loadEntry (h : Grafted s base pre f d t₀ t) (hs : Linked s)
    (hd : s.dn base = .ok d) (he : s.entry x = .ok e) (hnew : x ∉ pre) (hp : Placed s x up r)
    (hup : up ∈ pre) : ∃ new t', (Tree.loadEntry (f base) d e).run t = (.ok (), t') ∧
      Grafted s base (pre ++ [x]) (Function.update f x new) d t₀ t' := by
  have hl := h.wellFormed.linked
  obtain ⟨us, hus, hus'⟩ := h.way up hup
  obtain ⟨hdn, n, hx, hattributes⟩ := hs.entry_eq_ok_iff.mp he
  have hname : e.dn = ⟨r :: (us ++ d.rdns)⟩ := by
    rw [hs.dn_append hd (.step hp hus)] at hdn
    exact (Except.ok.inj hdn).symm
  have hother : e.dn.same d = false := by
    rw [Bool.eq_false_iff]
    intro hsame
    have hsize := Dn.size_eq_of_same hsame
    simp only [hname, Dn.size, List.length_cons, List.length_append] at hsize
    omega
  have hlookup : Tree.lookup t (f base) ⟨us ++ d.rdns⟩ = .ok (f up) := by
    refine (hl.lookup_iff h.dn).mpr ⟨_, hl.dn_append h.dn hus', ?_, Dn.same_refl _⟩
    rw [Dn.contains_iff, Dn.key_append]
    exact List.prefix_append _ _
  obtain ⟨new, t', hadd, hgrafted⟩ := h.add hs hx hnew hp hup
  refine ⟨new, t', ?_, hgrafted⟩
  have hgrow : (DirectoryTree.addChild (f up) r e.attributes).run t = (.ok new, t') := by
    rw [run_addChild h.wellFormed, Edit.run_change, ← hattributes, hadd]
  have habove : Tree.above e.dn = .ok ⟨us ++ d.rdns⟩ := by rw [hname]; rfl
  have hleaf : Tree.leaf e.dn = .ok r := by rw [hname]; rfl
  rw [Tree.loadEntry, hother]
  simp only [Bool.false_eq_true, if_false, Edit.run_bind, Edit.run_ofExcept, Edit.run_look, habove,
    hleaf, hlookup, hgrow, Edit.run_pure]

/-- The entries of the rest of a walk complete the copy of what the walk goes through. -/
theorem Grafted.run_loadEntries (h : Grafted s base pre f d t₀ t) (hs : Linked s)
    (hd : s.dn base = .ok d) (hl : Tree.subtree s base = .ok (pre ++ post))
    (hes : List.Forall₂ (fun x e => s.entry x = .ok e) post es) :
    ∃ f' t', (Tree.loadEntries (f base) d es).run t = (.ok (), t') ∧ f' base = f base ∧
      Grafted s base (pre ++ post) f' d t₀ t' := by
  obtain ⟨k, hk⟩ := hs.dn_live hd
  induction hes generalizing pre f t with
  | nil =>
      rw [List.append_nil]
      exact ⟨f, t, rfl, rfl, h⟩
  | @cons x e post es he _ ih =>
      obtain ⟨l, hl', hnd, -⟩ := hs.subtree_eq_ok hk
      rw [hl] at hl'
      cases hl'
      have hnew : x ∉ pre := fun hx =>
        (List.nodup_append.mp hnd).2.2 x hx x List.mem_cons_self rfl
      obtain ⟨up, r, hp, hup⟩ := hs.parent_before hk hl (List.ne_nil_of_mem h.base_mem)
      obtain ⟨new, t₁, hrun, hgrafted⟩ := h.run_loadEntry hs hd he hnew hp hup
      have hne : base ≠ x := by
        rintro rfl
        exact hnew h.base_mem
      have hbase : Function.update f x new base = f base := Function.update_of_ne hne new f
      rw [List.append_cons] at hl ⊢
      obtain ⟨f', t', hrest, hf', hall⟩ := ih hgrafted hl
      rw [hbase] at hrest hf'
      refine ⟨f', t', ?_, hf', hall⟩
      simp only [Tree.loadEntries, Edit.run_bind, hrun, hrest]

/-- The entries of all nodes of a walk, loaded at a node of the same name without children, make
    a copy there of what the walk goes through. -/
theorem Linked.run_loadEntries (hs : Linked s) (hd : s.dn base = .ok d)
    (hl : Tree.subtree s base = .ok l) (hes : List.Forall₂ (fun x e => s.entry x = .ok e) l es)
    (h : WellFormed t) (hid : t.dn id = .ok d) (hm : t.node? id = some m)
    (hleaf : m.children = []) :
    ∃ f t', (Tree.loadEntries id d es).run t = (.ok (), t') ∧ f base = id ∧
      Grafted s base l f d t t' := by
  obtain ⟨rest, rfl⟩ := preorder_head hl
  cases hes with
  | @cons _ e _ es he hes =>
  obtain ⟨hdn, n, hn, hattributes⟩ := hs.entry_eq_ok_iff.mp he
  have hsame : e.dn.same d = true := by
    rw [hd] at hdn
    cases hdn
    exact Dn.same_refl _
  obtain ⟨t₁, hset, hgrafted⟩ := Grafted.start h hs hn hid hm hleaf
  obtain ⟨f, t', hrest, hf, hall⟩ := hgrafted.run_loadEntries hs hd hl hes
  refine ⟨f, t', ?_, hf, hall⟩
  have hfirst : (Tree.loadEntry id d e).run t = (.ok (), t₁) := by
    rw [Tree.loadEntry, if_pos hsame, run_setAttributes, Edit.run_change, ← hattributes, hset]
  simp only [Tree.loadEntries, Edit.run_bind, hfirst, hrest]

/-! ## Replicas -/

/-- Entries whose names and types can be written come back from their document. -/
theorem parseEntries_written (h : ∀ e ∈ es, e.dn.Legible ∧ e.attributes.Writable) :
    Ldif.parseEntries (Ldif.writeEntries es) = .ok es := by
  have hreadable : ∀ e ∈ es, e.Readable := fun e he =>
    ⟨(h e he).1, fun set hset => ((h e he).2 set hset).lineName⟩
  have hstable : ∀ e ∈ es, e.Stable := fun e he set hset =>
    ((h e he).2 set hset).isMarked_eq_false
  rw [Ldif.parseEntries_unmarked hreadable, Ldif.map_unmarked_eq_iff.mpr hstable]

/-- A copy of a whole tree, in a tree that has nothing else, is a replica. -/
theorem Grafted.replica (h : Grafted s rootId l f d t₀ t) (hs : Linked s)
    (hl : Tree.subtree s rootId = .ok l) (hd : s.dn rootId = .ok d) (hroot : f rootId = rootId)
    (halone : ∀ y, y ≠ rootId → t₀.node? y = none) : Replica s t f := by
  obtain ⟨k, hk, -⟩ := hs.root
  obtain ⟨l', hl', -, hmem⟩ := hs.subtree_eq_ok hk
  rw [hl] at hl'
  cases hl'
  have hin : ∀ {x n}, s.node? x = some n → x ∈ l := fun hn => (hmem _).mpr (hs.grounded hn)
  refine ⟨hroot, fun x n hn => ?_, fun x n hn => ?_, ?_, fun y m hm => ?_⟩
  · obtain ⟨qs, hq, hq'⟩ := h.way x (hin hn)
    obtain ⟨m, hm, hattributes, -⟩ := h.node x (hin hn) n hn
    refine ⟨⟨⟨qs ++ d.rdns⟩, n.attributes⟩, ?_, ?_⟩
    · exact hs.entry_eq_ok_iff.mpr ⟨hs.dn_append hd hq, n, hn, rfl⟩
    · exact h.wellFormed.linked.entry_eq_ok_iff.mpr
        ⟨h.wellFormed.linked.dn_append h.dn hq', m, hm, hattributes⟩
  · obtain ⟨m, hm, -, hchildren⟩ := h.node x (hin hn) n hn
    rw [hs.filter_subtree hk hl (hin hn) hn] at hchildren
    exact ⟨n.children, children_eq_ok hn, by rw [children_eq_ok hm, hchildren]⟩
  · exact fun x y n m hn hm => h.inj hs (hin hn) (hin hm)
  · by_contra hnone
    have hother : ∀ x ∈ l, f x ≠ y := by
      intro x hx hxy
      obtain ⟨qs, hq⟩ := (hmem x).mp hx
      obtain ⟨n, hn⟩ := hq.live
      exact hnone ⟨x, n, hn, hxy⟩
    have hne : y ≠ rootId := fun hy => hother rootId h.base_mem (hroot.trans hy.symm)
    rw [h.others y hother, halone y hne] at hm
    cases hm

/-- After any calls that leave names and types that can be written: the document of all entries,
    in the order of a walk from the root, loads into the tree of the root's name alone.  As many
    entries are counted as the tree has nodes, and the new tree is a replica. -/
theorem loadLdif_writeEntries (e : Entry) (calls : List (NodeId × Call))
    (hw : Tree.Writable (Tree.afterCalls calls (ofRoot e))) :
    let t := Tree.afterCalls calls (ofRoot e)
    ∃ es t' f, Tree.entriesBelow t (TreeView.root t) = .ok es ∧
      (Tree.loadLdif rootId (Ldif.writeEntries es)).run (ofDn e.dn) = (.ok t.nodeCount, t') ∧
      Replica t t' f := by
  intro t
  have h := wellFormed_afterCalls (wellFormed_ofRoot e) calls
  have hs : Linked t := h.linked
  have hd : t.dn rootId = .ok e.dn := by
    rw [hs.dn_root, rootDn_afterCalls (wellFormed_ofRoot e)]
    rfl
  obtain ⟨l, hl, hnd, hcount, hlive, -⟩ := h.consistent.walk
  obtain ⟨es, hes, hfound⟩ := hs.exists_entries fun x hx => (hlive x).mp hx
  have hstart : WellFormed (ofDn e.dn) := wellFormed_ofRoot ⟨e.dn, .empty⟩
  have hroot : (ofDn e.dn).node? rootId = some ⟨none, .empty, []⟩ := by
    rw [ofDn, node?_ofRoot, if_pos rfl]
  have hdn : (ofDn e.dn).dn rootId = .ok e.dn := hstart.linked.dn_root
  obtain ⟨f, t', hrun, hf, hgrafted⟩ := hs.run_loadEntries hd hl hes hstart hdn hroot rfl
  refine ⟨es, t', f, ?_, ?_, ?_⟩
  · have hsubtree : Tree.subtree t (TreeView.root t) = .ok l := hl
    rw [Tree.entriesBelow, hsubtree]
    exact Tree.mapM_eq_ok hes
  · have hparse : Ldif.parseEntries (Ldif.writeEntries es) = .ok es := by
      refine parseEntries_written fun e' he' => ?_
      obtain ⟨x, hx⟩ := hfound e' he'
      exact hs.writable_entry hw hx
    have hbase : TreeView.dn (ofDn e.dn) rootId = .ok e.dn := hdn
    simp only [Tree.loadLdif, Edit.run_bind, Edit.run_look, hbase, hparse, hrun, Edit.run_pure]
    rw [← hes.length_eq, hcount]
  · refine hgrafted.replica hs hl hd hf fun y hy => ?_
    exact (node?_ofRoot _ y).trans (if_neg hy)

/-- A tree in which a node with a child has moved behind a younger one, and a slot is free. -/
theorem loadLdif_writeEntries_moved :
    let e : Entry := ⟨⟨[.single "DC" "x"]⟩, .ofPairs [("o", [[0x0A]])]⟩
    let calls : List (NodeId × Call) := [(rootId, .addChild (.single "ou" "a") .empty),
      (⟨1, 0⟩, .addChild ⟨⟨"cn", "b+c"⟩, [⟨"SN", " "⟩]⟩ (.ofPairs [("Mail", [[0xFF], []])])),
      (rootId, .addChild (.single "ou" "gone") .empty),
      (rootId, .addChild (.single "Ou" "d") .empty),
      (⟨3, 0⟩, .delete), (⟨1, 0⟩, .moveTo ⟨[.single "OU" "e", .single "ou" "d", .single "dc" "x"]⟩)]
    let t := Tree.afterCalls calls (ofRoot e)
    Tree.Writable t ∧ ∃ es t' f, Tree.entriesBelow t (TreeView.root t) = .ok es ∧
      (Tree.loadLdif rootId (Ldif.writeEntries es)).run (ofDn e.dn) = (.ok t.nodeCount, t') ∧
      Replica t t' f := by
  intro e calls t
  have hw : Tree.Writable t :=
    Tree.writable_of_walk (l := [rootId, ⟨4, 0⟩, ⟨1, 0⟩, ⟨2, 0⟩]) (by decide +kernel)
      (by decide +kernel)
  exact ⟨hw, loadLdif_writeEntries e calls hw⟩

end MemoryTree
end DirectoryStore
