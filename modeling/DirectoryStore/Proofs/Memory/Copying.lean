import DirectoryStore.Proofs.Memory.Grafting
import DirectoryStore.Proofs.Memory.Mapping
import DirectoryStore.Tree.Load

/-!
# Copies from tree to tree

A copy reads one tree while another one grows.  Each node is copied after its parent and before
its younger siblings, as a walk meets it, into a slot that was free; so the copy goes on with the
walk of what is copied, and what the target tree held before stays beside it.
-/

namespace DirectoryStore
namespace MemoryTree

variable {s t t' t₀ : MemoryTree} {base id up new x y : NodeId} {n m : MemoryNode} {r : Rdn}
variable {d : Dn} {a : AttributeMap} {pre rest l cs : List NodeId} {f f' : NodeId → NodeId}
variable {depth : Nat}

/-- A graft whose nodes are all new, but for the top, and which leaves the entries of the other
    nodes alone. -/
structure Planted (s : MemoryTree) (base : NodeId) (pre : List NodeId) (f : NodeId → NodeId)
    (d : Dn) (t₀ t : MemoryTree) : Prop extends Grafted s base pre f d t₀ t where
  fresh : ∀ x ∈ pre, x ≠ base → t₀.node? (f x) = none
  entries : ∀ y, (∀ x ∈ pre, f x ≠ y) → t.entry y = t₀.entry y

/-- The edit copies the nodes `rest` after the nodes `pre`, and counts them. -/
def GoesOn (s : MemoryTree) (base : NodeId) (pre : List NodeId) (f : NodeId → NodeId) (d : Dn)
    (t₀ t : MemoryTree) (rest : List NodeId) (x : Edit MemoryTree Nat) : Prop :=
  ∃ f' t', x.run t = (.ok rest.length, t') ∧ (∀ y ∈ pre, f' y = f y) ∧
    Planted s base (pre ++ rest) f' d t₀ t'

/-- `t'` is `t` with a copy at `id` of what lies at and below `base` in `s`, which a walk meets as
    `l`: the node `x` of it is copied to the node `f x`. -/
structure Copied (s : MemoryTree) (base : NodeId) (l : List NodeId) (f : NodeId → NodeId)
    (t t' : MemoryTree) (id : NodeId) : Prop where
  top : f base = id
  /-- There are no other nodes at or below `id` than the copies, and these are as many. -/
  walk : Tree.subtree t' id = .ok (l.map f)
  nodup : (l.map f).Nodup
  /-- The copy of a node has its attributes and its name, with the name of `id` in the stead of
      that of `base`; and no other node has that name. -/
  entry : ∀ x ∈ l, ∃ rs ds d attributes, s.dn base = .ok ds ∧ t.dn id = .ok d ∧
    s.entry x = .ok ⟨⟨rs ++ ds.rdns⟩, attributes⟩ ∧
    t'.entry (f x) = .ok ⟨⟨rs ++ d.rdns⟩, attributes⟩ ∧
    ∀ y dy, t'.dn y = .ok dy → dy.same ⟨rs ++ d.rdns⟩ = true → y = f x
  /-- The children of the copy are the copies of the children, in the same order. -/
  children : ∀ x ∈ l, ∃ cs, s.children x = .ok cs ∧ t'.children (f x) = .ok (cs.map f)
  /-- The other copies have taken no node's place. -/
  fresh : ∀ x ∈ l, x ≠ base → t.node? (f x) = none
  /-- Handles of other nodes lead where they led before. -/
  kept : ∀ y k, t.node? y = some k → y ≠ id → t'.node? y = some k ∧ t'.entry y = t.entry y
  dead : ∀ y, t.node? y = none → y ∉ l.map f → t'.node? y = none

/-! ## One more node -/

theorem added_of_addChild (h : WellFormed t) (hid : t.dn id = .ok d)
    (hadd : t.addChild id r a = .ok (new, t')) : Added t t' id new (d.child r) a := by
  obtain ⟨ws, hw, -⟩ := h.linked.dn_eq_ok_iff.mp hid
  rcases addChild_cases h hw r a with ⟨-, herr⟩ | ⟨hfree, new', t₁, hadd', hgrown, hfollows⟩
  · rw [herr] at hadd
    cases hadd
  · rw [hadd'] at hadd
    cases hadd
    exact hgrown.added h.linked hfree hfollows.rootDn hid

/-- The entry of a node with a parent, and the last of its names. -/
theorem Linked.entry_of_placed (h : Linked s) (hp : Placed s x up r) :
    ∃ n dx, s.node? x = some n ∧ s.entry x = .ok ⟨dx, n.attributes⟩ ∧ Tree.leaf dx = .ok r := by
  obtain ⟨n, hn⟩ := hp.live
  obtain ⟨k, hk, -⟩ := h.parent_live hp
  obtain ⟨ws, hw⟩ := h.grounded hk
  exact ⟨n, _, hn, entry_of_way h (.step hp hw) hn, rfl⟩

namespace Planted

theorem start (h : WellFormed t₀) (hs : Linked s) (hb : s.node? base = some n)
    (hd : t₀.dn id = .ok d) (hm : t₀.node? id = some m) (hleaf : m.children = []) :
    ∃ t, (DirectoryTree.setAttributes id n.attributes).run t₀ = (.ok (), t) ∧
      Planted s base [base] (fun _ => id) d t₀ t := by
  obtain ⟨t, hset, hgrafted⟩ := Grafted.start h hs hb hd hm hleaf
  have hrun : (DirectoryTree.setAttributes id n.attributes).run t₀ = (.ok (), t) := by
    rw [run_setAttributes, Edit.run_change, hset]
  obtain ⟨t₁, hrun', hreplaced⟩ := setAttributes_replaces h hd n.attributes
  rw [hrun] at hrun'
  cases hrun'
  refine ⟨t, hrun, hgrafted, fun x hx hne => absurd (List.mem_singleton.mp hx) hne, fun y hy => ?_⟩
  exact hreplaced.others y (hy base (List.mem_singleton_self _)).symm

/-- A node whose parent has been copied is copied as the last child there. -/
theorem add (h : Planted s base pre f d t₀ t) (hs : Linked s) (hx : s.node? x = some n)
    (hnew : x ∉ pre) (hp : Placed s x up r) (hup : up ∈ pre) :
    ∃ new t', (DirectoryTree.addChild (f up) r n.attributes).run t = (.ok new, t') ∧
      Planted s base (pre ++ [x]) (Function.update f x new) d t₀ t' := by
  obtain ⟨new, t', hadd, hgrafted⟩ := h.toGrafted.add hs hx hnew hp hup
  obtain ⟨us, -, hus⟩ := h.way up hup
  have hadded := added_of_addChild h.wellFormed (h.wellFormed.linked.dn_append h.dn hus) hadd
  have hold : ∀ y ∈ pre, Function.update f x new y = f y := fun _ =>
    Grafted.update_of_mem f new hnew
  have hself : Function.update f x new x = new := Function.update_self ..
  refine ⟨new, t', by rw [run_addChild h.wellFormed, Edit.run_change, hadd], hgrafted, ?_, ?_⟩
  · intro y hy hne
    rcases List.mem_append.mp hy with hy | hy
    · rw [hold y hy]
      exact h.fresh y hy hne
    · cases List.mem_singleton.mp hy
      rw [hself, ← h.others new fun y => h.toGrafted.ne_fresh hadded.fresh]
      exact hadded.fresh
  · intro y hy
    have hynew := hy x (List.mem_append_right _ (List.mem_singleton_self x))
    rw [hself] at hynew
    have hyold : ∀ z ∈ pre, f z ≠ y := fun z hz => hold z hz ▸ hy z (List.mem_append_left _ hz)
    rw [hadded.others y hynew.symm, h.entries y hyold]

/-! ## All that is below a node -/

/-- Copies of some siblings, each with all below it, go on with the walks from them. -/
theorem goesOn_copyEach (hs : Linked s)
    (hdeeper : ∀ {pre f t x rest}, Planted s base pre f d t₀ t → x ∈ pre →
      Tree.preorder s depth x = .ok (x :: rest) → (pre ++ rest).Nodup →
      GoesOn s base pre f d t₀ t rest (Tree.copyChildren (fun _ => s) depth x (f x)))
    (h : Planted s base pre f d t₀ t) (hx : x ∈ pre) (hcs : ∀ c ∈ cs, ∃ r, Placed s c x r)
    (hrest : Tree.gather (Tree.preorder s depth) cs = .ok rest) (hnd : (pre ++ rest).Nodup) :
    GoesOn s base pre f d t₀ t rest
      (Tree.copyEach (fun _ => s) (Tree.copyChildren (fun _ => s) depth) (f x) cs) := by
  induction cs generalizing pre f t rest with
  | nil =>
      cases hrest
      exact ⟨f, t, rfl, fun _ _ => rfl, by rwa [List.append_nil]⟩
  | cons c cs ih =>
      obtain ⟨⟨r, hp⟩, hcs⟩ := List.forall_mem_cons.mp hcs
      rw [Tree.gather] at hrest
      cases hhere : Tree.preorder s depth c with
      | error e => simp [hhere] at hrest
      | ok here =>
      cases hthere : Tree.gather (Tree.preorder s depth) cs with
      | error e => simp [hhere, hthere] at hrest
      | ok there =>
      obtain ⟨below, rfl⟩ := preorder_head hhere
      obtain rfl : c :: below ++ there = rest := by simpa [hhere, hthere] using hrest
      have hnd₂ : ((pre ++ [c] ++ below) ++ there).Nodup := by simpa using hnd
      have hnd₁ : ((pre ++ [c]) ++ below).Nodup := (List.nodup_append.mp hnd₂).1
      have hnew : c ∉ pre := fun hc =>
        (List.nodup_append.mp hnd).2.2 c hc c List.mem_cons_self rfl
      -- The child is copied, then what is below it, then its younger siblings.
      obtain ⟨n, dc, hn, he, hleaf⟩ := hs.entry_of_placed hp
      obtain ⟨new, t₁, hadd, h₁⟩ := h.add hs hn hnew hp hx
      have hself : Function.update f c new c = new := Function.update_self ..
      obtain ⟨f₂, t₂, hrun₂, hold₂, h₂⟩ :=
        hdeeper h₁ (List.mem_append_right _ (List.mem_singleton_self c)) hhere hnd₁
      obtain ⟨f₃, t₃, hrun₃, hold₃, h₃⟩ := ih h₂ (by simp [hx]) hcs hthere hnd₂
      have hold : ∀ y ∈ pre, f₂ y = f y := fun y hy =>
        (hold₂ y (List.mem_append_left _ hy)).trans (Grafted.update_of_mem f new hnew hy)
      refine ⟨f₃, t₃, ?_, fun y hy => (hold₃ y (by simp [hy])).trans (hold y hy), ?_⟩
      · have hentry : TreeView.entry s c = .ok ⟨dc, n.attributes⟩ := he
        rw [hself] at hrun₂
        rw [hold x hx] at hrun₃
        simp only [Tree.copyEach, Edit.run_bind, Edit.run_look, Edit.run_ofExcept, hentry, hleaf,
          hadd, hrun₂, hrun₃, Edit.run_pure, List.length_append, List.length_cons]
        rw [Nat.add_comm below.length 1]
      · simpa using h₃

theorem goesOn_copyChildren (hs : Linked s) (h : Planted s base pre f d t₀ t) (hx : x ∈ pre)
    (hl : Tree.preorder s depth x = .ok (x :: rest)) (hnd : (pre ++ rest).Nodup) :
    GoesOn s base pre f d t₀ t rest (Tree.copyChildren (fun _ => s) depth x (f x)) := by
  induction depth generalizing pre f t x rest with
  | zero =>
      cases hl
      exact ⟨f, t, rfl, fun _ _ => rfl, by rwa [List.append_nil]⟩
  | succ depth ih =>
      obtain ⟨qs, hq, -⟩ := h.way x hx
      obtain ⟨n, hn⟩ := hq.live
      have hchildren : TreeView.children s x = .ok n.children := children_eq_ok hn
      rw [Tree.preorder, hchildren] at hl
      cases hrest : Tree.gather (Tree.preorder s depth) n.children with
      | error e => simp [hrest] at hl
      | ok below =>
      obtain rfl : below = rest := by simpa [hrest] using hl
      obtain ⟨f', t', hrun, hall⟩ := goesOn_copyEach hs ih h hx
        (fun c hc => (hs.children hn).mp hc) hrest hnd
      refine ⟨f', t', ?_, hall⟩
      simp only [Tree.copyChildren, Edit.run_bind, Edit.run_look, hchildren, hrun]

/-- A copy takes the place of a node without children. -/
theorem run_copyTree (h : WellFormed t) (hs : Linked s) (hl : Tree.subtree s base = .ok l)
    (hnd : l.Nodup) (hb : s.node? base = some n) (hd : t.dn id = .ok d)
    (hm : t.node? id = some m) (hleaf : m.children = []) :
    ∃ f t', (Tree.copyTree (fun _ => s) base id).run t = (.ok l.length, t') ∧ f base = id ∧
      Planted s base l f d t t' := by
  obtain ⟨rest, rfl⟩ := preorder_head hl
  obtain ⟨ws, hw⟩ := hs.grounded hb
  have he : TreeView.entry s base = .ok ⟨⟨ws ++ s.rootDn.rdns⟩, n.attributes⟩ :=
    entry_of_way hs hw hb
  obtain ⟨t₁, hset, h₁⟩ := start h hs hb hd hm hleaf
  obtain ⟨f, t', hrun, hold, h'⟩ := goesOn_copyChildren hs h₁ h₁.base_mem hl hnd
  refine ⟨f, t', ?_, hold base h₁.base_mem, h'⟩
  simp only [Tree.copyTree, Edit.run_bind, Edit.run_look, he, hset, hrun, Edit.run_pure,
    List.length_cons]
  rw [Nat.add_comm rest.length 1]

end Planted

/-! ## Walks through a copy -/

theorem gather_map {g g' : NodeId → Except TreeError (List NodeId)}
    (h : Tree.gather g cs = .ok l)
    (hg : ∀ c ∈ cs, ∀ here, g c = .ok here → here ⊆ l → g' (f c) = .ok (here.map f)) :
    Tree.gather g' (cs.map f) = .ok (l.map f) := by
  induction cs generalizing l with
  | nil =>
      cases h
      rfl
  | cons c cs ih =>
      rw [Tree.gather] at h
      split at h
      · cases h
      · rename_i here hhere
        split at h
        · cases h
        · rename_i there hthere
          cases h
          obtain ⟨hc, hcs⟩ := List.forall_mem_cons.mp hg
          have hrest := ih hthere fun c hc here hhere hsub =>
            hcs c hc here hhere (List.Subset.trans hsub (List.subset_append_right _ _))
          simp only [List.map_cons, Tree.gather, hc here hhere (List.subset_append_left _ _), hrest,
            List.map_append]

/-- Where all children are copied in their order, a walk meets the copies in their order. -/
theorem preorder_map (hl : Tree.preorder s depth x = .ok l)
    (h : ∀ y ∈ l, ∃ cs, s.children y = .ok cs ∧ t.children (f y) = .ok (cs.map f)) :
    Tree.preorder t depth (f x) = .ok (l.map f) := by
  induction depth generalizing x l with
  | zero =>
      cases hl
      rfl
  | succ depth ih =>
      obtain ⟨rest, rfl⟩ := preorder_head hl
      obtain ⟨cs, hcs, hcs'⟩ := h x List.mem_cons_self
      have hchildren : TreeView.children s x = .ok cs := hcs
      have hchildren' : TreeView.children t (f x) = .ok (cs.map f) := hcs'
      rw [Tree.preorder, hchildren] at hl
      cases hrest : Tree.gather (Tree.preorder s depth) cs with
      | error e => simp [hrest] at hl
      | ok below =>
      obtain rfl : below = rest := by simpa [hrest] using hl
      have hbelow := gather_map hrest fun c hc here hhere hsub =>
        ih hhere fun y hy => h y (List.mem_cons_of_mem _ (hsub hy))
      simp only [Tree.preorder, hchildren', hbelow, List.map_cons]

/-- A finished copy in one piece. -/
theorem Planted.copied (h : Planted s base l f d t t') (hs : Linked s)
    (hl : Tree.subtree s base = .ok l) (hnd : l.Nodup) (hd : t.dn id = .ok d)
    (hf : f base = id) : Copied s base l f t t' id := by
  have hlinked := h.wellFormed.linked
  obtain ⟨qs, hq, hq'⟩ := h.way base h.base_mem
  obtain ⟨n, hn⟩ := hq.live_base
  obtain ⟨m, hm⟩ := hq'.live_base
  obtain ⟨ws, hw⟩ := hs.grounded hn
  obtain ⟨ws', hw'⟩ := hlinked.grounded hm
  have hds := hs.dn_of_way hw
  have hchildren : ∀ x ∈ l, ∃ cs, s.children x = .ok cs ∧ t'.children (f x) = .ok (cs.map f) := by
    intro x hx
    obtain ⟨qs, hq, -⟩ := h.way x hx
    obtain ⟨k, hk⟩ := hq.live
    obtain ⟨k', hk', -, hlist⟩ := h.node x hx k hk
    rw [hs.filter_subtree hn hl hx hk] at hlist
    exact ⟨k.children, children_eq_ok hk, by rw [children_eq_ok hk', hlist]⟩
  have hwalk : Tree.subtree t' id = .ok (l.map f) := by
    -- Both walks have room for as many levels as either tree has slots.
    have hroom : Tree.preorder s s.slots.length base =
        Tree.preorder s (s.slots.length + t'.slots.length) base :=
      hs.preorder_congr hw (Nat.le_add_right _ _) (by omega)
    have hwide := preorder_map (hroom.symm.trans hl) hchildren
    rw [← hf, Tree.subtree, ← hwide]
    exact hlinked.preorder_congr hw' (Nat.le_add_right _ _) (by omega)
  refine ⟨hf, hwalk, ?_, fun x hx => ?_, hchildren, h.fresh, fun y k hk hy => ?_,
    fun y hy hnot => ?_⟩
  · exact List.pairwise_map.mpr (hnd.imp_of_mem fun hx hy hne hf => hne (h.inj hs hx hy hf))
  · obtain ⟨qs, hq, hq'⟩ := h.way x hx
    obtain ⟨k, hk⟩ := hq.live
    obtain ⟨k', hk', hattributes, -⟩ := h.node x hx k hk
    have hdn := hlinked.dn_append h.dn hq'
    refine ⟨qs, _, d, k.attributes, hds, hd, ?_, ?_, fun y dy hy hsame => ?_⟩
    · exact hs.entry_eq_ok_iff.mpr ⟨hs.dn_append hds hq, k, hk, rfl⟩
    · exact hlinked.entry_eq_ok_iff.mpr ⟨hdn, k', hk', hattributes⟩
    · exact hlinked.eq_of_same hy hdn hsame
  · have hother : ∀ x ∈ l, f x ≠ y := by
      rintro x hx rfl
      have hne : x ≠ base := by
        rintro rfl
        exact hy hf
      rw [h.fresh x hx hne] at hk
      cases hk
    exact ⟨(h.others y hother).trans hk, h.entries y hother⟩
  · rw [h.others y fun x hx hxy => hnot (List.mem_map.mpr ⟨x, hx, hxy⟩), hy]

/-- After any calls on either tree: what lies at and below a node of one tree is copied to any node
    of the other one that has no children.  As many nodes are counted as a walk meets. -/
theorem copyTree_replicates (e e' : Entry) (calls calls' : List (NodeId × Call))
    (hb : (Tree.afterCalls calls (ofRoot e)).node? base = some n)
    (hid : (Tree.afterCalls calls' (ofRoot e')).node? id = some m) (hleaf : m.children = []) :
    let s := Tree.afterCalls calls (ofRoot e)
    let t := Tree.afterCalls calls' (ofRoot e')
    ∃ l f t', Tree.subtree s base = .ok l ∧
      (Tree.copyTree (fun _ => s) base id).run t = (.ok l.length, t') ∧
      Copied s base l f t t' id := by
  intro s t
  have hs : Linked s := (wellFormed_afterCalls (wellFormed_ofRoot e) calls).linked
  have ht : WellFormed t := wellFormed_afterCalls (wellFormed_ofRoot e') calls'
  obtain ⟨l, hl, hnd, -⟩ := hs.subtree_eq_ok hb
  obtain ⟨ws, hw⟩ := ht.linked.grounded hid
  have hd := ht.linked.dn_of_way hw
  obtain ⟨f, t', hrun, hf, hplanted⟩ := Planted.run_copyTree ht hs hl hnd hb hd hid hleaf
  exact ⟨l, f, t', hl, hrun, hplanted.copied hs hl hnd hd hf⟩

/-- A node with two children, the older of which stands behind the younger one, is copied into a
    tree with a free slot. -/
theorem copyTree_replicates_reusing :
    let e : Entry := ⟨⟨[.single "DC" "x"]⟩, .empty⟩
    let calls : List (NodeId × Call) := [(rootId, .addChild (.single "ou" "a") .empty),
      (rootId, .addChild (.single "cn" "b") (.ofPairs [("sn", [[0x62]])])),
      (⟨1, 0⟩, .addChild (.single "cn" "c") .empty),
      (⟨2, 0⟩, .moveTo ⟨[.single "cn" "b", .single "OU" "a", .single "dc" "x"]⟩)]
    let e' : Entry := ⟨⟨[.single "o" "y"]⟩, .empty⟩
    let calls' : List (NodeId × Call) := [(rootId, .addChild (.single "cn" "p") .empty),
      (rootId, .addChild (.single "cn" "q") .empty), (⟨1, 0⟩, .delete)]
    let s := Tree.afterCalls calls (ofRoot e)
    let t := Tree.afterCalls calls' (ofRoot e')
    t.free = [1] ∧ ∃ l f t', Tree.subtree s ⟨1, 0⟩ = .ok l ∧ l = [⟨1, 0⟩, ⟨3, 0⟩, ⟨2, 0⟩] ∧
      (Tree.copyTree (fun _ => s) ⟨1, 0⟩ ⟨2, 0⟩).run t = (.ok l.length, t') ∧
      Copied s ⟨1, 0⟩ l f t t' ⟨2, 0⟩ := by
  intro e calls e' calls' s t
  have hb : s.node? ⟨1, 0⟩ =
      some ⟨some (rootId, .single "ou" "a"), .empty, [⟨3, 0⟩, ⟨2, 0⟩]⟩ := by decide +kernel
  have hid : t.node? ⟨2, 0⟩ = some ⟨some (rootId, .single "cn" "q"), .empty, []⟩ := by
    decide +kernel
  have hwalk : Tree.subtree s ⟨1, 0⟩ = .ok [⟨1, 0⟩, ⟨3, 0⟩, ⟨2, 0⟩] := by decide +kernel
  obtain ⟨l, f, t', hl, hrun, hcopied⟩ := copyTree_replicates e e' calls calls' hb hid rfl
  have hnodes : l = [⟨1, 0⟩, ⟨3, 0⟩, ⟨2, 0⟩] := by
    rw [hl] at hwalk
    exact Except.ok.inj hwalk
  exact ⟨by decide +kernel, l, f, t', hl, hnodes, hrun, hcopied⟩

end MemoryTree
end DirectoryStore
