import DirectoryStore.Proofs.Memory.Names
import Mathlib.Logic.Function.Basic

/-!
# Copies that grow

Nodes of one tree are copied below a node of another one, each after its parent and its earlier
siblings.  At any time the nodes copied so far stand below the top of the copy as they stand
below the top of what is copied, with the same attributes and in the same order, and no other
node has changed.
-/

namespace DirectoryStore
namespace MemoryTree

variable {s t t' t₀ : MemoryTree} {base id up x y : NodeId} {n m : MemoryNode} {r : Rdn}
variable {d : Dn} {pre : List NodeId} {f : NodeId → NodeId} {qs us ws : List Rdn}

/-! ## Ways from one node -/

theorem Linked.way_inj (h : Linked t) (hx : Way t base x qs) (hx' : Way t base x ws) : qs = ws := by
  obtain ⟨n, hn⟩ := hx.live_base
  obtain ⟨us, hus⟩ := h.grounded hn
  exact List.append_cancel_right (h.way_unique (hus.append hx) (hus.append hx'))

theorem Linked.eq_of_way (h : Linked t) (hx : Way t base x qs) (hy : Way t base y qs) : x = y := by
  obtain ⟨n, hn⟩ := hx.live_base
  obtain ⟨us, hus⟩ := h.grounded hn
  exact h.eq_of_keys_eq (hus.append hx) (hus.append hy) rfl

theorem Linked.dn_append (h : Linked t) (hd : t.dn base = .ok d) (hw : Way t base x qs) :
    t.dn x = .ok ⟨qs ++ d.rdns⟩ := by
  obtain ⟨ws, hws, rfl⟩ := h.dn_eq_ok_iff.mp hd
  rw [h.dn_of_way (hws.append hw), List.append_assoc]

/-- A node lists no children that are above it. -/
theorem Linked.not_mem_children (h : Linked t) (hw : Way t x y qs) (hn : t.node? y = some n) :
    x ∉ n.children := by
  intro hx
  obtain ⟨r, hp⟩ := (h.children hn).mp hx
  exact h.not_way_parent hp hw

/-! ## Grafts -/

/-- `t` is `t₀` with copies of the nodes `pre` of `s`, which are `base` and nodes below it.  The
    copy of a node is at `f` of it; that of `base` was there before and has the name `d`. -/
structure Grafted (s : MemoryTree) (base : NodeId) (pre : List NodeId) (f : NodeId → NodeId)
    (d : Dn) (t₀ t : MemoryTree) : Prop where
  wellFormed : WellFormed t
  dn : t.dn (f base) = .ok d
  base_mem : base ∈ pre
  /-- The nodes above a copied one, up to the top, have been copied. -/
  closed : ∀ x ∈ pre, ∀ up r, Placed s x up r → x = base ∨ up ∈ pre
  /-- Copies stand below the top as the nodes do. -/
  way : ∀ x ∈ pre, ∃ qs, Way s base x qs ∧ Way t (f base) (f x) qs
  node : ∀ x ∈ pre, ∀ n, s.node? x = some n → ∃ m, t.node? (f x) = some m ∧
    m.attributes = n.attributes ∧ m.children = (pre.filter (· ∈ n.children)).map f
  others : ∀ y, (∀ x ∈ pre, f x ≠ y) → t.node? y = t₀.node? y

namespace Grafted

theorem inj (h : Grafted s base pre f d t₀ t) (hs : Linked s) (hx : x ∈ pre) (hy : y ∈ pre)
    (hf : f x = f y) : x = y := by
  obtain ⟨qs, hq, hq'⟩ := h.way x hx
  obtain ⟨ws, hw, hw'⟩ := h.way y hy
  rw [hf] at hq'
  cases h.wellFormed.linked.way_inj hq' hw'
  exact hs.eq_of_way hq hw

/-- The copy of a node has its place below the copy of the parent. -/
theorem placed (h : Grafted s base pre f d t₀ t) (hs : Linked s) (hx : x ∈ pre) (hup : up ∈ pre)
    (hp : Placed s x up r) : Placed t (f x) (f up) r := by
  obtain ⟨us, hu, hu'⟩ := h.way up hup
  obtain ⟨qs, hq, hq'⟩ := h.way x hx
  cases hs.way_inj hq (.step hp hu)
  obtain ⟨up', hp', hw⟩ := hq'.of_cons
  cases h.wellFormed.linked.eq_of_way hw hu'
  exact hp'

/-- The top of a copy gets the attributes of what is copied. -/
theorem start (h : WellFormed t₀) (hs : Linked s) (hb : s.node? base = some n)
    (hd : t₀.dn id = .ok d) (hm : t₀.node? id = some m) (hleaf : m.children = []) :
    ∃ t, t₀.setAttributes id n.attributes = .ok ((), t) ∧
      Grafted s base [base] (fun _ => id) d t₀ t := by
  obtain ⟨t, hset, heff, hfollows⟩ := setAttributes_live h hm n.attributes
  have hnode := heff id
  rw [if_pos rfl, hm] at hnode
  refine ⟨t, hset, hfollows.wellFormed, ?_, List.mem_singleton_self _, ?_, ?_, ?_, ?_⟩
  · exact (heff.dn_eq h.linked hfollows.rootDn id).mpr hd
  · exact fun x hx _ _ _ => .inl (List.mem_singleton.mp hx)
  · intro x hx
    cases List.mem_singleton.mp hx
    exact ⟨[], .here hb, .here hnode⟩
  · intro x hx n' hn'
    cases List.mem_singleton.mp hx
    rw [hb] at hn'
    cases hn'
    refine ⟨_, hnode, rfl, ?_⟩
    have hself : base ∉ n.children := hs.not_mem_children (.here hb) hb
    simp [hleaf, hself]
  · intro y hy
    rw [heff y, if_neg (hy base (List.mem_singleton_self _)).symm]

/-- The name of a node that has not been copied is free below the copy of its parent. -/
theorem free (h : Grafted s base pre f d t₀ t) (hs : Linked s) (hnew : x ∉ pre)
    (hp : Placed s x up r) (hup : up ∈ pre) {c : NodeId} {u : Rdn} (hc : Placed t c (f up) u) :
    u.same r = false := by
  obtain ⟨k, hk, -⟩ := hs.parent_live hp
  obtain ⟨k', hk', -, hchildren⟩ := h.node up hup k hk
  have hmem := (h.wellFormed.linked.children hk').mpr ⟨u, hc⟩
  rw [hchildren] at hmem
  obtain ⟨z, hz, rfl⟩ := List.mem_map.mp hmem
  obtain ⟨hz, hzk⟩ := List.mem_filter.mp hz
  obtain ⟨v, hv⟩ := (hs.children hk).mp (by simpa using hzk)
  obtain ⟨-, rfl⟩ := hc.unique (h.placed hs hz hup hv)
  rw [Bool.eq_false_iff]
  intro hsame
  cases hs.distinct hv hp hsame
  exact hnew hz

/-- No node that has been copied lies directly below one that has not. -/
theorem not_mem_children (h : Grafted s base pre f d t₀ t) (hs : Linked s)
    (hx : s.node? x = some n) (hnew : x ∉ pre) (hw : Way s base x ws) (hy : y ∈ pre) :
    y ∉ n.children := by
  intro hc
  obtain ⟨v, hv⟩ := (hs.children hx).mp hc
  rcases h.closed y hy x v hv with rfl | hx'
  · exact hs.not_way_parent hv hw
  · exact hnew hx'

section Growing

/-! ### One more copy -/

variable {new : NodeId}

theorem update_of_mem (f : NodeId → NodeId) (new : NodeId) (hnew : x ∉ pre) (hy : y ∈ pre) :
    Function.update f x new y = f y := by
  refine Function.update_of_ne ?_ new f
  rintro rfl
  exact hnew hy

theorem map_update (f : NodeId → NodeId) (new : NodeId) (hnew : x ∉ pre) (p : NodeId → Bool) :
    (pre.filter p).map (Function.update f x new) = (pre.filter p).map f :=
  List.map_congr_left fun _ hy => update_of_mem f new hnew (List.mem_filter.mp hy).1

theorem ne_fresh (h : Grafted s base pre f d t₀ t) (hfresh : t.node? new = none) (hy : y ∈ pre) :
    f y ≠ new := by
  rintro rfl
  obtain ⟨qs, -, hq⟩ := h.way y hy
  obtain ⟨k, hk⟩ := hq.live
  rw [hfresh] at hk
  cases hk

theorem grown_way (h : Grafted s base pre f d t₀ t) (hnew : x ∉ pre) (hp : Placed s x up r)
    (hup : up ∈ pre) (hgrown : Grown t t' (f up) new r n.attributes) (hy : y ∈ pre ++ [x]) :
    ∃ qs, Way s base y qs ∧ Way t' (f base) (Function.update f x new y) qs := by
  have hl := h.wellFormed.linked
  rcases List.mem_append.mp hy with hy | hy
  · obtain ⟨qs, hq, hq'⟩ := h.way y hy
    rw [update_of_mem f new hnew hy]
    exact ⟨qs, hq, (hgrown.way_iff hl hq'.live_base).mpr (.inl hq')⟩
  · cases List.mem_singleton.mp hy
    obtain ⟨us, hus, hus'⟩ := h.way up hup
    rw [Function.update_self]
    have hstep := (hgrown.way_iff hl hus'.live_base).mpr (.inr ⟨rfl, us, hus', rfl⟩)
    exact ⟨r :: us, .step hp hus, hstep⟩

/-- A node that had been copied keeps its copy, which lists the new one behind its other children
    if the node is the parent. -/
theorem grown_node_old (h : Grafted s base pre f d t₀ t) (hs : Linked s) (hnew : x ∉ pre)
    (hp : Placed s x up r) (hup : up ∈ pre) (hgrown : Grown t t' (f up) new r n.attributes)
    (hy : y ∈ pre) {k : MemoryNode} (hk : s.node? y = some k) :
    ∃ m, t'.node? (f y) = some m ∧ m.attributes = k.attributes ∧
      m.children = ((pre ++ [x]).filter (· ∈ k.children)).map (Function.update f x new) := by
  obtain ⟨m, hm, hattributes, hchildren⟩ := h.node y hy k hk
  rw [hgrown.node?, if_neg (h.ne_fresh hgrown.fresh hy), List.filter_append, List.map_append,
    map_update f new hnew]
  by_cases hyup : y = up
  · subst hyup
    have hxk : x ∈ k.children := (hs.children hk).mpr ⟨r, hp⟩
    refine ⟨{ m with children := m.children ++ [new] }, ?_, hattributes, ?_⟩
    · rw [if_pos rfl, hm]
      rfl
    · simp [hchildren, hxk]
  · have hne : f y ≠ f up := fun hf => hyup (h.inj hs hy hup hf)
    have hxk : x ∉ k.children := by
      intro hxk
      obtain ⟨v, hv⟩ := (hs.children hk).mp hxk
      exact hyup (hv.unique hp).1
    exact ⟨m, by rw [if_neg hne, hm], hattributes, by simp [hchildren, hxk]⟩

/-- The new copy lists no children, as no child of the node has been copied. -/
theorem grown_node_new (h : Grafted s base pre f d t₀ t) (hs : Linked s)
    (hx : s.node? x = some n) (hnew : x ∉ pre) (hp : Placed s x up r) (hup : up ∈ pre)
    (hgrown : Grown t t' (f up) new r n.attributes) :
    ∃ m, t'.node? new = some m ∧ m.attributes = n.attributes ∧
      m.children = ((pre ++ [x]).filter (· ∈ n.children)).map (Function.update f x new) := by
  obtain ⟨us, hus, -⟩ := h.way up hup
  have hnone : (pre ++ [x]).filter (· ∈ n.children) = [] := by
    rw [List.filter_eq_nil_iff]
    intro y hy
    rw [decide_eq_true_eq]
    rcases List.mem_append.mp hy with hy | hy
    · exact h.not_mem_children hs hx hnew (.step hp hus) hy
    · cases List.mem_singleton.mp hy
      exact hs.not_mem_children (.here hx) hx
  rw [hnone, hgrown.node?, if_pos rfl]
  exact ⟨_, rfl, rfl, rfl⟩

theorem grown (h : Grafted s base pre f d t₀ t) (hs : Linked s)
    (hx : s.node? x = some n) (hnew : x ∉ pre) (hp : Placed s x up r) (hup : up ∈ pre)
    (hgrown : Grown t t' (f up) new r n.attributes) (hfollows : Follows t t') :
    Grafted s base (pre ++ [x]) (Function.update f x new) d t₀ t' := by
  have hold : ∀ y ∈ pre, Function.update f x new y = f y := fun _ => update_of_mem f new hnew
  have hbase := hold base h.base_mem
  refine ⟨hfollows.wellFormed, ?_, List.mem_append_left _ h.base_mem, ?_, ?_, ?_, ?_⟩
  · have hl := h.wellFormed.linked
    obtain ⟨us, -, hus⟩ := h.way up hup
    have hdn := hl.dn_append h.dn hus
    rw [hbase]
    exact (hgrown.dn_eq_ok_iff hl (h.free hs hnew hp hup) hfollows.rootDn hdn _).mpr (.inl h.dn)
  · intro y hy v u hv
    rcases List.mem_append.mp hy with hy | hy
    · exact (h.closed y hy v u hv).imp_right (List.mem_append_left _)
    · cases List.mem_singleton.mp hy
      obtain ⟨rfl, -⟩ := hv.unique hp
      exact .inr (List.mem_append_left _ hup)
  · intro y hy
    rw [hbase]
    exact h.grown_way hnew hp hup hgrown hy
  · intro y hy k hk
    rcases List.mem_append.mp hy with hy | hy
    · rw [hold y hy]
      exact h.grown_node_old hs hnew hp hup hgrown hy hk
    · cases List.mem_singleton.mp hy
      rw [hx] at hk
      cases hk
      rw [Function.update_self]
      exact h.grown_node_new hs hx hnew hp hup hgrown
  · intro y hy
    have hyx := hy x (List.mem_append_right _ (List.mem_singleton_self x))
    rw [Function.update_self] at hyx
    have hyold : ∀ z ∈ pre, f z ≠ y := fun z hz => hold z hz ▸ hy z (List.mem_append_left _ hz)
    rw [hgrown.node?, if_neg (Ne.symm hyx), if_neg (Ne.symm (hyold up hup)), h.others y hyold]

end Growing

/-- A node whose parent has been copied is copied as the last child there. -/
theorem add (h : Grafted s base pre f d t₀ t) (hs : Linked s) (hx : s.node? x = some n)
    (hnew : x ∉ pre) (hp : Placed s x up r) (hup : up ∈ pre) :
    ∃ new t', t.addChild (f up) r n.attributes = .ok (new, t') ∧
      Grafted s base (pre ++ [x]) (Function.update f x new) d t₀ t' := by
  obtain ⟨us, -, hus⟩ := h.way up hup
  obtain ⟨k, hk⟩ := hus.live
  obtain ⟨ws, hws⟩ := h.wellFormed.linked.grounded hk
  rcases addChild_cases h.wellFormed hws r n.attributes with
    ⟨⟨c, u, hc, hsame⟩, -⟩ | ⟨-, new, t', hadd, hgrown, hfollows⟩
  · rw [h.free hs hnew hp hup hc] at hsame
    cases hsame
  · exact ⟨new, t', hadd, h.grown hs hx hnew hp hup hgrown hfollows⟩

end Grafted

end MemoryTree
end DirectoryStore
