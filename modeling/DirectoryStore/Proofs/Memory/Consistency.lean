import DirectoryStore.Proofs.Memory.Run

/-!
# Consistency of trees in memory

Whatever is asked of whatever handles, a tree that started with a root keeps its slots, its
free list and its links consistent: nodes and free slots share the table, the links of
children and parents mirror each other and make one tree, and walks through it meet every
node once.  The table never grows beyond the greatest number of nodes held at one time.
-/

namespace DirectoryStore
namespace MemoryTree

/-- What can be reached from a node along the lists of children. -/
inductive Reaches (t : MemoryTree) (base : NodeId) : NodeId → Prop where
  | here {n : MemoryNode} : t.node? base = some n → Reaches t base base
  | child {id c : NodeId} {n : MemoryNode} :
      Reaches t base id → t.node? id = some n → c ∈ n.children → Reaches t base c

/-- The table, the links and the walks of a tree agree. -/
structure Consistent (t : MemoryTree) : Prop where
  /-- No slot is free twice. -/
  free_nodup : t.free.Nodup
  /-- The free slots are those without a node. -/
  mem_free : ∀ i, i ∈ t.free ↔ ∃ slot, t.slots[i]? = some slot ∧ slot.node = none
  /-- The first slot holds the root, without parent and relative name. -/
  root : ∃ n, t.node? ⟨0, 0⟩ = some n ∧ n.place = none
  /-- Every other node has a parent, which lists it once. -/
  parent : ∀ id n, t.node? id = some n → id ≠ ⟨0, 0⟩ →
    ∃ up r m, n.place = some (up, r) ∧ t.node? up = some m ∧ m.children.count id = 1
  /-- A listed child points back. -/
  child : ∀ id n c, t.node? id = some n → c ∈ n.children →
    ∃ m r, t.node? c = some m ∧ m.place = some (id, r)
  /-- No way along parents comes back to its start. -/
  acyclic : ∀ id rs, Way t id id rs → rs = []
  /-- Every node has a name. -/
  named : ∀ id n, t.node? id = some n → ∃ d, t.dn id = .ok d
  /-- A walk from the root meets all nodes, which are those that can be reached, once. -/
  walk : ∃ l, Tree.subtree t (TreeView.root t) = .ok l ∧ l.Nodup ∧ l.length = t.nodeCount ∧
    (∀ id, id ∈ l ↔ ∃ n, t.node? id = some n) ∧ ∀ id, id ∈ l ↔ Reaches t ⟨0, 0⟩ id
  /-- Siblings have different relative names. -/
  siblings : ∀ id n c c' m m' r r', t.node? id = some n → c ∈ n.children → c' ∈ n.children →
    t.node? c = some m → m.place = some (id, r) → t.node? c' = some m' →
    m'.place = some (id, r') → c ≠ c' → r.same r' = false

variable {t : MemoryTree} {base id : NodeId}

theorem Linked.reaches_iff (h : Linked t) : Reaches t base id ↔ ∃ qs, Way t base id qs := by
  constructor
  · intro hr
    induction hr with
    | here hn => exact ⟨[], .here hn⟩
    | child _ hn hc ih =>
        obtain ⟨qs, hw⟩ := ih
        obtain ⟨r, hp⟩ := (h.children hn).mp hc
        exact ⟨_, .step hp hw⟩
  · rintro ⟨qs, hw⟩
    induction hw with
    | here hn => exact .here hn
    | step hp hw ih =>
        obtain ⟨m, hm, hc⟩ := h.parent_live hp
        exact .child ih hm hc

theorem WellFormed.consistent (h : WellFormed t) : Consistent t where
  free_nodup := h.tidy.nodup
  mem_free := h.tidy.mem_free
  root := h.linked.root
  parent id n hn hne := by
    obtain ⟨up, r, m, hm, hp⟩ := h.linked.placed_of_ne_root hn hne
    obtain ⟨k, hk, hc⟩ := h.linked.parent_live ⟨m, hm, hp⟩
    rw [hn] at hm
    cases hm
    exact ⟨up, r, k, hp, hk, (h.linked.nodup hk).count.trans (if_pos hc)⟩
  child id n c hn hc := by
    obtain ⟨r, m, hm, hp⟩ := (h.linked.children hn).mp hc
    exact ⟨m, r, hm, hp⟩
  acyclic id rs := h.linked.way_self
  named id n hn := by
    obtain ⟨rs, hw⟩ := h.linked.grounded hn
    exact ⟨_, h.linked.dn_of_way hw⟩
  walk := by
    obtain ⟨n, hn, -⟩ := h.linked.root
    obtain ⟨l, hl, hnd, hmem⟩ := h.linked.subtree_eq_ok hn
    have hlive : ∀ id, id ∈ l ↔ ∃ n, t.node? id = some n := fun id => by
      rw [hmem]
      exact ⟨fun ⟨_, hw⟩ => hw.live, fun ⟨_, hm⟩ => h.linked.grounded hm⟩
    have hperm : l.Perm t.handles := by
      refine (List.perm_ext_iff_of_nodup hnd nodup_handles).mpr fun id => ?_
      rw [hlive, mem_handles_iff]
    refine ⟨l, hl, hnd, ?_, hlive, fun id => ?_⟩
    · rw [nodeCount_eq h.tidy, hperm.length_eq]
    · rw [hmem, h.linked.reaches_iff]
      rfl
  siblings id n c c' m m' r r' _ _ _ hm hp hm' hp' hne := by
    rw [Bool.eq_false_iff]
    exact fun hsame => hne (h.linked.distinct ⟨m, hm, hp⟩ ⟨m', hm', hp'⟩ hsame)

/-! ## Runs -/

theorem node?_ofRoot (e : Entry) (x : NodeId) :
    (ofRoot e).node? x = if x = rootId then some ⟨none, e.attributes, []⟩ else none := by
  obtain ⟨i, g⟩ := x
  unfold node? ofRoot rootId
  cases i with
  | zero => by_cases hg : g = 0 <;> simp [hg, eq_comm]
  | succ i => simp

theorem not_placed_ofRoot (e : Entry) {c up : NodeId} {r : Rdn} :
    ¬ Placed (ofRoot e) c up r := by
  rintro ⟨n, hn, hp⟩
  rw [node?_ofRoot] at hn
  split at hn
  · cases hn
    cases hp
  · cases hn

theorem wellFormed_ofRoot (e : Entry) : WellFormed (ofRoot e) where
  tidy := by
    refine ⟨List.nodup_nil, fun i => ?_⟩
    cases i <;> simp [ofRoot]
  linked := by
    have hroot : ∀ {id n}, (ofRoot e).node? id = some n → id = rootId ∧ n.children = [] := by
      intro id n hn
      rw [node?_ofRoot] at hn
      split at hn
      · rename_i hid
        cases hn
        exact ⟨hid, rfl⟩
      · cases hn
    refine ⟨⟨_, node?_ofRoot e rootId, rfl⟩, fun hn => ?_, fun hn => ?_, fun hc _ _ => ?_,
      fun hn => ?_⟩
    · simp [(hroot hn).2, not_placed_ofRoot]
    · rw [(hroot hn).2]
      exact List.nodup_nil
    · exact absurd hc (not_placed_ofRoot e)
    · obtain ⟨rfl, -⟩ := hroot hn
      exact ⟨[], .here hn⟩

theorem wellFormed_afterCalls (h : WellFormed t) (calls : List (NodeId × Call)) :
    WellFormed (Tree.afterCalls calls t) := by
  induction calls generalizing t with
  | nil => exact h
  | cons call calls ih => exact ih (call_follows h call.1 call.2).wellFormed

theorem rootDn_afterCalls (h : WellFormed t) (calls : List (NodeId × Call)) :
    (Tree.afterCalls calls t).rootDn = t.rootDn := by
  induction calls generalizing t with
  | nil => rfl
  | cons call calls ih =>
      have hf := call_follows h call.1 call.2
      exact (ih hf.wellFormed).trans hf.rootDn

/-- The greatest number of nodes that a tree holds in the course of a run. -/
def peak : List (NodeId × Call) → MemoryTree → Nat
  | [], t => t.nodeCount
  | (id, c) :: calls, t => max t.nodeCount (peak calls ((Tree.call id c).run t).2)

theorem nodeCount_le_peak (calls : List (NodeId × Call)) : t.nodeCount ≤ peak calls t := by
  cases calls with
  | nil => exact Nat.le_refl _
  | cons call calls => exact Nat.le_max_left _ _

theorem length_slots_afterCalls (h : WellFormed t) (calls : List (NodeId × Call)) :
    (Tree.afterCalls calls t).slots.length = max t.slots.length (peak calls t) := by
  induction calls generalizing t with
  | nil => exact (Nat.max_eq_left nodeCount_le).symm
  | cons call calls ih =>
      have hf := call_follows h call.1 call.2
      have hpeak := nodeCount_le_peak (t := ((Tree.call call.1 call.2).run t).2) calls
      have hcount := nodeCount_le (t := t)
      rw [Tree.afterCalls, ih hf.wellFormed, peak, hf.room]
      omega

/-- Runs leave a tree consistent, with a table as long as it had nodes at its largest. -/
theorem afterCalls_consistent (e : Entry) (calls : List (NodeId × Call)) :
    Consistent (Tree.afterCalls calls (ofRoot e)) ∧
      (Tree.afterCalls calls (ofRoot e)).slots.length = peak calls (ofRoot e) := by
  have h := wellFormed_ofRoot e
  refine ⟨(wellFormed_afterCalls h calls).consistent, ?_⟩
  have hpeak : (ofRoot e).nodeCount ≤ peak calls (ofRoot e) := nodeCount_le_peak calls
  rw [length_slots_afterCalls h]
  exact Nat.max_eq_right hpeak

end MemoryTree
end DirectoryStore
