import DirectoryStore.Tree.Memory

/-!
# The slot table

What the three changes of the table do to the nodes that handles lead to: changing a node,
putting one into a free slot, and freeing a slot.  They keep the list of free slots tidy:
it names each slot without a node once.  A table grows only when it has no free slot, so
its length follows the number of nodes at its highest.
-/

namespace DirectoryStore
namespace MemoryTree

variable {t t' : MemoryTree} {id id' new : NodeId} {n n' : MemoryNode}

theorem node?_eq_some_iff :
    t.node? id = some n ↔ t.slots[id.index]? = some ⟨id.generation, some n⟩ := by
  unfold node?
  cases hs : t.slots[id.index]? with
  | none => simp
  | some slot =>
      obtain ⟨g, node⟩ := slot
      by_cases hg : g = id.generation <;> simp [hg]

theorem index_lt (h : t.node? id = some n) : id.index < t.slots.length :=
  (List.getElem?_eq_some_iff.mp (node?_eq_some_iff.mp h)).1

/-- A slot holds one node under one generation. -/
theorem eq_of_index_eq (h : t.node? id = some n) (h' : t.node? id' = some n')
    (hi : id.index = id'.index) : id = id' := by
  rw [node?_eq_some_iff] at h h'
  rw [hi, h'] at h
  cases id
  cases id'
  simp_all

theorem node_eq_ok (h : t.node? id = some n) : t.node id = .ok n := by
  simp [node, h]

theorem node_eq_error (h : t.node? id = none) : t.node id = .error .staleHandle := by
  simp [node, h]

/-! ## Changing a node -/

theorem node?_modifyNode (f : MemoryNode → MemoryNode) (h : t.node? id = some n) (x : NodeId) :
    (t.modifyNode id f).node? x = if x = id then some (f n) else t.node? x := by
  have hs := node?_eq_some_iff.mp h
  by_cases hx : x.index = id.index
  · unfold node? modifyNode
    rw [hx, List.getElem?_modify_eq, hs]
    by_cases hg : id.generation = x.generation
    · have : x = id := by
        cases x
        cases id
        simp_all
      simp [this]
    · have : x ≠ id := fun he => hg (he ▸ rfl)
      simp [this, hg]
  · have hne : x ≠ id := fun he => hx (he ▸ rfl)
    unfold node? modifyNode
    rw [List.getElem?_modify_ne _ _ (Ne.symm hx), if_neg hne]

@[simp] theorem free_modifyNode (f : MemoryNode → MemoryNode) :
    (t.modifyNode id f).free = t.free := rfl

@[simp] theorem length_slots_modifyNode (f : MemoryNode → MemoryNode) :
    (t.modifyNode id f).slots.length = t.slots.length := by
  simp [modifyNode]

/-! ## The list of free slots -/

/-- The list of free slots names the slots without a node, each once. -/
structure Tidy (t : MemoryTree) : Prop where
  nodup : t.free.Nodup
  mem_free : ∀ i, i ∈ t.free ↔ ∃ slot, t.slots[i]? = some slot ∧ slot.node = none

theorem Tidy.modifyNode (h : Tidy t) (id : NodeId) (f : MemoryNode → MemoryNode) :
    Tidy (t.modifyNode id f) where
  nodup := h.nodup
  mem_free i := by
    rw [free_modifyNode, h.mem_free, MemoryTree.modifyNode, List.getElem?_modify]
    split
    · cases t.slots[i]? <;> simp
    · simp

/-! ## Taking a slot -/

/-- Either there is no free slot and the table grows by one, or the first free slot is taken. -/
theorem insert_cases (h : Tidy t) (n : MemoryNode) :
    (t.free = [] ∧
      t.insert n = (⟨t.slots.length, 0⟩, { t with slots := t.slots ++ [⟨0, some n⟩] })) ∨
    ∃ i rest g, t.free = i :: rest ∧ t.slots[i]? = some ⟨g, none⟩ ∧
      t.insert n = (⟨i, g⟩, { t with slots := t.slots.set i ⟨g, some n⟩, free := rest }) := by
  rcases hf : t.free with _ | ⟨i, rest⟩
  · exact .inl ⟨rfl, by simp [MemoryTree.insert, hf]⟩
  · obtain ⟨⟨g, node⟩, hs, hnode⟩ := (h.mem_free i).mp (hf ▸ List.mem_cons_self)
    cases hnode
    exact .inr ⟨i, rest, g, rfl, hs, by simp [MemoryTree.insert, hf, hs]⟩

theorem node?_insert_self (h : Tidy t) (n : MemoryNode) : t.node? (t.insert n).1 = none := by
  rcases insert_cases h n with ⟨-, he⟩ | ⟨i, rest, g, -, hs, he⟩
  · simp [he, node?]
  · simp [he, node?, hs]

theorem node?_insert (h : Tidy t) (n : MemoryNode) (x : NodeId) :
    (t.insert n).2.node? x = if x = (t.insert n).1 then some n else t.node? x := by
  rcases insert_cases h n with ⟨-, he⟩ | ⟨i, rest, g, -, hs, he⟩
  · rw [he]
    unfold node?
    rcases Nat.lt_trichotomy x.index t.slots.length with hlt | heq | hgt
    · have : x ≠ ⟨t.slots.length, 0⟩ := fun hx => by subst hx; exact absurd hlt (Nat.lt_irrefl _)
      simp [this, List.getElem?_append_left hlt]
    · by_cases hg : x.generation = 0
      · have : x = ⟨t.slots.length, 0⟩ := by
          cases x
          simp_all
        simp [this]
      · have : x ≠ ⟨t.slots.length, 0⟩ := fun hx => hg (by rw [hx])
        simp [this, heq, Ne.symm hg]
    · have : x ≠ ⟨t.slots.length, 0⟩ := fun hx => by subst hx; exact absurd hgt (Nat.lt_irrefl _)
      have hout : (t.slots ++ [⟨0, some n⟩])[x.index]? = none := by
        rw [List.getElem?_eq_none_iff, List.length_append, List.length_singleton]
        omega
      simp [this, hout, List.getElem?_eq_none (Nat.le_of_lt hgt)]
  · rw [he]
    have hlt := (List.getElem?_eq_some_iff.mp hs).1
    unfold node?
    by_cases hi : x.index = i
    · subst hi
      by_cases hg : x.generation = g
      · subst hg
        simp [hlt]
      · have : x ≠ ⟨x.index, g⟩ := fun hx => hg (by rw [hx])
        rw [if_neg this, hs]
        simp [hlt, Ne.symm hg]
    · have : x ≠ ⟨i, g⟩ := fun hx => hi (by rw [hx])
      simp [this, List.getElem?_set_ne (Ne.symm hi)]

@[simp] theorem rootDn_insert (n : MemoryNode) : (t.insert n).2.rootDn = t.rootDn := by
  unfold MemoryTree.insert
  split <;> rfl

theorem Tidy.insert (h : Tidy t) (n : MemoryNode) : Tidy (t.insert n).2 := by
  rcases insert_cases h n with ⟨hf, he⟩ | ⟨i, rest, g, hf, hs, he⟩
  · rw [he]
    refine ⟨h.nodup, fun j => ?_⟩
    rw [h.mem_free]
    rcases Nat.lt_trichotomy j t.slots.length with hlt | heq | hgt
    · simp [List.getElem?_append_left hlt]
    · simp [heq]
    · have hout : (t.slots ++ [⟨0, some n⟩])[j]? = none := by
        rw [List.getElem?_eq_none_iff, List.length_append, List.length_singleton]
        omega
      simp [hout, List.getElem?_eq_none (Nat.le_of_lt hgt)]
  · rw [he]
    have hnd := hf ▸ h.nodup
    have hlt := (List.getElem?_eq_some_iff.mp hs).1
    refine ⟨(List.nodup_cons.mp hnd).2, fun j => ?_⟩
    by_cases hj : j = i
    · subst hj
      simp [(List.nodup_cons.mp hnd).1, hlt]
    · have := h.mem_free j
      rw [hf, List.mem_cons, or_iff_right hj] at this
      simp [this, List.getElem?_set_ne (Ne.symm hj)]

/-! ## Freeing a slot -/

theorem node?_release (h : t.node? id = some n) (x : NodeId) :
    (t.release id).node? x = if x = id then none else t.node? x := by
  have hs := node?_eq_some_iff.mp h
  unfold node? release
  by_cases hx : x.index = id.index
  · rw [hx, List.getElem?_modify_eq, hs]
    by_cases hg : x.generation = id.generation
    · have : x = id := by
        cases x
        cases id
        simp_all
      simp [this]
    · simp [Ne.symm hg]
  · have : x ≠ id := fun he => hx (he ▸ rfl)
    simp [this, Ne.symm hx]

theorem Tidy.release (h : Tidy t) (hn : t.node? id = some n) : Tidy (t.release id) := by
  have hs := node?_eq_some_iff.mp hn
  have hfresh : id.index ∉ t.free := fun hi => by
    obtain ⟨slot, hslot, hnone⟩ := (h.mem_free _).mp hi
    rw [hs] at hslot
    cases hslot
    cases hnone
  refine ⟨List.nodup_cons.mpr ⟨hfresh, h.nodup⟩, fun j => ?_⟩
  show j ∈ id.index :: t.free ↔ _
  rw [List.mem_cons, h.mem_free, MemoryTree.release, List.getElem?_modify]
  by_cases hj : j = id.index
  · subst hj
    simp [hs]
  · simp [hj, Ne.symm hj]

/-! ## The nodes of the table -/

/-- The handle of what a slot holds. -/
def handleAt? (t : MemoryTree) (i : Nat) : Option NodeId :=
  match t.slots[i]? with
  | some ⟨generation, some _⟩ => some ⟨i, generation⟩
  | _ => none

/-- The handles of all nodes. -/
def handles (t : MemoryTree) : List NodeId :=
  (List.range t.slots.length).filterMap t.handleAt?

theorem handleAt?_eq_some_iff {i : Nat} :
    t.handleAt? i = some id ↔ id.index = i ∧ ∃ n, t.node? id = some n := by
  simp only [node?_eq_some_iff]
  unfold handleAt?
  split
  · rename_i g n hs
    constructor
    · intro h
      cases h
      exact ⟨rfl, n, hs⟩
    · rintro ⟨rfl, n', hn'⟩
      rw [hs] at hn'
      cases hn'
      rfl
  · rename_i hs
    constructor
    · intro h
      cases h
    · rintro ⟨rfl, n, hn⟩
      exact absurd hn (hs _ _)

theorem mem_handles_iff : id ∈ t.handles ↔ ∃ n, t.node? id = some n := by
  simp only [handles, List.mem_filterMap, List.mem_range, handleAt?_eq_some_iff]
  constructor
  · rintro ⟨i, -, -, h⟩
    exact h
  · rintro ⟨n, hn⟩
    exact ⟨id.index, index_lt hn, rfl, n, hn⟩

theorem nodup_handles : t.handles.Nodup := by
  refine List.Pairwise.filterMap _ (fun i j hij a ha b hb => ?_) List.nodup_range
  rintro rfl
  exact hij ((handleAt?_eq_some_iff.mp ha).1.symm.trans (handleAt?_eq_some_iff.mp hb).1)

/-- Every slot is free or holds one node. -/
theorem length_handles (h : Tidy t) : t.handles.length + t.free.length = t.slots.length := by
  have hfree : t.free.Perm
      ((List.range t.slots.length).filter fun i => t.handleAt? i = none) := by
    refine (List.perm_ext_iff_of_nodup h.nodup (List.nodup_range.filter _)).mpr fun i => ?_
    rw [h.mem_free, List.mem_filter, List.mem_range, handleAt?]
    constructor
    · rintro ⟨⟨g, node⟩, hs, rfl⟩
      exact ⟨(List.getElem?_eq_some_iff.mp hs).1, by simp [hs]⟩
    · rintro ⟨hlt, hnone⟩
      rw [List.getElem?_eq_getElem hlt] at hnone ⊢
      refine ⟨_, rfl, ?_⟩
      cases hnode : t.slots[i] with
      | mk g node =>
          cases node with
          | none => rfl
          | some n => simp [hnode] at hnone
  rw [hfree.length_eq, handles, List.length_filterMap_eq_countP, ← List.countP_eq_length_filter]
  have := List.length_eq_countP_add_countP (fun i => (t.handleAt? i).isSome)
    (l := List.range t.slots.length)
  rw [List.length_range] at this
  simpa using this.symm

theorem nodeCount_eq (h : Tidy t) : t.nodeCount = t.handles.length := by
  have := length_handles h
  unfold nodeCount
  omega

theorem nodeCount_le : t.nodeCount ≤ t.slots.length :=
  Nat.sub_le _ _

/-- The table grows only for a node more than it ever had room for. -/
theorem length_slots_insert (h : Tidy t) (n : MemoryNode) :
    (t.insert n).2.slots.length = max t.slots.length (t.insert n).2.nodeCount := by
  rcases insert_cases h n with ⟨hf, he⟩ | ⟨i, rest, g, -, -, he⟩
  · simp [he, nodeCount, hf]
  · simp only [he, nodeCount, List.length_set]
    omega

end MemoryTree
end DirectoryStore
