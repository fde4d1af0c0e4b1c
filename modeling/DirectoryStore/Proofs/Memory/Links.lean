import DirectoryStore.Proofs.Memory.Slots
import DirectoryStore.Proofs.Name.Key

/-!
# Links between nodes

A way leads from a node up to another one along the links to parents, and gathers the
relative names that it passes.  A tree is linked when the lists of children agree with the
links to parents, siblings have different names, and a way leads from every node to the
root.  Then there is just one way to the root, it names its node among all others, and no
way leads back to where it started.
-/

namespace DirectoryStore
namespace MemoryTree

/-- A node has its place below `up` under the name `r`. -/
def Placed (t : MemoryTree) (id up : NodeId) (r : Rdn) : Prop :=
  ∃ n, t.node? id = some n ∧ n.place = some (up, r)

/-- The way from a node up to `base`: the relative names that it passes, that of the node
    itself first. -/
inductive Way (t : MemoryTree) (base : NodeId) : NodeId → List Rdn → Prop where
  | here {n : MemoryNode} : t.node? base = some n → Way t base base []
  | step {id up : NodeId} {r : Rdn} {rs : List Rdn} :
      Placed t id up r → Way t base up rs → Way t base id (r :: rs)

/-- The links of a tree agree with each other. -/
structure Linked (t : MemoryTree) : Prop where
  /-- The root has no place below another node. -/
  root : ∃ n, t.node? rootId = some n ∧ n.place = none
  /-- A node lists those nodes as its children that have their place below it. -/
  children : ∀ {id n c}, t.node? id = some n → (c ∈ n.children ↔ ∃ r, Placed t c id r)
  /-- No child is listed twice. -/
  nodup : ∀ {id n}, t.node? id = some n → n.children.Nodup
  /-- Siblings have different names. -/
  distinct : ∀ {c c' id r r'}, Placed t c id r → Placed t c' id r' → r.same r' = true → c = c'
  /-- Every node is linked to the root. -/
  grounded : ∀ {id n}, t.node? id = some n → ∃ rs, Way t rootId id rs

variable {t : MemoryTree} {a b c id up up' : NodeId} {n m : MemoryNode} {r s : Rdn}
variable {qs rs ws : List Rdn}

theorem Placed.unique (h : Placed t id up r) (h' : Placed t id up' s) : up = up' ∧ r = s := by
  obtain ⟨n, hn, hp⟩ := h
  obtain ⟨n', hn', hp'⟩ := h'
  rw [hn] at hn'
  cases hn'
  rw [hp] at hp'
  cases hp'
  exact ⟨rfl, rfl⟩

theorem Placed.live (h : Placed t id up r) : ∃ n, t.node? id = some n :=
  h.imp fun _ hn => hn.1

theorem Way.live_base (h : Way t a b rs) : ∃ n, t.node? a = some n := by
  induction h with
  | here hn => exact ⟨_, hn⟩
  | step _ _ ih => exact ih

theorem Way.live (h : Way t a b rs) : ∃ n, t.node? b = some n := by
  cases h with
  | here hn => exact ⟨_, hn⟩
  | step hp _ => exact hp.live

/-- A way without names stays where it is. -/
theorem Way.eq_of_nil (h : Way t a b []) : b = a := by
  cases h
  rfl

theorem Way.of_cons (h : Way t a b (r :: rs)) : ∃ up, Placed t b up r ∧ Way t a up rs := by
  cases h with
  | step hp hw => exact ⟨_, hp, hw⟩

/-- Ways follow one another. -/
theorem Way.append (hab : Way t a b ws) (hbc : Way t b c qs) : Way t a c (qs ++ ws) := by
  induction hbc with
  | here _ => exact hab
  | step hp _ ih => exact .step hp ih

/-- A way passes a node after any number of names. -/
theorem Way.split (h : Way t a c (qs ++ ws)) : ∃ b, Way t a b ws ∧ Way t b c qs := by
  induction qs generalizing c with
  | nil =>
      obtain ⟨n, hn⟩ := h.live
      exact ⟨c, h, .here hn⟩
  | cons r qs ih =>
      obtain ⟨up, hp, hw⟩ := h.of_cons
      obtain ⟨b, hab, hbu⟩ := ih hw
      exact ⟨b, hab, .step hp hbu⟩

/-- A way stays one as long as what it passes keeps its place. -/
theorem Way.mono {t' : MemoryTree} (h : Way t a b rs) (hbase : ∃ n, t'.node? a = some n)
    (hkeep : ∀ {x u s qs}, Placed t x u s → Way t a u qs → Placed t' x u s) :
    Way t' a b rs := by
  induction h with
  | here _ => exact .here hbase.choose_spec
  | step hp hw ih => exact .step (hkeep hp hw) ih

namespace Linked

theorem not_placed_root (h : Linked t) : ¬ Placed t rootId up r := by
  rintro ⟨n, hn, hp⟩
  obtain ⟨m, hm, hnone⟩ := h.root
  rw [hn] at hm
  cases hm
  rw [hp] at hnone
  cases hnone

/-- Only the root has no place. -/
theorem placed_of_ne_root (h : Linked t) (hn : t.node? id = some n) (hne : id ≠ rootId) :
    ∃ up r, Placed t id up r := by
  obtain ⟨rs, hw⟩ := h.grounded hn
  cases hw with
  | here _ => exact absurd rfl hne
  | step hp _ => exact ⟨_, _, hp⟩

theorem root_way (h : Linked t) : Way t rootId rootId [] := by
  obtain ⟨n, hn, -⟩ := h.root
  exact .here hn

/-- There is just one way to the root. -/
theorem way_unique (h : Linked t) (hrs : Way t rootId id rs) (hqs : Way t rootId id qs) :
    rs = qs := by
  induction hrs generalizing qs with
  | here _ =>
      cases hqs with
      | here _ => rfl
      | step hp _ => exact absurd hp h.not_placed_root
  | step hp _ ih =>
      cases hqs with
      | here _ => exact absurd hp h.not_placed_root
      | step hp' hw' =>
          obtain ⟨rfl, rfl⟩ := hp.unique hp'
          rw [ih hw']

theorem ne_of_way (h : Linked t) (ha : Way t rootId a rs) (hb : Way t rootId b qs)
    (hne : rs ≠ qs) : a ≠ b :=
  fun he => hne (h.way_unique ha (he ▸ hb))

/-- A way that comes back to its start has no names: links to parents make no cycle. -/
theorem way_self (h : Linked t) (hw : Way t id id rs) : rs = [] := by
  obtain ⟨n, hn⟩ := hw.live
  obtain ⟨ws, hws⟩ := h.grounded hn
  have hlen := congrArg List.length (h.way_unique hws (hws.append hw))
  rw [List.length_append] at hlen
  exact List.eq_nil_of_length_eq_zero (by omega)

/-- A node is not above its own parent. -/
theorem not_way_parent (h : Linked t) (hp : Placed t id up r) : ¬ Way t id up rs := by
  intro hw
  cases h.way_self (Way.step hp hw)

/-- The names on the way to the root tell a node from all others. -/
theorem eq_of_keys_eq (h : Linked t) (ha : Way t rootId a rs) (hb : Way t rootId b qs)
    (hkeys : rs.map Rdn.key = qs.map Rdn.key) : a = b := by
  induction ha generalizing b qs with
  | here _ =>
      cases qs with
      | nil => exact hb.eq_of_nil.symm
      | cons r qs => cases hkeys
  | step hp _ ih =>
      cases qs with
      | nil => cases hkeys
      | cons r qs =>
          obtain ⟨up, hp', hw⟩ := hb.of_cons
          rw [List.map_cons, List.map_cons, List.cons.injEq] at hkeys
          cases ih hw hkeys.2
          exact h.distinct hp hp' (Rdn.same_iff.mpr hkeys.1)

/-- A node lies below `a` when the way from `a` to the root ends its own. -/
theorem way_iff_append (h : Linked t) (ha : Way t rootId a ws) :
    Way t a b qs ↔ Way t rootId b (qs ++ ws) := by
  constructor
  · exact ha.append
  · intro hb
    obtain ⟨x, hx, hxb⟩ := hb.split
    cases h.eq_of_keys_eq ha hx rfl
    exact hxb

theorem parent_live (h : Linked t) (hp : Placed t id up r) :
    ∃ m, t.node? up = some m ∧ id ∈ m.children := by
  obtain ⟨n, hn⟩ := hp.live
  obtain ⟨rs, hw⟩ := h.grounded hn
  cases hw with
  | here _ => exact absurd hp h.not_placed_root
  | step hp' hw' =>
      obtain ⟨rfl, rfl⟩ := hp.unique hp'
      obtain ⟨m, hm⟩ := hw'.live
      exact ⟨m, hm, (h.children hm).mpr ⟨r, hp⟩⟩

theorem ne_parent (h : Linked t) (hp : Placed t id up r) : id ≠ up := by
  rintro rfl
  obtain ⟨n, hn⟩ := hp.live
  exact h.not_way_parent hp (.here hn)

end Linked

/-! ## How long ways are -/

/-- As many nodes with different slots stand on a way as it has names, and one more. -/
theorem Linked.way_slots (h : Linked t) (hw : Way t rootId id rs) :
    ∃ l : List Nat, l.Nodup ∧ l.length = rs.length + 1 ∧
      ∀ i ∈ l, ∃ x ws n, x.index = i ∧ t.node? x = some n ∧ Way t rootId x ws ∧
        ws.length ≤ rs.length := by
  induction hw with
  | here hn =>
      refine ⟨[rootId.index], by simp, rfl, fun i hi => ?_⟩
      rw [List.mem_singleton] at hi
      subst hi
      exact ⟨rootId, [], _, rfl, hn, .here hn, Nat.le_refl _⟩
  | step hp hw ih =>
      rename_i x up r rs
      obtain ⟨n, hn⟩ := hp.live
      obtain ⟨l, hnd, hlen, hl⟩ := ih
      refine ⟨x.index :: l, List.nodup_cons.mpr ⟨fun hx => ?_, hnd⟩, by simp [hlen], ?_⟩
      · obtain ⟨y, ws, m, hi, hm, hy, hle⟩ := hl _ hx
        cases eq_of_index_eq hm hn hi
        have := congrArg List.length (h.way_unique hy (.step hp hw))
        rw [List.length_cons] at this
        omega
      · intro i hi
        rcases List.mem_cons.mp hi with rfl | hi
        · exact ⟨x, r :: rs, n, rfl, hn, .step hp hw, Nat.le_refl _⟩
        · obtain ⟨y, ws, m, hi, hm, hy, hle⟩ := hl _ hi
          exact ⟨y, ws, m, hi, hm, hy, Nat.le_succ_of_le hle⟩

/-- A way has fewer names than the tree has slots. -/
theorem Linked.way_length_lt (h : Linked t) (hw : Way t rootId id rs) :
    rs.length < t.slots.length := by
  obtain ⟨l, hnd, hlen, hl⟩ := h.way_slots hw
  have hsub : l ⊆ List.range t.slots.length := fun i hi => by
    obtain ⟨x, _, _, rfl, hn, -⟩ := hl i hi
    exact List.mem_range.mpr (index_lt hn)
  have := hnd.length_le_of_subset hsub
  rw [List.length_range] at this
  omega

theorem rdnsAbove_of_way {steps : Nat} (h : Linked t) (hw : Way t rootId id rs)
    (hlen : rs.length ≤ steps) : t.rdnsAbove steps id = .ok rs := by
  induction steps generalizing id rs with
  | zero =>
      cases List.eq_nil_of_length_eq_zero (Nat.le_zero.mp hlen)
      cases hw.eq_of_nil
      obtain ⟨n, hn, hp⟩ := h.root
      simp [rdnsAbove, node_eq_ok hn, hp]
  | succ steps ih =>
      cases hw with
      | here _ =>
          obtain ⟨n, hn, hp⟩ := h.root
          simp [rdnsAbove, node_eq_ok hn, hp]
      | step hp hw =>
          obtain ⟨n, hn, hplace⟩ := hp
          simp [rdnsAbove, node_eq_ok hn, hplace, ih hw (Nat.le_of_succ_le_succ hlen)]

/-- The name of a node: the names on its way to the root, then the name of the root. -/
theorem Linked.dn_of_way (h : Linked t) (hw : Way t rootId id rs) :
    t.dn id = .ok ⟨rs ++ t.rootDn.rdns⟩ := by
  simp [MemoryTree.dn, rdnsAbove_of_way h hw (Nat.le_of_lt (h.way_length_lt hw))]

theorem dn_eq_error (hn : t.node? id = none) : t.dn id = .error .staleHandle := by
  unfold MemoryTree.dn
  cases hlen : t.slots.length <;> simp [rdnsAbove, node_eq_error hn]

theorem Linked.dn_eq_ok_iff (h : Linked t) {d : Dn} :
    t.dn id = .ok d ↔ ∃ rs, Way t rootId id rs ∧ d = ⟨rs ++ t.rootDn.rdns⟩ := by
  constructor
  · intro hd
    cases hn : t.node? id with
    | none =>
        rw [dn_eq_error hn] at hd
        cases hd
    | some n =>
        obtain ⟨rs, hw⟩ := h.grounded hn
        rw [h.dn_of_way hw] at hd
        cases hd
        exact ⟨rs, hw, rfl⟩
  · rintro ⟨rs, hw, rfl⟩
    exact h.dn_of_way hw

end MemoryTree
end DirectoryStore
