import DirectoryStore.Proofs.Memory.Links

/-!
# Changes of linked trees

The four ways in which an operation changes the nodes of a tree: other attributes for a
node, a new last child, a leaf that goes, and another place for a node.  Each is described
by what every handle leads to afterwards.  A linked tree stays linked, and the ways in it
change as one expects: a new node adds one way, a leaf takes one along, and a node with
another place takes all ways that pass it along.
-/

namespace DirectoryStore
namespace MemoryTree

variable {t t' : MemoryTree} {base id up new c u x : NodeId} {n m : MemoryNode} {r s : Rdn}
variable {attrs : AttributeMap} {rs qs ws : List Rdn}

/-! ## Other attributes -/

/-- `t'` is `t` with other attributes for one node. -/
def Reattributed (t t' : MemoryTree) (id : NodeId) (attrs : AttributeMap) : Prop :=
  ∀ x, t'.node? x = if x = id then (t.node? x).map fun n => { n with attributes := attrs }
    else t.node? x

namespace Reattributed

theorem node_iff (h : Reattributed t t' id attrs) {p : Option (NodeId × Rdn)}
    {below : List NodeId} :
    (∃ n, t'.node? x = some n ∧ n.place = p ∧ n.children = below) ↔
      ∃ n, t.node? x = some n ∧ n.place = p ∧ n.children = below := by
  rw [h x]
  split <;> cases t.node? x <;> simp

theorem placed_iff (h : Reattributed t t' id attrs) : Placed t' c u s ↔ Placed t c u s := by
  unfold Placed
  rw [h c]
  split <;> cases t.node? c <;> simp

theorem live_iff (h : Reattributed t t' id attrs) :
    (∃ n, t'.node? x = some n) ↔ ∃ n, t.node? x = some n := by
  rw [h x]
  split <;> cases t.node? x <;> simp

theorem way_iff (h : Reattributed t t' id attrs) : Way t' base x rs ↔ Way t base x rs := by
  constructor
  · intro hw
    exact hw.mono (h.live_iff.mp hw.live_base) fun hp _ => h.placed_iff.mp hp
  · intro hw
    exact hw.mono (h.live_iff.mpr hw.live_base) fun hp _ => h.placed_iff.mpr hp

theorem linked (h : Reattributed t t' id attrs) (hl : Linked t) : Linked t' where
  root := by
    obtain ⟨n, hn, hp⟩ := hl.root
    obtain ⟨n', hn', hp', -⟩ := h.node_iff.mpr ⟨n, hn, hp, rfl⟩
    exact ⟨n', hn', hp'⟩
  children := fun {y k c} hk => by
    obtain ⟨n, hn, -, hc⟩ := h.node_iff.mp ⟨k, hk, rfl, rfl⟩
    rw [← hc, hl.children hn]
    simp only [h.placed_iff]
  nodup := fun {y k} hk => by
    obtain ⟨n, hn, -, hc⟩ := h.node_iff.mp ⟨k, hk, rfl, rfl⟩
    exact hc ▸ hl.nodup hn
  distinct := fun hc hc' => hl.distinct (h.placed_iff.mp hc) (h.placed_iff.mp hc')
  grounded := fun {y k} hk => by
    obtain ⟨n, hn⟩ := h.live_iff.mp ⟨k, hk⟩
    exact (hl.grounded hn).imp fun _ hw => h.way_iff.mpr hw

end Reattributed

/-! ## A new last child -/

/-- `t'` is `t` with one node more, the last child of `up`. -/
structure Grown (t t' : MemoryTree) (up new : NodeId) (r : Rdn) (attrs : AttributeMap) :
    Prop where
  fresh : t.node? new = none
  parent : ∃ m, t.node? up = some m
  node? : ∀ x, t'.node? x = if x = new then some ⟨some (up, r), attrs, []⟩
    else if x = up then (t.node? x).map fun n => { n with children := n.children ++ [new] }
    else t.node? x

namespace Grown

theorem ne_parent (h : Grown t t' up new r attrs) : new ≠ up := by
  rintro rfl
  obtain ⟨m, hm⟩ := h.parent
  rw [h.fresh] at hm
  cases hm

theorem live_iff (h : Grown t t' up new r attrs) :
    (∃ n, t'.node? x = some n) ↔ x = new ∨ ∃ n, t.node? x = some n := by
  rw [h.node? x]
  by_cases hx : x = new
  · simp [hx]
  · rw [if_neg hx]
    split <;> cases t.node? x <;> simp [hx]

theorem placed_iff (h : Grown t t' up new r attrs) :
    Placed t' c u s ↔ Placed t c u s ∨ (c = new ∧ u = up ∧ s = r) := by
  unfold Placed
  rw [h.node? c]
  by_cases hx : c = new
  · subst hx
    simp [h.fresh, eq_comm]
  · rw [if_neg hx]
    split <;> cases t.node? c <;> simp [hx]

theorem not_placed_below (h : Grown t t' up new r attrs) (hl : Linked t) :
    ¬ Placed t c new s := by
  intro hp
  obtain ⟨m, hm, -⟩ := hl.parent_live hp
  rw [h.fresh] at hm
  cases hm

theorem way_iff (h : Grown t t' up new r attrs) (hl : Linked t)
    (hbase : ∃ n, t.node? base = some n) :
    Way t' base x rs ↔ Way t base x rs ∨ (x = new ∧ ∃ ws, Way t base up ws ∧ rs = r :: ws) := by
  have hup : ∀ {x rs}, Way t base x rs → Way t' base x rs := fun hw =>
    hw.mono (h.live_iff.mpr (.inr hbase)) fun hp _ => h.placed_iff.mpr (.inl hp)
  constructor
  · intro hw
    induction hw with
    | here _ => exact .inl (.here hbase.choose_spec)
    | step hp _ ih =>
        rcases h.placed_iff.mp hp with hp | ⟨rfl, rfl, rfl⟩
        · rcases ih with hw | ⟨rfl, -⟩
          · exact .inl (.step hp hw)
          · exact absurd hp (h.not_placed_below hl)
        · rcases ih with hw | ⟨he, -⟩
          · exact .inr ⟨rfl, _, hw, rfl⟩
          · exact absurd he.symm h.ne_parent
  · rintro (hw | ⟨rfl, ws, hw, rfl⟩)
    · exact hup hw
    · exact .step (h.placed_iff.mpr (.inr ⟨rfl, rfl, rfl⟩)) (hup hw)

theorem linked (h : Grown t t' up new r attrs) (hl : Linked t)
    (hfree : ∀ {c s}, Placed t c up s → s.same r = false) : Linked t' where
  root := by
    obtain ⟨n, hn, hp⟩ := hl.root
    have hne : rootId ≠ new := by
      rintro he
      rw [he, h.fresh] at hn
      cases hn
    rw [h.node? rootId, if_neg hne]
    split
    · rw [hn]
      exact ⟨_, rfl, hp⟩
    · exact ⟨n, hn, hp⟩
  children := fun {y k c} hk => by
    simp only [h.placed_iff, exists_or]
    rw [h.node? y] at hk
    by_cases hy : y = new
    · subst hy
      rw [if_pos rfl] at hk
      cases hk
      simp [h.not_placed_below hl, h.ne_parent]
    · rw [if_neg hy] at hk
      by_cases hu : y = up
      · subst hu
        obtain ⟨m, hm⟩ := h.parent
        rw [if_pos rfl, hm] at hk
        cases hk
        simp [hl.children hm]
      · rw [if_neg hu] at hk
        simp [hl.children hk, hu]
  nodup := fun {y k} hk => by
    rw [h.node? y] at hk
    by_cases hy : y = new
    · rw [if_pos hy] at hk
      cases hk
      exact List.nodup_nil
    · rw [if_neg hy] at hk
      by_cases hu : y = up
      · subst hu
        obtain ⟨m, hm⟩ := h.parent
        rw [if_pos rfl, hm] at hk
        cases hk
        refine List.nodup_append.mpr ⟨hl.nodup hm, by simp, ?_⟩
        rintro a ha b hb rfl
        rw [List.mem_singleton] at hb
        subst hb
        obtain ⟨s, hp⟩ := (hl.children hm).mp ha
        obtain ⟨n, hn⟩ := hp.live
        rw [h.fresh] at hn
        cases hn
      · rw [if_neg hu] at hk
        exact hl.nodup hk
  distinct := fun hc hc' hsame => by
    rcases h.placed_iff.mp hc with hc | ⟨rfl, rfl, rfl⟩ <;>
      rcases h.placed_iff.mp hc' with hc' | ⟨rfl, he, rfl⟩
    · exact hl.distinct hc hc' hsame
    · subst he
      rw [hfree hc] at hsame
      cases hsame
    · rw [Rdn.same_iff, eq_comm, ← Rdn.same_iff, hfree hc'] at hsame
      cases hsame
    · rfl
  grounded := fun {y k} hk => by
    rcases h.live_iff.mp ⟨k, hk⟩ with rfl | ⟨n, hn⟩
    · obtain ⟨m, hm⟩ := h.parent
      obtain ⟨ws, hw⟩ := hl.grounded hm
      exact ⟨_, (h.way_iff hl hw.live_base).mpr (.inr ⟨rfl, ws, hw, rfl⟩)⟩
    · obtain ⟨ws, hw⟩ := hl.grounded hn
      exact ⟨ws, (h.way_iff hl hw.live_base).mpr (.inl hw)⟩

end Grown

/-! ## A leaf that goes -/

/-- `t'` is `t` without a node that has no children. -/
structure Pruned (t t' : MemoryTree) (up id : NodeId) : Prop where
  leaf : ∃ n, t.node? id = some n ∧ n.children = []
  placed : ∃ r, Placed t id up r
  node? : ∀ x, t'.node? x = if x = id then none
    else if x = up then
      (t.node? x).map fun n => { n with children := n.children.filter (· ≠ id) }
    else t.node? x

namespace Pruned

theorem not_placed_below (h : Pruned t t' up id) (hl : Linked t) : ¬ Placed t c id s := by
  intro hp
  obtain ⟨n, hn, hc⟩ := h.leaf
  have := (hl.children hn).mpr ⟨s, hp⟩
  rw [hc] at this
  cases this

theorem live_iff (h : Pruned t t' up id) :
    (∃ n, t'.node? x = some n) ↔ x ≠ id ∧ ∃ n, t.node? x = some n := by
  rw [h.node? x]
  by_cases hx : x = id
  · simp [hx]
  · rw [if_neg hx]
    split <;> cases t.node? x <;> simp [hx]

theorem placed_iff (h : Pruned t t' up id) : Placed t' c u s ↔ Placed t c u s ∧ c ≠ id := by
  unfold Placed
  rw [h.node? c]
  by_cases hx : c = id
  · simp [hx]
  · rw [if_neg hx]
    split <;> cases t.node? c <;> simp [hx]

theorem way_iff (h : Pruned t t' up id) (hl : Linked t) (hbase : base ≠ id) :
    Way t' base x rs ↔ Way t base x rs ∧ x ≠ id := by
  constructor
  · intro hw
    refine ⟨hw.mono (h.live_iff.mp hw.live_base).2 fun hp _ => (h.placed_iff.mp hp).1, ?_⟩
    exact (h.live_iff.mp hw.live).1
  · rintro ⟨hw, hx⟩
    induction hw with
    | here hn => exact .here (h.live_iff.mpr ⟨hbase, _, hn⟩).choose_spec
    | step hp _ ih =>
        refine .step (h.placed_iff.mpr ⟨hp, hx⟩) (ih fun he => ?_)
        exact h.not_placed_below hl (he ▸ hp)

theorem ne_root (h : Pruned t t' up id) (hl : Linked t) : rootId ≠ id := by
  rintro rfl
  obtain ⟨r, hp⟩ := h.placed
  exact hl.not_placed_root hp

theorem linked (h : Pruned t t' up id) (hl : Linked t) : Linked t' where
  root := by
    obtain ⟨n, hn, hp⟩ := hl.root
    rw [h.node? rootId, if_neg (h.ne_root hl)]
    split
    · rw [hn]
      exact ⟨_, rfl, hp⟩
    · exact ⟨n, hn, hp⟩
  children := fun {y k c} hk => by
    obtain ⟨hy, -⟩ := h.live_iff.mp ⟨k, hk⟩
    simp only [h.placed_iff, exists_and_right]
    rw [h.node? y, if_neg hy] at hk
    by_cases hu : y = up
    · rw [if_pos hu, Option.map_eq_some_iff] at hk
      obtain ⟨m, hm, rfl⟩ := hk
      simp [hl.children hm]
    · rw [if_neg hu] at hk
      rw [hl.children hk]
      constructor
      · rintro ⟨s, hp⟩
        refine ⟨⟨s, hp⟩, fun he => hu ?_⟩
        obtain ⟨r, hr⟩ := h.placed
        exact ((he ▸ hp).unique hr).1
      · exact And.left
  nodup := fun {y k} hk => by
    obtain ⟨hy, -⟩ := h.live_iff.mp ⟨k, hk⟩
    rw [h.node? y, if_neg hy] at hk
    by_cases hu : y = up
    · rw [if_pos hu, Option.map_eq_some_iff] at hk
      obtain ⟨m, hm, rfl⟩ := hk
      exact (hl.nodup hm).filter _
    · rw [if_neg hu] at hk
      exact hl.nodup hk
  distinct := fun hc hc' => hl.distinct (h.placed_iff.mp hc).1 (h.placed_iff.mp hc').1
  grounded := fun {y k} hk => by
    obtain ⟨hy, n, hn⟩ := h.live_iff.mp ⟨k, hk⟩
    exact (hl.grounded hn).imp fun _ hw => (h.way_iff hl (h.ne_root hl)).mpr ⟨hw, hy⟩

end Pruned

/-! ## Another place -/

/-- `t'` is `t` with another place for one node, as the last child of `newUp`, which does not
    lie below it and has no child of that name. -/
structure Relinked (t t' : MemoryTree) (id up newUp : NodeId) (r : Rdn) : Prop where
  placed : ∃ s, Placed t id up s
  parent : ∃ m, t.node? newUp = some m
  outside : ∀ qs, ¬ Way t id newUp qs
  node? : ∀ x, t'.node? x = (t.node? x).map fun n =>
    { place := if x = id then some (newUp, r) else n.place
      attributes := n.attributes
      children := (if x = up then n.children.filter (· ≠ id) else n.children) ++
        if x = newUp then [id] else [] }

namespace Relinked

variable {newUp : NodeId}

theorem live_iff (h : Relinked t t' id up newUp r) :
    (∃ n, t'.node? x = some n) ↔ ∃ n, t.node? x = some n := by
  rw [h.node? x]
  cases t.node? x <;> simp

theorem placed_iff (h : Relinked t t' id up newUp r) :
    Placed t' c u s ↔ (c = id ∧ u = newUp ∧ s = r) ∨ (c ≠ id ∧ Placed t c u s) := by
  obtain ⟨old, n, hn, -⟩ := h.placed
  unfold Placed
  rw [h.node? c]
  by_cases hx : c = id
  · subst hx
    simp [hn, eq_comm]
  · cases t.node? c <;> simp [hx]

theorem ne_root (h : Relinked t t' id up newUp r) (hl : Linked t) : rootId ≠ id := by
  rintro rfl
  obtain ⟨s, hp⟩ := h.placed
  exact hl.not_placed_root hp

/-- Ways that do not pass the node stay. -/
theorem way_of_not_below (h : Relinked t t' id up newUp r) (hw : Way t base x rs)
    (hx : ∀ qs, ¬ Way t id x qs) : Way t' base x rs := by
  have hbase := h.live_iff.mpr hw.live_base
  induction hw with
  | here _ => exact .here hbase.choose_spec
  | step hp _ ih =>
      rename_i y v s ws _
      have hne : y ≠ id := by
        rintro rfl
        obtain ⟨n, hn⟩ := hp.live
        exact hx [] (.here hn)
      exact .step (h.placed_iff.mpr (.inr ⟨hne, hp⟩)) (ih fun qs hq => hx _ (.step hp hq))

/-- Ways from below the node up to it stay. -/
theorem way_below_iff (h : Relinked t t' id up newUp r) (hl : Linked t) :
    Way t' id x qs ↔ Way t id x qs := by
  constructor
  · intro hw
    induction hw with
    | here _ =>
        obtain ⟨s, n, hn, -⟩ := h.placed
        exact .here hn
    | step hp _ ih =>
        rcases h.placed_iff.mp hp with ⟨-, rfl, -⟩ | ⟨-, hp⟩
        · exact absurd ih (h.outside _)
        · exact .step hp ih
  · intro hw
    induction hw with
    | here hn => exact .here (h.live_iff.mpr ⟨_, hn⟩).choose_spec
    | step hp hw ih =>
        refine .step (h.placed_iff.mpr (.inr ⟨?_, hp⟩)) ih
        rintro rfl
        exact hl.not_way_parent hp hw

theorem way_iff (h : Relinked t t' id up newUp r) (hl : Linked t) :
    Way t' rootId x rs ↔ (Way t rootId x rs ∧ ∀ qs, ¬ Way t id x qs) ∨
      ∃ qs ws, rs = qs ++ r :: ws ∧ Way t rootId newUp ws ∧ Way t id x qs := by
  obtain ⟨old, hold⟩ := h.placed
  obtain ⟨n, hn⟩ := hold.live
  constructor
  · intro hw
    induction hw with
    | here _ =>
        refine .inl ⟨hl.root_way, fun qs hq => ?_⟩
        obtain ⟨ws, hws⟩ := hl.grounded hn
        have := congrArg List.length (hl.way_unique hl.root_way (hws.append hq))
        cases qs with
        | nil => exact h.ne_root hl hq.eq_of_nil
        | cons s qs => simp at this
    | step hp _ ih =>
        rcases h.placed_iff.mp hp with ⟨rfl, rfl, rfl⟩ | ⟨hne, hp⟩
        · rcases ih with ⟨hw, -⟩ | ⟨qs, ws, -, -, hq⟩
          · exact .inr ⟨[], _, rfl, hw, .here hn⟩
          · exact absurd hq (h.outside qs)
        · rcases ih with ⟨hw, hout⟩ | ⟨qs, ws, rfl, hws, hq⟩
          · refine .inl ⟨.step hp hw, fun qs hq => ?_⟩
            cases hq with
            | here _ => exact hne rfl
            | step hp' hq' =>
                obtain ⟨rfl, rfl⟩ := hp.unique hp'
                exact hout _ hq'
          · exact .inr ⟨_ :: qs, ws, rfl, hws, .step hp hq⟩
  · rintro (⟨hw, hout⟩ | ⟨qs, ws, rfl, hws, hq⟩)
    · exact h.way_of_not_below hw hout
    · have hup := h.way_of_not_below hws h.outside
      have hid : Way t' rootId id (r :: ws) :=
        .step (h.placed_iff.mpr (.inl ⟨rfl, rfl, rfl⟩)) hup
      exact hid.append ((h.way_below_iff hl).mpr hq)

theorem linked (h : Relinked t t' id up newUp r) (hl : Linked t)
    (hfree : ∀ {c s}, Placed t c newUp s → s.same r = false) : Linked t' where
  root := by
    obtain ⟨n, hn, hp⟩ := hl.root
    rw [h.node? rootId, hn]
    exact ⟨_, rfl, by simp [h.ne_root hl, hp]⟩
  children := fun {y k c} hk => by
    obtain ⟨old, hold⟩ := h.placed
    simp only [h.placed_iff]
    rw [h.node? y, Option.map_eq_some_iff] at hk
    obtain ⟨m, hm, rfl⟩ := hk
    have hc := hl.children hm (c := c)
    by_cases hx : c = id
    · subst hx
      have hnot : c ∉ (if y = up then m.children.filter (· ≠ c) else m.children) := by
        split
        · simp
        · rename_i hy
          rw [hc]
          rintro ⟨s, hp⟩
          exact hy (hp.unique hold).1
      simp only [List.mem_append, hnot, false_or, true_and, ne_eq, not_true_eq_false, false_and,
        or_false]
      by_cases hy : y = newUp <;> simp [hy]
    · have hmem : c ∈ (if y = up then m.children.filter (· ≠ id) else m.children) ↔
          c ∈ m.children := by
        split <;> simp [hx]
      have hnot : c ∉ (if y = newUp then [id] else []) := by
        split <;> simp [hx]
      rw [List.mem_append, or_iff_left hnot, hmem, hc]
      simp [hx]
  nodup := fun {y k} hk => by
    obtain ⟨old, hold⟩ := h.placed
    rw [h.node? y, Option.map_eq_some_iff] at hk
    obtain ⟨m, hm, rfl⟩ := hk
    refine List.nodup_append.mpr ⟨?_, by split <;> simp, ?_⟩
    · split
      · exact (hl.nodup hm).filter _
      · exact hl.nodup hm
    · rintro a ha b hb rfl
      have hid : a = id := by
        split at hb
        · exact List.mem_singleton.mp hb
        · cases hb
      subst hid
      split at ha
      · simp at ha
      · rename_i hy
        obtain ⟨s, hp⟩ := (hl.children hm).mp ha
        exact hy (hp.unique hold).1
  distinct := fun hc hc' hsame => by
    rcases h.placed_iff.mp hc with ⟨rfl, rfl, rfl⟩ | ⟨-, hc⟩ <;>
      rcases h.placed_iff.mp hc' with ⟨rfl, he, rfl⟩ | ⟨-, hc'⟩
    · rfl
    · rw [Rdn.same_iff, eq_comm, ← Rdn.same_iff, hfree hc'] at hsame
      cases hsame
    · subst he
      rw [hfree hc] at hsame
      cases hsame
    · exact hl.distinct hc hc' hsame
  grounded := fun {y k} hk => by
    obtain ⟨n, hn⟩ := h.live_iff.mp ⟨k, hk⟩
    obtain ⟨rs, hw⟩ := hl.grounded hn
    by_cases hout : ∃ qs, Way t id y qs
    · obtain ⟨qs, hq⟩ := hout
      obtain ⟨m, hm⟩ := h.parent
      obtain ⟨ws, hws⟩ := hl.grounded hm
      exact ⟨_, (h.way_iff hl).mpr (.inr ⟨qs, ws, rfl, hws, hq⟩)⟩
    · exact ⟨rs, (h.way_iff hl).mpr (.inl ⟨hw, fun qs hq => hout ⟨qs, hq⟩⟩)⟩

end Relinked

end MemoryTree
end DirectoryStore
