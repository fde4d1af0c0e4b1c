import DirectoryStore.Proofs.Entry.Edits
import DirectoryStore.Proofs.Memory.Patch
import DirectoryStore.Proofs.Memory.Siblings

/-!
# Differences that turn one tree into another

Changes turn a part of a tree into a part of another one when they succeed on every tree
that holds the first part at that place, whatever it holds elsewhere, and leave the second
part there.  Parts below different children do not touch each other, so their changes may
follow one another; with this the changes of a difference are put together from those of
single entries, by induction on the depth of the walk.
-/

namespace DirectoryStore
namespace MemoryTree

open DirectoryStore.Tree (entryAt? Match)

variable {a b t t' : MemoryTree} {x y : NodeId} {r : Rdn} {d dx dy up : Dn}
variable {base k k' : List (List (List String))} {cs ds : List Change} {ws vs : List Rdn}

/-- Changes of the part at `k` succeed wherever that part is as in `a`, and leave it as it is
    in `b`.  The node at `base`, above it, is there. -/
def Turns (a b : MemoryTree) (base k : List (List (List String))) (cs : List Change) : Prop :=
  ∀ t, WellFormed t → t.rootDn = a.rootDn → (∀ d : Dn, d.key = base → entryAt? t d ≠ none) →
    (∀ d : Dn, k <+: d.key → entryAt? t d = entryAt? a d) →
    ∃ t', Patches cs t t' ∧ Confined base k t t' ∧
      ∀ d : Dn, k <+: d.key → Match (entryAt? t' d) (entryAt? b d)

/-- A name that `k` begins is `k`, or lies below one child. -/
theorem eq_or_prefix_concat {l : List (List (List String))} (h : k <+: l) :
    l = k ∨ ∃ q, k ++ [q] <+: l := by
  obtain ⟨rest, rfl⟩ := h
  cases rest with
  | nil => exact .inl (List.append_nil k)
  | cons q rest => exact .inr ⟨q, rest, by rw [List.append_assoc, List.singleton_append]⟩

theorem not_prefix_concat {q : List (List String)} : ¬ k ++ [q] <+: k := by
  intro h
  have := h.length_le
  rw [List.length_append, List.length_singleton] at this
  omega

theorem eq_of_prefix_concat {q q' : List (List String)} {l : List (List (List String))}
    (h : k ++ [q] <+: l) (h' : k ++ [q'] <+: l) : q = q' := by
  have := List.prefix_of_prefix_length_le h h' (by simp)
  rw [List.prefix_append_right_inj, List.cons_prefix_cons] at this
  exact this.1

/-- Parts below different children are turned one after another. -/
theorem Turns.all {α : Type} {l : List α} {q : α → List (List String)} {f : α → List Change}
    (hf : ∀ x ∈ l, Turns a b base (base ++ [q x]) (f x))
    (hne : l.Pairwise fun x y => q x ≠ q y) (h : WellFormed t) (hroot : t.rootDn = a.rootDn)
    (hbase : ∀ d : Dn, d.key = base → entryAt? t d ≠ none)
    (hag : ∀ x ∈ l, ∀ d : Dn, base ++ [q x] <+: d.key → entryAt? t d = entryAt? a d) :
    ∃ t', Patches (l.flatMap f) t t' ∧ Confined base base t t' ∧
      (∀ x ∈ l, ∀ d : Dn, base ++ [q x] <+: d.key → Match (entryAt? t' d) (entryAt? b d)) ∧
      ∀ d : Dn, (∀ x ∈ l, ¬ base ++ [q x] <+: d.key) → entryAt? t' d = entryAt? t d := by
  induction l generalizing t with
  | nil => exact ⟨t, .nil, .refl h, nofun, fun _ _ => rfl⟩
  | cons x l ih =>
      obtain ⟨hx, hne⟩ := List.pairwise_cons.mp hne
      have hapart : ∀ y ∈ l, ∀ d : Dn, base ++ [q y] <+: d.key → ¬ base ++ [q x] <+: d.key :=
        fun y hy d hyd hxd => hx y hy (eq_of_prefix_concat hxd hyd)
      obtain ⟨t₁, hp₁, hc₁, hm₁⟩ := hf x List.mem_cons_self t h hroot hbase
        (hag x List.mem_cons_self)
      have hbase₁ : ∀ d : Dn, d.key = base → entryAt? t₁ d ≠ none := fun d hd => by
        rw [hc₁.elsewhere d fun hpre => not_prefix_concat (hd ▸ hpre)]
        exact hbase d hd
      have hag₁ : ∀ y ∈ l, ∀ d : Dn, base ++ [q y] <+: d.key →
          entryAt? t₁ d = entryAt? a d := fun y hy d hd => by
        rw [hc₁.elsewhere d (hapart y hy d hd)]
        exact hag y (List.mem_cons_of_mem _ hy) d hd
      obtain ⟨t₂, hp₂, hc₂, hm₂, hrest⟩ := ih (fun y hy => hf y (List.mem_cons_of_mem _ hy)) hne
        hc₁.wellFormed (hc₁.rootDn.trans hroot) hbase₁ hag₁
      refine ⟨t₂, hp₁.append hp₂, ?_, fun y hy d hd => ?_, fun d hd => ?_⟩
      · exact (hc₁.mono (List.prefix_refl _) (List.prefix_append _ _)).trans hc₂
      · rcases List.mem_cons.mp hy with rfl | hy
        · rw [hrest d fun z hz hzd => hapart z hz d hzd hd]
          exact hm₁ d hd
        · exact hm₂ y hy d hd
      · rw [hrest d fun y hy => hd y (List.mem_cons_of_mem _ hy)]
        exact hc₁.elsewhere d (hd x List.mem_cons_self)

/-- A part that holds its own top may be turned from further above. -/
theorem Turns.mono (h : Turns a b k k cs) (hbase : base <+: k)
    (htop : ∀ d : Dn, d.key = k → entryAt? a d ≠ none) : Turns a b base k cs := by
  intro t ht hroot _ hag
  have hk : ∀ d : Dn, d.key = k → entryAt? t d ≠ none := fun d hd => by
    rw [hag d (hd ▸ List.prefix_refl _)]
    exact htop d hd
  obtain ⟨t', hp, hc, hm⟩ := h t ht hroot hk hag
  exact ⟨t', hp, hc.mono hbase (List.prefix_refl _), hm⟩

theorem Linked.entryAt?_of_dn (h : Linked t) (hx : t.dn x = .ok dx) (hd : d.key = dx.key) :
    ∃ attrs, t.entry x = .ok ⟨dx, attrs⟩ ∧ entryAt? t d = some ⟨dx, attrs⟩ := by
  obtain ⟨attrs, he⟩ := h.exists_entry hx
  exact ⟨attrs, he, (h.entryAt?_congr hd).trans (h.entryAt?_of_entry he)⟩

/-- Without a child of that name, a node has nothing below itself there. -/
theorem Linked.entryAt?_eq_none_of_children (h : Linked t) {q : List (List String)}
    (hx : t.dn x = .ok dx) (hnot : ∀ c s, Placed t c x s → s.key ≠ q)
    (hpre : dx.key ++ [q] <+: d.key) : entryAt? t d = none := by
  rw [Option.eq_none_iff_forall_ne_some]
  intro e he
  obtain ⟨c, s, hp, hs⟩ := h.exists_child hx he hpre
  exact hnot c s hp hs

theorem prefix_key_child (up : Dn) (r : Rdn) : up.key <+: (up.child r).key := by
  rw [Dn.key_child]
  exact List.prefix_append _ _

/-! ## Additions -/

variable {l : List (Rdn × NodeId)} {g : Rdn × NodeId → List Change} {attrs : AttributeMap}

/-- To add a node, then all below each of its children, turns nothing into the whole part. -/
theorem add_turns (hb : Linked b) (hat : entryAt? b (up.child r) = some ⟨up.child r, attrs⟩)
    (hy : b.dn y = .ok (up.child r)) (hrising : Rising (fun z : Rdn × NodeId => z.1.key) l)
    (hmem : ∀ s c, (s, c) ∈ l ↔ Placed b c y s)
    (hg : ∀ x ∈ l, Turns a b (up.child r).key ((up.child r).key ++ [x.1.key]) (g x))
    (hempty : ∀ d : Dn, (up.child r).key <+: d.key → entryAt? a d = none) :
    Turns a b up.key (up.child r).key (.add ⟨up.child r, attrs⟩ :: l.flatMap g) := by
  intro t ht hroot hbase hag
  obtain ⟨f, hf⟩ := Option.ne_none_iff_exists'.mp (hbase up rfl)
  have hnone : ∀ d : Dn, (up.child r).key <+: d.key → entryAt? t d = none :=
    fun d hd => (hag d hd).trans (hempty d hd)
  obtain ⟨t₁, hadd, hc₁, hat₁⟩ := patch_add attrs ht hf (hnone _ (List.prefix_refl _))
  rw [← Dn.key_child] at hc₁
  have hself : ∀ d : Dn, d.key = (up.child r).key →
      entryAt? t₁ d = some ⟨f.dn.child r, attrs⟩ := fun d hd => by
    rw [hat₁, if_pos (Dn.same_iff.mpr hd.symm)]
  have hother : ∀ (d : Dn) (q : List (List String)), (up.child r).key ++ [q] <+: d.key →
      entryAt? t₁ d = none := fun d q hd => by
    rw [hat₁, if_neg]
    · exact hnone d ((List.prefix_append _ _).trans hd)
    · intro hs
      exact not_prefix_concat (Dn.same_iff.mp hs ▸ hd)
  obtain ⟨t₂, hp₂, hc₂, hm₂, hrest⟩ := Turns.all (a := a) (b := b) (t := t₁) hg
    hrising.pairwise_ne hc₁.wellFormed (hc₁.rootDn.trans hroot)
    (fun d hd => by rw [hself d hd]; exact Option.some_ne_none _)
    (fun x _ d hd => (hother d _ hd).trans
      (hempty d ((List.prefix_append _ _).trans hd)).symm)
  refine ⟨t₂, (Patches.single hadd).append hp₂,
    hc₁.trans (hc₂.mono (prefix_key_child up r) (List.prefix_refl _)), fun d hd => ?_⟩
  rcases eq_or_prefix_concat hd with hd | ⟨q, hq⟩
  · rw [hrest d fun x _ hpre => not_prefix_concat (hd ▸ hpre), hself d hd,
      hb.entryAt?_congr hd, hat]
    have hsame := (lookup_of_entryAt? ht.linked hf).choose_spec.2.2.1
    refine .some ?_
    simp only [Entry.same, AttributeMap.same_refl, Bool.and_true, Dn.same_iff,
      Dn.key_child, Dn.same_iff.mp hsame]
  · by_cases hx : ∃ x ∈ l, x.1.key = q
    · obtain ⟨x, hx, rfl⟩ := hx
      exact hm₂ x hx d hq
    · have hnot : ∀ c s, Placed b c y s → s.key ≠ q := fun c s hp hs =>
        hx ⟨(s, c), (hmem s c).mpr hp, hs⟩
      rw [hrest d fun x hxl hpre => hx ⟨x, hxl, eq_of_prefix_concat hpre hq⟩,
        hother d q hq, hb.entryAt?_eq_none_of_children hy hnot hq]
      exact .none

theorem additions_turns (depth : Nat) (hb : Linked b) (hw : Way b rootId y ws)
    (hdepth : b.slots.length ≤ depth + ws.length) (hy : b.dn y = .ok (up.child r)) :
    ∃ cs, Tree.additions b depth y = .ok cs ∧ ∀ a : MemoryTree,
      (∀ d : Dn, up.key ++ [r.key] <+: d.key → entryAt? a d = none) →
        Turns a b up.key (up.key ++ [r.key]) cs := by
  induction depth generalizing y ws up r with
  | zero =>
      have := hb.way_length_lt hw
      omega
  | succ depth ih =>
      obtain ⟨n, hn⟩ := hw.live
      obtain ⟨attrs, he, hat⟩ := hb.entryAt?_of_dn hy rfl
      obtain ⟨l, hl, hrising, hmem⟩ := hb.childrenByRdn_eq_ok hn
      have hbelow : ∀ x ∈ l, ∃ cs, Tree.additions b depth x.2 = .ok cs ∧ ∀ a : MemoryTree,
          (∀ d : Dn, (up.child r).key ++ [x.1.key] <+: d.key → entryAt? a d = none) →
            Turns a b (up.child r).key ((up.child r).key ++ [x.1.key]) cs := by
        rintro ⟨s, c⟩ hx
        have hp := (hmem s c).mp hx
        refine ih (.step hp hw) ?_ (hb.dn_of_placed hp hy)
        rw [List.length_cons]
        omega
      obtain ⟨g, hg, hgs⟩ := Tree.exists_gather hbelow
      have hentry : TreeView.entry b y = .ok ⟨up.child r, attrs⟩ := he
      refine ⟨.add ⟨up.child r, attrs⟩ :: l.flatMap g, ?_, fun a hempty => ?_⟩
      · rw [Tree.additions, hentry]
        simp only [hl, hg]
      · rw [← Dn.key_child] at hempty ⊢
        refine add_turns hb hat hy hrising hmem (fun x hx => hgs x hx a fun d hd => ?_) hempty
        exact hempty d ((List.prefix_append _ _).trans hd)

/-! ## Deletions -/

/-- To delete all below each of a node's children, then the node, turns the whole part into
    nothing. -/
theorem delete_turns (ha : Linked a) (hat : entryAt? a (up.child r) = some ⟨up.child r, attrs⟩)
    (hx : a.dn x = .ok (up.child r)) (hne : x ≠ rootId)
    (hrising : Rising (fun z : Rdn × NodeId => z.1.key) l)
    (hmem : ∀ s c, (s, c) ∈ l ↔ Placed a c x s)
    (hg : ∀ y ∈ l, Turns a b (up.child r).key ((up.child r).key ++ [y.1.key]) (g y))
    (hempty : ∀ d : Dn, (up.child r).key <+: d.key → entryAt? b d = none) :
    Turns a b up.key (up.child r).key (l.flatMap g ++ [.delete (up.child r)]) := by
  intro t ht hroot hbase hag
  have hself : ∀ d : Dn, d.key = (up.child r).key → entryAt? t d = some ⟨up.child r, attrs⟩ :=
    fun d hd => by rw [hag d (hd ▸ List.prefix_refl _), ha.entryAt?_congr hd, hat]
  obtain ⟨t₁, hp₁, hc₁, hm₁, hrest⟩ := Turns.all (a := a) (b := b) (t := t) hg
    hrising.pairwise_ne ht hroot
    (fun d hd => by rw [hself d hd]; exact Option.some_ne_none _)
    (fun y _ d hd => hag d ((List.prefix_append _ _).trans hd))
  have hself₁ : ∀ d : Dn, d.key = (up.child r).key →
      entryAt? t₁ d = some ⟨up.child r, attrs⟩ := fun d hd => by
    rw [hrest d fun y _ hpre => not_prefix_concat (hd ▸ hpre), hself d hd]
  have hother₁ : ∀ (d : Dn) (q : List (List String)), (up.child r).key ++ [q] <+: d.key →
      entryAt? t₁ d = none := fun d q hq => by
    have hd := (List.prefix_append _ _).trans hq
    by_cases hy : ∃ y ∈ l, y.1.key = q
    · obtain ⟨y, hy, rfl⟩ := hy
      have := hm₁ y hy d hq
      rw [hempty d hd] at this
      exact this.eq_none
    · have hnot : ∀ c s, Placed a c x s → s.key ≠ q := fun c s hp hs =>
        hy ⟨(s, c), (hmem s c).mpr hp, hs⟩
      rw [hrest d fun y hyl hpre => hy ⟨y, hyl, eq_of_prefix_concat hpre hq⟩, hag d hd,
        ha.entryAt?_eq_none_of_children hx hnot hq]
  have hroot₁ : t₁.rootDn.same (up.child r) = false := by
    rw [hc₁.rootDn, hroot, Bool.eq_false_iff]
    intro hs
    exact hne (ha.eq_of_same ha.dn_root hx hs).symm
  obtain ⟨t₂, hdel, hc₂, hat₂⟩ := patch_delete hc₁.wellFormed (hself₁ _ rfl) hroot₁
    fun s => hother₁ _ s.key (Dn.key_child (up.child r) s ▸ List.prefix_refl _)
  rw [← Dn.key_child] at hc₂
  refine ⟨t₂, hp₁.append (.single hdel),
    (hc₁.mono (prefix_key_child up r) (List.prefix_refl _)).trans hc₂, fun d hd => ?_⟩
  rw [hat₂, hempty d hd]
  split
  · exact .none
  · rename_i hs
    rcases eq_or_prefix_concat hd with hd | ⟨q, hq⟩
    · exact absurd (Dn.same_iff.mpr hd.symm) hs
    · rw [hother₁ d q hq]
      exact .none

theorem deletions_turns (depth : Nat) (ha : Linked a) (hw : Way a rootId x ws)
    (hdepth : a.slots.length ≤ depth + ws.length) (hx : a.dn x = .ok (up.child r))
    (hne : x ≠ rootId) :
    ∃ cs, Tree.deletions a depth x = .ok cs ∧ ∀ b : MemoryTree,
      (∀ d : Dn, up.key ++ [r.key] <+: d.key → entryAt? b d = none) →
        Turns a b up.key (up.key ++ [r.key]) cs := by
  induction depth generalizing x ws up r with
  | zero =>
      have := ha.way_length_lt hw
      omega
  | succ depth ih =>
      obtain ⟨n, hn⟩ := hw.live
      obtain ⟨attrs, he, hat⟩ := ha.entryAt?_of_dn hx rfl
      obtain ⟨l, hl, hrising, hmem⟩ := ha.childrenByRdn_eq_ok hn
      have hbelow : ∀ y ∈ l, ∃ cs, Tree.deletions a depth y.2 = .ok cs ∧ ∀ b : MemoryTree,
          (∀ d : Dn, (up.child r).key ++ [y.1.key] <+: d.key → entryAt? b d = none) →
            Turns a b (up.child r).key ((up.child r).key ++ [y.1.key]) cs := by
        rintro ⟨s, c⟩ hy
        have hp := (hmem s c).mp hy
        refine ih (.step hp hw) ?_ (ha.dn_of_placed hp hx) ?_
        · rw [List.length_cons]
          omega
        · rintro rfl
          exact ha.not_placed_root hp
      obtain ⟨g, hg, hgs⟩ := Tree.exists_gather hbelow
      have hdn : TreeView.dn a x = .ok (up.child r) := hx
      refine ⟨l.flatMap g ++ [.delete (up.child r)], ?_, fun b hempty => ?_⟩
      · rw [Tree.deletions]
        simp only [hl, hg, hdn]
      · rw [← Dn.key_child] at hempty ⊢
        refine delete_turns ha hat hx hne hrising hmem (fun y hy => hgs y hy b fun d hd => ?_)
          hempty
        exact hempty d ((List.prefix_append _ _).trans hd)

end MemoryTree
end DirectoryStore
