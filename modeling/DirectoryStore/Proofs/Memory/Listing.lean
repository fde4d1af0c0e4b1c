import DirectoryStore.Proofs.Memory.Consistency
import DirectoryStore.Proofs.Memory.Difference

/-!
# What a difference lists

The difference of two trees in memory has one change for each name at which they differ: the
addition of the entry that only the second one has, the deletion of an entry that only the first
one has, or the edits between two entries of other attributes.  Entries are added in front of all
that is below them and deleted behind it.
-/

namespace DirectoryStore

namespace Change

variable {c c' : Change}

/-- Changes of different names in an order in which they may be made: what is added later is not
    above, and what is deleted later is not below. -/
def Ordered : Change → Change → Prop
  | add e, add f => f.dn.contains e.dn = false
  | delete d, delete d' => d.contains d' = false
  | c, c' => c.dn.same c'.dn = false

theorem Ordered.apart (h : Ordered c c') : c.dn.same c'.dn = false := by
  rw [Bool.eq_false_iff]
  intro hs
  cases c <;> cases c'
  case add.add =>
    exact absurd (Dn.contains_of_same (Dn.same_symm hs)) (Bool.eq_false_iff.mp h)
  case delete.delete => exact absurd (Dn.contains_of_same hs) (Bool.eq_false_iff.mp h)
  all_goals exact absurd hs (Bool.eq_false_iff.mp h)

/-- Names that do not contain each other may be changed in any order. -/
theorem ordered_of_incomparable (h : ¬ c.dn.key <+: c'.dn.key) (h' : ¬ c'.dn.key <+: c.dn.key) :
    Ordered c c' := by
  have hne : c.dn.same c'.dn = false :=
    Bool.eq_false_iff.mpr fun hs => h (Dn.same_iff.mp hs ▸ List.prefix_refl _)
  cases c <;> cases c'
  case add.add => exact Bool.eq_false_iff.mpr (mt Dn.contains_iff.mp h')
  case delete.delete => exact Bool.eq_false_iff.mpr (mt Dn.contains_iff.mp h)
  all_goals exact hne

/-- What is not deleted may be changed before what has a longer name. -/
theorem ordered_of_lt (h : c.dn.size < c'.dn.size) (hc : ∀ d, c ≠ .delete d) : Ordered c c' := by
  have hne : c.dn.same c'.dn = false :=
    Bool.eq_false_iff.mpr fun hs => Nat.ne_of_lt h (Dn.size_eq_of_same hs)
  cases c <;> cases c'
  case add.add =>
    exact Bool.eq_false_iff.mpr fun hpre => Nat.not_le_of_lt h (Dn.size_le_of_contains hpre)
  case delete.delete => exact absurd rfl (hc _)
  all_goals exact hne

/-- What is not added may be changed after what has a longer name. -/
theorem ordered_of_gt (h : c'.dn.size < c.dn.size) (hc : ∀ e, c' ≠ .add e) : Ordered c c' := by
  have hne : c.dn.same c'.dn = false :=
    Bool.eq_false_iff.mpr fun hs => Nat.ne_of_gt h (Dn.size_eq_of_same hs)
  cases c <;> cases c'
  case add.add => exact absurd rfl (hc _)
  case delete.delete =>
    exact Bool.eq_false_iff.mpr fun hpre => Nat.not_le_of_lt h (Dn.size_le_of_contains hpre)
  all_goals exact hne

end Change

namespace MemoryTree

open DirectoryStore.Tree (entryAt? childNamed)
open Change (Ordered)

variable {a b : MemoryTree} {x y : NodeId} {d d' dx dy : Dn} {c c' : Change} {cs : List Change}
variable {k : List (List (List String))} {q q' : List (List String)} {ws vs : List Rdn}
variable {ps : List (List (List String) × List Change)} {l : List (Rdn × NodeId)} {e : Entry}

/-- The change that a difference has for a name. -/
def changeAt? (a b : MemoryTree) (d : Dn) : Option Change :=
  match entryAt? a d, entryAt? b d with
  | none, none => none
  | none, some f => some (.add f)
  | some e, none => some (.delete e.dn)
  | some e, some f =>
      if e.attributes.same f.attributes then none
      else some (.modify e.dn (e.attributes.edits f.attributes))

/-- A list of changes has just one for each name at which two trees differ, and none for another
    name.  An entry is added after all above it that are added, so after its parent, and deleted
    after all below it that are deleted. -/
structure Enumerates (a b : MemoryTree) (cs : List Change) : Prop where
  once : ∀ d, cs.filter (fun c => c.dn.same d) = (changeAt? a b d).toList
  parent_first : ∀ pre e post, cs = pre ++ .add e :: post → ∀ f, .add f ∈ cs →
    f.dn.contains e.dn = true → f.dn.same e.dn = false → .add f ∈ pre
  children_first : ∀ pre d post, cs = pre ++ .delete d :: post → ∀ d', .delete d' ∈ cs →
    d.contains d' = true → d.same d' = false → .delete d' ∈ pre

/-! ## The change for a name -/

theorem changeAt?_congr (ha : Linked a) (hb : Linked b) (h : d.key = d'.key) :
    changeAt? a b d = changeAt? a b d' := by
  rw [changeAt?, changeAt?, ha.entryAt?_congr h, hb.entryAt?_congr h]

theorem Linked.key_of_entryAt? {t : MemoryTree} (h : Linked t) (he : entryAt? t d = some e) :
    e.dn.key = d.key := by
  obtain ⟨x, -, hs⟩ := h.entryAt?_eq_some_iff.mp he
  exact Dn.same_iff.mp hs

theorem key_of_changeAt? (ha : Linked a) (hb : Linked b) (h : changeAt? a b d = some c) :
    c.dn.key = d.key := by
  rw [changeAt?] at h
  split at h
  · cases h
  · rename_i f _ hf
    cases h
    exact hb.key_of_entryAt? hf
  · rename_i e he _
    cases h
    exact ha.key_of_entryAt? he
  · rename_i e f he hf
    split at h
    · cases h
    · cases h
      exact ha.key_of_entryAt? he

theorem mem_changeAt? (ha : Linked a) (hb : Linked b) :
    c ∈ (changeAt? a b d).toList ↔ changeAt? a b c.dn = some c ∧ c.dn.key = d.key := by
  rw [Option.mem_toList]
  constructor
  · intro h
    have hkey := key_of_changeAt? ha hb h
    exact ⟨(changeAt?_congr ha hb hkey).trans h, hkey⟩
  · rintro ⟨h, hkey⟩
    exact (changeAt?_congr ha hb hkey).symm.trans h

/-- A name at which the trees differ leads to an entry in one of them. -/
theorem exists_of_changeAt? (h : changeAt? a b d = some c) :
    (∃ e, entryAt? a d = some e) ∨ ∃ f, entryAt? b d = some f := by
  rw [changeAt?] at h
  split at h
  · cases h
  · rename_i f _ hf
    exact .inr ⟨f, hf⟩
  · rename_i e he _
    exact .inl ⟨e, he⟩
  · rename_i e f he _
    exact .inl ⟨e, he⟩

theorem changeAt?_eq_add_iff :
    changeAt? a b d = some (.add e) ↔ entryAt? b d = some e ∧ entryAt? a d = none := by
  constructor
  · intro h
    rw [changeAt?] at h
    split at h
    · cases h
    · rename_i f hnone hf
      cases h
      exact ⟨hf, hnone⟩
    · cases h
    · split at h <;> cases h
  · rintro ⟨hb, ha⟩
    rw [changeAt?, ha, hb]

theorem changeAt?_of_gone (ha : entryAt? a d = some e) (hb : entryAt? b d = none) :
    changeAt? a b d = some (.delete e.dn) := by
  rw [changeAt?, ha, hb]

/-- Between two entries of one name it is their difference. -/
theorem diff_eq_changeAt? {f : Entry} (ha : entryAt? a e.dn = some e)
    (hb : entryAt? b e.dn = some f) (hs : e.dn.same f.dn = true) :
    e.diff f = .ok (changeAt? a b e.dn) := by
  rw [changeAt?, ha, hb, Entry.diff, hs]
  simp only [Bool.not_true, Bool.false_eq_true, if_false]
  split <;> rfl

/-! ## Changes of parts -/

/-- The changes list the differences of the parts at `k`. -/
structure Lists (a b : MemoryTree) (k : List (List (List String))) (cs : List Change) : Prop where
  mem_iff : ∀ c, c ∈ cs ↔ changeAt? a b c.dn = some c ∧ k <+: c.dn.key
  ordered : cs.Pairwise Ordered

/-- The changes list the differences properly below `k`. -/
structure ListsBelow (a b : MemoryTree) (k : List (List (List String))) (cs : List Change) :
    Prop where
  mem_iff : ∀ c, c ∈ cs ↔ changeAt? a b c.dn = some c ∧ ∃ q, k ++ [q] <+: c.dn.key
  ordered : cs.Pairwise Ordered

theorem ordered_of_ne (h : k ++ [q] <+: c.dn.key) (h' : k ++ [q'] <+: c'.dn.key) (hne : q ≠ q') :
    Ordered c c' :=
  Change.ordered_of_incomparable (fun hpre => hne (eq_of_prefix_concat (h.trans hpre) h'))
    fun hpre => hne (eq_of_prefix_concat h (h'.trans hpre))

/-- Lists for different children make up a list for all below the node, if no child at which the
    trees differ is left out. -/
theorem ListsBelow.all (hps : ∀ p ∈ ps, Lists a b (k ++ [p.1]) p.2)
    (hne : ps.Pairwise fun p p' => p.1 ≠ p'.1)
    (hcover : ∀ (d : Dn) c q, changeAt? a b d = some c → k ++ [q] <+: d.key →
      ∃ p ∈ ps, p.1 = q) :
    ListsBelow a b k (ps.flatMap Prod.snd) where
  mem_iff c := by
    rw [List.mem_flatMap]
    constructor
    · rintro ⟨p, hp, hc⟩
      obtain ⟨hat, hpre⟩ := ((hps p hp).mem_iff c).mp hc
      exact ⟨hat, p.1, hpre⟩
    · rintro ⟨hat, q, hpre⟩
      obtain ⟨p, hp, rfl⟩ := hcover c.dn c q hat hpre
      exact ⟨p, hp, ((hps p hp).mem_iff c).mpr ⟨hat, hpre⟩⟩
  ordered := by
    refine List.pairwise_flatMap.mpr ⟨fun p hp => (hps p hp).ordered, ?_⟩
    refine hne.imp_of_mem fun hp hp' hne c hc c' hc' => ?_
    exact ordered_of_ne (((hps _ hp).mem_iff c).mp hc).2 (((hps _ hp').mem_iff c').mp hc').2 hne

theorem lists_iff (hkey : d.key = k) (ha : Linked a) (hb : Linked b) :
    changeAt? a b c.dn = some c ∧ k <+: c.dn.key ↔ c ∈ (changeAt? a b d).toList ∨
      changeAt? a b c.dn = some c ∧ ∃ q, k ++ [q] <+: c.dn.key := by
  rw [mem_changeAt? ha hb, ← and_or_left, hkey]
  refine and_congr_right fun _ => ⟨eq_or_prefix_concat, ?_⟩
  rintro (h | ⟨q, hq⟩)
  · exact h ▸ List.prefix_refl _
  · exact (List.prefix_append _ _).trans hq

theorem pairwise_toList {α : Type} {R : α → α → Prop} (o : Option α) : o.toList.Pairwise R := by
  cases o with
  | none => exact .nil
  | some _ => exact List.pairwise_singleton _ _

theorem size_lt_of_below (hkey : d.key = k) (h : k ++ [q] <+: d'.key) : d.size < d'.size := by
  have := h.length_le
  rw [← hkey, List.length_append, List.length_singleton, Dn.length_key, Dn.length_key] at this
  omega

/-- A change in front of all changes below it, unless it is a deletion. -/
theorem ListsBelow.under (h : ListsBelow a b d.key cs) (ha : Linked a) (hb : Linked b)
    (hnot : ∀ d', changeAt? a b d ≠ some (.delete d')) :
    Lists a b d.key ((changeAt? a b d).toList ++ cs) where
  mem_iff c := by
    rw [List.mem_append, h.mem_iff, lists_iff rfl ha hb]
  ordered := by
    refine List.pairwise_append.mpr ⟨pairwise_toList _, h.ordered, fun c hc c' hc' => ?_⟩
    obtain ⟨-, q, hq⟩ := (h.mem_iff c').mp hc'
    refine Change.ordered_of_lt (size_lt_of_below ((mem_changeAt? ha hb).mp hc).2 hq) ?_
    rintro d' rfl
    exact hnot d' (Option.mem_toList.mp hc)

/-- A change behind all changes below it, unless it is an addition. -/
theorem ListsBelow.over (h : ListsBelow a b d.key cs) (ha : Linked a) (hb : Linked b)
    (hnot : ∀ e, changeAt? a b d ≠ some (.add e)) :
    Lists a b d.key (cs ++ (changeAt? a b d).toList) where
  mem_iff c := by
    rw [List.mem_append, h.mem_iff, lists_iff rfl ha hb, or_comm]
  ordered := by
    refine List.pairwise_append.mpr ⟨h.ordered, pairwise_toList _, fun c hc c' hc' => ?_⟩
    obtain ⟨-, q, hq⟩ := (h.mem_iff c).mp hc
    refine Change.ordered_of_gt (size_lt_of_below ((mem_changeAt? ha hb).mp hc').2 hq) ?_
    rintro e rfl
    exact hnot e (Option.mem_toList.mp hc')

/-! ## Additions and deletions -/

theorem flatMap_keyed (l : List (Rdn × NodeId)) (g : Rdn × NodeId → List Change) :
    (l.map fun z => (z.1.key, g z)).flatMap Prod.snd = l.flatMap g :=
  List.flatMap_map ..

/-- Lists for all children of a node make up a list for all below it, if the other tree has
    nothing there. -/
theorem listsBelow_of_children {g : Rdn × NodeId → List Change}
    (hrising : Rising (fun z : Rdn × NodeId => z.1.key) l)
    (hg : ∀ z ∈ l, Lists a b (k ++ [z.1.key]) (g z))
    (hcover : ∀ (d : Dn) c q, changeAt? a b d = some c → k ++ [q] <+: d.key →
      ∃ z ∈ l, z.1.key = q) :
    ListsBelow a b k (l.flatMap g) := by
  rw [← flatMap_keyed]
  refine .all ?_ (List.pairwise_map.mpr hrising.pairwise_ne) fun d c q hat hq => ?_
  · exact List.forall_mem_map.mpr hg
  · obtain ⟨z, hz, rfl⟩ := hcover d c q hat hq
    exact ⟨_, List.mem_map_of_mem hz, rfl⟩

theorem additions_lists (depth : Nat) (hb : Linked b) (hw : Way b rootId y ws)
    (hdepth : b.slots.length ≤ depth + ws.length) (hy : b.dn y = .ok dy) :
    ∃ cs, Tree.additions b depth y = .ok cs ∧ ∀ a : MemoryTree, Linked a →
      (∀ d : Dn, dy.key <+: d.key → entryAt? a d = none) → Lists a b dy.key cs := by
  induction depth generalizing y ws dy with
  | zero =>
      have := hb.way_length_lt hw
      omega
  | succ depth ih =>
      obtain ⟨n, hn⟩ := hw.live
      obtain ⟨attrs, he, hat⟩ := hb.entryAt?_of_dn hy rfl
      obtain ⟨l, hl, hrising, hmem⟩ := hb.childrenByRdn_eq_ok hn
      have hbelow : ∀ z ∈ l, ∃ cs, Tree.additions b depth z.2 = .ok cs ∧ ∀ a : MemoryTree,
          Linked a → (∀ d : Dn, (dy.child z.1).key <+: d.key → entryAt? a d = none) →
            Lists a b (dy.child z.1).key cs := by
        rintro ⟨s, c⟩ hz
        have hp := (hmem s c).mp hz
        refine ih (.step hp hw) ?_ (hb.dn_of_placed hp hy)
        rw [List.length_cons]
        omega
      obtain ⟨g, hg, hgs⟩ := Tree.exists_gather hbelow
      have hentry : TreeView.entry b y = .ok ⟨dy, attrs⟩ := he
      refine ⟨.add ⟨dy, attrs⟩ :: l.flatMap g, ?_, fun a ha hempty => ?_⟩
      · rw [Tree.additions, hentry]
        simp only [hl, hg]
      · have htop := changeAt?_eq_add_iff.mpr ⟨hat, hempty dy (List.prefix_refl _)⟩
        have hrest : ListsBelow a b dy.key (l.flatMap g) := by
          refine listsBelow_of_children hrising (fun z hz => ?_) fun d c q hc hq => ?_
          · rw [← Dn.key_child]
            refine hgs z hz a ha fun d hd => hempty d ((prefix_key_child dy z.1).trans hd)
          · rcases exists_of_changeAt? hc with ⟨e, he⟩ | ⟨f, hf⟩
            · rw [hempty d ((List.prefix_append _ _).trans hq)] at he
              cases he
            · obtain ⟨z, s, hp, rfl⟩ := hb.exists_child hy hf hq
              exact ⟨(s, z), (hmem s z).mpr hp, rfl⟩
        have := hrest.under ha hb fun d' h => by rw [htop] at h; cases h
        rwa [htop] at this

theorem deletions_lists (depth : Nat) (ha : Linked a) (hw : Way a rootId x ws)
    (hdepth : a.slots.length ≤ depth + ws.length) (hx : a.dn x = .ok dx) :
    ∃ cs, Tree.deletions a depth x = .ok cs ∧ ∀ b : MemoryTree, Linked b →
      (∀ d : Dn, dx.key <+: d.key → entryAt? b d = none) → Lists a b dx.key cs := by
  induction depth generalizing x ws dx with
  | zero =>
      have := ha.way_length_lt hw
      omega
  | succ depth ih =>
      obtain ⟨n, hn⟩ := hw.live
      obtain ⟨attrs, -, hat⟩ := ha.entryAt?_of_dn hx rfl
      obtain ⟨l, hl, hrising, hmem⟩ := ha.childrenByRdn_eq_ok hn
      have hbelow : ∀ z ∈ l, ∃ cs, Tree.deletions a depth z.2 = .ok cs ∧ ∀ b : MemoryTree,
          Linked b → (∀ d : Dn, (dx.child z.1).key <+: d.key → entryAt? b d = none) →
            Lists a b (dx.child z.1).key cs := by
        rintro ⟨s, c⟩ hz
        have hp := (hmem s c).mp hz
        refine ih (.step hp hw) ?_ (ha.dn_of_placed hp hx)
        rw [List.length_cons]
        omega
      obtain ⟨g, hg, hgs⟩ := Tree.exists_gather hbelow
      have hdn : TreeView.dn a x = .ok dx := hx
      refine ⟨l.flatMap g ++ [.delete dx], ?_, fun b hb hempty => ?_⟩
      · rw [Tree.deletions]
        simp only [hl, hg, hdn]
      · have htop := changeAt?_of_gone hat (hempty dx (List.prefix_refl _))
        have hrest : ListsBelow a b dx.key (l.flatMap g) := by
          refine listsBelow_of_children hrising (fun z hz => ?_) fun d c q hc hq => ?_
          · rw [← Dn.key_child]
            refine hgs z hz b hb fun d hd => hempty d ((prefix_key_child dx z.1).trans hd)
          · rcases exists_of_changeAt? hc with ⟨e, he⟩ | ⟨f, hf⟩
            · obtain ⟨z, s, hp, rfl⟩ := ha.exists_child hx he hq
              exact ⟨(s, z), (hmem s z).mpr hp, rfl⟩
            · rw [hempty d ((List.prefix_append _ _).trans hq)] at hf
              cases hf
        have := hrest.over ha hb fun e h => by rw [htop] at h; cases h
        rwa [htop] at this

/-! ## Differences -/

/-- The changes of a child and the child of its name below the other node, if there is one. -/
structure PairLists (a b : MemoryTree) (depth : Nat) (k : List (List (List String)))
    (m : List (Rdn × NodeId)) (z : Rdn × NodeId) (cs : List Change) : Prop where
  eq_ok : ∀ c, childNamed z.1 m = some c → Tree.diffNodes a b depth z.2 c = .ok cs
  skip : childNamed z.1 m = none → cs = []
  lists : childNamed z.1 m ≠ none → Lists a b (k ++ [z.1.key]) cs

section Children

variable {m : List (Rdn × NodeId)}

theorem exists_lists_added (depth : Nat) (ha : Linked a) (hb : Linked b) (hx : a.dn x = .ok dx)
    (hy : b.dn y = .ok dy) (hkey : dx.key = dy.key) (hv : Way b rootId y vs)
    (hlmem : ∀ s c, (s, c) ∈ l ↔ Placed a c x s) (hmmem : ∀ s c, (s, c) ∈ m ↔ Placed b c y s)
    (hdepth : b.slots.length ≤ depth + 1 + vs.length) :
    ∀ z ∈ m.filter fun z => (childNamed z.1 l).isNone, ∃ cs,
      Tree.additions b depth z.2 = .ok cs ∧ Lists a b (dx.key ++ [z.1.key]) cs := by
  rintro ⟨s, c⟩ hz
  obtain ⟨hz, hnone⟩ := List.mem_filter.mp hz
  have hp := (hmmem s c).mp hz
  obtain ⟨cs, hcs, hlists⟩ := additions_lists depth hb (.step hp hv)
    (by rw [List.length_cons]; omega) (hb.dn_of_placed hp hy)
  rw [Dn.key_child, ← hkey] at hlists
  exact ⟨cs, hcs, hlists a ha fun d hd => ha.entryAt?_eq_none_of_childNamed hx hlmem
    (Option.isNone_iff_eq_none.mp hnone) hd⟩

theorem exists_lists_deleted (depth : Nat) (ha : Linked a) (hb : Linked b) (hx : a.dn x = .ok dx)
    (hy : b.dn y = .ok dy) (hkey : dx.key = dy.key) (hw : Way a rootId x ws)
    (hlmem : ∀ s c, (s, c) ∈ l ↔ Placed a c x s) (hmmem : ∀ s c, (s, c) ∈ m ↔ Placed b c y s)
    (hdepth : a.slots.length ≤ depth + 1 + ws.length) :
    ∀ z ∈ l.filter fun z => (childNamed z.1 m).isNone, ∃ cs,
      Tree.deletions a depth z.2 = .ok cs ∧ Lists a b (dx.key ++ [z.1.key]) cs := by
  rintro ⟨s, c⟩ hz
  obtain ⟨hz, hnone⟩ := List.mem_filter.mp hz
  have hp := (hlmem s c).mp hz
  obtain ⟨cs, hcs, hlists⟩ := deletions_lists depth ha (.step hp hw)
    (by rw [List.length_cons]; omega) (ha.dn_of_placed hp hx)
  rw [Dn.key_child] at hlists
  exact ⟨cs, hcs, hlists b hb fun d hd => hb.entryAt?_eq_none_of_childNamed hy hmmem
    (Option.isNone_iff_eq_none.mp hnone) (hkey ▸ hd)⟩

/-- The pieces of the children of two nodes make up a list for all below them: where the trees
    differ, one of the nodes has a child. -/
theorem listsBelow_of_pieces (ha : Linked a) (hb : Linked b) (hx : a.dn x = .ok dx)
    (hy : b.dn y = .ok dy) (hkey : dx.key = dy.key)
    (hl : Rising (fun z : Rdn × NodeId => z.1.key) l) (hlmem : ∀ s c, (s, c) ∈ l ↔ Placed a c x s)
    (hm : Rising (fun z : Rdn × NodeId => z.1.key) m) (hmmem : ∀ s c, (s, c) ∈ m ↔ Placed b c y s)
    {shared added deleted : Rdn × NodeId → List Change}
    (hpieces : ∀ p ∈ Tree.pieces l m shared deleted added, Lists a b (dx.key ++ [p.1]) p.2) :
    ListsBelow a b dx.key ((Tree.pieces l m shared deleted added).flatMap Prod.snd) := by
  refine .all hpieces (Tree.pieces_pairwise hl hm) fun d c q hc hq => Tree.exists_piece hl ?_
  rcases exists_of_changeAt? hc with ⟨e, he⟩ | ⟨f, hf⟩
  · obtain ⟨z, s, hp, hs⟩ := ha.exists_child hx he hq
    exact .inl ⟨s, z, (hlmem s z).mpr hp, hs⟩
  · rw [hkey] at hq
    obtain ⟨z, s, hp, hs⟩ := hb.exists_child hy hf hq
    exact .inr ⟨s, z, (hmmem s z).mpr hp, hs⟩

end Children

/-- The changes of two nodes of one name list the differences from there on. -/
theorem diffNodes_lists (depth : Nat) (ha : Linked a) (hb : Linked b) (hx : a.dn x = .ok dx)
    (hy : b.dn y = .ok dy) (hkey : dx.key = dy.key) (hw : Way a rootId x ws)
    (hv : Way b rootId y vs)
    (hdepth : a.slots.length + b.slots.length ≤ depth + ws.length + vs.length) :
    ∃ cs, Tree.diffNodes a b depth x y = .ok cs ∧ Lists a b dx.key cs := by
  have hwlen := ha.way_length_lt hw
  have hvlen := hb.way_length_lt hv
  induction depth generalizing x y dx dy ws vs with
  | zero => omega
  | succ depth ih =>
      obtain ⟨n, hn⟩ := hw.live
      obtain ⟨n', hn'⟩ := hv.live
      obtain ⟨attrs, he, hat⟩ := ha.entryAt?_of_dn hx rfl
      obtain ⟨attrs', he', hat'⟩ := hb.entryAt?_of_dn hy hkey
      obtain ⟨l, hl, hlrising, hlmem⟩ := ha.childrenByRdn_eq_ok hn
      obtain ⟨m, hm, hmrising, hmmem⟩ := hb.childrenByRdn_eq_ok hn'
      have hown := diff_eq_changeAt? (e := ⟨dx, attrs⟩) hat hat' (Dn.same_iff.mpr hkey)
      have hshared : ∀ z ∈ l, ∃ cs, PairLists a b depth dx.key m z cs := by
        rintro ⟨s, c⟩ hz
        have hp := (hlmem s c).mp hz
        cases hother : childNamed s m with
        | none =>
            exact ⟨[], fun _ h => absurd (hother.symm.trans h) (Option.some_ne_none _).symm,
              fun _ => rfl, fun h => absurd hother h⟩
        | some c' =>
            obtain ⟨s', hs', hskey⟩ := (Tree.childNamed_eq_some_iff hmrising).mp hother
            have hp' := (hmmem s' c').mp hs'
            have hw' := Way.step hp hw
            have hv' := Way.step hp' hv
            obtain ⟨cs, hcs, hlists⟩ := ih (ha.dn_of_placed hp hx) (hb.dn_of_placed hp' hy)
              (by rw [Dn.key_child, Dn.key_child, hkey, hskey]) hw' hv'
              (by simp only [List.length_cons]; omega) (ha.way_length_lt hw')
              (hb.way_length_lt hv')
            refine ⟨cs, fun c'' hc'' => ?_, fun h => ?_, fun _ => ?_⟩
            · obtain rfl : c' = c'' := Option.some.inj (hother.symm.trans hc'')
              exact hcs
            · exact absurd (hother.symm.trans h) (Option.some_ne_none _)
            · rw [← Dn.key_child]
              exact hlists
      have hadded := exists_lists_added depth ha hb hx hy hkey hv hlmem hmmem (by omega)
      have hdeleted := exists_lists_deleted depth ha hb hx hy hkey hw hlmem hmmem (by omega)
      obtain ⟨shared, hshared⟩ := Tree.exists_choice hshared
      obtain ⟨added, haddedok, hadded⟩ := Tree.exists_gather hadded
      obtain ⟨deleted, hdeletedok, hdeleted⟩ := Tree.exists_gather hdeleted
      have hskip := fun z hz => (hshared z hz).skip
      have hpieces : ∀ p ∈ Tree.pieces l m shared deleted added,
          Lists a b (dx.key ++ [p.1]) p.2 := by
        intro p hp
        rcases Tree.mem_pieces hp with ⟨z, hz, hne, rfl⟩ | ⟨z, hz, hnone, rfl⟩ |
          ⟨z, hz, hnone, rfl⟩
        · exact (hshared z hz).lists hne
        · exact hadded z (List.mem_filter.mpr ⟨hz, by rw [hnone]; rfl⟩)
        · exact hdeleted z (List.mem_filter.mpr ⟨hz, by rw [hnone]; rfl⟩)
      have hbelow := listsBelow_of_pieces ha hb hx hy hkey hlrising hlmem hmrising hmmem hpieces
      have hentry : TreeView.entry a x = .ok ⟨dx, attrs⟩ := he
      have hentry' : TreeView.entry b y = .ok ⟨dy, attrs'⟩ := he'
      refine ⟨_, ?_, hbelow.under ha hb fun d' hd' => ?_⟩
      · rw [Tree.flatMap_pieces hskip, Tree.diffNodes_succ hentry hentry' hown hl hm
          (fun z hz => (hshared z hz).eq_ok) hskip haddedok hdeletedok]
        simp only [List.append_assoc]
      · rw [changeAt?, hat, hat'] at hd'
        dsimp only at hd'
        split at hd' <;> cases hd'

/-! ## Whole differences -/

theorem Linked.prefix_of_entryAt? (h : Linked a) (he : entryAt? a d = some e) :
    a.rootDn.key <+: d.key := by
  obtain ⟨x, hx, hs⟩ := h.entryAt?_eq_some_iff.mp he
  rw [← Dn.same_iff.mp hs]
  exact h.prefix_root (h.entry_eq_ok_iff.mp hx).1

theorem diffTrees_lists (ha : Linked a) (hb : Linked b) (hsame : a.rootDn.same b.rootDn = true) :
    ∃ cs, Tree.diffTrees a b = .ok cs ∧ Lists a b a.rootDn.key cs := by
  have hx := ha.dn_root
  have hy := hb.dn_root
  obtain ⟨attrs, he, -⟩ := ha.entryAt?_of_dn hx rfl
  obtain ⟨attrs', he', -⟩ := hb.entryAt?_of_dn hy rfl
  have hentry : TreeView.entry a rootId = .ok ⟨a.rootDn, attrs⟩ := he
  have hentry' : TreeView.entry b rootId = .ok ⟨b.rootDn, attrs'⟩ := he'
  obtain ⟨cs, hcs, hlists⟩ := diffNodes_lists (a.slots.length + b.slots.length) ha hb hx hy
    (Dn.same_iff.mp hsame) ha.root_way hb.root_way (by simp only [List.length_nil]; omega)
  exact ⟨cs, (Tree.diffSubtrees_eq hentry hentry' hsame).trans hcs, hlists⟩

theorem prefix_of_changeAt? (ha : Linked a) (hb : Linked b)
    (hsame : a.rootDn.same b.rootDn = true) (h : changeAt? a b d = some c) :
    a.rootDn.key <+: d.key := by
  rcases exists_of_changeAt? h with ⟨e, he⟩ | ⟨f, hf⟩
  · exact ha.prefix_of_entryAt? he
  · rw [Dn.same_iff.mp hsame]
    exact hb.prefix_of_entryAt? hf

theorem eq_toList_of_mem_iff {α : Type} {l : List α} {o : Option α} (hl : l.Nodup)
    (h : ∀ x, x ∈ l ↔ x ∈ o.toList) : l = o.toList := by
  have hperm := (List.perm_ext_iff_of_nodup hl (pairwise_toList o)).mpr h
  cases o with
  | none => exact List.perm_nil.mp hperm
  | some x => exact List.perm_singleton.mp hperm

/-- What a list may not have behind a change it has in front of it. -/
theorem mem_front {pre post : List Change} (h : (pre ++ c :: post).Pairwise Ordered)
    (hmem : c' ∈ pre ++ c :: post) (hne : c' ≠ c) (hnot : ¬ Ordered c c') : c' ∈ pre := by
  rcases List.mem_append.mp hmem with hpre | hrest
  · exact hpre
  · rcases List.mem_cons.mp hrest with heq | hpost
    · exact absurd heq hne
    · have hcons := (List.pairwise_append.mp h).2.1
      exact absurd (List.rel_of_pairwise_cons hcons hpost) hnot

theorem Lists.enumerates (h : Lists a b a.rootDn.key cs) (ha : Linked a) (hb : Linked b)
    (hsame : a.rootDn.same b.rootDn = true) : Enumerates a b cs where
  once d := by
    have hnodup : cs.Nodup := h.ordered.imp fun hc heq => by
      have := hc.apart
      rw [heq, Dn.same_refl] at this
      cases this
    refine eq_toList_of_mem_iff (hnodup.filter _) fun c => ?_
    rw [List.mem_filter, h.mem_iff, mem_changeAt? ha hb, Dn.same_iff]
    refine and_congr_left fun _ => and_iff_left_of_imp fun hc => ?_
    exact prefix_of_changeAt? ha hb hsame hc
  parent_first := by
    rintro pre e post rfl f hf habove hne
    refine mem_front h.ordered hf (fun heq => ?_) fun ho => ?_
    · cases heq
      rw [Dn.same_refl] at hne
      cases hne
    · rw [Ordered, habove] at ho
      cases ho
  children_first := by
    rintro pre d post rfl d' hd' hbelow hne
    refine mem_front h.ordered hd' (fun heq => ?_) fun ho => ?_
    · cases heq
      rw [Dn.same_refl] at hne
      cases hne
    · rw [Ordered, hbelow] at ho
      cases ho

/-- The difference of two trees of one name, that any runs have led to, is found and has just one
    change for each name at which they differ, in the order in which they can be made. -/
theorem diffTrees_enumerates (e f : Entry) (calls calls' : List (NodeId × Call))
    (hsame : e.dn.same f.dn = true) :
    ∃ cs, Tree.diffTrees (Tree.afterCalls calls (ofRoot e)) (Tree.afterCalls calls' (ofRoot f)) =
        .ok cs ∧
      Enumerates (Tree.afterCalls calls (ofRoot e)) (Tree.afterCalls calls' (ofRoot f)) cs := by
  have ha := (wellFormed_afterCalls (wellFormed_ofRoot e) calls).linked
  have hb := (wellFormed_afterCalls (wellFormed_ofRoot f) calls').linked
  have hroot : (Tree.afterCalls calls (ofRoot e)).rootDn.same
      (Tree.afterCalls calls' (ofRoot f)).rootDn = true := by
    rw [rootDn_afterCalls (wellFormed_ofRoot e), rootDn_afterCalls (wellFormed_ofRoot f)]
    exact hsame
  obtain ⟨cs, hcs, hlists⟩ := diffTrees_lists ha hb hroot
  exact ⟨cs, hcs, hlists.enumerates ha hb hroot⟩

/-- A tree with a part to delete and a node to modify, and one with a part that is new. -/
theorem diffTrees_enumerates_parts :
    let e : Entry := ⟨⟨[.single "dc" "x"]⟩, .empty⟩
    let f : Entry := ⟨⟨[.single "DC" "x"]⟩, .ofPairs [("o", [[97]])]⟩
    let calls : List (NodeId × Call) := [(rootId, .addChild (.single "ou" "a") .empty),
      (⟨1, 0⟩, .addChild (.single "cn" "b") .empty)]
    let calls' : List (NodeId × Call) := [(rootId, .addChild (.single "ou" "d") .empty),
      (⟨1, 0⟩, .addChild (.single "cn" "b") .empty)]
    e.dn.same f.dn = true ∧
      ∃ cs, Tree.diffTrees (Tree.afterCalls calls (ofRoot e))
          (Tree.afterCalls calls' (ofRoot f)) = .ok cs ∧
        Enumerates (Tree.afterCalls calls (ofRoot e)) (Tree.afterCalls calls' (ofRoot f)) cs := by
  intro e f calls calls'
  have hs : e.dn.same f.dn = true := by decide
  exact ⟨hs, diffTrees_enumerates e f calls calls' hs⟩

end MemoryTree
end DirectoryStore
