import DirectoryStore.Proofs.Memory.Consistency
import DirectoryStore.Proofs.Memory.Turns
import DirectoryStore.Proofs.Tree.Assembly

/-!
# Difference and patch

The difference of two parts of the same name is found for all trees in memory, its changes
succeed one after another, and they make the first part like the second one without
touching anything else.  It is empty just when the parts were alike before.
-/

namespace DirectoryStore

namespace Tree

variable {α ν : Type} {l : List (Rdn × ν)} {r s : Rdn}

theorem exists_choice {p : α → List Change → Prop} {l : List α} (h : ∀ x ∈ l, ∃ cs, p x cs) :
    ∃ g : α → List Change, ∀ x ∈ l, p x (g x) := by
  classical
  refine ⟨fun x => if hx : x ∈ l then (h x hx).choose else [], fun x hx => ?_⟩
  simp only [hx, dif_pos]
  exact (h x hx).choose_spec

/-- The changes below two nodes, put together from those of their entries and children. -/
theorem diffNodes_succ {σ μ τ : Type} [TreeView σ μ] [TreeView τ ν] {a : σ} {b : τ} {depth : Nat}
    {x : μ} {y : ν} {e f : Entry} {own : Option Change} {l : List (Rdn × μ)} {m : List (Rdn × ν)}
    {shared deleted : Rdn × μ → List Change} {added : Rdn × ν → List Change}
    (he : TreeView.entry a x = .ok e) (hf : TreeView.entry b y = .ok f)
    (hown : e.diff f = .ok own) (hl : childrenByRdn a x = .ok l) (hm : childrenByRdn b y = .ok m)
    (hshared : ∀ z ∈ l, ∀ c, childNamed z.1 m = some c →
      diffNodes a b depth z.2 c = .ok (shared z))
    (hskip : ∀ z ∈ l, childNamed z.1 m = none → shared z = [])
    (hadded : gather (fun z => additions b depth z.2)
      (m.filter fun z => (childNamed z.1 l).isNone) =
        .ok ((m.filter fun z => (childNamed z.1 l).isNone).flatMap added))
    (hdeleted : gather (fun z => deletions a depth z.2)
      (l.filter fun z => (childNamed z.1 m).isNone) =
        .ok ((l.filter fun z => (childNamed z.1 m).isNone).flatMap deleted)) :
    diffNodes a b (depth + 1) x y = .ok (own.toList ++ l.flatMap shared ++
      (m.filter fun z => (childNamed z.1 l).isNone).flatMap added ++
      (l.filter fun z => (childNamed z.1 m).isNone).flatMap deleted) := by
  have hpairs : ∀ z ∈ l, pairChanges a b depth m z = .ok (shared z) := by
    intro z hz
    rw [pairChanges]
    cases hc : childNamed z.1 m with
    | none => rw [hskip z hz hc]
    | some c => exact hshared z hz c hc
  exact diffNodes_succ_eq_ok_iff.mpr ⟨e, f, own, l, m, _, _, _, he, hf, hown, hl, hm,
    gatherChanges_eq_ok hpairs, hadded, hdeleted, rfl⟩

theorem childNamed_congr (h : r.key = s.key) : childNamed r l = childNamed s l := by
  rw [childNamed, childNamed, h]

theorem flatMap_filter_of_eq_nil {p : α → Bool} {g : α → List Change} {xs : List α}
    (h : ∀ x ∈ xs, p x = false → g x = []) : xs.flatMap g = (xs.filter p).flatMap g := by
  induction xs with
  | nil => rfl
  | cons x xs ih =>
      have ih := ih fun y hy => h y (List.mem_cons_of_mem _ hy)
      cases hx : p x with
      | false => rw [List.flatMap_cons, h x List.mem_cons_self hx, List.filter_cons_of_neg
          (by rw [hx]; exact Bool.false_ne_true), ih, List.nil_append]
      | true => rw [List.flatMap_cons, List.filter_cons_of_pos hx, List.flatMap_cons, ih]

/-- The changes of the children of two nodes, with their keys: of those that both have, of
    those that only the second has, of those that only the first has. -/
def pieces {μ : Type} (l : List (Rdn × ν)) (m : List (Rdn × μ))
    (shared deleted : Rdn × ν → List Change) (added : Rdn × μ → List Change) :
    List (List (List String) × List Change) :=
  (l.filter fun z => (childNamed z.1 m).isSome).map (fun z => (z.1.key, shared z)) ++
    (m.filter fun z => (childNamed z.1 l).isNone).map (fun z => (z.1.key, added z)) ++
    (l.filter fun z => (childNamed z.1 m).isNone).map (fun z => (z.1.key, deleted z))

section Pieces

variable {μ : Type} {m : List (Rdn × μ)}
variable {shared deleted : Rdn × ν → List Change} {added : Rdn × μ → List Change}

theorem flatMap_pieces (h : ∀ z ∈ l, childNamed z.1 m = none → shared z = []) :
    (pieces l m shared deleted added).flatMap Prod.snd = l.flatMap shared ++
      (m.filter fun z => (childNamed z.1 l).isNone).flatMap added ++
      (l.filter fun z => (childNamed z.1 m).isNone).flatMap deleted := by
  have hshared : l.flatMap shared =
      (l.filter fun z => (childNamed z.1 m).isSome).flatMap shared :=
    flatMap_filter_of_eq_nil fun z hz hnone => h z hz (by simpa using hnone)
  simp only [pieces, hshared, List.flatMap_append, List.flatMap_map]

theorem mem_pieces {p : List (List String) × List Change}
    (h : p ∈ pieces l m shared deleted added) :
    (∃ z ∈ l, childNamed z.1 m ≠ none ∧ p = (z.1.key, shared z)) ∨
      (∃ z ∈ m, childNamed z.1 l = none ∧ p = (z.1.key, added z)) ∨
      ∃ z ∈ l, childNamed z.1 m = none ∧ p = (z.1.key, deleted z) := by
  simp only [pieces, List.mem_append, List.mem_map, List.mem_filter, Option.isSome_iff_ne_none,
    Option.isNone_iff_eq_none, or_assoc] at h
  rcases h with ⟨z, ⟨hz, hn⟩, rfl⟩ | ⟨z, ⟨hz, hn⟩, rfl⟩ | ⟨z, ⟨hz, hn⟩, rfl⟩
  · exact .inl ⟨z, hz, hn, rfl⟩
  · exact .inr (.inl ⟨z, hz, hn, rfl⟩)
  · exact .inr (.inr ⟨z, hz, hn, rfl⟩)

/-- Each child of either node has its piece. -/
theorem exists_piece (hl : Rising (fun z : Rdn × ν => z.1.key) l) {q : List (List String)}
    (h : (∃ s c, (s, c) ∈ l ∧ s.key = q) ∨ ∃ s c, (s, c) ∈ m ∧ s.key = q) :
    ∃ p ∈ pieces l m shared deleted added, p.1 = q := by
  have hleft : ∀ s c, (s, c) ∈ l → ∃ p ∈ pieces l m shared deleted added, p.1 = s.key := by
    intro s c hs
    simp only [pieces, List.mem_append, List.mem_map, List.mem_filter]
    cases hn : childNamed s m with
    | none => exact ⟨_, .inr ⟨(s, c), ⟨hs, by rw [hn]; rfl⟩, rfl⟩, rfl⟩
    | some _ => exact ⟨_, .inl (.inl ⟨(s, c), ⟨hs, by rw [hn]; rfl⟩, rfl⟩), rfl⟩
  rcases h with ⟨s, c, hs, rfl⟩ | ⟨s, c, hs, rfl⟩
  · exact hleft s c hs
  · cases hn : childNamed s l with
    | none =>
        refine ⟨(s.key, added (s, c)), ?_, rfl⟩
        simp only [pieces, List.mem_append, List.mem_map, List.mem_filter]
        exact .inl (.inr ⟨(s, c), ⟨hs, by rw [hn]; rfl⟩, rfl⟩)
    | some c' =>
        obtain ⟨s', hs', hkey⟩ := (childNamed_eq_some_iff hl).mp hn
        rw [← hkey]
        exact hleft s' c' hs'

/-- No two pieces have the same key. -/
theorem pieces_pairwise (hl : Rising (fun z : Rdn × ν => z.1.key) l)
    (hm : Rising (fun z : Rdn × μ => z.1.key) m) :
    (pieces l m shared deleted added).Pairwise fun p p' => p.1 ≠ p'.1 := by
  have hfresh : ∀ z ∈ l, ∀ w, childNamed w l = none → z.1.key ≠ w.key :=
    fun z hz w hw => childNamed_eq_none_iff.mp hw z.1 z.2 hz
  unfold pieces
  refine List.pairwise_append.mpr ⟨List.pairwise_append.mpr ⟨?_, ?_, ?_⟩, ?_, ?_⟩
  · exact List.pairwise_map.mpr (hl.pairwise_ne.filter _)
  · exact List.pairwise_map.mpr (hm.pairwise_ne.filter _)
  · simp only [List.mem_map, List.mem_filter, Option.isNone_iff_eq_none]
    rintro p ⟨z, ⟨hz, -⟩, rfl⟩ p' ⟨w, ⟨-, hw⟩, rfl⟩
    exact hfresh z hz w.1 hw
  · exact List.pairwise_map.mpr (hl.pairwise_ne.filter _)
  · simp only [List.mem_append, List.mem_map, List.mem_filter, Option.isNone_iff_eq_none,
      Option.isSome_iff_ne_none]
    rintro p (⟨z, ⟨-, hz⟩, rfl⟩ | ⟨z, ⟨-, hz⟩, rfl⟩) p' ⟨w, ⟨hw, hnone⟩, rfl⟩
    · exact fun hkey => hz ((childNamed_congr hkey).trans hnone)
    · exact fun hkey => hfresh w hw z.1 hz hkey.symm

end Pieces

end Tree

namespace MemoryTree

open DirectoryStore.Tree (entryAt? Match childNamed Below Holds Alike)

variable {a b t t' a' : MemoryTree} {x y na nb : NodeId} {r : Rdn} {d dx dy da db up : Dn}
variable {base k : List (List (List String))} {cs : List Change} {ws vs : List Rdn}
variable {l m : List (Rdn × NodeId)} {e f : Entry}

/-- The change between two entries of one name, carried out where the first one stands. -/
theorem diff_turns (h : e.dn.same f.dn = true) :
    ∃ own, e.diff f = .ok own ∧ (e.same f = true → own = none) ∧
      ∀ t, WellFormed t → entryAt? t e.dn = some e → ∃ t', Patches own.toList t t' ∧
        Confined e.dn.key e.dn.key t t' ∧
        (∀ d : Dn, d.key = e.dn.key → Match (entryAt? t' d) (some f)) ∧
        ∀ d : Dn, d.key ≠ e.dn.key → entryAt? t' d = entryAt? t d := by
  by_cases hsame : e.attributes.same f.attributes = true
  · refine ⟨none, by simp [Entry.diff, h, hsame], fun _ => rfl, fun t ht he => ?_⟩
    refine ⟨t, .nil, .refl ht, fun d hd => ?_, fun _ _ => rfl⟩
    rw [ht.linked.entryAt?_congr hd, he]
    exact .some (by rw [Entry.same, h, hsame]; rfl)
  · refine ⟨some (.modify e.dn (e.attributes.edits f.attributes)), by simp [Entry.diff, h, hsame],
      fun hs => ?_, fun t ht he => ?_⟩
    · rw [Entry.same, Bool.and_eq_true] at hs
      exact absurd hs.2 hsame
    · obtain ⟨attrs, hedits, hattrs⟩ := e.attributes.applyAll_edits f.attributes
      obtain ⟨t', hmod, hc, hat⟩ := patch_modify ht he hedits
      refine ⟨t', .single hmod, hc, fun d hd => ?_, fun d hd => ?_⟩
      · rw [hat, if_pos (Dn.same_iff.mpr hd.symm)]
        exact .some (by rw [Entry.same, h, hattrs]; rfl)
      · rw [hat, if_neg fun hs => hd (Dn.same_iff.mp hs).symm]

/-- The changes of the children turn all that is properly below a node. -/
theorem children_turns (ha : Linked a) (hb : Linked b) (hx : a.dn x = .ok dx)
    (hy : b.dn y = .ok dy) (hkey : dy.key = dx.key)
    (hl : Rising (fun z : Rdn × NodeId => z.1.key) l) (hlmem : ∀ s c, (s, c) ∈ l ↔ Placed a c x s)
    (hm : Rising (fun z : Rdn × NodeId => z.1.key) m) (hmmem : ∀ s c, (s, c) ∈ m ↔ Placed b c y s)
    {shared added deleted : Rdn × NodeId → List Change}
    (hpieces : ∀ p ∈ Tree.pieces l m shared deleted added,
      Turns a b dx.key (dx.key ++ [p.1]) p.2)
    (ht : WellFormed t) (hroot : t.rootDn = a.rootDn)
    (hself : ∀ d : Dn, d.key = dx.key → entryAt? t d ≠ none)
    (hag : ∀ (d : Dn) q, dx.key ++ [q] <+: d.key → entryAt? t d = entryAt? a d) :
    ∃ t', Patches ((Tree.pieces l m shared deleted added).flatMap Prod.snd) t t' ∧
      Confined dx.key dx.key t t' ∧
      (∀ (d : Dn) q, dx.key ++ [q] <+: d.key → Match (entryAt? t' d) (entryAt? b d)) ∧
      ∀ d : Dn, d.key = dx.key → entryAt? t' d = entryAt? t d := by
  obtain ⟨t', hp, hc, hmatch, hrest⟩ := Turns.all (a := a) (b := b) (t := t) hpieces
    (Tree.pieces_pairwise hl hm) ht hroot hself (fun p _ d hd => hag d p.1 hd)
  refine ⟨t', hp, hc, fun d q hq => ?_, fun d hd => ?_⟩
  · by_cases hex : ∃ p ∈ Tree.pieces l m shared deleted added, p.1 = q
    · obtain ⟨p, hmem, rfl⟩ := hex
      exact hmatch p hmem d hq
    · have hnone : ¬ ((∃ s c, (s, c) ∈ l ∧ s.key = q) ∨ ∃ s c, (s, c) ∈ m ∧ s.key = q) :=
        fun h => hex (Tree.exists_piece hl h)
      rw [not_or] at hnone
      have hna : entryAt? a d = none := ha.entryAt?_eq_none_of_children hx
        (fun c s hp hs => hnone.1 ⟨s, c, (hlmem s c).mpr hp, hs⟩) hq
      have hnb : entryAt? b d = none := hb.entryAt?_eq_none_of_children hy
        (fun c s hp hs => hnone.2 ⟨s, c, (hmmem s c).mpr hp, hs⟩) (hkey ▸ hq)
      rw [hrest d fun p hmem hpre => hex ⟨p, hmem, eq_of_prefix_concat hpre hq⟩, hag d q hq, hna,
        hnb]
      exact .none
  · exact hrest d fun p _ hpre => not_prefix_concat (hd ▸ hpre)

/-- A node that lists no child of a name has nothing below itself there. -/
theorem Linked.entryAt?_eq_none_of_childNamed (h : Linked t) (hx : t.dn x = .ok dx)
    (hmem : ∀ s c, (s, c) ∈ l ↔ Placed t c x s) (hnone : childNamed r l = none)
    (hpre : dx.key ++ [r.key] <+: d.key) : entryAt? t d = none :=
  h.entryAt?_eq_none_of_children hx
    (fun c s hp => Tree.childNamed_eq_none_iff.mp hnone s c ((hmem s c).mpr hp)) hpre

/-- The change of a node's own entry and those of its children turn all from the node on. -/
theorem node_turns (ha : Linked a) (hb : Linked b) (hx : a.dn x = .ok dx)
    (hy : b.dn y = .ok dy) (hkey : dx.key = dy.key)
    (hl : Rising (fun z : Rdn × NodeId => z.1.key) l) (hlmem : ∀ s c, (s, c) ∈ l ↔ Placed a c x s)
    (hm : Rising (fun z : Rdn × NodeId => z.1.key) m) (hmmem : ∀ s c, (s, c) ∈ m ↔ Placed b c y s)
    {own : Option Change} {shared added deleted : Rdn × NodeId → List Change}
    (hat : entryAt? a dx = some e) (hat' : entryAt? b dy = some f)
    (hown : ∀ t, WellFormed t → entryAt? t dx = some e → ∃ t', Patches own.toList t t' ∧
      Confined dx.key dx.key t t' ∧
      (∀ d : Dn, d.key = dx.key → Match (entryAt? t' d) (some f)) ∧
      ∀ d : Dn, d.key ≠ dx.key → entryAt? t' d = entryAt? t d)
    (hpieces : ∀ p ∈ Tree.pieces l m shared deleted added,
      Turns a b dx.key (dx.key ++ [p.1]) p.2) :
    Turns a b dx.key dx.key
      (own.toList ++ (Tree.pieces l m shared deleted added).flatMap Prod.snd) := by
  intro t ht hroot _ hag
  obtain ⟨t₁, hp₁, hc₁, hm₁, hrest₁⟩ := hown t ht ((hag dx (List.prefix_refl _)).trans hat)
  have hself₁ : ∀ d : Dn, d.key = dx.key → entryAt? t₁ d ≠ none := fun d hd hnone => by
    have := (hm₁ d hd).isSome_eq
    rw [hnone] at this
    cases this
  have hag₁ : ∀ (d : Dn) q, dx.key ++ [q] <+: d.key → entryAt? t₁ d = entryAt? a d :=
    fun d q hq => by
      rw [hrest₁ d fun hd => not_prefix_concat (hd ▸ hq)]
      exact hag d ((List.prefix_append _ _).trans hq)
  obtain ⟨t₂, hp₂, hc₂, hm₂, hrest₂⟩ := children_turns ha hb hx hy hkey.symm hl hlmem hm hmmem
    hpieces hc₁.wellFormed (hc₁.rootDn.trans hroot) hself₁ hag₁
  refine ⟨t₂, hp₁.append hp₂, hc₁.trans hc₂, fun d hd => ?_⟩
  rcases eq_or_prefix_concat hd with hd | ⟨q, hq⟩
  · rw [hrest₂ d hd, hb.entryAt?_congr (hd.trans hkey), hat']
    exact hm₁ d hd
  · exact hm₂ d q hq

/-- Changes of a child's part are changes below its parent. -/
theorem Turns.of_placed (h : Turns a b (dx.child r).key (dx.child r).key cs) (ha : Linked a)
    (hx : a.dn x = .ok dx) (hp : Placed a y x r) : Turns a b dx.key (dx.key ++ [r.key]) cs := by
  rw [← Dn.key_child]
  refine h.mono (prefix_key_child dx r) fun d hd => ?_
  obtain ⟨_, -, hat⟩ := ha.entryAt?_of_dn (ha.dn_of_placed hp hx) hd
  rw [hat]
  exact Option.some_ne_none _

/-- The part at `k` is alike in both trees. -/
def AgreeAt (a b : MemoryTree) (k : List (List (List String))) : Prop :=
  ∀ d : Dn, k <+: d.key → Match (entryAt? a d) (entryAt? b d)

theorem AgreeAt.symm (h : AgreeAt a b k) : AgreeAt b a k :=
  fun d hd => (h d hd).symm

/-- Where parts are alike, a child in one of them has its like in the other one. -/
theorem AgreeAt.childNamed_ne_none (h : AgreeAt a b dx.key) (ha : Linked a) (hb : Linked b)
    (hx : a.dn x = .ok dx) (hy : b.dn y = .ok dy) (hkey : dx.key = dy.key)
    (hp : Placed a nb x r) (hmem : ∀ s c, (s, c) ∈ m ↔ Placed b c y s) :
    childNamed r m ≠ none := by
  intro hnone
  have hchild : dx.key ++ [r.key] <+: (dx.child r).key := Dn.key_child dx r ▸ List.prefix_refl _
  have hmatch := h (dx.child r) ((List.prefix_append _ _).trans hchild)
  obtain ⟨_, -, hat⟩ := ha.entryAt?_of_dn (ha.dn_of_placed hp hx) rfl
  rw [hat, hb.entryAt?_eq_none_of_childNamed hy hmem hnone (hkey ▸ hchild)] at hmatch
  cases hmatch

/-! ## Changes of children -/

/-- The changes of a child and the child of its name below the other node, if there is one. -/
structure PairTurns (a b : MemoryTree) (depth : Nat) (d : Dn) (m : List (Rdn × NodeId))
    (z : Rdn × NodeId) (cs : List Change) : Prop where
  eq_ok : ∀ c, childNamed z.1 m = some c → Tree.diffNodes a b depth z.2 c = .ok cs
  skip : childNamed z.1 m = none → cs = []
  turns : childNamed z.1 m ≠ none → Turns a b d.key (d.key ++ [z.1.key]) cs
  agree : AgreeAt a b (d.key ++ [z.1.key]) → cs = []

/-- Children that only the second node has are added. -/
theorem exists_added (depth : Nat) (ha : Linked a) (hb : Linked b) (hx : a.dn x = .ok dx)
    (hy : b.dn y = .ok dy) (hkey : dx.key = dy.key) (hv : Way b rootId y vs)
    (hlmem : ∀ s c, (s, c) ∈ l ↔ Placed a c x s) (hmmem : ∀ s c, (s, c) ∈ m ↔ Placed b c y s)
    (hdepth : b.slots.length ≤ depth + 1 + vs.length) :
    ∀ z ∈ m.filter fun z => (childNamed z.1 l).isNone, ∃ cs,
      Tree.additions b depth z.2 = .ok cs ∧ Turns a b dx.key (dx.key ++ [z.1.key]) cs := by
  rintro ⟨s, c⟩ hz
  obtain ⟨hz, hnone⟩ := List.mem_filter.mp hz
  have hp := (hmmem s c).mp hz
  obtain ⟨cs, hcs, hturns⟩ := additions_turns depth hb (.step hp hv)
    (by rw [List.length_cons]; omega) (hb.dn_of_placed hp hy)
  refine ⟨cs, hcs, ?_⟩
  rw [hkey]
  exact hturns a fun d hd => ha.entryAt?_eq_none_of_childNamed hx hlmem
    (Option.isNone_iff_eq_none.mp hnone) (hkey ▸ hd)

/-- Children that only the first node has are deleted. -/
theorem exists_deleted (depth : Nat) (ha : Linked a) (hb : Linked b) (hx : a.dn x = .ok dx)
    (hy : b.dn y = .ok dy) (hkey : dx.key = dy.key) (hw : Way a rootId x ws)
    (hlmem : ∀ s c, (s, c) ∈ l ↔ Placed a c x s) (hmmem : ∀ s c, (s, c) ∈ m ↔ Placed b c y s)
    (hdepth : a.slots.length ≤ depth + 1 + ws.length) :
    ∀ z ∈ l.filter fun z => (childNamed z.1 m).isNone, ∃ cs,
      Tree.deletions a depth z.2 = .ok cs ∧ Turns a b dx.key (dx.key ++ [z.1.key]) cs := by
  rintro ⟨s, c⟩ hz
  obtain ⟨hz, hnone⟩ := List.mem_filter.mp hz
  have hp := (hlmem s c).mp hz
  have hnotRoot : c ≠ rootId := by
    rintro rfl
    exact ha.not_placed_root hp
  obtain ⟨cs, hcs, hturns⟩ := deletions_turns depth ha (.step hp hw)
    (by rw [List.length_cons]; omega) (ha.dn_of_placed hp hx) hnotRoot
  exact ⟨cs, hcs, hturns b fun d hd => hb.entryAt?_eq_none_of_childNamed hy hmmem
    (Option.isNone_iff_eq_none.mp hnone) (hkey ▸ hd)⟩

/-- Where parts are alike, the children have no changes: each has its like, and the changes of
    the two are none. -/
theorem AgreeAt.flatMap_pieces (h : AgreeAt a b dx.key) (ha : Linked a) (hb : Linked b)
    (hx : a.dn x = .ok dx) (hy : b.dn y = .ok dy) (hkey : dx.key = dy.key)
    (hlmem : ∀ s c, (s, c) ∈ l ↔ Placed a c x s) (hmmem : ∀ s c, (s, c) ∈ m ↔ Placed b c y s)
    {shared added deleted : Rdn × NodeId → List Change}
    (hshared : ∀ z ∈ l, AgreeAt a b (dx.key ++ [z.1.key]) → shared z = []) :
    (Tree.pieces l m shared deleted added).flatMap Prod.snd = [] := by
  rw [List.flatMap_eq_nil_iff]
  intro p hp
  rcases Tree.mem_pieces hp with ⟨z, hz, -, rfl⟩ | ⟨z, hz, hnone, rfl⟩ | ⟨z, hz, hnone, rfl⟩
  · exact hshared z hz fun d hd => h d ((List.prefix_append _ _).trans hd)
  · have h' : AgreeAt b a dy.key := hkey ▸ h.symm
    exact absurd hnone (h'.childNamed_ne_none hb ha hy hx hkey.symm
      ((hmmem z.1 z.2).mp hz) hlmem)
  · exact absurd hnone (h.childNamed_ne_none ha hb hx hy hkey ((hlmem z.1 z.2).mp hz) hmmem)

/-- The changes of two nodes of one name turn the part of the first into that of the second, and
    there are none where the parts are alike. -/
theorem diffNodes_turns (depth : Nat) (ha : Linked a) (hb : Linked b) (hx : a.dn x = .ok dx)
    (hy : b.dn y = .ok dy) (hkey : dx.key = dy.key) (hw : Way a rootId x ws)
    (hv : Way b rootId y vs)
    (hdepth : a.slots.length + b.slots.length ≤ depth + ws.length + vs.length) :
    ∃ cs, Tree.diffNodes a b depth x y = .ok cs ∧ Turns a b dx.key dx.key cs ∧
      (AgreeAt a b dx.key → cs = []) := by
  have hwlen := ha.way_length_lt hw
  have hvlen := hb.way_length_lt hv
  induction depth generalizing x y dx dy ws vs with
  | zero => omega
  | succ depth ih =>
      obtain ⟨n, hn⟩ := hw.live
      obtain ⟨n', hn'⟩ := hv.live
      obtain ⟨attrs, he, hat⟩ := ha.entryAt?_of_dn hx rfl
      obtain ⟨attrs', he', hat'⟩ := hb.entryAt?_of_dn hy rfl
      obtain ⟨own, hown, hownnil, hownturns⟩ :=
        diff_turns (e := ⟨dx, attrs⟩) (f := ⟨dy, attrs'⟩) (Dn.same_iff.mpr hkey)
      obtain ⟨l, hl, hlrising, hlmem⟩ := ha.childrenByRdn_eq_ok hn
      obtain ⟨m, hm, hmrising, hmmem⟩ := hb.childrenByRdn_eq_ok hn'
      have hshared : ∀ z ∈ l, ∃ cs, PairTurns a b depth dx m z cs := by
        rintro ⟨s, c⟩ hz
        have hp := (hlmem s c).mp hz
        cases hother : childNamed s m with
        | none =>
            exact ⟨[], fun _ h => absurd (hother.symm.trans h) (Option.some_ne_none _).symm,
              fun _ => rfl, fun h => absurd hother h, fun _ => rfl⟩
        | some c' =>
            obtain ⟨s', hs', hskey⟩ := (Tree.childNamed_eq_some_iff hmrising).mp hother
            have hp' := (hmmem s' c').mp hs'
            have hw' := Way.step hp hw
            have hv' := Way.step hp' hv
            obtain ⟨cs, hcs, hturns, hnil⟩ := ih (ha.dn_of_placed hp hx) (hb.dn_of_placed hp' hy)
              (by rw [Dn.key_child, Dn.key_child, hkey, hskey]) hw' hv'
              (by simp only [List.length_cons]; omega) (ha.way_length_lt hw')
              (hb.way_length_lt hv')
            refine ⟨cs, fun c'' hc'' => ?_, fun h => ?_, fun _ => hturns.of_placed ha hx hp, ?_⟩
            · obtain rfl : c' = c'' := Option.some.inj (hother.symm.trans hc'')
              exact hcs
            · exact absurd (hother.symm.trans h) (Option.some_ne_none _)
            · rw [← Dn.key_child]
              exact hnil
      have hadded := exists_added depth ha hb hx hy hkey hv hlmem hmmem (by omega)
      have hdeleted := exists_deleted depth ha hb hx hy hkey hw hlmem hmmem (by omega)
      obtain ⟨shared, hshared⟩ := Tree.exists_choice hshared
      obtain ⟨added, haddedok, hadded⟩ := Tree.exists_gather hadded
      obtain ⟨deleted, hdeletedok, hdeleted⟩ := Tree.exists_gather hdeleted
      have hskip := fun z hz => (hshared z hz).skip
      have hpieces : ∀ p ∈ Tree.pieces l m shared deleted added,
          Turns a b dx.key (dx.key ++ [p.1]) p.2 := by
        intro p hp
        rcases Tree.mem_pieces hp with ⟨z, hz, hne, rfl⟩ | ⟨z, hz, hnone, rfl⟩ |
          ⟨z, hz, hnone, rfl⟩
        · exact (hshared z hz).turns hne
        · exact hadded z (List.mem_filter.mpr ⟨hz, by rw [hnone]; rfl⟩)
        · exact hdeleted z (List.mem_filter.mpr ⟨hz, by rw [hnone]; rfl⟩)
      have hentry : TreeView.entry a x = .ok ⟨dx, attrs⟩ := he
      have hentry' : TreeView.entry b y = .ok ⟨dy, attrs'⟩ := he'
      refine ⟨own.toList ++ (Tree.pieces l m shared deleted added).flatMap Prod.snd, ?_,
        node_turns ha hb hx hy hkey hlrising hlmem hmrising hmmem hat hat' hownturns hpieces,
        fun hagree => ?_⟩
      · rw [Tree.flatMap_pieces hskip, Tree.diffNodes_succ hentry hentry' hown hl hm
          (fun z hz => (hshared z hz).eq_ok) hskip haddedok hdeletedok]
        simp only [List.append_assoc]
      · have hown : own = none := by
          have hmatch := hagree dx (List.prefix_refl _)
          rw [hat, hb.entryAt?_congr hkey, hat'] at hmatch
          cases hmatch with
          | some hs => exact hownnil hs
        rw [hown, Option.toList_none, List.nil_append]
        exact hagree.flatMap_pieces ha hb hx hy hkey hlmem hmmem fun z hz => (hshared z hz).agree

/-! ## Whole differences -/

/-- What names lead to in one part they lead to in a part alike. -/
theorem Linked.exists_entryAt?_of_alike (ha : Linked a) (hb : Linked b) (hx : a.dn x = .ok dx)
    (hy : b.dn y = .ok dy) (h : Alike a x b y) (hpre : dx.key <+: d.key)
    (hat : entryAt? a d = some e) : ∃ f, entryAt? b d = some f ∧ e.same f = true := by
  obtain ⟨z, hz, hs⟩ := ha.entryAt?_eq_some_iff.mp hat
  have hek := Dn.same_iff.mp hs
  obtain ⟨f, hf, hef⟩ := h.left e ((ha.holds_iff hx).mpr ⟨hek ▸ hpre, ha.entryAt?_of_entry hz⟩)
  have hfk : f.dn.key = e.dn.key := by
    rw [Entry.same, Bool.and_eq_true] at hef
    exact (Dn.same_iff.mp hef.1).symm
  exact ⟨f, (hb.entryAt?_congr (hfk.trans hek)).symm.trans ((hb.holds_iff hy).mp hf).2, hef⟩

/-- What one part holds is held by the other one where they agree. -/
theorem AgreeAt.exists_holds (h : AgreeAt a b dx.key) (ha : Linked a) (hb : Linked b)
    (hx : a.dn x = .ok dx) (hy : b.dn y = .ok dy) (hkey : dx.key = dy.key)
    (he : Holds a x e) : ∃ f, Holds b y f ∧ e.same f = true := by
  obtain ⟨hpre, hat⟩ := (ha.holds_iff hx).mp he
  have hmatch := h e.dn hpre
  rw [hat] at hmatch
  cases hbat : entryAt? b e.dn with
  | none =>
      rw [hbat] at hmatch
      cases hmatch
  | some f =>
      rw [hbat] at hmatch
      obtain ⟨z, hz, hs⟩ := hb.entryAt?_eq_some_iff.mp hbat
      refine ⟨f, (hb.holds_iff hy).mpr ⟨?_, hb.entryAt?_of_entry hz⟩, ?_⟩
      · rw [← hkey, Dn.same_iff.mp hs]
        exact hpre
      · cases hmatch with
        | some hef => exact hef

/-- Parts are alike when names lead to the same entries in them. -/
theorem alike_iff_agreeAt (ha : Linked a) (hb : Linked b) (hx : a.dn x = .ok dx)
    (hy : b.dn y = .ok dy) (hkey : dx.key = dy.key) : Alike a x b y ↔ AgreeAt a b dx.key := by
  constructor
  · intro h d hd
    cases hat : entryAt? a d with
    | some e =>
        obtain ⟨f, hf, hs⟩ := ha.exists_entryAt?_of_alike hb hx hy h hd hat
        rw [hf]
        exact .some hs
    | none =>
        cases hbat : entryAt? b d with
        | none => exact .none
        | some f =>
            obtain ⟨e, he, -⟩ := hb.exists_entryAt?_of_alike ha hy hx h.symm (hkey ▸ hd) hbat
            rw [hat] at he
            cases he
  · intro h
    have h' : AgreeAt b a dy.key := hkey ▸ h.symm
    refine ⟨fun e he => h.exists_holds ha hb hx hy hkey he, fun f hf => ?_⟩
    obtain ⟨e, he, hs⟩ := h'.exists_holds hb ha hy hx hkey.symm hf
    exact ⟨e, he, Entry.same_symm hs⟩

theorem diffSubtrees_turns (ha : Linked a) (hb : Linked b) (hx : a.dn x = .ok dx)
    (hy : b.dn y = .ok dy) (hkey : dx.key = dy.key) :
    ∃ cs, Tree.diffSubtrees a x b y = .ok cs ∧ Turns a b dx.key dx.key cs ∧
      (AgreeAt a b dx.key → cs = []) := by
  obtain ⟨ws, hw, -⟩ := ha.dn_eq_ok_iff.mp hx
  obtain ⟨vs, hv, -⟩ := hb.dn_eq_ok_iff.mp hy
  obtain ⟨attrs, he, -⟩ := ha.entryAt?_of_dn hx rfl
  obtain ⟨attrs', he', -⟩ := hb.entryAt?_of_dn hy rfl
  have hentry : TreeView.entry a x = .ok ⟨dx, attrs⟩ := he
  have hentry' : TreeView.entry b y = .ok ⟨dy, attrs'⟩ := he'
  have hsame : dx.same dy = true := Dn.same_iff.mpr hkey
  obtain ⟨cs, hcs, hturns, hnil⟩ := diffNodes_turns (a.slots.length + b.slots.length) ha hb hx hy
    hkey hw hv (by omega)
  exact ⟨cs, (Tree.diffSubtrees_eq hentry hentry' hsame).trans hcs, hturns, hnil⟩

/-- What the patch with a difference brings about, from `a` to `a'`. -/
structure Reconciled (a : MemoryTree) (na : NodeId) (b : MemoryTree) (nb : NodeId)
    (cs : List Change) (a' : MemoryTree) : Prop where
  /-- Every change succeeds. -/
  patched : (Tree.patchAll cs).run a = (.ok cs.length, a')
  dn : a'.dn na = a.dn na
  alike : Alike a' na b nb
  forth : Tree.diffSubtrees a' na b nb = .ok []
  back : Tree.diffSubtrees b nb a' na = .ok []
  /-- What was outside is there as before. -/
  kept : ∀ x n, a.node? x = some n → ¬ Below a na x →
    a'.node? x = some n ∧ a'.dn x = a.dn x ∧ ¬ Below a' na x
  /-- What is outside was there before. -/
  nothing_else : ∀ x n, a'.node? x = some n → ¬ Below a' na x →
    a.node? x = some n ∧ ¬ Below a na x
  nil_iff : cs = [] ↔ Alike a na b nb

theorem WellFormed.reconciled (ha : WellFormed a) (hb : WellFormed b) (hna : a.dn na = .ok da)
    (hnb : b.dn nb = .ok db) (hsame : da.same db = true) :
    ∃ cs a', Tree.diffSubtrees a na b nb = .ok cs ∧ Reconciled a na b nb cs a' := by
  have hkey := Dn.same_iff.mp hsame
  obtain ⟨cs, hcs, hturns, hnil⟩ := diffSubtrees_turns ha.linked hb.linked hna hnb hkey
  have htop : ∀ d : Dn, d.key = da.key → entryAt? a d ≠ none := fun d hd => by
    obtain ⟨_, -, hat⟩ := ha.linked.entryAt?_of_dn hna hd
    rw [hat]
    exact Option.some_ne_none _
  obtain ⟨a', hpatch, hc, hmatch⟩ := hturns a ha rfl htop fun _ _ => rfl
  have ha' := hc.wellFormed
  have hna' : a'.dn na = .ok da := (hc.dn na da (.inr rfl)).mpr hna
  have hagree : AgreeAt a' b da.key := hmatch
  obtain ⟨cs', hcs', -, hnil'⟩ := diffSubtrees_turns ha'.linked hb.linked hna' hnb hkey
  obtain ⟨cs'', hcs'', -, hnil''⟩ := diffSubtrees_turns hb.linked ha'.linked hnb hna' hkey.symm
  refine ⟨cs, a', hcs, hpatch, hna'.trans hna.symm, ?_, ?_, ?_, fun x n hn hout => ?_,
    fun x n hn hout => ?_, fun hnone => ?_, fun halike => ?_⟩
  · exact (alike_iff_agreeAt ha'.linked hb.linked hna' hnb hkey).mpr hagree
  · rw [hcs', hnil' hagree]
  · rw [hcs'', hnil'' (hkey ▸ hagree.symm)]
  · obtain ⟨rs, hw⟩ := ha.linked.grounded hn
    have hdx := ha.linked.dn_of_way hw
    have hpre := mt (ha.linked.below_iff hna hdx).mpr hout
    have hdx' := (hc.dn x _ (.inl hpre)).mpr hdx
    refine ⟨(hc.node x _ hpre hdx).trans hn, hdx'.trans hdx.symm, fun hbelow => ?_⟩
    exact hpre ((ha'.linked.below_iff hna' hdx').mp hbelow)
  · obtain ⟨rs, hw⟩ := ha'.linked.grounded hn
    have hdx' := ha'.linked.dn_of_way hw
    have hpre := mt (ha'.linked.below_iff hna' hdx').mpr hout
    have hdx := (hc.dn x _ (.inl hpre)).mp hdx'
    refine ⟨(hc.node x _ hpre hdx).symm.trans hn, fun hbelow => ?_⟩
    exact hpre ((ha.linked.below_iff hna hdx).mp hbelow)
  · -- Without changes the tree is the one that agrees with `b` afterwards.
    rw [hnone] at hpatch
    cases hpatch
    exact (alike_iff_agreeAt ha.linked hb.linked hna hnb hkey).mpr hagree
  · exact hnil ((alike_iff_agreeAt ha.linked hb.linked hna hnb hkey).mp halike)

/-- The difference of two parts of one name, in trees that any runs have led to, is found, and
    the patch with it reconciles the first part with the second one. -/
theorem diffSubtrees_reconciled (e f : Entry) (calls calls' : List (NodeId × Call))
    (hna : (Tree.afterCalls calls (ofRoot e)).dn na = .ok da)
    (hnb : (Tree.afterCalls calls' (ofRoot f)).dn nb = .ok db) (hsame : da.same db = true) :
    ∃ cs a', Tree.diffSubtrees (Tree.afterCalls calls (ofRoot e)) na
        (Tree.afterCalls calls' (ofRoot f)) nb = .ok cs ∧
      Reconciled (Tree.afterCalls calls (ofRoot e)) na (Tree.afterCalls calls' (ofRoot f)) nb
        cs a' :=
  (wellFormed_afterCalls (wellFormed_ofRoot e) calls).reconciled
    (wellFormed_afterCalls (wellFormed_ofRoot f) calls') hna hnb hsame

/-- Two spellings of one name, with different attributes and children. -/
theorem diffSubtrees_reconciled_spellings :
    let a := Tree.afterCalls [(rootId, .addChild (.single "cn" "x") .empty),
      (⟨1, 0⟩, .addChild (.single "ou" "y") .empty)] (ofRoot ⟨.empty, .empty⟩)
    let b := Tree.afterCalls [(rootId, .addChild (.single "CN" "x") (.ofPairs [("mail", [[97]])])),
      (⟨1, 0⟩, .addChild (.single "ou" "z") .empty)] (ofRoot ⟨.empty, .empty⟩)
    a.dn ⟨1, 0⟩ = .ok ⟨[.single "cn" "x"]⟩ ∧ b.dn ⟨1, 0⟩ = .ok ⟨[.single "CN" "x"]⟩ ∧
      (Dn.mk [.single "cn" "x"]).same ⟨[.single "CN" "x"]⟩ = true ∧
      ∃ cs a', Tree.diffSubtrees a ⟨1, 0⟩ b ⟨1, 0⟩ = .ok cs ∧
        Reconciled a ⟨1, 0⟩ b ⟨1, 0⟩ cs a' := by
  intro a b
  have ha : a.dn ⟨1, 0⟩ = .ok ⟨[.single "cn" "x"]⟩ := by rfl
  have hb : b.dn ⟨1, 0⟩ = .ok ⟨[.single "CN" "x"]⟩ := by rfl
  have hs : (Dn.mk [.single "cn" "x"]).same ⟨[.single "CN" "x"]⟩ = true := by decide
  exact ⟨ha, hb, hs, diffSubtrees_reconciled _ _ _ _ ha hb hs⟩

end MemoryTree
end DirectoryStore
