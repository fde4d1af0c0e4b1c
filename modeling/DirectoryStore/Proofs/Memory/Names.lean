import DirectoryStore.Proofs.Memory.Consistency
import DirectoryStore.Proofs.Memory.Siblings
import Mathlib.Data.List.Forall2

/-!
# Names and nodes

Three walks meet in a linked tree: a name is found by going up, a node is found by going down
along a name, and a subtree is found by going down everywhere.  They agree.  Where a subtree is
part of a larger one the walk through the larger one meets it in one piece, as the walk through
it alone does.
-/

namespace DirectoryStore

namespace Tree

/-- The entries at a node and at all below it, each before those below it. -/
def entriesBelow {τ ν : Type} [TreeView τ ν] (t : τ) (node : ν) :
    Except TreeError (List Entry) := do
  (← subtree t node).mapM (TreeView.entry t)

theorem mapM_eq_ok {α β : Type} {f : α → Except TreeError β} {xs : List α} {ys : List β}
    (h : List.Forall₂ (fun x y => f x = .ok y) xs ys) : xs.mapM f = .ok ys := by
  induction h with
  | nil => rfl
  | cons hxy _ ih =>
      rw [List.mapM_cons, hxy, ih]
      rfl

end Tree

namespace MemoryTree

variable {t : MemoryTree} {base id x y : NodeId} {n m : MemoryNode} {d dbase dx dy : Dn}
variable {l pre post : List NodeId} {ws : List Rdn} {depth depth' : Nat}

/-! ## The order of walks -/

/-- A walk with room for all levels does not depend on how much room it has. -/
theorem Linked.preorder_congr (h : Linked t) (hw : Way t rootId id ws)
    (hdepth : t.slots.length ≤ depth + ws.length) (hdepth' : t.slots.length ≤ depth' + ws.length) :
    Tree.preorder t depth id = Tree.preorder t depth' id := by
  have hlen := h.way_length_lt hw
  induction depth generalizing id ws depth' with
  | zero => omega
  | succ depth ih =>
      cases depth' with
      | zero => omega
      | succ depth' =>
          obtain ⟨n, hn⟩ := hw.live
          have hchildren : TreeView.children t id = .ok n.children := children_eq_ok hn
          have hbelow : Tree.gather (Tree.preorder t depth) n.children =
              Tree.gather (Tree.preorder t depth') n.children := by
            refine Tree.gather_congr fun c hc => ?_
            obtain ⟨r, hp⟩ := (h.children hn).mp hc
            have hc := Way.step hp hw
            refine ih hc ?_ ?_ (h.way_length_lt hc)
            · rw [List.length_cons]
              omega
            · rw [List.length_cons]
              omega
          simp only [Tree.preorder, hchildren, hbelow]

/-- A walk meets a node and what lies below it in one piece. -/
theorem Linked.preorder_piece (h : Linked t) (hw : Way t rootId id ws)
    (hdepth : t.slots.length ≤ depth + ws.length) (hl : Tree.preorder t depth id = .ok l)
    (hx : x ∈ l) : ∃ before below after, l = before ++ x :: below ++ after ∧
      Tree.subtree t x = .ok (x :: below) := by
  induction depth generalizing id ws l with
  | zero =>
      have := h.way_length_lt hw
      omega
  | succ depth ih =>
      obtain ⟨n, hn⟩ := hw.live
      obtain ⟨g, hwhole, hgs⟩ := h.preorder_succ hw hn hdepth
      rw [hwhole] at hl
      cases hl
      rcases List.mem_cons.mp hx with rfl | hx
      · refine ⟨[], n.children.flatMap g, [], by simp, ?_⟩
        rw [Tree.subtree, ← hwhole]
        exact h.preorder_congr hw (Nat.le_add_right _ _) hdepth
      · obtain ⟨c, hc, hx⟩ := List.mem_flatMap.mp hx
        obtain ⟨r, hp⟩ := (h.children hn).mp hc
        have hdepth' : t.slots.length ≤ depth + (r :: ws).length := by
          rw [List.length_cons]
          omega
        obtain ⟨before, below, after, hpieces, hpiece⟩ :=
          ih (.step hp hw) hdepth' (hgs c hc).1 hx
        obtain ⟨cs, cs', hcs⟩ := List.append_of_mem hc
        refine ⟨id :: (cs.flatMap g ++ before), below, after ++ cs'.flatMap g, ?_, hpiece⟩
        rw [hcs, List.flatMap_append, List.flatMap_cons, hpieces]
        simp only [List.cons_append, List.append_assoc]

/-- What is part of a list without repetitions is what the list has of it. -/
theorem filter_mem_of_sublist (hpre : pre.Sublist l) (hl : l.Nodup) : l.filter (· ∈ pre) = pre := by
  have hsub : pre.Sublist (l.filter (· ∈ pre)) := by
    have := hpre.filter (· ∈ pre)
    rwa [List.filter_eq_self.mpr (by simp)] at this
  have hperm : (l.filter (· ∈ pre)).Perm pre := by
    refine (List.perm_ext_iff_of_nodup (hl.filter _) (hpre.nodup hl)).mpr fun x => ?_
    rw [List.mem_filter, decide_eq_true_iff]
    exact and_iff_right_of_imp fun hx => hpre.subset hx
  exact (hsub.eq_of_length hperm.length_eq.symm).symm

theorem sublist_piece {below before after : List NodeId} :
    below.Sublist (before ++ below ++ after) :=
  (List.sublist_append_right _ _).trans (List.sublist_append_left _ _)

/-- Of the nodes of a walk the children of any of them stand in their order. -/
theorem Linked.filter_subtree (h : Linked t) (hb : t.node? base = some m)
    (hl : Tree.subtree t base = .ok l) (hx : x ∈ l) (hn : t.node? x = some n) :
    l.filter (· ∈ n.children) = n.children := by
  obtain ⟨ws, hw⟩ := h.grounded hb
  obtain ⟨l', hl', hnd, hmem⟩ := h.subtree_eq_ok hb
  rw [hl] at hl'
  cases hl'
  obtain ⟨before, below, after, rfl, hpiece⟩ :=
    h.preorder_piece hw (Nat.le_add_right _ _) hl hx
  obtain ⟨ws', hw'⟩ := h.grounded hn
  have hchildren := h.filter_preorder hw' hn (Nat.le_add_right _ _) hpiece
  have hsub : n.children.Sublist (x :: below) := hchildren ▸ List.filter_sublist
  exact filter_mem_of_sublist (hsub.trans sublist_piece) hnd

/-- A walk meets every node but its first after the parent of the node. -/
theorem Linked.parent_before (h : Linked t) (hb : t.node? base = some n)
    (hl : Tree.subtree t base = .ok (pre ++ x :: post)) (hpre : pre ≠ []) :
    ∃ up r, Placed t x up r ∧ up ∈ pre := by
  obtain ⟨ws, hw⟩ := h.grounded hb
  obtain ⟨l, hl', hnd, hmem⟩ := h.subtree_eq_ok hb
  rw [hl] at hl'
  cases hl'
  have hne : x ≠ base := by
    rintro rfl
    obtain ⟨y, pre, rfl⟩ := List.exists_cons_of_ne_nil hpre
    obtain ⟨rest, hrest⟩ := preorder_head hl
    cases hrest
    exact (List.nodup_cons.mp hnd).1 (by simp)
  obtain ⟨qs, hq⟩ := (hmem x).mp (by simp)
  obtain ⟨up, r, qs, hp, hq⟩ : ∃ up r qs, Placed t x up r ∧ Way t base up qs := by
    cases hq with
    | here _ => exact absurd rfl hne
    | step hp hq => exact ⟨_, _, _, hp, hq⟩
  refine ⟨up, r, hp, ?_⟩
  obtain ⟨m, hm⟩ := hq.live
  obtain ⟨before, below, after, hpieces, hpiece⟩ :=
    h.preorder_piece hw (Nat.le_add_right _ _) hl ((hmem up).mpr ⟨qs, hq⟩)
  obtain ⟨l', hl', -, hmem'⟩ := h.subtree_eq_ok hm
  rw [hpiece] at hl'
  cases hl'
  have hx : x ∈ below :=
    List.mem_of_ne_of_mem (h.ne_parent hp) ((hmem' x).mpr ⟨_, .step hp (.here hm)⟩)
  obtain ⟨below, below', rfl⟩ := List.append_of_mem hx
  -- The walk is cut at `x` in two ways, once behind `pre` and once behind `up`.
  have hcut : pre ++ x :: post = (before ++ up :: below) ++ x :: (below' ++ after) := by
    rw [hpieces]
    simp
  rcases List.append_eq_append_iff.mp hcut with ⟨mid, hfront, hback⟩ | ⟨mid, hfront, -⟩
  · cases mid with
    | nil =>
        rw [List.append_nil] at hfront
        rw [← hfront]
        simp
    | cons y mid =>
        cases hback
        rw [hcut, hfront] at hnd
        exact absurd rfl ((List.nodup_append.mp hnd).2.2 x (by simp) x List.mem_cons_self)
  · rw [hfront]
    simp

/-! ## The entries of a walk -/

theorem Linked.exists_entries (h : Linked t) (hlive : ∀ x ∈ l, ∃ n, t.node? x = some n) :
    ∃ es, List.Forall₂ (fun x e => t.entry x = .ok e) l es ∧ ∀ e ∈ es, ∃ x, t.entry x = .ok e := by
  induction l with
  | nil => exact ⟨[], .nil, nofun⟩
  | cons x l ih =>
      obtain ⟨n, hn⟩ := hlive x List.mem_cons_self
      obtain ⟨ws, hw⟩ := h.grounded hn
      have he := entry_of_way h hw hn
      obtain ⟨es, hes, hall⟩ := ih fun y hy => hlive y (List.mem_cons_of_mem x hy)
      exact ⟨_, .cons he hes, List.forall_mem_cons.mpr ⟨⟨x, he⟩, hall⟩⟩

/-! ## What a part of a tree holds -/

/-- The nodes `l` of the walk from `base`, and what names lead to from there. -/
structure Charted (t : MemoryTree) (base : NodeId) (l : List NodeId) : Prop where
  walk : Tree.subtree t base = .ok l
  nodup : l.Nodup
  /-- The nodes are all those whose names that of `base` contains. -/
  mem : ∀ x, x ∈ l ↔ ∃ n dbase dx, t.node? x = some n ∧ t.dn base = .ok dbase ∧
    t.dn x = .ok dx ∧ dbase.contains dx = true
  /-- A name leads to a node just if it is the name of that node. -/
  lookup : ∀ d x, Tree.lookup t base d = .ok x ↔ x ∈ l ∧ ∃ dx, t.dn x = .ok dx ∧ dx.same d = true
  /-- A name is that of one node at most. -/
  unique : ∀ x y dx dy, t.dn x = .ok dx → t.dn y = .ok dy → dx.same dy = true → x = y
  /-- There is no other fault than that nothing has the name. -/
  missing : ∀ d, (∀ x, Tree.lookup t base d ≠ .ok x) → Tree.lookup t base d = .error (.notFound d)
  /-- Right after a node come those that can be reached from it, as in a walk from there. -/
  order : ∀ x ∈ l, ∃ before below after, l = before ++ x :: below ++ after ∧
    Tree.subtree t x = .ok (x :: below) ∧ ∀ y, y ∈ below ↔ y ≠ x ∧ Reaches t x y

theorem Linked.lookup_iff (h : Linked t) (hb : t.dn base = .ok dbase) :
    Tree.lookup t base d = .ok x ↔
      ∃ dx, t.dn x = .ok dx ∧ dbase.contains dx = true ∧ dx.same d = true := by
  obtain ⟨ws, hw, rfl⟩ := h.dn_eq_ok_iff.mp hb
  have hdn : ∀ {x qs}, Way t base x qs → t.dn x = .ok ⟨qs ++ ws ++ t.rootDn.rdns⟩ :=
    fun hq => h.dn_of_way (hw.append hq)
  have hway : ∀ {x dx}, t.dn x = .ok dx → (Dn.mk (ws ++ t.rootDn.rdns)).contains dx = true →
      ∃ qs, Way t base x qs := fun hx hc => (h.way_iff_prefix_key hb hx).mpr (Dn.contains_iff.mp hc)
  rcases h.lookup_cases hw d with ⟨y, qs, hy, hq, hs⟩ | ⟨herr, hnot⟩
  · rw [hy]
    constructor
    · intro he
      cases he
      have hpre := (h.way_iff_prefix_key hb (hdn hq)).mp ⟨qs, hq⟩
      exact ⟨_, hdn hq, Dn.contains_iff.mpr hpre, hs⟩
    · rintro ⟨dx, hx, -, hs'⟩
      rw [h.eq_of_same hx (hdn hq) (Dn.same_trans hs' (Dn.same_symm hs))]
  · rw [herr]
    constructor
    · nofun
    · rintro ⟨dx, hx, hc, hs⟩
      obtain ⟨qs, hq⟩ := hway hx hc
      rw [hdn hq] at hx
      cases hx
      rw [hnot hq] at hs
      cases hs

theorem Linked.mem_subtree_iff (h : Linked t) (hb : t.dn base = .ok dbase)
    (hl : Tree.subtree t base = .ok l) :
    x ∈ l ↔ ∃ dx, t.dn x = .ok dx ∧ dbase.contains dx = true := by
  have hbelow : x ∈ l ↔ Tree.Below t base x := by
    refine ⟨fun hx => ⟨l, hl, hx⟩, ?_⟩
    rintro ⟨l', hl', hx⟩
    rw [hl] at hl'
    cases hl'
    exact hx
  obtain ⟨n, hn⟩ := h.dn_live hb
  obtain ⟨l', hl', -, hmem⟩ := h.subtree_eq_ok hn
  rw [hl] at hl'
  cases hl'
  constructor
  · intro hx
    obtain ⟨qs, hq⟩ := (hmem x).mp hx
    obtain ⟨m, hm⟩ := hq.live
    obtain ⟨rs, hrs⟩ := h.grounded hm
    exact ⟨_, h.dn_of_way hrs,
      Dn.contains_iff.mpr ((h.below_iff hb (h.dn_of_way hrs)).mp (hbelow.mp hx))⟩
  · rintro ⟨dx, hx, hc⟩
    exact hbelow.mpr ((h.below_iff hb hx).mpr (Dn.contains_iff.mp hc))

theorem Linked.charted (h : Linked t) (hn : t.node? base = some n) : ∃ l, Charted t base l := by
  obtain ⟨ws, hw⟩ := h.grounded hn
  have hb := h.dn_of_way hw
  obtain ⟨l, hl, hnd, hmem⟩ := h.subtree_eq_ok hn
  refine ⟨l, hl, hnd, fun x => ?_, fun d x => ?_, fun x y dx dy => h.eq_of_same,
    fun d hnot => ?_, fun x hx => ?_⟩
  · rw [h.mem_subtree_iff hb hl]
    constructor
    · rintro ⟨dx, hx, hc⟩
      obtain ⟨m, hm⟩ := h.dn_live hx
      exact ⟨m, _, dx, hm, hb, hx, hc⟩
    · rintro ⟨m, dbase, dx, -, hb', hx, hc⟩
      rw [hb] at hb'
      cases hb'
      exact ⟨dx, hx, hc⟩
  · rw [h.lookup_iff hb, h.mem_subtree_iff hb hl]
    constructor
    · rintro ⟨dx, hx, hc, hs⟩
      exact ⟨⟨dx, hx, hc⟩, dx, hx, hs⟩
    · rintro ⟨⟨dx, hx, hc⟩, dx', hx', hs⟩
      rw [hx] at hx'
      cases hx'
      exact ⟨dx, hx, hc, hs⟩
  · rcases h.lookup_cases hw d with ⟨x, -, hx, -⟩ | ⟨herr, -⟩
    · exact absurd hx (hnot x)
    · exact herr
  · obtain ⟨before, below, after, hpieces, hpiece⟩ :=
      h.preorder_piece hw (Nat.le_add_right _ _) hl hx
    refine ⟨before, below, after, hpieces, hpiece, fun y => ?_⟩
    obtain ⟨qs, hq⟩ := (hmem x).mp hx
    obtain ⟨m, hm⟩ := hq.live
    obtain ⟨l', hl', hnd', hmem'⟩ := h.subtree_eq_ok hm
    rw [hpiece] at hl'
    cases hl'
    rw [h.reaches_iff, ← hmem' y, List.mem_cons]
    have hx' := (List.nodup_cons.mp hnd').1
    constructor
    · intro hy
      exact ⟨fun he => hx' (he ▸ hy), .inr hy⟩
    · rintro ⟨hne, rfl | hy⟩
      · exact absurd rfl hne
      · exact hy

/-- After any calls names and nodes correspond below every node, and the name of a node leads back
    to it from the root. -/
theorem afterCalls_charted (e : Entry) (calls : List (NodeId × Call)) :
    let t := Tree.afterCalls calls (ofRoot e)
    (∀ base n, t.node? base = some n → ∃ l, Charted t base l) ∧
      ∀ x n, t.node? x = some n →
        ∃ dx, t.dn x = .ok dx ∧ Tree.lookup t (TreeView.root t) dx = .ok x := by
  intro t
  have h := (wellFormed_afterCalls (wellFormed_ofRoot e) calls).linked
  refine ⟨fun base n hn => h.charted hn, fun x n hn => ?_⟩
  obtain ⟨rs, hw⟩ := h.grounded hn
  exact ⟨_, h.dn_of_way hw, h.lookup_eq_ok_iff.mpr ⟨_, h.dn_of_way hw, Dn.same_refl _⟩⟩

/-- A node in a slot that another one had before it is found under the name it was moved to. -/
theorem afterCalls_charted_reused :
    let e : Entry := ⟨⟨[.single "dc" "x"]⟩, .empty⟩
    let calls : List (NodeId × Call) := [(rootId, .addChild (.single "ou" "a") .empty),
      (rootId, .addChild (.single "ou" "b") .empty), (⟨2, 0⟩, .delete),
      (rootId, .addChild (.single "ou" "c") .empty),
      (⟨2, 1⟩, .moveTo ⟨[.single "cn" "d", .single "OU" "a", .single "dc" "x"]⟩)]
    let t := Tree.afterCalls calls (ofRoot e)
    let d : Dn := ⟨[.single "cn" "d", .single "ou" "a", .single "dc" "x"]⟩
    (∃ l, Charted t ⟨1, 0⟩ l) ∧ t.dn ⟨2, 1⟩ = .ok d ∧
      Tree.lookup t (TreeView.root t) d = .ok ⟨2, 1⟩ := by
  intro e calls t d
  have hbase : (t.node? ⟨1, 0⟩).isSome = true := by decide +kernel
  have hlive : (t.node? ⟨2, 1⟩).isSome = true := by decide +kernel
  have hd : t.dn ⟨2, 1⟩ = .ok d := by decide +kernel
  obtain ⟨hcharted, hfound⟩ := afterCalls_charted e calls
  obtain ⟨n, hn⟩ := Option.isSome_iff_exists.mp hbase
  obtain ⟨m, hm⟩ := Option.isSome_iff_exists.mp hlive
  obtain ⟨d', hd', hlook⟩ := hfound ⟨2, 1⟩ m hm
  cases hd.symm.trans hd'
  exact ⟨hcharted ⟨1, 0⟩ n hn, hd, hlook⟩

end MemoryTree
end DirectoryStore
