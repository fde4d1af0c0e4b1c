import DirectoryStore.Proofs.Memory.Names
import DirectoryStore.Tree.Search

/-!
# What a search finds

A search from a node delivers the entries that its scope takes in by their names and its filter
accepts, in the order of a walk through the whole tree, up to its limit.  What it shows of them is
chosen afterwards.
-/

namespace DirectoryStore

/-- Whether a scope takes in a name, from a base of another name: the name of the base itself,
    those whose parent is the base, or all that the base contains. -/
def Scope.covers : Scope → Dn → Dn → Bool
  | base, b, d => d.same b
  | oneLevel, b, d => d.up?.any (·.same b)
  | subtree, b, d => b.contains d

namespace SearchRequest

/-- Whether an entry is to be found from a base.  Which attributes are wanted does not matter. -/
def finds (q : SearchRequest) (b : Dn) (e : Entry) : Bool :=
  q.scope.covers b e.dn && q.filter.accepts e

/-- What is left of a list when only so many may be delivered. -/
def cut {α : Type} : Option Nat → List α → List α
  | none, l => l
  | some n, l => l.take n

/-- An entry is shown under its name, with the attributes of the wanted types and no others. -/
structure Shown (wanted : List String) (e f : Entry) : Prop where
  dn : f.dn = e.dn
  attributes : ∀ s, s ∈ f.attributes.sets ↔ s ∈ e.attributes.sets ∧
    (wanted = [] ∨ "*" ∈ wanted ∨ ∃ w ∈ wanted, foldCase w = s.foldedKey)

theorem shown_project (wanted : List String) (e : Entry) : Shown wanted e (e.project wanted) := by
  rw [Entry.project]
  split
  · rename_i hall
    refine ⟨rfl, fun s => (and_iff_left ?_).symm⟩
    rw [Entry.wantsAll, Bool.or_eq_true, List.isEmpty_iff, List.contains_iff_mem] at hall
    exact hall.imp_right .inl
  · rename_i hsome
    refine ⟨rfl, fun s => ?_⟩
    rw [Entry.wantsAll, Bool.or_eq_true, List.isEmpty_iff, List.contains_iff_mem, not_or] at hsome
    have hany : wanted.any (sameIgnoringCase s.key) = true ↔
        ∃ w ∈ wanted, foldCase w = s.foldedKey := by
      simp only [List.any_eq_true, sameIgnoringCase, beq_iff_eq, AttributeSet.foldedKey]
      exact exists_congr fun w => and_congr_right fun _ => eq_comm
    rw [or_iff_right hsome.1, or_iff_right hsome.2, ← hany]
    exact List.mem_filter

section Cut

variable {α : Type} {limit : Option Nat} {count : Nat} {x : α} {l : List α}

theorem cut_full (h : limit.any (· ≤ count) = true) :
    cut (limit.map (· - count)) l = [] := by
  cases limit with
  | none => cases h
  | some n =>
      have hn : n - count = 0 := Nat.sub_eq_zero_of_le (of_decide_eq_true h)
      rw [Option.map_some, cut, hn, List.take_zero]

theorem cut_cons (h : limit.any (· ≤ count) = false) :
    cut (limit.map (· - count)) (x :: l) = x :: cut (limit.map (· - (count + 1))) l := by
  cases limit with
  | none => rfl
  | some n =>
      have hn : n - count = n - (count + 1) + 1 := by
        have := of_decide_eq_false h
        omega
      rw [Option.map_some, cut, hn, List.take_succ_cons]
      rfl

theorem cut_nil (limit : Option Nat) : cut limit ([] : List α) = [] := by
  cases limit with
  | none => rfl
  | some n => exact List.take_nil

theorem cut_all (limit : Option Nat) (l : List α) : cut (limit.map (· - 0)) l = cut limit l := by
  cases limit <;> rfl

end Cut

end SearchRequest

namespace Tree

open SearchRequest (cut cut_full cut_cons cut_nil cut_all Shown)

variable {τ ν : Type} [TreeView τ ν] {t : τ} {base : ν} {nodes : List ν} {es : List Entry}

variable {σ : Type} {take : Entry → Edit σ Unit}

theorem run_deliverTo (q : SearchRequest) (count : Nat) (nodes : List ν) (s : σ) :
    (deliverTo t q take count nodes).run s =
      match (visitAll take (deliver t q count nodes).1).run s with
      | (.ok (), s') => ((deliver t q count nodes).2, s')
      | (.error e, s') => (.error e, s') := by
  induction nodes generalizing count s with
  | nil => rfl
  | cons x nodes ih =>
      rw [deliverTo, deliver]
      split
      · rfl
      · rw [Edit.run_bind, Edit.run_ofExcept]
        cases hx : TreeView.entry t x with
        | error e => rfl
        | ok found =>
            dsimp only
            split
            · rw [Edit.run_bind, visitAll, Edit.run_bind]
              rcases (take (found.project q.attributes)).run s with ⟨_ | _, s'⟩
              · rfl
              · exact ih (count + 1) s'
            · exact ih count s

/-- A search hands on what it delivers to one who takes all of it, up to where taking fails. -/
theorem run_searchTo (q : SearchRequest) (s : σ) :
    (searchTo t base q take).run s =
      match (visitAll take (searchWith t base q).1).run s with
      | (.ok (), s') => ((searchWith t base q).2, s')
      | (.error e, s') => (.error e, s') := by
  rw [searchTo, searchWith, Edit.run_bind, Edit.run_ofExcept]
  cases inScope t base q.scope with
  | error e => rfl
  | ok nodes => exact run_deliverTo q 0 nodes s

/-- From nodes with entries a search delivers those that the filter accepts, as far as the limit
    allows after what has been delivered before. -/
theorem deliver_eq (q : SearchRequest) (count : Nat)
    (h : List.Forall₂ (fun x e => TreeView.entry t x = .ok e) nodes es) :
    let found := cut (q.limit?.map (· - count)) (es.filter q.filter.accepts)
    deliver t q count nodes = (found.map (·.project q.attributes), .ok (count + found.length)) := by
  dsimp only
  induction h generalizing count with
  | nil =>
      rw [List.filter_nil, cut_nil]
      rfl
  | @cons x e nodes es hx _ ih =>
      rw [deliver]
      split
      · rename_i hfull
        rw [cut_full hfull]
        rfl
      · rename_i hroom
        rw [Bool.not_eq_true] at hroom
        simp only [hx]
        split
        · rename_i hacc
          rw [List.filter_cons_of_pos hacc, cut_cons hroom, ih]
          simp only [List.map_cons, List.length_cons, Nat.add_assoc, Nat.add_comm 1]
        · rename_i hrej
          rw [List.filter_cons_of_neg hrej, ih]

theorem searchWith_eq {q : SearchRequest} (hnodes : inScope t base q.scope = .ok nodes)
    (h : List.Forall₂ (fun x e => TreeView.entry t x = .ok e) nodes es) :
    let found := cut q.limit? (es.filter q.filter.accepts)
    searchWith t base q = (found.map (·.project q.attributes), .ok found.length) := by
  have := deliver_eq q 0 h
  simp only [cut_all, Nat.zero_add] at this
  rw [searchWith, hnodes]
  exact this

end Tree

namespace MemoryTree

open DirectoryStore.Tree (entriesBelow)
open SearchRequest (cut Shown)

variable {t : MemoryTree} {base x : NodeId} {n : MemoryNode} {dbase dx : Dn} {l : List NodeId}
variable {all : List Entry}

/-- All entries of a tree, in the order of a walk through it, each once. -/
structure Census (t : MemoryTree) (all : List Entry) : Prop where
  walk : entriesBelow t (TreeView.root t) = .ok all
  mem : ∀ e, e ∈ all ↔ ∃ x, t.entry x = .ok e
  once : all.Pairwise fun e f => e.dn.same f.dn = false

/-- What a search from a base delivers, and that it reports the number: of all entries of the tree
    those that are to be found, up to the limit, as the request wants them shown. -/
structure Delivers (t : MemoryTree) (base : NodeId) (dbase : Dn) (all : List Entry)
    (q : SearchRequest) (delivered : List Entry) : Prop where
  searchWith : Tree.searchWith t base q = (delivered, .ok delivered.length)
  search : Tree.search t base q = .ok delivered
  shown : List.Forall₂ (Shown q.attributes) (cut q.limit? (all.filter (q.finds dbase))) delivered

/-! ## Scopes by names -/

theorem Linked.mem_children_iff (h : Linked t) (hn : t.node? base = some n)
    (hb : t.dn base = .ok dbase) (hx : t.dn x = .ok dx) :
    x ∈ n.children ↔ Scope.covers .oneLevel dbase dx = true := by
  rw [h.children hn, Scope.covers]
  constructor
  · rintro ⟨r, hp⟩
    cases hx.symm.trans (h.dn_of_placed hp hb)
    exact Dn.same_refl dbase
  · intro hup
    rcases h.dn_cases hx with ⟨rfl, rfl⟩ | ⟨up, r, dup, hp, hdup, rfl⟩
    · -- nothing in the tree is above its root
      have hlen := (h.prefix_root hb).length_le
      rw [Dn.length_key, Dn.length_key, Dn.size] at hlen
      rw [Dn.up?] at hup
      split at hup
      · cases hup
      · rename_i r rs hrs
        have hsize : rs.length = dbase.size := Dn.size_eq_of_same hup
        rw [hrs, List.length_cons] at hlen
        omega
    · have hs : dup.same dbase = true := hup
      cases h.eq_of_same hdup hb hs
      exact ⟨r, hp⟩

/-- The nodes in scope are those of a walk through the whole tree whose names the scope covers. -/
theorem Linked.inScope_eq_ok (h : Linked t) (hn : t.node? base = some n)
    (hb : t.dn base = .ok dbase) (hl : Tree.subtree t rootId = .ok l) (hnd : l.Nodup)
    (hmem : ∀ x, x ∈ l ↔ ∃ n, t.node? x = some n) (scope : Scope) :
    ∃ nodes, Tree.inScope t base scope = .ok nodes ∧ l.filter (· ∈ nodes) = nodes ∧
      ∀ x e, t.entry x = .ok e → (x ∈ nodes ↔ scope.covers dbase e.dn = true) := by
  obtain ⟨m, hm, -⟩ := h.root
  have hbase : base ∈ l := (hmem base).mpr ⟨n, hn⟩
  cases scope with
  | base =>
      refine ⟨[base], rfl, ?_, fun x e he => ?_⟩
      · exact filter_mem_of_sublist (List.singleton_sublist.mpr hbase) hnd
      · have hx := (h.entry_eq_ok_iff.mp he).1
        rw [List.mem_singleton]
        refine ⟨?_, h.eq_of_same hx hb⟩
        rintro rfl
        cases hx.symm.trans hb
        exact Dn.same_refl _
  | oneLevel =>
      refine ⟨n.children, children_eq_ok hn, h.filter_subtree hm hl hbase hn, fun x e he => ?_⟩
      exact h.mem_children_iff hn hb (h.entry_eq_ok_iff.mp he).1
  | subtree =>
      obtain ⟨before, below, after, hpieces, hpiece⟩ :=
        h.preorder_piece h.root_way (Nat.le_add_right _ _) hl hbase
      refine ⟨base :: below, hpiece, ?_, fun x e he => ?_⟩
      · exact filter_mem_of_sublist (hpieces ▸ sublist_piece) hnd
      · have hx := (h.entry_eq_ok_iff.mp he).1
        rw [h.mem_subtree_iff hb hpiece]
        constructor
        · rintro ⟨dx, hdx, hc⟩
          cases hdx.symm.trans hx
          exact hc
        · exact fun hc => ⟨e.dn, hx, hc⟩

/-! ## Searches -/

theorem forall₂_shown (wanted : List String) (es : List Entry) :
    List.Forall₂ (Shown wanted) es (es.map (·.project wanted)) := by
  rw [List.forall₂_map_right_iff, List.forall₂_same]
  exact fun e _ => SearchRequest.shown_project wanted e

theorem Linked.delivers (h : Linked t) (hn : t.node? base = some n)
    (hb : t.dn base = .ok dbase) (hl : Tree.subtree t rootId = .ok l) (hnd : l.Nodup)
    (hmem : ∀ x, x ∈ l ↔ ∃ n, t.node? x = some n)
    (hall : List.Forall₂ (fun x e => t.entry x = .ok e) l all) (q : SearchRequest) :
    ∃ delivered, Delivers t base dbase all q delivered := by
  obtain ⟨nodes, hnodes, hpart, hcovers⟩ := h.inScope_eq_ok hn hb hl hnd hmem q.scope
  have hentries := List.rel_filter (p := (· ∈ nodes)) (q := fun e => q.scope.covers dbase e.dn)
    (fun x e he => decide_eq_true_iff.trans (hcovers x e he)) hall
  rw [hpart] at hentries
  have hfound : (all.filter fun e => q.scope.covers dbase e.dn).filter q.filter.accepts =
      all.filter (q.finds dbase) := by
    rw [List.filter_filter]
    exact List.filter_congr fun e _ => Bool.and_comm _ _
  have hsearch := Tree.searchWith_eq hnodes hentries
  rw [hfound] at hsearch
  refine ⟨(cut q.limit? (all.filter (q.finds dbase))).map (·.project q.attributes), ?_, ?_,
    forall₂_shown q.attributes _⟩
  · rw [List.length_map]
    exact hsearch
  · rw [Tree.search, hsearch]

theorem exists_rel_of_mem {α β : Type} {R : α → β → Prop} {xs : List α} {ys : List β} {y : β}
    (h : List.Forall₂ R xs ys) (hy : y ∈ ys) : ∃ x ∈ xs, R x y := by
  induction h with
  | nil => cases hy
  | cons hxy _ ih =>
      rcases List.mem_cons.mp hy with rfl | hy
      · exact ⟨_, List.mem_cons_self, hxy⟩
      · obtain ⟨x, hx, hrel⟩ := ih hy
        exact ⟨x, List.mem_cons_of_mem _ hx, hrel⟩

/-- Different nodes of a walk have entries of different names. -/
theorem Linked.pairwise_dn (h : Linked t) (hall : List.Forall₂ (fun x e => t.entry x = .ok e) l all)
    (hnd : l.Nodup) : all.Pairwise fun e f => e.dn.same f.dn = false := by
  induction hall with
  | nil => exact .nil
  | @cons x e l all hx hrest ih =>
      obtain ⟨hfresh, hnd⟩ := List.nodup_cons.mp hnd
      refine List.pairwise_cons.mpr ⟨fun f hf => ?_, ih hnd⟩
      obtain ⟨y, hy, hfy⟩ := exists_rel_of_mem hrest hf
      rw [Bool.eq_false_iff]
      intro hs
      cases h.eq_of_same (h.entry_eq_ok_iff.mp hx).1 (h.entry_eq_ok_iff.mp hfy).1 hs
      exact hfresh hy

theorem Linked.census (h : Linked t) (hl : Tree.subtree t rootId = .ok l) (hnd : l.Nodup)
    (hmem : ∀ x, x ∈ l ↔ ∃ n, t.node? x = some n)
    (hall : List.Forall₂ (fun x e => t.entry x = .ok e) l all) : Census t all where
  walk := by
    have hsubtree : Tree.subtree t (TreeView.root t) = .ok l := hl
    rw [entriesBelow, hsubtree]
    exact Tree.mapM_eq_ok hall
  mem e := by
    constructor
    · intro he
      obtain ⟨x, -, hx⟩ := exists_rel_of_mem hall he
      exact ⟨x, hx⟩
    · rintro ⟨x, hx⟩
      have hlive := h.dn_live (h.entry_eq_ok_iff.mp hx).1
      obtain ⟨f, hf, hfx⟩ := exists_rel_of_mem hall.flip ((hmem x).mpr hlive)
      cases hx.symm.trans hfx
      exact hf
  once := h.pairwise_dn hall hnd

/-- After any calls a search from any node delivers the entries that its scope covers by name and
    its filter accepts, each once and in the order of a walk through the tree, up to its limit. -/
theorem search_delivers (e : Entry) (calls : List (NodeId × Call)) (q : SearchRequest)
    (h : (Tree.afterCalls calls (ofRoot e)).node? base = some n) :
    ∃ dbase all delivered, (Tree.afterCalls calls (ofRoot e)).dn base = .ok dbase ∧
      Census (Tree.afterCalls calls (ofRoot e)) all ∧
      Delivers (Tree.afterCalls calls (ofRoot e)) base dbase all q delivered := by
  have hw := wellFormed_afterCalls (wellFormed_ofRoot e) calls
  generalize Tree.afterCalls calls (ofRoot e) = t at h hw ⊢
  obtain ⟨l, hl, hnd, -, hmem, -⟩ := hw.consistent.walk
  obtain ⟨all, hall, -⟩ := hw.linked.exists_entries fun x hx => (hmem x).mp hx
  obtain ⟨rs, hway⟩ := hw.linked.grounded h
  have hb := hw.linked.dn_of_way hway
  obtain ⟨delivered, hdelivered⟩ := hw.linked.delivers h hb hl hnd hmem hall q
  exact ⟨_, all, delivered, hb, hw.linked.census hl hnd hmem hall, hdelivered⟩

/-- A search with a limit below a node that has moved, for one type of attributes. -/
theorem search_delivers_moved :
    let e : Entry := ⟨⟨[.single "dc" "x"]⟩, .empty⟩
    let calls : List (NodeId × Call) := [
      (rootId, .addChild (.single "ou" "a") (.ofPairs [("o", [[97]])])),
      (rootId, .addChild (.single "ou" "b") .empty),
      (⟨2, 0⟩, .addChild (.single "cn" "c") (.ofPairs [("O", [[98]]), ("sn", [[99]])])),
      (⟨2, 0⟩, .moveTo ⟨[.single "ou" "b", .single "ou" "a", .single "dc" "x"]⟩)]
    let q : SearchRequest := ⟨.item (.present "o"), .subtree, some 1, ["O"]⟩
    let t := Tree.afterCalls calls (ofRoot e)
    ∃ n, t.node? ⟨1, 0⟩ = some n ∧ ∃ dbase all delivered, t.dn ⟨1, 0⟩ = .ok dbase ∧ Census t all ∧
      Delivers t ⟨1, 0⟩ dbase all q delivered := by
  intro e calls q t
  have hlive : (t.node? ⟨1, 0⟩).isSome = true := by decide +kernel
  obtain ⟨n, hn⟩ := Option.isSome_iff_exists.mp hlive
  exact ⟨n, hn, search_delivers e calls q hn⟩

end MemoryTree
end DirectoryStore
