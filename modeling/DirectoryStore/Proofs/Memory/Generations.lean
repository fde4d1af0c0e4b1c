import DirectoryStore.Filter.Reader
import DirectoryStore.Proofs.Memory.Consistency
import DirectoryStore.Proofs.Memory.Searching
import DirectoryStore.Tree.Diff
import DirectoryStore.Tree.Load

/-!
# Handles of deleted nodes

A slot goes into its next generation whenever it loses its node, and no other step touches its
generation.  So a handle that was given out once resolves as long as its slot has not been
freed, and the handle of a deleted node is dead in all that can be asked of it.  It comes back
to life only when the counter of generations has gone all the way round.
-/

namespace DirectoryStore
namespace MemoryTree

variable {t t' : MemoryTree} {id up new x : NodeId} {n : MemoryNode} {r : Rdn} {i : Nat}

/-! ## What a slot shows -/

/-- The generation of a slot.  A slot that is still to come is in the first one. -/
def generationAt (t : MemoryTree) (i : Nat) : UInt32 :=
  (t.slots[i]?.map Slot.generation).getD 0

/-- Whether a slot holds a node. -/
def taken (t : MemoryTree) (i : Nat) : Bool :=
  (t.slots[i]?.bind Slot.node).isSome

/-- A handle resolves when its slot holds a node and is in the generation of the handle. -/
theorem live_iff_taken :
    (∃ n, t.node? x = some n) ↔ t.taken x.index = true ∧ t.generationAt x.index = x.generation := by
  simp only [node?_eq_some_iff, taken, generationAt]
  cases hs : t.slots[x.index]? with
  | none => simp
  | some slot =>
      obtain ⟨g, node⟩ := slot
      cases node <;> simp

@[simp] theorem generationAt_modifyNode (id : NodeId) (f : MemoryNode → MemoryNode) (i : Nat) :
    (t.modifyNode id f).generationAt i = t.generationAt i := by
  simp only [generationAt, modifyNode, List.getElem?_modify]
  split
  · cases t.slots[i]? <;> rfl
  · simp

@[simp] theorem taken_modifyNode (id : NodeId) (f : MemoryNode → MemoryNode) (i : Nat) :
    (t.modifyNode id f).taken i = t.taken i := by
  simp only [taken, modifyNode, List.getElem?_modify]
  split
  · cases t.slots[i]? with
    | none => rfl
    | some slot => cases slot.node <;> simp
  · simp

theorem generationAt_insert (h : Tidy t) (n : MemoryNode) (i : Nat) :
    (t.insert n).2.generationAt i = t.generationAt i := by
  rcases insert_cases h n with ⟨-, he⟩ | ⟨j, rest, g, -, hs, he⟩
  · simp only [he, generationAt]
    rcases Nat.lt_trichotomy i t.slots.length with hlt | rfl | hgt
    · rw [List.getElem?_append_left hlt]
    · simp
    · have hout : (t.slots ++ [⟨0, some n⟩])[i]? = none := by
        rw [List.getElem?_eq_none_iff, List.length_append, List.length_singleton]
        omega
      rw [hout, List.getElem?_eq_none (Nat.le_of_lt hgt)]
  · simp only [he, generationAt]
    by_cases hj : i = j
    · subst hj
      rw [List.getElem?_set_self (List.getElem?_eq_some_iff.mp hs).1, hs]
      rfl
    · rw [List.getElem?_set_ne (Ne.symm hj)]

theorem taken_insert (h : Tidy t) (n : MemoryNode) (hi : t.taken i = true) :
    (t.insert n).2.taken i = true := by
  rcases insert_cases h n with ⟨-, he⟩ | ⟨j, rest, g, -, hs, he⟩
  · simp only [he, taken] at hi ⊢
    cases hs : t.slots[i]? with
    | none => simp [hs] at hi
    | some slot =>
        rw [hs] at hi
        rw [List.getElem?_append_left (List.getElem?_eq_some_iff.mp hs).1, hs]
        exact hi
  · have hj : i ≠ j := by
      rintro rfl
      simp [taken, hs] at hi
    simp only [he, taken] at hi ⊢
    rw [List.getElem?_set_ne (Ne.symm hj)]
    exact hi

theorem generationAt_release (hn : t.node? id = some n) (i : Nat) :
    (t.release id).generationAt i = t.generationAt i + if i = id.index then 1 else 0 := by
  have hs := node?_eq_some_iff.mp hn
  simp only [generationAt, release, List.getElem?_modify]
  by_cases hi : i = id.index
  · subst hi
    simp [hs]
  · simp [hi, Ne.symm hi]

theorem taken_release (hn : t.node? id = some n) (i : Nat) :
    (t.release id).taken i = (t.taken i && i != id.index) := by
  have hs := node?_eq_some_iff.mp hn
  simp only [taken, release, List.getElem?_modify]
  by_cases hi : i = id.index
  · subst hi
    simp [hs]
  · simp [hi, Ne.symm hi]

/-! ## Ageing -/

/-- Whether a slot that holds a node in `t` is free in `t'`. -/
def freed (t t' : MemoryTree) (i : Nat) : Bool :=
  t.taken i && !t'.taken i

/-- From `t` to `t'` a slot goes into the next generation if it is freed, and stays in its own
    otherwise. -/
def Aged (t t' : MemoryTree) : Prop :=
  ∀ i, t'.generationAt i = t.generationAt i + if freed t t' i then 1 else 0

/-- Slots that are kept do not age. -/
theorem Aged.of_kept (hgen : ∀ i, t'.generationAt i = t.generationAt i)
    (htaken : ∀ i, t.taken i = true → t'.taken i = true) : Aged t t' := by
  intro i
  have hfreed : freed t t' i = false := by
    cases hi : t.taken i with
    | false => simp [freed, hi]
    | true => simp [freed, htaken i hi]
  simp [hgen, hfreed]

theorem addChild_aged (h : WellFormed t) {attrs : AttributeMap}
    (hok : t.addChild id r attrs = .ok (new, t')) : Aged t t' := by
  simp only [addChild, bind, Except.bind, pure, Except.pure] at hok
  split at hok
  · cases hok
  split at hok
  · cases hok
  split at hok
  · cases hok
  · cases hok
    refine .of_kept (fun i => ?_) fun i hi => ?_
    · rw [generationAt_modifyNode, generationAt_insert h.tidy]
    · rw [taken_modifyNode]
      exact taken_insert h.tidy _ hi

theorem deleteChild_aged (hok : t.deleteChild id r = .ok ((), t')) : Aged t t' := by
  simp only [deleteChild, bind, Except.bind, pure, Except.pure] at hok
  split at hok
  · cases hok
  split at hok
  · split at hok <;> cases hok
  rename_i found _
  split at hok
  · cases hok
  split at hok
  · cases hok
  rename_i below hbelow
  split at hok
  · cases hok
    obtain ⟨n, hn⟩ : ∃ n, t.node? found = some n := by
      cases hn : t.node? found with
      | none => simp [children, node_eq_error hn] at hbelow
      | some n => exact ⟨n, rfl⟩
    obtain ⟨m, hm⟩ : ∃ m, (t.unlink id found).node? found = some m := by
      rw [live_iff_taken, unlink, taken_modifyNode, generationAt_modifyNode, ← live_iff_taken]
      exact ⟨n, hn⟩
    have htaken := (live_iff_taken.mp ⟨n, hn⟩).1
    intro i
    rw [generationAt_release hm, freed, taken_release hm, unlink, generationAt_modifyNode,
      taken_modifyNode]
    by_cases hi : i = found.index
    · simp [hi, htaken]
    · simp [hi]
  · cases hok

theorem setAttributes_aged {attrs : AttributeMap} (hok : t.setAttributes id attrs = .ok ((), t')) :
    Aged t t' := by
  simp only [setAttributes, bind, Except.bind, pure, Except.pure] at hok
  split at hok
  · cases hok
  · cases hok
    exact .of_kept (fun i => by simp) fun i hi => by simpa using hi

theorem moveTo_aged {target : Dn} (hok : t.moveTo id target = .ok (new, t')) : Aged t t' := by
  simp only [moveTo, bind, Except.bind, pure, Except.pure] at hok
  -- every check but the last one fails in its first case
  repeat (split at hok; · cases hok)
  cases hok
  exact .of_kept (fun i => by simp [unlink]) fun i hi => by simpa [unlink] using hi

theorem call_aged (h : WellFormed t) (id : NodeId) (c : Call) :
    Aged t ((Tree.call id c).run t).2 := by
  rcases call_cases h id c rfl with hsame | ⟨up, r, attrs, new, hok⟩ | ⟨up, r, hok⟩ |
    ⟨x, attrs, hok⟩ | ⟨x, target, new, hok⟩
  · rw [hsame]
    exact .of_kept (fun _ => rfl) fun _ hi => hi
  · exact addChild_aged h hok
  · exact deleteChild_aged hok
  · exact setAttributes_aged hok
  · exact moveTo_aged hok

/-- How often a slot is freed in the course of a run. -/
def frees (i : Nat) : List (NodeId × Call) → MemoryTree → Nat
  | [], _ => 0
  | (id, c) :: calls, t =>
      (if freed t ((Tree.call id c).run t).2 i then 1 else 0) +
        frees i calls ((Tree.call id c).run t).2

theorem generationAt_afterCalls (h : WellFormed t) (calls : List (NodeId × Call)) (i : Nat) :
    (Tree.afterCalls calls t).generationAt i =
      t.generationAt i + UInt32.ofNat (frees i calls t) := by
  induction calls generalizing t with
  | nil => simp [Tree.afterCalls, frees]
  | cons call calls ih =>
      have hcall := call_aged h call.1 call.2 i
      rw [Tree.afterCalls, ih (call_follows h call.1 call.2).wellFormed, hcall, frees,
        UInt32.ofNat_add, UInt32.add_assoc]
      split <;> rfl

/-- Going on from where a handle resolves, it resolves again just if its slot is taken and has
    been freed so often that its generations have come round. -/
theorem live_afterCalls_iff (h : WellFormed t) (hx : ∃ n, t.node? x = some n)
    (calls : List (NodeId × Call)) :
    (∃ n, (Tree.afterCalls calls t).node? x = some n) ↔
      (Tree.afterCalls calls t).taken x.index = true ∧ UInt32.size ∣ frees x.index calls t := by
  have hround : UInt32.ofNat (frees x.index calls t) = 0 ↔ UInt32.size ∣ frees x.index calls t := by
    rw [← UInt32.toNat_inj, UInt32.size]
    simp
    omega
  rw [live_iff_taken, generationAt_afterCalls h, (live_iff_taken.mp hx).2, UInt32.add_eq_left,
    hround]

theorem frees_pos (h : WellFormed t) (hx : ∃ n, t.node? x = some n) (id : NodeId) (c : Call)
    (hgone : ((Tree.call id c).run t).2.node? x = none) (calls : List (NodeId × Call)) :
    0 < frees x.index ((id, c) :: calls) t := by
  have hcall := call_aged h id c x.index
  rw [frees]
  cases hfreed : freed t ((Tree.call id c).run t).2 x.index with
  | true =>
      rw [if_pos rfl]
      omega
  | false =>
      -- a slot that keeps its node stays in its generation
      obtain ⟨htaken, hgen⟩ := live_iff_taken.mp hx
      have htaken' : ((Tree.call id c).run t).2.taken x.index = true := by
        simpa [freed, htaken] using hfreed
      rw [hfreed] at hcall
      obtain ⟨n, hn⟩ := live_iff_taken.mpr ⟨htaken', by simpa [hgen] using hcall⟩
      rw [hgone] at hn
      cases hn

/-! ## Dead handles -/

/-- Whatever is asked of the handle, it is found to be stale, and nothing changes.  Only a fault
    in the text of a filter and what a visitor does come before. -/
structure Dead (t : MemoryTree) (x : NodeId) : Prop where
  dn : t.dn x = .error .staleHandle
  entry : t.entry x = .error .staleHandle
  parent : t.parent x = .error .staleHandle
  children : t.children x = .error .staleHandle
  child : ∀ r, t.child x r = .error .staleHandle
  lookup : ∀ d, Tree.lookup t x d = .error .staleHandle
  subtree : Tree.subtree t x = .error .staleHandle
  accepts : ∀ f, Tree.accepts t x f = .error .staleHandle
  searchWith : ∀ q, Tree.searchWith t x q = ([], .error .staleHandle)
  searchTo : ∀ {σ : Type} (q : SearchRequest) (take : Entry → Edit σ Unit) (s : σ),
    (Tree.searchTo t x q take).run s = (.error .staleHandle, s)
  searchText : ∀ text scope, Tree.searchText t x text scope = match Filter.parse text with
    | .error e => .error (.filter e)
    | .ok _ => .error .staleHandle
  visitChildren : ∀ {σ : Type} (visit : NodeId → Edit σ Unit) (s : σ),
    (Tree.visitChildren t x visit).run s = (.error .staleHandle, s)
  visitSubtree : ∀ {σ : Type} (visit : NodeId → Edit σ Unit) (s : σ),
    (Tree.visitSubtree t x visit).run s = match (visit x).run s with
      | (.error e, s') => (.error e, s')
      | (.ok _, s') => (.error .staleHandle, s')
  call : ∀ c, (Tree.call x c).run t = (.error .staleHandle, t)
  load : ∀ text, (Tree.loadLdif x text).run t = (.error .staleHandle, t)
  copyFrom : ∀ {τ ν : Type} [DirectoryTree τ ν] (target : ν) (u : τ),
    (Tree.copyTree (fun _ => t) x target).run u = (.error .staleHandle, u)
  copyTo : ∀ {σ μ : Type} [TreeView σ μ] (source : σ) (node : μ),
    (Tree.copyTree (fun _ => source) node x).run t = match TreeView.entry source node with
      | .error e => (.error e, t)
      | .ok _ => (.error .staleHandle, t)
  diffFrom : ∀ {τ ν : Type} [TreeView τ ν] (b : τ) (theirs : ν),
    Tree.diffSubtrees t x b theirs = .error (.tree .staleHandle)
  diffTo : ∀ {σ μ : Type} [TreeView σ μ] (a : σ) (ours : μ),
    Tree.diffSubtrees a ours t x = match TreeView.entry a ours with
      | .error e => .error (.tree e)
      | .ok _ => .error (.tree .staleHandle)

theorem dead_of_none (h : WellFormed t) (hn : t.node? x = none) : Dead t x := by
  have hdn : TreeView.dn t x = .error .staleHandle := dn_eq_error hn
  have hentry : TreeView.entry t x = .error .staleHandle := entry_stale hn
  have hchildren : TreeView.children t x = .error .staleHandle := by
    show t.children x = _
    simp [MemoryTree.children, node_eq_error hn]
  have hheight : ∃ depth, TreeView.height t = depth + 1 := by
    obtain ⟨n, hn, -⟩ := h.linked.root
    exact Nat.exists_eq_succ_of_ne_zero (Nat.ne_of_gt (Nat.zero_lt_of_lt (index_lt hn)))
  have hsubtree : Tree.subtree t x = .error .staleHandle := by
    obtain ⟨depth, hheight⟩ := hheight
    simp only [Tree.subtree, hheight, Tree.preorder, hchildren]
  have hsearch : ∀ q, Tree.searchWith t x q = ([], .error .staleHandle) := by
    intro q
    have hlimit : q.limit?.any (· ≤ 0) = false := by
      rw [SearchRequest.limit?, Option.any_filter]
      cases q.sizeLimit with
      | none => rfl
      | some n =>
          simp
          omega
    rw [Tree.searchWith]
    cases q.scope with
    | base => simp only [Tree.inScope, Tree.deliver, hlimit, hentry, Bool.false_eq_true, if_false]
    | oneLevel => simp only [Tree.inScope, hchildren]
    | subtree => simp only [Tree.inScope, hsubtree]
  exact
    { dn := hdn
      entry := hentry
      parent := by simp [MemoryTree.parent, node_eq_error hn]
      children := hchildren
      child := fun r => child_eq_error hn
      lookup := fun d => by simp only [Tree.lookup, hdn]
      subtree := hsubtree
      accepts := fun f => by simp only [Tree.accepts, hentry]
      searchWith := hsearch
      searchTo := fun q take s => by
        rw [Tree.run_searchTo, hsearch]
        rfl
      searchText := fun text scope => by
        rw [Tree.searchText]
        cases Filter.parse text with
        | error e => rfl
        | ok f => simp only [Tree.search, hsearch]
      visitChildren := fun visit s => by
        simp only [Tree.visitChildren, Edit.run_bind, Edit.run_ofExcept, hchildren]
      visitSubtree := fun visit s => by
        obtain ⟨depth, hheight⟩ := hheight
        rw [Tree.visitSubtree, hheight]
        simp only [Tree.visitLevels, Edit.run_bind, Edit.run_ofExcept, hchildren]
        rcases (visit x).run s with ⟨_ | _, _⟩ <;> rfl
      call := call_stale hn
      load := fun text => by
        simp only [Tree.loadLdif, Edit.run_bind, Edit.run_look, hdn]
      copyFrom := fun target u => by
        simp only [Tree.copyTree, Edit.run_bind, Edit.run_look, hentry]
      copyTo := fun source node => by
        simp only [Tree.copyTree, Edit.run_bind, Edit.run_look]
        cases TreeView.entry source node with
        | error e => rfl
        | ok e =>
            have hset : (DirectoryTree.setAttributes x e.attributes).run t = _ := alter_stale hn _
            simp only [hset]
      diffFrom := fun b theirs => by
        simp only [Tree.diffSubtrees, hentry, Tree.inTree, bind, Except.bind]
      diffTo := fun a ours => by
        simp only [Tree.diffSubtrees, hentry, Tree.inTree, bind, Except.bind]
        cases TreeView.entry a ours <;> rfl }

theorem dead_iff (h : WellFormed t) : Dead t x ↔ ¬ ∃ n, t.node? x = some n := by
  constructor
  · rintro hdead ⟨n, hn⟩
    have := hdead.children
    simp [MemoryTree.children, node_eq_ok hn] at this
  · intro hnone
    refine dead_of_none h ?_
    cases hn : t.node? x with
    | none => rfl
    | some n => exact absurd ⟨n, hn⟩ hnone

theorem afterCalls_append (calls calls' : List (NodeId × Call)) :
    Tree.afterCalls (calls ++ calls') t = Tree.afterCalls calls' (Tree.afterCalls calls t) := by
  induction calls generalizing t with
  | nil => rfl
  | cons call calls ih => exact ih

/-- Once a call has removed its node, a handle is dead after all further calls, unless its slot
    holds a node again and the number of times that the slot has been freed since is a multiple
    of 2 ^ 32. -/
theorem dead_afterCalls_iff (e : Entry) (before after : List (NodeId × Call)) (id : NodeId)
    (c : Call) {x : NodeId} (hlive : ∃ n, (Tree.afterCalls before (ofRoot e)).node? x = some n)
    (hgone : (Tree.afterCalls (before ++ [(id, c)]) (ofRoot e)).node? x = none) :
    let since := frees x.index ((id, c) :: after) (Tree.afterCalls before (ofRoot e))
    let t := Tree.afterCalls (before ++ (id, c) :: after) (ofRoot e)
    0 < since ∧ (Dead t x ↔ ¬ (t.taken x.index = true ∧ UInt32.size ∣ since)) := by
  intro since t
  have h := wellFormed_afterCalls (wellFormed_ofRoot e) before
  have ht : t = Tree.afterCalls ((id, c) :: after) (Tree.afterCalls before (ofRoot e)) :=
    afterCalls_append before _
  rw [afterCalls_append] at hgone
  refine ⟨frees_pos h hlive id c hgone after, ?_⟩
  rw [ht, dead_iff (wellFormed_afterCalls h _), live_afterCalls_iff h hlive]

/-- A deleted child stays dead while other children come and go in its slot. -/
theorem dead_afterCalls_reused :
    let a := Rdn.single "cn" "a"
    let before : List (NodeId × Call) := [(rootId, .addChild a .empty)]
    let after : List (NodeId × Call) := [(rootId, .addChild a .empty), (⟨1, 1⟩, .delete),
      (rootId, .addChild a .empty)]
    (∃ n, (Tree.afterCalls before start).node? ⟨1, 0⟩ = some n) ∧
    (Tree.afterCalls (before ++ [(⟨1, 0⟩, .delete)]) start).node? ⟨1, 0⟩ = none ∧
    Dead (Tree.afterCalls (before ++ (⟨1, 0⟩, .delete) :: after) start) ⟨1, 0⟩ := by
  intro a before after
  have hlive : ∃ n, (Tree.afterCalls before start).node? ⟨1, 0⟩ = some n := ⟨_, rfl⟩
  have hgone : (Tree.afterCalls (before ++ [(⟨1, 0⟩, .delete)]) start).node? ⟨1, 0⟩ = none := by
    decide +kernel
  have hsince : frees 1 ((⟨1, 0⟩, .delete) :: after) (Tree.afterCalls before start) = 2 := by
    decide +kernel
  have hdead := (dead_afterCalls_iff ⟨.empty, .empty⟩ before after ⟨1, 0⟩ .delete hlive hgone).2
  refine ⟨hlive, hgone, hdead.mpr ?_⟩
  rintro ⟨-, hround⟩
  have hround : UInt32.size ∣
      frees 1 ((⟨1, 0⟩, .delete) :: after) (Tree.afterCalls before start) := hround
  rw [hsince, UInt32.size] at hround
  omega

/-! ## When the generations come round -/

/-- A tree of a root and a free slot. -/
def idle (g : UInt32) : MemoryTree :=
  ⟨.empty, [⟨0, some ⟨none, .empty, []⟩⟩, ⟨g, none⟩], [1]⟩

/-- The tree when a child of the root is in the slot. -/
def busy (g : UInt32) (r : Rdn) : MemoryTree :=
  ⟨.empty, [⟨0, some ⟨none, .empty, [⟨1, g⟩]⟩⟩, ⟨g, some ⟨some (rootId, r), .empty, []⟩⟩], []⟩

theorem addChild_idle (g : UInt32) (r : Rdn) :
    ((Tree.call rootId (.addChild r .empty)).run (idle g)).2 = busy g r := by
  have hdn : (idle g).dn rootId = .ok .empty := rfl
  have hchild : (idle g).child rootId r = .ok none := rfl
  rw [Tree.call, Edit.snd_discard]
  show ((grow rootId r .empty).run (idle g)).2 = _
  simp only [grow, Edit.run_bind, Edit.run_look, hdn, hchild, Edit.run_change]
  rfl

theorem deleteChild_busy (g : UInt32) (r : Rdn) :
    ((Tree.call rootId (.deleteChild r)).run (busy g r)).2 = idle (g + 1) := by
  have hnode : (busy g r).node? ⟨1, g⟩ = some ⟨some (rootId, r), .empty, []⟩ := by
    simp [node?_eq_some_iff, busy]
  have hroot : (busy g r).node? rootId = some ⟨none, .empty, [⟨1, g⟩]⟩ := rfl
  have hlisted : (busy g r).children rootId = .ok [⟨1, g⟩] := rfl
  have hchild : (busy g r).child rootId r = .ok (some ⟨1, g⟩) := by
    simp only [child, hlisted, firstNamed, node_eq_ok hnode, Option.any_some, Rdn.same_refl,
      if_true]
  have hdn : (busy g r).dn ⟨1, g⟩ = .ok ⟨[r]⟩ := by
    have hlen : (busy g r).slots.length = 2 := rfl
    simp only [dn, hlen, rdnsAbove, node_eq_ok hnode, node_eq_ok hroot]
    rfl
  have hbelow : (busy g r).children ⟨1, g⟩ = .ok [] := children_eq_ok hnode
  show ((prune rootId r).run (busy g r)).2 = _
  simp only [prune, Edit.run_bind, Edit.run_look, hdn, hchild, hbelow, List.isEmpty_nil, if_true,
    Edit.run_change, run_alter hroot]
  simp [idle, busy, release, modifyNode, rootId]

/-- A child of the root comes and goes `k` times. -/
def turnover (r : Rdn) (k : Nat) : List (NodeId × Call) :=
  (List.replicate k [(rootId, .addChild r .empty), (rootId, .deleteChild r)]).flatten

theorem afterCalls_turnover (g : UInt32) (r : Rdn) (k : Nat) :
    Tree.afterCalls (turnover r k) (idle g) = idle (g + UInt32.ofNat k) := by
  induction k generalizing g with
  | zero => simp [turnover, Tree.afterCalls]
  | succ k ih =>
      have hturn : turnover r (k + 1) =
          (rootId, .addChild r .empty) :: (rootId, .deleteChild r) :: turnover r k := by
        simp [turnover, List.replicate_succ]
      rw [hturn, Tree.afterCalls, Tree.afterCalls, addChild_idle, deleteChild_busy, ih,
        Nat.add_comm k 1, UInt32.ofNat_add, UInt32.add_assoc]
      rfl

/-- The handle of a deleted child leads to another node after its slot has been freed 2 ^ 32 times:
    the child `cn=a` is deleted, comes and goes again and again, and at last `cn=b` is added. -/
theorem resolves_to_successor :
    let a := Rdn.single "cn" "a"
    let b := Rdn.single "cn" "b"
    let before : List (NodeId × Call) := [(rootId, .addChild a .empty)]
    let after := turnover a (UInt32.size - 1) ++ [(rootId, .addChild b .empty)]
    (Tree.afterCalls before start).dn ⟨1, 0⟩ = .ok ⟨[a]⟩ ∧
    (Tree.afterCalls (before ++ [(rootId, .deleteChild a)]) start).dn ⟨1, 0⟩ =
      .error .staleHandle ∧
    (Tree.afterCalls (before ++ (rootId, .deleteChild a) :: after) start).dn ⟨1, 0⟩ =
      .ok ⟨[b]⟩ := by
  intro a b before after
  have hbefore : Tree.afterCalls before start = busy 0 a := rfl
  have hdeleted : Tree.afterCalls (before ++ [(rootId, .deleteChild a)]) start = idle 1 := by
    rw [afterCalls_append, hbefore]
    exact deleteChild_busy 0 a
  have hround : (1 : UInt32) + UInt32.ofNat (UInt32.size - 1) = 0 := by decide
  refine ⟨by rw [hbefore]; rfl, by rw [hdeleted]; rfl, ?_⟩
  have hsplit : before ++ (rootId, .deleteChild a) :: after =
      (before ++ [(rootId, .deleteChild a)]) ++ (turnover a (UInt32.size - 1) ++
        [(rootId, .addChild b .empty)]) := by simp [before, after]
  rw [hsplit, afterCalls_append, hdeleted, afterCalls_append, afterCalls_turnover, hround,
    Tree.afterCalls, Tree.afterCalls, addChild_idle]
  rfl

end MemoryTree
end DirectoryStore
