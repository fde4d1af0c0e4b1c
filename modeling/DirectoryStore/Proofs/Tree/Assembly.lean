import DirectoryStore.Proofs.Ldif.Chunks
import DirectoryStore.Proofs.Tree.Content
import DirectoryStore.Tree.Diff

/-!
# What a difference is put together from

The changes between two nodes that have levels below them are those of their own entries, then
those of the children that both have, then what is added and what is deleted with the other
children.
-/

namespace DirectoryStore

open Ldif (bind_eq_ok)

namespace Tree

variable {α : Type} {xs : List α} {cs : List Change}

@[simp] theorem inTree_ok (v : α) : inTree (.ok v) = .ok v := rfl

theorem inTree_eq_ok {r : Except TreeError α} {v : α} (h : inTree r = .ok v) : r = .ok v := by
  cases r with
  | ok v' =>
      cases h
      rfl
  | error e => cases h

theorem gatherChanges_eq_ok {f : α → Except DiffError (List Change)} {g : α → List Change}
    (h : ∀ x ∈ xs, f x = .ok (g x)) : gatherChanges f xs = .ok (xs.flatMap g) := by
  induction xs with
  | nil => rfl
  | cons x xs ih =>
      simp only [gatherChanges, h x List.mem_cons_self,
        ih fun y hy => h y (List.mem_cons_of_mem _ hy), List.flatMap_cons, bind, Except.bind]
      rfl

section Pair

variable {σ μ τ ν : Type} [TreeView σ μ] [TreeView τ ν] {a : σ} {b : τ} {depth : Nat} {x : μ}
variable {y : ν} {e f : Entry}

/-- The changes of a child and the child of its name below the other node, if there is one. -/
def pairChanges (a : σ) (b : τ) (depth : Nat) (m : List (Rdn × ν)) (z : Rdn × μ) :
    Except DiffError (List Change) :=
  match childNamed z.1 m with
  | some other => diffNodes a b depth z.2 other
  | none => .ok []

theorem diffNodes_succ_eq_ok_iff : diffNodes a b (depth + 1) x y = .ok cs ↔
    ∃ e f own l m shared added deleted, TreeView.entry a x = .ok e ∧ TreeView.entry b y = .ok f ∧
      e.diff f = .ok own ∧ childrenByRdn a x = .ok l ∧ childrenByRdn b y = .ok m ∧
      gatherChanges (pairChanges a b depth m) l = .ok shared ∧
      gather (fun z => additions b depth z.2)
        (m.filter fun z => (childNamed z.1 l).isNone) = .ok added ∧
      gather (fun z => deletions a depth z.2)
        (l.filter fun z => (childNamed z.1 m).isNone) = .ok deleted ∧
      cs = own.toList ++ shared ++ added ++ deleted := by
  rw [diffNodes]
  constructor
  · intro h
    obtain ⟨e, he, h⟩ := bind_eq_ok h
    obtain ⟨f, hf, h⟩ := bind_eq_ok h
    have he := inTree_eq_ok he
    have hf := inTree_eq_ok hf
    dsimp only at h
    split at h
    · rename_i own hown
      obtain ⟨_, hlist, h⟩ := bind_eq_ok h
      cases hlist
      obtain ⟨l, hl, h⟩ := bind_eq_ok h
      obtain ⟨m, hm, h⟩ := bind_eq_ok h
      obtain ⟨shared, hshared, h⟩ := bind_eq_ok h
      obtain ⟨added, hadded, h⟩ := bind_eq_ok h
      obtain ⟨deleted, hdeleted, h⟩ := bind_eq_ok h
      cases h
      exact ⟨e, f, own, l, m, shared, added, deleted, he, hf, hown, inTree_eq_ok hl,
        inTree_eq_ok hm, hshared, inTree_eq_ok hadded, inTree_eq_ok hdeleted, rfl⟩
    · cases h
  · rintro ⟨e, f, own, l, m, shared, added, deleted, he, hf, hown, hl, hm, hshared, hadded,
      hdeleted, rfl⟩
    simp only [he, hf, hown, hl, hm, hadded, hdeleted, inTree_ok, bind, Except.bind]
    change Except.bind (gatherChanges (pairChanges a b depth m) l)
      (fun shared => .ok (own.toList ++ shared ++ added ++ deleted)) = _
    rw [hshared]
    rfl

/-- Between nodes without levels below them there are only the changes of their entries. -/
theorem diffNodes_zero {own : Option Change} (he : TreeView.entry a x = .ok e)
    (hf : TreeView.entry b y = .ok f) (hown : e.diff f = .ok own) :
    diffNodes a b 0 x y = .ok own.toList := by
  simp only [diffNodes, he, hf, hown, inTree_ok, bind, Except.bind, pure, Except.pure]

/-- Below nodes of one name the changes are those between the nodes. -/
theorem diffSubtrees_eq (he : TreeView.entry a x = .ok e) (hf : TreeView.entry b y = .ok f)
    (hsame : e.dn.same f.dn = true) :
    diffSubtrees a x b y = diffNodes a b (TreeView.height a + TreeView.height b) x y := by
  simp only [diffSubtrees, he, hf, hsame, inTree_ok, bind, Except.bind]
  rfl

end Pair
end Tree
end DirectoryStore
