import DirectoryStore.Proofs.Files.Contents
import DirectoryStore.Proofs.Ldif.Rewriting
import DirectoryStore.Proofs.Memory.Listing

/-!
# Differences as documents

The difference of two trees in memory names nothing but what the trees hold: it adds entries of
the second one, deletes nodes of the first one, and edits attributes of either.  So where names
and attribute types can be written, all of it can, except the addition of an entry without
attributes, which no record can tell.
-/

namespace DirectoryStore

namespace Tree

variable {σ μ τ ν : Type} [TreeView σ μ] [TreeView τ ν]

/-- A tree whose names and attribute types can be written. -/
def Writable (t : τ) : Prop :=
  ∀ e, Holds t (TreeView.root t) e → e.dn.Legible ∧ e.attributes.Writable

/-- A tree is writable if all entries that a walk from the root finds can be written. -/
theorem writable_of_walk {t : τ} {l : List ν} (hl : subtree t (TreeView.root t) = .ok l)
    (h : ∀ x ∈ l, ∀ e ∈ (TreeView.entry t x).toOption, e.dn.Legible ∧ e.attributes.Writable) :
    Writable t := by
  intro e he
  obtain ⟨x, ⟨l', hl', hx⟩, he⟩ := he
  rw [hl] at hl'
  cases hl'
  exact h x hx e (by rw [he]; rfl)

end Tree

namespace MemoryTree

open DirectoryStore.Tree (entryAt? Holds)

variable {a b : MemoryTree} {x : NodeId} {d : Dn} {c : Change} {cs : List Change} {e : Entry}

theorem Linked.writable_entry (h : Linked a) (hw : Tree.Writable a) (he : a.entry x = .ok e) :
    e.dn.Legible ∧ e.attributes.Writable :=
  hw e ((h.holds_iff h.dn_root).mpr
    ⟨h.prefix_root (h.entry_eq_ok_iff.mp he).1, h.entryAt?_of_entry he⟩)

theorem Linked.writable_entryAt? (h : Linked a) (hw : Tree.Writable a)
    (he : entryAt? a d = some e) : e.dn.Legible ∧ e.attributes.Writable := by
  obtain ⟨x, hx, -⟩ := h.entryAt?_eq_some_iff.mp he
  exact h.writable_entry hw hx

/-- Where names and types can be written, the change for a name can be recorded, unless it is the
    addition of an entry without attributes. -/
theorem recordable_of_changeAt? (h : changeAt? a b d = some c) (ha : Linked a) (hb : Linked b)
    (hwa : Tree.Writable a) (hwb : Tree.Writable b) (hbare : c.isBare = false) :
    c.Recordable := by
  rw [changeAt?] at h
  split at h
  · cases h
  · rename_i f _ hf
    cases h
    obtain ⟨hdn, hkeys⟩ := hb.writable_entryAt? hwb hf
    exact ⟨hdn, hkeys, hbare⟩
  · rename_i e he _
    cases h
    exact (ha.writable_entryAt? hwa he).1
  · rename_i e f he hf
    split at h
    · cases h
    · cases h
      obtain ⟨hdn, hkeys⟩ := ha.writable_entryAt? hwa he
      exact ⟨hdn, AttributeMap.forall_key_edits hkeys (hb.writable_entryAt? hwb hf).2⟩

/-- Every entry that a tree holds and another one has not has attributes. -/
def Clothed (a b : MemoryTree) : Prop :=
  ∀ e, Holds b rootId e → entryAt? a e.dn = none → e.attributes.isEmpty = false

theorem WellFormed.document (ha : WellFormed a) (hb : WellFormed b)
    (hsame : a.rootDn.same b.rootDn = true) (hwa : Tree.Writable a) (hwb : Tree.Writable b)
    (h : Tree.diffTrees a b = .ok cs) :
    Ldif.parseChanges (Ldif.writeChanges cs) = .ok cs ↔ Clothed a b := by
  obtain ⟨cs', hcs', hlists⟩ := diffTrees_lists ha.linked hb.linked hsame
  cases h.symm.trans hcs'
  constructor
  · intro hparse e he hnone
    obtain ⟨hpre, hat⟩ := (hb.linked.holds_iff hb.linked.dn_root).mp he
    rw [← Dn.same_iff.mp hsame] at hpre
    have hadd := (hlists.mem_iff (.add e)).mpr ⟨changeAt?_eq_add_iff.mpr ⟨hat, hnone⟩, hpre⟩
    exact (Ldif.readable_of_parseChanges hparse _ hadd).2
  · intro hclothed
    refine Ldif.parseChanges_told fun c hc => ?_
    obtain ⟨hat, hpre⟩ := (hlists.mem_iff c).mp hc
    refine (recordable_of_changeAt? hat ha.linked hb.linked hwa hwb ?_).told
    cases c with
    | add e =>
        obtain ⟨he, hnone⟩ := changeAt?_eq_add_iff.mp hat
        refine hclothed e ((hb.linked.holds_iff hb.linked.dn_root).mpr ⟨?_, he⟩) hnone
        rw [← Dn.same_iff.mp hsame]
        exact hpre
    | delete _ => rfl
    | modify _ _ => rfl

/-- The difference of two trees of one name, that any runs have led to and whose names and types
    can be written, is found, and the patch with it reconciles the first tree with the second one.
    Its document reads back as that difference just if all entries that are new have attributes. -/
theorem diffTrees_document (e f : Entry) (calls calls' : List (NodeId × Call))
    (hsame : e.dn.same f.dn = true) (hwa : Tree.Writable (Tree.afterCalls calls (ofRoot e)))
    (hwb : Tree.Writable (Tree.afterCalls calls' (ofRoot f))) :
    ∃ cs a', Tree.diffTrees (Tree.afterCalls calls (ofRoot e))
        (Tree.afterCalls calls' (ofRoot f)) = .ok cs ∧
      Reconciled (Tree.afterCalls calls (ofRoot e)) rootId (Tree.afterCalls calls' (ofRoot f))
        rootId cs a' ∧
      (Ldif.parseChanges (Ldif.writeChanges cs) = .ok cs ↔
        Clothed (Tree.afterCalls calls (ofRoot e)) (Tree.afterCalls calls' (ofRoot f))) := by
  have ha := wellFormed_afterCalls (wellFormed_ofRoot e) calls
  have hb := wellFormed_afterCalls (wellFormed_ofRoot f) calls'
  have hroot : (Tree.afterCalls calls (ofRoot e)).rootDn.same
      (Tree.afterCalls calls' (ofRoot f)).rootDn = true := by
    rw [rootDn_afterCalls (wellFormed_ofRoot e), rootDn_afterCalls (wellFormed_ofRoot f)]
    exact hsame
  obtain ⟨cs, a', hcs, hrec⟩ := ha.reconciled hb ha.linked.dn_root hb.linked.dn_root hroot
  exact ⟨cs, a', hcs, hrec, ha.document hb hroot hwa hwb hcs⟩

/-- A tree with nodes to delete and to modify, and one with new nodes. -/
theorem diffTrees_document_mixed :
    let e : Entry := ⟨⟨[.single "dc" "x"]⟩, .empty⟩
    let f : Entry := ⟨⟨[.single "DC" "x"]⟩, .ofPairs [("o", [[0x0A]])]⟩
    let calls : List (NodeId × Call) := [(rootId, .addChild (.single "ou" "#a") .empty),
      (⟨1, 0⟩, .addChild (.single "cn" "b") (.ofPairs [("sn", [[0x20]])])),
      (rootId, .addChild (.single "ou" "c") .empty)]
    let calls' : List (NodeId × Call) := [(rootId, .addChild (.single "OU" "#a") .empty),
      (rootId, .addChild (.single "ou" "d") (.ofPairs [("Mail", [[0xFF], []])]))]
    e.dn.same f.dn = true ∧ Tree.Writable (Tree.afterCalls calls (ofRoot e)) ∧
      Tree.Writable (Tree.afterCalls calls' (ofRoot f)) ∧
      ∃ cs a', Tree.diffTrees (Tree.afterCalls calls (ofRoot e))
          (Tree.afterCalls calls' (ofRoot f)) = .ok cs ∧
        Reconciled (Tree.afterCalls calls (ofRoot e)) rootId (Tree.afterCalls calls' (ofRoot f))
          rootId cs a' ∧
        (Ldif.parseChanges (Ldif.writeChanges cs) = .ok cs ↔
          Clothed (Tree.afterCalls calls (ofRoot e)) (Tree.afterCalls calls' (ofRoot f))) := by
  intro e f calls calls'
  have hs : e.dn.same f.dn = true := by decide
  have hwa : Tree.Writable (Tree.afterCalls calls (ofRoot e)) :=
    Tree.writable_of_walk (l := [rootId, ⟨1, 0⟩, ⟨2, 0⟩, ⟨3, 0⟩]) (by decide +kernel)
      (by decide +kernel)
  have hwb : Tree.Writable (Tree.afterCalls calls' (ofRoot f)) :=
    Tree.writable_of_walk (l := [rootId, ⟨1, 0⟩, ⟨2, 0⟩]) (by decide +kernel) (by decide +kernel)
  exact ⟨hs, hwa, hwb, diffTrees_document e f calls calls' hs hwa hwb⟩

/-- A new entry without attributes is added by the difference and refused by its document. -/
theorem diffTrees_document_refused :
    let e : Entry := ⟨⟨[.single "dc" "x"]⟩, .empty⟩
    let b := Tree.afterCalls [(rootId, .addChild (.single "ou" "a") .empty)] (ofRoot e)
    let cs : List Change := [.add ⟨⟨[.single "ou" "a", .single "dc" "x"]⟩, .empty⟩]
    Tree.diffTrees (ofRoot e) b = .ok cs ∧ Tree.Writable (ofRoot e) ∧ Tree.Writable b ∧
      ∀ cs', Ldif.parseChanges (Ldif.writeChanges cs) ≠ .ok cs' := by
  intro e b cs
  have hdiff : Tree.diffTrees (ofRoot e) b = .ok cs := by rfl
  have hwa : Tree.Writable (ofRoot e) :=
    Tree.writable_of_walk (l := [rootId]) (by decide +kernel) (by decide +kernel)
  have hwb : Tree.Writable b :=
    Tree.writable_of_walk (l := [rootId, ⟨1, 0⟩]) (by decide +kernel) (by decide +kernel)
  refine ⟨hdiff, hwa, hwb, ?_⟩
  intro cs' hparse
  have hlined : Change.Lined (.add ⟨⟨[.single "ou" "a", .single "dc" "x"]⟩, .empty⟩) :=
    ⟨by decide, List.forall_mem_nil _⟩
  -- A read that accepts the document has accepted its only record, which has no attribute lines.
  have hread : Ldif.parseChanges (Ldif.writeChanges (([] : List Change) ++ cs)) = .ok cs' := hparse
  have hbare := (Ldif.prefix_of_parseChanges (List.forall_mem_nil _) hlined hread).1
  exact absurd hbare (by decide)

end MemoryTree
end DirectoryStore
