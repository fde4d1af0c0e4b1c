import DirectoryStore.Proofs.Files.Tidy
import DirectoryStore.Proofs.Memory.Consistency
import DirectoryStore.Proofs.Memory.Siblings
import DirectoryStore.Proofs.Tree.Twins

/-!
# Differences do not tell how trees came about

Trees that calls have led to, in memory or in files, are orderly, in whatever order and spelling
their entries came into them.  So the difference of two of them depends on their contents alone.
-/

namespace DirectoryStore

namespace Tree

open MemoryTree (rootId)

/-- Trees that calls have led to, the failing ones included: in memory from a root on, and in files
    from an empty directory on, by calls of handles that bring what files can keep, as long as no
    path is too long.  A file of the root, which stands beside the directory, may have been there
    before. -/
inductive Built : {τ ν : Type} → [TreeView τ ν] → τ → Prop where
  | memory (e : Entry) (calls : List (NodeId × Call)) :
      Built (afterCalls calls (MemoryTree.ofRoot e))
  | files {files : FileSystem} {path : Path} {config : Config} {t : FileTree}
      {calls : List (FileNode × Call)} :
      files.Grounded → FileTree.openAt files path config = .ok t → t.Vacant →
      (∀ o, t.files.object? t.root.ldif = some o → IsRecord o) →
      (∀ x ∈ calls, Spelled t.root x.1 ∧ x.2.Storable) → (afterCalls calls t).Short →
      Built (afterCalls calls t)

namespace Built

theorem orderly {τ ν : Type} [TreeView τ ν] {t : τ} (h : Built t) : Orderly t := by
  cases h with
  | memory e calls =>
      exact (MemoryTree.wellFormed_afterCalls (MemoryTree.wellFormed_ofRoot e) calls).linked.orderly
  | files hg hopen hvacant hroot hcalls _ =>
      obtain ⟨htop, htidy⟩ := FileTree.tidy_afterCalls hg hopen hvacant hroot hcalls
      exact FileTree.orderly_of_tidy htidy htop

theorem readable {τ ν : Type} [TreeView τ ν] {t : τ} (h : Built t) : Readable t := by
  cases h with
  | memory e calls =>
      have hlinked :=
        (MemoryTree.wellFormed_afterCalls (MemoryTree.wellFormed_ofRoot e) calls).linked
      intro x hx
      obtain ⟨n, hn⟩ := hlinked.orderly.below_iff.mp hx
      obtain ⟨d, hd⟩ := hlinked.orderly.exists_dn hn
      exact ⟨_, (hlinked.exists_entry hd).choose_spec⟩
  | files hg hopen hvacant hroot hcalls hshort =>
      obtain ⟨htop, htidy⟩ := FileTree.tidy_afterCalls hg hopen hvacant hroot hcalls
      exact FileTree.readable_of_tidy htidy htop hshort

end Built

section

variable {σ μ σ' μ' τ ν τ' ν' : Type} [TreeView σ μ] [TreeView σ' μ'] [TreeView τ ν]
variable [TreeView τ' ν'] {a : σ} {a' : σ'} {b : τ} {b' : τ'} {d : Dn}

/-- The difference of two trees of one name is found, and it is the same, change by change, for any
    two trees of this name with the same contents: whatever keeps them, and whatever calls have led
    to them. -/
theorem diffTrees_of_alike (ha : Built a) (ha' : Built a') (hb : Built b) (hb' : Built b')
    (hda : Named a d) (hda' : Named a' d) (hdb : Named b d) (hdb' : Named b' d)
    (h : Alike a (TreeView.root a) a' (TreeView.root a'))
    (h' : Alike b (TreeView.root b) b' (TreeView.root b')) :
    SameChanges (diffTrees a b) (diffTrees a' b') := by
  have hsame : SameContents a a' := ⟨h, ha.readable, ha'.readable⟩
  have hsame' : SameContents b b' := ⟨h', hb.readable, hb'.readable⟩
  exact hsame.diffTrees hsame' ha.orderly ha'.orderly hb.orderly hb'.orderly hda hda' hdb hdb'

end

/-- A branch in memory and in files, and two siblings that have come in either order, one of them
    by a move; the types are spelled in different ways. -/
theorem diffTrees_of_alike_backends :
    let d : Dn := ⟨[.single "dc" "x"]⟩
    let a := afterCalls
      [(rootId, .addChild (.single "ou" "p") (.ofPairs [("sn", [utf8 "y"])])),
       (⟨1, 0⟩, .addChild (.single "cn" "s") .empty)] (MemoryTree.ofDn d)
    let b := afterCalls
      [(rootId, .addChild (.single "OU" "r") .empty),
       (⟨1, 0⟩, .moveTo ⟨[.single "cn" "r", .single "DC" "x"]⟩),
       (rootId, .addChild (.single "ou" "p") (.ofPairs [("sn", [utf8 "z"])]))] (MemoryTree.ofDn d)
    let b' := afterCalls
      [(rootId, .addChild (.single "OU" "p") (.ofPairs [("SN", [utf8 "z"])])),
       (rootId, .addChild (.single "CN" "r") .empty)] (MemoryTree.ofDn ⟨[.single "DC" "x"]⟩)
    ∃ t, FileTree.openAt .empty [] ⟨"t", "DC=x"⟩ = .ok t ∧
      let p : Rdn := .single "OU" "p"
      let a' := afterCalls
        [(t.root, .addChild p (.ofPairs [("SN", [utf8 "y"])])),
         (t.root.down [p], .addChild (.single "CN" "s") .empty),
         (t.root.down [p], .delete)] t
      Built a ∧ Built a' ∧ Built b ∧ Built b' ∧ Named a d ∧ Named a' d ∧ Named b d ∧ Named b' d ∧
        Alike a (TreeView.root a) a' (TreeView.root a') ∧
        Alike b (TreeView.root b) b' (TreeView.root b') ∧
        SameChanges (diffTrees a b) (diffTrees a' b') := by
  intro d a b b'
  have hopen : FileTree.openAt .empty [] ⟨"t", "DC=x"⟩ =
      .ok ⟨FileSystem.empty.put ["t"] .directory, ⟨⟨[.single "DC" "x"]⟩, ["t.ldif"], ["t"]⟩⟩ := by
    decide +kernel
  refine ⟨_, hopen, ?_⟩
  intro p a'
  have ha : Built a := .memory _ _
  have ha' : Built a' := by
    have hbelow (root : FileNode) : Spelled root (root.down [p]) := .child (by decide +kernel) .root
    have hnone : ((.empty : FileSystem).put ["t"] .directory).object? ["t.ldif"] = none := by
      decide +kernel
    refine .files FileSystem.grounded_empty hopen (by decide +kernel)
      (fun o ho => absurd (ho.symm.trans hnone) (Option.some_ne_none o)) ?_ (by decide +kernel)
    rw [List.forall_mem_cons, List.forall_mem_cons, List.forall_mem_singleton]
    exact ⟨⟨.root, by decide⟩, ⟨hbelow _, by decide⟩, hbelow _, trivial⟩
  have hb : Built b := .memory _ _
  have hb' : Built b' := .memory _ _
  have hda : Named a d := by decide +kernel
  have hda' : Named a' d := by decide +kernel
  have hdb : Named b d := by decide +kernel
  have hdb' : Named b' d := by decide +kernel
  have h : Alike a (TreeView.root a) a' (TreeView.root a') := by decide +kernel
  have h' : Alike b (TreeView.root b) b' (TreeView.root b') := by decide +kernel
  exact ⟨ha, ha', hb, hb', hda, hda', hdb, hdb', h, h',
    diffTrees_of_alike ha ha' hb hb' hda hda' hdb hdb' h h'⟩

end Tree
end DirectoryStore
