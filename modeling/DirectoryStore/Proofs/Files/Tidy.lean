import DirectoryStore.Proofs.Files.Apart
import DirectoryStore.Proofs.Files.Opening
import DirectoryStore.Proofs.Files.Records
import DirectoryStore.Proofs.Tree.Orderly

/-!
# Tidy files

From an empty directory on, calls leave files in which names are apart and whose entries are
records.  What can be seen of a tree on such files is orderly, and it can be read unless a path is
too long.
-/

namespace DirectoryStore

open FileSystem (Fits)
open Relation (ReflTransGen)

variable {root : FileNode} {fs fs' : FileSystem}

/-- Files in which names are apart and whose entries are records. -/
structure Tidy (root : FileNode) (fs : FileSystem) : Prop where
  grounded : fs.Grounded
  apart : Apart root.dir fs
  records : Records root fs

namespace Tidy

theorem step (h : Tidy root fs) (htop : root.Top) (hstep : Step root fs fs') : Tidy root fs' :=
  ⟨hstep.grounded h.grounded, hstep.apart h.grounded h.apart,
    hstep.records htop h.grounded h.records⟩

theorem steps (h : Tidy root fs) (htop : root.Top) (hsteps : ReflTransGen (Step root) fs fs') :
    Tidy root fs' := by
  induction hsteps with
  | refl => exact h
  | tail _ hstep ih => exact ih.step htop hstep

end Tidy

namespace FileTree

variable {t : FileTree} {node : FileNode} {stem : String}

/-- Nothing is in an empty directory, so nothing in it stands for a name twice. -/
theorem Vacant.apart (h : t.Vacant) : Apart t.root.dir t.files := by
  intro dir stem stem' r s hdir _ _ _ ho _
  obtain ⟨l, rfl⟩ := hdir
  rw [← List.cons_append, h.object?_eq_none (List.cons_ne_nil _ _)] at ho
  exact absurd rfl ho

/-- An empty directory is tidy if what may be left of the root beside it is. -/
theorem Vacant.tidy (h : t.Vacant) (hg : t.Grounded)
    (hroot : ∀ o, t.files.object? t.root.ldif = some o → IsRecord o) : Tidy t.root t.files where
  grounded := hg
  apart := h.apart
  records.record := by
    intro p o hp ho
    cases hp with
    | root => exact hroot o ho
    | child stem hdir =>
        obtain ⟨l, rfl⟩ := hdir
        rw [← List.cons_append, h.object?_eq_none (List.cons_ne_nil _ _)] at ho
        cases ho
  records.above := h.above

/-! ## What can be seen -/

/-- A directory that can be followed is not deeper than a path has bytes. -/
theorem length_lt_of_fits {up : Path} (hup : up ≠ [])
    (h : FileSystem.fits (Path.text ((stem ++ dirSuffix) :: up)) = true) :
    up.length < FileSystem.pathLimit := by
  cases up with
  | nil => exact absurd rfl hup
  | cons name up =>
      have hlen := FileSystem.length_le_byteCount (name :: up)
      have hsuffix : byteCount dirSuffix.toList = 4 := rfl
      rw [FileSystem.fits, decide_eq_true_eq, FileSystem.text_cons, String.toList_append,
        String.toList_append, String.toList_append, FileSystem.byteCount_append,
        FileSystem.byteCount_append, FileSystem.byteCount_append, hsuffix] at h
      omega

theorem issued_of_level {n : Nat} (h : Tree.Level t n node) :
    Issued t.root node ∧ node.dir.length = t.root.dir.length + n := by
  induction h with
  | root => exact ⟨.root, rfl⟩
  | child _ hbelow hc ih =>
      cases hbelow
      obtain ⟨r, stem, rfl, -⟩ := exists_of_mem_childNodes hc
      refine ⟨.child r stem ih.1, ?_⟩
      rw [FileNode.child, List.length_cons, ih.2, Nat.add_assoc]

theorem level_le {n : Nat} (htop : t.root.Top) (h : Tree.Level t n node) :
    n ≤ FileSystem.pathLimit := by
  obtain ⟨name, -, up, hroot, -, -⟩ := htop.exists_eq
  cases h with
  | root => exact Nat.zero_le _
  | child hx hbelow hc =>
      cases hbelow
      obtain ⟨-, -, -, -, hdir, -⟩ := exists_of_mem_childNodes hc
      cases hx with
      | root => exact (by decide : 1 ≤ FileSystem.pathLimit)
      | child hx hbelow hc =>
          cases hbelow
          obtain ⟨r, stem, rfl, -⟩ := exists_of_mem_childNodes hc
          obtain ⟨-, hlen⟩ := issued_of_level hx
          rw [hroot, List.length_cons] at hlen
          have hlt := length_lt_of_fits (List.ne_nil_of_length_pos (by omega))
            (FileSystem.isDirectory_iff.mp hdir).1
          omega

/-- What can be seen of a tree on tidy files is orderly. -/
theorem orderly_of_tidy (h : Tidy t.root t.files) (htop : t.root.Top) : Tree.Orderly t where
  children := by
    intro n x _
    refine ⟨x.dn, t.childNodes x, rfl, rfl, fun c hc => ?_⟩
    obtain ⟨r, stem, rfl, -⟩ := exists_of_mem_childNodes hc
    exact ⟨r, rfl⟩
  apart := by
    intro n x below c c' d d' hx hbelow hc hc' hd hd' hsame
    cases hbelow
    cases hd
    cases hd'
    obtain ⟨r, stem, rfl, hr, -, o, ho⟩ := exists_of_mem_childNodes hc
    obtain ⟨s, stem', rfl, hs, -, o', ho'⟩ := exists_of_mem_childNodes hc'
    have hdir := (issued_of_level hx).1.dir_suffix
    obtain rfl : stem = stem' := h.apart hdir hr hs (Tree.same_child_iff.mp hsame).2
      (Option.ne_none_iff_exists'.mpr ⟨o, ho⟩) (Option.ne_none_iff_exists'.mpr ⟨o', ho'⟩)
    cases hr.symm.trans hs
    rfl
  entry_dn := by
    intro x e he
    have he : t.entry x = .ok e := he
    rw [entry] at he
    split at he
    · cases he
      rfl
    · split at he
      · cases he
        rfl
      · cases he
    · cases he
  level_le := level_le htop

/-- No path to the file of an entry that a walk from the root meets is too long. -/
def Short (t : FileTree) : Prop :=
  ∀ x, Tree.Below t t.root x → Fits x.ldif

instance (t : FileTree) : Decidable t.Short :=
  decidable_of_iff (∀ x ∈ Tree.met t, Fits x.ldif) (by
    simp only [Tree.mem_met]
    rfl)

/-- Then all that can be seen can be read. -/
theorem readable_of_tidy (h : Tidy t.root t.files) (htop : t.root.Top) (hshort : t.Short) :
    Tree.Readable t := by
  intro x hx
  obtain ⟨n, hlevel⟩ := (orderly_of_tidy h htop).below_iff.mp hx
  refine exists_entry h.records h.grounded htop (issued_of_level hlevel).1 (hshort x hx) ?_
  cases hlevel with
  | root => exact .inl rfl
  | child _ hbelow hc =>
      cases hbelow
      obtain ⟨-, -, -, -, -, o, ho⟩ := exists_of_mem_childNodes hc
      exact .inr (Option.ne_none_iff_exists'.mpr ⟨o, ho⟩)

/-- Whatever calls have led to a tree on a directory that was empty, its files are tidy. -/
theorem tidy_afterCalls {files : FileSystem} {path : Path} {config : Config}
    {calls : List (FileNode × Call)} (hg : files.Grounded)
    (hopen : openAt files path config = .ok t) (hvacant : t.Vacant)
    (hroot : ∀ o, t.files.object? t.root.ldif = some o → IsRecord o)
    (hcalls : ∀ x ∈ calls, Spelled t.root x.1 ∧ x.2.Storable) :
    (Tree.afterCalls calls t).root.Top ∧
      Tidy (Tree.afterCalls calls t).root (Tree.afterCalls calls t).files := by
  obtain ⟨hdn, htop⟩ := root_of_openAt hopen
  have hg' := grounded_openAt hg hopen
  have hrun := Stepped.afterCalls AttributeMap.Writable.empty hg' htop (Config.legible_rootDn hdn)
    fun x hx => ⟨(hcalls x hx).1, (hcalls x hx).2.brings⟩
  rw [hrun.root_eq]
  exact ⟨htop, (hvacant.tidy hg' hroot).steps htop hrun.steps⟩

end FileTree
end DirectoryStore
