import DirectoryStore.Proofs.Files.Changing
import DirectoryStore.Proofs.Files.Grounded

/-!
# Failing calls of a tree in files

Nothing is assumed of what stands in the files, and handles may be of any kind.  Once an
addition, a deletion or a replacement of attributes has changed something, only a path that is too
long can make it fail: whatever else could be in the way has been looked for before.
-/

namespace DirectoryStore
namespace FileTree

open FileSystem (Fits)

variable {α β : Type} {t t₁ : FileTree} {P : FileTree → Prop} {Q : TreeError → FileTree → Prop}
variable {node up c : FileNode} {r : Rdn} {e : TreeError}

/-- If the edit fails, then because a path is too long, or with an error and in a tree that
    satisfy `Q`. -/
def FailsTo (x : Edit FileTree α) (t : FileTree) (Q : TreeError → FileTree → Prop) : Prop :=
  ∀ e, (x.run t).1 = .error e → e = .io .nameTooLong ∨ Q e (x.run t).2

namespace FailsTo

variable {x : Edit FileTree α} {k : α → Edit FileTree β} {a : α}

theorem of_achieves (h : Achieves x t a P) : FailsTo x t Q := by
  intro e he
  rcases h with herr | ⟨t', hrun, -⟩
  · rw [herr] at he
    cases he
    exact .inl rfl
  · rw [hrun] at he
    cases he

theorem pure (a : α) : FailsTo (Pure.pure a) t Q :=
  nofun

theorem fail (h : Q e t) : FailsTo (Edit.fail e : Edit FileTree α) t Q := by
  intro e' he
  cases he
  exact .inr h

theorem mono {Q' : TreeError → FileTree → Prop} (h : FailsTo x t Q)
    (hQ : ∀ e t', Q e t' → Q' e t') : FailsTo x t Q' :=
  fun e he => (h e he).imp_right (hQ e _)

theorem bind (hx : FailsTo x t Q)
    (hk : ∀ a t', x.run t = (.ok a, t') → FailsTo (k a) t' Q) : FailsTo (x >>= k) t Q := by
  intro e he
  have hfail := hx e
  rw [Edit.run_bind] at he ⊢
  rcases hrun : x.run t with ⟨e' | a, t'⟩ <;> rw [hrun] at he hfail
  · cases he
    exact hfail rfl
  · exact hk a t' hrun e he

theorem look {f : FileTree → Except TreeError α} (herr : ∀ e, f t = .error e → Q e t)
    (hk : ∀ a, f t = .ok a → FailsTo (k a) t Q) : FailsTo (Edit.look f >>= k) t Q := by
  refine bind (fun e he => .inr (herr e he)) fun a t' hrun => ?_
  rw [Edit.run_look, Prod.mk.injEq] at hrun
  obtain ⟨hf, rfl⟩ := hrun
  exact hk a hf

theorem glance {f : FileTree → α} (hk : FailsTo (k (f t)) t Q) :
    FailsTo (FileTree.glance f >>= k) t Q :=
  look nofun fun a ha => by
    cases ha
    exact hk

theorem ifThen {y : Edit FileTree Unit} {k : Unit → Edit FileTree β} {there : Bool}
    (hy : there = true → FailsTo y t Q)
    (htrue : there = true → ∀ t', y.run t = (.ok (), t') → P t') (hfalse : there = false → P t)
    (hk : ∀ t', P t' → FailsTo (k ()) t' Q) :
    FailsTo (if there = true then y >>= k else k ()) t Q := by
  cases there with
  | true => exact (hy rfl).bind fun _ t' hrun => hk t' (htrue rfl t' hrun)
  | false => exact hk t (hfalse rfl)

theorem onFiles {f : FileSystem → Except FileFault FileSystem}
    (h : ∀ fault, f t.files = .error fault → fault = .nameTooLong ∨ Q (.io fault) t) :
    FailsTo (FileTree.onFiles f) t Q := by
  intro e he
  rw [FileTree.onFiles, Edit.run_change] at he ⊢
  cases hf : f t.files with
  | ok files => simp [hf] at he
  | error fault =>
      simp only [hf] at he ⊢
      cases he
      exact (h fault hf).imp_left fun hshort => by rw [hshort]

end FailsTo

section

variable {linked : Bool} {t t' : FileTree linked}
variable {f : FileSystem linked → Except FileFault (FileSystem linked)}

theorem onFiles_eq_ok
    (h : (onFiles f).run t = (.ok (), t')) : f t.files = .ok t'.files ∧ t'.root = t.root := by
  rw [onFiles, Edit.run_change] at h
  cases hf : f t.files with
  | error fault => simp [hf] at h
  | ok files =>
      simp only [hf, Prod.mk.injEq, true_and] at h
      subst h
      exact ⟨rfl, rfl⟩

theorem onFiles_eq_error (h : (onFiles f).run t = (.error e, t')) : t' = t := by
  rw [onFiles, Edit.run_change] at h
  cases hf : f t.files with
  | error fault =>
      simp only [hf, Prod.mk.injEq] at h
      exact h.2.symm
  | ok files => simp [hf] at h

/-- To make sure of a directory fails, or finds it, or makes it. -/
theorem ensureDirectory_cases (node : FileNode) :
    (∃ e, (ensureDirectory node).run t = (.error e, t)) ∨
    ((ensureDirectory node).run t = (.ok (), t) ∧ t.files.isDirectory node.dir = true) ∨
    ∃ files, t.files.makeDirectory node.dir = .ok files ∧
      (ensureDirectory node).run t = (.ok (), { t with files }) := by
  by_cases hdir : t.files.isDirectory node.dir = true
  · exact .inr (.inl ⟨run_glance hdir rfl, hdir⟩)
  rw [Bool.not_eq_true] at hdir
  by_cases hmissing : (!t.isRoot node && !t.files.isFile node.ldif) = true
  · exact .inl ⟨_, run_glance hdir (run_glance hmissing rfl)⟩
  rw [Bool.not_eq_true] at hmissing
  simp only [ensureDirectory, glance, Edit.run_bind, Edit.run_look, hdir, hmissing,
    Bool.false_eq_true, if_false, Edit.run_change]
  cases t.files.makeDirectory node.dir with
  | ok files => exact .inr (.inr ⟨files, rfl, rfl⟩)
  | error fault =>
      refine .inl ?_
      cases fault <;> exact ⟨_, rfl⟩

/-- A child is called by a name in the directory of its node. -/
theorem child_of_mem_childNodes (h : c ∈ t.childNodes node) :
    ∃ r stem, c = node.child r stem ∧ Rdn.parse stem = .ok r ∧
      t.files.isDirectory node.dir = true ∧ stem ++ ldifSuffix ∈ t.files.names node.dir := by
  rw [childNodes] at h
  split at h
  · rename_i hdir
    rw [childrenNamed, List.mem_mergeSort, List.mem_filterMap] at h
    obtain ⟨name, hname, hc⟩ := h
    obtain ⟨r, stem, rfl, hr, rfl⟩ := childOfName?_eq_some_iff.mp hc
    exact ⟨r, stem, rfl, hr, hdir, hname⟩
  · cases h

/-- A directory that can be followed lists every entry file in it. -/
theorem mem_childNodes_of_name {stem : String} (hdir : t.files.isDirectory node.dir = true)
    (hr : Rdn.parse stem = .ok r) (hname : stem ++ ldifSuffix ∈ t.files.names node.dir) :
    node.child r stem ∈ t.childNodes node := by
  rw [childNodes, if_pos hdir, childrenNamed, List.mem_mergeSort, List.mem_filterMap]
  exact ⟨stem ++ ldifSuffix, hname, childOfName?_eq_some_iff.mpr ⟨r, stem, rfl, hr, rfl⟩⟩

end

theorem exists_of_mem_childNodes (h : c ∈ t.childNodes node) :
    ∃ r stem, c = node.child r stem ∧ Rdn.parse stem = .ok r ∧
      t.files.isDirectory node.dir = true ∧ ∃ o, t.files.object? c.ldif = some o := by
  obtain ⟨r, stem, rfl, hr, hdir, hname⟩ := child_of_mem_childNodes h
  exact ⟨r, stem, rfl, hr, hdir, FileSystem.mem_names.mp hname⟩

/-! ## Calls that change one place -/

end FileTree
end DirectoryStore
