import DirectoryStore.Proofs.Files.Steps

/-!
# Sibling files

A record is put only where one is or where nothing stands for the same relative name.  So in a
directory where no two files stand for the same name there never are two, whatever calls have failed
and wherever they have stopped.
-/

namespace DirectoryStore

variable {base dir q q' : Path} {stem stem' : String} {r s : Rdn} {fs fs' : FileSystem}

/-- In a directory at or below `base`, no two names stand for entry files of the same relative
    name. -/
def Apart (base : Path) (fs : FileSystem) : Prop :=
  ∀ ⦃dir stem stem' r s⦄, base <:+ dir → Rdn.parse stem = .ok r → Rdn.parse stem' = .ok s →
    r.same s = true → fs.object? ((stem ++ ldifSuffix) :: dir) ≠ none →
    fs.object? ((stem' ++ ldifSuffix) :: dir) ≠ none → stem = stem'

namespace Apart

theorem free_of_object (h : Apart base fs) (hq : fs.object? q ≠ none) : Free base fs q := by
  rintro dir stem stem' r s hbase rfl hr hs hrs hother
  exact h hbase hr hs hrs hq hother

/-- Names stay apart where nothing appears but at a place that is free. -/
theorem grow (h : Apart base fs) (hq : Free base fs q)
    (hsub : ∀ p, fs'.object? p ≠ none → p = q ∨ fs.object? p ≠ none) : Apart base fs' := by
  intro dir stem stem' r s hbase hr hs hrs ho ho'
  rcases hsub _ ho with he | ho
  · rcases hsub _ ho' with he' | ho'
    · exact append_suffix_inj (List.cons.inj (he.trans he'.symm)).1
    · exact hq hbase he.symm hr hs hrs ho'
  · rcases hsub _ ho' with he' | ho'
    · exact (hq hbase he'.symm hs hr (Rdn.same_symm hrs) ho).symm
    · exact h hbase hr hs hrs ho ho'

theorem mono (h : Apart base fs) (hsub : ∀ p, fs'.object? p ≠ none → fs.object? p ≠ none) :
    Apart base fs' :=
  fun _ _ _ _ _ hbase hr hs hrs ho ho' => h hbase hr hs hrs (hsub _ ho) (hsub _ ho')

theorem put (h : Apart base fs) (hq : Free base fs q) (hne : q ≠ []) (o : FileObject) :
    Apart base (fs.put q o) := by
  refine h.grow hq fun p hp => ?_
  rw [FileSystem.object?_put hne] at hp
  split at hp
  · rename_i he
    exact .inl he
  · exact .inr hp

theorem removeIf (h : Apart base fs) (gone : Path → Bool) : Apart base (fs.removeIf gone) := by
  refine h.mono fun p hp => ?_
  obtain ⟨o, ho⟩ := Option.ne_none_iff_exists'.mp hp
  rw [FileSystem.object?_of_removeIf ho]
  exact Option.some_ne_none o

/-- A file that is moved takes nothing along. -/
theorem renameFile {content : Bytes} (h : Apart base fs) (hg : fs.Grounded)
    (hfile : fs.object? q = some (.file content)) (hq : Free base fs q')
    (hr : fs.rename q q' = .ok fs') : Apart base fs' := by
  refine h.grow hq fun p hp => ?_
  rw [hg.object?_rename hr, FileSystem.transfer] at hp
  split at hp
  · rename_i hs
    obtain ⟨l, rfl⟩ := hs
    rw [rebase_append] at hp
    by_cases hl : l = []
    · exact .inl (by rw [hl, List.nil_append])
    · exact absurd (hg.eq_none_of_ne (by simp [hfile]) l hl) hp
  · split at hp
    · exact absurd rfl hp
    · exact .inr hp

/-- In a directory that is moved, names are as far apart as they were. -/
theorem renameDirectory (h : Apart base fs) (hg : fs.Grounded) (hbase : base <:+ q)
    (hq' : ∀ stem dir, q' ≠ (stem ++ ldifSuffix) :: dir) (hr : fs.rename q q' = .ok fs') :
    Apart base fs' := by
  intro dir stem stem' r s hdir hparse hparse' hrs ho ho'
  rw [hg.object?_rename hr] at ho ho'
  have hwhole : ∀ stem : String, q' <:+ (stem ++ ldifSuffix) :: dir → q' <:+ dir := fun stem hs =>
    (List.suffix_cons_iff.mp hs).resolve_left (hq' stem dir)
  by_cases hs : q' <:+ dir
  · -- both names were in the same directory below the old place
    obtain ⟨l, rfl⟩ := hs
    have hold : ∀ stem : String, FileSystem.transfer q q' fs.object?
        ((stem ++ ldifSuffix) :: (l ++ q')) = fs.object? ((stem ++ ldifSuffix) :: (l ++ q)) := by
      intro stem
      rw [FileSystem.transfer, ← List.cons_append, if_pos (List.suffix_append _ _), rebase_append,
        List.cons_append]
    rw [hold] at ho ho'
    exact h (hbase.trans (List.suffix_append _ _)) hparse hparse' hrs ho ho'
  · have hold : ∀ stem : String,
        FileSystem.transfer q q' fs.object? ((stem ++ ldifSuffix) :: dir) ≠ none →
          fs.object? ((stem ++ ldifSuffix) :: dir) ≠ none := by
      intro stem hsome
      rw [FileSystem.transfer, if_neg (mt (hwhole stem) hs)] at hsome
      split at hsome
      · exact absurd rfl hsome
      · exact hsome
    exact h hdir hparse hparse' hrs (hold stem ho) (hold stem' ho')

end Apart

variable {kind : AttributeMap → Prop} {root : FileNode}

/-- A step keeps names apart, whatever attributes are written. -/
theorem StepOf.apart (hstep : StepOf kind root fs fs') (hg : fs.Grounded)
    (h : Apart root.dir fs) : Apart root.dir fs' := by
  cases hstep with
  | @write p e _ hfree _ _ hwrite =>
      obtain ⟨name, dir, rfl, -, -, -, rfl⟩ := FileSystem.write_eq_ok hwrite
      refine h.put ?_ (List.cons_ne_nil _ _) _
      by_cases hno : fs.object? (name :: dir) = none
      · exact hfree hno
      · exact h.free_of_object hno
  | removeFile _ hremove =>
      obtain ⟨-, rfl⟩ := FileSystem.removeFile_eq_ok hremove
      exact h.removeIf _
  | makeDirectory hnode hmake =>
      obtain ⟨name, dir, hpath, -, -, -, rfl⟩ := FileSystem.makeDirectory_eq_ok hmake
      refine h.put (.of_ne fun stem dir => dir_ne_entry hnode) ?_ _
      rw [hpath]
      exact List.cons_ne_nil _ _
  | removeDirectory _ hremove =>
      obtain ⟨-, rfl⟩ := FileSystem.removeDirectory_eq_ok hremove
      exact h.removeIf _
  | moveFile _ hfile _ hfree hmove => exact h.renameFile hg hfile hfree hmove
  | moveDirectory hnode _ hmove =>
      exact h.renameDirectory hg hnode.dir_suffix
        (fun stem dir he => ldif_ne_dir _ _ (List.cons.inj he).1.symm) hmove

/-- So do any number of steps. -/
theorem Apart.steps (h : Apart root.dir fs) (hg : fs.Grounded)
    (hsteps : Relation.ReflTransGen (StepOf kind root) fs fs') : Apart root.dir fs' := by
  refine And.right (a := fs'.Grounded) ?_
  induction hsteps with
  | refl => exact ⟨hg, h⟩
  | tail _ hstep ih => exact ⟨hstep.grounded ih.1, hstep.apart ih.1 ih.2⟩

end DirectoryStore
