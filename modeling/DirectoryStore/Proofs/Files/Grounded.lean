import DirectoryStore.Proofs.Files.Places
import DirectoryStore.Proofs.Tree.Calls
import DirectoryStore.Tree.Files

/-!
# Grounded file systems

In a file system everything stands in a directory, which only a list of objects does not show.
Operations keep it so, and with them all edits of a tree in files.  Below what is no directory
there is then nothing, and a rename tells of every path what it leads to afterwards.
-/

namespace DirectoryStore
namespace FileSystem

variable {linked : Bool} {fs fs' : FileSystem linked} {p q d dir dir' : Path}
variable {o : FileObject linked} {name name' : String} {content : Bytes}

/-- Whatever there is stands in a directory. -/
def Grounded (fs : FileSystem linked) : Prop :=
  ∀ ⦃name dir o⦄, fs.object? (name :: dir) = some o → fs.object? dir = some .directory

theorem grounded_empty : Grounded (empty : FileSystem linked) := by
  intro name dir o ho
  cases ho

theorem grounded_iff : Grounded fs ↔ ∀ x ∈ fs.objects, fs.object? x.1.tail = some .directory := by
  constructor
  · rintro h ⟨p, o⟩ hx
    cases p with
    | nil => rfl
    | cons name dir => exact h ((object?_eq_some_iff (List.cons_ne_nil name dir)).mpr hx)
  · intro h name dir o ho
    exact h _ ((object?_eq_some_iff (List.cons_ne_nil name dir)).mp ho)

namespace Grounded

/-- Below a path there is nothing if nothing is directly below it. -/
theorem eq_none_below (h : Grounded fs) (hp : ∀ name, fs.object? (name :: p) = none) :
    ∀ l, l ≠ [] → fs.object? (l ++ p) = none := by
  intro l hl
  induction l with
  | nil => exact absurd rfl hl
  | cons name l ih =>
      cases l with
      | nil => exact hp name
      | cons name' l =>
          rw [Option.eq_none_iff_forall_ne_some]
          intro o ho
          have hdir : fs.object? (name' :: l ++ p) = some .directory := h ho
          rw [ih (List.cons_ne_nil _ _)] at hdir
          cases hdir

/-- There is nothing below what is no directory. -/
theorem eq_none_of_ne (h : Grounded fs) (hp : fs.object? p ≠ some .directory) :
    ∀ l, l ≠ [] → fs.object? (l ++ p) = none :=
  h.eq_none_below fun _ => Option.eq_none_iff_forall_ne_some.mpr fun _ ho => hp (h ho)

/-- A directory is not below a file or a link. -/
theorem not_suffix (h : Grounded fs) (ho : fs.object? p = some o) (hno : o ≠ .directory)
    (hdir : fs.object? dir = some .directory) : ¬ p <:+ dir := by
  rintro ⟨l, rfl⟩
  by_cases hl : l = []
  · rw [hl, List.nil_append, ho] at hdir
    exact hno (Option.some.inj hdir)
  · rw [h.eq_none_of_ne (by simp [ho, hno]) l hl] at hdir
    cases hdir

/-! ## Changes -/

theorem put (h : Grounded fs) (hdir : fs.object? dir = some .directory)
    (hkeep : fs.object? (name :: dir) = some .directory → o = .directory) :
    Grounded (fs.put (name :: dir) o) := by
  intro name' dir' o' ho'
  rw [object?_put (List.cons_ne_nil _ _)] at ho' ⊢
  split at ho'
  · rename_i he
    cases he
    rw [if_neg (List.cons_ne_self _ _).symm]
    exact hdir
  · split
    · rename_i he
      rw [hkeep (he ▸ h ho')]
    · exact h ho'

theorem remove (h : Grounded fs) (hp : ∀ name, fs.object? (name :: p) = none) :
    Grounded (fs.removeIf (· == p)) := by
  intro name dir o ho
  rw [object?_removeIf] at ho ⊢
  split at ho
  · cases ho
  · rw [if_neg, h ho]
    rintro ⟨-, hgone⟩
    rw [eq_of_beq hgone, hp name] at ho
    cases ho

theorem moved (h : Grounded fs) (hdir' : fs.object? dir' = some .directory)
    (hout : ¬ name :: dir <:+ name' :: dir')
    (hfree : ∀ l, l ≠ [] → fs.object? (l ++ name' :: dir') = none) :
    Grounded (fs.moved (name :: dir) (name' :: dir')) := by
  have hobject := fun q => object?_moved (q := q) (List.cons_ne_nil name dir)
    (List.cons_ne_nil name' dir') hfree
  intro x up o ho
  rw [hobject] at ho ⊢
  have hcons : ∀ {p : Path}, p <:+ up → p <:+ x :: up :=
    fun hp => hp.trans (List.suffix_cons _ _)
  by_cases ht : name' :: dir' <:+ x :: up
  · rw [if_pos ht] at ho
    rcases List.suffix_cons_iff.mp ht with he | hup
    · -- the object at the new place stands where the move needs a directory
      cases he
      rw [if_neg, if_neg, hdir']
      · exact fun hs => hout (hs.trans (List.suffix_cons _ _))
      · exact fun hs => absurd hs.length_le (by simp)
    · obtain ⟨l, rfl⟩ := hup
      rw [if_pos (List.suffix_append _ _), rebase_append]
      rw [← List.cons_append, rebase_append] at ho
      exact h ho
  · rw [if_neg ht] at ho
    by_cases hs : name :: dir <:+ x :: up
    · rw [if_pos hs] at ho
      cases ho
    · rw [if_neg hs] at ho
      rw [if_neg (mt hcons ht), if_neg (mt hcons hs), h ho]

end Grounded

/-! ## Operations -/

/-- A rename that is carried out goes to a place in a directory, not below the old place, and with
    nothing below it.  A directory takes the place of nothing but a directory. -/
theorem Grounded.place_of_rename (hg : Grounded fs) (h : fs.rename p q = .ok fs') :
    ∃ s d, fs.place p = .ok s ∧ fs.place q = .ok d ∧ ((s = d ∧ fs' = fs) ∨
      ∃ o name dir name' dir', s = name :: dir ∧ d = name' :: dir' ∧
        fs.object? s = some o ∧ fs.object? dir' = some .directory ∧ ¬ s <:+ d ∧
        (∀ l, l ≠ [] → fs.object? (l ++ d) = none) ∧
        (o = .directory → ∀ o', fs.object? d = some o' → o' = .directory) ∧
        fs' = fs.moved s d) := by
  obtain ⟨s, d, hs, hd, hsame | ⟨hne, rfl, hcase⟩⟩ := FileSystem.place_of_rename h
  · exact ⟨s, d, hs, hd, .inl hsame⟩
  refine ⟨s, d, hs, hd, .inr ?_⟩
  rcases hcase with ⟨o, ho, hno, hfree⟩ | ⟨hdirectory, hout, hempty⟩
  · have hsource : fs.object? s ≠ some .directory := by simp [ho, hno]
    obtain ⟨name, dir, rfl, -⟩ := exists_dir_of_place hs (ne_nil_of_object? hsource)
    obtain ⟨name', dir', rfl, hdir⟩ := exists_dir_of_place hd (ne_nil_of_object? hfree)
    refine ⟨o, name, dir, name', dir', rfl, rfl, ho, hdir, fun hsuffix => ?_,
      hg.eq_none_of_ne hfree, fun he => absurd he hno, rfl⟩
    rcases List.suffix_cons_iff.mp hsuffix with he | hsuffix
    · exact hne he
    · exact hg.not_suffix ho hno hdir hsuffix
  · have hnothing : ∀ l, l ≠ [] → fs.object? (l ++ d) = none := by
      rcases hempty with hnone | ⟨-, hempty⟩
      · exact hg.eq_none_of_ne (by simp [hnone])
      · exact hg.eq_none_below hempty
    have hsource : s ≠ [] := by
      rintro rfl
      exact hout List.nil_suffix
    have htarget : d ≠ [] := by
      rintro rfl
      have hnone := hnothing s hsource
      rw [List.append_nil, hdirectory] at hnone
      cases hnone
    obtain ⟨name, dir, rfl, -⟩ := exists_dir_of_place hs hsource
    obtain ⟨name', dir', rfl, hdir⟩ := exists_dir_of_place hd htarget
    refine ⟨_, name, dir, name', dir', rfl, rfl, hdirectory, hdir, hout, hnothing, ?_, rfl⟩
    rintro - o' ho'
    rcases hempty with hnone | ⟨hthere, -⟩
    · rw [hnone] at ho'
      cases ho'
    · exact Option.some.inj (ho'.symm.trans hthere)

/-- What is there after a removal was there before. -/
theorem object?_of_removeIf {gone : Path → Bool} (h : (fs.removeIf gone).object? p = some o) :
    fs.object? p = some o := by
  rw [object?_removeIf] at h
  split at h
  · cases h
  · exact h

/-- What stands at paths when all that is at and below `source` goes to `target`. -/
def transfer (source target : Path) (f : Path → Option (FileObject linked)) :
    Path → Option (FileObject linked) :=
  fun p => if target <:+ p then f (rebase target source p) else if source <:+ p then none else f p

namespace Grounded

theorem transfer_of_rename (hg : Grounded fs) (h : fs.rename p q = .ok fs') :
    ∃ s d, fs.place p = .ok s ∧ fs.place q = .ok d ∧ fs'.object? = transfer s d fs.object? := by
  obtain ⟨s, d, hs, hd, hcase⟩ := hg.place_of_rename h
  refine ⟨s, d, hs, hd, funext fun x => ?_⟩
  rw [transfer]
  rcases hcase with ⟨rfl, rfl⟩ | ⟨_, _, _, _, _, rfl, rfl, -, -, -, hfree, -, rfl⟩
  · split
    · rename_i hsuffix
      obtain ⟨l, rfl⟩ := hsuffix
      rw [rebase_append]
    · rfl
  · exact object?_moved (List.cons_ne_nil _ _) (List.cons_ne_nil _ _) hfree

theorem object?_rename {fs fs' : FileSystem} (hg : Grounded fs) (h : fs.rename p q = .ok fs') :
    fs'.object? = transfer p q fs.object? := by
  obtain ⟨s, d, hs, hd, hobject⟩ := hg.transfer_of_rename h
  rwa [place_self hs, place_self hd] at hobject

/-! ## Operations keep a file system grounded -/

theorem write (hg : Grounded fs) (h : fs.write p content = .ok fs') : Grounded fs' := by
  obtain ⟨q, hplace, hno, rfl⟩ := place_of_write h
  obtain ⟨name, dir, rfl, hdir⟩ := exists_dir_of_place hplace (ne_nil_of_object? hno)
  exact hg.put hdir fun hd => absurd hd hno

theorem makeDirectory (hg : Grounded fs) (h : fs.makeDirectory p = .ok fs') : Grounded fs' := by
  obtain ⟨q, hplace, hnone, rfl⟩ := place_of_makeDirectory h
  have hno : fs.object? q ≠ some .directory := by simp [hnone]
  obtain ⟨name, dir, rfl, hdir⟩ := exists_dir_of_place hplace (ne_nil_of_object? hno)
  exact hg.put hdir fun _ => rfl

theorem removeFile (hg : Grounded fs) (h : fs.removeFile p = .ok fs') : Grounded fs' := by
  obtain ⟨q, o, -, ho, hno, rfl⟩ := place_of_removeFile h
  exact hg.remove fun name => hg.eq_none_of_ne (by simp [ho, hno]) [name] (List.cons_ne_nil _ _)

theorem removeDirectory (hg : Grounded fs) (h : fs.removeDirectory p = .ok fs') :
    Grounded fs' := by
  obtain ⟨q, -, -, hempty, rfl⟩ := place_of_removeDirectory h
  exact hg.remove hempty

theorem rename (hg : Grounded fs) (h : fs.rename p q = .ok fs') : Grounded fs' := by
  obtain ⟨s, d, -, -, ⟨-, rfl⟩ | ⟨_, _, _, _, _, rfl, rfl, -, hdir, hout, hfree, -, rfl⟩⟩ :=
    hg.place_of_rename h
  · exact hg
  · exact hg.moved hdir hout hfree

theorem makeDirectories {fs : FileSystem} (hg : Grounded fs) (base : Path) (text : String) :
    (fs.makeDirectories base text).2.Grounded := by
  have hgo : ∀ {fs : FileSystem} {p} (parts : List String), Grounded fs →
      (FileSystem.makeDirectories.go fs p parts).2.Grounded := by
    intro fs p parts
    induction parts generalizing fs p with
    | nil => exact fun hg => hg
    | cons part parts ih =>
        intro hg
        rw [FileSystem.makeDirectories.go]
        split
        · exact ih hg
        split
        · exact hg
        split
        · exact hg
        · rename_i fs' hmake
          exact ih (hg.makeDirectory hmake)
  rw [FileSystem.makeDirectories]
  split
  · exact hg
  · exact hgo _ hg

end Grounded
end FileSystem

/-! ## Edits keep the files of a tree grounded -/

namespace Edit

variable {τ α β : Type}

/-- The edit keeps a property of the tree, whether it fails or not. -/
def Maintains (p : τ → Prop) (x : Edit τ α) : Prop :=
  ∀ t, p t → p (x.run t).2

namespace Maintains

variable {p : τ → Prop} {x : Edit τ α} {k : α → Edit τ β}

theorem after {t t' : τ} {res : Except TreeError α} (hx : Maintains p x) (ht : p t)
    (hrun : x.run t = (res, t')) : p t' := by
  have hafter := hx t ht
  rwa [hrun] at hafter

theorem pure (a : α) : Maintains p (Pure.pure a) :=
  fun _ h => h

theorem fail (e : TreeError) : Maintains p (Edit.fail e : Edit τ α) :=
  fun _ h => h

theorem look (f : τ → Except TreeError α) : Maintains p (Edit.look f) :=
  fun _ h => h

theorem ofExcept (a : Except TreeError α) : Maintains p (Edit.ofExcept a) :=
  fun _ h => h

/-- What is gone on with has been seen in a tree of the property. -/
theorem lookThen {f : τ → Except TreeError α}
    (hk : ∀ t a, p t → f t = .ok a → Maintains p (k a)) : Maintains p (Edit.look f >>= k) := by
  intro t ht
  rw [run_bind, run_look]
  cases hf : f t with
  | error e => exact ht
  | ok a => exact hk t a ht hf t ht

theorem bind (hx : Maintains p x) (hk : ∀ a, Maintains p (k a)) : Maintains p (x >>= k) := by
  intro t ht
  have := hx t ht
  rw [run_bind]
  rcases hrun : x.run t with ⟨_ | a, t'⟩ <;> rw [hrun] at this
  · exact this
  · exact hk a t' this

theorem ifThen {y : Edit τ Unit} {k : Unit → Edit τ β} {there : Bool} (hy : Maintains p y)
    (hk : ∀ u, Maintains p (k u)) :
    Maintains p (if there = true then y >>= k else k ()) := by
  split
  · exact hy.bind hk
  · exact hk ()

theorem change {f : τ → Except TreeError (α × τ)}
    (h : ∀ t a t', p t → f t = .ok (a, t') → p t') : Maintains p (Edit.change f) := by
  intro t ht
  rw [run_change]
  cases hf : f t with
  | error e => exact ht
  | ok y => exact h t y.1 y.2 ht hf

end Maintains
end Edit

namespace FileTree

open Edit (Maintains)

variable {linked : Bool}

/-- The files of the tree are grounded. -/
def Grounded (t : FileTree linked) : Prop :=
  t.files.Grounded

/-- What an operation on the files keeps of them. -/
theorem onFiles_maintains {p : FileSystem linked → Prop}
    {f : FileSystem linked → Except FileFault (FileSystem linked)}
    (h : ∀ {files files'}, p files → f files = .ok files' → p files') :
    Maintains (fun t : FileTree linked => p t.files) (onFiles f) := by
  refine .change fun t a t' ht hok => ?_
  cases hf : f t.files with
  | error fault => simp [hf] at hok
  | ok files =>
      simp only [hf] at hok
      cases hok
      exact h ht hf

theorem maintains_onFiles {f : FileSystem linked → Except FileFault (FileSystem linked)}
    (h : ∀ {files files'}, files.Grounded → f files = .ok files' → files'.Grounded) :
    Maintains Grounded (onFiles f) :=
  onFiles_maintains h

theorem maintains_writeEntry (path : Path) (e : Entry) :
    Maintains Grounded (writeEntry path e : Edit (FileTree linked) Unit) :=
  maintains_onFiles fun hg h => hg.write h

theorem maintains_ensureDirectory (node : FileNode) :
    Maintains Grounded (ensureDirectory node : Edit (FileTree linked) Unit) := by
  refine .bind (.look _) fun there => ?_
  split
  · exact .pure _
  refine .bind (.look _) fun missing => ?_
  split
  · exact .fail _
  refine .change fun t a t' ht hok => ?_
  split at hok
  · rename_i files hmake
    cases hok
    exact ht.makeDirectory hmake
  · cases hok
  · cases hok

theorem maintains_pruneDirectory (node : FileNode) :
    Maintains Grounded (pruneDirectory node : Edit (FileTree linked) Unit) := by
  refine .bind (.look _) fun empty => ?_
  split
  · exact maintains_onFiles fun hg h => hg.removeDirectory h
  · exact .pure _

theorem maintains_deleteChild (node : FileNode) (r : Rdn) :
    Maintains Grounded (deleteChild node r : Edit (FileTree linked) Unit) := by
  refine .bind (.look _) fun found => ?_
  cases found with
  | none => exact .fail _
  | some found =>
      refine .bind (.look _) fun leaf => ?_
      split
      · exact .fail _
      exact .bind (maintains_onFiles fun hg h => hg.removeFile h) fun _ => .bind (.look _) fun _ =>
        .ifThen (maintains_onFiles fun hg h => hg.removeDirectory h) fun _ =>
        maintains_pruneDirectory node

theorem maintains_setAttributes (node : FileNode) (attrs : AttributeMap) :
    Maintains Grounded (setAttributes node attrs : Edit (FileTree linked) Unit) := by
  refine .bind (.look _) fun missing => ?_
  split
  · exact .fail _
  · exact maintains_writeEntry _ _

theorem maintains_renameEntry (path : Path) (d : Dn) :
    Maintains Grounded (renameEntry path d : Edit (FileTree linked) Unit) :=
  .bind (.look _) fun _ => maintains_writeEntry _ _

theorem maintains_renameEntries (dir : Path) (base : Dn) (places : List (List String)) :
    Maintains Grounded (renameEntries dir base places : Edit (FileTree linked) Unit) := by
  induction places with
  | nil => exact .pure _
  | cons place places ih =>
      rw [renameEntries]
      split
      · exact .bind (maintains_renameEntry _ _) fun _ => ih
      · exact ih

theorem maintains_renameSubtree (node : FileNode) :
    Maintains Grounded (renameSubtree node : Edit (FileTree linked) Unit) := by
  refine .bind (maintains_renameEntry _ _) fun _ => .bind (.look _) fun there => ?_
  split
  · exact .bind (.look _) fun _ => maintains_renameEntries _ _ _
  · exact .pure _

theorem maintains_moveTo (node : FileNode) (target : Dn) :
    Maintains Grounded (moveTo node target : Edit (FileTree linked) FileNode) := by
  refine .bind (.look _) ?_
  rintro ⟨up, r⟩
  refine .bind (maintains_ensureDirectory _) fun _ => .bind (.look _) fun oldUp =>
    .bind (maintains_onFiles fun hg h => hg.rename h) fun _ => .bind (.look _) fun there =>
    .ifThen (maintains_onFiles fun hg h => hg.rename h) fun _ =>
    .bind (maintains_renameSubtree _) fun _ => ?_
  cases oldUp with
  | none => exact .pure _
  | some old => exact .bind (maintains_pruneDirectory old) fun _ => .pure _

theorem maintains_addChild (node : FileNode) (r : Rdn) (attrs : AttributeMap) :
    Maintains Grounded (addChild node r attrs : Edit (FileTree linked) FileNode) := by
  refine .bind (.look _) fun found => ?_
  cases found with
  | some _ => exact .fail _
  | none =>
      exact .bind (maintains_ensureDirectory node) fun _ =>
        .bind (maintains_writeEntry _ _) fun _ => .pure _

theorem maintains_call (node : FileNode) (c : Call) :
    Maintains Grounded (Tree.call node c : Edit (FileTree linked) Unit) := by
  cases c with
  | addChild r attrs => exact .bind (maintains_addChild node r attrs) fun _ => .pure _
  | deleteChild r => exact maintains_deleteChild node r
  | delete =>
      refine .bind (.look _) fun d => .bind (.look _) fun up => ?_
      cases up with
      | none => exact .fail _
      | some up => exact .bind (.ofExcept _) fun r => maintains_deleteChild up r
  | setAttributes attrs => exact maintains_setAttributes node attrs
  | modify edits =>
      refine .bind (.look _) fun found => ?_
      split
      · exact .fail _
      · exact maintains_setAttributes node _
  | moveTo target => exact .bind (maintains_moveTo node target) fun _ => .pure _

end FileTree
end DirectoryStore
