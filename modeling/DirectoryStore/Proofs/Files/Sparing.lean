import DirectoryStore.Proofs.Files.Interruption

/-!
# What edits leave alone

What stands at a path and is no directory stays as it is under all steps of a call that do not act
on its place.  Where the files of entries stand is told by the last names of paths, which links do
not change.  The exception is a move, which is told of elsewhere.
-/

namespace DirectoryStore

open Edit (Maintains)

variable {linked : Bool} {p : Path} {o : FileObject linked}

/-! ## Names of entry files -/

/-- Whether a name is that of the file of an entry. -/
def isEntryName (name : String) : Bool :=
  match stripSuffix? ldifSuffix name with
  | none => false
  | some stem => (Rdn.parse stem).toOption.isSome

/-- Whether a path leads to a name that is that of the file of an entry. -/
def Path.endsInEntry : Path → Bool
  | [] => false
  | name :: _ => isEntryName name

theorem isEntryName_append {stem : String} {r : Rdn} (h : Rdn.parse stem = .ok r) :
    isEntryName (stem ++ ldifSuffix) = true := by
  simp only [isEntryName, stripSuffix?_append, h]
  rfl

theorem isEntryName_of_dnBelow? {base d : Dn} {names : List String} {stem : String}
    (h : dnBelow? base (names ++ [stem ++ ldifSuffix]) = some d) :
    isEntryName (stem ++ ldifSuffix) = true := by
  induction names generalizing base with
  | nil =>
      simp only [List.nil_append, dnBelow?, rdnOfName?, stripSuffix?_dir_ldif,
        stripSuffix?_append, Option.none_or, Option.bind_eq_bind, Option.bind_some] at h
      cases hparse : Rdn.parse stem with
      | error e => simp [hparse, Except.toOption] at h
      | ok r => exact isEntryName_append hparse
  | cons name names ih =>
      rw [List.cons_append, dnBelow?] at h
      split at h
      · cases h
      · exact ih h

theorem Path.endsInEntry_append {l : Path} (hl : l ≠ []) (dir : Path) :
    (l ++ dir).endsInEntry = l.endsInEntry := by
  cases l with
  | nil => exact absurd rfl hl
  | cons name l => rfl

theorem endsInEntry_ldif {r : Rdn} {stem : String} (h : Rdn.parse stem = .ok r) (dir : Path) :
    Path.endsInEntry ((stem ++ ldifSuffix) :: dir) = true :=
  isEntryName_append h

theorem endsInEntry_dir (stem : String) (dir : Path) :
    Path.endsInEntry ((stem ++ dirSuffix) :: dir) = false := by
  rw [Path.endsInEntry, isEntryName, stripSuffix?_ldif_dir]

theorem ne_of_endsInEntry {q : Path} (hp : p.endsInEntry = false) (hq : q.endsInEntry = true) :
    p ≠ q := by
  rintro rfl
  rw [hp] at hq
  cases hq

/-- The names that a call brings can be read. -/
def Call.Legible : Call → Prop
  | addChild r _ | deleteChild r => r.Legible
  | moveTo target => target.Legible
  | delete | setAttributes _ | modify _ => True

/-- The handles that a tree hands out as long as the names that calls bring can be read: that of
    the root, and below each those whose files are called by their relative names. -/
inductive Spelled (root : FileNode) : FileNode → Prop where
  | root : Spelled root root
  | child {up : FileNode} {r : Rdn} {stem : String} :
      Rdn.parse stem = .ok r → Spelled root up → Spelled root (up.child r stem)

namespace Spelled

variable {root node : FileNode}

theorem issued (h : Spelled root node) : Issued root node := by
  induction h with
  | root => exact .root
  | child _ _ ih => exact .child _ _ ih

theorem eq_child (h : Spelled root node) (hne : node ≠ root) :
    ∃ (up : FileNode) (r : Rdn) (stem : String), Rdn.parse stem = .ok r ∧
      node = up.child r stem := by
  cases h with
  | root => exact absurd rfl hne
  | child hr _ => exact ⟨_, _, _, hr, rfl⟩

theorem endsInEntry (h : Spelled root node) : node = root ∨ node.ldif.endsInEntry = true := by
  cases h with
  | root => exact .inl rfl
  | child hr _ => exact .inr (isEntryName_append hr)

end Spelled

/-! ## Operations on files -/

namespace Edit

variable {τ α β : Type} {t : τ} {Q : τ → Prop}

/-- The tree that an edit leaves, whether it fails or not, satisfies `Q`. -/
def Leaves (x : Edit τ α) (t : τ) (Q : τ → Prop) : Prop :=
  Q (x.run t).2

namespace Leaves

variable {x : Edit τ α} {k : α → Edit τ β}

theorem bind (herr : ∀ e t', x.run t = (.error e, t') → Q t')
    (hk : ∀ a t', x.run t = (.ok a, t') → Leaves (k a) t' Q) : Leaves (x >>= k) t Q := by
  rw [Leaves, run_bind]
  rcases hrun : x.run t with ⟨e | a, t'⟩
  · exact herr e t' hrun
  · exact hk a t' hrun

theorem andThen (hx : Leaves x t Q) (hk : ∀ a, Maintains Q (k a)) : Leaves (x >>= k) t Q := by
  rw [Leaves] at hx
  exact bind (fun _ _ hrun => by rwa [hrun] at hx) fun a t' hrun => hk a t' (by rwa [hrun] at hx)

theorem look {f : τ → Except TreeError α} (herr : ∀ e, f t = .error e → Q t)
    (hk : ∀ a, f t = .ok a → Leaves (k a) t Q) : Leaves (Edit.look f >>= k) t Q := by
  rw [Leaves, run_bind, run_look]
  cases hf : f t with
  | error e => exact herr e hf
  | ok a => exact hk a hf

theorem ifThen {y : Edit τ Unit} {k : Unit → Edit τ β} {there : Bool}
    (herr : there = true → ∀ e t', y.run t = (.error e, t') → Q t') (P : τ → Prop)
    (htrue : there = true → ∀ t', y.run t = (.ok (), t') → P t') (hfalse : there = false → P t)
    (hk : ∀ t', P t' → Leaves (k ()) t' Q) :
    Leaves (if there = true then y >>= k else k ()) t Q := by
  cases there with
  | true => exact bind (herr rfl) fun _ t' hrun => hk t' (htrue rfl t' hrun)
  | false => exact hk t (hfalse rfl)

end Leaves
end Edit

namespace FileSystem

variable {fs fs' : FileSystem linked} {q q' : Path}

/-- The place of a path keeps the last name. -/
theorem endsInEntry_place (h : fs.place q = .ok q') : q'.endsInEntry = q.endsInEntry := by
  obtain ⟨-, ⟨rfl, rfl⟩ | ⟨name, dir, d, left, rfl, rfl, -, -⟩⟩ := place_eq_ok h
  · rfl
  · rfl

theorem object?_put_of_ne (h : fs.object? p = some o) {o' : FileObject linked} (hq : q ≠ [])
    (hne : p ≠ q) : (fs.put q o').object? p = some o := by
  rw [object?_put hq, if_neg hne, h]

theorem object?_remove_of_ne (h : fs.object? p = some o) (hne : p ≠ q) :
    (fs.removeIf (· == q)).object? p = some o := by
  rw [object?_removeIf, if_neg, h]
  rintro ⟨-, he⟩
  exact hne (eq_of_beq he)

theorem object?_write {text : Bytes} (h : fs.object? p = some o)
    (hne : ∀ {q'}, fs.place q = .ok q' → p ≠ q') (hw : fs.write q text = .ok fs') :
    fs'.object? p = some o := by
  obtain ⟨q', hplace, hno, rfl⟩ := place_of_write hw
  exact object?_put_of_ne h (ne_nil_of_object? hno) (hne hplace)

/-- A directory is made where nothing is. -/
theorem object?_makeDirectory (h : fs.object? p = some o) (hm : fs.makeDirectory q = .ok fs') :
    fs'.object? p = some o := by
  obtain ⟨q', -, hnone, rfl⟩ := place_of_makeDirectory hm
  have hno : fs.object? q' ≠ some .directory := by simp [hnone]
  refine object?_put_of_ne h (ne_nil_of_object? hno) ?_
  rintro rfl
  rw [hnone] at h
  cases h

theorem object?_removeFile (h : fs.object? p = some o)
    (hne : ∀ {q'}, fs.place q = .ok q' → p ≠ q') (hr : fs.removeFile q = .ok fs') :
    fs'.object? p = some o := by
  obtain ⟨q', _, hplace, -, -, rfl⟩ := place_of_removeFile hr
  exact object?_remove_of_ne h (hne hplace)

/-- What is removed as a directory is one. -/
theorem object?_removeDirectory (h : fs.object? p = some o) (ho : o ≠ .directory)
    (hr : fs.removeDirectory q = .ok fs') : fs'.object? p = some o := by
  obtain ⟨q', -, hdirectory, -, rfl⟩ := place_of_removeDirectory hr
  refine object?_remove_of_ne h ?_
  rintro rfl
  rw [h] at hdirectory
  exact ho (Option.some.inj hdirectory)

end FileSystem

namespace FileTree

variable {t : FileTree linked} {node up moved : FileNode} {r : Rdn} {d target : Dn}
variable {attrs : AttributeMap}

theorem leaves_glance {α β : Type} {f : FileTree linked → α} {k : α → Edit (FileTree linked) β}
    {Q : FileTree linked → Prop} (hk : ∀ a, f t = a → Edit.Leaves (k a) t Q) :
    Edit.Leaves (glance f >>= k) t Q := by
  rw [Edit.Leaves, Edit.run_bind, glance, Edit.run_look]
  exact hk _ rfl

/-! ## Handles -/

theorem spelled_of_mem_childNodes (hnode : Spelled t.root node) {c : FileNode}
    (hc : c ∈ t.childNodes node) : Spelled t.root c := by
  obtain ⟨r, stem, rfl, hr, -⟩ := child_of_mem_childNodes hc
  exact .child hr hnode

theorem spelled_of_lookup (hnode : Spelled t.root node) {found : FileNode}
    (hfound : Tree.lookup t node d = .ok found) : Spelled t.root found := by
  refine Tree.of_lookup (p := Spelled t.root) (fun hup hchild => ?_) hnode hfound
  exact spelled_of_mem_childNodes hup (List.mem_of_find?_eq_some (Except.ok.inj hchild))

theorem spelled_of_parent (hnode : Spelled t.root node) (h : t.parent node = .ok (some up)) :
    Spelled t.root up := by
  cases hnode with
  | root =>
      have hroot : t.parent t.root = .ok none := if_pos (decide_eq_true rfl)
      rw [hroot] at h
      cases h
  | child hr hup =>
      rw [parent_child hup.issued] at h
      cases h
      exact hup

theorem legible_of_leaf (h : Tree.leaf target = .ok r) (htarget : target.Legible) : r.Legible := by
  rw [Tree.leaf] at h
  split at h
  · rename_i s hs
    cases h
    exact htarget _ (List.mem_of_mem_head? hs)
  · cases h

theorem spelled_of_moveTo (htarget : target.Legible) {m : FileNode}
    (h : ((moveTo node target).run t).1 = .ok m) : Spelled t.root m := by
  obtain ⟨up, r, hdest, rfl⟩ := child_of_moveTo h
  obtain ⟨-, -, ⟨d, -, hup⟩, hleaf, -⟩ := destination_eq_ok hdest
  exact .child (parse_fileStem (legible_of_leaf hleaf htarget)) (spelled_of_lookup .root hup)

theorem spelled_of_addChild (hnode : Spelled t.root node) (hr : r.Legible) {added : FileNode}
    (h : ((addChild node r attrs).run t).1 = .ok added) : Spelled t.root added := by
  refine (?_ : (addChild node r attrs : Edit (FileTree linked) FileNode).Yields
    (Spelled t.root)) t added h
  refine .after fun found => ?_
  cases found with
  | some _ => exact .fail _
  | none => exact .after fun _ => .after fun _ => .pure (.child (parse_fileStem hr) hnode)

/-! ## Steps -/

/-- The files of the tree are grounded, and this stands at a path among them. -/
structure Spares (p : Path) (o : FileObject linked) (t : FileTree linked) : Prop where
  grounded : t.Grounded
  there : t.files.object? p = some o

theorem spares_onFiles {f : FileSystem linked → Except FileFault (FileSystem linked)}
    (hg : ∀ {files files'}, files.Grounded → f files = .ok files' → files'.Grounded)
    (h : ∀ {files files'}, files.Grounded → files.object? p = some o → f files = .ok files' →
      files'.object? p = some o) : Maintains (Spares p o) (onFiles f) :=
  fun t ht => ⟨maintains_onFiles hg t ht.grounded,
    (onFiles_maintains (p := fun files => files.Grounded ∧ files.object? p = some o)
      (fun hf hok => ⟨hg hf.1 hok, h hf.1 hf.2 hok⟩) t ⟨ht.grounded, ht.there⟩).2⟩

theorem spares_writeEntry {path : Path}
    (hne : ∀ {files : FileSystem linked} {q}, files.Grounded → files.object? p = some o →
      files.place path = .ok q → p ≠ q) (e : Entry) :
    Maintains (Spares p o) (writeEntry path e) :=
  spares_onFiles FileSystem.Grounded.write fun hg h =>
    FileSystem.object?_write h fun hplace => hne hg h hplace

theorem spares_writeEntry_entry {path : Path} (hp : p.endsInEntry = false)
    (hpath : path.endsInEntry = true) (e : Entry) : Maintains (Spares p o) (writeEntry path e) :=
  spares_writeEntry (fun _ _ hplace => ne_of_endsInEntry hp
    ((FileSystem.endsInEntry_place hplace).trans hpath)) e

theorem spares_removeDirectory (ho : o ≠ .directory) (path : Path) :
    Maintains (Spares p o) (onFiles fun files => files.removeDirectory path) :=
  spares_onFiles FileSystem.Grounded.removeDirectory fun _ h =>
    FileSystem.object?_removeDirectory h ho

theorem spares_ensureDirectory (node : FileNode) :
    Maintains (Spares p o) (ensureDirectory node) := by
  intro t ht
  rcases ensureDirectory_cases (t := t) node with ⟨e, herr⟩ | ⟨hok, -⟩ | ⟨files, hmake, hok⟩
  · rwa [herr]
  · rwa [hok]
  · rw [hok]
    exact ⟨ht.grounded.makeDirectory hmake, FileSystem.object?_makeDirectory ht.there hmake⟩

theorem spares_pruneDirectory (ho : o ≠ .directory) (node : FileNode) :
    Maintains (Spares p o) (pruneDirectory node) := by
  refine .bind (.look _) fun empty => ?_
  split
  · exact spares_removeDirectory ho _
  · exact .pure _

theorem spares_addChild (hp : p.endsInEntry = false) (node : FileNode) (hr : r.Legible)
    (attrs : AttributeMap) : Maintains (Spares p o) (addChild node r attrs) := by
  refine .bind (.look _) fun found => ?_
  cases found with
  | some _ => exact .fail _
  | none =>
      exact .bind (spares_ensureDirectory node) fun _ => .bind
        (spares_writeEntry_entry hp (endsInEntry_ldif (parse_fileStem hr) node.dir) _) fun _ =>
        .pure _

theorem spares_removeFile (hp : p.endsInEntry = false) {path : Path}
    (hpath : path.endsInEntry = true) :
    Maintains (Spares p o) (onFiles fun files => files.removeFile path) :=
  spares_onFiles FileSystem.Grounded.removeFile fun _ h =>
    FileSystem.object?_removeFile h fun hplace => ne_of_endsInEntry hp
      ((FileSystem.endsInEntry_place hplace).trans hpath)

theorem spares_deleteChild (hp : p.endsInEntry = false) (ho : o ≠ .directory) (node : FileNode)
    (r : Rdn) : Maintains (Spares p o) (deleteChild node r) := by
  refine .lookThen fun t found _ hfound => ?_
  cases found with
  | none => exact .fail _
  | some found =>
      obtain ⟨s, stem, rfl, hs, -⟩ :=
        child_of_mem_childNodes (List.mem_of_find?_eq_some (Except.ok.inj hfound))
      refine .bind (.look _) fun inner => ?_
      split
      · exact .fail _
      exact .bind (spares_removeFile hp (endsInEntry_ldif hs node.dir)) fun _ =>
        .bind (.look _) fun _ => .ifThen (spares_removeDirectory ho _) fun _ =>
        spares_pruneDirectory ho node

theorem spares_setAttributes
    (hne : ∀ {files : FileSystem linked} {q}, files.Grounded → files.object? p = some o →
      files.place node.ldif = .ok q → p ≠ q) (attrs : AttributeMap) :
    Maintains (Spares p o) (setAttributes node attrs) := by
  refine .bind (.look _) fun missing => ?_
  split
  · exact .fail _
  · exact spares_writeEntry hne _

theorem spares_renameEntry {path : Path} (hp : p.endsInEntry = false)
    (hpath : path.endsInEntry = true) (d : Dn) : Maintains (Spares p o) (renameEntry path d) :=
  .bind (.look _) fun _ => spares_writeEntry_entry hp hpath _

theorem spares_renameEntries (hp : p.endsInEntry = false) (dir : Path) (base : Dn)
    {places : List (List String)}
    (hplaces : ∀ place ∈ places, ∃ names stem, place = names ++ [stem ++ ldifSuffix]) :
    Maintains (Spares p o) (renameEntries dir base places) := by
  induction places with
  | nil => exact .pure _
  | cons place places ih =>
      have hrest := ih fun place' hplace' => hplaces place' (List.mem_cons_of_mem _ hplace')
      rw [renameEntries]
      cases hd : dnBelow? base place with
      | none => exact hrest
      | some d =>
          obtain ⟨names, stem, rfl⟩ := hplaces place List.mem_cons_self
          refine .bind (spares_renameEntry hp ?_ d) fun _ => hrest
          rw [List.reverse_append, List.reverse_singleton, List.singleton_append, List.cons_append,
            Path.endsInEntry, isEntryName_of_dnBelow? hd]

theorem spares_renameSubtree (hp : p.endsInEntry = false) (hmoved : moved.ldif.endsInEntry = true) :
    Maintains (Spares p o) (renameSubtree moved) := by
  refine .bind (spares_renameEntry hp hmoved _) fun _ => .bind (.look _) fun there => ?_
  split
  · refine .lookThen fun t places _ hplaces => ?_
    cases hplaces
    exact spares_renameEntries hp _ _ fun _ => mem_entryFiles_suffix
  · exact .pure _

end FileTree
end DirectoryStore
