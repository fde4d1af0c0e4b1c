import DirectoryStore.Proofs.Files.Links
import DirectoryStore.Proofs.Files.Sparing

/-!
# Files that are not the tree's

What stands in the directory of a tree is foreign if its name does not stand for an entry.  Calls
write and remove files by names that do, they remove directories with nothing in them, and they
put nothing in the place of a file but the file of an entry: so no call, whether it fails or not,
does anything to a foreign file, but that a move takes what is below the directory of a node along
with it.

There is one exception, and it needs a symbolic link: where the directory of a node is a link, a
move renames the link, and a link takes the place of a file that stands where it goes.
-/

namespace DirectoryStore

open Edit (Maintains)

variable {linked : Bool} {p : Path} {o : FileObject linked}

/-- A file or a link below a directory whose name is not that of the file of an entry. -/
structure Foreign (dir : Path) (files : FileSystem linked) (p : Path) (o : FileObject linked) :
    Prop where
  below : Path.isBelow dir p = true
  name : p.endsInEntry = false
  notDirectory : o ≠ .directory
  there : files.object? p = some o

namespace FileTree

variable {t t₁ : FileTree linked} {files : FileSystem linked} {node up : FileNode} {r s : Rdn}
variable {stem : String} {target : Dn}

/-- What may become of something at a path by a call: it stays, or, if the call is a move and it is
    at or below the directory of the node, it goes to the same place at or below the new one, or,
    if that directory is a link, it gives way to the link. -/
inductive Fate (t : FileTree linked) (node : FileNode) (p : Path) (o : FileObject linked) :
    Call → FileSystem linked → Prop where
  | kept {c : Call} {files : FileSystem linked} : files.object? p = some o → Fate t node p o c files
  | moved {target : Dn} {up : FileNode} {r : Rdn} {l dir : Path} {files : FileSystem linked} :
      t.destination node target = .ok (up, r) → t.files.place node.dir = .ok dir → p = l ++ dir →
      files.object? (l ++ (fileStem r ++ dirSuffix) :: t.files.home up.dir) = some o →
      Fate t node p o (.moveTo target) files
  | replaced {target : Dn} {up : FileNode} {r : Rdn} {dir : Path} {text : String}
      {allowed : linked = true} {files : FileSystem linked} :
      t.destination node target = .ok (up, r) → t.files.place node.dir = .ok dir →
      t.files.object? dir = some (.link text allowed) →
      p = (fileStem r ++ dirSuffix) :: t.files.home up.dir →
      files.object? p = some (.link text allowed) → Fate t node p o (.moveTo target) files

/-! ## The new parent -/

/-- The directory of a node is there with a free place for the file of a child.  Whatever else is
    there was there before. -/
structure Ready (r : Rdn) (up : FileNode) (t t₁ : FileTree linked) : Prop where
  grounded : t₁.Grounded
  leads : ∃ left, t₁.files.lead up.dir = .ok (t.files.home up.dir, left)
  free : t₁.files.object? ((fileStem r ++ ldifSuffix) :: t.files.home up.dir) = none
  kept : ∀ p o, t.files.object? p = some o → t₁.files.object? p = some o
  old : ∀ p o, t₁.files.object? p = some o → o ≠ .directory → t.files.object? p = some o

theorem object?_eq_none_of_childNode? (hdir : t.files.isDirectory up.dir = true) (hr : r.Legible)
    (hnone : t.childNode? up r = none) :
    t.files.object? ((fileStem r ++ ldifSuffix) :: t.files.home up.dir) = none := by
  rw [Option.eq_none_iff_forall_ne_some]
  intro o ho
  have hname : fileStem r ++ ldifSuffix ∈ t.files.names up.dir :=
    FileSystem.mem_namesAt.mpr ⟨o, ho⟩
  have hno := List.find?_eq_none.mp hnone _
    (mem_childNodes_of_name hdir (parse_fileStem hr) hname)
  exact hno (Rdn.same_iff.mpr rfl)

theorem ready_of_ensureDirectory (hg : t.Grounded) (hr : r.Legible)
    (hnone : t.childNode? up r = none) (hrun : (ensureDirectory up).run t = (.ok (), t₁)) :
    Ready r up t t₁ := by
  have hg₁ : t₁.Grounded := (maintains_ensureDirectory up).after hg hrun
  rcases ensureDirectory_cases (t := t) up with ⟨e, herr⟩ | ⟨hok, hdir⟩ | ⟨files, hmake, hok⟩
  · cases herr.symm.trans hrun
  · cases hok.symm.trans hrun
    exact ⟨hg, hg.lead_of_isDirectory hdir, object?_eq_none_of_childNode? hdir hr hnone,
      fun _ _ ho => ho, fun _ _ ho _ => ho⟩
  · cases hok.symm.trans hrun
    have hkept : ∀ p o, t.files.object? p = some o → files.object? p = some o :=
      fun _ _ ho => FileSystem.object?_makeDirectory ho hmake
    obtain ⟨q, hplace, hfree, rfl⟩ := FileSystem.place_of_makeDirectory hmake
    have hno : t.files.object? q ≠ some .directory := by simp [hfree]
    have hput (p : Path) : (t.files.put q .directory).object? p =
        if p = q then some .directory else t.files.object? p :=
      FileSystem.object?_put (FileSystem.ne_nil_of_object? hno)
    refine ⟨hg₁, ?_, ?_, hkept, fun p o ho hno => ?_⟩
    · rw [hg.home_of_place hplace hfree]
      exact hg₁.lead_of_place (hg.place_kept hg₁ (fun p o ho => .inl (hkept p o ho)) hplace)
        (by rw [hput, if_pos rfl])
    · rw [hg.home_of_place hplace hfree, hput, if_neg (List.cons_ne_self _ _)]
      exact hg.eq_none_of_ne (by simp [hfree]) [_] (List.cons_ne_nil _ _)
    · rw [hput] at ho
      split at ho
      · exact absurd (Option.some.inj ho).symm hno
      · exact ho

/-! ## The file of the node -/

/-- When the file of a node has gone to its new place, both directories of the move are found where
    they were, and what is not the file of an entry is where it was. -/
theorem Ready.renameFile (h : Ready r up t t₁) (hg : t.Grounded) (hr : r.Legible)
    (hs : Rdn.parse stem = .ok s) (hfile : t.files.isFile (node.child s stem).ldif = true)
    (hrename : t₁.files.rename (node.child s stem).ldif (up.child r (fileStem r)).ldif =
      .ok files) :
    (∀ dir, files.place (node.child s stem).dir = .ok dir →
      t.files.place (node.child s stem).dir = .ok dir) ∧
    (∀ dir, files.place (up.child r (fileStem r)).dir = .ok dir →
      dir = (fileStem r ++ dirSuffix) :: t.files.home up.dir) ∧
    ∀ p, p.endsInEntry = false → files.object? p = t₁.files.object? p := by
  obtain ⟨d, left, hlead, hstands⟩ := hg.standsForFile_of_isFile hfile
  have hlead₁ := hg.lead_kept h.grounded (fun p o ho => .inl (h.kept p o ho)) hlead
  have hstands₁ := hstands.mono h.kept
  obtain ⟨left', hup₁⟩ := h.leads
  -- the two places between which the rename goes
  obtain ⟨source, dest, hsource, hdest, -⟩ := FileSystem.place_of_rename hrename
  obtain ⟨d', left₁, rfl, -, hd'⟩ := FileSystem.place_cons_eq_ok hsource
  cases hlead₁.symm.trans hd'
  obtain ⟨up', left₂, rfl, -, hup'⟩ := FileSystem.place_cons_eq_ok hdest
  cases hup₁.symm.trans hup'
  obtain ⟨dest, hdest', hobject⟩ :=
    h.grounded.object?_rename_of_ne hsource hstands₁.ne_directory hrename
  cases hdest.symm.trans hdest'
  have hg₂ : files.Grounded := h.grounded.rename hrename
  have hkept : ∀ p o, t₁.files.object? p = some o →
      files.object? p = some o ∨ t₁.files.StandsForFile p := by
    intro p o ho
    rw [hobject]
    split
    · rename_i hp
      rw [hp, h.free] at ho
      cases ho
    split
    · rename_i hp
      exact .inr (hp ▸ hstands₁)
    · exact .inl ho
  refine ⟨fun dir hdir => ?_, fun dir hdir => ?_, fun p hp => ?_⟩
  · obtain ⟨d₂, left₃, rfl, hfits, hlead₂⟩ := FileSystem.place_cons_eq_ok hdir
    cases (h.grounded.lead_kept hg₂ hkept hlead₁).symm.trans hlead₂
    exact FileSystem.place_of_lead hlead hfits
  · obtain ⟨d₂, left₃, rfl, hfits, hlead₂⟩ := FileSystem.place_cons_eq_ok hdir
    cases (h.grounded.lead_kept hg₂ hkept hup₁).symm.trans hlead₂
    rfl
  · rw [hobject, if_neg (ne_of_endsInEntry hp (endsInEntry_ldif (parse_fileStem hr) _)),
      if_neg (ne_of_endsInEntry hp (endsInEntry_ldif hs _))]

/-! ## Moves -/

/-- In the tree something stands at a path that is no entry's, and as long as it stays there, the
    fate is told. -/
def Bound (t : FileTree linked) (node : FileNode) (p : Path) (o : FileObject linked) (c : Call)
    (t' : FileTree linked) : Prop :=
  ∃ q o', Spares q o' t' ∧ q.endsInEntry = false ∧ o' ≠ .directory ∧
    ∀ files : FileSystem linked, files.object? q = some o' → Fate t node p o c files

/-- The directory of the node goes to its new place. -/
theorem bound_of_renameDirectory {t₂ : FileTree linked} (h : Spares p o t₂)
    (hp : p.endsInEntry = false) (hno : o ≠ .directory)
    (hdest : t.destination node target = .ok (up, r)) (hdir : t₂.files.isDirectory node.dir = true)
    (hplace : ∀ dir, t₂.files.place node.dir = .ok dir → t.files.place node.dir = .ok dir ∧
      ∀ text allowed, t₂.files.object? dir = some (.link text allowed) →
        t.files.object? dir = some (.link text allowed))
    (hnew : ∀ dir, t₂.files.place (up.child r (fileStem r)).dir = .ok dir →
      dir = (fileStem r ++ dirSuffix) :: t.files.home up.dir) {t₃ : FileTree linked}
    (hrename : t₂.files.rename node.dir (up.child r (fileStem r)).dir = .ok t₃.files) :
    Bound t node p o (.moveTo target) t₃ := by
  have hg₃ : t₃.Grounded := h.grounded.rename hrename
  obtain ⟨source, dest, hsource, hd, hcase⟩ :=
    h.grounded.fate_of_rename hdir hrename h.there hno
  obtain ⟨hsource', hlink⟩ := hplace source hsource
  obtain rfl := hnew dest hd
  rcases hcase with hkept | ⟨l, rfl, hmoved⟩ | ⟨rfl, text, allowed, hthere, hreplaced⟩
  · exact ⟨p, o, ⟨hg₃, hkept⟩, hp, hno, fun _ => .kept⟩
  · refine ⟨_, o, ⟨hg₃, hmoved⟩, ?_, hno, fun _ => .moved hdest hsource' rfl⟩
    by_cases hl : l = []
    · subst hl
      exact endsInEntry_dir _ _
    · rw [Path.endsInEntry_append hl] at hp ⊢
      exact hp
  · exact ⟨_, _, ⟨hg₃, hreplaced⟩, hp, nofun, fun _ =>
      .replaced hdest hsource' (hlink text allowed hthere) rfl⟩

theorem moveTo_fate (hg : t.Grounded) (hnode : Spelled t.root node) (htarget : target.Legible)
    (hp : p.endsInEntry = false) (hno : o ≠ .directory) (h : t.files.object? p = some o) :
    Edit.Leaves (moveTo node target) t fun t' => Fate t node p o (.moveTo target) t'.files := by
  refine .look (fun _ _ => .kept h) ?_
  rintro ⟨up, r⟩ hdest
  obtain ⟨hroot, hfile, -, hleaf, hnone⟩ := destination_eq_ok hdest
  have hr := legible_of_leaf hleaf htarget
  have hne : node ≠ t.root := by
    rintro rfl
    simp [isRoot] at hroot
  obtain ⟨nodeUp, s, stem, hs, rfl⟩ := hnode.eq_child hne
  refine .bind (fun _ t₁ hrun => .kept ((spares_ensureDirectory up).after ⟨hg, h⟩ hrun).there)
    fun _ t₁ hrun₁ => ?_
  have hready := ready_of_ensureDirectory hg hr hnone hrun₁
  have h₁ : Spares p o t₁ := (spares_ensureDirectory up).after ⟨hg, h⟩ hrun₁
  refine .look (fun _ _ => .kept h₁.there) fun oldUp _ => ?_
  refine .bind (fun _ t₂ hrun => .kept (onFiles_eq_error hrun ▸ h₁.there)) fun _ t₂ hrun₂ => ?_
  obtain ⟨hrename₂, -⟩ := onFiles_eq_ok hrun₂
  obtain ⟨hplace, hnew, hrest⟩ := hready.renameFile hg hr hs hfile hrename₂
  have h₂ : Spares p o t₂ := ⟨hready.grounded.rename hrename₂, (hrest p hp).trans h₁.there⟩
  refine leaves_glance fun there hthere => ?_
  subst hthere
  refine .ifThen (fun _ _ t₃ hrun => .kept (onFiles_eq_error hrun ▸ h₂.there))
    (Bound t (nodeUp.child s stem) p o (.moveTo target)) (fun hdir t₃ hrun₃ => ?_)
    (fun _ => ⟨p, o, h₂, hp, hno, fun _ => .kept⟩) fun t₃ h₃ => ?_
  · refine bound_of_renameDirectory h₂ hp hno hdest hdir
      (fun dir hdir => ⟨hplace dir hdir, fun text allowed hlink => ?_⟩) hnew (onFiles_eq_ok hrun₃).1
    rw [hrest dir ((FileSystem.endsInEntry_place hdir).trans (endsInEntry_dir _ _))] at hlink
    exact hready.old _ _ hlink (by simp)
  · -- the steps that are left write files anew and remove a directory
    obtain ⟨q, o', hspared, hq, ho', hfate⟩ := h₃
    refine hfate _ (Maintains.bind (spares_renameSubtree hq
      (endsInEntry_ldif (parse_fileStem hr) up.dir)) (fun _ => ?_) t₃ hspared).there
    cases oldUp with
    | none => exact .pure _
    | some old => exact .bind (spares_pruneDirectory ho' old) fun _ => .pure _

/-! ## Calls -/

/-- The file of the root stands beside its directory. -/
theorem ne_place_root_ldif (htop : t.root.Top) (hg : files.Grounded)
    (hp : Path.isBelow t.root.dir p = true) (h : files.object? p = some o) {q : Path}
    (hplace : files.place t.root.ldif = .ok q) : p ≠ q := by
  obtain ⟨l, hl, rfl⟩ := Path.isBelow_iff.mp hp
  obtain ⟨name, name', up, hdir, hldif, -⟩ := htop.exists_eq
  have hup : files.object? up = some .directory := by
    refine Classical.byContradiction fun hup => ?_
    rw [hdir, ← List.singleton_append, ← List.append_assoc,
      hg.eq_none_of_ne hup (l ++ [name]) (by simp)] at h
    cases h
  rw [hldif] at hplace
  obtain ⟨d, left, rfl, -, hlead⟩ := FileSystem.place_cons_eq_ok hplace
  cases (FileSystem.lead_of_directory hup).symm.trans hlead
  intro he
  have hlen := congrArg List.length he
  have hpos := List.length_pos_iff.mpr hl
  rw [hdir] at hlen
  simp only [List.length_cons, List.length_append] at hlen
  omega

/-- All calls but moves leave alone what is not an entry's. -/
theorem call_spares (hg : t.Grounded) (htop : t.root.Top) (hnode : Spelled t.root node) {c : Call}
    (hc : c.Legible) (hmove : ∀ target, c ≠ .moveTo target)
    (h : Foreign t.root.dir t.files p o) : Spares p o ((Tree.call node c).run t).2 := by
  have hne : ∀ {files : FileSystem linked} {q}, files.Grounded → files.object? p = some o →
      files.place node.ldif = .ok q → p ≠ q := by
    intro files q hg hthere hplace
    rcases hnode.endsInEntry with rfl | hentry
    · exact ne_place_root_ldif htop hg h.below hthere hplace
    · exact ne_of_endsInEntry h.name ((FileSystem.endsInEntry_place hplace).trans hentry)
  have hkeep : Maintains (Spares p o) (Tree.call node c) := by
    cases c with
    | addChild r attrs => exact .bind (spares_addChild h.name node hc attrs) fun _ => .pure _
    | deleteChild r => exact spares_deleteChild h.name h.notDirectory node r
    | delete =>
        refine .bind (.look _) fun d => .bind (.look _) fun up => ?_
        cases up with
        | none => exact .fail _
        | some up =>
            exact .bind (.ofExcept _) fun r => spares_deleteChild h.name h.notDirectory up r
    | setAttributes attrs => exact spares_setAttributes hne attrs
    | modify edits =>
        refine .bind (.look _) fun found => ?_
        split
        · exact .fail _
        · exact spares_setAttributes hne _
    | moveTo target => exact absurd rfl (hmove target)
  exact hkeep t ⟨hg, h.there⟩

/-- After a call, whether it fails or not, a foreign file is as it was, where it was or where a move
    of the node takes what is at or below its directory, unless that directory is a link and the
    move puts the link in the place of the file.  A move that succeeds comes to the node whose
    directory this is. -/
theorem foreign_spared (hg : t.Grounded) (htop : t.root.Top) (hnode : Spelled t.root node)
    {c : Call} (hc : c.Legible) (h : Foreign t.root.dir t.files p o) :
    Fate t node p o c ((Tree.call node c).run t).2.files ∧
    ∀ target m, ((DirectoryTree.moveTo node target).run t).1 = .ok m →
      ∃ up r, t.destination node target = .ok (up, r) ∧ m = up.child r (fileStem r) := by
  refine ⟨?_, fun target m => child_of_moveTo⟩
  cases c with
  | moveTo target =>
      have hsnd : ((Tree.call node (.moveTo target)).run t).2 = ((moveTo node target).run t).2 :=
        Edit.snd_discard t (moveTo node target)
      rw [hsnd]
      exact moveTo_fate hg hnode hc h.name h.notDirectory h.there
  | _ => exact .kept (call_spares hg htop hnode hc nofun h).there

/-- The file of an entry is empty, and in its directory stands a file that no entry is called by. -/
def annotated : FileTree where
  files := FileSystem.empty.put ["d"] .directory
    |>.put ["ou=p.ldif", "d"] (.file [])
    |>.put ["ou=p.dir", "d"] .directory
    |>.put ["notes.txt", "ou=p.dir", "d"] (.file [0x21])
  root := ⟨⟨[Rdn.single "dc" "x"]⟩, ["d.ldif"], ["d"]⟩

/-- The move of the entry fails when its file and its directory have gone. -/
theorem foreign_spared_annotated :
    let after := (Tree.call damagedEntry damagedMove).run annotated
    annotated.Grounded ∧ annotated.root.Top ∧ Spelled annotated.root damagedEntry ∧
      damagedMove.Legible ∧
      Foreign ["d"] annotated.files ["notes.txt", "ou=p.dir", "d"] (.file [0x21]) ∧
      after.1 = .error (.noEntry ["ou=q.ldif", "d"]) ∧
      Fate annotated damagedEntry ["notes.txt", "ou=p.dir", "d"] (.file [0x21]) damagedMove
        after.2.files ∧
      after.2.files.object? ["notes.txt", "ou=q.dir", "d"] = some (.file [0x21]) := by
  intro after
  have hg : annotated.Grounded := FileSystem.grounded_iff.mpr (by decide +kernel)
  have htop : annotated.root.Top := by rfl
  have hnode : Spelled annotated.root damagedEntry := .child (by decide +kernel) .root
  have hc : damagedMove.Legible :=
    (by decide : Dn.Legible ⟨[Rdn.single "ou" "q", Rdn.single "dc" "x"]⟩)
  have hp : Foreign ["d"] annotated.files ["notes.txt", "ou=p.dir", "d"] (.file [0x21]) :=
    ⟨by decide +kernel, by decide +kernel, nofun, by decide +kernel⟩
  exact ⟨hg, htop, hnode, hc, hp, by decide +kernel, (foreign_spared hg htop hnode hc hp).1,
    by decide +kernel⟩

/-- A file stands where the link would go by a move. -/
def crossed : FileTree true where
  files := redirected.files.put ["cn=b.dir", "d"] (.file [0x21])
  root := redirected.root

/-- Where there are links, a foreign file may be lost that is not below the directory of the node,
if that directory is a link itself. -/
theorem link_replaces_foreign :
    ¬ ∀ (t : FileTree true) (node : FileNode) (c : Call) (p : Path) (content : Bytes),
      t.Grounded → t.root.Top → Spelled t.root node → c.Legible →
      Foreign t.root.dir t.files p (.file content) →
      ((Tree.call node c).run t).2.files.object? p = some (.file content) ∨
        Path.isBelow node.dir p = true := by
  intro hall
  have hg : crossed.Grounded := FileSystem.grounded_iff.mpr (by decide +kernel)
  have hnode : Spelled crossed.root (crossed.root.child (Rdn.single "cn" "a") "cn=a") :=
    .child (by decide +kernel) .root
  have hc : Dn.Legible ⟨[Rdn.single "cn" "b", Rdn.single "dc" "x"]⟩ := by decide
  rcases hall crossed _ (.moveTo _) ["cn=b.dir", "d"] [0x21] hg (by rfl) hnode hc
    ⟨by decide +kernel, by decide +kernel, nofun, by decide +kernel⟩ with hthere | hbelow
  · exact absurd hthere (by decide +kernel)
  · exact absurd hbelow (by decide)

end FileTree
end DirectoryStore
