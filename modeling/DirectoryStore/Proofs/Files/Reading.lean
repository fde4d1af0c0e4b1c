import DirectoryStore.Proofs.Files.Keeping
import DirectoryStore.Proofs.Tree.Content

/-!
# Reading a tree in files

Between operations a directory stands exactly where there are children, and every file bears
the name of its place.  Such a tree shows the contents that its files keep: entries, parents,
children by relative name, and nodes by name.  The file of the root stands beside the directory
of the tree and may hold anything; only the entry of the root depends on it.
-/

namespace DirectoryStore

open FileSystem (Fits)

variable {files : FileSystem} {root : FileNode} {c : Contents} {filed : Filing}
variable {dirs : List Rdn → Prop} {rs : List Rdn} {r s : Rdn} {d : Dn} {a : AttributeMap}
variable {top : AttributeMap → FileObject}

/-- The handle of the root of a tree that can be used. -/
structure FileNode.Rooted (root : FileNode) : Prop where
  top : root.Top
  short : FileSystem.fits root.dir.text = true
  legible : root.dn.Legible

/-- What stands in the files of a tree between operations: entries under the names of their
    places, and `top` for the root. -/
def FileNode.filing (root : FileNode) (top : AttributeMap → FileObject) : Filing
  | [] => top
  | r :: rs => record (root.down (r :: rs)).dn

/-- A tree whose files keep contents, between operations, with `top` for the file of the root. -/
structure FileTree.Houses (t : FileTree) (top : AttributeMap → FileObject) (c : Contents) :
    Prop where
  rooted : t.root.Rooted
  proper : c.Proper
  keeps : Keeps t.files t.root c (t.root.filing top) c.Opens
  fits : ∀ {r rs a}, c (r :: rs) = some a → Fits (t.root.down (r :: rs)).ldif

/-- A tree whose files keep contents, that of the root among them. -/
structure FileTree.Stores (t : FileTree) (c : Contents) : Prop
    extends t.Houses (record t.root.dn) c where
  reachable : Fits t.root.ldif

/-! ## Entries -/

theorem readEntry_of_read {path : Path} (h : files.read path = .ok (utf8 (Entry.ldif ⟨d, a⟩)))
    (hd : d.Legible) (ha : a.Writable) : readEntry files path = .ok ⟨d, a⟩ := by
  have htext : files.readText path = .ok (Entry.ldif ⟨d, a⟩) := by
    simp only [FileSystem.readText, h, bind, Except.bind, Utf8.text?_utf8]
  have hparse : Ldif.parseEntries (Entry.ldif ⟨d, a⟩) = .ok [⟨d, a⟩] :=
    Ldif.parseEntries_ldif hd ha
  simp only [readEntry, htext, hparse]

theorem readEntry_of_error {path : Path} {fault : FileFault} (h : files.read path = .error fault) :
    readEntry files path = .error (.io fault) := by
  have htext : files.readText path = .error fault := by
    simp only [FileSystem.readText, h, bind, Except.bind]
  simp only [readEntry, htext]

/-- The file of a node stands in a directory. -/
theorem Keeps.exists_ldif (h : Keeps files root c filed dirs) (htop : root.Top)
    (hrs : ∀ x ∈ rs, x.Legible) (hup : ∀ r qs, rs = r :: qs → dirs qs) :
    ∃ name dir, (root.down rs).ldif = name :: dir ∧ files.object? dir = some .directory := by
  cases rs with
  | nil =>
      obtain ⟨name, name', up, hdir, hldif, -⟩ := htop.exists_eq
      obtain ⟨w, hw, -⟩ := h
      have habove := hw.above
      rw [hdir, List.tail_cons] at habove
      exact ⟨name', up, hldif, habove⟩
  | cons r qs =>
      exact ⟨_, _, rfl, h.directory (List.forall_mem_cons.mp hrs).2 (hup r qs rfl)⟩

namespace FileNode

theorem down_dir_eq_iff (root : FileNode) (rs : List Rdn) :
    (root.down rs).dir = root.dir ↔ rs = [] := by
  rw [down_dir, List.append_left_eq_self, List.map_eq_nil_iff]

theorem down_legible (hroot : root.dn.Legible) (hrs : ∀ x ∈ rs, x.Legible) :
    (root.down rs).dn.Legible := by
  intro x hx
  rw [down_dn] at hx
  rcases List.mem_append.mp hx with hx | hx
  · exact hrs x hx
  · exact hroot x hx

end FileNode

namespace FileTree

variable {t : FileTree}

theorem isRoot_down (t : FileTree) (rs : List Rdn) :
    t.isRoot (t.root.down rs) = true ↔ rs = [] := by
  rw [isRoot, decide_eq_true_eq, FileNode.down_dir_eq_iff]

theorem isRoot_down_cons (t : FileTree) (r : Rdn) (rs : List Rdn) :
    t.isRoot (t.root.down (r :: rs)) = false :=
  Bool.eq_false_iff.mpr (mt (isRoot_down t _).mp (List.cons_ne_nil _ _))

theorem parent_root (t : FileTree) : t.parent t.root = .ok none :=
  if_pos ((isRoot_down t []).mpr rfl)

theorem parent_down (htop : t.root.Top) (r : Rdn) (rs : List Rdn) :
    t.parent (t.root.down (r :: rs)) = .ok (some (t.root.down rs)) := by
  have hroot : ¬ t.isRoot (t.root.down (r :: rs)) = true := by
    rw [isRoot_down]
    simp
  have habove : Tree.above (t.root.down (r :: rs)).dn = .ok (t.root.down rs).dn := rfl
  rw [parent, if_neg hroot, FileNode.down_ldif]
  cases rs with
  | nil => exact if_pos rfl
  | cons s rs =>
      have hne : ¬ (t.root.down (s :: rs)).dir = t.root.dir := by
        rw [FileNode.down_dir_eq_iff]
        simp
      simp only [if_neg hne, habove, ldifBeside?_down htop]

namespace Houses

theorem legible (h : t.Houses top c) (hrs : c.Has rs) : ∀ x ∈ rs, x.Legible :=
  h.proper.has_legible hrs

theorem exists_ldif (h : t.Houses top c) (hrs : c.Has rs) :
    ∃ name dir, (t.root.down rs).ldif = name :: dir ∧
      t.files.object? dir = some .directory := by
  refine h.keeps.exists_ldif h.rooted.top (h.legible hrs) ?_
  intro r qs he
  subst he
  rcases hrs with hnil | ⟨a, ha⟩
  · cases hnil
  · exact .inr ⟨r, a, ha⟩

/-- The entry below the root has the name of its place and the attributes of its file. -/
theorem entry_eq (h : t.Houses top c) (hrs : c (r :: rs) = some a) :
    t.entry (t.root.down (r :: rs)) = .ok ⟨(t.root.down (r :: rs)).dn, a⟩ := by
  have hhas : c.Has (r :: rs) := .inr ⟨a, hrs⟩
  have hlegible := h.legible hhas
  have hfits := h.fits hrs
  have hfile := h.keeps.file hlegible
  have hdir := h.keeps.directory (List.forall_mem_cons.mp hlegible).2 (.inr ⟨r, a, hrs⟩)
  rw [FileNode.down_ldif] at hfits hfile
  rw [hrs, Option.map_some] at hfile
  have hread := readEntry_of_read (FileSystem.read_of_file hdir hfits hfile)
    (FileNode.down_legible h.rooted.legible hlegible) (h.proper.writable hrs)
  rw [entry, FileNode.down_ldif, hread]

/-! ## Children -/

theorem isFile (h : t.Houses top c) (hrs : c (r :: rs) = some a) :
    t.files.isFile (t.root.down (r :: rs)).ldif = true := by
  have hfile := h.keeps.file (h.legible (.inr ⟨a, hrs⟩))
  rw [hrs, Option.map_some, FileNode.filing, record] at hfile
  rw [FileSystem.isFile, FileSystem.home_eq, hfile]
  exact (h.fits hrs).1

theorem isFile_missing (h : t.Houses top c) (hrs : ∀ x ∈ r :: rs, x.Legible)
    (hno : c (r :: rs) = none) : t.files.isFile (t.root.down (r :: rs)).ldif = false := by
  have hfile := h.keeps.file hrs
  rw [hno, Option.map_none] at hfile
  rw [FileSystem.isFile, FileSystem.home_eq, hfile]

theorem isDirectory_iff (h : t.Houses top c) (hrs : ∀ x ∈ rs, x.Legible) :
    t.files.isDirectory (t.root.down rs).dir = true ↔ c.Opens rs := by
  rw [FileSystem.isDirectory_iff]
  constructor
  · intro hd
    refine Classical.byContradiction fun hno => ?_
    rw [h.keeps.noDirectory hrs hno] at hd
    cases hd.2
  · intro hopen
    refine ⟨?_, h.keeps.directory hrs hopen⟩
    rcases hopen with rfl | ⟨r, a, ha⟩
    · exact h.rooted.short
    · exact FileSystem.fits_of_cons (h.fits ha).1

theorem mem_childNodes (h : t.Houses top c) (hrs : ∀ x ∈ rs, x.Legible) {node : FileNode} :
    node ∈ t.childNodes (t.root.down rs) ↔
      ∃ r a, c (r :: rs) = some a ∧ node = t.root.down (r :: rs) := by
  rw [childNodes]
  by_cases hopen : c.Opens rs
  · rw [if_pos ((h.isDirectory_iff hrs).mpr hopen), childrenNamed, List.mem_mergeSort,
      List.mem_filterMap]
    constructor
    · intro hmem
      obtain ⟨name, hname, hnode⟩ := hmem
      obtain ⟨o, ho⟩ := FileSystem.mem_names.mp hname
      obtain ⟨r, hr, ⟨rfl, a, ha⟩ | ⟨rfl, -⟩⟩ :=
        h.keeps.name_cases h.rooted.top hrs ho
      · rw [childOfName?, fileName, stripSuffix?_append] at hnode
        simp only [parse_fileStem hr, Option.some.injEq] at hnode
        exact ⟨r, a, ha, hnode.symm⟩
      · rw [childOfName?, dirName, stripSuffix?_ldif_dir] at hnode
        cases hnode
    · intro hmem
      obtain ⟨r, a, ha, rfl⟩ := hmem
      have hhas : c.Has (r :: rs) := .inr ⟨a, ha⟩
      have hfile := h.keeps.file (h.legible hhas)
      rw [ha, Option.map_some, FileNode.down_ldif] at hfile
      exact ⟨fileName r, FileSystem.mem_names.mpr ⟨_, hfile⟩,
        childOfName?_eq_some_iff.mpr ⟨r, _, rfl, parse_fileStem (h.proper.legible ha), rfl⟩⟩
  · rw [if_neg (mt (h.isDirectory_iff hrs).mp hopen)]
    constructor
    · intro hmem
      cases hmem
    · intro hmem
      obtain ⟨r, a, ha, -⟩ := hmem
      exact absurd (.inr ⟨r, a, ha⟩) hopen

theorem childNode?_eq_some (h : t.Houses top c) (hs : c (s :: rs) = some a)
    (hsame : s.same r = true) :
    t.childNode? (t.root.down rs) r = some (t.root.down (s :: rs)) := by
  have hrs := h.legible (h.proper.closed hs)
  have hmem := (h.mem_childNodes hrs).mpr ⟨s, a, hs, rfl⟩
  cases hf : t.childNode? (t.root.down rs) r with
  | none =>
      have hno := List.find?_eq_none.mp hf _ hmem
      exact absurd hsame hno
  | some node =>
      have hp := List.find?_some hf
      obtain ⟨s', a', hs', rfl⟩ := (h.mem_childNodes hrs).mp (List.mem_of_find?_eq_some hf)
      have hsame' : s'.same r = true := hp
      have hss : s.same s' = true :=
        Rdn.same_iff.mpr ((Rdn.same_iff.mp hsame).trans (Rdn.same_iff.mp hsame').symm)
      rw [h.proper.distinct hs hs' hss]

theorem childNode?_eq_none (h : t.Houses top c) (hrs : ∀ x ∈ rs, x.Legible)
    (hno : ∀ s a, c (s :: rs) = some a → s.same r = false) :
    t.childNode? (t.root.down rs) r = none := by
  rw [childNode?, List.find?_eq_none]
  intro node hmem
  obtain ⟨s, a, hs, rfl⟩ := (h.mem_childNodes hrs).mp hmem
  have hfalse : (t.root.down (s :: rs)).dn.leaf?.any (·.same r) = false := hno s a hs
  rw [hfalse]
  exact Bool.false_ne_true

/-! ## Nodes by name -/

theorem descend_of_has (h : t.Houses top c) (target : Dn) {ls ms : List Rdn}
    (hkeys : ls.map Rdn.key = ms.map Rdn.key) (hhas : c.Has (ms.reverse ++ rs)) :
    Tree.descend t target ls (t.root.down rs) = .ok (t.root.down (ms.reverse ++ rs)) := by
  induction ms generalizing ls rs with
  | nil =>
      rw [List.map_nil, List.map_eq_nil_iff] at hkeys
      rw [hkeys]
      rfl
  | cons m ms ih =>
      cases ls with
      | nil => cases hkeys
      | cons l ls =>
          rw [List.map_cons, List.map_cons, List.cons.injEq] at hkeys
          have heq : (m :: ms).reverse ++ rs = ms.reverse ++ m :: rs := by simp
          rw [heq] at hhas ⊢
          obtain ⟨a, ha⟩ : ∃ a, c (m :: rs) = some a :=
            (h.proper.has_of_append hhas).resolve_left (List.cons_ne_nil _ _)
          have hchild : TreeView.child t (t.root.down rs) l =
              .ok (some (t.root.down (m :: rs))) :=
            congrArg Except.ok (h.childNode?_eq_some ha (Rdn.same_iff.mpr hkeys.1.symm))
          simp only [Tree.descend, hchild]
          exact ih hkeys.2 hhas

theorem descend_eq_error (h : t.Houses top c) (target : Dn) {ls : List Rdn} (hrs : c.Has rs)
    (hno : ∀ ms : List Rdn, ls.map Rdn.key = ms.map Rdn.key → ¬ c.Has (ms.reverse ++ rs)) :
    Tree.descend t target ls (t.root.down rs) = .error (.notFound target) := by
  induction ls generalizing rs with
  | nil => exact absurd hrs (hno [] rfl)
  | cons l ls ih =>
      by_cases hex : ∃ s a, c (s :: rs) = some a ∧ s.same l = true
      · obtain ⟨s, a, hs, hsame⟩ := hex
        have hchild : TreeView.child t (t.root.down rs) l =
            .ok (some (t.root.down (s :: rs))) :=
          congrArg Except.ok (h.childNode?_eq_some hs hsame)
        simp only [Tree.descend, hchild]
        refine ih (.inr ⟨a, hs⟩) ?_
        intro ms hms hhas
        refine hno (s :: ms) ?_ (by simpa using hhas)
        rw [List.map_cons, List.map_cons, hms, Rdn.same_iff.mp hsame]
      · have hnone : ∀ s a, c (s :: rs) = some a → s.same l = false := by
          intro s a hs
          rw [Bool.eq_false_iff]
          exact fun hsame => hex ⟨s, a, hs, hsame⟩
        have hchild : TreeView.child t (t.root.down rs) l = .ok none :=
          congrArg Except.ok (h.childNode?_eq_none (h.legible hrs) hnone)
        simp only [Tree.descend, hchild]

theorem same_down_iff (t : FileTree) {ls : List Rdn} (hrel : t.root.dn.relative? d = some ls) :
    (t.root.down rs).dn.same d = true ↔ ls.reverse.map Rdn.key = rs.reverse.map Rdn.key := by
  rw [FileNode.down_dn, Dn.same_iff, Dn.same_iff.mp (Dn.same_of_relative? hrel), Dn.key_append,
    Dn.key_append, List.append_cancel_left_eq, List.map_reverse, List.map_reverse]
  exact eq_comm

/-- A name leads to the node that bears it. -/
theorem lookup_eq_ok (h : t.Houses top c) (hrs : c.Has rs)
    (hsame : (t.root.down rs).dn.same d = true) :
    Tree.lookup t t.root d = .ok (t.root.down rs) := by
  have hdn : TreeView.dn t t.root = .ok t.root.dn := rfl
  cases hrel : t.root.dn.relative? d with
  | none =>
      have hcontains : t.root.dn.contains d = true := by
        rw [Dn.contains_iff, ← Dn.same_iff.mp hsame, FileNode.down_dn, Dn.key_append]
        exact List.prefix_append _ _
      rw [Dn.relative?_eq_none_iff.mp hrel] at hcontains
      cases hcontains
  | some ls =>
      have hkeys := (same_down_iff t hrel).mp hsame
      have hdown := h.descend_of_has d hkeys
        (show c.Has (rs.reverse.reverse ++ []) by simpa using hrs)
      simp only [List.reverse_reverse, List.append_nil] at hdown
      simp only [Tree.lookup, hdn, hrel]
      exact hdown

/-- A name that no node bears is not found. -/
theorem lookup_eq_error (h : t.Houses top c)
    (hno : ∀ rs, c.Has rs → (t.root.down rs).dn.same d = false) :
    Tree.lookup t t.root d = .error (.notFound d) := by
  have hdn : TreeView.dn t t.root = .ok t.root.dn := rfl
  cases hrel : t.root.dn.relative? d with
  | none => simp only [Tree.lookup, hdn, hrel]
  | some ls =>
      simp only [Tree.lookup, hdn, hrel]
      refine h.descend_eq_error d (show c.Has [] from .inl rfl) ?_
      intro ms hms hhas
      rw [List.append_nil] at hhas
      have hsame := hno _ hhas
      rw [(same_down_iff t hrel).mpr (by rwa [List.reverse_reverse])] at hsame
      cases hsame

/-- Either a node bears a name, and the name leads to it, or no node does. -/
theorem lookup_cases (h : t.Houses top c) (d : Dn) :
    (∃ rs, c.Has rs ∧ (t.root.down rs).dn.same d = true ∧
      Tree.lookup t t.root d = .ok (t.root.down rs)) ∨
    Tree.lookup t t.root d = .error (.notFound d) := by
  by_cases hex : ∃ rs, c.Has rs ∧ (t.root.down rs).dn.same d = true
  · obtain ⟨rs, hrs, hsame⟩ := hex
    exact .inl ⟨rs, hrs, hsame, h.lookup_eq_ok hrs hsame⟩
  · refine .inr (h.lookup_eq_error fun rs hrs => ?_)
    rw [Bool.eq_false_iff]
    exact fun hsame => hex ⟨rs, hrs, hsame⟩

theorem entryAt?_eq_none (h : t.Houses top c)
    (hno : ∀ rs, c.Has rs → (t.root.down rs).dn.same d = false) : Tree.entryAt? t d = none := by
  have hroot : TreeView.root t = t.root := rfl
  simp only [Tree.entryAt?, hroot, h.lookup_eq_error hno]

end Houses

namespace Stores

/-- The entry of a node has the name of its place and the attributes of its file; the root may
    lack its file. -/
theorem entry_eq (h : t.Stores c) (hrs : c.Has rs) :
    t.entry (t.root.down rs) = .ok ⟨(t.root.down rs).dn, (c rs).getD .empty⟩ := by
  cases rs with
  | cons r rs =>
      obtain ⟨a, ha⟩ := hrs.resolve_left (List.cons_ne_nil _ _)
      rw [h.toHouses.entry_eq ha, ha]
      rfl
  | nil =>
      obtain ⟨name, dir, hldif, hdir⟩ := h.exists_ldif hrs
      have hfits : Fits (t.root.down []).ldif := h.reachable
      have hfile := h.keeps.file (h.legible hrs)
      rw [hldif] at hfits hfile
      rw [entry, hldif]
      cases hc : c [] with
      | none =>
          rw [hc, Option.map_none] at hfile
          rw [readEntry_of_error (FileSystem.read_of_none hdir hfits hfile)]
          exact if_pos ((isRoot_down t []).mpr rfl)
      | some a =>
          rw [hc, Option.map_some] at hfile
          rw [readEntry_of_read (FileSystem.read_of_file hdir hfits hfile) h.rooted.legible
            (h.proper.writable hc)]
          rfl

theorem entryAt?_eq_some (h : t.Stores c) (hrs : c.Has rs)
    (hsame : (t.root.down rs).dn.same d = true) :
    Tree.entryAt? t d = some ⟨(t.root.down rs).dn, (c rs).getD .empty⟩ := by
  have hlookup := h.lookup_eq_ok hrs hsame
  have hentry : TreeView.entry t (t.root.down rs) = .ok _ := h.entry_eq hrs
  have hroot : TreeView.root t = t.root := rfl
  simp only [Tree.entryAt?, hroot, hlookup, hentry, Except.toOption]

end Stores
end FileTree
end DirectoryStore
