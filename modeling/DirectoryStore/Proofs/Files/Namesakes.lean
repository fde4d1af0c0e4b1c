import DirectoryStore.Proofs.Files.Sparing
import DirectoryStore.Proofs.Files.Tidy
import Mathlib.Data.List.Find

/-!
# Files of one name

Files that other programs put into a directory may stand for one relative name in several spellings.
Then the nodes in the directory have the same name, which leads to the first of them alone, and to
what is below that one, and a deletion removes the file of the first, whichever node it was asked
for.  So handles mean their own files just where siblings have different names.
-/

namespace DirectoryStore

namespace FileSystem

variable {fs fs' : FileSystem} {p q : Path}

/-- There is a file at a path, and this is its content. -/
def HasFile (p : Path) (content : Bytes) (fs : FileSystem) : Prop :=
  fs.object? p = some (.file content)

/-- A file is gone, and apart from that the files are as they were. -/
structure Loses (p : Path) (fs fs' : FileSystem) : Prop where
  there : ∃ content, HasFile p content fs
  rest : ∀ q content, HasFile q content fs' ↔ HasFile q content fs ∧ q ≠ p

namespace Loses

theorem of_removeFile (h : fs.removeFile p = .ok fs') : Loses p fs fs' := by
  obtain ⟨⟨text, hfile⟩, rfl⟩ := removeFile_eq_ok h
  have hp : p ≠ [] := by
    rintro rfl
    cases hfile
  refine ⟨⟨text, hfile⟩, fun q content => ⟨fun hq => ⟨object?_of_removeIf hq, ?_⟩, ?_⟩⟩
  · rintro rfl
    rw [HasFile, object?_removeIf, if_pos ⟨hp, beq_self_eq_true q⟩] at hq
    cases hq
  · rintro ⟨hq, hne⟩
    exact object?_remove_of_ne hq hne

/-- A directory that goes as well is no file. -/
theorem removeDirectory {fs'' : FileSystem} (h : Loses p fs fs')
    (hr : fs'.removeDirectory q = .ok fs'') : Loses p fs fs'' := by
  refine ⟨h.there, fun q' content => ?_⟩
  rw [← h.rest]
  refine ⟨fun hq' => ?_, fun hq' => object?_removeDirectory hq' nofun hr⟩
  obtain ⟨-, rfl⟩ := removeDirectory_eq_ok hr
  exact object?_of_removeIf hq'

end Loses
end FileSystem

open FileSystem (HasFile)

theorem Issued.contains {root node : FileNode} (h : Issued root node) :
    root.dn.contains node.dn = true := by
  induction h with
  | root => exact Dn.contains_refl _
  | child r stem _ ih => exact Dn.contains_trans ih (Dn.contains_child _ r)

namespace FileTree

open FileSystem (Loses)

variable {t t' : FileTree} {node up c c' found : FileNode} {r s : Rdn} {stem : String}
variable {d d' : Dn} {n : Nat}

/-- The nodes in the directory of a node have different names. -/
def Distinct (t : FileTree) (node : FileNode) : Prop :=
  ∀ c ∈ t.childNodes node, ∀ c' ∈ t.childNodes node, c.dn.same c'.dn = true → c = c'

/-- The first node of a name in the directory of a node. -/
def named? (t : FileTree) (up : FileNode) (d : Dn) : Option FileNode :=
  (t.childNodes up).find? fun c => c.dn.same d

/-- The first of a node and its siblings that have its name. -/
def First (t : FileTree) (node found : FileNode) : Prop :=
  ∃ up, t.parent node = .ok (some up) ∧ t.named? up node.dn = some found

/-- A node that is the first of its name, as all nodes above it are. -/
inductive Leading (t : FileTree) : FileNode → Prop where
  | root : Leading t t.root
  | child {up node : FileNode} :
      Leading t up → t.parent node = .ok (some up) → t.First node node → Leading t node

/-- The name of a handle leads back to it, and to delete it removes the file that it stands for. -/
structure MeansOwnFile (t : FileTree) (node : FileNode) : Prop where
  lookup : Tree.lookup t t.root node.dn = .ok node
  delete : ∀ t', (Tree.delete node).run t = (.ok (), t') → Loses node.ldif t.files t'.files

/-- What a handle means whatever the files are: its name leads back to it just if it and all nodes
    above it are the first of their names, and to delete it removes the file of the first node of
    its name, which is no file of its own unless it is that node. -/
structure MeansFirstFile (t : FileTree) (node : FileNode) : Prop where
  lookup_iff : Tree.lookup t t.root node.dn = .ok node ↔ t.Leading node
  delete : ∀ t', (Tree.delete node).run t = (.ok (), t') → ∃ found, t.First node found ∧
    Loses found.ldif t.files t'.files ∧ (found.ldif = node.ldif ↔ found = node)

/-! ## The first of a name -/

theorem named?_congr (h : d.same d' = true) : t.named? up d = t.named? up d' := by
  have hkey := Dn.same_iff.mp h
  simp only [named?, Dn.same, hkey]

theorem mem_of_named? (h : t.named? up d = some found) :
    found ∈ t.childNodes up ∧ found.dn.same d = true := by
  have hname := List.find?_some h
  exact ⟨List.mem_of_find?_eq_some h, hname⟩

theorem named?_of_distinct (h : t.Distinct up) (hc : c ∈ t.childNodes up) :
    t.named? up c.dn = some c := by
  cases hfound : t.named? up c.dn with
  | none => exact absurd (Dn.same_refl c.dn) (List.find?_eq_none.mp hfound c hc)
  | some found =>
      obtain ⟨hmem, hsame⟩ := mem_of_named? hfound
      rw [h found hmem c hc hsame]

/-- A child is looked for by its relative name, but there its whole name tells no more. -/
theorem childNode?_eq (up : FileNode) (r : Rdn) :
    t.childNode? up r = t.named? up (up.dn.child r) := by
  refine List.find?_congr fun c hc => ?_
  obtain ⟨s, stem, rfl, -⟩ := exists_of_mem_childNodes hc
  have hsame : ((up.child s stem).dn.same (up.dn.child r) = true) ↔ s.same r = true :=
    Tree.same_child_iff.trans (and_iff_right (Dn.same_refl up.dn))
  exact Bool.eq_iff_iff.mpr hsame.symm

theorem first_child_iff (hup : Issued t.root up) :
    t.First (up.child r stem) found ↔ t.childNode? up r = some found := by
  rw [childNode?_eq]
  constructor
  · rintro ⟨up', hparent, hfirst⟩
    cases (parent_child hup r stem).symm.trans hparent
    exact hfirst
  · exact fun hfirst => ⟨up, parent_child hup r stem, hfirst⟩

/-! ## Names that lead back -/

theorem lookup_child_iff (hup : Issued t.root up) :
    Tree.lookup t t.root (up.dn.child r) = .ok c ↔
      ∃ up', Tree.lookup t t.root up.dn = .ok up' ∧ t.childNode? up' r = some c := by
  have hdn : TreeView.dn t t.root = .ok t.root.dn := rfl
  have hchild : ∀ up', TreeView.child t up' r = .ok (some c) ↔ t.childNode? up' r = some c :=
    fun _ => ⟨Except.ok.inj, congrArg Except.ok⟩
  rw [Tree.lookup_child_eq_ok_iff hdn hup.contains]
  exact exists_congr fun up' => and_congr_right fun _ => hchild up'

theorem lookup_of_leading (h : t.Leading node) : Tree.lookup t t.root node.dn = .ok node := by
  induction h with
  | root => exact Tree.lookup_self rfl
  | @child up node _ hparent hfirst ih =>
      have hup := issued_of_lookup .root ih
      obtain ⟨up', hparent', hfound⟩ := hfirst
      cases hparent.symm.trans hparent'
      obtain ⟨r, stem, rfl, -⟩ := exists_of_mem_childNodes (mem_of_named? hfound).1
      exact (lookup_child_iff hup).mpr ⟨up, ih, (childNode?_eq up r).trans hfound⟩

theorem leading_of_lookup (hnode : Issued t.root node)
    (h : Tree.lookup t t.root node.dn = .ok node) : t.Leading node := by
  induction hnode with
  | root => exact .root
  | @child up r stem hup ih =>
      obtain ⟨up', hlookup, hfirst⟩ := (lookup_child_iff hup).mp h
      have hup' := issued_of_lookup .root hlookup
      -- the child has one parent, wherever it was found
      obtain ⟨s, stem', hchild, -⟩ :=
        exists_of_mem_childNodes (List.mem_of_find?_eq_some hfirst)
      have hparent := parent_child hup r stem
      rw [hchild, parent_child hup' s stem'] at hparent
      cases hparent
      exact .child (ih hlookup) (parent_child hup r stem) ((first_child_iff hup).mpr hfirst)

theorem leading_of_distinct (hdistinct : ∀ n node, Tree.Level t n node → t.Distinct node)
    (h : Tree.Level t n node) : t.Leading node := by
  induction h with
  | root => exact .root
  | child hup hbelow hc ih =>
      cases hbelow
      obtain ⟨r, stem, rfl, -⟩ := exists_of_mem_childNodes hc
      have hparent := parent_child (issued_of_level hup).1 r stem
      exact .child ih hparent ⟨_, hparent, named?_of_distinct (hdistinct _ _ hup) hc⟩

/-- Where all names lead back, siblings have different names. -/
theorem distinct_of_lookup
    (hlookup : ∀ n node, Tree.Level t n node → Tree.lookup t t.root node.dn = .ok node)
    (h : Tree.Level t n node) : t.Distinct node := by
  have hissued := (issued_of_level h).1
  have hfirst : ∀ c ∈ t.childNodes node, t.named? node c.dn = some c := by
    intro c hc
    have hback := hlookup _ _ (h.child rfl hc)
    obtain ⟨r, stem, rfl, -⟩ := exists_of_mem_childNodes hc
    obtain ⟨up, hup, hfound⟩ := (lookup_child_iff hissued).mp hback
    cases hup.symm.trans (hlookup _ _ h)
    exact (childNode?_eq node r).symm.trans hfound
  intro c hc c' hc' hsame
  have hc := hfirst c hc
  rw [named?_congr hsame, hfirst c' hc'] at hc
  exact (Option.some.inj hc).symm

/-! ## Deletions -/

theorem loses_pruneDirectory {fs : FileSystem} {p : Path} (node : FileNode) :
    Edit.Maintains (fun t => Loses p fs t.files) (pruneDirectory node) := by
  refine .bind (.look _) fun empty => ?_
  split
  · exact onFiles_maintains fun h hr => h.removeDirectory hr
  · exact .pure _

theorem deleteChild_eq_ok (h : (deleteChild up r).run t = (.ok (), t')) :
    ∃ found, t.childNode? up r = some found ∧ Loses found.ldif t.files t'.files := by
  obtain ⟨found, hfound, h⟩ := Edit.look_eq_ok h
  cases found with
  | none => cases h
  | some found =>
      refine ⟨found, Except.ok.inj hfound, ?_⟩
      obtain ⟨inner, -, h⟩ := Edit.look_eq_ok h
      cases inner with
      | true => cases h
      | false =>
          obtain ⟨_, t₁, hremove, h⟩ := Edit.bind_eq_ok h
          have hloses := Loses.of_removeFile (onFiles_eq_ok hremove).1
          -- what follows removes directories only
          have hrest : Edit.Maintains (fun t₁ : FileTree => Loses found.ldif t.files t₁.files) (do
              if ← glance fun t => t.files.isDirectory found.dir then
                onFiles fun files => files.removeDirectory found.dir
              pruneDirectory up) :=
            .bind (.look _) fun _ => .ifThen
              (onFiles_maintains fun h hr => h.removeDirectory hr)
              fun _ => loses_pruneDirectory up
          exact hrest.after hloses h

theorem run_delete_child (hup : Issued t.root up) (r : Rdn) (stem : String) :
    (Tree.delete (up.child r stem)).run t = (deleteChild up r).run t := by
  have hparent : TreeView.parent t (up.child r stem) = .ok (some up) := parent_child hup r stem
  have hdn : TreeView.dn t (up.child r stem) = .ok (up.dn.child r) := rfl
  have hleaf : Tree.leaf (up.dn.child r) = .ok r := rfl
  simp only [Tree.delete, Edit.run_bind, Edit.run_look, Edit.run_ofExcept, hparent, hdn, hleaf]
  rfl

/-- To delete a node removes the file of the first of its name. -/
theorem delete_eq_ok (hnode : Issued t.root node)
    (h : (Tree.delete node).run t = (.ok (), t')) :
    ∃ found, t.First node found ∧ Loses found.ldif t.files t'.files := by
  cases hnode with
  | root =>
      have hparent : TreeView.parent t t.root = .ok none := parent_root t
      have hdn : TreeView.dn t t.root = .ok t.root.dn := rfl
      simp only [Tree.delete, Edit.run_bind, Edit.run_look, hparent, hdn] at h
      cases h
  | child r stem hup =>
      rw [run_delete_child hup] at h
      obtain ⟨found, hfound, hloses⟩ := deleteChild_eq_ok h
      exact ⟨found, (first_child_iff hup).mpr hfound, hloses⟩

/-- Among siblings the file tells the node. -/
theorem ldif_eq_iff (hup : Issued t.root up) (hc : c ∈ t.childNodes up) (h : t.First c found) :
    found.ldif = c.ldif ↔ found = c := by
  refine ⟨fun hldif => ?_, fun he => he ▸ rfl⟩
  obtain ⟨r, stem, rfl, hr, -⟩ := exists_of_mem_childNodes hc
  obtain ⟨up', hparent, hfound⟩ := h
  cases (parent_child hup r stem).symm.trans hparent
  obtain ⟨s, stem', rfl, hs, -⟩ := exists_of_mem_childNodes (mem_of_named? hfound).1
  obtain rfl : stem' = stem := append_suffix_inj (List.cons.inj hldif).1
  cases hs.symm.trans hr
  rfl

/-! ## What handles mean -/

theorem meansFirstFile_of_level (h : Tree.Level t n node) : t.MeansFirstFile node where
  lookup_iff := ⟨leading_of_lookup (issued_of_level h).1, lookup_of_leading⟩
  delete := by
    intro t' hdelete
    obtain ⟨found, hfirst, hloses⟩ := delete_eq_ok (issued_of_level h).1 hdelete
    refine ⟨found, hfirst, hloses, ?_⟩
    cases h with
    | root =>
        obtain ⟨up, hparent, -⟩ := hfirst
        cases (parent_root t).symm.trans hparent
    | child hup hbelow hc =>
        cases hbelow
        exact ldif_eq_iff (issued_of_level hup).1 hc hfirst

theorem First.eq_self (h : t.First node found) (hleading : t.Leading node) : found = node := by
  cases hleading with
  | root =>
      obtain ⟨up, hparent, -⟩ := h
      cases (parent_root t).symm.trans hparent
  | child _ _ hself =>
      obtain ⟨up, hparent, hfound⟩ := h
      obtain ⟨up', hparent', hnode⟩ := hself
      cases hparent.symm.trans hparent'
      exact Option.some.inj (hfound.symm.trans hnode)

/-- A handle that its name leads back to means its own file. -/
theorem MeansFirstFile.meansOwnFile (h : t.MeansFirstFile node) (hleading : t.Leading node) :
    t.MeansOwnFile node where
  lookup := h.lookup_iff.mpr hleading
  delete := by
    intro t' hdelete
    obtain ⟨found, hfirst, hloses, -⟩ := h.delete t' hdelete
    rwa [hfirst.eq_self hleading] at hloses

/-- What the handles of a tree mean, whatever its files are: each means the first file of its name,
    and all mean their own just if siblings have different names. -/
theorem meansOwnFile_iff_distinct (htop : t.root.Top) :
    ∃ nodes, Tree.subtree t t.root = .ok nodes ∧ (∀ node ∈ nodes, t.MeansFirstFile node) ∧
      ((∀ node ∈ nodes, t.MeansOwnFile node) ↔ ∀ node ∈ nodes, t.Distinct node) := by
  obtain ⟨nodes, hnodes, hmem⟩ :=
    Tree.subtree_of_levels (t := t) (fun _ => ⟨_, rfl⟩) (level_le htop)
  have hmeans : ∀ node ∈ nodes, t.MeansFirstFile node := by
    intro node hnode
    obtain ⟨n, hlevel⟩ := (hmem node).mp hnode
    exact meansFirstFile_of_level hlevel
  refine ⟨nodes, hnodes, hmeans, fun hown node hnode => ?_, fun hdistinct node hnode => ?_⟩
  · obtain ⟨n, hlevel⟩ := (hmem node).mp hnode
    exact distinct_of_lookup (fun m x hx => (hown x ((hmem x).mpr ⟨m, hx⟩)).lookup) hlevel
  · obtain ⟨n, hlevel⟩ := (hmem node).mp hnode
    refine (hmeans node hnode).meansOwnFile (leading_of_distinct (fun m x hx => ?_) hlevel)
    exact hdistinct x ((hmem x).mpr ⟨m, hx⟩)

/-- Two files of one name, in two spellings. -/
def twofold : FileTree where
  files := FileSystem.empty.put ["d"] .directory
    |>.put ["cn=a.ldif", "d"] (.file (utf8 "dn: cn=a,dc=x\n\n"))
    |>.put ["cn=\\61.ldif", "d"] (.file (utf8 "dn: cn=a,dc=x\n\n"))
  root := ⟨⟨[Rdn.single "dc" "x"]⟩, ["d.ldif"], ["d"]⟩

/-- The handle of one of the two files. -/
def twofoldNode (stem : String) : FileNode :=
  twofold.root.child (Rdn.single "cn" "a") stem

theorem childNodes_twofold :
    twofold.childNodes twofold.root = [twofoldNode "cn=a", twofoldNode "cn=\\61"] := by
  have hdir : twofold.files.isDirectory twofold.root.dir = true := by decide +kernel
  have hnamed : (twofold.files.names twofold.root.dir).filterMap (childOfName? twofold.root) =
      [twofoldNode "cn=a", twofoldNode "cn=\\61"] := by decide +kernel
  rw [childNodes, if_pos hdir, childrenNamed, hnamed]
  exact List.mergeSort_of_pairwise (by decide +kernel)

theorem childNode?_twofold :
    twofold.childNode? twofold.root (Rdn.single "cn" "a") = some (twofoldNode "cn=a") := by
  rw [childNode?, childNodes_twofold]
  decide +kernel

theorem subtree_twofold : Tree.subtree twofold twofold.root =
    .ok [twofold.root, twofoldNode "cn=a", twofoldNode "cn=\\61"] := by
  have hroot : TreeView.children twofold twofold.root = .ok _ :=
    congrArg Except.ok childNodes_twofold
  have hleaf : ∀ stem ∈ ["cn=a", "cn=\\61"],
      TreeView.children twofold (twofoldNode stem) = .ok [] := by decide +kernel
  have hheight : TreeView.height twofold = 4082 + 1 + 1 := rfl
  simp [Tree.subtree, hheight, Tree.preorder, hroot, hleaf, Tree.gather]

theorem meansOwnFile_iff_distinct_twofold :
    let nodes := [twofold.root, twofoldNode "cn=a", twofoldNode "cn=\\61"]
    twofold.root.Top ∧ Tree.subtree twofold twofold.root = .ok nodes ∧
      (∀ node ∈ nodes, twofold.MeansFirstFile node) ∧
      ((∀ node ∈ nodes, twofold.MeansOwnFile node) ↔ ∀ node ∈ nodes, twofold.Distinct node) := by
  intro nodes
  have htop : twofold.root.Top := by rfl
  obtain ⟨found, hfound, hmeans⟩ := meansOwnFile_iff_distinct (t := twofold) htop
  cases subtree_twofold.symm.trans hfound
  exact ⟨htop, subtree_twofold, hmeans⟩

/-- Both files are listed, but they have one name, it leads to the first of them, and to delete the
    second removes the file of the first. -/
theorem second_deletes_first :
    let first := twofoldNode "cn=a"
    let second := twofoldNode "cn=\\61"
    Tree.subtree twofold twofold.root = .ok [twofold.root, first, second] ∧
      ¬ twofold.Distinct twofold.root ∧
      Tree.lookup twofold twofold.root second.dn = .ok first ∧ first ≠ second ∧
      ((Tree.delete second).run twofold).1 = .ok () ∧
      Loses first.ldif twofold.files ((Tree.delete second).run twofold).2.files := by
  intro first second
  have hne : first ≠ second := by decide
  have hdistinct : ¬ twofold.Distinct twofold.root := by
    intro h
    rw [Distinct, childNodes_twofold] at h
    exact hne (h first (by simp [first]) second (by simp [second]) (Dn.same_refl _))
  have hlookup : Tree.lookup twofold twofold.root second.dn = .ok first :=
    (lookup_child_iff .root).mpr ⟨twofold.root, Tree.lookup_self rfl, childNode?_twofold⟩
  have hdelete : (Tree.delete second).run twofold =
      (deleteChild twofold.root (Rdn.single "cn" "a")).run twofold := run_delete_child .root _ _
  have hrun : ((Tree.delete second).run twofold).1 = .ok () := by
    rw [hdelete, deleteChild, Edit.run_bind, glance, Edit.run_look, childNode?_twofold]
    decide +kernel
  obtain ⟨found, hfound, hloses⟩ := deleteChild_eq_ok (hdelete.symm.trans (Prod.ext hrun rfl))
  cases childNode?_twofold.symm.trans hfound
  exact ⟨subtree_twofold, hdistinct, hlookup, hne, hrun, hloses⟩

end FileTree
end DirectoryStore
