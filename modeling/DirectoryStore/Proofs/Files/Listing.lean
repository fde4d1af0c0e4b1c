import DirectoryStore.Proofs.Files.Tidy
import DirectoryStore.Proofs.Name.Order

/-!
# Directories listed in any order

An operating system lists the names in a directory in any order.  The children of a node are put in
the order of their names, and where no two files in a directory stand for the same name this leaves
nothing to chance.  What is below a name is an interval of the order of names, so a walk, which goes
through one child after the other, meets all nodes in the order of their names.
-/

namespace DirectoryStore

variable {base : Path} {fs : FileSystem} {node : FileNode} {names : List String}

/-- A tree in files together with the order in which each directory is listed. -/
structure ListedTree where
  tree : FileTree
  /-- The names in a directory, as they are listed. -/
  listing : Path → List String
  perm : ∀ dir, (listing dir).Perm (tree.files.names dir)

namespace ListedTree

/-- The nodes in the directory of a node. -/
def childNodes (v : ListedTree) (node : FileNode) : List FileNode :=
  if v.tree.files.isDirectory node.dir then FileTree.childrenNamed node (v.listing node.dir)
  else []

instance : TreeView ListedTree FileNode where
  root v := v.tree.root
  dn _ node := .ok node.dn
  entry v := v.tree.entry
  parent v := v.tree.parent
  children v node := .ok (v.childNodes node)
  child v node r := .ok ((v.childNodes node).find? fun c => c.dn.leaf?.any (·.same r))
  height _ := FileSystem.pathLimit

end ListedTree

/-! ## Names in a directory -/

/-- No name is listed twice. -/
theorem FileSystem.nodup_names (fs : FileSystem) (dir : Path) : (fs.names dir).Nodup := by
  rw [names_self, namesAt, List.nodup_iff_pairwise_ne, List.pairwise_reverse]
  refine (Rising.pairwise_ne fs.rising).filterMap _ ?_
  rintro ⟨p, o⟩ ⟨q, o'⟩ hne name hp name' hq rfl
  refine hne ?_
  dsimp only at hp hq ⊢
  split at hp
  · split at hq
    · grind
    · cases hq
  · cases hp

namespace FileTree

/-- Where names are apart, files in one directory stand for different children. -/
theorem pairwise_children (h : Apart base fs) (hdir : base <:+ node.dir)
    (hnames : names.Perm (fs.names node.dir)) :
    (names.filterMap (childOfName? node)).Pairwise fun a b => a.dn.key ≠ b.dn.key := by
  have hnodup : names.Nodup := hnames.nodup_iff.mpr (fs.nodup_names node.dir)
  have hthere : ∀ name ∈ names, fs.object? (name :: node.dir) ≠ none := fun name hname =>
    Option.ne_none_iff_exists'.mpr (FileSystem.mem_names.mp (hnames.subset hname))
  rw [List.pairwise_filterMap]
  refine hnodup.imp_of_mem fun {name name'} hname hname' hne c hc c' hc' hkey => hne ?_
  obtain ⟨r, stem, rfl, hr, rfl⟩ := childOfName?_eq_some_iff.mp hc
  obtain ⟨s, stem', rfl, hs, rfl⟩ := childOfName?_eq_some_iff.mp hc'
  have hsame : r.same s = true := (Tree.same_child_iff.mp (Dn.same_iff.mpr hkey)).2
  rw [h hdir hr hs hsame (hthere _ hname) (hthere _ hname')]

/-- So the children rise, in whatever order their files are listed. -/
theorem childrenNamed_rising (h : Apart base fs) (hdir : base <:+ node.dir)
    (hnames : names.Perm (fs.names node.dir)) :
    Rising (fun c => c.dn.key) (childrenNamed node names) := by
  have hle : (childrenNamed node names).Pairwise fun a b => (a.dn.compare b.dn).isLE = true :=
    Dn.ordered_mergeSort FileNode.dn _
  have hne : (childrenNamed node names).Pairwise fun a b => a.dn.key ≠ b.dn.key :=
    ((List.mergeSort_perm _ _).pairwise_iff fun hab => hab.symm).mpr
      (pairwise_children h hdir hnames)
  refine (hle.and hne).imp fun {a b} hab => ?_
  rcases Std.lt_trichotomy a.dn.key b.dn.key with hlt | he | hgt
  · exact hlt
  · exact absurd he hab.2
  · exact absurd hgt (Dn.isLE_compare.mp hab.1)

end FileTree

/-! ## Children and walks -/

namespace ListedTree

variable {v : ListedTree}

/-- The order of a listing decides nothing about children. -/
theorem childNodes_eq (h : Apart base v.tree.files) (hdir : base <:+ node.dir) :
    v.childNodes node = v.tree.childNodes node := by
  rw [childNodes, FileTree.childNodes]
  split
  · refine Rising.ext (FileTree.childrenNamed_rising h hdir (v.perm node.dir))
      (FileTree.childrenNamed_rising h hdir (.refl _)) fun c => ?_
    simp only [FileTree.childrenNamed, List.mem_mergeSort, List.mem_filterMap, (v.perm _).mem_iff]
  · rfl

/-- Nor about walks. -/
theorem preorder_eq (h : Apart v.tree.root.dir v.tree.files) (depth : Nat)
    (hnode : Issued v.tree.root node) :
    Tree.preorder v depth node = Tree.preorder v.tree depth node := by
  induction depth generalizing node with
  | zero => rfl
  | succ depth ih =>
      have hchildren : TreeView.children v node = TreeView.children v.tree node :=
        congrArg Except.ok (childNodes_eq h hnode.dir_suffix)
      have hbelow : Tree.gather (Tree.preorder v depth) (v.tree.childNodes node) =
          Tree.gather (Tree.preorder v.tree depth) (v.tree.childNodes node) :=
        Tree.gather_congr fun c hc => ih (FileTree.issued_of_mem_childNodes hnode hc)
      have hfound : TreeView.children v.tree node = .ok (v.tree.childNodes node) := rfl
      simp only [Tree.preorder, hchildren, hfound, hbelow]

end ListedTree

namespace FileTree

variable {t : FileTree}

theorem childNodes_rising (h : Apart base t.files) (hdir : base <:+ node.dir) :
    Rising (fun c => c.dn.key) (t.childNodes node) := by
  rw [childNodes]
  split
  · exact childrenNamed_rising h hdir (.refl _)
  · exact List.Pairwise.nil

/-- What walks from siblings in order meet is in order. -/
theorem rising_flatMap {children : List FileNode} {walk : FileNode → List FileNode}
    (hchildren : Rising (fun c => c.dn.key) children)
    (hkey : ∀ c ∈ children, ∃ r : Rdn, c.dn.key = node.dn.key ++ [r.key])
    (hwalk : ∀ c ∈ children, Rising (fun x => x.dn.key) (walk c) ∧
      ∀ x ∈ walk c, c.dn.key <+: x.dn.key) :
    Rising (fun x => x.dn.key) (children.flatMap walk) := by
  refine List.pairwise_flatMap.mpr ⟨fun c hc => (hwalk c hc).1, ?_⟩
  refine hchildren.imp_of_mem fun {c c'} hc hc' hlt x hx y hy => ?_
  -- siblings have names of one length, so their order is that of all below them
  have hlen : c.dn.key.length = c'.dn.key.length := by
    obtain ⟨r, hr⟩ := hkey c hc
    obtain ⟨s, hs⟩ := hkey c' hc'
    rw [hr, hs, List.length_append, List.length_append]
    rfl
  exact lt_of_prefixed hlen hlt ((hwalk c hc).2 x hx) ((hwalk c' hc').2 y hy)

/-- A walk meets nodes in the order of their names, all at or below the one that it starts from. -/
theorem preorder_rising (h : Apart t.root.dir t.files) (depth : Nat) (hnode : Issued t.root node) :
    ∃ l, Tree.preorder t depth node = .ok l ∧ Rising (fun x => x.dn.key) l ∧
      ∀ x ∈ l, node.dn.key <+: x.dn.key := by
  induction depth generalizing node with
  | zero =>
      refine ⟨[node], rfl, List.pairwise_singleton _ _, fun x hx => ?_⟩
      obtain rfl := List.mem_singleton.mp hx
      exact List.prefix_refl _
  | succ depth ih =>
      obtain ⟨walk, hgather, hwalk⟩ := Tree.exists_gather fun c hc =>
        ih (issued_of_mem_childNodes hnode hc)
      have hkey : ∀ c ∈ t.childNodes node, ∃ r : Rdn, c.dn.key = node.dn.key ++ [r.key] := by
        intro c hc
        obtain ⟨r, stem, rfl, -⟩ := exists_of_mem_childNodes hc
        exact ⟨r, Dn.key_child node.dn r⟩
      have hbelow : ∀ x ∈ (t.childNodes node).flatMap walk,
          ∃ r : Rdn, node.dn.key ++ [r.key] <+: x.dn.key := by
        intro x hx
        obtain ⟨c, hc, hx⟩ := List.mem_flatMap.mp hx
        obtain ⟨r, hr⟩ := hkey c hc
        exact ⟨r, hr ▸ (hwalk c hc).2 x hx⟩
      have hfound : TreeView.children t node = .ok (t.childNodes node) := rfl
      refine ⟨node :: (t.childNodes node).flatMap walk,
        by simp only [Tree.preorder, hfound, hgather],
        List.pairwise_cons.mpr ⟨fun x hx => ?_, ?_⟩, fun x hx => ?_⟩
      · obtain ⟨r, hr⟩ := hbelow x hx
        exact lt_of_append_prefix hr
      · exact rising_flatMap (childNodes_rising h hnode.dir_suffix) hkey hwalk
      · rcases List.mem_cons.mp hx with rfl | hx
        · exact List.prefix_refl _
        · obtain ⟨r, hr⟩ := hbelow x hx
          exact (List.prefix_append _ _).trans hr

/-! ## Trees that calls have led to -/

/-- Whatever calls have led to a tree on a directory that was empty, names in it are apart. -/
theorem apart_afterCalls {files : FileSystem} {path : Path} {config : Config}
    {calls : List (FileNode × Call)} (hg : files.Grounded)
    (hopen : openAt files path config = .ok t) (hvacant : t.Vacant)
    (hcalls : ∀ x ∈ calls, Spelled t.root x.1 ∧ x.2.Legible) :
    (Tree.afterCalls calls t).root = t.root ∧
      Apart t.root.dir (Tree.afterCalls calls t).files := by
  obtain ⟨hdn, htop⟩ := root_of_openAt hopen
  have hg' := grounded_openAt hg hopen
  have hrun : Stepped (fun _ => True) t.root t.files (Tree.afterCalls calls t) :=
    .afterCalls trivial hg' htop (Config.legible_rootDn hdn)
      fun x hx => ⟨(hcalls x hx).1, (hcalls x hx).2.brings⟩
  exact ⟨hrun.root_eq, hvacant.apart.steps hg' hrun.steps⟩

/-- In a tree that calls have led to, a walk from a node meets the same nodes in the same order,
    whatever the order in which directories are listed, and their names rise strictly. -/
theorem subtree_ordered {files : FileSystem} {path : Path} {config : Config}
    {calls : List (FileNode × Call)} (hg : files.Grounded)
    (hopen : openAt files path config = .ok t) (hvacant : t.Vacant)
    (hcalls : ∀ x ∈ calls, Spelled t.root x.1 ∧ x.2.Legible) (hnode : Issued t.root node) :
    ∃ l, Tree.subtree (Tree.afterCalls calls t) node = .ok l ∧
      (∀ v : ListedTree, v.tree = Tree.afterCalls calls t → Tree.subtree v node = .ok l) ∧
      l.Pairwise fun x y => x.dn.compare y.dn = .lt := by
  obtain ⟨hroot, hapart⟩ := apart_afterCalls hg hopen hvacant hcalls
  rw [← hroot] at hapart hnode
  obtain ⟨l, hl, hrising, -⟩ := preorder_rising hapart FileSystem.pathLimit hnode
  refine ⟨l, hl, fun v hv => ?_, hrising.imp Dn.compare_eq_lt_iff.mpr⟩
  rw [← hv] at hapart hnode hl
  exact (ListedTree.preorder_eq hapart _ hnode).trans hl

/-- Calls that add two children, and one below the second. -/
def siblingCalls (root : FileNode) : List (FileNode × Call) :=
  [(root, .addChild (.single "cn" "b") .empty),
   (root, .addChild (.single "CN" "a") .empty),
   (root.down [.single "CN" "a"], .addChild (.single "ou" "z") .empty)]

theorem subtree_ordered_reversed :
    ∃ t, openAt .empty [] ⟨"t", "dc=x"⟩ = .ok t ∧
      let t' := Tree.afterCalls (siblingCalls t.root) t
      let v : ListedTree := ⟨t', fun dir => (t'.files.names dir).reverse,
        fun dir => List.reverse_perm (t'.files.names dir)⟩
      t'.files.names t.root.dir = ["cn=b.ldif", "CN=a.ldif", "CN=a.dir"] ∧
        ∃ l, Tree.subtree t' t.root = .ok l ∧ Tree.subtree v t.root = .ok l ∧
          l.Pairwise fun x y => x.dn.compare y.dn = .lt := by
  obtain ⟨t, hopen, hvacant, hnames⟩ : ∃ t, openAt .empty [] ⟨"t", "dc=x"⟩ = .ok t ∧ t.Vacant ∧
      (Tree.afterCalls (siblingCalls t.root) t).files.names t.root.dir =
        ["cn=b.ldif", "CN=a.ldif", "CN=a.dir"] := by
    refine ⟨⟨FileSystem.empty.put ["t"] .directory, ⟨⟨[.single "dc" "x"]⟩, ["t.ldif"], ["t"]⟩⟩, ?_⟩
    decide +kernel
  have hcalls : ∀ x ∈ siblingCalls t.root, Spelled t.root x.1 ∧ x.2.Legible := by
    have hbelow : Spelled t.root (t.root.down [.single "CN" "a"]) :=
      .child (by decide +kernel) .root
    have hb : (Rdn.single "cn" "b").Legible := by decide +kernel
    have ha : (Rdn.single "CN" "a").Legible := by decide +kernel
    have hz : (Rdn.single "ou" "z").Legible := by decide +kernel
    rw [siblingCalls, List.forall_mem_cons, List.forall_mem_cons, List.forall_mem_singleton]
    exact ⟨⟨.root, hb⟩, ⟨.root, ha⟩, hbelow, hz⟩
  obtain ⟨l, hl, hlisted, hordered⟩ :=
    subtree_ordered FileSystem.grounded_empty hopen hvacant hcalls .root
  exact ⟨t, hopen, hnames, l, hl, hlisted _ rfl, hordered⟩

end FileTree
end DirectoryStore
