import DirectoryStore.Ldif.Reader
import DirectoryStore.Ldif.Writer
import DirectoryStore.Tree.Contract

/-!
# Trees in files

A tree of directories holds one LDIF file for each entry.  The file of an entry is called
by its relative name with the suffix `.ldif`, and what is below the entry stands in the
directory beside it with the suffix `.dir`.  That directory is made for the first child and
goes with the last one.  Nothing is remembered between operations: each reads the files
anew.

What does not look like a part of the tree is left alone, but a directory with anything in
it keeps its entry from being deleted.  Files and directories may be symbolic links to others where
the file system is `linked`; without that word there are none, as in a tree that has been built by
calls alone.
-/

namespace DirectoryStore

/-- The suffix of the file of an entry. -/
def ldifSuffix : String := ".ldif"

/-- The suffix of the directory of what is below an entry. -/
def dirSuffix : String := ".dir"

/-- A name without a suffix that it ends with. -/
def stripSuffix? (suffix name : String) : Option String :=
  if suffix.toList.isSuffixOf name.toList then
    some (String.ofList (name.toList.take (name.toList.length - suffix.toList.length)))
  else none

/-- The written form of a relative name as a file name: a slash becomes an escape that reads
    back as a slash. -/
def fileStem (r : Rdn) : String :=
  String.ofList (r.chars.flatMap fun c => if c = '/' then ['\\', '2', 'F'] else [c])

/-- The file beside a directory. -/
def ldifBeside? : Path → Option Path
  | [] => none
  | name :: up => some (((stripSuffix? dirSuffix name).getD name ++ ldifSuffix) :: up)

/-- The relative name that a file or directory name stands for. -/
def rdnOfName? (name : String) : Option Rdn := do
  let stem ← (stripSuffix? dirSuffix name).or (stripSuffix? ldifSuffix name)
  (Rdn.parse stem).toOption

/-- The name of the entry that names from the directory of `base` on, the outermost first,
    lead to. -/
def dnBelow? (base : Dn) : List String → Option Dn
  | [] => some base
  | name :: names =>
      match rdnOfName? name with
      | none => none
      | some r => dnBelow? (base.child r) names

/-- A handle: a name, and the two paths that belong to it. -/
structure FileNode where
  dn : Dn
  ldif : Path
  dir : Path
deriving DecidableEq, Repr

/-- The handle of a child, whose file and directory are called by `stem`. -/
def FileNode.child (node : FileNode) (r : Rdn) (stem : String) : FileNode :=
  ⟨node.dn.child r, (stem ++ ldifSuffix) :: node.dir, (stem ++ dirSuffix) :: node.dir⟩

variable {linked : Bool}

/-- The only entry of a file. -/
def readEntry (files : FileSystem linked) (path : Path) : Except TreeError Entry :=
  match files.readText path with
  | .error fault => .error (.io fault)
  | .ok text =>
      match Ldif.parseEntries text with
      | .error e => .error (.ldif e)
      | .ok [] => .error (.noEntry path)
      | .ok [e] => .ok e
      | .ok (_ :: _ :: _) => .error (.severalEntries path)

/-- A tree in files: the file system, and the handle of the root. -/
structure FileTree (linked : Bool := false) where
  files : FileSystem linked
  root : FileNode
deriving DecidableEq

namespace FileTree

/-- Whether a handle is that of the root. -/
def isRoot (t : FileTree linked) (node : FileNode) : Bool :=
  node.dir = t.root.dir

/-- The entry of a node.  The root may lack its file and then has no attributes. -/
def entry (t : FileTree linked) (node : FileNode) : Except TreeError Entry :=
  match readEntry t.files node.ldif with
  | .ok e => .ok ⟨node.dn, e.attributes⟩
  | .error (.io .notFound) =>
      if t.isRoot node then .ok ⟨node.dn, .empty⟩ else .error (.notFound node.dn)
  | .error e => .error e

/-- The node in whose directory a node stands. -/
def parent (t : FileTree linked) (node : FileNode) : Except TreeError (Option FileNode) :=
  if t.isRoot node then .ok none
  else match node.ldif with
    | [] => .error (.missingDirectory node.ldif)
    | _ :: dir =>
        if dir = t.root.dir then .ok (some t.root)
        else match Tree.above node.dn with
          | .error e => .error e
          | .ok up =>
              match ldifBeside? dir with
              | none => .error (.missingDirectory node.ldif)
              | some ldif => .ok (some ⟨up, ldif, dir⟩)

/-- The child that stands in a directory under a name, if it is the name of an entry file. -/
def childOfName? (node : FileNode) (name : String) : Option FileNode :=
  match stripSuffix? ldifSuffix name with
  | none => none
  | some stem =>
      match Rdn.parse stem with
      | .error _ => none
      | .ok r => some (node.child r stem)

/-- The children that the names in a directory stand for, in the order of the names of their
    entries.  The order in which a file system lists a directory decides only between files
    that stand for the same name. -/
def childrenNamed (node : FileNode) (names : List String) : List FileNode :=
  (names.filterMap (childOfName? node)).mergeSort fun a b => a.dn.le b.dn

/-- The nodes in the directory of a node. -/
def childNodes (t : FileTree linked) (node : FileNode) : List FileNode :=
  if t.files.isDirectory node.dir then childrenNamed node (t.files.names node.dir) else []

/-- The child of the given relative name. -/
def childNode? (t : FileTree linked) (node : FileNode) (r : Rdn) : Option FileNode :=
  (t.childNodes node).find? fun c => c.dn.leaf?.any (·.same r)

instance : TreeView (FileTree linked) FileNode where
  root := root
  dn _ node := .ok node.dn
  entry := entry
  parent := parent
  children t node := .ok (t.childNodes node)
  child t node r := .ok (t.childNode? node r)
  -- A path that has more names than it may have bytes cannot be followed.
  height _ := FileSystem.pathLimit

/-- Carries out an operation on the files. -/
def onFiles (f : FileSystem linked → Except FileFault (FileSystem linked)) :
    Edit (FileTree linked) Unit :=
  Edit.change fun t =>
    match f t.files with
    | .ok files => .ok ((), { t with files })
    | .error fault => .error (.io fault)

/-- Looks at the tree, which cannot fail. -/
def glance {α : Type} (f : FileTree linked → α) : Edit (FileTree linked) α :=
  Edit.look fun t => .ok (f t)

/-- Writes the record of an entry into its file. -/
def writeEntry (path : Path) (e : Entry) : Edit (FileTree linked) Unit :=
  onFiles fun files => files.write path (utf8 e.ldif)

/-- Makes the directory of a node if it is missing.  A node without a file gets none. -/
def ensureDirectory (node : FileNode) : Edit (FileTree linked) Unit := do
  if ← glance fun t => t.files.isDirectory node.dir then return ()
  else if ← glance fun t => !t.isRoot node && !t.files.isFile node.ldif then
    Edit.fail (.missingDirectory node.dir)
  else Edit.change fun t =>
    match t.files.makeDirectory node.dir with
    | .ok files => .ok ((), { t with files })
    | .error .notFound => .error (.missingDirectory node.dir)
    | .error fault => .error (.io fault)

/-- Removes the directory of a node if nothing is in it any more; the root keeps its own. -/
def pruneDirectory (node : FileNode) : Edit (FileTree linked) Unit := do
  if ← glance fun t => !t.isRoot node && t.files.isEmptyDirectory node.dir then
    onFiles fun files => files.removeDirectory node.dir
  else return ()

/-- Adds a child. -/
def addChild (node : FileNode) (r : Rdn) (attributes : AttributeMap) :
    Edit (FileTree linked) FileNode := do
  match ← glance fun t => t.childNode? node r with
  | some _ => Edit.fail (.alreadyExists (node.dn.child r))
  | none => do
      ensureDirectory node
      let added := node.child r (fileStem r)
      writeEntry added.ldif ⟨added.dn, attributes⟩
      return added

/-- Deletes a child whose directory is missing or empty. -/
def deleteChild (node : FileNode) (r : Rdn) : Edit (FileTree linked) Unit := do
  match ← glance fun t => t.childNode? node r with
  | none => Edit.fail (.notFound (node.dn.child r))
  | some found => do
      if ← glance fun t =>
          t.files.isDirectory found.dir && !t.files.isEmptyDirectory found.dir then
        Edit.fail (.notLeaf found.dn)
      else do
        onFiles fun files => files.removeFile found.ldif
        if ← glance fun t => t.files.isDirectory found.dir then
          onFiles fun files => files.removeDirectory found.dir
        pruneDirectory node

/-- Replaces the attributes of a node; only the root may lack its file. -/
def setAttributes (node : FileNode) (attributes : AttributeMap) : Edit (FileTree linked) Unit := do
  if ← glance fun t => !t.isRoot node && !t.files.isFile node.ldif then
    Edit.fail (.notFound node.dn)
  else writeEntry node.ldif ⟨node.dn, attributes⟩

/-- Writes the entry of a file anew under another name. -/
def renameEntry (path : Path) (d : Dn) : Edit (FileTree linked) Unit := do
  let e ← Edit.look fun t : FileTree linked => readEntry t.files path
  writeEntry path ⟨d, e.attributes⟩

/-- Writes the files at the given places below a directory anew, under the names that their
    paths stand for.  Files whose paths stand for no name are left alone. -/
def renameEntries (dir : Path) (base : Dn) : List (List String) → Edit (FileTree linked) Unit
  | [] => pure ()
  | place :: places => do
      match dnBelow? base place with
      | some d => renameEntry (place.reverse ++ dir) d
      | none => pure ()
      renameEntries dir base places

/-- The place of an object below a directory, if it is an entry file. -/
def entryFile? (o : List String × FileObject linked) : Option (List String) :=
  match o.2, o.1.getLast? with
  | .file _, some name => if (stripSuffix? ldifSuffix name).isSome then some o.1 else none
  | _, _ => none

/-- The places of the entry files below a directory, the last in order first, as directories
    list their names. -/
def entryFiles (files : FileSystem linked) (dir : Path) : List (List String) :=
  (files.below dir).reverse.filterMap entryFile?

/-- Writes the entry of a node and all below it anew, under the names that they have now. -/
def renameSubtree (node : FileNode) : Edit (FileTree linked) Unit := do
  renameEntry node.ldif node.dn
  if ← glance fun t => t.files.isDirectory node.dir then
    renameEntries node.dir node.dn (← glance fun t => entryFiles t.files node.dir)

/-- The new parent and the new relative name for a move, if the move is possible. -/
def destination (t : FileTree linked) (node : FileNode) (target : Dn) :
    Except TreeError (FileNode × Rdn) := do
  if t.isRoot node then .error (.rootStays node.dn)
  else if node.dn.same target then .error (.alreadyExists target)
  else if node.dn.contains target then .error (.invalidMove node.dn target)
  else if !t.files.isFile node.ldif then .error (.notFound node.dn)
  else
    let up ← Tree.lookup t t.root (← Tree.above target)
    let r ← Tree.leaf target
    if (t.childNode? up r).isSome then .error (.alreadyExists target) else .ok (up, r)

/-- Moves a node to another name: its file, its directory, and the names in all files below. -/
def moveTo (node : FileNode) (target : Dn) : Edit (FileTree linked) FileNode := do
  let (up, r) ← Edit.look fun t => t.destination node target
  ensureDirectory up
  let oldUp ← Edit.look fun t => t.parent node
  let moved := up.child r (fileStem r)
  onFiles fun files => files.rename node.ldif moved.ldif
  if ← glance fun t => t.files.isDirectory node.dir then
    onFiles fun files => files.rename node.dir moved.dir
  renameSubtree moved
  match oldUp with
  | some old => pruneDirectory old
  | none => pure ()
  return moved

instance : DirectoryTree (FileTree linked) FileNode where
  addChild := addChild
  deleteChild := deleteChild
  setAttributes := setAttributes
  moveTo := moveTo

end FileTree
end DirectoryStore
