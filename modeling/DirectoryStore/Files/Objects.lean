import DirectoryStore.Attribute.Rising
import DirectoryStore.Files.Path
import DirectoryStore.Text.Utf8

/-!
# Objects of a file system

Files, directories and symbolic links by path.  A file system whose type does not say that it is
`linked` has no links: calls on a tree make none, so where a tree starts from an empty directory
there never are any.  The objects are kept in the order of their paths, so two file systems with
the same objects are equal.

Left out are special files, several names for one file, rights to files and the times of them, and
names that are not Unicode.
-/

namespace DirectoryStore

/-- What a path may lead to.  A link holds the text of the path that it leads to. -/
inductive FileObject (linked : Bool := false) where
  | file (content : Bytes)
  | directory
  | link (target : String) (allowed : linked = true)
deriving DecidableEq, Repr

/-- Why an operation on files fails. -/
inductive FileFault where
  | notFound
  | notADirectory
  | isADirectory
  | alreadyExists
  | notEmpty
  | nameTooLong
  /-- More links are on the way than are followed. -/
  | tooManyLinks
  /-- A written path holds a NUL, which no path can. -/
  | nulInPath
  /-- A directory was to be moved below itself. -/
  | insideItself
  /-- A directory was to be removed by a path that ends in a dot. -/
  | dotAtEnd
  /-- A file that was to be read as text is not UTF-8. -/
  | notUtf8
deriving DecidableEq, Repr

/-- Files, directories and, if it is linked, links below a top directory. -/
structure FileSystem (linked : Bool := false) where
  objects : List (Path × FileObject linked)
  rising : Rising (fun o : Path × FileObject linked => o.1) objects
deriving DecidableEq

namespace FileSystem

variable {linked : Bool}

/-- The greatest number of bytes in a name. -/
def nameLimit : Nat := 255

/-- The greatest number of bytes in a written path from the top on.  A whole path may have 4095
    bytes; eleven of them are kept for what leads to the top. -/
def pathLimit : Nat := 4084

/-- The file system with nothing but its top. -/
def empty : FileSystem linked := ⟨[], List.Pairwise.nil⟩

/-- The object at a path that goes through no links and is not followed if it is one. -/
def object? (fs : FileSystem linked) (p : Path) : Option (FileObject linked) :=
  if p = [] then some .directory
  else (Rising.find? (fun o : Path × FileObject linked => o.1) p fs.objects).map Prod.snd

/-- The file system with an object at a path, whatever was there before. -/
def put (fs : FileSystem linked) (p : Path) (o : FileObject linked) : FileSystem linked :=
  ⟨Rising.put (fun o : Path × FileObject linked => o.1) (p, o) fs.objects,
    Rising.put_rising (p, o) fs.rising⟩

/-- The file system without the objects whose paths satisfy `gone`. -/
def removeIf (fs : FileSystem linked) (gone : Path → Bool) : FileSystem linked :=
  ⟨fs.objects.filter fun o => !gone o.1, Rising.filter_rising _ fs.rising⟩

/-- The objects with those at and below `source` moved to `target`. -/
def moved (fs : FileSystem linked) (source target : Path) : FileSystem linked :=
  let staying := fs.removeIf fun q => source.isSuffixOf q || q == target
  let moving := fs.objects.filter fun o => source.isSuffixOf o.1
  moving.foldl
    (fun fs o => fs.put (o.1.take (o.1.length - source.length) ++ target) o.2) staying

/-- The names in the directory at a path, the last in order first. -/
def namesAt (fs : FileSystem linked) (dir : Path) : List String :=
  (fs.objects.filterMap fun o =>
    match o.1 with
    | name :: up => if up == dir then some name else none
    | [] => none).reverse

/-- The objects below the directory at a path, each with the names that lead to it, the outermost
    first; a directory comes before what is in it. -/
def belowAt (fs : FileSystem linked) (dir : Path) : List (List String × FileObject linked) :=
  (fs.objects.filterMap fun o =>
      if Path.isBelow dir o.1 then (Path.relative? dir o.1).map fun r => (r, o.2) else none)
    |>.mergeSort fun a b => !decide (b.1 < a.1)

end FileSystem
end DirectoryStore
