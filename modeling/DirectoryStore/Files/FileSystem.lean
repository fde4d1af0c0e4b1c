import DirectoryStore.Files.Links

/-!
# A file system

Operations fail as those of an operating system do.  A failing one changes nothing, with two
exceptions: making all directories of a path keeps those it has made, and removing a directory
with everything below it may leave it there, emptied.

What is asked and read goes through a link at the end of a path.  What is written, removed and
renamed is the link itself.  The operations on written paths, which a tree needs only when it is
opened, are those of a file system without links.
-/

namespace DirectoryStore
namespace FileSystem

variable {linked : Bool}

/-- Whether a path can be followed and leads to a directory. -/
def isDirectory (fs : FileSystem linked) (p : Path) : Bool :=
  fits p.text && fs.object? (fs.home p) = some .directory

/-- Whether a path can be followed and leads to a file. -/
def isFile (fs : FileSystem linked) (p : Path) : Bool :=
  match fs.object? (fs.home p) with
  | some (.file _) => fits p.text
  | _ => false

/-- Whether a written path can be followed from `base` on at all. -/
def checkText (base : Path) (text : String) : Except FileFault Unit :=
  if text.toList.contains '\x00' then .error .nulInPath
  else if fits (base.text ++ "/" ++ text) then .ok ()
  else .error .nameTooLong

/-- The path that a written path leads to.  All its parts before the last have to be
    directories; what stands at its end does not matter. -/
def locate (fs : FileSystem) (base : Path) (text : String) : Except FileFault Path :=
  match checkText base text with
  | .error fault => .error fault
  | .ok () => go base (Path.parts text)
where
  /-- The same for the parts that are left of the written path. -/
  go (p : Path) : List String → Except FileFault Path
    | [] => .ok p
    | [part] => .ok (Path.step p part)
    | part :: parts =>
        let p' := Path.step p part
        if fs.isDirectory p' then go p' parts
        else if fs.isFile p' then .error .notADirectory
        else .error .notFound

/-- The names in a directory, the last in order first. -/
def names (fs : FileSystem linked) (dir : Path) : List String :=
  fs.namesAt (fs.home dir)

/-- Whether nothing is in a directory. -/
def isEmptyDirectory (fs : FileSystem linked) (dir : Path) : Bool :=
  fs.isDirectory dir && (fs.names dir).isEmpty

/-- The objects below a directory, each with the names that lead to it.  Links below it are not
    followed. -/
def below (fs : FileSystem linked) (dir : Path) : List (List String × FileObject linked) :=
  fs.belowAt (fs.home dir)

/-- The content of a file. -/
def read (fs : FileSystem linked) (p : Path) : Except FileFault Bytes := do
  let q ← fs.arrive p
  match fs.object? q with
  | some .directory => .error .isADirectory
  | some (.file content) => .ok content
  | _ => .error .notFound

/-- The content of a file as text. -/
def readText (fs : FileSystem linked) (p : Path) : Except FileFault String := do
  match Utf8.text? (← fs.read p) with
  | none => .error .notUtf8
  | some text => .ok text

/-- Puts a file in place of the file or link at a path, if there is one. -/
def write (fs : FileSystem linked) (p : Path) (content : Bytes) :
    Except FileFault (FileSystem linked) := do
  let q ← fs.place p
  if fs.object? q = some .directory then .error .isADirectory else .ok (fs.put q (.file content))

/-- Makes a directory. -/
def makeDirectory (fs : FileSystem linked) (p : Path) : Except FileFault (FileSystem linked) := do
  let q ← fs.place p
  if (fs.object? q).isSome then .error .alreadyExists else .ok (fs.put q .directory)

/-- Makes the directories of a written path that are missing, `base` included, one after another.
    Before dots at the end nothing is made: `name/.` is looked for in `name`, which has to be
    there. -/
def makeDirectories (fs : FileSystem) (base : Path) (text : String) :
    Except FileFault Unit × FileSystem :=
  match checkText base text with
  | .error fault => (.error fault, fs)
  | .ok () => go fs [] (base.reverse ++ Path.parts text)
where
  /-- The same for the parts that are left of the written path. -/
  go (fs : FileSystem) (p : Path) : List String → Except FileFault Unit × FileSystem
    | [] => (.ok (), fs)
    | part :: parts =>
        let p' := Path.step p part
        if fs.isDirectory p' then go fs p' parts
        else if Path.onlyDots parts then (.error .notFound, fs)
        else match fs.makeDirectory p' with
          | .error fault => (.error fault, fs)
          | .ok fs' => go fs' p' parts

/-- Removes a file or a link. -/
def removeFile (fs : FileSystem linked) (p : Path) : Except FileFault (FileSystem linked) := do
  let q ← fs.place p
  match fs.object? q with
  | none => .error .notFound
  | some .directory => .error .isADirectory
  | some _ => .ok (fs.removeIf (· == q))

/-- Removes a directory with nothing in it. -/
def removeDirectory (fs : FileSystem linked) (p : Path) : Except FileFault (FileSystem linked) := do
  let q ← fs.place p
  match fs.object? q with
  | none => .error .notFound
  | some .directory =>
      if (fs.namesAt q).isEmpty then .ok (fs.removeIf (· == q)) else .error .notEmpty
  | some _ => .error .notADirectory

/-- Removes the directory of a written path with everything below it.  What is below goes first,
    and then the path is followed once more: the directory stays if the way to it led through
    what has gone, and it cannot be removed by a path that ends in a dot. -/
def removeAll (fs : FileSystem) (base : Path) (text : String) :
    Except FileFault Unit × FileSystem :=
  match fs.locate base text with
  | .error fault => (.error fault, fs)
  | .ok p =>
      match fs.object? p with
      | none => (.error .notFound, fs)
      | some (.file _) => (.error .notADirectory, fs)
      | some .directory =>
          let emptied := fs.removeIf (Path.isBelow p)
          match emptied.locate base text with
          | .error _ => (.ok (), emptied)
          | .ok _ =>
              if (Path.parts text).getLast? = some "." then (.error .dotAtEnd, emptied)
              else (.ok (), emptied.removeIf (· == p))

/-- Renames a file, a link or a directory with everything below it.  A file or a link takes the
    place of a file or a link, a directory that of an empty directory. -/
def rename (fs : FileSystem linked) (source target : Path) :
    Except FileFault (FileSystem linked) := do
  let s ← fs.place source
  let d ← fs.place target
  match fs.object? s with
  | none => .error .notFound
  | some .directory =>
      if s = d then .ok fs
      else if s.isSuffixOf d then .error .insideItself
      else match fs.object? d with
        | none => .ok (fs.moved s d)
        | some .directory =>
            if (fs.namesAt d).isEmpty then .ok (fs.moved s d) else .error .notEmpty
        | some _ => .error .notADirectory
  | some _ =>
      if fs.object? d = some .directory then .error .isADirectory
      else if s = d then .ok fs
      else .ok (fs.moved s d)

/-- Everything below a directory in the byte order of its written path, in which the path of a
    directory ends in a slash; with the content of the files. -/
def listing (fs : FileSystem) (dir : Path) : List (String × Option Bytes) :=
  ((fs.below dir).map fun o =>
      match o.2 with
      | .file content => (String.intercalate "/" o.1, some content)
      | .directory => (String.intercalate "/" o.1 ++ "/", none))
    |>.mergeSort fun a b => !decide (b.1 < a.1)

end FileSystem
end DirectoryStore
