import DirectoryStore.Name.Reader
import DirectoryStore.Toml.Reader
import DirectoryStore.Tree.Files

/-!
# Opening a tree in files

A configuration names the directory of the tree and the name of its root.  It can be read
from a TOML text, in which other keys do not matter.
-/

namespace DirectoryStore

/-- Where a tree in files is, and what its root is called. -/
structure Config where
  /-- The directory of what is below the root. -/
  directory : String
  /-- The name of the root as text. -/
  baseDn : String
deriving DecidableEq, Repr

namespace Config

/-- What holds for everything that is not set. -/
def standard : Config := ⟨"dirtree.dir", ""⟩

/-- Whether two configurations are the same.  Directories are compared as paths, so that a slash
    at the end does not matter; the names of the roots are compared as texts. -/
def same (c d : Config) : Bool :=
  Path.tellingParts c.directory = Path.tellingParts d.directory && c.baseDn = d.baseDn

/-- The text under a key, or `default` if the key is not there. -/
def setting (t : Toml.Table) (key default : String) : Except TreeError String :=
  match t.find? key with
  | none => .ok default
  | some (.value (.text s)) => .ok s
  | some _ => .error (.config s!"{key} is not a text")

/-- The configuration that a TOML text describes. -/
def ofToml (text : String) : Except TreeError Config :=
  match Toml.parse? text with
  | none => .error (.config "the text is not well-formed TOML")
  | some t => do
      return ⟨← setting t "directory" standard.directory, ← setting t "base_dn" standard.baseDn⟩

/-- The name of the root. -/
def rootDn (c : Config) : Except TreeError Dn :=
  match Dn.parse c.baseDn with
  | .ok d => .ok d
  | .error e => .error (.config e.message)

end Config

namespace FileTree

/-- The handle of the root for a configuration whose directory is meant from `base` on.
    Missing directories are made, and stay even if a later one cannot be made. -/
def openRoot (base : Path) (c : Config) : Edit FileSystem FileNode := do
  let d ← Edit.ofExcept c.rootDn
  fun files =>
    match files.makeDirectories base c.directory with
    | (.error fault, files') => (.error (.io fault), files')
    | (.ok (), files') =>
        let dir := Path.resolve base c.directory
        match ldifBeside? dir with
        | none => (.error (.config s!"{dir.text} cannot hold a tree"), files')
        | some ldif => (.ok ⟨d, ldif, dir⟩, files')

/-- The tree of a configuration whose directory is meant from `base` on. -/
def openAt (files : FileSystem) (base : Path) (c : Config) : Except TreeError FileTree :=
  match openRoot base c files with
  | (.error e, _) => .error e
  | (.ok root, files') => .ok ⟨files', root⟩

end FileTree
end DirectoryStore
