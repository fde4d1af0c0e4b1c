import DirectoryStore.Entry.Modification
import DirectoryStore.Files.FileSystem
import DirectoryStore.Filter.Error
import DirectoryStore.Ldif.Error
import DirectoryStore.Name.Text

/-!
# What can go wrong in a tree

Besides the faults of the tree itself an operation passes on those of files, LDIF, names,
entries and filters.
-/

namespace DirectoryStore

/-- A fault of a tree. -/
inductive TreeError where
  | notFound (dn : Dn)
  | alreadyExists (dn : Dn)
  /-- An entry with children was to be deleted. -/
  | notLeaf (dn : Dn)
  /-- The root was to be deleted or moved. -/
  | rootStays (dn : Dn)
  /-- An entry was to be moved below itself. -/
  | invalidMove (dn target : Dn)
  /-- A handle whose node is gone. -/
  | staleHandle
  /-- A file with more than one entry. -/
  | severalEntries (path : Path)
  /-- A file without an entry. -/
  | noEntry (path : Path)
  /-- A directory that should hold children is not there. -/
  | missingDirectory (path : Path)
  | io (fault : FileFault)
  | ldif (cause : LdifError)
  | name (cause : NameError)
  | entry (cause : EntryError)
  | filter (cause : FilterError)
  | config (reason : String)
deriving DecidableEq

/-- The wording of a fault of files. -/
def FileFault.message : FileFault → String
  | notFound => "no such file or directory"
  | notADirectory => "not a directory"
  | isADirectory => "is a directory"
  | alreadyExists => "file exists"
  | notEmpty => "directory not empty"
  | nameTooLong => "file name too long"
  | tooManyLinks => "too many levels of symbolic links"
  | nulInPath => "file name contained an unexpected NUL byte"
  | insideItself | dotAtEnd => "invalid argument"
  | notUtf8 => "stream did not contain valid UTF-8"

/-- The wording of a fault. -/
def TreeError.message : TreeError → String
  | notFound dn => s!"no such entry: {dn.text}"
  | alreadyExists dn => s!"entry already exists: {dn.text}"
  | notLeaf dn => s!"entry has children: {dn.text}"
  | rootStays dn => s!"cannot remove the tree root {dn.text}"
  | invalidMove dn target => s!"cannot move {dn.text} to {target.text}, which lies below it"
  | staleHandle => "node handle does not refer to a live entry"
  | severalEntries path => s!"more than one entry in {path.text}"
  | noEntry path => s!"no entry in {path.text}"
  | missingDirectory path => s!"missing intermediate directory {path.text}"
  | io fault => s!"I/O error: {fault.message}"
  | ldif cause => s!"LDIF error: {cause.message}"
  | name cause => s!"name error: {cause.message}"
  | entry cause => s!"entry error: {cause.message}"
  | filter cause => s!"filter error: {cause.message}"
  | config reason => s!"configuration error: {reason}"

end DirectoryStore
