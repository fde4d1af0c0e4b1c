import DirectoryStore.Files.Objects

/-!
# Following links

A path is a way through directories, and a link on it leads aside: the way goes on where the text
of the link leads, from the directory that the link stands in, or from the top if the text begins
with a slash.  In that text a dot stays, two dots go up, and other names may be links again.  No
way follows more than a certain number of links, so that every way comes to an end.

An operation either acts on what a path leads to (`arrive`), or on what stands at its end even if
that is a link, wherever the directory is that the rest of the path leads to (`place`).
-/

namespace DirectoryStore
namespace FileSystem

variable {linked : Bool}

/-- The greatest number of links that are followed on one way. -/
def linkLimit : Nat := 40

/-- Whether a written path is short enough to be followed. -/
def fits (text : String) : Bool :=
  byteCount text.toList ≤ pathLimit

/-- Where the text of a link in a directory starts. -/
def linkStart (dir : Path) (target : String) : Path :=
  if target.toList.head? = some '/' then [] else dir

/-- Follows names from a directory and says where they lead and how many links may still be
    followed.  `onLink` goes on from a link with all names that are left. -/
def walkWith (fs : FileSystem linked) (left : Nat)
    (onLink : Path → List String → Except FileFault (Path × Nat)) (dir : Path) :
    List String → Except FileFault (Path × Nat)
  | [] => .ok (dir, left)
  | name :: names =>
      if name = "" ∨ name = "." then walkWith fs left onLink dir names
      else if name = ".." then walkWith fs left onLink dir.tail names
      else if nameLimit < (utf8 name).length then .error .nameTooLong
      else match fs.object? (name :: dir) with
        | none => .error .notFound
        | some .directory => walkWith fs left onLink (name :: dir) names
        | some (.file _) => if names = [] then .ok (name :: dir, left) else .error .notADirectory
        | some (.link target _) => onLink (linkStart dir target) (Path.parts target ++ names)

/-- Follows names from where the text of a link starts, if one more link may be followed. -/
def walk (fs : FileSystem linked) : Nat → Path → List String → Except FileFault (Path × Nat)
  | 0 => fun _ _ => .error .tooManyLinks
  | left + 1 => walkWith fs left (walk fs left)

/-- Where a name in a directory leads. -/
def enter (fs : FileSystem linked) (dir : Path) (left : Nat) (name : String) :
    Except FileFault (Path × Nat) :=
  if nameLimit < (utf8 name).length then .error .nameTooLong
  else match fs.object? (name :: dir) with
    | none => .error .notFound
    | some .directory => .ok (name :: dir, left)
    | some (.file _) => .ok (name :: dir, left)
    | some (.link target _) => fs.walk left (linkStart dir target) (Path.parts target)

/-- The directory that a path leads to.  Where a directory stands no link was on the way; if
    there is none, the first fault on the way counts. -/
def lead (fs : FileSystem linked) : Path → Except FileFault (Path × Nat)
  | [] => .ok ([], linkLimit)
  | name :: dir =>
      match fs.object? (name :: dir) with
      | some .directory => .ok (name :: dir, linkLimit)
      | some (.file _) => .error .notADirectory
      | _ => do
          let (d, left) ← lead fs dir
          let (q, left) ← fs.enter d left name
          if fs.object? q = some .directory then .ok (q, left) else .error .notADirectory

/-- Where the end of a path stands: in the directory that the rest of the path leads to.  Neither a
    name on the way nor the whole may be too long, and what stands there does not matter. -/
def place (fs : FileSystem linked) (p : Path) : Except FileFault Path :=
  if fits p.text then
    match p with
    | [] => .ok []
    | name :: dir => do
        let (d, _) ← fs.lead dir
        if (utf8 name).length ≤ nameLimit then .ok (name :: d) else .error .nameTooLong
  else .error .nameTooLong

/-- What a path leads to. -/
def arrive (fs : FileSystem linked) (p : Path) : Except FileFault Path :=
  if fits p.text then
    match p with
    | [] => .ok []
    | name :: dir => do
        let (d, left) ← fs.lead dir
        let (q, _) ← fs.enter d left name
        return q
  else .error .nameTooLong

/-- Where a path leads.  If it leads nowhere this is the place of its end, and the path itself if it
    has none. -/
def home (fs : FileSystem linked) (p : Path) : Path :=
  match fs.object? p with
  | some .directory => p
  | some (.file _) => p
  | _ =>
      match fs.arrive p with
      | .ok q => q
      | .error _ => (fs.place p).toOption.getD p

/-- Goes the way to a path: whether its end has a place. -/
def reach (fs : FileSystem linked) (p : Path) : Except FileFault Unit := do
  let _ ← fs.place p

end FileSystem
end DirectoryStore
