import DirectoryStore.Proofs.Files.Failure
import DirectoryStore.Proofs.Ldif.Chunks

/-!
# Moves that fail on the way

A move looks for the new name before it changes anything, but it does not look into the files
whose names it changes, nor at what stands where the directory of the node is to go.  It undoes
nothing, so what it has done by then stays: what that is can be told exactly.  All other calls
that fail change nothing.  This is so of files and directories; where the directory of a node is a
symbolic link, a deletion may also fail half-way.
-/

namespace DirectoryStore

open FileSystem (Fits transfer)
open Ldif (bind_eq_ok)

/-- The handles that a tree hands out: that of the root, and below each those of any names. -/
inductive Issued (root : FileNode) : FileNode → Prop where
  | root : Issued root root
  | child {up : FileNode} (r : Rdn) (stem : String) : Issued root up → Issued root (up.child r stem)

namespace Issued

variable {root node : FileNode}

theorem dir_suffix (h : Issued root node) : root.dir <:+ node.dir := by
  induction h with
  | root => exact List.suffix_refl _
  | child r stem _ ih => exact ih.trans (List.suffix_cons _ _)

theorem child_dir_ne (h : Issued root node) (r : Rdn) (stem : String) :
    (node.child r stem).dir ≠ root.dir := by
  intro he
  have hlen := h.dir_suffix.length_le
  rw [← he, FileNode.child, List.length_cons] at hlen
  omega

end Issued

/-- The name that a file is written anew under when a node and all below it are. -/
inductive NewName (moved : FileNode) : Path → Dn → Prop where
  | self : NewName moved moved.ldif moved.dn
  | below {names : List String} {stem : String} {d : Dn} :
      dnBelow? moved.dn (names ++ [stem ++ ldifSuffix]) = some d →
      NewName moved ((stem ++ ldifSuffix) :: (names.reverse ++ moved.dir)) d

/-- The files at the places in `done` have been written anew with the attributes that they had,
    and nothing else has changed. -/
structure Renamed (moved : FileNode) (files files' : FileSystem) (done : List Path) : Prop where
  anew : ∀ p ∈ done, ∃ d e, NewName moved p d ∧ readEntry files p = .ok e ∧
    files'.object? p = some (.file (utf8 (Entry.ldif ⟨d, e.attributes⟩)))
  kept : ∀ p ∉ done, files'.object? p = files.object? p

section Reading

variable {files files' : FileSystem} {moved : FileNode} {p : Path} {e : Entry}
variable {done : List Path} {d : Dn}

theorem readEntry_eq_ok (h : readEntry files p = .ok e) : ∃ name dir content, p = name :: dir ∧
    Fits p ∧ files.object? dir = some .directory ∧ files.object? p = some (.file content) := by
  rw [readEntry] at h
  split at h
  · cases h
  rename_i text htext
  rw [FileSystem.readText] at htext
  cases hread : files.read p with
  | error fault => simp [hread, bind, Except.bind] at htext
  | ok content =>
      obtain ⟨name, dir, rfl, hfits, hdir, hobject⟩ := FileSystem.read_eq_ok hread
      exact ⟨name, dir, content, rfl, hfits, hdir, hobject⟩

/-- An entry can be read wherever its file is. -/
theorem readEntry_kept (hg : files.Grounded) (hsame : files'.object? p = files.object? p)
    (h : readEntry files' p = .ok e) : readEntry files p = .ok e := by
  obtain ⟨name, dir, content, rfl, hfits, hdir', hfile'⟩ := readEntry_eq_ok h
  have hfile := hsame.symm.trans hfile'
  have hread := FileSystem.read_of_file hdir' hfits hfile'
  rwa [readEntry, FileSystem.readText, hread, ← FileSystem.read_of_file (hg hfile) hfits hfile]
    at h

namespace Renamed

theorem nil (moved : FileNode) (files : FileSystem) : Renamed moved files files [] :=
  ⟨nofun, fun _ _ => rfl⟩

theorem cons (hg : files.Grounded) (h : Renamed moved files files' done) (hnew : p ∉ done)
    (hname : NewName moved p d) (hread : readEntry files' p = .ok e) :
    Renamed moved files (files'.put p (.file (utf8 (Entry.ldif ⟨d, e.attributes⟩))))
      (p :: done) := by
  obtain ⟨name, dir, -, hp, -⟩ := readEntry_eq_ok hread
  have hput : ∀ q, (files'.put p (.file (utf8 (Entry.ldif ⟨d, e.attributes⟩)))).object? q =
      if q = p then _ else _ := fun q => FileSystem.object?_put (hp ▸ List.cons_ne_nil name dir)
  constructor
  · intro q hq
    rcases List.mem_cons.mp hq with rfl | hq
    · exact ⟨d, e, hname, readEntry_kept hg (h.kept _ hnew) hread, by rw [hput, if_pos rfl]⟩
    · obtain ⟨d', e', hname', hread', hobject⟩ := h.anew q hq
      have hne : q ≠ p := fun he => hnew (he ▸ hq)
      exact ⟨d', e', hname', hread', by rw [hput, if_neg hne, hobject]⟩
  · intro q hq
    rw [List.mem_cons, not_or] at hq
    rw [hput, if_neg hq.1, h.kept q hq.2]

end Renamed

/-! ## Entry files below a directory -/

/-- What makes an object below a directory an entry file is its name. -/
theorem entryFile_place {linked : Bool} {x : List String × FileObject linked}
    {place : List String} (h : FileTree.entryFile? x = some place) :
    place = x.1 ∧ ∃ names stem, place = names ++ [stem ++ ldifSuffix] := by
  unfold FileTree.entryFile? at h
  split at h
  · rename_i name hfile hlast
    split at h
    · rename_i hsuffix
      cases h
      obtain ⟨stem, hstem⟩ := Option.isSome_iff_exists.mp hsuffix
      obtain ⟨names, hplace⟩ := List.getLast?_eq_some_iff.mp hlast
      exact ⟨rfl, names, stem, by rw [hplace, stripSuffix?_eq_some_iff.mp hstem]⟩
    · cases h
  · cases h

theorem mem_entryFiles_suffix {linked : Bool} {files : FileSystem linked} {dir : Path}
    {place : List String} (h : place ∈ FileTree.entryFiles files dir) :
    ∃ names stem, place = names ++ [stem ++ ldifSuffix] := by
  obtain ⟨x, -, hx⟩ := List.mem_filterMap.mp h
  exact (entryFile_place hx).2

end Reading

namespace FileTree

variable {t t' : FileTree} {node up moved : FileNode} {r : Rdn} {e : TreeError} {d target : Dn}
variable {files : FileSystem} {done : List Path}

section

variable {linked : Bool} {t : FileTree linked}

theorem issued_of_mem_childNodes (hnode : Issued t.root node) {c : FileNode}
    (hc : c ∈ t.childNodes node) : Issued t.root c := by
  obtain ⟨r, stem, rfl, -⟩ := child_of_mem_childNodes hc
  exact .child r stem hnode

/-- The node above a child is the node that it is a child of. -/
theorem parent_child (hup : Issued t.root up) (r : Rdn) (stem : String) :
    t.parent (up.child r stem) = .ok (some up) := by
  have hroot : t.isRoot (up.child r stem) = false := decide_eq_false (hup.child_dir_ne r stem)
  have hldif : (up.child r stem).ldif = (stem ++ ldifSuffix) :: up.dir := rfl
  simp only [parent, hroot, Bool.false_eq_true, if_false, hldif]
  cases hup with
  | root => exact if_pos rfl
  | @child up' r' stem' hup' =>
      have habove : Tree.above ((up'.child r' stem').child r stem).dn =
          .ok (up'.child r' stem').dn := rfl
      have hbeside : ldifBeside? (up'.child r' stem').dir = some (up'.child r' stem').ldif := by
        rw [FileNode.child, ldifBeside?, stripSuffix?_append]
        rfl
      simp only [if_neg (hup'.child_dir_ne r' stem'), habove, hbeside]

theorem issued_of_lookup (hnode : Issued t.root node) {found : FileNode}
    (hfound : Tree.lookup t node d = .ok found) : Issued t.root found := by
  refine Tree.of_lookup (p := Issued t.root) (fun hup hchild => ?_) hnode hfound
  exact issued_of_mem_childNodes hup (List.mem_of_find?_eq_some (Except.ok.inj hchild))

theorem destination_eq_ok (h : t.destination node target = .ok (up, r)) :
    t.isRoot node = false ∧ t.files.isFile node.ldif = true ∧
      (∃ d, Tree.above target = .ok d ∧ Tree.lookup t t.root d = .ok up) ∧
      Tree.leaf target = .ok r ∧ t.childNode? up r = none := by
  rw [destination] at h
  split at h
  · cases h
  rename_i hroot
  split at h
  · cases h
  split at h
  · cases h
  split at h
  · cases h
  rename_i hfile
  obtain ⟨d, habove, h⟩ := bind_eq_ok h
  obtain ⟨found, hfound, h⟩ := bind_eq_ok h
  obtain ⟨s, hs, h⟩ := bind_eq_ok h
  split at h
  · cases h
  · rename_i hfree
    cases h
    exact ⟨by simpa using hroot, by simpa using hfile, ⟨d, habove, hfound⟩, hs,
      by simpa using hfree⟩

theorem child_of_moveTo {moved : FileNode} (h : ((moveTo node target).run t).1 = .ok moved) :
    ∃ up r, t.destination node target = .ok (up, r) ∧ moved = up.child r (fileStem r) := by
  obtain ⟨⟨up, r⟩, hdest, h⟩ := Edit.look_eq_ok (Prod.ext h rfl)
  refine ⟨up, r, hdest, ?_⟩
  refine Edit.Yields.after (q := (· = up.child r (fileStem r))) (fun _ => .after fun oldUp =>
    .after fun _ => .after fun there => .ifThen fun _ => .after fun _ => ?_) t moved
    (congrArg Prod.fst h)
  cases oldUp with
  | none => exact .pure rfl
  | some old => exact .after fun _ => .pure rfl

end

theorem issued_of_addChild {attrs : AttributeMap} {added : FileNode} (hnode : Issued t.root node)
    (h : ((addChild node r attrs).run t).1 = .ok added) : Issued t.root added := by
  refine (?_ : (addChild node r attrs).Yields (Issued t.root)) t added h
  refine .after fun found => ?_
  cases found with
  | some _ => exact .fail _
  | none => exact .after fun _ => .after fun _ => .pure (.child r _ hnode)

theorem issued_of_moveTo {moved : FileNode} (h : ((moveTo node target).run t).1 = .ok moved) :
    Issued t.root moved := by
  obtain ⟨up, r, hdest, rfl⟩ := child_of_moveTo h
  obtain ⟨-, -, ⟨d, -, hup⟩, -⟩ := destination_eq_ok hdest
  exact .child r (fileStem r) (issued_of_lookup .root hup)

/-! ## Moves -/

/-- An entry with an empty file below it, and the handle of the entry. -/
def damaged : FileTree where
  files := FileSystem.empty.put ["d"] .directory
    |>.put ["ou=p.ldif", "d"] (.file (utf8 "dn: ou=p,dc=x\n\n"))
    |>.put ["ou=p.dir", "d"] .directory
    |>.put ["cn=s.ldif", "ou=p.dir", "d"] (.file [])
  root := ⟨⟨[Rdn.single "dc" "x"]⟩, ["d.ldif"], ["d"]⟩

def damagedEntry : FileNode :=
  damaged.root.child (Rdn.single "ou" "p") "ou=p"

/-- The move of the entry beside its old place. -/
def damagedMove : Call :=
  .moveTo ⟨[Rdn.single "ou" "q", Rdn.single "dc" "x"]⟩

/-- An entry whose directory is a link to an empty directory beside it. -/
def redirected : FileTree true where
  files := FileSystem.empty.put ["d"] .directory
    |>.put ["e", "d"] .directory
    |>.put ["cn=a.ldif", "d"] (.file (utf8 "dn: cn=a,dc=x\n\n"))
    |>.put ["cn=a.dir", "d"] (.link "e" rfl)
  root := ⟨⟨[Rdn.single "dc" "x"]⟩, ["d.ldif"], ["d"]⟩

/-- A directory that was left behind is in the way of a move that has made half its way by then. -/
example :
    let t : FileTree := ⟨damaged.files.put ["ou=q.dir", "d"] .directory
      |>.put ["x", "ou=q.dir", "d"] (.file []), damaged.root⟩
    let after := (Tree.call damagedEntry damagedMove).run t
    after.1 = .error (.io .notEmpty) ∧ after.2.files.isFile ["ou=q.ldif", "d"] ∧
      after.2.files.isDirectory ["ou=p.dir", "d"] := by
  decide +kernel

end FileTree
end DirectoryStore
