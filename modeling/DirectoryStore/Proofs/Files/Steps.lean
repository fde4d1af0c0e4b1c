import Mathlib.Logic.Relation
import DirectoryStore.Proofs.Files.Sparing
import DirectoryStore.Proofs.Tree.Requests

/-!
# What calls do to files

Whatever a call does to the files of a tree, and wherever it stops when it fails, it does in steps.
It puts the record of an entry where one is, or where nothing stands for the same relative name;
it makes and removes directories of nodes, removes files of entries, and moves both to free places.
What the steps keep, every call keeps.
-/

namespace DirectoryStore

open Edit (Leaves Maintains)
open Relation (ReflTransGen)

variable {base dir p q : Path} {stem : String} {r : Rdn} {fs fs' : FileSystem}
variable {root node up : FileNode} {d : Dn} {kind : AttributeMap → Prop}

/-- Where the files of entries are: that of the root, and all with their suffix at or below its
    directory. -/
inductive EntryPlace (root : FileNode) : Path → Prop where
  | root : EntryPlace root root.ldif
  | child {dir : Path} (stem : String) : root.dir <:+ dir →
      EntryPlace root ((stem ++ ldifSuffix) :: dir)

/-- What is put at `q` keeps names apart: either `q` is no place for an entry at or below `base`, or
    nothing else in its directory stands for the same relative name. -/
def Free (base : Path) (fs : FileSystem) (q : Path) : Prop :=
  ∀ ⦃dir stem stem' r s⦄, base <:+ dir → q = (stem ++ ldifSuffix) :: dir →
    Rdn.parse stem = .ok r → Rdn.parse stem' = .ok s → r.same s = true →
    fs.object? ((stem' ++ ldifSuffix) :: dir) ≠ none → stem = stem'

/-- One step of a call on the files of a tree with this root, where calls bring attributes of a
    kind. -/
inductive StepOf (kind : AttributeMap → Prop) (root : FileNode) (fs fs' : FileSystem) : Prop where
  /-- A record, with attributes of the kind if those that are there are. -/
  | write {p : Path} {e : Entry} : EntryPlace root p →
      (fs.object? p = none → Free root.dir fs p) → e.dn.Legible →
      ((∀ f, readEntry fs p = .ok f → kind f.attributes) → kind e.attributes) →
      fs.write p (utf8 e.ldif) = .ok fs' → StepOf kind root fs fs'
  | removeFile {p : Path} : EntryPlace root p → fs.removeFile p = .ok fs' →
      StepOf kind root fs fs'
  | makeDirectory {node : FileNode} : Issued root node → fs.makeDirectory node.dir = .ok fs' →
      StepOf kind root fs fs'
  | removeDirectory {node : FileNode} : Issued root node → fs.removeDirectory node.dir = .ok fs' →
      StepOf kind root fs fs'
  | moveFile {p q : Path} {content : Bytes} : EntryPlace root p →
      fs.object? p = some (.file content) → EntryPlace root q → Free root.dir fs q →
      fs.rename p q = .ok fs' → StepOf kind root fs fs'
  | moveDirectory {node up : FileNode} {r : Rdn} {stem : String} : Issued root node →
      Issued root up → fs.rename node.dir (up.child r stem).dir = .ok fs' →
      StepOf kind root fs fs'

/-- A step with attributes that can be written. -/
abbrev Step := StepOf AttributeMap.Writable

theorem StepOf.grounded (h : StepOf kind root fs fs') (hg : fs.Grounded) : fs'.Grounded := by
  cases h with
  | write _ _ _ _ hwrite => exact hg.write hwrite
  | removeFile _ hremove => exact hg.removeFile hremove
  | makeDirectory _ hmake => exact hg.makeDirectory hmake
  | removeDirectory _ hremove => exact hg.removeDirectory hremove
  | moveFile _ _ _ _ hmove => exact hg.rename hmove
  | moveDirectory _ _ hmove => exact hg.rename hmove

/-! ## Places -/

theorem Issued.entryPlace (h : Issued root node) : EntryPlace root node.ldif := by
  cases h with
  | root => exact .root
  | child r stem hup => exact .child stem hup.dir_suffix

theorem Free.of_ne (h : ∀ stem dir, base <:+ dir → q ≠ (stem ++ ldifSuffix) :: dir) :
    Free base fs q :=
  fun _ _ _ _ _ hbase he => absurd he (h _ _ hbase)

theorem dir_ne_entry (h : Issued root node) (hdir : root.dir <:+ dir) :
    node.dir ≠ (stem ++ ldifSuffix) :: dir := by
  intro he
  cases h with
  | root =>
      have hlen := hdir.length_le
      rw [he, List.length_cons] at hlen
      omega
  | child r stem' _ => exact ldif_ne_dir _ _ (List.cons.inj he).1.symm

theorem root_ldif_ne_entry (htop : root.Top) (hdir : root.dir <:+ dir) :
    root.ldif ≠ (stem ++ ldifSuffix) :: dir := by
  intro he
  obtain ⟨name, name', up, hroot, hldif, -⟩ := htop.exists_eq
  have hlen := hdir.length_le
  rw [hldif] at he
  rw [hroot, ← (List.cons.inj he).2, List.length_cons] at hlen
  omega

/-! ## Names -/

theorem Rdn.same_symm {r s : Rdn} (h : r.same s = true) : s.same r = true :=
  same_iff.mpr (same_iff.mp h).symm

theorem Rdn.legible_of_parse {text : String} (h : Rdn.parse text = .ok r) : r.Legible := by
  rw [Rdn.parse] at h
  split at h
  · cases h
  · rename_i hparse
    cases h
    exact Dn.legible_of_parse hparse _ List.mem_cons_self
  · cases h
  · cases h

theorem Dn.Legible.child (hd : d.Legible) (hr : r.Legible) : (d.child r).Legible :=
  List.forall_mem_cons.mpr ⟨hr, hd⟩

theorem Spelled.legible (h : Spelled root node) (hroot : root.dn.Legible) : node.dn.Legible := by
  induction h with
  | root => exact hroot
  | child hparse _ ih => exact ih.child (Rdn.legible_of_parse hparse)

theorem legible_of_dnBelow? {top : Dn} {place : List String} (htop : top.Legible)
    (h : dnBelow? top place = some d) : d.Legible := by
  induction place generalizing top with
  | nil =>
      cases h
      exact htop
  | cons name place ih =>
      rw [dnBelow?] at h
      split at h
      · cases h
      rename_i s hname
      refine ih (htop.child ?_) h
      obtain ⟨stem, -, hparse⟩ := Option.bind_eq_some_iff.mp hname
      cases hs : Rdn.parse stem with
      | error e =>
          rw [hs] at hparse
          cases hparse
      | ok s' =>
          rw [hs] at hparse
          cases hparse
          exact Rdn.legible_of_parse hs

/-- What a call brings: names that can be read, and attributes of a kind, which its edits keep. -/
def Call.Brings (kind : AttributeMap → Prop) : Call → Prop
  | addChild r attributes => r.Legible ∧ kind attributes
  | setAttributes attributes => kind attributes
  | modify edits => ∀ a b, kind a → Modification.applyAll edits a = (b, none) → kind b
  | moveTo target => target.Legible
  | deleteChild _ | delete => True

theorem Call.Storable.brings {c : Call} (h : c.Storable) : c.Brings AttributeMap.Writable := by
  cases c with
  | modify edits =>
      intro a b ha happly
      have hwritable := ha.applyAll h
      rwa [happly] at hwritable
  | _ => exact h

theorem Call.Legible.brings {c : Call} (h : c.Legible) : c.Brings fun _ => True := by
  cases c with
  | addChild r attributes => exact ⟨h, trivial⟩
  | moveTo target => exact h
  | modify edits => exact fun _ _ _ _ => trivial
  | _ => exact trivial

namespace FileTree

variable {t t' : FileTree} {target : Dn} {attrs : AttributeMap}

/-! ## Free places -/

theorem mem_childNodes (hdir : t.files.isDirectory node.dir = true) (hr : Rdn.parse stem = .ok r)
    (ho : t.files.object? ((stem ++ ldifSuffix) :: node.dir) ≠ none) :
    node.child r stem ∈ t.childNodes node :=
  mem_childNodes_of_name hdir hr (FileSystem.mem_names.mpr (Option.ne_none_iff_exists'.mp ho))

/-- Where no child of a name is found, the place of a new one is free. -/
theorem free_of_childNode? (hdir : t.files.isDirectory node.dir = true)
    (hnone : t.childNode? node r = none) (hr : r.Legible) :
    Free base t.files (node.child r (fileStem r)).ldif := by
  intro dir stem stem' r' s _ he hparse hs hrs ho
  obtain ⟨hname, rfl⟩ := List.cons.inj he
  rw [← append_suffix_inj hname, parse_fileStem hr] at hparse
  cases hparse
  have hno := List.find?_eq_none.mp hnone _ (mem_childNodes hdir hs ho)
  exact absurd (Rdn.same_symm hrs) hno

/-- The same once the directory has been made sure of: if it was not there, it has nothing in
    it. -/
theorem free_of_ensureDirectory (hg : t.Grounded) (hnone : t.childNode? node r = none)
    (hr : r.Legible) (hrun : (ensureDirectory node).run t = (.ok (), t')) :
    Free base t'.files (node.child r (fileStem r)).ldif := by
  rcases ensureDirectory_cases (t := t) node with ⟨e, herr⟩ | ⟨hok, hdir⟩ | ⟨files, hmake, hok⟩
  · cases herr.symm.trans hrun
  · cases hok.symm.trans hrun
    exact free_of_childNode? hdir hnone hr
  · cases hok.symm.trans hrun
    obtain ⟨name, up, hpath, -, -, hno, rfl⟩ := FileSystem.makeDirectory_eq_ok hmake
    intro dir stem stem' r' s _ he _ _ _ ho
    obtain ⟨-, rfl⟩ := List.cons.inj he
    rw [FileSystem.object?_put (by rw [hpath]; exact List.cons_ne_nil _ _),
      if_neg (List.cons_ne_self _ _)] at ho
    exact absurd (hg.eq_none_of_ne (by simp [hno]) [_] (List.cons_ne_nil _ _)) ho

/-- The attributes that a node shows are of a kind if those in its file are. -/
theorem kind_of_entry {e : Entry} (hempty : kind .empty) (h : t.entry node = .ok e)
    (hfile : ∀ f, readEntry t.files node.ldif = .ok f → kind f.attributes) :
    kind e.attributes := by
  rw [entry] at h
  split at h
  · rename_i f hf
    cases h
    exact hfile f hf
  · split at h
    · cases h
      exact hempty
    · cases h
  · cases h

/-! ## Edits in steps -/

/-- A tree with this root whose files have come from `fs` in steps. -/
structure Stepped (kind : AttributeMap → Prop) (root : FileNode) (fs : FileSystem)
    (t : FileTree) : Prop where
  root_eq : t.root = root
  steps : ReflTransGen (StepOf kind root) fs t.files

namespace Stepped

theorem onFiles {f : FileSystem → Except FileFault FileSystem} (h : Stepped kind root fs t)
    (hf : ∀ files, f t.files = .ok files → StepOf kind root t.files files) :
    Leaves (onFiles f) t (Stepped kind root fs) := by
  rw [Leaves]
  rcases hrun : (FileTree.onFiles f).run t with ⟨e | u, t'⟩
  · rwa [onFiles_eq_error hrun]
  · obtain ⟨hok, hroot⟩ := onFiles_eq_ok hrun
    exact ⟨hroot.trans h.root_eq, h.steps.tail (hf _ hok)⟩

theorem onFiles_always {f : FileSystem → Except FileFault FileSystem}
    (hf : ∀ files files', f files = .ok files' → StepOf kind root files files') :
    Maintains (Stepped kind root fs) (FileTree.onFiles f) :=
  fun _ h => h.onFiles fun files' => hf _ files'

theorem ensureDirectory (hnode : Issued root node) :
    Maintains (Stepped kind root fs) (ensureDirectory node) := by
  intro t h
  rcases ensureDirectory_cases (t := t) node with ⟨e, herr⟩ | ⟨hok, -⟩ | ⟨files, hmake, hok⟩
  · rwa [herr]
  · rwa [hok]
  · rw [hok]
    exact ⟨h.root_eq, h.steps.tail (.makeDirectory hnode hmake)⟩

theorem pruneDirectory (hnode : Issued root node) :
    Maintains (Stepped kind root fs) (pruneDirectory node) := by
  refine .bind (.look _) fun empty => ?_
  split
  · exact onFiles_always fun _ _ => .removeDirectory hnode
  · exact .pure _

theorem deleteChild (hnode : Issued root node) (r : Rdn) :
    Maintains (Stepped kind root fs) (deleteChild node r) := by
  refine .lookThen fun t found h hfound => ?_
  cases found with
  | none => exact .fail _
  | some found =>
      have hfound : t.childNode? node r = some found := Except.ok.inj hfound
      have hissued : Issued root found := by
        rw [← h.root_eq] at hnode ⊢
        exact issued_of_mem_childNodes hnode (List.mem_of_find?_eq_some hfound)
      refine .bind (.look _) fun inner => ?_
      split
      · exact .fail _
      · exact .bind (onFiles_always fun _ _ => .removeFile hissued.entryPlace) fun _ =>
          .bind (.look _) fun _ =>
            .ifThen (onFiles_always fun _ _ => .removeDirectory hissued) fun _ =>
              pruneDirectory hnode

theorem addChild (h : Stepped kind root fs t) (hg : t.Grounded) (hnode : Issued root node)
    (hdn : node.dn.Legible) (hr : r.Legible) (hattrs : kind attrs) :
    Leaves (addChild node r attrs) t (Stepped kind root fs) := by
  refine leaves_glance fun found hfound => ?_
  cases found with
  | some _ => exact h
  | none =>
      have hnone : t.childNode? node r = none := hfound
      refine .bind (fun _ _ => (ensureDirectory hnode).after h) fun _ t₁ hrun₁ => ?_
      have h₁ : Stepped kind root fs t₁ := (ensureDirectory hnode).after h hrun₁
      have hplace := (hnode.child r (fileStem r)).entryPlace
      have hwrite : Leaves (writeEntry (node.child r (fileStem r)).ldif
          ⟨(node.child r (fileStem r)).dn, attrs⟩) t₁ (Stepped kind root fs) :=
        h₁.onFiles fun _ => .write hplace (fun _ => free_of_ensureDirectory hg hnone hr hrun₁)
          (hdn.child hr) fun _ => hattrs
      exact hwrite.andThen fun _ => .pure _

theorem setAttributes (h : Stepped kind root fs t) (htop : root.Top) (hnode : Issued root node)
    (hdn : node.dn.Legible)
    (hattrs : (∀ f, readEntry t.files node.ldif = .ok f → kind f.attributes) → kind attrs) :
    Leaves (setAttributes node attrs) t (Stepped kind root fs) := by
  refine leaves_glance fun missing hmissing => ?_
  subst hmissing
  split
  · exact h
  · rename_i hthere
    rw [Bool.not_eq_true, Bool.and_eq_false_iff, Bool.not_eq_false', Bool.not_eq_false'] at hthere
    refine h.onFiles fun _ => .write hnode.entryPlace (fun hno => ?_) hdn hattrs
    rcases hthere with hroot | hfile
    · -- only the handle of the root has its directory
      rw [isRoot, h.root_eq, decide_eq_true_eq] at hroot
      cases hnode with
      | root => exact .of_ne fun stem dir => root_ldif_ne_entry htop
      | child r stem hup => exact absurd hroot (hup.child_dir_ne r stem)
    · obtain ⟨-, content, hfile⟩ := FileSystem.isFile_iff.mp hfile
      rw [hfile] at hno
      cases hno

theorem renameEntry (hplace : EntryPlace root p) (hd : d.Legible) :
    Maintains (Stepped kind root fs) (renameEntry p d) := by
  intro t h
  refine Leaves.look (fun _ _ => h) fun e hread => ?_
  refine h.onFiles fun _ => .write hplace (fun hno => ?_) hd fun hfile => hfile e hread
  obtain ⟨name, dir, content, -, -, -, hfile⟩ := readEntry_eq_ok hread
  rw [hfile] at hno
  cases hno

theorem renameEntries {top : Dn} (hdir : root.dir <:+ dir) (htop : top.Legible)
    {places : List (List String)}
    (hplaces : ∀ place ∈ places, ∃ names stem, place = names ++ [stem ++ ldifSuffix]) :
    Maintains (Stepped kind root fs) (renameEntries dir top places) := by
  induction places with
  | nil => exact .pure _
  | cons place places ih =>
      have hrest := ih fun place' hplace' => hplaces place' (List.mem_cons_of_mem _ hplace')
      rw [FileTree.renameEntries]
      cases hd : dnBelow? top place with
      | none => exact hrest
      | some d =>
          obtain ⟨names, stem, rfl⟩ := hplaces place List.mem_cons_self
          have hplace : EntryPlace root ((names ++ [stem ++ ldifSuffix]).reverse ++ dir) := by
            rw [List.reverse_append, List.reverse_singleton, List.singleton_append,
              List.cons_append]
            exact .child stem (hdir.trans (List.suffix_append _ _))
          exact .bind (renameEntry hplace (legible_of_dnBelow? htop hd)) fun _ => hrest

theorem renameSubtree (hnode : Issued root node) (hdn : node.dn.Legible) :
    Maintains (Stepped kind root fs) (renameSubtree node) := by
  refine .bind (renameEntry hnode.entryPlace hdn) fun _ => .bind (.look _) fun there => ?_
  split
  · refine .lookThen fun t places _ hplaces => ?_
    cases hplaces
    exact renameEntries hnode.dir_suffix hdn fun _ => mem_entryFiles_suffix
  · exact .pure _

theorem moveTo (h : Stepped kind root fs t) (hg : t.Grounded) (hroot : root.dn.Legible)
    (hnode : Spelled root node) (htarget : target.Legible) :
    Leaves (moveTo node target) t (Stepped kind root fs) := by
  refine .look (fun _ _ => h) ?_
  rintro ⟨up, r⟩ hdest
  obtain ⟨-, hfile, ⟨d, -, hup⟩, hleaf, hnone⟩ := destination_eq_ok hdest
  have hr := legible_of_leaf hleaf htarget
  have hup : Spelled root up := h.root_eq ▸ spelled_of_lookup .root hup
  have hmoved : Spelled root (up.child r (fileStem r)) := .child (parse_fileStem hr) hup
  obtain ⟨content, hfile⟩ := (FileSystem.isFile_iff.mp hfile).2
  refine .bind (fun _ _ => (ensureDirectory hup.issued).after h) fun _ t₁ hrun₁ => ?_
  have h₁ : Stepped kind root fs t₁ := (ensureDirectory hup.issued).after h hrun₁
  have hfile₁ : Spares node.ldif (.file content) t₁ :=
    (spares_ensureDirectory up).after ⟨hg, hfile⟩ hrun₁
  have hfree : Free root.dir t₁.files (up.child r (fileStem r)).ldif :=
    free_of_ensureDirectory hg hnone hr hrun₁
  refine .look (fun _ _ => h₁) fun oldUp hold => ?_
  have hmove : Leaves (FileTree.onFiles fun files =>
      files.rename node.ldif (up.child r (fileStem r)).ldif) t₁ (Stepped kind root fs) :=
    h₁.onFiles fun _ =>
      .moveFile hnode.issued.entryPlace hfile₁.there hmoved.issued.entryPlace hfree
  have hbelow : Maintains (Stepped kind root fs) (FileTree.onFiles fun files =>
      files.rename node.dir (up.child r (fileStem r)).dir) :=
    onFiles_always fun _ _ => .moveDirectory hnode.issued hup.issued
  refine hmove.andThen fun _ => .bind (.look _) fun there => .ifThen hbelow fun _ =>
    .bind (renameSubtree hmoved.issued (hmoved.legible hroot)) fun _ => ?_
  cases oldUp with
  | none => exact .pure _
  | some old =>
      have hold : Spelled root old := by
        have hnode := hnode
        rw [← h₁.root_eq] at hnode ⊢
        exact spelled_of_parent hnode hold
      exact .bind (pruneDirectory hold.issued) fun _ => .pure _

/-! ## Calls -/

theorem delete (hnode : Spelled root node) :
    Maintains (Stepped kind root fs) (Tree.delete node) := by
  refine .bind (.look _) fun d => .lookThen fun t up h hup => ?_
  cases up with
  | none => exact .fail _
  | some up =>
      have hup : Spelled root up := by
        rw [← h.root_eq] at hnode ⊢
        exact spelled_of_parent hnode hup
      exact .bind (.ofExcept _) fun r => deleteChild hup.issued r

theorem modify (h : Stepped kind root fs t) (hempty : kind .empty) (htop : root.Top)
    (hnode : Issued root node) (hdn : node.dn.Legible) {edits : List Modification}
    (hedits : ∀ a b, kind a → Modification.applyAll edits a = (b, none) → kind b) :
    Leaves (Tree.modify node edits) t (Stepped kind root fs) := by
  refine .look (fun _ _ => h) fun e he => ?_
  split
  · exact h
  · rename_i a happly
    refine h.setAttributes htop hnode hdn fun hfile => ?_
    exact hedits _ a (kind_of_entry hempty he hfile) happly

/-- What a call of a handle does, whether it fails or not, it does in steps. -/
theorem call (hempty : kind .empty) (hg : t.Grounded) (htop : t.root.Top)
    (hroot : t.root.dn.Legible) (hnode : Spelled t.root node) {c : Call} (hc : c.Brings kind) :
    Stepped kind t.root t.files ((Tree.call node c).run t).2 := by
  have h : Stepped kind t.root t.files t := ⟨rfl, .refl⟩
  have hdn := hnode.legible hroot
  cases c with
  | addChild r attrs =>
      have hsnd : ((Tree.call node (.addChild r attrs)).run t).2 =
          ((FileTree.addChild node r attrs).run t).2 :=
        Edit.snd_discard t (FileTree.addChild node r attrs)
      rw [hsnd]
      exact h.addChild hg hnode.issued hdn hc.1 hc.2
  | deleteChild r => exact deleteChild hnode.issued r t h
  | delete => exact delete hnode t h
  | setAttributes attrs => exact h.setAttributes htop hnode.issued hdn fun _ => hc
  | modify edits => exact h.modify hempty htop hnode.issued hdn hc
  | moveTo target =>
      have hsnd : ((Tree.call node (.moveTo target)).run t).2 =
          ((FileTree.moveTo node target).run t).2 :=
        Edit.snd_discard t (FileTree.moveTo node target)
      rw [hsnd]
      exact h.moveTo hg hroot hnode hc

/-- So does a whole run of calls. -/
theorem afterCalls (hempty : kind .empty) (hg : t.Grounded) (htop : t.root.Top)
    (hroot : t.root.dn.Legible) {calls : List (FileNode × Call)}
    (hcalls : ∀ x ∈ calls, Spelled t.root x.1 ∧ x.2.Brings kind) :
    Stepped kind t.root t.files (Tree.afterCalls calls t) := by
  induction calls generalizing t with
  | nil => exact ⟨rfl, .refl⟩
  | cons x calls ih =>
      obtain ⟨node, c⟩ := x
      rw [List.forall_mem_cons] at hcalls
      obtain ⟨⟨hnode, hc⟩, hcalls⟩ := hcalls
      have hfirst := Stepped.call hempty hg htop hroot hnode hc
      have hrest := ih (maintains_call node c t hg) (hfirst.root_eq ▸ htop) (hfirst.root_eq ▸ hroot)
        (hfirst.root_eq ▸ hcalls)
      rw [hfirst.root_eq] at hrest
      exact ⟨hrest.root_eq, hfirst.steps.trans hrest.steps⟩

end Stepped
end FileTree
end DirectoryStore
