import DirectoryStore.Proofs.Files.Steps

/-!
# Files that can be read

What stands where files of entries are is the record of an entry that can be written again, and a
step puts nothing else there.  So the entries of a tree can be read unless a path is too long.
-/

namespace DirectoryStore

open FileSystem (Fits)

variable {root node : FileNode} {p q q' : Path} {fs fs' : FileSystem} {o : FileObject} {e : Entry}

/-- The file of an entry whose name and attribute types can be written. -/
def IsRecord (o : FileObject) : Prop :=
  ∃ e : Entry, e.dn.Legible ∧ e.attributes.Writable ∧ o = .file (utf8 e.ldif)

/-- Where files of entries are there are only records, and the directory above the tree is there. -/
structure Records (root : FileNode) (fs : FileSystem) : Prop where
  record : ∀ {p o}, EntryPlace root p → fs.object? p = some o → IsRecord o
  above : fs.object? root.dir.tail = some .directory

/-! ## Places -/

theorem length_le_of_entryPlace (htop : root.Top) (h : EntryPlace root p) :
    root.dir.length ≤ p.length := by
  cases h with
  | root =>
      obtain ⟨name, name', up, hdir, hldif, -⟩ := htop.exists_eq
      rw [hdir, hldif]
      exact Nat.le_refl _
  | child stem hdir => exact Nat.le_trans hdir.length_le (Nat.le_succ _)

theorem length_dir_pos (htop : root.Top) : 0 < root.dir.length := by
  obtain ⟨name, -, up, hdir, -, -⟩ := htop.exists_eq
  rw [hdir]
  exact Nat.succ_pos _

/-- No place of a tree is above its directory. -/
theorem not_suffix_above (htop : root.Top) (h : root.dir.length ≤ p.length) :
    ¬ p <:+ root.dir.tail := by
  intro hs
  have hpos := length_dir_pos htop
  have hlen := hs.length_le
  rw [List.length_tail] at hlen
  omega

theorem ne_above (htop : root.Top) (h : root.dir.length ≤ p.length) : root.dir.tail ≠ p := by
  rintro rfl
  exact not_suffix_above htop h (List.suffix_refl _)

/-- No directory of a node is where the file of an entry is. -/
theorem dir_not_entryPlace (htop : root.Top) (hnode : Issued root node) :
    ¬ EntryPlace root node.dir := by
  generalize hp : node.dir = p
  intro h
  cases h with
  | child stem hdir => exact dir_ne_entry hnode hdir hp
  | root =>
      obtain ⟨name, name', up, hdir, hldif, hne⟩ := htop.exists_eq
      cases hnode with
      | root => exact hne (List.cons.inj (hldif.symm.trans (hp.symm.trans hdir))).1
      | child r stem hup =>
          have hlen := hup.dir_suffix.length_le
          have hlen' := congrArg List.length hp
          rw [FileNode.child, hldif, List.length_cons, List.length_cons] at hlen'
          rw [hdir, List.length_cons] at hlen
          omega

namespace Records

/-- A file that can be read holds attributes that can be written. -/
theorem writable (h : Records root fs) (hp : EntryPlace root p) (hread : readEntry fs p = .ok e) :
    e.attributes.Writable := by
  obtain ⟨name, dir, content, rfl, hfits, hdir, hfile⟩ := readEntry_eq_ok hread
  obtain ⟨⟨d, a⟩, hd, hattrs, he⟩ := h.record hp hfile
  rw [he] at hfile
  have hread' := readEntry_of_read (FileSystem.read_of_file hdir hfits hfile) hd hattrs
  rw [Except.ok.inj (hread.symm.trans hread')]
  exact hattrs

theorem put (h : Records root fs) (htop : root.Top) (hlen : root.dir.length ≤ p.length)
    (hp : p ≠ []) (ho : EntryPlace root p → IsRecord o) : Records root (fs.put p o) where
  record := by
    intro q o' hq hobject
    rw [FileSystem.object?_put hp] at hobject
    split at hobject
    · rename_i he
      subst he
      cases hobject
      exact ho hq
    · exact h.record hq hobject
  above := by
    rw [FileSystem.object?_put hp, if_neg (ne_above htop hlen)]
    exact h.above

theorem remove (h : Records root fs) (htop : root.Top) (hlen : root.dir.length ≤ p.length) :
    Records root (fs.removeIf (· == p)) where
  record := fun hq hobject => h.record hq (FileSystem.object?_of_removeIf hobject)
  above := by
    rw [FileSystem.object?_removeIf, if_neg fun hgone => ne_above htop hlen (eq_of_beq hgone.2)]
    exact h.above

/-- What a move brings to places of files are records if those that it takes are. -/
theorem rename (h : Records root fs) (hg : fs.Grounded) (htop : root.Top)
    (hlen : root.dir.length ≤ q.length) (hlen' : root.dir.length ≤ q'.length)
    (hmoved : ∀ l o, EntryPlace root (l ++ q') → fs.object? (l ++ q) = some o → IsRecord o)
    (hr : fs.rename q q' = .ok fs') : Records root fs' where
  record := by
    intro p o hp hobject
    rw [hg.object?_rename hr, FileSystem.transfer] at hobject
    split at hobject
    · rename_i hs
      obtain ⟨l, rfl⟩ := hs
      rw [rebase_append] at hobject
      exact hmoved l o hp hobject
    · split at hobject
      · cases hobject
      · exact h.record hp hobject
  above := by
    rw [hg.object?_rename hr, FileSystem.transfer, if_neg (not_suffix_above htop hlen'),
      if_neg (not_suffix_above htop hlen)]
    exact h.above

end Records

/-- A step leaves records where files of entries are. -/
theorem Step.records (hstep : Step root fs fs') (htop : root.Top) (hg : fs.Grounded)
    (h : Records root fs) : Records root fs' := by
  cases hstep with
  | @write p e hplace _ hd hattrs hwrite =>
      obtain ⟨name, dir, rfl, -, -, -, rfl⟩ := FileSystem.write_eq_ok hwrite
      exact h.put htop (length_le_of_entryPlace htop hplace) (List.cons_ne_nil _ _) fun _ =>
        ⟨e, hd, hattrs fun f hread => h.writable hplace hread, rfl⟩
  | removeFile hplace hremove =>
      obtain ⟨-, rfl⟩ := FileSystem.removeFile_eq_ok hremove
      exact h.remove htop (length_le_of_entryPlace htop hplace)
  | makeDirectory hnode hmake =>
      obtain ⟨name, dir, hpath, -, -, -, rfl⟩ := FileSystem.makeDirectory_eq_ok hmake
      refine h.put htop hnode.dir_suffix.length_le ?_ fun hplace =>
        absurd hplace (dir_not_entryPlace htop hnode)
      rw [hpath]
      exact List.cons_ne_nil _ _
  | removeDirectory hnode hremove =>
      obtain ⟨-, rfl⟩ := FileSystem.removeDirectory_eq_ok hremove
      exact h.remove htop hnode.dir_suffix.length_le
  | @moveFile p q content hplace hfile hplace' _ hmove =>
      refine h.rename hg htop (length_le_of_entryPlace htop hplace)
        (length_le_of_entryPlace htop hplace') (fun l o _ hobject => ?_) hmove
      by_cases hl : l = []
      · rw [hl, List.nil_append] at hobject
        exact h.record hplace hobject
      · -- there is nothing below a file
        rw [hg.eq_none_of_ne (by simp [hfile]) l hl] at hobject
        cases hobject
  | @moveDirectory node up r stem hnode hup hmove =>
      have hnew := hup.child r stem
      refine h.rename hg htop hnode.dir_suffix.length_le hnew.dir_suffix.length_le
        (fun l o hplace hobject => ?_) hmove
      cases l with
      | nil => exact absurd hplace (dir_not_entryPlace htop hnew)
      | cons name l =>
          refine h.record ?_ hobject
          generalize hp : name :: l ++ (up.child r stem).dir = p at hplace
          cases hplace with
          | child stem' _ =>
              obtain ⟨rfl, -⟩ := List.cons.inj hp
              exact .child stem' (hnode.dir_suffix.trans (List.suffix_append _ _))
          | root =>
              -- the file of the root stands above what is moved
              obtain ⟨name', name'', up', hdir, hldif, -⟩ := htop.exists_eq
              have hlen := hnew.dir_suffix.length_le
              have hlen' := congrArg List.length hp
              rw [hldif, List.length_append, List.length_cons, List.length_cons] at hlen'
              rw [hdir, List.length_cons] at hlen
              omega

namespace FileTree

variable {t : FileTree}

/-- The entry of a node can be read if its file is there and has no path that is too long; the root
    may lack its file. -/
theorem exists_entry (h : Records t.root t.files) (hg : t.Grounded) (htop : t.root.Top)
    (hnode : Issued t.root node) (hfits : Fits node.ldif)
    (hthere : node = t.root ∨ t.files.object? node.ldif ≠ none) :
    ∃ e, t.entry node = .ok e := by
  cases hobject : t.files.object? node.ldif with
  | some o =>
      obtain ⟨⟨d, a⟩, hd, hattrs, he⟩ := h.record hnode.entryPlace hobject
      rw [he] at hobject
      obtain ⟨name, dir, hldif⟩ := List.exists_cons_of_length_pos
        (Nat.lt_of_lt_of_le (length_dir_pos htop) (length_le_of_entryPlace htop hnode.entryPlace))
      rw [hldif] at hobject hfits
      have hread := readEntry_of_read (FileSystem.read_of_file (hg hobject) hfits hobject) hd hattrs
      exact ⟨⟨node.dn, a⟩, by rw [entry, hldif, hread]⟩
  | none =>
      obtain rfl := hthere.resolve_right (not_not_intro hobject)
      obtain ⟨name, name', up, hdir, hldif, -⟩ := htop.exists_eq
      have habove := h.above
      rw [hdir, List.tail_cons] at habove
      rw [hldif] at hobject hfits
      have hread := readEntry_of_error (FileSystem.read_of_none habove hfits hobject)
      have hroot : t.isRoot t.root = true := decide_eq_true rfl
      exact ⟨⟨t.root.dn, .empty⟩, by rw [entry, hldif, hread]; exact if_pos hroot⟩

end FileTree
end DirectoryStore
