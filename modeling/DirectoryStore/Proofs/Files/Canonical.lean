import DirectoryStore.Proofs.Files.Handles
import DirectoryStore.Proofs.Files.Opening
import DirectoryStore.Proofs.Files.Walk

/-!
# The files of a tree are told by its entries

Whatever calls have led to a tree on a directory that was empty, its files are those that its
entries ask for, and there are no others: no directory without entries, no file that has lost its
entry, and no file with an old name in it.
-/

namespace DirectoryStore
namespace FileTree

variable {t : FileTree} {top : AttributeMap → FileObject} {c : Contents} {rs : List Rdn}
variable {node : FileNode}

/-- The files below the directory of a tree are told by its entries. -/
structure Canonical (t : FileTree) : Prop where
  /-- A walk from the root comes to its end. -/
  walk : Tree.Below t t.root t.root
  directory : t.files.isDirectory t.root.dir = true
  /-- The entry of a node stands under its name in the directory of the parent. -/
  entry : ∀ node, Tree.Below t t.root node → node ≠ t.root →
    ∃ up r e, Tree.Below t t.root up ∧ t.parent node = .ok (some up) ∧
      node = up.child r (fileStem r) ∧ t.entry node = .ok e ∧ e.dn = node.dn ∧
      t.files.object? node.ldif = some (.file (utf8 e.ldif))
  /-- There is a directory beside it if the node has children. -/
  below : ∀ node, Tree.Below t t.root node → node ≠ t.root →
    t.files.object? node.dir = if (t.childNodes node).isEmpty then none else some .directory
  only : ∀ path o, Path.isBelow t.root.dir path = true → t.files.object? path = some o →
    ∃ node, Tree.Below t t.root node ∧ node ≠ t.root ∧ (path = node.ldif ∨ path = node.dir)

theorem down_ne_root (t : FileTree) (r : Rdn) (rs : List Rdn) : t.root.down (r :: rs) ≠ t.root := by
  intro h
  have hnil : r :: rs = [] := FileNode.down_inj (show _ = t.root.down [] from h)
  cases hnil

namespace Houses

theorem childNodes_isEmpty_iff (h : t.Houses top c) (hrs : ∀ x ∈ rs, x.Legible) :
    (t.childNodes (t.root.down rs)).isEmpty = true ↔ ¬ c.HasChild rs := by
  rw [List.isEmpty_iff, List.eq_nil_iff_forall_not_mem]
  constructor
  · intro hno hchild
    obtain ⟨r, a, ha⟩ := hchild
    exact hno _ ((h.mem_childNodes hrs).mpr ⟨r, a, ha, rfl⟩)
  · intro hno node hnode
    obtain ⟨r, a, ha, -⟩ := (h.mem_childNodes hrs).mp hnode
    exact hno ⟨r, a, ha⟩

/-- A node below the root. -/
theorem below_cases (h : t.Houses top c) (hnode : Tree.Below t t.root node) (hne : node ≠ t.root) :
    ∃ r rs a, c (r :: rs) = some a ∧ node = t.root.down (r :: rs) := by
  obtain ⟨rs, hrs, rfl⟩ := h.below_iff.mp hnode
  cases rs with
  | nil => exact absurd rfl hne
  | cons r rs =>
      obtain ⟨a, ha⟩ := hrs.resolve_left (List.cons_ne_nil _ _)
      exact ⟨r, rs, a, ha, rfl⟩

theorem below_down (h : t.Houses top c) (hrs : c.Has rs) : Tree.Below t t.root (t.root.down rs) :=
  h.below_iff.mpr ⟨rs, hrs, rfl⟩

/-- Files that keep contents between operations are told by the entries that they hold. -/
theorem canonical (h : t.Houses top c) : t.Canonical where
  walk := h.below_down (.inl rfl)
  directory := (h.isDirectory_iff (h.legible (.inl rfl))).mpr (.inl rfl)
  entry := by
    intro node hnode hne
    obtain ⟨r, rs, a, ha, rfl⟩ := h.below_cases hnode hne
    have hfile := h.keeps.file (h.legible (.inr ⟨a, ha⟩))
    rw [ha, Option.map_some] at hfile
    exact ⟨t.root.down rs, r, _, h.below_down (h.proper.closed ha),
      parent_down h.rooted.top r rs, rfl, h.entry_eq ha, rfl, hfile⟩
  below := by
    intro node hnode hne
    obtain ⟨r, rs, a, ha, rfl⟩ := h.below_cases hnode hne
    have hlegible := h.legible (.inr ⟨a, ha⟩)
    by_cases hchild : c.HasChild (r :: rs)
    · rw [if_neg (mt (h.childNodes_isEmpty_iff hlegible).mp (not_not_intro hchild))]
      exact h.keeps.directory hlegible (.inr hchild)
    · rw [if_pos ((h.childNodes_isEmpty_iff hlegible).mpr hchild)]
      exact h.keeps.noDirectory hlegible (not_or.mpr ⟨List.cons_ne_nil _ _, hchild⟩)
  only := by
    intro path o hbelow ho
    obtain ⟨l, hl, rfl⟩ := Path.isBelow_iff.mp hbelow
    obtain ⟨r, rs, -, ⟨he, a, ha⟩ | ⟨he, hopen⟩⟩ := h.keeps.object_cases h.rooted.top hl ho
    · exact ⟨_, h.below_down (.inr ⟨a, ha⟩), t.down_ne_root r rs, .inl he⟩
    · exact ⟨_, h.below_down (h.proper.has_of_opens hopen), t.down_ne_root r rs, .inr he⟩

end Houses

/-- On an empty directory a tree houses nothing, whatever the file of its root beside it holds. -/
theorem Vacant.exists_houses (h : t.Vacant) (htop : t.root.Top) (hlegible : t.root.dn.Legible) :
    ∃ top c, t.Houses top c := by
  cases hfile : t.files.object? t.root.ldif with
  | none =>
      refine ⟨record t.root.dn, fun _ => none, h.houses htop hlegible ?_ hfile ?_⟩
      · exact fun _ _ => rfl
      · exact nofun
  | some o =>
      refine ⟨fun _ => o, fun rs => if rs = [] then some .empty else none,
        h.houses htop hlegible (fun r rs => if_neg (List.cons_ne_nil _ _)) ?_ ?_⟩
      · rw [hfile, if_pos rfl, Option.map_some]
      · intro a ha
        rw [if_pos rfl, Option.some.injEq] at ha
        exact ha ▸ AttributeMap.Writable.empty

/-- A tree that was opened on an empty directory and changed by calls of its handles, the failing
    ones included, has the files that its entries ask for and no others.  Only a path that is too
    long can keep it from that. -/
theorem openAt_canonical {files : FileSystem} {path : Path} {config : Config}
    {calls : List (FileNode × Call)} (hopen : openAt files path config = .ok t)
    (hvacant : t.Vacant) (hcalls : ∀ x ∈ calls, t.Handle x.1 ∧ x.2.Storable)
    (hshort : Except.error (.io .nameTooLong) ∉ Tree.answers calls t) :
    (Tree.afterCalls calls t).root = t.root ∧ (Tree.afterCalls calls t).Canonical := by
  obtain ⟨hdn, htop⟩ := root_of_openAt hopen
  obtain ⟨top, c, h⟩ := hvacant.exists_houses htop (Config.legible_rootDn hdn)
  obtain ⟨hroot, top', c', h'⟩ := h.afterCalls hcalls hshort
  exact ⟨hroot, h'.canonical⟩

/-- Calls that build a branch of two entries, give its top another name and take its leaf out of
    it; the others fail, those of the handles from before the moves among them. -/
def strayCalls : List (List Rdn × Call) :=
  let p := Rdn.single "ou" "p"
  let q := Rdn.single "ou" "q"
  let s := Rdn.single "cn" "a/b"
  [([], .modify [⟨.add, ⟨"o", .ofList [utf8 "x"]⟩⟩]),
   ([], .addChild p .empty),
   ([p], .addChild s (.ofPairs [("sn", [utf8 "y"])])),
   ([p], .delete),
   ([p], .moveTo ⟨[q, Rdn.single "dc" "x"]⟩),
   ([s, p], .setAttributes .empty),
   ([s, q], .moveTo ⟨[s, Rdn.single "dc" "x"]⟩)]

theorem openAt_canonical_strays :
    let files := FileSystem.empty.put ["d.ldif"] (.file (utf8 "-"))
    ∃ t, openAt files [] ⟨"d", "dc=x"⟩ = .ok t ∧
      let calls := strayCalls.map fun x => (t.root.down x.1, x.2)
      (Tree.afterCalls calls t).root = t.root ∧ (Tree.afterCalls calls t).Canonical := by
  intro files
  have hopen : openAt files [] ⟨"d", "dc=x"⟩ =
      .ok ⟨files.put ["d"] .directory,
        ⟨⟨[Rdn.single "dc" "x"]⟩, ["d.ldif"], ["d"]⟩⟩ := by decide +kernel
  refine ⟨_, hopen, openAt_canonical hopen (by decide +kernel) ?_ (by decide +kernel)⟩
  intro x hx
  obtain ⟨y, hy, rfl⟩ := List.mem_map.mp hx
  have hall : ∀ y ∈ strayCalls, (∀ r ∈ y.1, r.Legible) ∧ y.2.Storable := by decide +kernel
  exact ⟨handle_down _ (hall y hy).1, (hall y hy).2⟩

end FileTree
end DirectoryStore
