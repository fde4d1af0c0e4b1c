import DirectoryStore.Proofs.Files.Grounded
import DirectoryStore.Proofs.Files.Reading
import DirectoryStore.Tree.Config

/-!
# Opening a tree in files

The name and the paths of the root that a configuration gives can be used, and a tree on an
empty directory stores nothing, whatever the file of the root beside it holds.
-/

namespace DirectoryStore

theorem Config.legible_rootDn {config : Config} {d : Dn} (h : config.rootDn = .ok d) :
    d.Legible := by
  rw [rootDn] at h
  split at h
  · rename_i hparse
    cases h
    exact Dn.legible_of_parse hparse
  · cases h

namespace FileTree

open FileSystem (Fits)

variable {files : FileSystem} {base : Path} {config : Config} {d : Dn} {t : FileTree}
variable {top : AttributeMap → FileObject} {c : Contents}

/-- A tree whose directory is there, in another one, and empty. -/
structure Vacant (t : FileTree) : Prop where
  directory : t.files.isDirectory t.root.dir = true
  nothing : t.files.below t.root.dir = []
  above : t.files.object? t.root.dir.tail = some .directory

instance (t : FileTree) : Decidable t.Vacant :=
  decidable_of_iff (t.files.isDirectory t.root.dir = true ∧ t.files.below t.root.dir = [] ∧
      t.files.object? t.root.dir.tail = some .directory)
    ⟨fun h => ⟨h.1, h.2.1, h.2.2⟩, fun h => ⟨h.directory, h.nothing, h.above⟩⟩

/-- A tree without entries: its directory is there and empty, and the place of the root's file
    beside it is free and can be reached. -/
structure Fresh (t : FileTree) : Prop where
  directory : t.files.isDirectory t.root.dir = true
  nothing : t.files.below t.root.dir = []
  noFile : t.files.object? t.root.ldif = none
  reachable : t.files.reach t.root.ldif = .ok ()

instance (t : FileTree) : Decidable t.Fresh :=
  decidable_of_iff (t.files.isDirectory t.root.dir = true ∧ t.files.below t.root.dir = [] ∧
      t.files.object? t.root.ldif = none ∧ (t.files.reach t.root.ldif).toOption.isSome = true)
    (by
      constructor
      · intro h
        refine ⟨h.1, h.2.1, h.2.2.1, ?_⟩
        cases hreach : t.files.reach t.root.ldif with
        | error e =>
            rw [hreach] at h
            cases h.2.2.2
        | ok u => rfl
      · intro h
        refine ⟨h.directory, h.nothing, h.noFile, ?_⟩
        rw [h.reachable]
        rfl)

theorem openAt_eq_ok (h : openAt files base config = .ok t) : config.rootDn = .ok t.root.dn ∧
    files.makeDirectories base config.directory = (.ok (), t.files) ∧ t.root.Top := by
  cases hd : config.rootDn with
  | error e =>
      simp only [openAt, openRoot, hd, Bind.bind, Edit.bind, Edit.ofExcept] at h
      cases h
  | ok d =>
      simp only [openAt, openRoot, hd, Bind.bind, Edit.bind, Edit.ofExcept] at h
      generalize files.makeDirectories base config.directory = made at h
      obtain ⟨res, files'⟩ := made
      cases res with
      | error fault => cases h
      | ok u =>
          cases hldif : ldifBeside? (base.resolve config.directory) with
          | none =>
              simp only [hldif] at h
              cases h
          | some ldif =>
              simp only [hldif] at h
              cases h
              exact ⟨rfl, rfl, hldif⟩

theorem root_of_openAt (h : openAt files base config = .ok t) :
    config.rootDn = .ok t.root.dn ∧ t.root.Top := by
  obtain ⟨hdn, -, htop⟩ := openAt_eq_ok h
  exact ⟨hdn, htop⟩

theorem grounded_openAt (hg : files.Grounded) (h : openAt files base config = .ok t) :
    t.Grounded := by
  obtain ⟨-, hmade, -⟩ := openAt_eq_ok h
  have hmade' := hg.makeDirectories base config.directory
  rwa [hmade] at hmade'

theorem Vacant.object?_eq_none (h : t.Vacant) {l : Path} (hl : l ≠ []) :
    t.files.object? (l ++ t.root.dir) = none := by
  rw [Option.eq_none_iff_forall_ne_some]
  intro o ho
  have hmem : (l.reverse, o) ∈ t.files.below t.root.dir := by
    refine FileSystem.mem_below.mpr ⟨by simpa using hl, ?_⟩
    rwa [List.reverse_reverse]
  rw [h.nothing] at hmem
  cases hmem

/-- What stands at the places of a tree without nodes below the root. -/
def rootPlan (c : Contents) (filed : Filing) : Plan
  | .entry rs => (c rs).map (filed rs)
  | .below rs => if rs = [] then some .directory else none

theorem Vacant.layout (h : t.Vacant) (hnone : ∀ r rs, c (r :: rs) = none)
    (hfile : t.files.object? t.root.ldif = (c []).map top) :
    Layout t.files t.root (rootPlan c (t.root.filing top)) where
  object? := by
    intro x _
    cases x with
    | entry rs =>
        cases rs with
        | nil => exact hfile
        | cons r rs =>
            have hpath : (Spot.entry (r :: rs)).path t.root =
                (fileName r :: rs.map dirName) ++ t.root.dir := by
              rw [List.cons_append, ← FileNode.down_dir]
              rfl
            rw [hpath, h.object?_eq_none (List.cons_ne_nil _ _), rootPlan, hnone, Option.map_none]
    | below rs =>
        cases rs with
        | nil => exact (FileSystem.isDirectory_iff.mp h.directory).2
        | cons r rs =>
            have hpath : (Spot.below (r :: rs)).path t.root =
                (dirName r :: rs.map dirName) ++ t.root.dir := by
              rw [List.cons_append, ← FileNode.down_dir]
              rfl
            rw [hpath]
            exact h.object?_eq_none (List.cons_ne_nil _ _)
  only := by
    intro l o hl ho
    rw [h.object?_eq_none hl] at ho
    cases ho
  above := h.above

/-- On an empty directory a tree houses nothing below the root. -/
theorem Vacant.houses (h : t.Vacant) (htop : t.root.Top) (hlegible : t.root.dn.Legible)
    (hnone : ∀ r rs, c (r :: rs) = none) (hfile : t.files.object? t.root.ldif = (c []).map top)
    (hwritable : ∀ a, c [] = some a → a.Writable) : t.Houses top c := by
  have hno : ∀ {r rs a}, c (r :: rs) ≠ some a := by
    intro r rs a ha
    rw [hnone] at ha
    cases ha
  have hproper : c.Proper := by
    refine ⟨fun ha => absurd ha hno, fun ha => absurd ha hno, fun ha => absurd ha hno, ?_⟩
    intro rs a ha
    cases rs with
    | nil => exact hwritable a ha
    | cons r rs => exact absurd ha hno
  have hshows : Shows (rootPlan c (t.root.filing top)) c (t.root.filing top) c.Opens := by
    refine ⟨fun rs => rfl, fun {rs} hopen => ?_, fun {rs} hclosed => ?_⟩
    · rcases hopen with hnil | ⟨r, a, ha⟩
      · exact if_pos hnil
      · exact absurd ha hno
    · exact if_neg fun hnil => hclosed (.inl hnil)
  have hshort := (FileSystem.isDirectory_iff.mp h.directory).1
  exact ⟨⟨htop, hshort, hlegible⟩, hproper, ⟨_, h.layout hnone hfile, hshows⟩,
    fun ha => absurd ha hno⟩

/-- A tree that was opened on an empty directory stores nothing. -/
theorem Fresh.stores (h : t.Fresh) (htop : t.root.Top) (hlegible : t.root.dn.Legible) :
    t.Stores fun _ => none := by
  obtain ⟨name, name', up, hdir, hldif, -⟩ := htop.exists_eq
  have hreach := h.reachable
  rw [hldif] at hreach
  obtain ⟨hfits, hup⟩ := FileSystem.reach_eq_ok hreach
  have habove : t.files.object? t.root.dir.tail = some .directory := by
    rw [hdir]
    exact hup
  have hvacant : t.Vacant := ⟨h.directory, h.nothing, habove⟩
  refine ⟨hvacant.houses htop hlegible (fun _ _ => rfl) h.noFile nofun, ?_⟩
  rw [hldif]
  exact hfits

end FileTree
end DirectoryStore
