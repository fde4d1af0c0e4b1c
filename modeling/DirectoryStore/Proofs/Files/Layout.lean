import DirectoryStore.Proofs.Files.Spots

/-!
# What stands where

A plan says what stands at each place of a tree.  Files are laid out by a plan if its places
hold what the plan says and nothing else is below the directory of the tree.  A change of one
place, or a move of what is below an entry, changes the plan in the same way.
-/

namespace DirectoryStore

/-- What stands at the places of a tree. -/
abbrev Plan := Spot → Option FileObject

namespace Plan

/-- The plan with something else, or nothing, at one place. -/
def set (w : Plan) (x : Spot) (o : Option FileObject) : Plan :=
  fun y => if y = x then o else w y

/-- The plan with all that is below `src` gone to `dst`. -/
def move (w : Plan) (src dst : List Rdn) : Plan :=
  fun x => if x.Under dst then w (x.rebase dst src) else if x.Under src then none else w x

@[simp] theorem set_self (w : Plan) (x : Spot) (o : Option FileObject) : w.set x o x = o :=
  if_pos rfl

theorem set_of_ne {w : Plan} {x y : Spot} {o : Option FileObject} (h : y ≠ x) :
    w.set x o y = w y :=
  if_neg h

end Plan

/-- Below the directory of a tree stands what is planned, and nothing else. -/
structure Layout (files : FileSystem) (root : FileNode) (w : Plan) : Prop where
  object? : ∀ x : Spot, x.Legible → files.object? (x.path root) = w x
  only : ∀ l o, l ≠ [] → files.object? (l ++ root.dir) = some o →
    ∃ x : Spot, x.Legible ∧ x.path root = l ++ root.dir
  above : files.object? root.dir.tail = some .directory

namespace Layout

variable {files : FileSystem} {root : FileNode} {w : Plan} {x y : Spot} {o : FileObject}
variable {r s : Rdn} {rs ws src dst : List Rdn}

theorem put (h : Layout files root w) (htop : root.Top) (hx : x.Legible) (o : FileObject) :
    Layout (files.put (x.path root) o) root (w.set x (some o)) where
  object? := by
    intro y hy
    rw [FileSystem.object?_put (Spot.path_ne_nil htop x)]
    by_cases hyx : y = x
    · rw [hyx, if_pos rfl, Plan.set_self]
    · rw [if_neg (mt (Spot.path_inj htop hy hx) hyx), Plan.set_of_ne hyx, h.object? y hy]
  only := by
    intro l o' hl ho
    rw [FileSystem.object?_put (Spot.path_ne_nil htop x)] at ho
    split at ho
    · rename_i he
      exact ⟨x, hx, he.symm⟩
    · exact h.only l o' hl ho
  above := by
    have hne : root.dir.tail ≠ x.path root := ne_of_not_suffix (Spot.path_not_suffix htop x)
    rw [FileSystem.object?_put (Spot.path_ne_nil htop x), if_neg hne]
    exact h.above

theorem remove (h : Layout files root w) (htop : root.Top) (hx : x.Legible) :
    Layout (files.removeIf (· == x.path root)) root (w.set x none) where
  object? := by
    intro y hy
    rw [FileSystem.object?_removeIf, h.object? y hy]
    by_cases hyx : y = x
    · rw [hyx, if_pos ⟨Spot.path_ne_nil htop x, beq_self_eq_true _⟩, Plan.set_self]
    · have hne : (y.path root == x.path root) = false :=
        beq_eq_false_iff_ne.mpr (mt (Spot.path_inj htop hy hx) hyx)
      rw [if_neg (by simp [hne]), Plan.set_of_ne hyx]
  only := by
    intro l o hl ho
    rw [FileSystem.object?_removeIf] at ho
    split at ho
    · cases ho
    · exact h.only l o hl ho
  above := by
    have hne : (root.dir.tail == x.path root) = false :=
      beq_eq_false_iff_ne.mpr (ne_of_not_suffix (Spot.path_not_suffix htop x))
    rw [FileSystem.object?_removeIf, if_neg (by simp [hne])]
    exact h.above

theorem down_eq_append (root : FileNode) (rs : List Rdn) (l : Path) :
    l ++ (root.down rs).dir = (l ++ rs.map dirName) ++ root.dir := by
  rw [FileNode.down_dir, List.append_assoc]

/-- Nothing is at or below a free place for a file. -/
theorem ldif_free (h : Layout files root w) (htop : root.Top) (hrs : ∀ x ∈ r :: rs, x.Legible)
    (hfree : w (.entry (r :: rs)) = none) (l : Path) :
    files.object? (l ++ (root.down (r :: rs)).ldif) = none := by
  rw [Option.eq_none_iff_forall_ne_some]
  intro o ho
  have hpath : l ++ (root.down (r :: rs)).ldif =
      (l ++ fileName r :: rs.map dirName) ++ root.dir := by
    rw [FileNode.down_ldif, FileNode.down_dir]
    simp
  rw [hpath] at ho
  obtain ⟨x, hx, he⟩ := h.only _ o (by simp) ho
  have hsuffix : (root.down (r :: rs)).ldif <:+ x.path root := by
    rw [he, ← hpath]
    exact List.suffix_append _ _
  have hentry := (Spot.ldif_suffix_path htop hrs hx).mp hsuffix
  rw [← he, h.object? x hx, hentry, hfree] at ho
  cases ho

/-- Nothing is at or below a free place for a directory. -/
theorem dir_free (h : Layout files root w) (htop : root.Top) (hrs : ∀ x ∈ r :: rs, x.Legible)
    (hfree : ∀ x : Spot, x.Under (r :: rs) → w x = none) (l : Path) :
    files.object? (l ++ (root.down (r :: rs)).dir) = none := by
  rw [Option.eq_none_iff_forall_ne_some]
  intro o ho
  rw [down_eq_append] at ho
  obtain ⟨x, hx, he⟩ := h.only _ o (by simp) ho
  have hsuffix : (root.down (r :: rs)).dir <:+ x.path root := by
    rw [he, ← down_eq_append]
    exact List.suffix_append _ _
  have hunder := (Spot.dir_suffix_path htop hrs hx).mp hsuffix
  rw [← he, h.object? x hx, hfree x hunder] at ho
  cases ho

/-- A file goes to another place. -/
theorem moveFile (h : Layout files root w) (htop : root.Top) (hrs : ∀ x ∈ r :: rs, x.Legible)
    (hws : ∀ x ∈ s :: ws, x.Legible) (hfree : w (.entry (s :: ws)) = none) :
    Layout (files.moved (root.down (r :: rs)).ldif (root.down (s :: ws)).ldif) root
      ((w.set (.entry (r :: rs)) none).set (.entry (s :: ws)) (w (.entry (r :: rs)))) := by
  have hsource : (root.down (r :: rs)).ldif ≠ [] := Spot.path_ne_nil htop (.entry (r :: rs))
  have htarget : (root.down (s :: ws)).ldif ≠ [] := Spot.path_ne_nil htop (.entry (s :: ws))
  have hmoved := fun q => FileSystem.object?_moved (q := q) hsource htarget
    (fun l _ => h.ldif_free htop hws hfree l)
  refine ⟨?_, ?_, ?_⟩
  · intro x hx
    rw [hmoved]
    by_cases ht : x = .entry (s :: ws)
    · subst ht
      have hself : rebase (root.down (s :: ws)).ldif (root.down (r :: rs)).ldif
          (root.down (s :: ws)).ldif = (root.down (r :: rs)).ldif := rebase_append _ _ []
      rw [if_pos ((Spot.ldif_suffix_path htop hws hx).mpr rfl), Plan.set_self]
      show files.object? (rebase _ _ (root.down (s :: ws)).ldif) = _
      rw [hself]
      exact h.object? (.entry (r :: rs)) hrs
    · rw [if_neg (mt (Spot.ldif_suffix_path htop hws hx).mp ht), Plan.set_of_ne ht]
      by_cases hs : x = .entry (r :: rs)
      · rw [if_pos ((Spot.ldif_suffix_path htop hrs hx).mpr hs), hs, Plan.set_self]
      · rw [if_neg (mt (Spot.ldif_suffix_path htop hrs hx).mp hs), Plan.set_of_ne hs,
          h.object? x hx]
  · intro l o hl ho
    rw [hmoved] at ho
    split at ho
    · rename_i hsuffix
      obtain ⟨k, hk⟩ := hsuffix
      rw [← hk, rebase_append] at ho
      have hpath : k ++ (root.down (r :: rs)).ldif =
          (k ++ fileName r :: rs.map dirName) ++ root.dir := by
        rw [FileNode.down_ldif, FileNode.down_dir]
        simp
      rw [hpath] at ho
      obtain ⟨x, hx, he⟩ := h.only _ o (by simp) ho
      rw [← hpath] at he
      have hentry := (Spot.ldif_suffix_path htop hrs hx).mp (he ▸ List.suffix_append _ _)
      rw [hentry] at he
      have hnil : k = [] := List.append_left_eq_self.mp he.symm
      rw [hnil, List.nil_append] at hk
      exact ⟨.entry (s :: ws), hws, hk⟩
    · split at ho
      · cases ho
      · exact h.only l o hl ho
  · have ht : ¬ (root.down (s :: ws)).ldif <:+ root.dir.tail :=
      Spot.path_not_suffix htop (.entry (s :: ws))
    have hs : ¬ (root.down (r :: rs)).ldif <:+ root.dir.tail :=
      Spot.path_not_suffix htop (.entry (r :: rs))
    rw [hmoved, if_neg ht, if_neg hs]
    exact h.above

/-- A directory goes to another place with everything below it. -/
theorem moveDirectory (h : Layout files root w) (htop : root.Top)
    (hrs : ∀ x ∈ r :: rs, x.Legible) (hws : ∀ x ∈ s :: ws, x.Legible)
    (hfree : ∀ x : Spot, x.Under (s :: ws) → w x = none) :
    Layout (files.moved (root.down (r :: rs)).dir (root.down (s :: ws)).dir) root
      (w.move (r :: rs) (s :: ws)) := by
  have hsource : (root.down (r :: rs)).dir ≠ [] := Spot.path_ne_nil htop (.below (r :: rs))
  have htarget : (root.down (s :: ws)).dir ≠ [] := Spot.path_ne_nil htop (.below (s :: ws))
  have hmoved := fun q => FileSystem.object?_moved (q := q) hsource htarget
    (fun l _ => h.dir_free htop hws hfree l)
  refine ⟨?_, ?_, ?_⟩
  · intro x hx
    rw [hmoved, Plan.move]
    by_cases ht : x.Under (s :: ws)
    · obtain ⟨l, hl, hall⟩ := Spot.exists_rebase root ht
      obtain ⟨hpath, -, -⟩ := hall (r :: rs)
      rw [if_pos ((Spot.dir_suffix_path htop hws hx).mpr ht), if_pos ht, hl, rebase_append,
        ← hpath]
      exact h.object? _ (hx.rebase hrs)
    · rw [if_neg (mt (Spot.dir_suffix_path htop hws hx).mp ht), if_neg ht]
      by_cases hs : x.Under (r :: rs)
      · rw [if_pos ((Spot.dir_suffix_path htop hrs hx).mpr hs), if_pos hs]
      · rw [if_neg (mt (Spot.dir_suffix_path htop hrs hx).mp hs), if_neg hs, h.object? x hx]
  · intro l o hl ho
    rw [hmoved] at ho
    split at ho
    · rename_i hsuffix
      obtain ⟨k, hk⟩ := hsuffix
      rw [← hk, rebase_append, down_eq_append] at ho
      obtain ⟨x, hx, he⟩ := h.only _ o (by simp) ho
      rw [← down_eq_append] at he
      have hunder := (Spot.dir_suffix_path htop hrs hx).mp (he ▸ List.suffix_append _ _)
      obtain ⟨l', hl', hall⟩ := Spot.exists_rebase root hunder
      obtain ⟨hpath, -, -⟩ := hall (s :: ws)
      rw [hl', List.append_cancel_right_eq] at he
      exact ⟨_, hx.rebase hws, by rw [hpath, he, hk]⟩
    · split at ho
      · cases ho
      · exact h.only l o hl ho
  · have ht : ¬ (root.down (s :: ws)).dir <:+ root.dir.tail :=
      Spot.path_not_suffix htop (.below (s :: ws))
    have hs : ¬ (root.down (r :: rs)).dir <:+ root.dir.tail :=
      Spot.path_not_suffix htop (.below (r :: rs))
    rw [hmoved, if_neg ht, if_neg hs]
    exact h.above

end Layout
end DirectoryStore
