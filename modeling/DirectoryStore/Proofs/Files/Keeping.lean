import DirectoryStore.Proofs.Files.Contents
import DirectoryStore.Proofs.Files.Layout

/-!
# Files that keep contents

Files keep contents if each entry has its file, in which an old name may stand during a move,
and directories stand where they should.  Changes of single files and directories change what
is kept accordingly.
-/

namespace DirectoryStore

/-- The file of an entry. -/
def record (d : Dn) (a : AttributeMap) : FileObject :=
  .file (utf8 (Entry.ldif ⟨d, a⟩))

/-- What stands in the file of an entry with given attributes, by the relative names that lead to
    it. -/
abbrev Filing := List Rdn → AttributeMap → FileObject

/-- A plan for contents, with what stands in the files and the places of the directories. -/
structure Shows (w : Plan) (c : Contents) (filed : Filing) (dirs : List Rdn → Prop) : Prop where
  entry : ∀ rs, w (.entry rs) = (c rs).map (filed rs)
  there : ∀ {rs}, dirs rs → w (.below rs) = some .directory
  absent : ∀ {rs}, ¬ dirs rs → w (.below rs) = none

/-- The files of a tree keep contents, with what stands in them and the places of the
    directories. -/
def Keeps (files : FileSystem) (root : FileNode) (c : Contents) (filed : Filing)
    (dirs : List Rdn → Prop) : Prop :=
  ∃ w, Layout files root w ∧ Shows w c filed dirs

namespace Keeps

variable {files : FileSystem} {root : FileNode} {c : Contents} {filed : Filing}
variable {dirs : List Rdn → Prop} {rs : List Rdn} {a : AttributeMap} {r : Rdn}

theorem file (h : Keeps files root c filed dirs) (hrs : ∀ x ∈ rs, x.Legible) :
    files.object? (root.down rs).ldif = (c rs).map (filed rs) := by
  obtain ⟨w, hw, hs⟩ := h
  rw [← hs.entry]
  exact hw.object? (.entry rs) hrs

theorem directory (h : Keeps files root c filed dirs) (hrs : ∀ x ∈ rs, x.Legible)
    (hdir : dirs rs) : files.object? (root.down rs).dir = some .directory := by
  obtain ⟨w, hw, hs⟩ := h
  rw [← hs.there hdir]
  exact hw.object? (.below rs) hrs

theorem noDirectory (h : Keeps files root c filed dirs) (hrs : ∀ x ∈ rs, x.Legible)
    (hdir : ¬ dirs rs) : files.object? (root.down rs).dir = none := by
  obtain ⟨w, hw, hs⟩ := h
  rw [← hs.absent hdir]
  exact hw.object? (.below rs) hrs

theorem isDirectory_eq_false (h : Keeps files root c filed dirs) (hrs : ∀ x ∈ rs, x.Legible)
    (hdir : ¬ dirs rs) : files.isDirectory (root.down rs).dir = false := by
  rw [Bool.eq_false_iff, ne_eq, FileSystem.isDirectory_iff, h.noDirectory hrs hdir]
  exact nofun

/-- What is below the directory of a tree: files of entries, and directories. -/
theorem object_cases (h : Keeps files root c filed dirs) (htop : root.Top) {l : Path}
    {o : FileObject} (hl : l ≠ []) (ho : files.object? (l ++ root.dir) = some o) :
    ∃ r rs, (∀ x ∈ r :: rs, x.Legible) ∧
      ((l ++ root.dir = (root.down (r :: rs)).ldif ∧ ∃ a, c (r :: rs) = some a) ∨
        (l ++ root.dir = (root.down (r :: rs)).dir ∧ dirs (r :: rs))) := by
  obtain ⟨w, hw, hs⟩ := h
  obtain ⟨x, hx, he⟩ := hw.only l o hl ho
  rw [← he, hw.object? x hx] at ho
  cases x with
  | entry qs =>
      cases qs with
      | nil =>
          obtain ⟨n, n', up, hdir, hldif, -⟩ := htop.exists_eq
          have hlen := congrArg List.length (show root.ldif = _ from he)
          have hpos := List.length_pos_iff.mpr hl
          rw [hdir, hldif, List.length_append, List.length_cons, List.length_cons] at hlen
          omega
      | cons q qs =>
          rw [hs.entry, Option.map_eq_some_iff] at ho
          obtain ⟨a, ha, -⟩ := ho
          exact ⟨q, qs, hx, .inl ⟨he.symm, a, ha⟩⟩
  | below qs =>
      cases qs with
      | nil => exact absurd (List.append_left_eq_self.mp he.symm) hl
      | cons q qs =>
          refine ⟨q, qs, hx, .inr ⟨he.symm, ?_⟩⟩
          by_cases hd : dirs (q :: qs)
          · exact hd
          · rw [hs.absent hd] at ho
            cases ho

/-- The names in the directory of a node. -/
theorem name_cases (h : Keeps files root c filed dirs) (htop : root.Top)
    (hrs : ∀ x ∈ rs, x.Legible) {name : String} {o : FileObject}
    (ho : files.object? (name :: (root.down rs).dir) = some o) :
    ∃ r, r.Legible ∧ ((name = fileName r ∧ ∃ a, c (r :: rs) = some a) ∨
      (name = dirName r ∧ dirs (r :: rs))) := by
  have hpath : name :: (root.down rs).dir = (name :: rs.map dirName) ++ root.dir := by
    rw [FileNode.down_dir, List.cons_append]
  rw [hpath] at ho
  have hsame : ∀ {qs}, (∀ x ∈ qs, x.Legible) → (root.down rs).dir = (root.down qs).dir →
      rs = qs := by
    intro qs hqs he
    have hspot : Spot.below rs = Spot.below qs := Spot.path_inj htop hrs hqs he
    rwa [Spot.below.injEq] at hspot
  obtain ⟨q, qs, hlegible, ⟨he, hthere⟩ | ⟨he, hthere⟩⟩ :=
    h.object_cases htop (List.cons_ne_nil _ _) ho
  · rw [← hpath, FileNode.down_ldif, List.cons.injEq] at he
    rw [List.forall_mem_cons] at hlegible
    obtain rfl := hsame hlegible.2 he.2
    exact ⟨q, hlegible.1, .inl ⟨he.1, hthere⟩⟩
  · have he' : name :: (root.down rs).dir = dirName q :: (root.down qs).dir := hpath.trans he
    rw [List.cons.injEq] at he'
    rw [List.forall_mem_cons] at hlegible
    obtain rfl := hsame hlegible.2 he'.2
    exact ⟨q, hlegible.1, .inr ⟨he'.1, hthere⟩⟩

/-! ## Changes of one place -/

/-- Only what stands in the files and where directories are counts. -/
theorem of_eq (h : Keeps files root c filed dirs) {c' : Contents} {filed' : Filing}
    {dirs' : List Rdn → Prop} (hfiled : ∀ rs, (c rs).map (filed rs) = (c' rs).map (filed' rs))
    (hdirs : ∀ rs, dirs rs ↔ dirs' rs) : Keeps files root c' filed' dirs' := by
  obtain ⟨w, hw, hs⟩ := h
  exact ⟨w, hw, fun rs => (hs.entry rs).trans (hfiled rs), fun hd => hs.there ((hdirs _).mpr hd),
    fun hd => hs.absent (mt (hdirs _).mp hd)⟩

theorem congr (h : Keeps files root c filed dirs) {filed' : Filing}
    {dirs' : List Rdn → Prop} (hfiled : ∀ {rs a}, c rs = some a → filed rs = filed' rs)
    (hdirs : ∀ rs, dirs rs ↔ dirs' rs) : Keeps files root c filed' dirs' := by
  refine h.of_eq (fun rs => ?_) hdirs
  cases hc : c rs with
  | none => rw [Option.map_none, Option.map_none]
  | some a => rw [Option.map_some, Option.map_some, hfiled hc]

theorem putEntry (h : Keeps files root c filed dirs) (htop : root.Top)
    (hrs : ∀ x ∈ rs, x.Legible) (d : Dn) (a : AttributeMap) :
    Keeps (files.put (root.down rs).ldif (record d a)) root (c.set rs (some a))
      (fun qs => if qs = rs then record d else filed qs) dirs := by
  obtain ⟨w, hw, hs⟩ := h
  refine ⟨_, hw.put htop (show (Spot.entry rs).Legible from hrs) _, fun qs => ?_,
    fun hd => hs.there hd, fun hd => hs.absent hd⟩
  rw [Plan.set, Contents.set]
  by_cases hq : qs = rs
  · rw [if_pos (by rw [hq]), if_pos hq, if_pos hq]
    rfl
  · rw [if_neg (by simpa using hq), if_neg hq, if_neg hq, hs.entry]

theorem removeEntry (h : Keeps files root c filed dirs) (htop : root.Top)
    (hrs : ∀ x ∈ rs, x.Legible) :
    Keeps (files.removeIf (· == (root.down rs).ldif)) root (c.set rs none) filed dirs := by
  obtain ⟨w, hw, hs⟩ := h
  refine ⟨_, hw.remove htop (show (Spot.entry rs).Legible from hrs), fun qs => ?_,
    fun hd => hs.there hd, fun hd => hs.absent hd⟩
  rw [Plan.set, Contents.set]
  by_cases hq : qs = rs
  · rw [if_pos (by rw [hq]), if_pos hq]
    rfl
  · rw [if_neg (by simpa using hq), if_neg hq, hs.entry]

theorem putDirectory (h : Keeps files root c filed dirs) (htop : root.Top)
    (hrs : ∀ x ∈ rs, x.Legible) :
    Keeps (files.put (root.down rs).dir .directory) root c filed
      (fun qs => qs = rs ∨ dirs qs) := by
  obtain ⟨w, hw, hs⟩ := h
  refine ⟨_, hw.put htop (show (Spot.below rs).Legible from hrs) _, hs.entry,
    fun {qs} hd => ?_, fun {qs} hd => ?_⟩
  · rw [Plan.set]
    split
    · rfl
    · rename_i hq
      refine hs.there (hd.resolve_left fun he => hq ?_)
      rw [he]
  · rw [not_or] at hd
    rw [Plan.set, if_neg (by simpa using hd.1)]
    exact hs.absent hd.2

theorem removeDirectory (h : Keeps files root c filed dirs) (htop : root.Top)
    (hrs : ∀ x ∈ rs, x.Legible) :
    Keeps (files.removeIf (· == (root.down rs).dir)) root c filed
      (fun qs => qs ≠ rs ∧ dirs qs) := by
  obtain ⟨w, hw, hs⟩ := h
  refine ⟨_, hw.remove htop (show (Spot.below rs).Legible from hrs), hs.entry,
    fun {qs} hd => ?_, fun {qs} hd => ?_⟩
  · rw [Plan.set, if_neg (by simpa using hd.1)]
    exact hs.there hd.2
  · rw [Plan.set]
    split
    · rfl
    · rename_i hq
      refine hs.absent fun hdirs => hd ⟨fun he => hq ?_, hdirs⟩
      rw [he]

/-! ## Moves -/

variable {src dst us vs : List Rdn} {s : Rdn}

theorem moveFile (h : Keeps files root c filed dirs) (htop : root.Top)
    (hsrc : ∀ x ∈ s :: us, x.Legible) (hdst : ∀ x ∈ r :: vs, x.Legible)
    (hfree : c (r :: vs) = none) :
    Keeps (files.moved (root.down (s :: us)).ldif (root.down (r :: vs)).ldif) root
      ((c.set (s :: us) none).set (r :: vs) (c (s :: us)))
      (fun qs => if qs = r :: vs then filed (s :: us) else filed qs) dirs := by
  obtain ⟨w, hw, hs⟩ := h
  have hfree' : w (.entry (r :: vs)) = none := by
    rw [hs.entry, hfree, Option.map_none]
  refine ⟨_, hw.moveFile htop hsrc hdst hfree', fun qs => ?_, fun hd => hs.there hd,
    fun hd => hs.absent hd⟩
  by_cases hq : qs = r :: vs
  · rw [hq, Plan.set_self, Contents.set_self, if_pos rfl, hs.entry]
  · rw [Plan.set_of_ne (by simpa using hq), Contents.set_of_ne hq, if_neg hq]
    by_cases hq' : qs = s :: us
    · rw [hq', Plan.set_self, Contents.set_self, Option.map_none]
    · rw [Plan.set_of_ne (by simpa using hq'), Contents.set_of_ne hq', hs.entry]

/-- What is below an entry goes along with its directory. -/
theorem moveDirectory (h : Keeps files root c filed dirs) (htop : root.Top)
    (hsrc : ∀ x ∈ s :: us, x.Legible) (hdst : ∀ x ∈ r :: vs, x.Legible)
    (hfree : ∀ q qs, r :: vs <:+ qs → c (q :: qs) = none)
    (hclosed : ∀ qs, r :: vs <:+ qs → ¬ dirs qs) :
    Keeps (files.moved (root.down (s :: us)).dir (root.down (r :: vs)).dir) root
      (fun qs => if (Spot.entry qs).Under (r :: vs) then c (rebase (r :: vs) (s :: us) qs)
        else if (Spot.entry qs).Under (s :: us) then none else c qs)
      (fun qs => if (Spot.entry qs).Under (r :: vs) then filed (rebase (r :: vs) (s :: us) qs)
        else filed qs)
      (fun qs => (r :: vs <:+ qs ∧ dirs (rebase (r :: vs) (s :: us) qs)) ∨
        (¬ r :: vs <:+ qs ∧ ¬ s :: us <:+ qs ∧ dirs qs)) := by
  obtain ⟨w, hw, hs⟩ := h
  have hfree' : ∀ x : Spot, x.Under (r :: vs) → w x = none := by
    intro x hx
    cases x with
    | entry qs =>
        cases qs with
        | nil => exact absurd hx id
        | cons q qs => rw [hs.entry, hfree q qs hx, Option.map_none]
    | below qs => exact hs.absent (hclosed qs hx)
  refine ⟨_, hw.moveDirectory htop hsrc hdst hfree', fun qs => ?_, fun {qs} hd => ?_,
    fun {qs} hd => ?_⟩
  · rw [Plan.move]
    by_cases hd : (Spot.entry qs).Under (r :: vs)
    · rw [if_pos hd, if_pos hd, if_pos hd]
      exact hs.entry _
    · rw [if_neg hd, if_neg hd, if_neg hd]
      by_cases hu : (Spot.entry qs).Under (s :: us)
      · rw [if_pos hu, if_pos hu, Option.map_none]
      · rw [if_neg hu, if_neg hu, hs.entry]
  · rcases hd with ⟨hdst, hdir⟩ | ⟨hdst, hsrc, hdir⟩
    · exact (if_pos hdst).trans (hs.there hdir)
    · exact (if_neg hdst).trans ((if_neg hsrc).trans (hs.there hdir))
  · rw [not_or] at hd
    by_cases hq : r :: vs <:+ qs
    · exact (if_pos hq).trans (hs.absent fun hdir => hd.1 ⟨hq, hdir⟩)
    · refine (if_neg hq).trans ?_
      by_cases hq' : s :: us <:+ qs
      · exact if_pos hq'
      · exact (if_neg hq').trans (hs.absent fun hdir => hd.2 ⟨hq, hq', hdir⟩)

end Keeps
end DirectoryStore
