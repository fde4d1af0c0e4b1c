import DirectoryStore.Proofs.Files.Changing

/-!
# Moving in a tree in files

A move renames the file of an entry and the directory of what is below it, and then writes the
names anew that stand in the files.  Until that is done the files keep the contents after the
move under their old names.
-/

namespace DirectoryStore

/-! ## Contents while files move -/

namespace Contents

variable {c : Contents} {s r : Rdn} {us vs ls qs rs : List Rdn}

theorem suffix_cases (h : rs <:+ qs) : qs = rs ∨ ∃ q ls, qs = q :: ls ++ rs := by
  obtain ⟨l, rfl⟩ := h
  cases l with
  | nil => exact .inl rfl
  | cons q ls => exact .inr ⟨q, ls, rfl⟩

theorem append_ne_self (q : Rdn) (ls rs : List Rdn) : q :: ls ++ rs ≠ rs := by
  intro h
  have hlen := congrArg List.length h
  simp at hlen
  omega

/-- Children further below are below a child. -/
theorem Proper.hasChild_of_append (h : c.Proper) (hls : c.HasChild (ls ++ rs)) :
    c.HasChild rs := by
  induction ls with
  | nil => exact hls
  | cons l ls ih =>
      obtain ⟨q, a, ha⟩ := hls
      obtain ⟨b, hb⟩ := (h.closed ha).resolve_left (by simp)
      exact ih ⟨l, b, hb⟩

namespace Movable

/-- When the file of an entry and then its directory have gone to another place, all has. -/
theorem move_eq (hm : c.Movable s us r vs) (h : c.Proper) :
    (fun qs => if (Spot.entry qs).Under (r :: vs) then
        ((c.set (s :: us) none).set (r :: vs) (c (s :: us))) (rebase (r :: vs) (s :: us) qs)
      else if (Spot.entry qs).Under (s :: us) then none
      else ((c.set (s :: us) none).set (r :: vs) (c (s :: us))) qs) =
      c.move (s :: us) (r :: vs) := by
  funext qs
  by_cases hd : r :: vs <:+ qs
  · rcases suffix_cases hd with rfl | ⟨q, ls, rfl⟩
    · rw [if_neg (mt Spot.under_entry.mp (cons_not_suffix r vs)),
        if_neg (mt Spot.under_entry.mp hm.outside), set_self]
      exact (move_append c (s :: us) (r :: vs) []).symm
    · have hne : q :: ls ++ s :: us ≠ r :: vs := by
        intro he
        exact hm.not_source_suffix h (he ▸ List.suffix_append _ _)
      have hunder : (Spot.entry (q :: ls ++ r :: vs)).Under (r :: vs) := List.suffix_append ls _
      rw [if_pos hunder, rebase_append,
        set_of_ne hne, set_of_ne (append_ne_self _ _ _), move_append]
  · rw [if_neg (Spot.not_under_entry hd), move, if_neg hd, set_of_ne (ne_of_not_suffix hd)]
    by_cases hs : s :: us <:+ qs
    · rw [if_pos hs]
      rcases suffix_cases hs with rfl | ⟨q, ls, rfl⟩
      · rw [if_neg (mt Spot.under_entry.mp (cons_not_suffix s us)), set_self]
      · exact if_pos (Spot.under_entry.mpr (List.suffix_append ls _))
    · rw [if_neg (Spot.not_under_entry hs), if_neg hs, set_of_ne (ne_of_not_suffix hs)]

/-- When the file of a leaf has gone to another place, all has. -/
theorem move_eq_of_leaf (hm : c.Movable s us r vs) (h : c.Proper)
    (hleaf : ¬ c.HasChild (s :: us)) :
    (c.set (s :: us) none).set (r :: vs) (c (s :: us)) = c.move (s :: us) (r :: vs) := by
  have hnone : ∀ q ls, c (q :: ls ++ s :: us) = none := by
    intro q ls
    rw [Option.eq_none_iff_forall_ne_some]
    intro a ha
    exact hleaf (h.hasChild_of_append ⟨q, a, ha⟩)
  funext qs
  by_cases hd : r :: vs <:+ qs
  · rcases suffix_cases hd with rfl | ⟨q, ls, rfl⟩
    · rw [set_self]
      exact (move_append c (s :: us) (r :: vs) []).symm
    · rw [set_of_ne (append_ne_self _ _ _), move_append, hnone]
      by_cases hs : q :: ls ++ r :: vs = s :: us
      · rw [hs, set_self]
      · rw [set_of_ne hs, hm.eq_none h hd]
  · rw [set_of_ne (ne_of_not_suffix hd), move, if_neg hd]
    by_cases hs : s :: us <:+ qs
    · rw [if_pos hs]
      rcases suffix_cases hs with rfl | ⟨q, ls, rfl⟩
      · rw [set_self]
      · rw [set_of_ne (append_ne_self _ _ _), hnone]
    · rw [if_neg hs, set_of_ne (ne_of_not_suffix hs)]

/-- There is no directory at or below the new place. -/
theorem closed (hm : c.Movable s us r vs) (h : c.Proper) (hq : r :: vs <:+ qs) :
    ¬ (qs = vs ∨ c.Opens qs) := by
  intro hopen
  rcases hopen with rfl | rfl | ⟨q, b, hb⟩
  · exact cons_not_suffix r _ hq
  · exact absurd (List.suffix_nil.mp hq) (List.cons_ne_nil _ _)
  · rw [hm.eq_none h (suffix_of_cons hq q)] at hb
    cases hb

/-- Where directories are after the move of a leaf. -/
theorem opens_iff_of_leaf (hm : c.Movable s us r vs) (h : c.Proper)
    (hleaf : ¬ c.HasChild (s :: us)) :
    qs = vs ∨ c.Opens qs ↔ qs = us ∨ (c.move (s :: us) (r :: vs)).Opens qs := by
  have hno : ∀ ls, ¬ (ls ++ s :: us = vs ∨ c.Opens (ls ++ s :: us)) := by
    intro ls hopen
    rcases hopen with he | hnil | hchild
    · exact hm.outside (he ▸ List.suffix_append _ _)
    · exact absurd hnil (by simp)
    · exact hleaf (h.hasChild_of_append hchild)
  rw [← hm.opens_iff h]
  constructor
  · intro hopen
    refine .inr ⟨fun hd => hm.closed h hd hopen, fun hs => ?_, hopen⟩
    obtain ⟨ls, rfl⟩ := hs
    exact hno ls hopen
  · intro hopen
    rcases hopen with ⟨⟨ls, rfl⟩, hopen⟩ | ⟨-, -, hopen⟩
    · rw [rebase_append] at hopen
      exact absurd hopen (hno ls)
    · exact hopen

theorem source_parent_move (hm : c.Movable s us r vs) (h : c.Proper) :
    (c.move (s :: us) (r :: vs)).Has us := by
  obtain ⟨a, ha⟩ := hm.source
  rcases h.closed ha with hnil | ⟨b, hb⟩
  · exact .inl hnil
  · refine .inr ⟨b, move_eq_some_iff.mpr (.inr ⟨fun hd => ?_, cons_not_suffix s us, hb⟩)⟩
    exact hm.not_suffix_source h (suffix_of_cons hd s)

end Movable
end Contents

namespace FileTree

open FileSystem (Fits)

variable {t t' : FileTree} {c e : Contents} {filed : Filing} {dirs : List Rdn → Prop}
variable {r s q : Rdn} {rs qs us vs dst : List Rdn} {d target : Dn} {a b : AttributeMap}
variable {top : AttributeMap → FileObject}

/-- In the files of entries below the root stand records under names that can be read. -/
def Recorded (c : Contents) (filed : Filing) : Prop :=
  ∀ q qs b, c (q :: qs) = some b → ∃ d, d.Legible ∧ filed (q :: qs) = record d

theorem Recorded.set (h : Recorded c filed) (rs : List Rdn) (hd : d.Legible) :
    Recorded c fun qs => if qs = rs then record d else filed qs := by
  intro q qs b hb
  by_cases hq : q :: qs = rs
  · exact ⟨d, hd, if_pos hq⟩
  · obtain ⟨d', hd', he⟩ := h q qs b hb
    exact ⟨d', hd', (if_neg hq).trans he⟩

/-! ## Entries below a directory -/

/-- The place of an entry below a directory, from there on. -/
def entryPlace (q : Rdn) (qs : List Rdn) : List String :=
  (fileName q :: qs.map dirName).reverse

theorem entryPlace_path (root : FileNode) (q : Rdn) (qs dst : List Rdn) :
    (entryPlace q qs).reverse ++ (root.down dst).dir = (root.down (q :: qs ++ dst)).ldif := by
  have hldif : (root.down (q :: qs ++ dst)).ldif = fileName q :: (root.down (qs ++ dst)).dir := rfl
  rw [entryPlace, List.reverse_reverse, List.cons_append, hldif, FileNode.down_dir,
    FileNode.down_dir, List.map_append, List.append_assoc]

/-- The file at the place of an entry is an entry file. -/
theorem entryPlace_kept (a : AttributeMap) (d : Dn) (q : Rdn) (qs : List Rdn) :
    FileTree.entryFile? (entryPlace q qs, record d a) = some (entryPlace q qs) := by
  have hlast : (entryPlace q qs).getLast? = some (fileName q) := by simp [entryPlace]
  have hstrip : (stripSuffix? ldifSuffix (fileName q)).isSome = true := by
    rw [fileName, stripSuffix?_append]
    rfl
  simp only [FileTree.entryFile?, record, hlast, hstrip, if_true]

theorem mem_entryFiles (h : Keeps t.files t.root c filed dirs) (htop : t.root.Top)
    (hrecorded : Recorded c filed) (hdst : ∀ x ∈ dst, x.Legible) {place : List String} :
    place ∈ entryFiles t.files (t.root.down dst).dir ↔
      ∃ q qs a, place = entryPlace q qs ∧ (∀ x ∈ q :: qs ++ dst, x.Legible) ∧
        c (q :: qs ++ dst) = some a := by
  rw [entryFiles, List.mem_filterMap]
  constructor
  · intro hmem
    obtain ⟨⟨place', o⟩, hbelow, ho⟩ := hmem
    obtain ⟨hne, hobject⟩ := FileSystem.mem_below.mp (List.mem_reverse.mp hbelow)
    have hthere := hobject
    rw [Layout.down_eq_append] at hthere
    obtain ⟨q, ws, hlegible, ⟨he, a, ha⟩ | ⟨he, hdir⟩⟩ :=
      h.object_cases htop (by simp [hne]) hthere
    · rw [← Layout.down_eq_append] at he
      obtain ⟨qs, rfl⟩ := (dir_suffix_ldif hdst hlegible).mp (he ▸ List.suffix_append _ _)
      obtain ⟨d, -, hfiled⟩ := hrecorded _ _ _ ha
      have hfile := h.file hlegible
      rw [← he, hobject, ha, Option.map_some, hfiled, Option.some.injEq] at hfile
      have hplace := he.trans (entryPlace_path t.root q qs dst).symm
      rw [List.append_cancel_right_eq, List.reverse_inj] at hplace
      subst hplace hfile
      refine ⟨q, qs, a, ?_, hlegible, ha⟩
      exact (Option.some.inj ((entryPlace_kept a d q qs).symm.trans ho)).symm
    · rw [← Layout.down_eq_append] at he
      have hdirectory := h.directory hlegible hdir
      rw [← he, hobject, Option.some.injEq] at hdirectory
      subst hdirectory
      cases ho
  · intro hmem
    obtain ⟨q, qs, a, rfl, hlegible, ha⟩ := hmem
    obtain ⟨d, -, hfiled⟩ := hrecorded _ _ _ ha
    have hfile := h.file hlegible
    have hfiled' : filed (q :: qs ++ dst) = record d := hfiled
    rw [ha, Option.map_some, ← entryPlace_path, hfiled'] at hfile
    refine ⟨⟨entryPlace q qs, record d a⟩, ?_, entryPlace_kept a d q qs⟩
    rw [List.mem_reverse]
    exact FileSystem.mem_below.mpr ⟨by simp [entryPlace], hfile⟩

/-! ## Names -/

/-- A file is written anew under another name. -/
theorem renameEntry_achieves (h : Keeps t.files t.root c filed dirs) (htop : t.root.Top)
    (hrs : ∀ x ∈ r :: rs, x.Legible) (hup : dirs rs) (ha : c (r :: rs) = some a)
    (hwritable : a.Writable) (hrecorded : Recorded c filed) (d : Dn) :
    Achieves (renameEntry (t.root.down (r :: rs)).ldif d) t () fun t' =>
      Fits (t.root.down (r :: rs)).ldif ∧
        KeepsFrom t c (fun qs => if qs = r :: rs then record d else filed qs) dirs t' := by
  obtain ⟨d', hd', hfiled⟩ := hrecorded _ _ _ ha
  have hplain : ∀ {b}, c (r :: rs) = some b → filed (r :: rs) b ≠ .directory := by
    intro b _
    rw [hfiled]
    exact nofun
  have hup' : ∀ q qs, r :: rs = q :: qs → dirs qs := by
    intro q qs he
    cases he
    exact hup
  have hwrite := writeEntry_achieves h htop hrs hup' hplain d a
  have hself : c.set (r :: rs) (some a) = c := by
    funext qs
    by_cases hq : qs = r :: rs
    · rw [hq, Contents.set_self, ha]
    · rw [Contents.set_of_ne hq]
  rw [hself] at hwrite
  have hfile := h.file hrs
  rw [ha, Option.map_some, hfiled] at hfile
  rcases FileSystem.read_cases (h.directory (List.forall_mem_cons.mp hrs).2 hup) hfile with
    herr | ⟨-, hok⟩
  · refine .inl ?_
    have hread : readEntry t.files (t.root.down (r :: rs)).ldif = _ := readEntry_of_error herr
    simp [renameEntry, hread]
  · exact Achieves.look (readEntry_of_read hok hd' hwritable) hwrite

theorem dnBelow?_entryPlace (root : FileNode) (hqs : ∀ x ∈ q :: qs, x.Legible)
    (dst : List Rdn) : dnBelow? (root.down dst).dn (entryPlace q qs) =
      some (root.down (q :: qs ++ dst)).dn := by
  rw [entryPlace, dnBelow?_entry _ hqs, FileNode.down_dn, FileNode.down_dn, List.append_assoc]

/-- A file that is written anew holds what it should, and so do those that did before. -/
theorem filing_keep {root : FileNode} {qs : List Rdn} (hqs : filed qs = root.filing top qs) :
    (if qs = r :: rs then record (root.down (r :: rs)).dn else filed qs) = root.filing top qs := by
  split
  · rename_i he
    rw [he, FileNode.filing]
  · exact hqs

/-- Files at places below a directory are written anew under the names of their places. -/
theorem renameEntries_achieves {root : FileNode} (htop : root.Top) (hroot : root.dn.Legible)
    (hproper : e.Proper) (hdirs : ∀ {r rs a}, e (r :: rs) = some a → dirs rs)
    {places : List (List String)}
    (hplaces : ∀ p ∈ places, ∃ q qs a, p = entryPlace q qs ∧ e (q :: qs ++ dst) = some a)
    (ht : t.root = root) (h : Keeps t.files root e filed dirs) (hrecorded : Recorded e filed)
    (top : AttributeMap → FileObject) :
    Achieves (renameEntries (root.down dst).dir (root.down dst).dn places) t () fun t' =>
      ∃ filed', t'.root = root ∧ Keeps t'.files root e filed' dirs ∧
        (∀ qs, filed qs = root.filing top qs → filed' qs = root.filing top qs) ∧
        ∀ q qs b, e (q :: qs ++ dst) = some b → entryPlace q qs ∈ places →
          filed' (q :: qs ++ dst) = root.filing top (q :: qs ++ dst) ∧
            Fits (root.down (q :: qs ++ dst)).ldif := by
  induction places generalizing t filed with
  | nil => exact Achieves.pure ⟨filed, ht, h, fun _ he => he, fun _ _ _ _ hq => nomatch hq⟩
  | cons place places ih =>
      obtain ⟨q, qs, a, rfl, ha⟩ := hplaces _ List.mem_cons_self
      have hlegible : ∀ x ∈ q :: qs ++ dst, x.Legible := hproper.has_legible (.inr ⟨a, ha⟩)
      have hqs : ∀ x ∈ q :: qs, x.Legible := fun x hx => hlegible x (List.mem_append_left _ hx)
      subst ht
      have hrename := renameEntry_achieves h htop hlegible (hdirs ha) ha
        (hproper.writable ha) hrecorded (t.root.down (q :: qs ++ dst)).dn
      rw [renameEntries, dnBelow?_entryPlace t.root hqs, entryPlace_path]
      refine hrename.bind fun t₁ ht₁ => ?_
      obtain ⟨hfits, hroot₁, hkeeps₁⟩ := ht₁
      have hrecorded₁ := hrecorded.set (q :: qs ++ dst) (FileNode.down_legible hroot hlegible)
      refine (ih (fun p hp => hplaces p (List.mem_cons_of_mem _ hp)) hroot₁ hkeeps₁
        hrecorded₁).mono fun t₂ ht₂ => ?_
      obtain ⟨filed', hroot₂, hkeeps₂, hkeep, hdone⟩ := ht₂
      refine ⟨filed', hroot₂, hkeeps₂, fun ws hws => hkeep ws (filing_keep hws),
        fun q' qs' b hb hq' => ?_⟩
      rcases List.mem_cons.mp hq' with he | hq'
      · have hpath : (Spot.entry (q' :: qs' ++ dst)).path t.root =
            (Spot.entry (q :: qs ++ dst)).path t.root := by
          rw [Spot.path, Spot.path, ← entryPlace_path, ← entryPlace_path, he]
        have hlegible' : ∀ x ∈ q' :: qs' ++ dst, x.Legible := hproper.has_legible (.inr ⟨b, hb⟩)
        have heq := Spot.path_inj htop (show (Spot.entry (q' :: qs' ++ dst)).Legible from hlegible')
          (show (Spot.entry (q :: qs ++ dst)).Legible from hlegible) hpath
        rw [Spot.entry.injEq] at heq
        rw [heq]
        exact ⟨hkeep _ (if_pos rfl), hfits⟩
      · exact hdone q' qs' b hb hq'

/-- An entry and all below it are written anew under the names of their places. -/
theorem renameSubtree_achieves {root : FileNode} (htop : root.Top) (hroot : root.dn.Legible)
    (hproper : e.Proper) (hdirs : ∀ {r rs a}, e (r :: rs) = some a → dirs rs)
    (ha : e (r :: vs) = some a)
    (hshort : dirs (r :: vs) → FileSystem.fits (root.down (r :: vs)).dir.text = true)
    (ht : t.root = root) (h : Keeps t.files root e filed dirs) (hrecorded : Recorded e filed)
    (top : AttributeMap → FileObject) :
    Achieves (renameSubtree (root.down (r :: vs))) t () fun t' =>
      ∃ filed', t'.root = root ∧ Keeps t'.files root e filed' dirs ∧
        (∀ qs, filed qs = root.filing top qs → filed' qs = root.filing top qs) ∧
        ∀ ls b, e (ls ++ r :: vs) = some b →
          filed' (ls ++ r :: vs) = root.filing top (ls ++ r :: vs) ∧
            Fits (root.down (ls ++ r :: vs)).ldif := by
  have hdst : ∀ x ∈ r :: vs, x.Legible := hproper.has_legible (.inr ⟨a, ha⟩)
  subst ht
  have hrename := renameEntry_achieves h htop hdst (hdirs ha) ha (hproper.writable ha) hrecorded
    (t.root.down (r :: vs)).dn
  refine hrename.bind fun t₁ ht₁ => ?_
  obtain ⟨hfits, hroot₁, hkeeps₁⟩ := ht₁
  by_cases hopen : dirs (r :: vs)
  · have hdir : t₁.files.isDirectory (t.root.down (r :: vs)).dir = true :=
      FileSystem.isDirectory_iff.mpr ⟨hshort hopen, hkeeps₁.directory hdst hopen⟩
    refine Achieves.glance hdir (Achieves.glance rfl ?_)
    have hrecorded₁ := hrecorded.set (r :: vs) (FileNode.down_legible hroot hdst)
    have hmem : ∀ {place}, place ∈ entryFiles t₁.files (t.root.down (r :: vs)).dir ↔
        ∃ q qs a, place = entryPlace q qs ∧ (∀ x ∈ q :: qs ++ r :: vs, x.Legible) ∧
          e (q :: qs ++ r :: vs) = some a := by
      rw [← hroot₁] at hkeeps₁ htop hrecorded₁ ⊢
      exact mem_entryFiles hkeeps₁ htop hrecorded₁ hdst
    refine (renameEntries_achieves htop hroot hproper hdirs (fun p hp => ?_) hroot₁ hkeeps₁
      hrecorded₁ top).mono fun t₂ ht₂ => ?_
    · obtain ⟨q, qs, b, hplace, -, hb⟩ := hmem.mp hp
      exact ⟨q, qs, b, hplace, hb⟩
    · obtain ⟨filed', hroot₂, hkeeps₂, hkeep₂, hdone⟩ := ht₂
      refine ⟨filed', hroot₂, hkeeps₂, fun qs hqs => hkeep₂ qs (filing_keep hqs), ?_⟩
      intro ls b hb
      cases ls with
      | nil => exact ⟨hkeep₂ _ (if_pos rfl), hfits⟩
      | cons q qs =>
          refine hdone q qs b hb (hmem.mpr ⟨q, qs, b, rfl, ?_, hb⟩)
          exact hproper.has_legible (.inr ⟨b, hb⟩)
  · refine Achieves.glance (hkeeps₁.isDirectory_eq_false hdst hopen) (Achieves.pure ?_)
    refine ⟨_, hroot₁, hkeeps₁, fun qs hqs => filing_keep hqs, ?_⟩
    intro ls b hb
    cases ls with
    | nil => exact ⟨if_pos rfl, hfits⟩
    | cons q qs =>
        obtain ⟨q', b', hq⟩ := hproper.hasChild_of_append ⟨q, b, hb⟩
        exact absurd (hdirs hq) hopen

/-! ## Files and directories -/

/-- The file of an entry goes to a free place. -/
theorem renameFile_achieves (h : Keeps t.files t.root c filed dirs) (htop : t.root.Top)
    (hsrc : ∀ x ∈ s :: us, x.Legible) (hdst : ∀ x ∈ r :: vs, x.Legible) (hus : dirs us)
    (hvs : dirs vs) (ha : c (s :: us) = some a) (hfree : c (r :: vs) = none) :
    Achieves (onFiles fun files =>
        files.rename (t.root.down (s :: us)).ldif (t.root.down (r :: vs)).ldif) t () fun t' =>
      Fits (t.root.down (r :: vs)).ldif ∧
        KeepsFrom t ((c.set (s :: us) none).set (r :: vs) (c (s :: us)))
          (fun qs => if qs = r :: vs then filed (s :: us) else filed qs) dirs t' := by
  have hthere := h.file hsrc
  have hnone := h.file hdst
  rw [ha, Option.map_some] at hthere
  rw [hfree, Option.map_none] at hnone
  have hout : ¬ (t.root.down (s :: us)).ldif <:+ (t.root.down (r :: vs)).ldif := by
    rw [ldif_suffix_ldif hsrc hdst]
    intro he
    rw [he, hfree] at ha
    cases ha
  refine Achieves.onFiles ?_
  rcases FileSystem.rename_cases (h.directory (List.forall_mem_cons.mp hsrc).2 hus)
    (h.directory (List.forall_mem_cons.mp hdst).2 hvs) hthere hnone hout with herr | ⟨hfits, hok⟩
  · exact .inl herr
  · exact .inr ⟨_, hok, hfits, rfl, h.moveFile htop hsrc hdst hfree⟩

/-- The directory of an entry goes to a free place. -/
theorem renameDirectory_achieves (h : Keeps t.files t.root c filed dirs) (htop : t.root.Top)
    (hsrc : ∀ x ∈ s :: us, x.Legible) (hdst : ∀ x ∈ r :: vs, x.Legible) (hus : dirs us)
    (hvs : dirs vs) (hthere : dirs (s :: us)) (hout : ¬ s :: us <:+ r :: vs)
    (hfree : ∀ q qs, r :: vs <:+ qs → c (q :: qs) = none)
    (hclosed : ∀ qs, r :: vs <:+ qs → ¬ dirs qs) :
    Achieves (onFiles fun files =>
        files.rename (t.root.down (s :: us)).dir (t.root.down (r :: vs)).dir) t () fun t' =>
      FileSystem.fits (t.root.down (r :: vs)).dir.text = true ∧
        KeepsFrom t
          (fun qs => if (Spot.entry qs).Under (r :: vs) then c (rebase (r :: vs) (s :: us) qs)
            else if (Spot.entry qs).Under (s :: us) then none else c qs)
          (fun qs => if (Spot.entry qs).Under (r :: vs) then filed (rebase (r :: vs) (s :: us) qs)
            else filed qs)
          (fun qs => (r :: vs <:+ qs ∧ dirs (rebase (r :: vs) (s :: us) qs)) ∨
            (¬ r :: vs <:+ qs ∧ ¬ s :: us <:+ qs ∧ dirs qs)) t' := by
  have hthere' := h.directory hsrc hthere
  have hnone := h.noDirectory hdst (hclosed _ (List.suffix_refl _))
  have hout' : ¬ (t.root.down (s :: us)).dir <:+ (t.root.down (r :: vs)).dir := by
    rw [dir_suffix_dir hsrc hdst]
    exact hout
  refine Achieves.onFiles ?_
  rcases FileSystem.rename_cases (h.directory (List.forall_mem_cons.mp hsrc).2 hus)
    (h.directory (List.forall_mem_cons.mp hdst).2 hvs) hthere' hnone hout' with herr | ⟨hfits, hok⟩
  · exact .inl herr
  · exact .inr ⟨_, hok, hfits.1, rfl, h.moveDirectory htop hsrc hdst hfree hclosed⟩

/-! ## Moves -/

/-- What stands in the files after a move, before they are written anew. -/
def filingTaken (root : FileNode) (top : AttributeMap → FileObject) (src dst : List Rdn) : Filing :=
  fun qs => root.filing top (if dst <:+ qs then rebase dst src qs else qs)

/-- A tree whose files have gone with a move. -/
structure Taken (root : FileNode) (top : AttributeMap → FileObject) (c : Contents)
    (src dst us : List Rdn) (t : FileTree) : Prop where
  root_eq : t.root = root
  keeps : Keeps t.files root (c.move src dst) (filingTaken root top src dst)
    (fun qs => qs = us ∨ (c.move src dst).Opens qs)
  short : c.HasChild src → FileSystem.fits (root.down dst).dir.text = true

theorem taken_of_leaf {root : FileNode} (hm : c.Movable s us r vs) (hproper : c.Proper)
    (hleaf : ¬ c.HasChild (s :: us)) (ht : t.root = root)
    (h : Keeps t.files root ((c.set (s :: us) none).set (r :: vs) (c (s :: us)))
      (fun qs => if qs = r :: vs then root.filing top (s :: us) else root.filing top qs)
      (fun qs => qs = vs ∨ c.Opens qs)) : Taken root top c (s :: us) (r :: vs) us t where
  root_eq := ht
  keeps := by
    rw [hm.move_eq_of_leaf hproper hleaf] at h
    refine h.congr ?_ fun qs => hm.opens_iff_of_leaf hproper hleaf
    intro qs b hb
    show _ = root.filing top (if _ then _ else _)
    rcases Contents.move_eq_some_iff.mp hb with ⟨ls, rfl, hb'⟩ | ⟨hd, -, -⟩
    · cases ls with
      | nil =>
          rw [List.nil_append, if_pos rfl, if_pos (List.suffix_refl _)]
          exact congrArg (root.filing top) (rebase_append _ _ []).symm
      | cons q ls =>
          rw [List.cons_append] at hb'
          exact absurd (hproper.hasChild_of_append ⟨q, b, hb'⟩) hleaf
    · rw [if_neg (ne_of_not_suffix hd), if_neg hd]
  short := fun hchild => absurd hchild hleaf

theorem taken_of_tree {root : FileNode} (hm : c.Movable s us r vs) (hproper : c.Proper)
    (ht : t.root = root) (hshort : FileSystem.fits (root.down (r :: vs)).dir.text = true)
    (h : Keeps t.files root
      (fun qs => if (Spot.entry qs).Under (r :: vs) then
          ((c.set (s :: us) none).set (r :: vs) (c (s :: us))) (rebase (r :: vs) (s :: us) qs)
        else if (Spot.entry qs).Under (s :: us) then none
        else ((c.set (s :: us) none).set (r :: vs) (c (s :: us))) qs)
      (fun qs => if (Spot.entry qs).Under (r :: vs) then
          if rebase (r :: vs) (s :: us) qs = r :: vs then root.filing top (s :: us)
          else root.filing top (rebase (r :: vs) (s :: us) qs)
        else if qs = r :: vs then root.filing top (s :: us) else root.filing top qs)
      (fun qs => (r :: vs <:+ qs ∧ (rebase (r :: vs) (s :: us) qs = vs ∨
          c.Opens (rebase (r :: vs) (s :: us) qs))) ∨
        (¬ r :: vs <:+ qs ∧ ¬ s :: us <:+ qs ∧ (qs = vs ∨ c.Opens qs)))) :
    Taken root top c (s :: us) (r :: vs) us t where
  root_eq := ht
  keeps := by
    rw [hm.move_eq hproper] at h
    refine h.congr ?_ fun qs => hm.opens_iff hproper
    intro qs b hb
    show _ = root.filing top (if _ then _ else _)
    by_cases hd : r :: vs <:+ qs
    · rw [if_pos hd]
      rcases Contents.suffix_cases hd with rfl | ⟨q, ls, rfl⟩
      · rw [if_neg (mt Spot.under_entry.mp (Contents.cons_not_suffix r vs)), if_pos rfl]
        exact congrArg (root.filing top) (rebase_append _ _ []).symm
      · have hunder : (Spot.entry (q :: ls ++ r :: vs)).Under (r :: vs) :=
          List.suffix_append ls _
        have hne : q :: ls ++ s :: us ≠ r :: vs := by
          intro he
          exact hm.not_source_suffix hproper (he ▸ List.suffix_append _ _)
        rw [if_pos hunder, rebase_append, if_neg hne]
    · rw [if_neg (Spot.not_under_entry hd), if_neg (ne_of_not_suffix hd), if_neg hd]
  short := fun _ => hshort

theorem moveTo_error {node : FileNode} {err : TreeError}
    (hd : t.destination node target = .error err) :
    (moveTo node target).run t = (.error err, t) := by
  simp only [moveTo, Edit.run_bind, Edit.run_look, hd]

namespace Houses

/-- Where an entry may go, if its own name does not keep it from going. -/
theorem destination_eq (h : t.Houses top c) (ha : c (s :: us) = some a)
    (hout : (t.root.down (s :: us)).dn.contains target = false) :
    t.destination (t.root.down (s :: us)) target = (do
      let up ← Tree.lookup t t.root (← Tree.above target)
      let r ← Tree.leaf target
      if (t.childNode? up r).isSome then .error (.alreadyExists target) else .ok (up, r)) := by
  have hroot := isRoot_down_cons t s us
  have hsame : (t.root.down (s :: us)).dn.same target = false := by
    rw [Bool.eq_false_iff]
    intro hsame
    rw [Dn.contains_iff.mpr (Dn.same_iff.mp hsame ▸ List.prefix_refl _)] at hout
    cases hout
  rw [destination, hroot, hsame, hout, h.isFile ha]
  rfl

theorem destination_emptyDn (h : t.Houses top c) (ha : c (s :: us) = some a)
    (hout : (t.root.down (s :: us)).dn.contains target = false) (hnil : target.rdns = []) :
    t.destination (t.root.down (s :: us)) target = .error (.name .emptyDn) := by
  have habove : Tree.above target = .error (.name .emptyDn) := by
    rw [Tree.above, Dn.up?, hnil]
  rw [h.destination_eq ha hout, habove]
  rfl

/-- The name above the new one is looked up from the root, and the rest must be free there. -/
theorem destination_of_top (h : t.Houses top c) (ha : c (s :: us) = some a)
    (hout : (t.root.down (s :: us)).dn.contains target = false) {ls : List Rdn}
    (htop : target.rdns = r :: ls) :
    t.destination (t.root.down (s :: us)) target = (do
      let up ← Tree.lookup t t.root ⟨ls⟩
      if (t.childNode? up r).isSome then .error (.alreadyExists target) else .ok (up, r)) := by
  have habove : Tree.above target = .ok ⟨ls⟩ := by
    rw [Tree.above, Dn.up?, htop]
  have hleaf : Tree.leaf target = .ok r := by
    rw [Tree.leaf, Dn.leaf?, htop]
    rfl
  rw [h.destination_eq ha hout, habove, hleaf]
  rfl

theorem destination_same (hsame : (t.root.down (s :: us)).dn.same target = true) :
    t.destination (t.root.down (s :: us)) target = .error (.alreadyExists target) := by
  have hroot := isRoot_down_cons t s us
  rw [destination, hroot, hsame]
  rfl

theorem destination_contains (hsame : (t.root.down (s :: us)).dn.same target = false)
    (hcontains : (t.root.down (s :: us)).dn.contains target = true) :
    t.destination (t.root.down (s :: us)) target =
      .error (.invalidMove (t.root.down (s :: us)).dn target) := by
  have hroot := isRoot_down_cons t s us
  rw [destination, hroot, hsame, hcontains]
  rfl

theorem destination_root : t.destination t.root target = .error (.rootStays t.root.dn) :=
  if_pos ((isRoot_down t []).mpr rfl)

/-- What is below an entry goes along with its directory. -/
theorem renameDirectory_taken (h : t.Houses top c) (hm : c.Movable s us r vs)
    (ht : t'.root = t.root)
    (hkeeps : Keeps t'.files t.root ((c.set (s :: us) none).set (r :: vs) (c (s :: us)))
      (fun qs => if qs = r :: vs then t.root.filing top (s :: us) else t.root.filing top qs)
      (fun qs => qs = vs ∨ c.Opens qs))
    (hthere : t'.files.isDirectory (t.root.down (s :: us)).dir = true) :
    Achieves (onFiles fun files =>
        files.rename (t.root.down (s :: us)).dir (t.root.down (r :: vs)).dir) t' ()
      (Taken t.root top c (s :: us) (r :: vs) us) := by
  obtain ⟨a, ha⟩ := hm.source
  have hsrc : ∀ x ∈ s :: us, x.Legible := h.legible (.inr ⟨a, ha⟩)
  have hdst : ∀ x ∈ r :: vs, x.Legible := List.forall_mem_cons.mpr ⟨hm.legible, h.legible hm.parent⟩
  have hopen : s :: us = vs ∨ c.Opens (s :: us) := by
    by_cases hopen : s :: us = vs ∨ c.Opens (s :: us)
    · exact hopen
    · rw [hkeeps.isDirectory_eq_false hsrc hopen] at hthere
      cases hthere
  have hfree : ∀ q qs, r :: vs <:+ qs →
      ((c.set (s :: us) none).set (r :: vs) (c (s :: us))) (q :: qs) = none := by
    intro q qs hq
    have hne : q :: qs ≠ r :: vs := by
      intro he
      rw [he.symm] at hq
      exact Contents.cons_not_suffix q qs hq
    rw [Contents.set_of_ne hne]
    by_cases hs : q :: qs = s :: us
    · rw [hs, Contents.set_self]
    · rw [Contents.set_of_ne hs, hm.eq_none h.proper (Contents.suffix_of_cons hq q)]
  rw [← ht] at hkeeps
  have hrename := renameDirectory_achieves hkeeps (ht ▸ h.rooted.top) hsrc hdst
    (.inr (.inr ⟨s, a, ha⟩)) (.inl rfl) hopen (hm.not_source_suffix h.proper) hfree
    fun qs => hm.closed h.proper
  rw [ht] at hrename
  refine hrename.mono fun t₂ ht₂ => ?_
  obtain ⟨hshort, hroot₂, hkeeps₂⟩ := ht₂
  rw [ht] at hroot₂ hkeeps₂
  exact taken_of_tree hm h.proper hroot₂ hshort hkeeps₂

theorem filing_recorded {root : FileNode} (hroot : root.dn.Legible) (h : c.Has (q :: qs))
    (hproper : c.Proper) : ∃ d, d.Legible ∧ root.filing top (q :: qs) = record d :=
  ⟨_, FileNode.down_legible hroot (hproper.has_legible h), rfl⟩

/-- What a move has taken along is written anew. -/
theorem renameSubtree_taken (h : t.Houses top c) (hm : c.Movable s us r vs)
    (ht : Taken t.root top c (s :: us) (r :: vs) us t') :
    Achieves (renameSubtree (t.root.down (r :: vs))) t' () fun t'' =>
      (∀ {q qs b}, c.move (s :: us) (r :: vs) (q :: qs) = some b →
          Fits (t.root.down (q :: qs)).ldif) ∧
        KeepsFrom t (c.move (s :: us) (r :: vs)) (t.root.filing top)
          (fun qs => qs = us ∨ (c.move (s :: us) (r :: vs)).Opens qs) t'' := by
  obtain ⟨a, ha⟩ := hm.source
  have hmoved : c.move (s :: us) (r :: vs) (r :: vs) = some a :=
    (Contents.move_append c _ _ []).trans ha
  have hshort : (r :: vs = us ∨ (c.move (s :: us) (r :: vs)).Opens (r :: vs)) →
      FileSystem.fits (t.root.down (r :: vs)).dir.text = true := by
    intro hopen
    rcases hopen with he | hnil | ⟨q, b, hb⟩
    · exact absurd (he ▸ List.suffix_cons s us) (hm.not_suffix_source h.proper)
    · cases hnil
    · exact ht.short ⟨q, b, (Contents.move_append c _ _ [q]).symm.trans hb⟩
  have hrecorded : Recorded (c.move (s :: us) (r :: vs))
      (filingTaken t.root top (s :: us) (r :: vs)) := by
    intro q qs b hb
    rw [filingTaken]
    rcases Contents.move_eq_some_iff.mp hb with ⟨ls, he, hb'⟩ | ⟨hd, -, hb'⟩
    · rw [if_pos ⟨ls, he.symm⟩, he, rebase_append]
      cases ls with
      | nil => exact filing_recorded h.rooted.legible (.inr ⟨b, hb'⟩) h.proper
      | cons l ls => exact filing_recorded h.rooted.legible (.inr ⟨b, hb'⟩) h.proper
    · rw [if_neg hd]
      exact filing_recorded h.rooted.legible (.inr ⟨b, hb'⟩) h.proper
  refine (renameSubtree_achieves h.rooted.top h.rooted.legible (h.proper.move hm)
    (fun hb => .inr (.inr ⟨_, _, hb⟩)) hmoved hshort ht.root_eq ht.keeps hrecorded top).mono
    fun t₂ ht₂ => ?_
  obtain ⟨filed', hroot, hkeeps, hkeep, hdone⟩ := ht₂
  refine ⟨?_, hroot, hkeeps.congr ?_ fun qs => Iff.rfl⟩
  · intro q qs b hb
    rcases Contents.move_eq_some_iff.mp hb with ⟨ls, he, -⟩ | ⟨-, -, hb'⟩
    · rw [he] at hb ⊢
      exact (hdone ls b hb).2
    · exact h.fits hb'
  · intro qs b hb
    by_cases hd : r :: vs <:+ qs
    · obtain ⟨ls, rfl⟩ := hd
      exact (hdone ls b hb).1
    · refine hkeep qs ?_
      rw [filingTaken, if_neg hd]

/-- An entry goes with all below it to a place where it may go. -/
theorem moveTo_achieves (h : t.Houses top c) (hm : c.Movable s us r vs)
    (hdest : t.destination (t.root.down (s :: us)) target = .ok (t.root.down vs, r)) :
    Achieves (moveTo (t.root.down (s :: us)) target) t (t.root.down (r :: vs)) fun t' =>
      t'.root = t.root ∧ t'.Houses top (c.move (s :: us) (r :: vs)) := by
  obtain ⟨a, ha⟩ := hm.source
  have htop := h.rooted.top
  have hproper := h.proper.move hm
  have hsrc : ∀ x ∈ s :: us, x.Legible := h.legible (.inr ⟨a, ha⟩)
  have hdst : ∀ x ∈ r :: vs, x.Legible := List.forall_mem_cons.mpr ⟨hm.legible, h.legible hm.parent⟩
  have hus : c.Opens us := .inr ⟨s, a, ha⟩
  refine Achieves.look hdest ?_
  refine (ensureDirectory_achieves h hm.parent).bind fun t₁ ht₁ => ?_
  obtain ⟨-, hroot₁, hkeeps₁⟩ := ht₁
  have hparent : t₁.parent (t.root.down (s :: us)) = .ok (some (t.root.down us)) := by
    rw [← hroot₁]
    exact parent_down (hroot₁ ▸ htop) s us
  refine Achieves.look hparent ?_
  rw [← hroot₁] at hkeeps₁
  have hfile := renameFile_achieves hkeeps₁ (hroot₁ ▸ htop) hsrc hdst (.inr hus) (.inl rfl) ha
    (hm.eq_none h.proper (List.suffix_refl _))
  rw [hroot₁] at hfile
  refine hfile.bind fun t₂ ht₂ => ?_
  obtain ⟨-, hroot₂, hkeeps₂⟩ := ht₂
  rw [hroot₁] at hroot₂ hkeeps₂
  refine Achieves.glance rfl (Achieves.ifThen (P := Taken t.root top c (s :: us) (r :: vs) us)
    (fun hthere => h.renameDirectory_taken hm hroot₂ hkeeps₂ hthere) (fun hno => ?_)
    fun t₃ ht₃ => ?_)
  · have hleaf : ¬ c.HasChild (s :: us) := by
      intro hchild
      obtain ⟨hfits, -⟩ := FileSystem.isDirectory_iff.mp
        ((h.isDirectory_iff hsrc).mpr (.inr hchild))
      have hdir := hkeeps₂.directory hsrc (.inr (.inr hchild))
      rw [FileSystem.isDirectory_iff.mpr ⟨hfits, hdir⟩] at hno
      cases hno
    exact taken_of_leaf hm h.proper hleaf hroot₂ hkeeps₂
  refine (h.renameSubtree_taken hm ht₃).bind fun t₄ ht₄ => ?_
  obtain ⟨hfits, hroot₄, hkeeps₄⟩ := ht₄
  have hshort : FileSystem.fits (t.root.down us).dir.text = true :=
    (FileSystem.isDirectory_iff.mp ((h.isDirectory_iff (List.forall_mem_cons.mp hsrc).2).mpr hus)).1
  rw [← hroot₄] at hkeeps₄ hshort
  have hprune := pruneDirectory_achieves hkeeps₄ (hroot₄ ▸ htop) hproper
    (hm.source_parent_move h.proper) (fun qs => Iff.rfl) hshort
  rw [hroot₄] at hprune
  refine hprune.bind fun t₅ ht₅ => Achieves.pure ?_
  obtain ⟨hroot₅, hkeeps₅⟩ := ht₅
  rw [hroot₄] at hroot₅ hkeeps₅
  exact ⟨hroot₅, h.after hroot₅ hproper hkeeps₅ hfits⟩

end Houses

end FileTree
end DirectoryStore
