import DirectoryStore.Proofs.Files.Reading
import DirectoryStore.Proofs.Tree.Calls

/-!
# Changing a tree in files

Each operation either fails for a reason that shows in the contents, and then leaves the tree
alone, or changes the contents at one place.  Only a path that is too long can keep it from
that.
-/

namespace DirectoryStore
namespace FileTree

open FileSystem (Fits)

variable {α β : Type} {t : FileTree} {P Q : FileTree → Prop} {c : Contents}
variable {filed : Filing} {dirs : List Rdn → Prop} {rs : List Rdn} {r s : Rdn} {d : Dn}
variable {a b : AttributeMap} {top : AttributeMap → FileObject}

/-- An edit gives a result and leads to a tree that satisfies `P`, unless a path is too long. -/
def Achieves (x : Edit FileTree α) (t : FileTree) (a : α) (P : FileTree → Prop) : Prop :=
  (x.run t).1 = .error (.io .nameTooLong) ∨ ∃ t', x.run t = (.ok a, t') ∧ P t'

namespace Achieves

variable {x : Edit FileTree α} {a : α} {b : β} {k : α → Edit FileTree β}

theorem pure (h : P t) : Achieves (Pure.pure a) t a P :=
  .inr ⟨t, rfl, h⟩

theorem mono (h : Achieves x t a P) (hPQ : ∀ t', P t' → Q t') : Achieves x t a Q := by
  rcases h with herr | ⟨t', hrun, ht'⟩
  · exact .inl herr
  · exact .inr ⟨t', hrun, hPQ t' ht'⟩

theorem bind (h : Achieves x t a P) (hk : ∀ t', P t' → Achieves (k a) t' b Q) :
    Achieves (x >>= k) t b Q := by
  rcases h with herr | ⟨t', hrun, ht'⟩
  · refine .inl ?_
    rw [Edit.run_bind]
    cases hx : x.run t with
    | mk res t₁ =>
        rw [hx] at herr
        cases herr
        rfl
  · have hrun' : (x >>= k).run t = (k a).run t' := by
      rw [Edit.run_bind, hrun]
    rw [Achieves, hrun']
    exact hk t' ht'

theorem look {f : FileTree → Except TreeError α} (hf : f t = .ok a)
    (h : Achieves (k a) t b Q) : Achieves (Edit.look f >>= k) t b Q := by
  have hrun : (Edit.look f >>= k).run t = (k a).run t := by
    rw [Edit.run_bind, Edit.run_look, hf]
  rw [Achieves, hrun]
  exact h

theorem glance {f : FileTree → α} (hf : f t = a) (h : Achieves (k a) t b Q) :
    Achieves (FileTree.glance f >>= k) t b Q :=
  look (congrArg Except.ok hf) h

theorem ifThen {y : Edit FileTree Unit} {k : Unit → Edit FileTree β} {there : Bool}
    (htrue : there = true → Achieves y t () P) (hfalse : there = false → P t)
    (hk : ∀ t', P t' → Achieves (k ()) t' b Q) :
    Achieves (if there = true then y >>= k else k ()) t b Q := by
  cases there with
  | true => exact (htrue rfl).bind hk
  | false => exact hk t (hfalse rfl)

theorem onFiles {f : FileSystem → Except FileFault FileSystem}
    (h : f t.files = .error .nameTooLong ∨ ∃ files, f t.files = .ok files ∧
      P { t with files }) : Achieves (FileTree.onFiles f) t () P := by
  rcases h with herr | ⟨files, hok, hP⟩
  · refine .inl ?_
    rw [FileTree.onFiles, Edit.run_change, herr]
  · refine .inr ⟨_, ?_, hP⟩
    rw [FileTree.onFiles, Edit.run_change, hok]

end Achieves

/-! ## Steps -/

/-- A tree with the same root whose files keep contents. -/
def KeepsFrom (t : FileTree) (c : Contents) (filed : Filing) (dirs : List Rdn → Prop)
    (t' : FileTree) : Prop :=
  t'.root = t.root ∧ Keeps t'.files t.root c filed dirs

theorem writeEntry_achieves (h : Keeps t.files t.root c filed dirs) (htop : t.root.Top)
    (hrs : ∀ x ∈ rs, x.Legible) (hup : ∀ r qs, rs = r :: qs → dirs qs)
    (hnot : ∀ {b}, c rs = some b → filed rs b ≠ .directory) (d : Dn) (a : AttributeMap) :
    Achieves (writeEntry (t.root.down rs).ldif ⟨d, a⟩) t () fun t' =>
      Fits (t.root.down rs).ldif ∧
        KeepsFrom t (c.set rs (some a)) (fun qs => if qs = rs then record d else filed qs) dirs
          t' := by
  obtain ⟨name, dir, hldif, hdir⟩ := h.exists_ldif htop hrs hup
  have hkeeps := h.putEntry htop hrs d a
  have hfile := h.file hrs
  rw [hldif] at hkeeps hfile ⊢
  have hnot : t.files.object? (name :: dir) ≠ some .directory := by
    rw [hfile, ne_eq, Option.map_eq_some_iff]
    intro hdirectory
    obtain ⟨b, hb, hobject⟩ := hdirectory
    exact hnot hb hobject
  refine Achieves.onFiles ?_
  rcases FileSystem.write_cases hdir hnot (utf8 (Entry.ldif ⟨d, a⟩)) with herr | ⟨hfits, hok⟩
  · exact .inl herr
  · exact .inr ⟨_, hok, hfits, rfl, hkeeps⟩

theorem ensureDirectory_achieves (h : t.Houses top c) (hrs : c.Has rs) :
    Achieves (ensureDirectory (t.root.down rs)) t () fun t' =>
      FileSystem.fits (t.root.down rs).dir.text = true ∧
        KeepsFrom t c (t.root.filing top) (fun qs => qs = rs ∨ c.Opens qs) t' := by
  by_cases hopen : c.Opens rs
  · have hdir := (h.isDirectory_iff (h.legible hrs)).mpr hopen
    refine Achieves.glance hdir (Achieves.pure ⟨(FileSystem.isDirectory_iff.mp hdir).1, rfl, ?_⟩)
    refine h.keeps.congr (fun _ => rfl) fun qs => (or_iff_right_of_imp ?_).symm
    intro he
    exact he ▸ hopen
  · cases rs with
    | nil => exact absurd (.inl rfl) hopen
    | cons r us =>
        obtain ⟨a, ha⟩ := hrs.resolve_left (List.cons_ne_nil _ _)
        have hlegible := h.legible hrs
        have hno : t.files.isDirectory (t.root.down (r :: us)).dir = false :=
          Bool.eq_false_iff.mpr (mt (h.isDirectory_iff hlegible).mp hopen)
        have hthere : (!t.isRoot (t.root.down (r :: us)) &&
            !t.files.isFile (t.root.down (r :: us)).ldif) = false := by
          rw [h.isFile ha, Bool.not_true, Bool.and_false]
        have hup : t.files.object? (t.root.down us).dir = some .directory :=
          h.keeps.directory (List.forall_mem_cons.mp hlegible).2 (.inr ⟨r, a, ha⟩)
        have hnone := h.keeps.noDirectory hlegible hopen
        refine Achieves.glance hno (Achieves.glance hthere ?_)
        have hkeeps := h.keeps.putDirectory h.rooted.top hlegible
        rcases FileSystem.makeDirectory_cases hup hnone with herr | ⟨hfits, hok⟩
        · have herr' : t.files.makeDirectory (t.root.down (r :: us)).dir =
              .error .nameTooLong := herr
          refine .inl ?_
          simp [herr']
        · have hok' : t.files.makeDirectory (t.root.down (r :: us)).dir =
              .ok (t.files.put (t.root.down (r :: us)).dir .directory) := hok
          refine .inr ⟨{ t with files := t.files.put (t.root.down (r :: us)).dir .directory },
            ?_, hfits.1, rfl, hkeeps⟩
          simp [hok']

/-- Nothing is in the directory of a node without children. -/
theorem names_isEmpty (h : Keeps t.files t.root c filed dirs) (htop : t.root.Top)
    (hproper : c.Proper) (hrs : ∀ x ∈ rs, x.Legible)
    (hdirs : ∀ qs, dirs qs ↔ qs = rs ∨ c.Opens qs) (hleaf : ¬ c.HasChild rs) :
    (t.files.names (t.root.down rs).dir).isEmpty = true := by
  rw [FileSystem.names_eq_nil]
  intro name
  rw [Option.eq_none_iff_forall_ne_some]
  intro o ho
  obtain ⟨q, -, ⟨-, b, hb⟩ | ⟨-, hq⟩⟩ := h.name_cases htop hrs ho
  · exact hleaf ⟨q, b, hb⟩
  · rcases (hdirs _).mp hq with he | hnil | ⟨p, b, hb⟩
    · exact absurd he (List.cons_ne_self _ _)
    · cases hnil
    · obtain ⟨b', hb'⟩ := (hproper.closed hb).resolve_left (List.cons_ne_nil _ _)
      exact hleaf ⟨q, b', hb'⟩

theorem names_not_isEmpty (h : Keeps t.files t.root c filed dirs)
    (hrs : ∀ x ∈ r :: rs, x.Legible) (ha : c (r :: rs) = some a) :
    (t.files.names (t.root.down rs).dir).isEmpty = false := by
  have hfile := h.file hrs
  rw [ha, Option.map_some, FileNode.down_ldif] at hfile
  rw [← Bool.not_eq_true, FileSystem.names_eq_nil]
  intro hall
  rw [hall] at hfile
  cases hfile

/-- Pruning takes away the directory of a node that has no children. -/
theorem pruneDirectory_achieves (h : Keeps t.files t.root c filed dirs) (htop : t.root.Top)
    (hproper : c.Proper) (hrs : c.Has rs) (hdirs : ∀ qs, dirs qs ↔ qs = rs ∨ c.Opens qs)
    (hfits : FileSystem.fits (t.root.down rs).dir.text = true) :
    Achieves (pruneDirectory (t.root.down rs)) t () (KeepsFrom t c filed c.Opens) := by
  have hlegible := hproper.has_legible hrs
  have hdir := h.directory hlegible ((hdirs rs).mpr (.inl rfl))
  by_cases hopen : c.Opens rs
  · have hstay : (!t.isRoot (t.root.down rs) &&
        t.files.isEmptyDirectory (t.root.down rs).dir) = false := by
      rcases hopen with hnil | ⟨q, b, hb⟩
      · rw [(isRoot_down t rs).mpr hnil, Bool.not_true, Bool.false_and]
      · have hne := names_not_isEmpty h (hproper.has_legible (.inr ⟨b, hb⟩)) hb
        rw [FileSystem.isEmptyDirectory, hne, Bool.and_false, Bool.and_false]
    refine Achieves.glance hstay (Achieves.pure ⟨rfl, ?_⟩)
    refine h.congr (fun _ => rfl) fun qs => (hdirs qs).trans (or_iff_right_of_imp ?_)
    intro he
    exact he ▸ hopen
  · cases rs with
    | nil => exact absurd (.inl rfl) hopen
    | cons r us =>
        obtain ⟨a, ha⟩ := hrs.resolve_left (List.cons_ne_nil _ _)
        have hempty := names_isEmpty h htop hproper hlegible hdirs (fun hc => hopen (.inr hc))
        have hgo : (!t.isRoot (t.root.down (r :: us)) &&
            t.files.isEmptyDirectory (t.root.down (r :: us)).dir) = true := by
          rw [isRoot_down_cons, FileSystem.isEmptyDirectory, hempty,
            FileSystem.isDirectory_iff.mpr ⟨hfits, hdir⟩]
          rfl
        have hup : t.files.object? (t.root.down us).dir = some .directory :=
          h.directory (List.forall_mem_cons.mp hlegible).2 ((hdirs us).mpr (.inr (.inr ⟨r, a, ha⟩)))
        refine Achieves.glance hgo ?_
        rw [if_pos rfl]
        refine Achieves.onFiles ?_
        rcases FileSystem.removeDirectory_cases hup hdir
          (FileSystem.names_eq_nil.mp hempty) with herr | hok
        · exact .inl herr
        · refine .inr ⟨_, hok, rfl, ?_⟩
          refine (h.removeDirectory htop hlegible).congr (fun _ => rfl) fun qs => ?_
          rw [hdirs]
          constructor
          · intro hq
            exact hq.2.resolve_left hq.1
          · intro hq
            exact ⟨fun he => hopen (he ▸ hq), .inr hq⟩

/-! ## Operations -/

theorem filing_eq (root : FileNode) (top : AttributeMap → FileObject) (r : Rdn) (rs qs : List Rdn) :
    (if qs = r :: rs then record (root.down (r :: rs)).dn else root.filing top qs) =
      root.filing top qs := by
  split
  · rename_i h
    rw [h, FileNode.filing]
  · rfl

theorem run_glance {linked : Bool} {α β : Type} {t : FileTree linked} {f : FileTree linked → α}
    {k : α → Edit (FileTree linked) β} {x : α} {y : Except TreeError β × FileTree linked}
    (h : f t = x) (hk : (k x).run t = y) : (glance f >>= k).run t = y := by
  rw [Edit.run_bind, glance, Edit.run_look, h]
  exact hk

namespace Houses

/-- The tree after an operation houses other contents. -/
theorem after (h : t.Houses top c) {top' : AttributeMap → FileObject} {c' : Contents}
    {t' : FileTree} (hroot : t'.root = t.root) (hproper : c'.Proper)
    (hkeeps : Keeps t'.files t.root c' (t.root.filing top') c'.Opens)
    (hfits : ∀ {r rs a}, c' (r :: rs) = some a → Fits (t.root.down (r :: rs)).ldif) :
    t'.Houses top' c' := by
  rw [← hroot] at hkeeps hfits
  exact ⟨hroot ▸ h.rooted, hproper, hkeeps, hfits⟩

theorem fits_set (h : t.Houses top c) (hfits : Fits (t.root.down rs).ldif) {q : Rdn}
    {qs : List Rdn} (hb : c.set rs (some a) (q :: qs) = some b) :
    Fits (t.root.down (q :: qs)).ldif := by
  by_cases hq : q :: qs = rs
  · rw [hq]
    exact hfits
  · rw [Contents.set_of_ne hq] at hb
    exact h.fits hb

theorem addChild_exists (h : t.Houses top c) (hs : c (s :: rs) = some a) (hsame : s.same r = true)
    (b : AttributeMap) : (addChild (t.root.down rs) r b).run t =
      (.error (.alreadyExists ((t.root.down rs).dn.child r)), t) :=
  run_glance (h.childNode?_eq_some hs hsame) rfl

theorem addChild_achieves (h : t.Houses top c) (hrs : c.Has rs)
    (hno : ∀ s b, c (s :: rs) = some b → s.same r = false) (hr : r.Legible) (ha : a.Writable) :
    Achieves (addChild (t.root.down rs) r a) t (t.root.down (r :: rs)) fun t' =>
      t'.root = t.root ∧ t'.Houses top (c.set (r :: rs) (some a)) := by
  have hproper := h.proper.add ha hr hrs hno
  have hlegible : ∀ x ∈ r :: rs, x.Legible := List.forall_mem_cons.mpr ⟨hr, h.legible hrs⟩
  refine Achieves.glance (h.childNode?_eq_none (h.legible hrs) hno) ?_
  refine (ensureDirectory_achieves h hrs).bind fun t₁ ht₁ => ?_
  obtain ⟨-, hroot₁, hkeeps₁⟩ := ht₁
  rw [← hroot₁] at hkeeps₁
  have hwrite := writeEntry_achieves hkeeps₁ (hroot₁ ▸ h.rooted.top) hlegible
    (fun r' qs he => .inl (List.cons.inj he).2.symm) (fun _ => nofun) (t.root.down (r :: rs)).dn a
  rw [hroot₁] at hwrite
  refine hwrite.bind fun t₂ ht₂ => Achieves.pure ?_
  obtain ⟨hfits, hroot₂, hkeeps₂⟩ := ht₂
  rw [hroot₁] at hkeeps₂ hroot₂
  refine ⟨hroot₂, h.after hroot₂ hproper (hkeeps₂.congr ?_ ?_) ?_⟩
  · exact fun _ => filing_eq _ _ _ _ _
  · exact fun qs => (Contents.opens_set_cons c r rs qs a).symm
  · exact fits_set h hfits

/-- The attributes of an entry below the root are replaced. -/
theorem setAttributes_achieves (h : t.Houses top c) (hb : c (r :: rs) = some b) (ha : a.Writable) :
    Achieves (setAttributes (t.root.down (r :: rs)) a) t () fun t' =>
      t'.root = t.root ∧ t'.Houses top (c.set (r :: rs) (some a)) := by
  have hrs : c.Has (r :: rs) := .inr ⟨b, hb⟩
  have hproper := h.proper.replace ha hrs
  have hthere : (!t.isRoot (t.root.down (r :: rs)) &&
      !t.files.isFile (t.root.down (r :: rs)).ldif) = false := by
    rw [h.isFile hb, Bool.not_true, Bool.and_false]
  have hup : ∀ s qs, r :: rs = s :: qs → c.Opens qs := by
    intro s qs he
    cases he
    exact .inr ⟨r, b, hb⟩
  refine Achieves.glance hthere ?_
  refine (writeEntry_achieves h.keeps h.rooted.top (h.legible hrs) hup (fun _ => nofun) _ a).mono
    fun t' ht' => ?_
  obtain ⟨hfits, hroot, hkeeps⟩ := ht'
  refine ⟨hroot, h.after hroot hproper (hkeeps.congr ?_ ?_) ?_⟩
  · exact fun _ => filing_eq _ _ _ _ _
  · exact fun qs => (Contents.opens_replace hrs a).symm
  · exact fits_set h hfits

/-- The attributes of the root are put into its file, unless a directory is in the way.  The
    contents may show them or, as what is below the root does not depend on them, others. -/
theorem setAttributes_root (h : t.Houses top c)
    (hnot : t.files.object? t.root.ldif ≠ some .directory) (top' : AttributeMap → FileObject)
    (hb : b.Writable) (hshown : top' b = record t.root.dn a) :
    Achieves (setAttributes t.root a) t () fun t' =>
      t'.root = t.root ∧ t'.Houses top' (c.set [] (some b)) := by
  have hrs : c.Has [] := .inl rfl
  have hroot : t.isRoot t.root = true := (isRoot_down t []).mpr rfl
  have hthere : (!t.isRoot t.root && !t.files.isFile t.root.ldif) = false := by
    rw [hroot, Bool.not_true, Bool.false_and]
  have hfile := h.keeps.file (h.legible hrs)
  have hplain : ∀ {b}, c [] = some b → t.root.filing top [] b ≠ .directory := by
    intro b hb he
    rw [hb, Option.map_some, he] at hfile
    exact hnot hfile
  refine Achieves.glance hthere ?_
  refine (writeEntry_achieves h.keeps h.rooted.top (h.legible hrs) nofun hplain t.root.dn
    a).mono fun t' ht' => ?_
  obtain ⟨-, hroot, hkeeps⟩ := ht'
  refine ⟨hroot, h.after hroot (h.proper.replace hb hrs) (hkeeps.of_eq ?_ ?_) ?_⟩
  · intro qs
    cases qs with
    | nil =>
        rw [Contents.set_self, Contents.set_self, Option.map_some, Option.map_some, if_pos rfl,
          ← hshown]
        rfl
    | cons q qs =>
        rw [Contents.set_of_ne (List.cons_ne_nil _ _), Contents.set_of_ne (List.cons_ne_nil _ _),
          if_neg (List.cons_ne_nil _ _)]
        rfl
  · exact fun qs => (Contents.opens_replace hrs b).symm
  · intro q qs b hb
    rw [Contents.set_of_ne (List.cons_ne_nil _ _)] at hb
    exact h.fits hb

theorem deleteChild_missing (h : t.Houses top c) (hrs : ∀ x ∈ rs, x.Legible)
    (hno : ∀ s b, c (s :: rs) = some b → s.same r = false) :
    (deleteChild (t.root.down rs) r).run t =
      (.error (.notFound ((t.root.down rs).dn.child r)), t) :=
  run_glance (h.childNode?_eq_none hrs hno) rfl

theorem deleteChild_notLeaf (h : t.Houses top c) (hs : c (s :: rs) = some a)
    (hsame : s.same r = true) (hbelow : c.HasChild (s :: rs)) :
    (deleteChild (t.root.down rs) r).run t =
      (.error (.notLeaf (t.root.down (s :: rs)).dn), t) := by
  have hchild := h.childNode?_eq_some hs hsame
  have hdir := (h.isDirectory_iff (h.legible (.inr ⟨a, hs⟩))).mpr (.inr hbelow)
  obtain ⟨q, b, hb⟩ := hbelow
  have hne := names_not_isEmpty h.keeps (h.legible (.inr ⟨b, hb⟩)) hb
  have hinner : (t.files.isDirectory (t.root.down (s :: rs)).dir &&
      !t.files.isEmptyDirectory (t.root.down (s :: rs)).dir) = true := by
    simp [hdir, FileSystem.isEmptyDirectory, hne]
  exact run_glance hchild (run_glance hinner rfl)

theorem deleteChild_achieves (h : t.Houses top c) (hs : c (s :: rs) = some a)
    (hsame : s.same r = true) (hleaf : ¬ c.HasChild (s :: rs)) :
    Achieves (deleteChild (t.root.down rs) r) t () fun t' =>
      t'.root = t.root ∧ t'.Houses top (c.set (s :: rs) none) := by
  have hproper := h.proper.remove hleaf
  have hhas : c.Has (s :: rs) := .inr ⟨a, hs⟩
  have hrs := h.proper.closed hs
  have hclosed : ¬ c.Opens (s :: rs) := by
    intro hopen
    exact hleaf (hopen.resolve_left (List.cons_ne_nil _ _))
  have hnoDir : t.files.isDirectory (t.root.down (s :: rs)).dir = false :=
    Bool.eq_false_iff.mpr (mt (h.isDirectory_iff (h.legible hhas)).mp hclosed)
  have hdir := (h.isDirectory_iff (h.legible hrs)).mpr (.inr ⟨s, a, hs⟩)
  obtain ⟨hfits, hthere⟩ := FileSystem.isDirectory_iff.mp hdir
  have hfile := h.keeps.file (h.legible hhas)
  rw [hs, Option.map_some] at hfile
  refine Achieves.glance (h.childNode?_eq_some hs hsame) (Achieves.glance (a := false) ?_ ?_)
  · rw [hnoDir, Bool.false_and]
  rw [if_neg Bool.false_ne_true]
  have hremove : Achieves (FileTree.onFiles fun files =>
      files.removeFile (t.root.down (s :: rs)).ldif) t ()
      (KeepsFrom t (c.set (s :: rs) none) (t.root.filing top) c.Opens) := by
    refine Achieves.onFiles ?_
    rcases FileSystem.removeFile_cases hthere hfile with herr | hok
    · exact .inl herr
    · exact .inr ⟨_, hok, rfl, h.keeps.removeEntry h.rooted.top (h.legible hhas)⟩
  refine hremove.bind fun t₁ ht₁ => ?_
  obtain ⟨hroot₁, hkeeps₁⟩ := ht₁
  have hnone := hkeeps₁.isDirectory_eq_false (h.legible hhas) hclosed
  refine Achieves.glance hnone ?_
  rw [if_neg Bool.false_ne_true]
  have hrs' : (c.set (s :: rs) none).Has rs := by
    rw [Contents.Has, Contents.set_of_ne (List.cons_ne_self _ _).symm]
    exact hrs
  rw [← hroot₁] at hkeeps₁ hfits
  have hprune := pruneDirectory_achieves hkeeps₁ (hroot₁ ▸ h.rooted.top) hproper hrs'
    (fun qs => Contents.opens_remove hs) hfits
  rw [hroot₁] at hprune
  refine hprune.mono fun t₂ ht₂ => ?_
  obtain ⟨hroot₂, hkeeps₂⟩ := ht₂
  rw [hroot₁] at hroot₂ hkeeps₂
  refine ⟨hroot₂, h.after hroot₂ hproper hkeeps₂ ?_⟩
  intro q qs b hb
  obtain ⟨b', hb'⟩ := (Contents.has_set_none (.inr ⟨b, hb⟩)).resolve_left (List.cons_ne_nil _ _)
  exact h.fits hb'

/-! ## Deletion by handle and modification -/

theorem delete_root (t : FileTree) :
    (Tree.delete t.root).run t = (.error (.rootStays t.root.dn), t) := by
  have hdn : TreeView.dn t t.root = .ok t.root.dn := rfl
  have hparent : TreeView.parent t t.root = .ok none := parent_root t
  simp only [Tree.delete, Edit.run_bind, Edit.run_look, hdn, hparent, Edit.run_fail]

theorem delete_down (htop : t.root.Top) (s : Rdn) (rs : List Rdn) :
    (Tree.delete (t.root.down (s :: rs))).run t = (deleteChild (t.root.down rs) s).run t := by
  have hdn : TreeView.dn t (t.root.down (s :: rs)) = .ok (t.root.down (s :: rs)).dn := rfl
  have hparent : TreeView.parent t (t.root.down (s :: rs)) = .ok (some (t.root.down rs)) :=
    parent_down htop s rs
  have hleaf : Tree.leaf (t.root.down (s :: rs)).dn = .ok s := rfl
  simp only [Tree.delete, Edit.run_bind, Edit.run_look, hdn, hparent, hleaf, Edit.run_ofExcept]
  rfl

theorem modify_of_entry {node : FileNode} {e : Entry} (he : t.entry node = .ok e)
    (edits : List Modification) :
    (Tree.modify node edits).run t =
      match Modification.applyAll edits e.attributes with
      | (_, some e) => (.error (.entry e), t)
      | (attributes, none) => (setAttributes node attributes).run t := by
  have hentry : TreeView.entry t node = .ok e := he
  rw [Tree.modify, Edit.run_bind, Edit.run_look, hentry]
  show (match Modification.applyAll edits e.attributes with
    | (_, some e) => Edit.fail (.entry e)
    | (attributes, none) => setAttributes node attributes : Edit FileTree Unit).run t = _
  generalize Modification.applyAll edits e.attributes = outcome
  obtain ⟨attributes, failure⟩ := outcome
  cases failure with
  | some e => rfl
  | none => rfl

end Houses

namespace Stores

/-- The tree after an operation stores other contents. -/
theorem after (h : t.Stores c) {c' : Contents} {t' : FileTree} (hroot : t'.root = t.root)
    (hhouses : t'.Houses (record t.root.dn) c') : t'.Stores c' := by
  have hreachable := h.reachable
  rw [← hroot] at hhouses hreachable
  exact ⟨hhouses, hreachable⟩

theorem setAttributes_achieves (h : t.Stores c) (hrs : c.Has rs) (ha : a.Writable) :
    Achieves (setAttributes (t.root.down rs) a) t () fun t' =>
      t'.root = t.root ∧ t'.Houses (record t.root.dn) (c.set rs (some a)) := by
  cases rs with
  | nil =>
      have hfile := h.keeps.file (h.legible hrs)
      refine h.setAttributes_root ?_ _ ha rfl
      show t.files.object? (t.root.down []).ldif ≠ _
      rw [hfile, ne_eq, Option.map_eq_some_iff]
      exact nofun
  | cons r rs =>
      obtain ⟨b, hb⟩ := hrs.resolve_left (List.cons_ne_nil _ _)
      exact h.toHouses.setAttributes_achieves hb ha

end Stores
end FileTree
end DirectoryStore
