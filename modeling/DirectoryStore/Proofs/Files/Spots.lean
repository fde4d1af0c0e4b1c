import DirectoryStore.Proofs.Files.Places
import DirectoryStore.Proofs.Name.Spelling
import DirectoryStore.Tree.Files

/-!
# The places of a tree in files

Relative names that lead down from the root of a tree give two places: the file of the entry
and the directory of what is below it.  If their attribute types can be read, different names
give different places, and a place reads back as the names that it was made of.
-/

namespace DirectoryStore

variable {stem suffix name : String} {r s : Rdn} {rs qs src : List Rdn} {root : FileNode}

/-! ## File names -/

theorem stripSuffix?_append (stem suffix : String) :
    stripSuffix? suffix (stem ++ suffix) = some stem := by
  have hsuffix : suffix.toList.isSuffixOf (stem ++ suffix).toList = true := by
    rw [List.isSuffixOf_iff_suffix, String.toList_append]
    exact List.suffix_append _ _
  rw [stripSuffix?, if_pos hsuffix, String.toList_append]
  simp

theorem stripSuffix?_eq_some_iff :
    stripSuffix? suffix name = some stem ↔ name = stem ++ suffix := by
  constructor
  · intro h
    rw [stripSuffix?] at h
    split at h
    · rename_i hsuffix
      obtain ⟨l, hl⟩ := List.isSuffixOf_iff_suffix.mp hsuffix
      cases h
      apply String.toList_injective
      rw [String.toList_append, String.toList_ofList, ← hl]
      simp
    · cases h
  · intro h
    rw [h]
    exact stripSuffix?_append stem suffix

/-- The name of the file of an entry. -/
def fileName (r : Rdn) : String :=
  fileStem r ++ ldifSuffix

/-- The name of the directory of what is below an entry. -/
def dirName (r : Rdn) : String :=
  fileStem r ++ dirSuffix

theorem ldif_ne_dir (stem stem' : String) : stem ++ ldifSuffix ≠ stem' ++ dirSuffix := by
  intro h
  have hlast := congrArg (fun s => s.toList.getLast?) h
  have hldif : ldifSuffix.toList.getLast? = some 'f' := by decide
  have hdir : dirSuffix.toList.getLast? = some 'r' := by decide
  simp [String.toList_append, List.getLast?_append, hldif, hdir] at hlast

theorem append_suffix_inj {stem' : String} (h : stem ++ suffix = stem' ++ suffix) :
    stem = stem' := by
  have hstrip := congrArg (stripSuffix? suffix) h
  rw [stripSuffix?_append, stripSuffix?_append] at hstrip
  exact Option.some.inj hstrip

theorem stripSuffix?_dir_ldif (stem : String) :
    stripSuffix? dirSuffix (stem ++ ldifSuffix) = none := by
  rw [Option.eq_none_iff_forall_ne_some]
  intro stem' h
  exact ldif_ne_dir _ _ (stripSuffix?_eq_some_iff.mp h)

theorem stripSuffix?_ldif_dir (stem : String) :
    stripSuffix? ldifSuffix (stem ++ dirSuffix) = none := by
  rw [Option.eq_none_iff_forall_ne_some]
  intro stem' h
  exact ldif_ne_dir _ _ (stripSuffix?_eq_some_iff.mp h).symm

/-- A name stands for a child if it is a stem that can be read, with the suffix of entry files. -/
theorem FileTree.childOfName?_eq_some_iff {node c : FileNode} : childOfName? node name = some c ↔
    ∃ r stem, name = stem ++ ldifSuffix ∧ Rdn.parse stem = .ok r ∧ c = node.child r stem := by
  constructor
  · intro h
    rw [childOfName?] at h
    split at h
    · cases h
    · rename_i stem hstem
      split at h
      · cases h
      · rename_i r hr
        cases h
        exact ⟨r, stem, stripSuffix?_eq_some_iff.mp hstem, hr, rfl⟩
  · rintro ⟨r, stem, rfl, hr, rfl⟩
    simp only [childOfName?, stripSuffix?_append, hr]

theorem parse_fileStem (hr : r.Legible) : Rdn.parse (fileStem r) = .ok r :=
  Rdn.parse_chars Name.spelling_slash hr

theorem fileStem_inj (hr : r.Legible) (hs : s.Legible) (h : fileStem r = fileStem s) : r = s := by
  have hparse := parse_fileStem hr
  rw [h, parse_fileStem hs] at hparse
  cases hparse
  rfl

theorem fileName_inj (hr : r.Legible) (hs : s.Legible) (h : fileName r = fileName s) : r = s :=
  fileStem_inj hr hs (append_suffix_inj h)

theorem dirName_inj (hr : r.Legible) (hs : s.Legible) (h : dirName r = dirName s) : r = s :=
  fileStem_inj hr hs (append_suffix_inj h)

theorem fileName_ne_dirName (r s : Rdn) : fileName r ≠ dirName s :=
  ldif_ne_dir _ _

theorem rdnOfName?_fileName (hr : r.Legible) : rdnOfName? (fileName r) = some r := by
  simp [rdnOfName?, fileName, stripSuffix?_dir_ldif, stripSuffix?_append, parse_fileStem hr,
    Except.toOption]

theorem rdnOfName?_dirName (hr : r.Legible) : rdnOfName? (dirName r) = some r := by
  simp [rdnOfName?, dirName, stripSuffix?_append, parse_fileStem hr, Except.toOption]

/-! ## Handles by relative names -/

namespace FileNode

/-- The handle that relative names lead to, the most specific first. -/
def down (root : FileNode) : List Rdn → FileNode
  | [] => root
  | r :: rs => (root.down rs).child r (fileStem r)

theorem down_ldif (root : FileNode) (r : Rdn) (rs : List Rdn) :
    (root.down (r :: rs)).ldif = fileName r :: (root.down rs).dir := rfl

theorem down_dir (root : FileNode) (rs : List Rdn) :
    (root.down rs).dir = rs.map dirName ++ root.dir := by
  induction rs with
  | nil => rfl
  | cons r rs ih =>
      rw [List.map_cons, List.cons_append, ← ih]
      rfl

theorem down_dn (root : FileNode) (rs : List Rdn) :
    (root.down rs).dn = ⟨rs ++ root.dn.rdns⟩ := by
  induction rs with
  | nil => rfl
  | cons r rs ih =>
      have : (root.down (r :: rs)).dn = (root.down rs).dn.child r := rfl
      rw [this, ih]
      rfl

theorem down_inj {root : FileNode} {rs qs : List Rdn} (h : root.down rs = root.down qs) :
    rs = qs := by
  have hdn := congrArg (fun node => node.dn.rdns) h
  simp only [down_dn] at hdn
  exact List.append_cancel_right hdn

/-- A handle whose file stands beside its directory. -/
def Top (root : FileNode) : Prop :=
  ldifBeside? root.dir = some root.ldif

theorem Top.exists_eq (h : root.Top) : ∃ name name' up, root.dir = name :: up ∧
    root.ldif = name' :: up ∧ name' ≠ name := by
  cases hdir : root.dir with
  | nil =>
      rw [Top, hdir] at h
      cases h
  | cons name up =>
      rw [Top, hdir, ldifBeside?, Option.some.injEq] at h
      refine ⟨name, _, up, rfl, h.symm, ?_⟩
      cases hstem : stripSuffix? dirSuffix name with
      | none =>
          intro he
          have hlen := congrArg (fun s => s.toList.length) he
          simp [ldifSuffix] at hlen
      | some stem =>
          rw [stripSuffix?_eq_some_iff.mp hstem]
          exact ldif_ne_dir _ _

end FileNode

open FileNode (down_dir down_ldif)

theorem ldifBeside?_down (h : root.Top) (rs : List Rdn) :
    ldifBeside? (root.down rs).dir = some (root.down rs).ldif := by
  cases rs with
  | nil => exact h
  | cons r rs =>
      have hdir : (root.down (r :: rs)).dir = dirName r :: (root.down rs).dir := rfl
      rw [hdir, ldifBeside?, dirName, stripSuffix?_append]
      rfl

/-- The directories on the way to a place lead to the name that they were made of. -/
theorem dnBelow?_dirNames (base : Dn) (hqs : ∀ r ∈ qs, r.Legible) (rest : List String) :
    dnBelow? base ((qs.map dirName).reverse ++ rest) = dnBelow? ⟨qs ++ base.rdns⟩ rest := by
  induction qs generalizing rest with
  | nil => rfl
  | cons q qs ih =>
      rw [List.forall_mem_cons] at hqs
      rw [List.map_cons, List.reverse_cons, List.append_assoc, List.singleton_append, ih hqs.2,
        dnBelow?, rdnOfName?_dirName hqs.1]
      rfl

theorem dnBelow?_entry (base : Dn) (hqs : ∀ x ∈ s :: qs, x.Legible) :
    dnBelow? base (fileName s :: qs.map dirName).reverse = some ⟨s :: qs ++ base.rdns⟩ := by
  rw [List.forall_mem_cons] at hqs
  rw [List.reverse_cons, dnBelow?_dirNames base hqs.2, dnBelow?, rdnOfName?_fileName hqs.1]
  rfl

/-- A place of a tree in files. -/
inductive Spot where
  /-- The file of the entry that relative names lead to. -/
  | entry (rs : List Rdn)
  /-- The directory of what is below that entry. -/
  | below (rs : List Rdn)
deriving DecidableEq

namespace Spot

/-- The path of a place. -/
def path (root : FileNode) : Spot → Path
  | entry rs => (root.down rs).ldif
  | below rs => (root.down rs).dir

/-- The relative names that lead to a place. -/
def names : Spot → List Rdn
  | entry rs => rs
  | below rs => rs

/-- All attribute types on the way can be read. -/
def Legible (s : Spot) : Prop :=
  ∀ r ∈ s.names, r.Legible

end Spot

theorem map_dirName_inj (hrs : ∀ r ∈ rs, r.Legible) (hqs : ∀ r ∈ qs, r.Legible)
    (h : rs.map dirName = qs.map dirName) : rs = qs := by
  induction rs generalizing qs with
  | nil =>
      cases qs with
      | nil => rfl
      | cons q qs => cases h
  | cons r rs ih =>
      cases qs with
      | nil => cases h
      | cons q qs =>
          rw [List.map_cons, List.map_cons, List.cons.injEq] at h
          rw [List.forall_mem_cons] at hrs hqs
          rw [dirName_inj hrs.1 hqs.1 h.1, ih hrs.2 hqs.2 h.2]

theorem dir_suffix_dir (hsrc : ∀ r ∈ src, r.Legible) (hqs : ∀ r ∈ qs, r.Legible) :
    (root.down src).dir <:+ (root.down qs).dir ↔ src <:+ qs := by
  rw [down_dir, down_dir, List.suffix_append_self_iff]
  constructor
  · intro h
    obtain ⟨ws, hws, he⟩ := List.suffix_map_iff.mp h
    rwa [map_dirName_inj hsrc (fun r hr => hqs r (hws.subset hr)) he]
  · intro h
    exact h.map dirName

theorem dir_suffix_ldif (hsrc : ∀ r ∈ src, r.Legible) (hqs : ∀ r ∈ s :: qs, r.Legible) :
    (root.down src).dir <:+ (root.down (s :: qs)).ldif ↔ src <:+ qs := by
  rw [List.forall_mem_cons] at hqs
  rw [down_ldif, List.suffix_cons_iff, dir_suffix_dir hsrc hqs.2]
  constructor
  · intro h
    rcases h with h | h
    · cases src with
      | nil =>
          have hlen := congrArg List.length h
          simp [down_dir] at hlen
          omega
      | cons r src =>
          rw [down_dir, List.map_cons, List.cons_append, List.cons.injEq] at h
          exact absurd h.1.symm (fileName_ne_dirName _ _)
    · exact h
  · intro h
    exact .inr h

theorem ldif_not_suffix_dir : ¬ (root.down (r :: rs)).ldif <:+ (root.down qs).dir := by
  rw [down_ldif, down_dir, down_dir, ← List.cons_append, List.suffix_append_self_iff]
  intro h
  have hmem := h.subset List.mem_cons_self
  obtain ⟨q, -, hq⟩ := List.mem_map.mp hmem
  exact fileName_ne_dirName _ _ hq.symm

theorem ldif_suffix_ldif (hrs : ∀ x ∈ r :: rs, x.Legible) (hqs : ∀ x ∈ s :: qs, x.Legible) :
    (root.down (r :: rs)).ldif <:+ (root.down (s :: qs)).ldif ↔ r :: rs = s :: qs := by
  constructor
  · intro h
    rw [down_ldif root s qs, List.suffix_cons_iff] at h
    rcases h with h | h
    · rw [down_ldif, List.cons.injEq, down_dir, down_dir, List.append_cancel_right_eq] at h
      rw [List.forall_mem_cons] at hrs hqs
      rw [fileName_inj hrs.1 hqs.1 h.1, map_dirName_inj hrs.2 hqs.2 h.2]
    · exact absurd h ldif_not_suffix_dir
  · intro h
    exact h ▸ List.suffix_refl _

/-! ## Places and their paths -/

namespace Spot

variable {x y : Spot} {dst : List Rdn}

theorem length_path_le (h : root.Top) (x : Spot) : root.dir.length ≤ (x.path root).length := by
  obtain ⟨name, name', up, hdir, hldif, -⟩ := h.exists_eq
  cases x with
  | entry rs =>
      cases rs with
      | nil =>
          show root.dir.length ≤ root.ldif.length
          rw [hdir, hldif]
          exact Nat.le_refl _
      | cons r rs =>
          show root.dir.length ≤ (root.down (r :: rs)).ldif.length
          rw [down_ldif, down_dir]
          simp only [List.length_cons, List.length_append]
          omega
  | below rs =>
      show root.dir.length ≤ (root.down rs).dir.length
      rw [down_dir, List.length_append]
      omega

theorem path_ne_nil (h : root.Top) (x : Spot) : x.path root ≠ [] := by
  obtain ⟨name, name', up, hdir, -, -⟩ := h.exists_eq
  intro he
  have hlen := length_path_le h x
  rw [he, hdir] at hlen
  simp at hlen

/-- No place of a tree is above its directory. -/
theorem path_not_suffix (h : root.Top) (x : Spot) : ¬ x.path root <:+ root.dir.tail := by
  obtain ⟨name, name', up, hdir, -, -⟩ := h.exists_eq
  intro hs
  have hlen := length_path_le h x
  have hle := hs.length_le
  rw [hdir, List.length_cons] at hlen
  rw [hdir, List.tail_cons] at hle
  omega

/-- A place in the directory of `src` or further below. -/
def Under (src : List Rdn) : Spot → Prop
  | entry [] => False
  | entry (_ :: qs) => src <:+ qs
  | below qs => src <:+ qs

instance (src : List Rdn) (x : Spot) : Decidable (x.Under src) :=
  match x with
  | entry [] => isFalse id
  | entry (_ :: qs) => inferInstanceAs (Decidable (src <:+ qs))
  | below qs => inferInstanceAs (Decidable (src <:+ qs))

theorem under_entry : (entry (s :: qs)).Under src ↔ src <:+ qs := Iff.rfl

theorem not_under_entry (h : ¬ src <:+ qs) : ¬ (entry qs).Under src := by
  cases qs with
  | nil => exact id
  | cons q qs => exact mt (fun hs => hs.trans (List.suffix_cons _ _)) h

theorem dir_suffix_path (h : root.Top) (hsrc : ∀ r ∈ src, r.Legible) (hx : x.Legible) :
    (root.down src).dir <:+ x.path root ↔ x.Under src := by
  cases x with
  | entry rs =>
      cases rs with
      | nil =>
          obtain ⟨name, name', up, hdir, hldif, hne⟩ := h.exists_eq
          refine iff_of_false ?_ id
          show ¬ (root.down src).dir <:+ root.ldif
          intro hs
          have heq := hs.eq_of_length_le (by rw [down_dir, hdir, hldif]; simp)
          rw [down_dir, hdir, hldif] at heq
          cases src with
          | nil => exact hne (List.cons.inj heq).1.symm
          | cons r src =>
              have hlen := congrArg List.length heq
              simp at hlen
              omega
      | cons r rs => exact dir_suffix_ldif hsrc hx
  | below rs => exact dir_suffix_dir hsrc hx

theorem ldif_suffix_path (h : root.Top) (hrs : ∀ x ∈ r :: rs, x.Legible) (hx : x.Legible) :
    (root.down (r :: rs)).ldif <:+ x.path root ↔ x = entry (r :: rs) := by
  cases x with
  | entry qs =>
      cases qs with
      | nil =>
          obtain ⟨name, name', up, hdir, hldif, -⟩ := h.exists_eq
          refine iff_of_false ?_ nofun
          show ¬ (root.down (r :: rs)).ldif <:+ root.ldif
          intro hs
          have hle := hs.length_le
          rw [down_ldif, down_dir, hdir, hldif] at hle
          simp at hle
          omega
      | cons q qs =>
          rw [entry.injEq]
          refine (ldif_suffix_ldif hrs hx).trans ?_
          exact eq_comm
  | below qs => exact iff_of_false ldif_not_suffix_dir nofun

/-- Different places have different paths. -/
theorem path_inj (h : root.Top) (hx : x.Legible) (hy : y.Legible)
    (he : x.path root = y.path root) : x = y := by
  cases x with
  | entry rs =>
      cases rs with
      | nil =>
          cases y with
          | entry qs =>
              cases qs with
              | nil => rfl
              | cons q qs =>
                  exact (ldif_suffix_path h hy hx).mp (he ▸ List.suffix_refl _)
          | below qs =>
              exact absurd ((dir_suffix_path h hy hx).mp (he ▸ List.suffix_refl _)) id
      | cons r rs =>
          exact ((ldif_suffix_path h hx hy).mp (he ▸ List.suffix_refl _)).symm
  | below rs =>
      cases y with
      | entry qs =>
          cases qs with
          | nil => exact absurd ((dir_suffix_path h hx hy).mp (he ▸ List.suffix_refl _)) id
          | cons q qs =>
              have he' : (root.down rs).dir = (root.down (q :: qs)).ldif := he
              have hsuffix : (root.down (q :: qs)).ldif <:+ (root.down rs).dir :=
                he' ▸ List.suffix_refl _
              exact absurd hsuffix ldif_not_suffix_dir
      | below qs =>
          have he' : (root.down rs).dir = (root.down qs).dir := he
          rw [down_dir, down_dir, List.append_cancel_right_eq] at he'
          have hrs : rs = qs := map_dirName_inj hx hy he'
          rw [hrs]

/-- The place that takes that of `x` when what is below `source` goes to `target`. -/
def rebase (source target : List Rdn) : Spot → Spot
  | entry rs => entry (DirectoryStore.rebase source target rs)
  | below rs => below (DirectoryStore.rebase source target rs)

/-- A place under `src` keeps the end of its path that is below the directory of `src`. -/
theorem exists_rebase (root : FileNode) (hx : x.Under src) :
    ∃ l, x.path root = l ++ (root.down src).dir ∧
    ∀ dst, (x.rebase src dst).path root = l ++ (root.down dst).dir ∧
      (x.rebase src dst).Under dst ∧ (x.rebase src dst).rebase dst src = x := by
  cases x with
  | entry rs =>
      cases rs with
      | nil => exact absurd hx id
      | cons r rs =>
          obtain ⟨ws, rfl⟩ := hx
          refine ⟨fileName r :: ws.map dirName, ?_, fun dst => ?_⟩
          · show (root.down (r :: (ws ++ src))).ldif = _
            rw [down_ldif, down_dir, down_dir]
            simp
          · have he : (entry (r :: (ws ++ src))).rebase src dst = entry (r :: (ws ++ dst)) := by
              rw [rebase, ← List.cons_append, rebase_append, List.cons_append]
            rw [he]
            refine ⟨?_, List.suffix_append _ _, ?_⟩
            · show (root.down (r :: (ws ++ dst))).ldif = _
              rw [down_ldif, down_dir, down_dir]
              simp
            · rw [rebase, ← List.cons_append, rebase_append, List.cons_append]
  | below rs =>
      obtain ⟨ws, rfl⟩ := hx
      refine ⟨ws.map dirName, ?_, fun dst => ?_⟩
      · show (root.down (ws ++ src)).dir = _
        rw [down_dir, down_dir]
        simp
      · have he : (below (ws ++ src)).rebase src dst = below (ws ++ dst) := by
          rw [rebase, rebase_append]
        rw [he]
        refine ⟨?_, List.suffix_append _ _, ?_⟩
        · show (root.down (ws ++ dst)).dir = _
          rw [down_dir, down_dir]
          simp
        · rw [rebase, rebase_append]

theorem Legible.rebase (hx : x.Legible) (hdst : ∀ r ∈ dst, r.Legible) :
    (x.rebase src dst).Legible := by
  have hall : ∀ qs : List Rdn, (∀ r ∈ qs, r.Legible) →
      ∀ r ∈ DirectoryStore.rebase src dst qs, r.Legible := by
    intro qs hqs r hr
    rcases List.mem_append.mp hr with hr | hr
    · exact hqs r (List.mem_of_mem_take hr)
    · exact hdst r hr
  cases x with
  | entry rs => exact hall rs hx
  | below rs => exact hall rs hx

end Spot

end DirectoryStore
