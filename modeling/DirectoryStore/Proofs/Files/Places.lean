import DirectoryStore.Files.FileSystem
import DirectoryStore.Proofs.Files.Objects
import DirectoryStore.Proofs.Text.Utf8

/-!
# Places

A way that can be gone ends in a directory.  Where a directory stands the way to it leads through
no link, so below it an operation can only fail because a path is too long, or for what stands at
its end.  In a file system without links all this holds of every path: it has the place that it
names, or none.
-/

namespace DirectoryStore
namespace FileSystem

variable {linked : Bool} {fs : FileSystem linked} {p q d dir : Path} {o : FileObject linked}
variable {name : String} {content : Bytes} {left : Nat}

/-! ## Lengths of paths -/

theorem byteCount_append (cs ds : List Char) :
    byteCount (cs ++ ds) = byteCount cs + byteCount ds := by
  rw [byteCount, byteCount, byteCount, Utf8.encode_append, List.length_append]

theorem text_cons (name name' : String) (p : Path) :
    Path.text (name :: name' :: p) = Path.text (name' :: p) ++ "/" ++ name := by
  rw [Path.text, List.reverse_cons,
    String.intercalate_append_of_ne_nil (by simp) (List.cons_ne_nil _ _)]
  simp [Path.text]

/-- A path on the way to a short one is short. -/
theorem fits_of_cons (h : fits (Path.text (name :: p)) = true) : fits p.text = true := by
  rw [fits, decide_eq_true_eq] at h ⊢
  cases p with
  | nil => exact Nat.zero_le _
  | cons name' p =>
      rw [text_cons, String.toList_append, String.toList_append, byteCount_append,
        byteCount_append] at h
      omega

/-- A path has no more names than bytes, but for the first. -/
theorem length_le_byteCount (p : Path) : p.length ≤ byteCount p.text.toList + 1 := by
  induction p with
  | nil => exact Nat.zero_le _
  | cons name p ih =>
      cases p with
      | nil => simp
      | cons name' p =>
          have hslash : byteCount "/".toList = 1 := rfl
          rw [text_cons, String.toList_append, String.toList_append, byteCount_append,
            byteCount_append, hslash, List.length_cons]
          omega

/-- Neither the path nor its last name is too long. -/
def Fits (p : Path) : Prop :=
  fits p.text = true ∧ ∀ name ∈ p.head?, (utf8 name).length ≤ nameLimit

instance (p : Path) : Decidable (Fits p) :=
  inferInstanceAs (Decidable (_ ∧ _))

theorem fits_cons_iff : Fits (name :: dir) ↔
    fits (Path.text (name :: dir)) = true ∧ (utf8 name).length ≤ nameLimit := by
  simp [Fits]

/-! ## Ways -/

theorem bind_eq_ok {α β : Type} {x : Except FileFault α} {f : α → Except FileFault β} {b : β}
    (h : (x >>= f) = .ok b) : ∃ a, x = .ok a ∧ f a = .ok b := by
  cases x with
  | error fault => cases h
  | ok a => exact ⟨a, rfl, h⟩

theorem lead_of_directory (h : fs.object? p = some .directory) :
    fs.lead p = .ok (p, linkLimit) := by
  cases p with
  | nil => rfl
  | cons name dir => simp only [lead, h]

/-- A way that can be gone ends in a directory. -/
theorem directory_of_lead (h : fs.lead p = .ok (d, left)) : fs.object? d = some .directory := by
  cases p with
  | nil =>
      cases h
      rfl
  | cons name dir =>
      rw [lead] at h
      split at h
      · rename_i hdirectory
        cases h
        exact hdirectory
      · cases h
      · obtain ⟨⟨d', left'⟩, -, h⟩ := bind_eq_ok h
        obtain ⟨⟨q, left''⟩, -, h⟩ := bind_eq_ok h
        dsimp only at h
        split at h
        · rename_i hq
          cases h
          exact hq
        · cases h

/-- A place that is not the top is named by the last name of the path, in the directory that the
    rest of it leads to. -/
theorem place_eq_ok (h : fs.place p = .ok q) : fits p.text = true ∧
    ((p = [] ∧ q = []) ∨ ∃ name dir d left, p = name :: dir ∧ q = name :: d ∧ Fits p ∧
      fs.lead dir = .ok (d, left)) := by
  unfold place at h
  split at h
  · rename_i hfits
    refine ⟨hfits, ?_⟩
    cases p with
    | nil =>
        cases h
        exact .inl ⟨rfl, rfl⟩
    | cons name dir =>
        obtain ⟨⟨d, left⟩, hlead, h⟩ := bind_eq_ok h
        dsimp only at h
        split at h
        · rename_i hname
          cases h
          exact .inr ⟨name, dir, d, left, rfl, rfl, fits_cons_iff.mpr ⟨hfits, hname⟩, hlead⟩
        · cases h
  · cases h

theorem place_cons_eq_ok (h : fs.place (name :: dir) = .ok q) :
    ∃ d left, q = name :: d ∧ Fits (name :: dir) ∧ fs.lead dir = .ok (d, left) := by
  obtain ⟨-, ⟨hp, -⟩ | ⟨name', dir', d, left, hp, rfl, hfits, hlead⟩⟩ := place_eq_ok h
  · cases hp
  · cases hp
    exact ⟨d, left, rfl, hfits, hlead⟩

theorem arrive_cons_eq_ok (h : fs.arrive (name :: dir) = .ok q) :
    ∃ d left left', fs.lead dir = .ok (d, left) ∧ fs.enter d left name = .ok (q, left') := by
  unfold arrive at h
  split at h
  · obtain ⟨⟨d, left⟩, hlead, h⟩ := bind_eq_ok h
    obtain ⟨⟨q', left'⟩, henter, h⟩ := bind_eq_ok h
    cases h
    exact ⟨d, left, left', hlead, henter⟩
  · cases h

/-- What has a place that is not the top stands in a directory. -/
theorem exists_dir_of_place (h : fs.place p = .ok q) (hq : q ≠ []) :
    ∃ name d, q = name :: d ∧ fs.object? d = some .directory := by
  obtain ⟨-, ⟨-, rfl⟩ | ⟨name, dir, d, left, -, rfl, -, hlead⟩⟩ := place_eq_ok h
  · exact absurd rfl hq
  · exact ⟨name, d, rfl, directory_of_lead hlead⟩

theorem place_of_fits (hdir : fs.object? dir = some .directory) (h : Fits (name :: dir)) :
    fs.place (name :: dir) = .ok (name :: dir) := by
  obtain ⟨hfits, hname⟩ := fits_cons_iff.mp h
  simp only [place, hfits, lead_of_directory hdir, bind, Except.bind, hname, if_true]

theorem place_cases (hdir : fs.object? dir = some .directory) (name : String) :
    fs.place (name :: dir) = .error .nameTooLong ∨
      (Fits (name :: dir) ∧ fs.place (name :: dir) = .ok (name :: dir)) := by
  by_cases h : Fits (name :: dir)
  · exact .inr ⟨h, place_of_fits hdir h⟩
  · refine .inl ?_
    by_cases hfits : fits (Path.text (name :: dir)) = true
    · have hname : ¬ (utf8 name).length ≤ nameLimit :=
        fun hname => h (fits_cons_iff.mpr ⟨hfits, hname⟩)
      simp only [place, hfits, lead_of_directory hdir, bind, Except.bind, hname, if_true, if_false]
    · simp only [place, hfits, if_false, Bool.false_eq_true]

theorem arrive_cases (hdir : fs.object? dir = some .directory) (name : String) :
    fs.arrive (name :: dir) = .error .nameTooLong ∨ (Fits (name :: dir) ∧
      fs.arrive (name :: dir) = (fs.enter dir linkLimit name).map Prod.fst) := by
  by_cases hfits : fits (Path.text (name :: dir)) = true
  · by_cases hname : (utf8 name).length ≤ nameLimit
    · refine .inr ⟨fits_cons_iff.mpr ⟨hfits, hname⟩, ?_⟩
      simp only [arrive, hfits, lead_of_directory hdir, bind, Except.bind, if_true]
      cases fs.enter dir linkLimit name <;> rfl
    · refine .inl ?_
      simp only [arrive, hfits, lead_of_directory hdir, bind, Except.bind, enter,
        Nat.lt_of_not_le hname, if_true]
  · refine .inl ?_
    simp only [arrive, hfits, if_false, Bool.false_eq_true]

theorem enter_of_none (hname : (utf8 name).length ≤ nameLimit)
    (h : fs.object? (name :: dir) = none) : fs.enter dir left name = .error .notFound := by
  simp only [enter, Nat.not_lt.mpr hname, if_false, h]

theorem enter_of_file (hname : (utf8 name).length ≤ nameLimit)
    (h : fs.object? (name :: dir) = some (.file content)) :
    fs.enter dir left name = .ok (name :: dir, left) := by
  simp only [enter, Nat.not_lt.mpr hname, if_false, h]

theorem isDirectory_home : fs.isDirectory p = true ↔
    fits p.text = true ∧ fs.object? (fs.home p) = some .directory := by
  simp [isDirectory]

theorem isFile_home : fs.isFile p = true ↔
    fits p.text = true ∧ ∃ content, fs.object? (fs.home p) = some (.file content) := by
  unfold isFile
  split
  · rename_i content hfile
    simp [hfile]
  · rename_i hno
    exact iff_of_false Bool.false_ne_true fun h => h.2.elim hno

/-! ## Operations below a directory -/

theorem read_cases (hdir : fs.object? dir = some .directory)
    (hfile : fs.object? (name :: dir) = some (.file content)) :
    fs.read (name :: dir) = .error .nameTooLong ∨
      (Fits (name :: dir) ∧ fs.read (name :: dir) = .ok content) := by
  rcases arrive_cases hdir name with h | ⟨hfits, h⟩
  · exact .inl (by simp only [read, h, bind, Except.bind])
  · rw [enter_of_file (fits_cons_iff.mp hfits).2 hfile] at h
    exact .inr ⟨hfits, by simp only [read, h, Except.map, hfile, bind, Except.bind]⟩

theorem read_of_file (hdir : fs.object? dir = some .directory) (h : Fits (name :: dir))
    (hfile : fs.object? (name :: dir) = some (.file content)) :
    fs.read (name :: dir) = .ok content := by
  obtain ⟨hfits, hname⟩ := fits_cons_iff.mp h
  simp only [read, arrive, hfits, lead_of_directory hdir, enter_of_file hname hfile, hfile, bind,
    Except.bind, pure, Except.pure, if_true]

theorem read_of_none (hdir : fs.object? dir = some .directory) (h : Fits (name :: dir))
    (hnone : fs.object? (name :: dir) = none) :
    fs.read (name :: dir) = .error .notFound := by
  obtain ⟨hfits, hname⟩ := fits_cons_iff.mp h
  simp only [read, arrive, hfits, lead_of_directory hdir, enter_of_none hname hnone, bind,
    Except.bind, if_true]

theorem write_cases (hdir : fs.object? dir = some .directory)
    (hnot : fs.object? (name :: dir) ≠ some .directory) (content : Bytes) :
    fs.write (name :: dir) content = .error .nameTooLong ∨
      (Fits (name :: dir) ∧
        fs.write (name :: dir) content = .ok (fs.put (name :: dir) (.file content))) := by
  rcases place_cases hdir name with h | ⟨hfits, h⟩
  · exact .inl (by simp only [write, h, bind, Except.bind])
  · exact .inr ⟨hfits, by simp only [write, h, bind, Except.bind, if_neg hnot]⟩

theorem makeDirectory_cases (hdir : fs.object? dir = some .directory)
    (hnone : fs.object? (name :: dir) = none) :
    fs.makeDirectory (name :: dir) = .error .nameTooLong ∨
      (Fits (name :: dir) ∧
        fs.makeDirectory (name :: dir) = .ok (fs.put (name :: dir) .directory)) := by
  rcases place_cases hdir name with h | ⟨hfits, h⟩
  · exact .inl (by simp only [makeDirectory, h, bind, Except.bind])
  · refine .inr ⟨hfits, ?_⟩
    simp only [makeDirectory, h, hnone, bind, Except.bind, Option.isSome_none,
      Bool.false_eq_true, if_false]

theorem removeFile_cases (hdir : fs.object? dir = some .directory)
    (hfile : fs.object? (name :: dir) = some (.file content)) :
    fs.removeFile (name :: dir) = .error .nameTooLong ∨
      fs.removeFile (name :: dir) = .ok (fs.removeIf (· == name :: dir)) := by
  rcases place_cases hdir name with h | ⟨-, h⟩
  · exact .inl (by simp only [removeFile, h, bind, Except.bind])
  · exact .inr (by simp only [removeFile, h, hfile, bind, Except.bind])

theorem removeDirectory_cases (hdir : fs.object? dir = some .directory)
    (hthere : fs.object? (name :: dir) = some .directory)
    (hempty : ∀ name', fs.object? (name' :: name :: dir) = none) :
    fs.removeDirectory (name :: dir) = .error .nameTooLong ∨
      fs.removeDirectory (name :: dir) = .ok (fs.removeIf (· == name :: dir)) := by
  rcases place_cases hdir name with h | ⟨-, h⟩
  · exact .inl (by simp only [removeDirectory, h, bind, Except.bind])
  · have hnames := namesAt_eq_nil.mpr hempty
    exact .inr (by simp only [removeDirectory, h, hthere, hnames, bind, Except.bind, if_true])

/-- A move to a free place that is not below the old one. -/
theorem rename_cases {name' : String} {dir' : Path} (hdir : fs.object? dir = some .directory)
    (hdir' : fs.object? dir' = some .directory)
    (hthere : fs.object? (name :: dir) = some o)
    (hfree : fs.object? (name' :: dir') = none) (hout : ¬ name :: dir <:+ name' :: dir') :
    fs.rename (name :: dir) (name' :: dir') = .error .nameTooLong ∨
      (Fits (name' :: dir') ∧ fs.rename (name :: dir) (name' :: dir') =
        .ok (fs.moved (name :: dir) (name' :: dir'))) := by
  rcases place_cases hdir name with h | ⟨-, h⟩
  · exact .inl (by simp only [rename, h, bind, Except.bind])
  rcases place_cases hdir' name' with h' | ⟨hfits, h'⟩
  · exact .inl (by simp only [rename, h, h', bind, Except.bind])
  have hne : name :: dir ≠ name' :: dir' := (ne_of_not_suffix hout).symm
  have hout' : (name :: dir).isSuffixOf (name' :: dir') = false := by
    rw [← Bool.not_eq_true, List.isSuffixOf_iff_suffix]
    exact hout
  refine .inr ⟨hfits, ?_⟩
  cases o with
  | directory =>
      simp only [rename, h, h', hthere, hne, hout', hfree, bind, Except.bind,
        Bool.false_eq_true, if_false]
  | file _ | link _ _ =>
      simp only [rename, h, h', hthere, hfree, hne, bind, Except.bind, reduceCtorEq, if_false]

/-! ## Operations that are carried out -/

section

variable {fs' : FileSystem linked} {target : Path}

theorem place_of_write (h : fs.write p content = .ok fs') :
    ∃ q, fs.place p = .ok q ∧ fs.object? q ≠ some .directory ∧ fs' = fs.put q (.file content) := by
  obtain ⟨q, hplace, h⟩ := bind_eq_ok h
  split at h
  · cases h
  · rename_i hno
    cases h
    exact ⟨q, hplace, hno, rfl⟩

theorem place_of_makeDirectory (h : fs.makeDirectory p = .ok fs') :
    ∃ q, fs.place p = .ok q ∧ fs.object? q = none ∧ fs' = fs.put q .directory := by
  obtain ⟨q, hplace, h⟩ := bind_eq_ok h
  split at h
  · cases h
  · rename_i hno
    cases h
    exact ⟨q, hplace, by simpa using hno, rfl⟩

theorem place_of_removeFile (h : fs.removeFile p = .ok fs') :
    ∃ q o, fs.place p = .ok q ∧ fs.object? q = some o ∧ o ≠ .directory ∧
      fs' = fs.removeIf (· == q) := by
  obtain ⟨q, hplace, h⟩ := bind_eq_ok h
  split at h
  · cases h
  · cases h
  · rename_i o hno hobject
    cases h
    exact ⟨q, o, hplace, hobject, hno, rfl⟩

theorem place_of_removeDirectory (h : fs.removeDirectory p = .ok fs') :
    ∃ q, fs.place p = .ok q ∧ fs.object? q = some .directory ∧
      (∀ name, fs.object? (name :: q) = none) ∧ fs' = fs.removeIf (· == q) := by
  obtain ⟨q, hplace, h⟩ := bind_eq_ok h
  split at h
  · cases h
  · rename_i hdirectory
    split at h
    · rename_i hempty
      cases h
      exact ⟨q, hplace, hdirectory, namesAt_eq_nil.mp hempty, rfl⟩
    · cases h
  · cases h

/-- A rename is carried out if what stands at the new place does not keep it from that. -/
theorem place_of_rename (h : fs.rename p target = .ok fs') :
    ∃ s d, fs.place p = .ok s ∧ fs.place target = .ok d ∧ ((s = d ∧ fs' = fs) ∨ s ≠ d ∧
      fs' = fs.moved s d ∧
        ((∃ o, fs.object? s = some o ∧ o ≠ .directory ∧ fs.object? d ≠ some .directory) ∨
          (fs.object? s = some .directory ∧ ¬ s <:+ d ∧
            (fs.object? d = none ∨ fs.object? d = some .directory ∧
              ∀ name, fs.object? (name :: d) = none)))) := by
  obtain ⟨s, hs, h⟩ := bind_eq_ok h
  obtain ⟨d, hd, h⟩ := bind_eq_ok h
  refine ⟨s, d, hs, hd, ?_⟩
  split at h
  · cases h
  · rename_i hdirectory
    split at h
    · rename_i he
      cases h
      exact .inl ⟨he, rfl⟩
    rename_i hne
    split at h
    · cases h
    rename_i hout
    rw [List.isSuffixOf_iff_suffix] at hout
    split at h
    · rename_i hfree
      cases h
      exact .inr ⟨hne, rfl, .inr ⟨hdirectory, hout, .inl hfree⟩⟩
    · rename_i hthere
      split at h
      · rename_i hempty
        cases h
        exact .inr ⟨hne, rfl, .inr ⟨hdirectory, hout, .inr ⟨hthere, namesAt_eq_nil.mp hempty⟩⟩⟩
      · cases h
    · cases h
  · rename_i o hno hobject
    split at h
    · cases h
    rename_i hfree
    split at h
    · rename_i he
      cases h
      exact .inl ⟨he, rfl⟩
    · rename_i hne
      cases h
      exact .inr ⟨hne, rfl, .inl ⟨o, hobject, hno, hfree⟩⟩

end

/-! ## No links -/

section

variable {fs : FileSystem} {o : FileObject}

theorem enter_self (h : fs.enter dir left name = .ok (q, left')) :
    q = name :: dir ∧ (utf8 name).length ≤ nameLimit ∧ ∃ o, fs.object? q = some o := by
  unfold enter at h
  split at h
  · cases h
  rename_i hname
  split at h
  · cases h
  · rename_i hdirectory
    cases h
    exact ⟨rfl, Nat.not_lt.mp hname, _, hdirectory⟩
  · rename_i hfile
    cases h
    exact ⟨rfl, Nat.not_lt.mp hname, _, hfile⟩
  · rename_i allowed _
    cases allowed

theorem lead_self (h : fs.lead p = .ok (d, left)) : d = p := by
  induction p generalizing d left with
  | nil =>
      cases h
      rfl
  | cons name dir ih =>
      rw [lead] at h
      split at h
      · cases h
        rfl
      · cases h
      · obtain ⟨⟨d', left'⟩, hlead, h⟩ := bind_eq_ok h
        obtain ⟨⟨q, left''⟩, henter, h⟩ := bind_eq_ok h
        cases ih hlead
        obtain ⟨rfl, -⟩ := enter_self henter
        dsimp only at h
        split at h
        · cases h
          rfl
        · cases h

theorem place_self (h : fs.place p = .ok q) : q = p := by
  obtain ⟨-, ⟨rfl, rfl⟩ | ⟨name, dir, d, left, rfl, rfl, -, hlead⟩⟩ := place_eq_ok h
  · rfl
  · rw [lead_self hlead]

theorem arrive_self (h : fs.arrive p = .ok q) : q = p ∧ Fits p ∧ ∃ o, fs.object? p = some o := by
  have harrive := h
  unfold arrive at h
  split at h
  · rename_i hfits
    cases p with
    | nil =>
        cases h
        exact ⟨rfl, ⟨hfits, nofun⟩, _, rfl⟩
    | cons name dir =>
        obtain ⟨d, left, left', hlead, henter⟩ := arrive_cons_eq_ok harrive
        cases lead_self hlead
        obtain ⟨rfl, hname, ho⟩ := enter_self henter
        exact ⟨rfl, fits_cons_iff.mpr ⟨hfits, hname⟩, ho⟩
  · cases h

@[simp] theorem home_eq (fs : FileSystem) (p : Path) : fs.home p = p := by
  unfold home
  split
  · rfl
  · rfl
  split
  · rename_i harrive
    exact (arrive_self harrive).1
  · cases hplace : fs.place p with
    | error fault => rfl
    | ok q => exact place_self hplace

/-! ### Queries and operations where there are no links -/

variable {fs' : FileSystem}

theorem isDirectory_iff : fs.isDirectory p = true ↔
    fits p.text = true ∧ fs.object? p = some .directory := by
  rw [isDirectory_home, home_eq]

theorem isFile_iff : fs.isFile p = true ↔
    fits p.text = true ∧ ∃ content, fs.object? p = some (.file content) := by
  rw [isFile_home, home_eq]

theorem names_self (fs : FileSystem) (dir : Path) : fs.names dir = fs.namesAt dir := by
  rw [names, home_eq]

theorem mem_names : name ∈ fs.names dir ↔ ∃ o, fs.object? (name :: dir) = some o := by
  rw [names_self, mem_namesAt]

theorem names_eq_nil :
    (fs.names dir).isEmpty = true ↔ ∀ name, fs.object? (name :: dir) = none := by
  rw [names_self, namesAt_eq_nil]

theorem mem_below {place : List String} : (place, o) ∈ fs.below dir ↔
    place ≠ [] ∧ fs.object? (place.reverse ++ dir) = some o := by
  rw [below, home_eq, mem_belowAt]

theorem reach_eq_ok (h : fs.reach (name :: dir) = .ok ()) :
    Fits (name :: dir) ∧ fs.object? dir = some .directory := by
  obtain ⟨q, hplace, -⟩ := bind_eq_ok h
  obtain ⟨d, left, -, hfits, hlead⟩ := place_cons_eq_ok hplace
  have hdir := directory_of_lead hlead
  rw [lead_self hlead] at hdir
  exact ⟨hfits, hdir⟩

/-- What a path that has a place is, unless it is that of the top. -/
theorem exists_dir_of_place_self (h : fs.place p = .ok q) (hp : p ≠ []) :
    q = p ∧ ∃ name dir, p = name :: dir ∧ Fits p ∧ fs.object? dir = some .directory := by
  have hq := place_self h
  obtain ⟨-, ⟨rfl, -⟩ | ⟨name, dir, d, left, rfl, -, hfits, hlead⟩⟩ := place_eq_ok h
  · exact absurd rfl hp
  · have hdir := directory_of_lead hlead
    rw [lead_self hlead] at hdir
    exact ⟨hq, name, dir, rfl, hfits, hdir⟩

theorem read_eq_ok (h : fs.read p = .ok content) :
    ∃ name dir, p = name :: dir ∧ Fits p ∧ fs.object? dir = some .directory ∧
      fs.object? p = some (.file content) := by
  obtain ⟨q, harrive, hread⟩ := bind_eq_ok h
  obtain ⟨rfl, hfits, -⟩ := arrive_self harrive
  split at hread
  · cases hread
  · rename_i content' hobject
    cases hread
    cases q with
    | nil => cases hobject
    | cons name dir =>
        obtain ⟨d, left, left', hlead, -⟩ := arrive_cons_eq_ok harrive
        have hdir := directory_of_lead hlead
        rw [lead_self hlead] at hdir
        exact ⟨name, dir, rfl, hfits, hdir, hobject⟩
  · cases hread

theorem write_eq_ok (h : fs.write p content = .ok fs') :
    ∃ name dir, p = name :: dir ∧ Fits p ∧ fs.object? dir = some .directory ∧
      fs.object? p ≠ some .directory ∧ fs' = fs.put p (.file content) := by
  obtain ⟨q, hplace, hno, rfl⟩ := place_of_write h
  cases place_self hplace
  obtain ⟨-, name, dir, he, hfits, hdir⟩ :=
    exists_dir_of_place_self hplace (ne_nil_of_object? hno)
  exact ⟨name, dir, he, hfits, hdir, hno, rfl⟩

theorem write_directory (h : fs.object? p = some .directory) (content : Bytes) :
    ∃ fault, fs.write p content = .error fault := by
  cases hwrite : fs.write p content with
  | error fault => exact ⟨fault, rfl⟩
  | ok fs' =>
      obtain ⟨_, _, _, -, -, hno, -⟩ := write_eq_ok hwrite
      exact absurd h hno

theorem makeDirectory_eq_ok (h : fs.makeDirectory p = .ok fs') :
    ∃ name dir, p = name :: dir ∧ Fits p ∧ fs.object? dir = some .directory ∧
      fs.object? p = none ∧ fs' = fs.put p .directory := by
  obtain ⟨q, hplace, hnone, rfl⟩ := place_of_makeDirectory h
  cases place_self hplace
  have hno : fs.object? p ≠ some .directory := by simp [hnone]
  obtain ⟨-, name, dir, he, hfits, hdir⟩ :=
    exists_dir_of_place_self hplace (ne_nil_of_object? hno)
  exact ⟨name, dir, he, hfits, hdir, hnone, rfl⟩

theorem removeFile_eq_ok (h : fs.removeFile p = .ok fs') :
    (∃ content, fs.object? p = some (.file content)) ∧ fs' = fs.removeIf (· == p) := by
  obtain ⟨q, o, hplace, hobject, hno, rfl⟩ := place_of_removeFile h
  cases place_self hplace
  cases o with
  | file content => exact ⟨⟨content, hobject⟩, rfl⟩
  | directory => exact absurd rfl hno
  | link _ allowed => cases allowed

theorem removeDirectory_eq_ok (h : fs.removeDirectory p = .ok fs') :
    (∀ name, fs.object? (name :: p) = none) ∧ fs' = fs.removeIf (· == p) := by
  obtain ⟨q, hplace, -, hempty, rfl⟩ := place_of_removeDirectory h
  cases place_self hplace
  exact ⟨hempty, rfl⟩

end
end FileSystem
end DirectoryStore
