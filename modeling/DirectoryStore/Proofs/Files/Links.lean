import DirectoryStore.Proofs.Files.Grounded

/-!
# Ways through links

A way along names and links is told by a derivation with one rule for each kind of name.  From
that it is read off that a way stays when objects are added and when more links may be followed,
and that what leads to a file is on no way to a directory.  So when the file of an entry goes to
another place, be it a link or not, directories are still found where they were.
-/

namespace DirectoryStore
namespace FileSystem

variable {linked : Bool} {fs fs' : FileSystem linked} {p q q' d dir s : Path}
variable {name : String} {names rest : List String} {left left' left₁ left₂ : Nat}
variable {content : Bytes}

/-! ## Ways -/

/-- A name that is looked for in a directory. -/
structure Plain (name : String) : Prop where
  notStay : ¬ (name = "" ∨ name = ".")
  notUp : name ≠ ".."
  short : (utf8 name).length ≤ nameLimit

/-- Names lead from a directory to a place.  The numbers are those of the links that may be followed
    at the start and at the end. -/
inductive Follows (fs : FileSystem linked) : Nat → Path → List String → Path → Nat → Prop where
  | done {left : Nat} {dir : Path} : Follows fs left dir [] dir left
  | stay {left left' : Nat} {dir q : Path} {name : String} {names : List String} :
      (name = "" ∨ name = ".") → Follows fs left dir names q left' →
      Follows fs left dir (name :: names) q left'
  | up {left left' : Nat} {dir q : Path} {names : List String} :
      Follows fs left dir.tail names q left' → Follows fs left dir (".." :: names) q left'
  | down {left left' : Nat} {dir q : Path} {name : String} {names : List String} :
      Plain name → fs.object? (name :: dir) = some .directory →
      Follows fs left (name :: dir) names q left' → Follows fs left dir (name :: names) q left'
  | file {left : Nat} {dir : Path} {name : String} {content : Bytes} :
      Plain name → fs.object? (name :: dir) = some (.file content) →
      Follows fs left dir [name] (name :: dir) left
  | link {left left' : Nat} {dir q : Path} {name target : String} {names : List String}
      {allowed : linked = true} :
      Plain name → fs.object? (name :: dir) = some (.link target allowed) →
      Follows fs left (linkStart dir target) (Path.parts target ++ names) q left' →
      Follows fs (left + 1) dir (name :: names) q left'

/-! Only one rule fits each name. -/

theorem follows_stay_iff (hstay : name = "" ∨ name = ".") :
    Follows fs left dir (name :: names) q left' ↔ Follows fs left dir names q left' := by
  refine ⟨fun h => ?_, .stay hstay⟩
  cases h with
  | stay _ h => exact h
  | up _ => simp at hstay
  | down hname _ _ | file hname _ | link hname _ _ => exact absurd hstay hname.notStay

theorem follows_up_iff :
    Follows fs left dir (".." :: names) q left' ↔ Follows fs left dir.tail names q left' := by
  refine ⟨fun h => ?_, .up⟩
  cases h with
  | stay hstay _ => simp at hstay
  | up h => exact h
  | down hname _ _ | file hname _ | link hname _ _ => exact absurd rfl hname.notUp

theorem not_follows_long (hstay : ¬ (name = "" ∨ name = ".")) (hup : name ≠ "..")
    (hlong : nameLimit < (utf8 name).length) : ¬ Follows fs left dir (name :: names) q left' := by
  intro h
  cases h with
  | stay hstay' _ => exact hstay hstay'
  | up _ => exact hup rfl
  | down hname _ _ | file hname _ | link hname _ _ => exact Nat.not_lt.mpr hname.short hlong

theorem follows_plain_iff (hname : Plain name) : Follows fs left dir (name :: names) q left' ↔
    (fs.object? (name :: dir) = some .directory ∧ Follows fs left (name :: dir) names q left') ∨
    (∃ content, fs.object? (name :: dir) = some (.file content) ∧ names = [] ∧
      q = name :: dir ∧ left' = left) ∨
    ∃ target allowed n, fs.object? (name :: dir) = some (.link target allowed) ∧ left = n + 1 ∧
      Follows fs n (linkStart dir target) (Path.parts target ++ names) q left' := by
  constructor
  · intro h
    cases h with
    | stay hstay _ => exact absurd hstay hname.notStay
    | up _ => exact absurd rfl hname.notUp
    | down _ ho h => exact .inl ⟨ho, h⟩
    | file _ ho => exact .inr (.inl ⟨_, ho, rfl, rfl, rfl⟩)
    | link _ ho h => exact .inr (.inr ⟨_, _, _, ho, rfl, h⟩)
  · rintro (⟨ho, h⟩ | ⟨content, ho, rfl, rfl, rfl⟩ | ⟨target, allowed, n, ho, rfl, h⟩)
    · exact .down hname ho h
    · exact .file hname ho
    · exact .link hname ho h

theorem walkWith_eq_ok_iff {onLink : Path → List String → Except FileFault (Path × Nat)}
    (hon : ∀ dir names q left', onLink dir names = .ok (q, left') ↔
      ∃ n, left = n + 1 ∧ Follows fs n dir names q left') :
    fs.walkWith left onLink dir names = .ok (q, left') ↔ Follows fs left dir names q left' := by
  induction names generalizing dir with
  | nil =>
      rw [walkWith]
      constructor
      · intro h
        cases h
        exact .done
      · intro h
        cases h
        rfl
  | cons name names ih =>
      rw [walkWith]
      split
      · rename_i hstay
        rw [ih, follows_stay_iff hstay]
      split
      · rename_i hup
        rw [ih, hup, follows_up_iff]
      rename_i hstay hup
      split
      · rename_i hlong
        exact iff_of_false (by simp) (not_follows_long hstay hup hlong)
      rename_i hshort
      rw [follows_plain_iff ⟨hstay, hup, Nat.not_lt.mp hshort⟩]
      split
      · rename_i ho
        simp [ho]
      · rename_i ho
        rw [ih]
        simp [ho]
      · rename_i ho
        by_cases hnames : names = [] <;> simp [ho, hnames, eq_comm]
      · rename_i allowed ho
        rw [hon]
        simpa [ho] using fun _ _ _ => allowed

theorem walk_eq_ok_iff : fs.walk left dir names = .ok (q, left') ↔
    ∃ n, left = n + 1 ∧ Follows fs n dir names q left' := by
  induction left generalizing dir names q left' with
  | zero =>
      refine ⟨nofun, fun ⟨n, hn, _⟩ => ?_⟩
      cases hn
  | succ left ih =>
      rw [walk, walkWith_eq_ok_iff fun _ _ _ _ => ih]
      simp

namespace Follows

theorem add (h : Follows fs left dir names q left') (k : Nat) :
    Follows fs (left + k) dir names q (left' + k) := by
  induction h with
  | done => exact .done
  | stay hstay _ ih => exact .stay hstay ih
  | up _ ih => exact .up ih
  | down hname ho _ ih => exact .down hname ho ih
  | file hname ho => exact .file hname ho
  | @link left _ _ _ _ _ _ _ hname ho _ ih =>
      rw [Nat.succ_add_eq_add_succ left k]
      exact .link hname ho ih

theorem unique (h₁ : Follows fs left₁ dir names q left) (h₂ : Follows fs left₂ dir names q' left') :
    q = q' := by
  have hwalk₁ := walk_eq_ok_iff.mpr ⟨_, rfl, h₁.add left₂⟩
  have hwalk₂ := walk_eq_ok_iff.mpr ⟨_, rfl, h₂.add left₁⟩
  rw [Nat.add_comm left₂, hwalk₁] at hwalk₂
  exact congrArg Prod.fst (Except.ok.inj hwalk₂)

/-- A way stays when objects are added. -/
theorem mono (h : Follows fs left dir names q left')
    (hkept : ∀ p o, fs.object? p = some o → fs'.object? p = some o) :
    Follows fs' left dir names q left' := by
  induction h with
  | done => exact .done
  | stay hstay _ ih => exact .stay hstay ih
  | up _ ih => exact .up ih
  | down hname ho _ ih => exact .down hname (hkept _ _ ho) ih
  | file hname ho => exact .file hname (hkept _ _ ho)
  | link hname ho _ ih => exact .link hname (hkept _ _ ho) ih

end Follows

theorem Grounded.tail (hg : Grounded fs) (hdir : fs.object? dir = some .directory) :
    fs.object? dir.tail = some .directory := by
  cases dir with
  | nil => rfl
  | cons name dir => exact hg hdir

theorem directory_linkStart (hdir : fs.object? dir = some .directory) (target : String) :
    fs.object? (linkStart dir target) = some .directory := by
  rw [linkStart]
  split
  · rfl
  · exact hdir

namespace Follows

/-- On a way to a directory the first names lead to a directory, too. -/
theorem front (hg : Grounded fs) (h : Follows fs left dir (names ++ rest) q left')
    (hdir : fs.object? dir = some .directory) (hq : fs.object? q = some .directory) :
    ∃ d left₁, Follows fs left dir names d left₁ ∧ fs.object? d = some .directory := by
  generalize hall : names ++ rest = all at h
  induction h generalizing names with
  | done =>
      obtain ⟨rfl, -⟩ := List.append_eq_nil_iff.mp hall
      exact ⟨_, _, .done, hdir⟩
  | stay hstay _ ih =>
      cases names with
      | nil => exact ⟨_, _, .done, hdir⟩
      | cons name names =>
          cases hall
          obtain ⟨d, left₁, h, hd⟩ := ih hdir hq rfl
          exact ⟨d, left₁, .stay hstay h, hd⟩
  | up _ ih =>
      cases names with
      | nil => exact ⟨_, _, .done, hdir⟩
      | cons name names =>
          cases hall
          obtain ⟨d, left₁, h, hd⟩ := ih (hg.tail hdir) hq rfl
          exact ⟨d, left₁, .up h, hd⟩
  | down hname ho _ ih =>
      cases names with
      | nil => exact ⟨_, _, .done, hdir⟩
      | cons name names =>
          cases hall
          obtain ⟨d, left₁, h, hd⟩ := ih ho hq rfl
          exact ⟨d, left₁, .down hname ho h, hd⟩
  | file _ ho =>
      rw [ho] at hq
      cases hq
  | link hname ho _ ih =>
      cases names with
      | nil => exact ⟨_, _, .done, hdir⟩
      | cons name names =>
          cases hall
          obtain ⟨d, left₁, h, hd⟩ :=
            ih (directory_linkStart hdir _) hq (List.append_assoc _ _ _)
          exact ⟨d, left₁, .link hname ho h, hd⟩

end Follows

/-! ## Files and what leads to them -/

/-- There is a file at a place, or a link that leads to one. -/
inductive StandsForFile (fs : FileSystem linked) (s : Path) : Prop where
  | file {content : Bytes} : fs.object? s = some (.file content) → StandsForFile fs s
  | link {target : String} {allowed : linked = true} {q : Path} {left left' : Nat}
      {content : Bytes} : fs.object? s = some (.link target allowed) →
      Follows fs left (linkStart s.tail target) (Path.parts target) q left' →
      fs.object? q = some (.file content) → StandsForFile fs s

namespace StandsForFile

theorem ne_directory (h : fs.StandsForFile s) : fs.object? s ≠ some .directory := by
  cases h with
  | file ho | link ho _ _ => simp [ho]

theorem mono (h : fs.StandsForFile s)
    (hkept : ∀ p o, fs.object? p = some o → fs'.object? p = some o) : fs'.StandsForFile s := by
  cases h with
  | file ho => exact .file (hkept _ _ ho)
  | link ho hway hq => exact .link (hkept _ _ ho) (hway.mono hkept) (hkept _ _ hq)

theorem ne_directory_of_follows (h : fs.StandsForFile s) {target : String}
    {allowed : linked = true} (hs : fs.object? s = some (.link target allowed))
    (hway : Follows fs left (linkStart s.tail target) (Path.parts target) q left') :
    fs.object? q ≠ some .directory := by
  cases h with
  | file ho =>
      rw [hs] at ho
      cases ho
  | link ho hway' hq =>
      rw [hs] at ho
      cases ho
      rw [hway.unique hway', hq]
      nofun

end StandsForFile

/-- A way to a directory stays when nothing goes but what stands for files. -/
theorem Follows.kept (h : Follows fs left dir names q left') (hg : Grounded fs)
    (hkept : ∀ p o, fs.object? p = some o → fs'.object? p = some o ∨ fs.StandsForFile p)
    (hdir : fs.object? dir = some .directory) (hq : fs.object? q = some .directory) :
    Follows fs' left dir names q left' := by
  induction h with
  | done => exact .done
  | stay hstay _ ih => exact .stay hstay (ih hdir hq)
  | up _ ih => exact .up (ih (hg.tail hdir) hq)
  | down hname ho _ ih =>
      rcases hkept _ _ ho with ho' | hfile
      · exact .down hname ho' (ih ho hq)
      · exact absurd ho hfile.ne_directory
  | file _ ho =>
      rw [ho] at hq
      cases hq
  | link hname ho hway ih =>
      rcases hkept _ _ ho with ho' | hfile
      · exact .link hname ho' (ih (directory_linkStart hdir _) hq)
      · obtain ⟨d, left₁, hfront, hd⟩ := hway.front hg (directory_linkStart hdir _) hq
        exact absurd hd (hfile.ne_directory_of_follows ho hfront)

/-! ## Paths -/

theorem enter_eq_ok_iff : fs.enter dir left name = .ok (q, left') ↔
    (utf8 name).length ≤ nameLimit ∧ ((q = name :: dir ∧ left' = left ∧
        (fs.object? q = some .directory ∨ ∃ content, fs.object? q = some (.file content))) ∨
      ∃ target allowed n, fs.object? (name :: dir) = some (.link target allowed) ∧ left = n + 1 ∧
        Follows fs n (linkStart dir target) (Path.parts target) q left') := by
  rw [enter]
  by_cases hlong : nameLimit < (utf8 name).length
  · rw [if_pos hlong]
    exact iff_of_false (by simp) fun h => absurd hlong (Nat.not_lt.mpr h.1)
  rw [if_neg hlong, and_iff_right (Nat.not_lt.mp hlong)]
  cases ho : fs.object? (name :: dir) with
  | none =>
      refine iff_of_false (by simp) ?_
      rintro (⟨rfl, -, hq⟩ | ⟨_, _, _, hq, -⟩)
      · simp [ho] at hq
      · simp at hq
  | some o =>
      cases o with
      | link target allowed =>
          simp only [walk_eq_ok_iff]
          constructor
          · rintro ⟨n, rfl, hway⟩
            exact .inr ⟨target, allowed, n, rfl, rfl, hway⟩
          · rintro (⟨rfl, -, hq⟩ | ⟨_, _, n, hq, rfl, hway⟩)
            · simp [ho] at hq
            · cases hq
              exact ⟨n, rfl, hway⟩
      | _ =>
          constructor
          · intro h
            cases h
            exact .inl ⟨rfl, rfl, by simp [ho]⟩
          · rintro (⟨rfl, rfl, -⟩ | ⟨_, _, _, hq, -⟩)
            · rfl
            · cases hq

theorem enter_kept (h : fs.enter dir left name = .ok (q, left')) (hg : Grounded fs)
    (hkept : ∀ p o, fs.object? p = some o → fs'.object? p = some o ∨ fs.StandsForFile p)
    (hdir : fs.object? dir = some .directory) (hq : fs.object? q = some .directory) :
    fs'.enter dir left name = .ok (q, left') := by
  have hq' : fs'.object? q = some .directory :=
    (hkept _ _ hq).resolve_right fun hfile => hfile.ne_directory hq
  rw [enter_eq_ok_iff] at h ⊢
  obtain ⟨hname, ⟨rfl, rfl, -⟩ | ⟨target, allowed, n, ho, rfl, hway⟩⟩ := h
  · exact ⟨hname, .inl ⟨rfl, rfl, .inl hq'⟩⟩
  · rcases hkept _ _ ho with ho' | hfile
    · exact ⟨hname, .inr ⟨target, allowed, n, ho', rfl,
        hway.kept hg hkept (directory_linkStart hdir _) hq⟩⟩
    · exact absurd hq (hfile.ne_directory_of_follows ho hway)

/-- A path leads on from where its directory leads.  Where something stands at the path itself, that
    is the same. -/
theorem Grounded.lead_of_enter (hg : Grounded fs) (hlead : fs.lead dir = .ok (d, left))
    (henter : fs.enter d left name = .ok (q, left')) (hq : fs.object? q = some .directory) :
    fs.lead (name :: dir) = .ok (q, left') := by
  have hself : ∀ o, fs.object? (name :: dir) = some o → d = dir ∧ left = linkLimit := by
    intro o ho
    rw [lead_of_directory (hg ho)] at hlead
    cases hlead
    exact ⟨rfl, rfl⟩
  rw [enter_eq_ok_iff] at henter
  rw [lead]
  split
  · rename_i ho
    obtain ⟨rfl, rfl⟩ := hself _ ho
    obtain ⟨-, ⟨rfl, rfl, -⟩ | ⟨_, _, _, ho', -⟩⟩ := henter
    · rfl
    · rw [ho] at ho'
      cases ho'
  · rename_i ho
    obtain ⟨rfl, rfl⟩ := hself _ ho
    obtain ⟨-, ⟨rfl, -, -⟩ | ⟨_, _, _, ho', -⟩⟩ := henter
    · rw [ho] at hq
      cases hq
    · rw [ho] at ho'
      cases ho'
  · simp only [hlead, enter_eq_ok_iff.mpr henter, hq, bind, Except.bind, if_true]

/-- Directories are found where they were when nothing goes but what stands for files. -/
theorem Grounded.lead_kept (hg : Grounded fs) (hg' : Grounded fs')
    (hkept : ∀ p o, fs.object? p = some o → fs'.object? p = some o ∨ fs.StandsForFile p)
    (h : fs.lead p = .ok (d, left)) : fs'.lead p = .ok (d, left) := by
  induction p generalizing d left with
  | nil =>
      cases h
      rfl
  | cons name dir ih =>
      have hkept' : ∀ {q}, fs.object? q = some .directory → fs'.object? q = some .directory :=
        fun hq => (hkept _ _ hq).resolve_right fun hfile => hfile.ne_directory hq
      rw [lead] at h
      split at h
      · rename_i ho
        cases h
        exact lead_of_directory (hkept' ho)
      · cases h
      · obtain ⟨⟨d', left'⟩, hlead, h⟩ := bind_eq_ok h
        obtain ⟨⟨q, left''⟩, henter, h⟩ := bind_eq_ok h
        dsimp only at h
        split at h
        · rename_i hq
          cases h
          exact hg'.lead_of_enter (ih hlead)
            (enter_kept henter hg hkept (directory_of_lead hlead) hq) (hkept' hq)
        · cases h

theorem place_of_lead (hlead : fs.lead dir = .ok (d, left)) (h : Fits (name :: dir)) :
    fs.place (name :: dir) = .ok (name :: d) := by
  obtain ⟨hfits, hname⟩ := fits_cons_iff.mp h
  simp only [place, hfits, hlead, bind, Except.bind, hname, if_true]

theorem Grounded.place_kept (hg : Grounded fs) (hg' : Grounded fs')
    (hkept : ∀ p o, fs.object? p = some o → fs'.object? p = some o ∨ fs.StandsForFile p)
    (h : fs.place p = .ok q) : fs'.place p = .ok q := by
  obtain ⟨-, ⟨rfl, rfl⟩ | ⟨name, dir, d, left, rfl, rfl, hfits, hlead⟩⟩ := place_eq_ok h
  · rfl
  · exact place_of_lead (hg.lead_kept hg' hkept hlead) hfits

namespace Grounded

/-- Where a directory has its place, a path leads to it. -/
theorem lead_of_place (hg : Grounded fs) (h : fs.place p = .ok q)
    (hq : fs.object? q = some .directory) : ∃ left, fs.lead p = .ok (q, left) := by
  obtain ⟨-, ⟨rfl, rfl⟩ | ⟨name, dir, d, left, rfl, rfl, hfits, hlead⟩⟩ := place_eq_ok h
  · exact ⟨_, rfl⟩
  · have henter : fs.enter d left name = .ok (name :: d, left) :=
      enter_eq_ok_iff.mpr ⟨(fits_cons_iff.mp hfits).2, .inl ⟨rfl, rfl, .inl hq⟩⟩
    exact ⟨left, hg.lead_of_enter hlead henter hq⟩

theorem lead_of_isDirectory (hg : Grounded fs) (h : fs.isDirectory p = true) :
    ∃ left, fs.lead p = .ok (fs.home p, left) := by
  obtain ⟨-, hhome⟩ := isDirectory_home.mp h
  unfold home at hhome ⊢
  split at hhome
  · exact ⟨_, lead_of_directory hhome⟩
  · rename_i ho
    rw [ho] at hhome
    cases hhome
  rename_i hno _
  split at hhome
  · rename_i q harrive
    cases p with
    | nil => exact absurd rfl hno
    | cons name dir =>
        obtain ⟨d, left, left', hlead, henter⟩ := arrive_cons_eq_ok harrive
        exact ⟨left', hg.lead_of_enter hlead henter hhome⟩
  · cases hplace : fs.place p with
    | ok q =>
        rw [hplace] at hhome
        exact hg.lead_of_place hplace hhome
    | error fault =>
        rw [hplace] at hhome
        exact absurd hhome hno

/-- The place of what stands at the path itself is the path. -/
theorem place_eq_self (hg : Grounded fs) {o : FileObject linked} (ho : fs.object? p = some o)
    (h : fs.place p = .ok q) : q = p := by
  obtain ⟨-, ⟨rfl, rfl⟩ | ⟨name, dir, d, left, rfl, rfl, -, hlead⟩⟩ := place_eq_ok h
  · rfl
  · rw [lead_of_directory (hg ho)] at hlead
    cases hlead
    rfl

/-- A path to nothing leads to the place of its end. -/
theorem home_of_place (hg : Grounded fs) (h : fs.place p = .ok q) (hq : fs.object? q = none) :
    fs.home p = q := by
  unfold home
  split
  · rename_i ho
    exact (hg.place_eq_self ho h).symm
  · rename_i ho
    exact (hg.place_eq_self ho h).symm
  split
  · rename_i q' harrive
    obtain ⟨-, ⟨rfl, rfl⟩ | ⟨name, dir, d, left, rfl, rfl, -, hlead⟩⟩ := place_eq_ok h
    · cases hq
    · obtain ⟨d', left', left'', hlead', henter⟩ := arrive_cons_eq_ok harrive
      rw [hlead] at hlead'
      cases hlead'
      obtain ⟨-, ⟨rfl, -, ho | ⟨content, ho⟩⟩ | ⟨_, _, _, ho, -⟩⟩ := enter_eq_ok_iff.mp henter
      · simp [hq] at ho
      · simp [hq] at ho
      · simp [hq] at ho
  · rw [h]
    rfl

/-- What a path to a file ends in has a place in a directory, and stands for the file there. -/
theorem standsForFile_of_isFile (hg : Grounded fs) (h : fs.isFile (name :: dir) = true) :
    ∃ d left, fs.lead dir = .ok (d, left) ∧ fs.StandsForFile (name :: d) := by
  obtain ⟨-, content, hhome⟩ := isFile_home.mp h
  unfold home at hhome
  split at hhome
  · rename_i ho
    rw [ho] at hhome
    cases hhome
  · exact ⟨dir, _, lead_of_directory (hg hhome), .file hhome⟩
  rename_i hno
  split at hhome
  · rename_i q harrive
    obtain ⟨d, left, left', hlead, henter⟩ := arrive_cons_eq_ok harrive
    refine ⟨d, left, hlead, ?_⟩
    obtain ⟨-, ⟨rfl, -, -⟩ | ⟨target, allowed, n, ho, -, hway⟩⟩ := enter_eq_ok_iff.mp henter
    · exact .file hhome
    · exact .link ho hway hhome
  · cases hplace : fs.place (name :: dir) with
    | ok q =>
        rw [hplace] at hhome
        obtain ⟨d, left, rfl, -, hlead⟩ := place_cons_eq_ok hplace
        exact ⟨d, left, hlead, .file hhome⟩
    | error fault =>
        rw [hplace] at hhome
        exact absurd hhome (hno content)

/-- What a path to a directory ends in is no file. -/
theorem ne_file_of_isDirectory (hg : Grounded fs) (h : fs.isDirectory p = true)
    (hplace : fs.place p = .ok q) : fs.object? q ≠ some (.file content) := by
  intro hq
  obtain ⟨left, hlead⟩ := hg.lead_of_isDirectory h
  obtain ⟨-, ⟨rfl, rfl⟩ | ⟨name, dir, d, left', rfl, rfl, hfits, hlead'⟩⟩ := place_eq_ok hplace
  · cases hq
  rw [lead] at hlead
  split at hlead
  · rename_i ho
    rw [hg.place_eq_self ho hplace, ho] at hq
    cases hq
  · cases hlead
  · have henter : fs.enter d left' name = .ok (name :: d, left') :=
      enter_eq_ok_iff.mpr ⟨(fits_cons_iff.mp hfits).2, .inl ⟨rfl, rfl, .inr ⟨content, hq⟩⟩⟩
    simp [hlead', henter, hq, bind, Except.bind] at hlead

/-- A rename of what is no directory moves one object. -/
theorem object?_rename_of_ne (hg : Grounded fs) (hplace : fs.place p = .ok s)
    (hno : fs.object? s ≠ some .directory) (h : fs.rename p q = .ok fs') :
    ∃ d, fs.place q = .ok d ∧ ∀ x, fs'.object? x =
      if x = d then fs.object? s else if x = s then none else fs.object? x := by
  obtain ⟨s', d, hs, hd, hcase⟩ := hg.place_of_rename h
  rw [hplace] at hs
  cases hs
  refine ⟨d, hd, fun x => ?_⟩
  have hbelow := hg.eq_none_of_ne hno
  rcases hcase with ⟨rfl, rfl⟩ | ⟨_, name, dir, name', dir', rfl, rfl, -, -, -, hfree, -, rfl⟩
  · split
    · rename_i hx
      rw [hx]
    · rfl
  rw [object?_moved (List.cons_ne_nil _ _) (List.cons_ne_nil _ _) hfree]
  by_cases hx : name' :: dir' <:+ x
  · obtain ⟨l, rfl⟩ := hx
    rw [if_pos (List.suffix_append _ _), rebase_append]
    by_cases hl : l = []
    · simp [hl]
    · rw [hbelow l hl, if_neg (by simpa using hl), hfree l hl, ite_self]
  · rw [if_neg hx, if_neg (ne_of_not_suffix hx)]
    by_cases hs : name :: dir <:+ x
    · obtain ⟨l, rfl⟩ := hs
      by_cases hl : l = []
      · simp [hl]
      · rw [if_pos (List.suffix_append _ _), if_neg (by simpa using hl), hbelow l hl]
    · rw [if_neg hs, if_neg (ne_of_not_suffix hs)]

/-- What becomes of something that is no directory when a path to a directory is renamed: it goes
    along if it is at or below the place of that path, and at the new place it may only give way to
    a link. -/
theorem fate_of_rename (hg : Grounded fs) {o : FileObject linked} {x : Path}
    (hdir : fs.isDirectory p = true) (h : fs.rename p q = .ok fs') (hx : fs.object? x = some o)
    (hno : o ≠ .directory) : ∃ s d, fs.place p = .ok s ∧ fs.place q = .ok d ∧
      (fs'.object? x = some o ∨ (∃ l, x = l ++ s ∧ fs'.object? (l ++ d) = some o) ∨
        x = d ∧ ∃ text allowed, fs.object? s = some (.link text allowed) ∧
          fs'.object? x = some (.link text allowed)) := by
  obtain ⟨s, d, hs, hd, hcase⟩ := hg.place_of_rename h
  obtain ⟨s', d', hs', hd', hobject⟩ := hg.transfer_of_rename h
  cases hs.symm.trans hs'
  cases hd.symm.trans hd'
  refine ⟨s, d, hs, hd, ?_⟩
  by_cases hsx : s <:+ x
  · obtain ⟨l, rfl⟩ := hsx
    refine .inr (.inl ⟨l, rfl, ?_⟩)
    rw [hobject, transfer, if_pos (List.suffix_append _ _), rebase_append, hx]
  by_cases hdx : d <:+ x
  · obtain ⟨l, rfl⟩ := hdx
    rcases hcase with ⟨rfl, -⟩ | ⟨o', _, _, _, _, -, -, ho', -, -, hfree, htakes, -⟩
    · exact absurd (List.suffix_append _ _) hsx
    by_cases hl : l = []
    · subst hl
      refine .inr (.inr ⟨rfl, ?_⟩)
      have hlast : fs'.object? ([] ++ d) = some o' := by
        rw [hobject, transfer, if_pos (List.suffix_append _ _), rebase_append]
        exact ho'
      cases o' with
      | directory => exact absurd (htakes rfl o hx) hno
      | file content => exact absurd ho' (hg.ne_file_of_isDirectory hdir hs)
      | link text allowed => exact ⟨text, allowed, ho', hlast⟩
    · rw [hfree l hl] at hx
      cases hx
  · refine .inl ?_
    rw [hobject, transfer, if_neg hdx, if_neg hsx, hx]

end Grounded
end FileSystem
end DirectoryStore
