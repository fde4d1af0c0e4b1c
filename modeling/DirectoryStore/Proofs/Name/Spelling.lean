import DirectoryStore.Proofs.Name.Grammar

/-!
# Written names read back

A name whose attribute types are words of name characters reads back from its written form,
in the same spelling, and every name that is read is of this kind.  Names read back whether a
slash in a value stands for itself or is written as an escape, as in file names: both are
legal spellings.
-/

namespace DirectoryStore

/-- The attribute types consist of name characters; they may be empty. -/
def Dn.PlainTypes (d : Dn) : Prop :=
  ∀ r ∈ d.rdns, ∀ c ∈ r.components, ∀ x ∈ c.type.toList, isNameChar x = true

instance (d : Dn) : Decidable d.PlainTypes :=
  decidable_of_iff (∀ r ∈ d.rdns, ∀ c ∈ r.components, c.type.toList.all isNameChar = true)
    (by simp only [Dn.PlainTypes, List.all_eq_true])

theorem Dn.Legible.plainTypes {d : Dn} (h : d.Legible) : d.PlainTypes :=
  fun r hr c hc => (h r hr c hc).2

namespace Name

variable {c mark : Char} {cs rest : List Char} {g : Char → List Char}

/-- Ways to spell a character of a written name: as itself, or a slash as an escape. -/
structure Spelling (g : Char → List Char) : Prop where
  other : ∀ c, c ≠ '/' → g c = [c]
  slash : g '/' = ['/'] ∨ g '/' = ['\\', '2', 'F']

theorem spelling_plain : Spelling fun c => [c] :=
  ⟨fun _ _ => rfl, .inl rfl⟩

theorem spelling_slash : Spelling fun c => if c = '/' then ['\\', '2', 'F'] else [c] :=
  ⟨fun _ hc => if_neg hc, .inr rfl⟩

/-! ## Written values are spelled legally -/

theorem Spelling.flatMap_eq (hg : Spelling g) (h : '/' ∉ cs) : cs.flatMap g = cs := by
  induction cs with
  | nil => rfl
  | cons c cs ih =>
      rw [List.mem_cons, not_or] at h
      rw [List.flatMap_cons, hg.other c (Ne.symm h.1), ih h.2]
      rfl

theorem mem_escapable (h : c ∈ specials) : c ∈ escapable := by
  have hall : (specials.all fun x => escapable.contains x) = true := by decide
  exact List.contains_iff_mem.mp (List.all_eq_true.mp hall c h)

/-- The written form of a character is one of its spellings. -/
theorem charSpelled_escapeChar (hg : Spelling g) (isFirst : Bool) (c : Char) (cs : List Char) :
    CharSpelled (c ∉ specials ∧ (c = ' ' → isFirst = false ∧ cs ≠ [])) c
      ((escapeChar isFirst cs.isEmpty c).flatMap g) := by
  have hescaped : c ∈ escapable → ['\\', c].flatMap g = ['\\', c] := by
    intro hc
    have hslash : c ≠ '/' := by
      rintro rfl
      exact absurd hc (by decide)
    apply hg.flatMap_eq
    simp [Ne.symm hslash]
  unfold escapeChar
  split
  · rename_i hspecial
    rw [hescaped (mem_escapable hspecial)]
    exact .escaped (mem_escapable hspecial)
  rename_i hspecial
  split
  · rename_i hspace
    obtain ⟨rfl, -⟩ := hspace
    rw [hescaped (by decide)]
    exact .escaped (by decide)
  rename_i hspace
  split
  · rename_i hsign
    obtain ⟨rfl, -⟩ := hsign
    rw [hescaped (by decide)]
    exact .escaped (by decide)
  split
  · rename_i hcontrol
    rw [hg.flatMap_eq]
    · apply CharSpelled.bytes
      rw [Utf8.encodeChar_of_lt (by omega)]
      exact .cons (Hex.isPairOf_upper _) .nil
    · have hall : ∀ k : Fin 32, '/' ∉ '\\' :: Hex.upperPair (UInt8.ofNat k) := by decide
      exact hall ⟨c.toNat, hcontrol⟩
  · rw [List.flatMap_singleton]
    have hitself : CharSpelled (c ∉ specials ∧ (c = ' ' → isFirst = false ∧ cs ≠ [])) c [c] := by
      refine .itself ⟨hspecial, fun hc => ?_⟩
      simp_all
    by_cases hslash : c = '/'
    · rw [hslash] at hitself ⊢
      rcases hg.slash with hs | hs
      · rw [hs]
        exact hitself
      · rw [hs]
        have hpair : Hex.IsPairOf '2' 'F' 0x2F := by decide
        exact .bytes (.cons hpair .nil)
    · rw [hg.other c hslash]
      exact hitself

theorem unquoted_escapeFrom (hg : Spelling g) (isFirst : Bool) (cs : List Char) :
    Unquoted isFirst cs ((escapeFrom isFirst cs).flatMap g) := by
  induction cs generalizing isFirst with
  | nil => exact .nil
  | cons c cs ih =>
      rw [escapeFrom, List.flatMap_append]
      exact .cons (charSpelled_escapeChar hg isFirst c cs) (ih false)

/-! ## Written names are spelled legally -/

theorem joined_intercalate {α : Type} {Spelled : α → List Char → Prop} {marks : List Char}
    {f : α → List Char} (hmark : mark ∈ marks) (hg : g mark = [mark]) {a : α} {as : List α}
    (h : ∀ x ∈ a :: as, Spelled x ((f x).flatMap g)) :
    Joined Spelled marks (a :: as) (([mark].intercalate ((a :: as).map f)).flatMap g) := by
  induction as generalizing a with
  | nil =>
      rw [List.map_singleton, List.intercalate_singleton]
      exact .one (h a List.mem_cons_self)
  | cons b as ih =>
      rw [List.map_cons, List.map_cons, List.intercalate_cons_cons, List.flatMap_append,
        List.flatMap_append, List.append_assoc, List.flatMap_singleton, hg]
      exact .cons (h a List.mem_cons_self) hmark (ih fun x hx => h x (List.mem_cons_of_mem a hx))

end Name

open Name (Spelling)

theorem Component.spelled_chars {g : Char → List Char} (hg : Spelling g) {c : Component}
    (hc : ∀ x ∈ c.type.toList, isNameChar x = true) : c.Spelled (c.chars.flatMap g) := by
  have htype : c.type.toList.flatMap g = c.type.toList := by
    apply hg.flatMap_eq
    intro hslash
    exact absurd (hc '/' hslash) (by decide)
  have hvalue := Name.unquoted_escapeFrom hg true c.value.toList
  have hspelled := Component.Spelled.mk 0 0 0 0 (.unquoted hvalue)
  rw [Component.chars, List.flatMap_append, List.flatMap_cons, htype, hg.other '=' (by decide)]
  simpa [Name.spaces] using hspelled

theorem Rdn.spelled_chars {g : Char → List Char} (hg : Spelling g) {r : Rdn}
    (hr : ∀ c ∈ r.components, ∀ x ∈ c.type.toList, isNameChar x = true) :
    r.Spelled (r.chars.flatMap g) :=
  Name.joined_intercalate (by decide) (hg.other '+' (by decide)) fun c hc =>
    Component.spelled_chars hg (hr c hc)

theorem Dn.spelled_chars {g : Char → List Char} (hg : Spelling g) {d : Dn} (hd : d.PlainTypes)
    (hne : d.rdns ≠ []) : d.Spelled (d.chars.flatMap g) := by
  obtain ⟨r, rs, hrdns⟩ := List.exists_cons_of_ne_nil hne
  rw [Dn.Spelled, Dn.chars, hrdns]
  refine Name.joined_intercalate (by decide) (hg.other ',' (by decide)) fun x hx => ?_
  exact Rdn.spelled_chars hg (hd x (hrdns ▸ hx))

namespace Name

/-! ## Names that have been read -/

theorem readType_legible {type : String} (h : readType cs = .ok (type, rest)) :
    type ≠ "" ∧ ∀ x ∈ type.toList, isNameChar x = true := by
  have hword : ∀ x ∈ (skipSpaces cs).takeWhile isNameChar, isNameChar x = true :=
    List.all_eq_true.mp List.all_takeWhile
  unfold readType at h
  dsimp only at h
  split at h
  · split at h
    · cases h
    · split at h
      · cases h
      · rename_i hne
        split at h
        · cases h
          refine ⟨fun he => hne ?_, by rwa [String.toList_ofList]⟩
          rw [← String.toList_eq_nil_iff, String.toList_ofList] at he
          rw [he]
          rfl
        · cases h
  · split at h <;> cases h

theorem readComponent_legible {d : Component} (h : readComponent cs = .ok (d, rest)) :
    d.Legible := by
  unfold readComponent at h
  split at h
  · cases h
  · rename_i htype
    split at h
    · cases h
    · cases h
      exact readType_legible htype

theorem attach_legible {d : Component} (hd : d.Legible) (mark : Char) {rs : List Rdn}
    (hrs : ∀ r ∈ rs, r.Legible) : ∀ r ∈ attach d mark rs, r.Legible := by
  have hsingle : (Rdn.mk d []).Legible := by
    intro x hx
    rw [List.mem_singleton.mp hx]
    exact hd
  cases rs with
  | nil => exact List.forall_mem_singleton.mpr hsingle
  | cons r rs =>
      rw [List.forall_mem_cons] at hrs
      have hjoined : (Rdn.mk d r.components).Legible := List.forall_mem_cons.mpr ⟨hd, hrs.1⟩
      rw [attach]
      split
      · exact List.forall_mem_cons.mpr ⟨hjoined, hrs.2⟩
      · exact List.forall_mem_cons.mpr ⟨hsingle, List.forall_mem_cons.mpr hrs⟩

theorem readRdns_legible {rs : List Rdn} (h : readRdns cs = .ok rs) : ∀ r ∈ rs, r.Legible := by
  fun_induction readRdns cs generalizing rs with
  | case1 | case3 => cases h
  | case2 cs c hread =>
      cases h
      have hnone : ∀ r ∈ ([] : List Rdn), r.Legible := nofun
      exact attach_legible (readComponent_legible hread) ' ' hnone
  | case4 cs c mark rest hread rs' _ ih =>
      cases h
      exact attach_legible (readComponent_legible hread) mark (ih ‹_›)

end Name

/-- A name that has been read can be read. -/
theorem Dn.legible_of_parse {text : String} {d : Dn} (h : Dn.parse text = .ok d) :
    d.Legible := by
  rw [Dn.parse] at h
  split at h
  · cases h
    exact fun _ hr => absurd hr List.not_mem_nil
  · split at h
    · rename_i hread
      cases h
      exact Name.readRdns_legible hread
    · cases h

theorem Dn.parse_chars {g : Char → List Char} (hg : Spelling g) {d : Dn} (hd : d.Legible) :
    Dn.parse (String.ofList (d.chars.flatMap g)) = .ok d := by
  obtain ⟨rdns⟩ := d
  cases rdns with
  | nil => rfl
  | cons r rs =>
      have hspelled := Dn.spelled_chars hg hd.plainTypes (List.cons_ne_nil r rs)
      have hread := Name.readRdns_joined hd hspelled
      rw [Dn.parse, Name.isAllBlank_spelled hspelled, String.toList_ofList, hread]
      rfl

/-- The written form of a name reads back as that name. -/
theorem Dn.parse_text {d : Dn} (hd : d.Legible) : Dn.parse d.text = .ok d := by
  have := Dn.parse_chars Name.spelling_plain hd
  rwa [List.flatMap_singleton'] at this

/-- The names that can be written are those that read back, and whatever is read is one of
    them. -/
theorem Dn.legible_iff_parse_text (d : Dn) : (d.Legible ↔ Dn.parse d.text = .ok d) ∧
    ∀ text, Dn.parse text = .ok d → d.Legible :=
  ⟨⟨Dn.parse_text, Dn.legible_of_parse⟩, fun _ => Dn.legible_of_parse⟩

/-- Values that are empty, that are blank, and that have every mark of the notation in them. -/
theorem Dn.legible_iff_parse_text_marks :
    let d : Dn := ⟨[⟨⟨"cn", ""⟩, [⟨"2.5-4;x", "   "⟩, ⟨"CN", " #\"\\,+;<>= "⟩]⟩,
      .single "O" "# \u0000\n\u007F/é "]⟩
    d.Legible ∧ Dn.parse d.text = .ok d :=
  ⟨by decide, (Dn.legible_iff_parse_text _).1.mp (by decide)⟩

/-- A written relative name reads back as that name, with its slashes in either spelling. -/
theorem Rdn.parse_chars {g : Char → List Char} (hg : Spelling g) {r : Rdn} (hr : r.Legible) :
    Rdn.parse (String.ofList (r.chars.flatMap g)) = .ok r := by
  have hd : (Dn.mk [r]).Legible := fun x hx => List.mem_singleton.mp hx ▸ hr
  have hchars : (Dn.mk [r]).chars = r.chars := by
    rw [Dn.chars, List.map_singleton, List.intercalate_singleton]
  have := Dn.parse_chars hg hd
  rw [hchars] at this
  rw [Rdn.parse, this]

end DirectoryStore
