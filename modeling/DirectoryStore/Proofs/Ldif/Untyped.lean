import DirectoryStore.Proofs.Ldif.Layout
import DirectoryStore.Proofs.Ldif.RoundTrip

/-!
# Names without a type

An attribute type in a name may be empty.  The name is written all the same, with nothing in
front of an equals sign, but it is not read again, and neither is a document of entries in which
there is such a name, wherever it stands.
-/

namespace DirectoryStore

namespace Name

variable {α : Type} {Spelled : α → List Char → Prop} {marks marks' text texts cs : List Char}
variable {mark : Char} {c : Component} {components : List Component}

/-! ## Names as their components -/

theorem Joined.mono {as : List α} (h : Joined Spelled marks as text) (hmarks : marks ⊆ marks') :
    Joined Spelled marks' as text := by
  induction h with
  | one h => exact .one h
  | cons h hmark _ ih => exact .cons h (hmarks hmark) ih

theorem Joined.append {as bs : List α} (h : Joined Spelled marks as text) (hmark : mark ∈ marks)
    (hs : Joined Spelled marks bs texts) :
    Joined Spelled marks (as ++ bs) (text ++ mark :: texts) := by
  induction h with
  | one h => exact .cons h hmark hs
  | cons h hmark' _ ih =>
      rw [List.append_assoc, List.cons_append]
      exact .cons h hmark' ih

/-- A name is spelled by its components, with either kind of marks between them. -/
theorem joined_components {d : Dn} (h : d.Spelled text) :
    Joined Component.Spelled ['+', ',', ';'] (d.rdns.flatMap Rdn.components) text := by
  obtain ⟨rs⟩ := d
  change Joined Rdn.Spelled [',', ';'] rs text at h
  have hinner : ∀ {r : Rdn} {text}, r.Spelled text →
      Joined Component.Spelled ['+', ',', ';'] r.components text := fun h => h.mono (by simp)
  induction h with
  | one h =>
      rw [List.flatMap_singleton]
      exact hinner h
  | cons h hmark _ ih =>
      rw [List.flatMap_cons]
      exact (hinner h).append (List.mem_cons_of_mem '+' hmark) ih

/-! ## Missing types -/

/-- Nothing but spaces is in front of the equals sign. -/
theorem readComponent_untyped (htype : c.type = "") (h : c.Spelled text) (after : List Char) :
    ∃ fault, readComponent (text ++ after) = .error fault := by
  cases h with
  | mk before afterType beforeValue n h =>
      have hstart : ∀ rest, skipSpaces (spaces before ++ (spaces afterType ++ '=' :: rest)) =
          '=' :: rest := by
        intro rest
        rw [skipSpaces_spaces, skipSpaces_spaces]
        exact skipSpaces_cons (by decide) rest
      have hmark : isNameChar '=' = false := by decide
      simp [htype, readComponent, readType, hstart, hmark]

theorem readRdns_error {fault : Fault} (h : readComponent cs = .error fault) :
    readRdns cs = .error fault := by
  rw [readRdns]
  split <;> rename_i heq <;> rw [h] at heq <;> cases heq
  rfl

theorem readRdns_untyped (h : Joined Component.Spelled ['+', ',', ';'] components text)
    (hplain : ∀ c ∈ components, ∀ x ∈ c.type.toList, isNameChar x = true)
    (huntyped : ∃ c ∈ components, c.type = "") : ∃ fault, readRdns text = .error fault := by
  induction h with
  | @one c text h =>
      obtain ⟨_, hc, htype⟩ := huntyped
      obtain rfl := List.mem_singleton.mp hc
      obtain ⟨fault, hread⟩ := readComponent_untyped htype h []
      rw [List.append_nil] at hread
      exact ⟨fault, readRdns_error hread⟩
  | @cons c cs mark text texts h hmark _ ih =>
      by_cases htype : c.type = ""
      · obtain ⟨fault, hread⟩ := readComponent_untyped htype h (mark :: texts)
        exact ⟨fault, readRdns_error hread⟩
      · rw [List.forall_mem_cons] at hplain
        have hrest : ∃ c ∈ cs, c.type = "" := by simpa [htype] using huntyped
        obtain ⟨fault, hread⟩ := ih hplain.2 hrest
        have hc : c.Worded False text := component_worded h
        refine ⟨fault, ?_⟩
        rw [readRdns_mark (readComponent_worded ⟨htype, hplain.1⟩ hc (stops_cons hmark texts)),
          hread]
        rfl

end Name

theorem Dn.exists_untyped {d : Dn} (hplain : d.PlainTypes) (h : ¬ d.Legible) :
    ∃ c ∈ d.rdns.flatMap Rdn.components, c.type = "" := by
  by_contra hnone
  refine h fun r hr c hc => ⟨fun htype => hnone ⟨c, ?_, htype⟩, hplain r hr c hc⟩
  exact List.mem_flatMap.mpr ⟨r, hr, hc⟩

/-- However a name is spelled in which a type is missing, it is not read. -/
theorem Dn.parse_untyped {d : Dn} {text : String} (hplain : d.PlainTypes) (hd : ¬ d.Legible)
    (h : d.Spelled text.toList) : ∃ err, Dn.parse text = .error err := by
  have hcomponents : ∀ c ∈ d.rdns.flatMap Rdn.components,
      ∀ x ∈ c.type.toList, isNameChar x = true := by
    intro c hc
    obtain ⟨r, hr, hc⟩ := List.mem_flatMap.mp hc
    exact hplain r hr c hc
  obtain ⟨fault, hread⟩ := Name.readRdns_untyped (Name.joined_components h) hcomponents
    (Dn.exists_untyped hplain hd)
  have hblank := Name.isAllBlank_spelled h
  rw [String.ofList_toList] at hblank
  rw [Dn.parse, hblank, hread]
  exact ⟨_, rfl⟩

theorem Dn.parse_text_untyped {d : Dn} (hplain : d.PlainTypes) (hd : ¬ d.Legible) :
    ∃ err, Dn.parse d.text = .error err := by
  have hne : d.rdns ≠ [] := by
    intro hnil
    refine hd fun r hr => ?_
    rw [hnil] at hr
    cases hr
  apply Dn.parse_untyped hplain hd
  have hspelled := Dn.spelled_chars Name.spelling_plain hplain hne
  rw [List.flatMap_singleton'] at hspelled
  rwa [Dn.text, String.toList_ofList]

namespace Ldif

variable {mode : Mode} {p : Progress} {bs back : Bytes} {r : Reader} {es : List Entry}

/-! ## Lines that cannot be taken in -/

theorem Agree.exists_error {α β : Type} {R : α → β → Prop} {x : Except LdifError α} {e : LdifError}
    (h : Agree R x (.error e)) : ∃ e', x = .error e' := by
  cases h with
  | error _ => exact ⟨_, rfl⟩

theorem Reader.readOn_append (r : Reader) (xs ys : Bytes) :
    r.readOn (xs ++ ys) = r.takeLines xs >>= fun r' => r'.readOn (r'.unended ++ ys) := by
  rw [readOn, takeLines_append, bind_assoc]
  rfl

/-- A line that the record so far cannot take in is found out once the next line does not
    continue it. -/
theorem readOn_refused {v : Violation} (hr : r.At mode p) (hne : bs ≠ []) (hend : 0x0A ∉ bs)
    (hcr : bs.getLast? ≠ some 0x0D) (hspace : bs.head? ≠ some 0x20) (hmark : bs.head? ≠ some 0x23)
    (haccept : p.state.accept mode (!p.isStarted) bs = .error v)
    (hback : back.head? ≠ some 0x20) :
    ∃ err, r.readOn (bs ++ 0x0A :: back) = .error err := by
  obtain ⟨b, cs, rfl⟩ := List.exists_cons_of_ne_nil hne
  have hb : b ≠ 0x20 := fun he => hspace (by rw [he]; rfl)
  have hr' : ({ r with unended := [], lines := r.lines + 1 } : Reader).At mode p :=
    ⟨hr.mode, rfl, hr.records, hr.pending⟩
  -- The line is held back, and taken in before anything else is.
  let held : Reader :=
    { r with unended := [], lines := r.lines + 1, pending := some ⟨r.lines + 1, b :: cs⟩,
             isStarted := p.isStarted, state := p.state }
  have hflush : held.flush = .error ⟨r.lines + 1, v⟩ := by
    simp only [held, Reader.flush, Reader.logicalLine, if_neg hmark, hr.mode, haccept]
  have hagree := Reader.readOn_flush hback held
  rw [hflush] at hagree
  rw [Reader.readOn_line hend, Reader.endLine, Reader.withoutReturn, if_neg hcr,
    physicalLine_line hr' hb]
  exact hagree.exists_error

/-- The line for a name in which a type is missing starts no record. -/
theorem readOn_untyped {d : Dn} {isStarted : Bool} {records : List Record}
    (hplain : d.PlainTypes) (hd : ¬ d.Legible) (hr : r.At mode ⟨.idle, isStarted, records⟩)
    (hback : back.head? ≠ some 0x20) :
    ∃ err, r.readOn (Utf8.encode (dnLine d) ++ back) = .error err := by
  obtain ⟨rest, hrest, hbytes, hend, hcr⟩ := written_ends "dn" (utf8 d.text)
  obtain ⟨hline, hlast⟩ := nameLine_ends safeKey_dn.no_lineEnd hend hcr
  obtain ⟨e, hparse⟩ := d.parse_text_untyped hplain hd
  have haccept : RecordState.idle.accept mode (!isStarted) (utf8 "dn" ++ 0x3A :: rest) =
      .error (.name e) := by
    rw [← hrest, accept_dnLine, RecordState.start, Utf8.text?_utf8]
    simp only [hparse]
  rw [dnLine, hbytes, List.append_assoc]
  have hdn : utf8 "dn" = [0x64, 0x6E] := by decide
  refine readOn_refused hr ?_ hline hlast ?_ ?_ haccept hback <;> simp [hdn]

/-! ## Documents -/

theorem head_lineChars {name : String} (h : trim name = name) (value : Value) (rest : List Char) :
    (lineChars name value ++ rest).head? ≠ some ' ' := by
  have hname := head_ne_space h
  rw [lineChars]
  cases hcs : name.toList with
  | cons c cs =>
      rw [hcs] at hname
      exact hname
  | nil =>
      rw [valueChars]
      split <;> simp

/-- Behind a `dn` line nothing continues it. -/
theorem head_attributeLines {attrs : AttributeMap} (hkeys : ∀ s ∈ attrs.sets, SafeKey s.key)
    (rest : List Char) : (attributeLines attrs ++ '\n' :: rest).head? ≠ some ' ' := by
  rw [attributeLines_eq]
  cases hsets : orderedSets attrs with
  | nil => simp
  | cons s ss =>
      have hs : s ∈ attrs.sets := by
        rw [← mem_orderedSets, hsets]
        exact List.mem_cons_self
      obtain ⟨value, values, hvalues⟩ :=
        List.exists_cons_of_ne_nil (toList_ne_nil (attrs.nonempty s hs))
      rw [List.flatMap_cons, setLines, hvalues, List.flatMap_cons, List.append_assoc,
        List.append_assoc]
      exact head_lineChars (hkeys s hs).trimmed value _

/-- Records are read up to the first one whose name lacks a type. -/
theorem readOn_entries_untyped (hplain : ∀ e ∈ es, e.dn.PlainTypes)
    (hkeys : ∀ e ∈ es, ∀ s ∈ e.attributes.sets, SafeKey s.key) (hbad : ∃ e ∈ es, ¬ e.dn.Legible)
    {isStarted : Bool} {records : List Record} (hr : r.At .content ⟨.idle, isStarted, records⟩) :
    ∃ err, r.readOn (Utf8.encode (es.flatMap entryChars)) = .error err := by
  induction es generalizing r isStarted records with
  | nil =>
      obtain ⟨_, he, -⟩ := hbad
      cases he
  | cons e es ih =>
      rw [List.forall_mem_cons] at hplain hkeys
      rw [encode_flatMap_cons]
      by_cases hd : e.dn.Legible
      · obtain ⟨r', htake, hr'⟩ := takes_entryChars hd hkeys.1 r hr
        have hrest : ∃ e ∈ es, ¬ e.dn.Legible := by simpa [hd] using hbad
        rw [Reader.readOn_append, htake]
        simp only [bind, Except.bind, hr'.unended, List.nil_append]
        exact ih hplain.2 hkeys.2 hrest hr'
      · have hhead : (Utf8.encode (attributeLines e.attributes ++
            '\n' :: es.flatMap entryChars)).head? ≠ some 0x20 := fun hhead =>
          head_attributeLines hkeys.1 _ (Utf8.head?_encode hhead (by decide))
        obtain ⟨err, herr⟩ := readOn_untyped hplain.1 hd hr hhead
        refine ⟨err, ?_⟩
        rw [← herr, ← Utf8.encode_append, ← Utf8.encode_append, entryChars]
        simp only [List.append_assoc, List.singleton_append]

/-- The document of entries is refused if a type is missing in one of their names. -/
theorem parseEntries_untyped (hplain : ∀ e ∈ es, e.dn.PlainTypes)
    (hkeys : ∀ e ∈ es, ∀ s ∈ e.attributes.sets, SafeKey s.key)
    (hbad : ∃ e ∈ es, ¬ e.dn.Legible) : ∃ err, parseEntries (writeEntries es) = .error err := by
  obtain ⟨r, htake, hr⟩ := takes_header (Reader.start .content) (Reader.start_at .content)
  obtain ⟨err, herr⟩ := readOn_entries_untyped hplain hkeys hbad hr
  have hread : read .content (utf8 (writeEntries es)) = .error err := by
    rw [utf8, writeEntries, String.toList_ofList, Utf8.encode_append, read_eq]
    change (Reader.start .content).readOn _ = _
    rw [Reader.readOn_append, htake]
    simp only [bind, Except.bind, hr.unended, List.nil_append, herr]
  exact ⟨err, by rw [parseEntries, hread]; rfl⟩

end Ldif
end DirectoryStore
