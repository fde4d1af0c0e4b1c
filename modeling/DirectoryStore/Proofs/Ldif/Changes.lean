import DirectoryStore.Proofs.Ldif.RoundTrip

/-!
# Changes and back

Reading the document of changes gives back the changes.  The record of a modification is a
list of edits, each a line for its kind and its attribute, a line for each operand, and a dash.
Operand lines repeat the attribute, so a reader in the middle of an edit accepts them and
nothing else.  Lines whose attribute type is marked are comments here, too.
-/

namespace DirectoryStore

/-- A change that a record can tell: its name and its attribute types can be written, and if it
    adds an entry, the entry has attributes. -/
def Change.Recordable : Change → Prop
  | .add e => e.dn.Legible ∧ (∀ s ∈ e.attributes.sets, Ldif.SafeKey s.key) ∧
      e.attributes.isEmpty = false
  | .delete dn => dn.Legible
  | .modify dn edits => dn.Legible ∧ ∀ m ∈ edits, Ldif.SafeKey m.key

instance (c : Change) : Decidable c.Recordable :=
  match c with
  | .add e => inferInstanceAs (Decidable (e.dn.Legible ∧
      (∀ s ∈ e.attributes.sets, Ldif.SafeKey s.key) ∧ e.attributes.isEmpty = false))
  | .delete dn => inferInstanceAs (Decidable dn.Legible)
  | .modify dn edits =>
      inferInstanceAs (Decidable (dn.Legible ∧ ∀ m ∈ edits, Ldif.SafeKey m.key))

/-- A change that adds an entry without attributes, which no record can tell. -/
def Change.isBare : Change → Bool
  | .add e => e.attributes.isEmpty
  | _ => false

/-- An edit whose lines stay apart.  Without operands its attribute stands in one line only, behind
    the kind of edit. -/
structure Modification.Lined (m : Modification) : Prop where
  trimmed : trim m.key = m.key
  no_lineEnd : '\n' ∉ m.key.toList
  no_colon : m.operands.values.isEmpty = false → ':' ∉ m.key.toList

/-- A change whose lines stay apart. -/
def Change.Lined : Change → Prop
  | .add e => e.dn.Legible ∧ ∀ s ∈ e.attributes.sets, Ldif.LineName s.key
  | .delete dn => dn.Legible
  | .modify dn edits => dn.Legible ∧ ∀ m ∈ edits, m.Lined

/-- The edit with the operands whose lines are no comments. -/
def Modification.unmarked (m : Modification) : Modification :=
  if Ldif.isMarked m.key then ⟨m.kind, m.key, .empty⟩ else m

/-- The change with the values whose lines are no comments. -/
def Change.unmarked : Change → Change
  | .add e => .add e.unmarked
  | .delete dn => .delete dn
  | .modify dn edits => .modify dn (edits.map Modification.unmarked)

theorem Modification.unmarked_eq_iff {m : Modification} : m.unmarked = m ↔
    (m.operands.values.isEmpty = false → Ldif.isMarked m.key = false) := by
  rw [unmarked]
  cases hmark : Ldif.isMarked m.key with
  | false => simp
  | true =>
      rw [if_pos rfl]
      constructor
      · intro h hvalues
        rw [← h] at hvalues
        cases hvalues
      · intro h
        obtain ⟨kind, key, values⟩ := m
        cases hvalues : values.isEmpty with
        | true =>
            obtain rfl := ValueSet.isEmpty_iff_eq.mp hvalues
            rfl
        | false => exact absurd (h hvalues).symm Bool.false_ne_true

/-- A change that its record tells, all of it. -/
structure Change.Told (c : Change) : Prop where
  lined : c.Lined
  unmarked_eq : c.unmarked = c
  isBare_eq_false : c.isBare = false

theorem Change.Recordable.lined {c : Change} (h : c.Recordable) : c.Lined := by
  cases c with
  | add e => exact ⟨h.1, fun s hs => (h.2.1 s hs).lineName⟩
  | delete dn => exact h
  | modify dn edits =>
      refine ⟨h.1, fun m hm => ?_⟩
      have hkey := h.2 m hm
      exact ⟨hkey.trimmed, hkey.no_lineEnd, fun _ => hkey.no_colon⟩

theorem Change.Recordable.unmarked_eq {c : Change} (h : c.Recordable) : c.unmarked = c := by
  cases c with
  | add e =>
      rw [unmarked, Entry.unmarked_eq_iff.mpr fun s hs => (h.2.1 s hs).isMarked_eq_false]
  | delete dn => rfl
  | modify dn edits =>
      have hmap : edits.map Modification.unmarked = edits.map id := by
        refine List.map_congr_left fun m hm => ?_
        exact Modification.unmarked_eq_iff.mpr fun _ => (h.2 m hm).isMarked_eq_false
      rw [unmarked, hmap, List.map_id]

theorem Change.Recordable.isBare_eq_false {c : Change} (h : c.Recordable) : c.isBare = false := by
  cases c with
  | add e => exact h.2.2
  | delete dn => rfl
  | modify dn edits => rfl

theorem Change.Recordable.told {c : Change} (h : c.Recordable) : c.Told :=
  ⟨h.lined, h.unmarked_eq, h.isBare_eq_false⟩

namespace Ldif

variable {mode : Mode} {p : Progress} {state : RecordState} {records : List Record}
variable {isStarted : Bool} {dn : Dn} {edits : List Modification} {m : Modification}
variable {bytes : Bytes} {name text : String}

/-! ## Lines -/

theorem getLast?_text (htrim : trim text = text) :
    (0x20 :: utf8 text).getLast? ≠ some 0x0D := by
  rw [List.getLast?_cons]
  intro hlast
  cases htext : (utf8 text).getLast? with
  | none =>
      rw [htext] at hlast
      cases hlast
  | some b =>
      rw [htext] at hlast
      cases hlast
      have hreturn := Utf8.getLast?_encode htext (by decide)
      exact absurd ((not_blank_ends htrim).2 _ hreturn) (by decide)

/-- Only the space in front of a trimmed text is not part of the value. -/
theorem readValue_text (htrim : trim text = text) :
    readValue (0x20 :: utf8 text) = .ok (utf8 text) := by
  have htext : (utf8 text).dropWhile (· = 0x20) = utf8 text := by
    cases hbytes : utf8 text with
    | nil => rfl
    | cons b bs =>
        refine List.dropWhile_cons_of_neg fun hb => ?_
        have hspace : (Utf8.encode text.toList).head? = some 0x20 := by
          rw [← utf8, hbytes, List.head?_cons, of_decide_eq_true hb]
        exact head_ne_space htrim (Utf8.head?_encode hspace (by decide))
  rw [readValue]
  · rw [List.dropWhile_cons_of_pos (by decide), htext]
  · simp
  · simp

/-- A line whose value is a text as it stands. -/
theorem takes_textLine (h : SafeKey name) (hend : '\n' ∉ text.toList) (htrim : trim text = text)
    (haccept : ∀ bytes, 0x3A ∈ bytes → splitLine bytes = .ok (name, utf8 text) →
      p.state.accept mode (!p.isStarted) bytes = .ok state) :
    Takes mode (Utf8.encode (name.toList ++ [':', ' '] ++ text.toList ++ ['\n'])) p
      ⟨state, true, p.records⟩ := by
  have hbytes : Utf8.encode (name.toList ++ [':', ' '] ++ text.toList ++ ['\n']) =
      utf8 name ++ 0x3A :: 0x20 :: utf8 text ++ [0x0A] := by
    rw [Utf8.encode_append, Utf8.encode_append, Utf8.encode_append,
      List.append_assoc (Utf8.encode name.toList)]
    rfl
  have hsplit := splitLine_eq h (readValue_text htrim)
  have hcolon : 0x3A ∈ utf8 name ++ 0x3A :: 0x20 :: utf8 text :=
    List.mem_append_right _ List.mem_cons_self
  have hline : 0x0A ∉ 0x20 :: utf8 text := by
    rw [List.mem_cons, not_or]
    exact ⟨by decide, fun hb => hend (Utf8.mem_of_mem_encode hb (by decide))⟩
  rw [hbytes]
  exact takes_nameLine h hline (getLast?_text htrim) (haccept _ hcolon hsplit)

theorem isDash_eq_false (h : 0x3A ∈ bytes) : isDash bytes = false := by
  rw [isDash, beq_eq_false_iff_ne]
  intro hdash
  have hmem : 0x3A ∈ bytes.reverse := List.mem_reverse.mpr h
  rw [← List.takeWhile_append_dropWhile (p := (· = 0x20)) (l := bytes.reverse), hdash,
    List.mem_append] at hmem
  rcases hmem with hspace | hmark
  · exact absurd (List.all_eq_true.mp List.all_takeWhile _ hspace) (by decide)
  · exact absurd hmark (by decide)

/-! ## Edits -/

theorem safeKey_editWord (kind : EditKind) : SafeKey (editWord kind) := by
  cases kind <;> decide

theorem editKind?_editWord (kind : EditKind) : editKind? (editWord kind) = some kind := by
  cases kind <;> decide

/-- A line with the kind and the attribute of an edit opens it. -/
theorem accept_editHead {isFirst : Bool} (htrim : trim m.key = m.key) (hcolon : 0x3A ∈ bytes)
    (hsplit : splitLine bytes = .ok (editWord m.kind, utf8 m.key)) :
    RecordState.accept mode isFirst bytes (.modifying dn edits none) =
      .ok (.modifying dn edits (some ⟨m.kind, m.key, .empty⟩)) := by
  simp only [RecordState.accept, isDash_eq_false hcolon, Bool.false_eq_true, if_false, hsplit,
    bind, Except.bind, RecordState.acceptEdit, editKind?_editWord, looseText,
    Utf8.decodeLossy_utf8, htrim]

/-- The line that opens an edit. -/
theorem takes_editHead (hend : '\n' ∉ m.key.toList) (htrim : trim m.key = m.key) :
    Takes mode (Utf8.encode ((editWord m.kind).toList ++ [':', ' '] ++ m.key.toList ++ ['\n']))
      ⟨.modifying dn edits none, true, records⟩
      ⟨.modifying dn edits (some ⟨m.kind, m.key, .empty⟩), true, records⟩ :=
  takes_textLine (safeKey_editWord m.kind) hend htrim
    fun _ hcolon hsplit => accept_editHead htrim hcolon hsplit

/-- Lines for the operands of an edit give all of them, if each line gives its value. -/
theorem takes_operandLines {line : Value → List Char}
    (hline : ∀ value values, Takes mode (Utf8.encode (line value))
      ⟨.modifying dn edits (some ⟨m.kind, m.key, values⟩), true, records⟩
      ⟨.modifying dn edits (some ⟨m.kind, m.key, values.insert value⟩), true, records⟩) :
    Takes mode (Utf8.encode (m.operands.values.toList.flatMap line))
      ⟨.modifying dn edits (some ⟨m.kind, m.key, .empty⟩), true, records⟩
      ⟨.modifying dn edits (some m), true, records⟩ := by
  have h : Takes mode (Utf8.encode (m.operands.values.toList.flatMap line))
      ⟨.modifying dn edits (some ⟨m.kind, m.key, .empty⟩), true, records⟩
      ⟨.modifying dn edits
          (some ⟨m.kind, m.key, ValueSet.empty.insertAll m.operands.values.toList⟩),
        true, records⟩ := by
    refine takes_flatMap (g := ValueSet.insert)
      (fun values => ⟨.modifying dn edits (some ⟨m.kind, m.key, values⟩), true, records⟩) ?_ .empty
    exact fun value _ values => hline value values
  rwa [ValueSet.empty_insertAll] at h

/-- A line that repeats the attribute of an edit gives it an operand. -/
theorem accept_operand {values : ValueSet} {value : Value} (hcolon : 0x3A ∈ bytes)
    (hsplit : splitLine bytes = .ok (m.key, value)) :
    RecordState.accept mode false bytes (.modifying dn edits (some ⟨m.kind, m.key, values⟩)) =
      .ok (.modifying dn edits (some ⟨m.kind, m.key, values.insert value⟩)) := by
  simp only [RecordState.accept, isDash_eq_false hcolon, Bool.false_eq_true, if_false, hsplit,
    bind, Except.bind, RecordState.acceptOperand]
  exact if_pos rfl

/-- The lines of the operands of an edit. -/
theorem takes_operands (hkey : SafeKey m.key) :
    Takes mode (Utf8.encode (setLines m.operands))
      ⟨.modifying dn edits (some ⟨m.kind, m.key, .empty⟩), true, records⟩
      ⟨.modifying dn edits (some m), true, records⟩ := by
  refine takes_operandLines fun value values => takes_written hkey value ?_
  obtain ⟨rest, hrest, -⟩ := valueBytes_eq_cons value
  have hcolon : 0x3A ∈ utf8 m.key ++ valueBytes value := by
    rw [hrest]
    exact List.mem_append_right _ List.mem_cons_self
  exact accept_operand hcolon (splitLine_written hkey value)

/-- The lines of the operands of an edit give the operands that are not marked. -/
theorem takes_unmarkedOperands (h : m.Lined) :
    Takes mode (Utf8.encode (setLines m.operands))
      ⟨.modifying dn edits (some ⟨m.kind, m.key, .empty⟩), true, records⟩
      ⟨.modifying dn edits (some m.unmarked), true, records⟩ := by
  rw [Modification.unmarked]
  cases hmark : isMarked m.key with
  | true => exact takes_setLines_marked hmark h.no_lineEnd
  | false =>
      cases hvalues : m.operands.values.isEmpty with
      | true =>
          -- Nothing is written, and the attribute may be one that no line can start with.
          obtain ⟨kind, key, values⟩ := m
          obtain rfl := ValueSet.isEmpty_iff_eq.mp hvalues
          exact Takes.nil
      | false =>
          have hname : LineName m.key := ⟨h.no_colon hvalues, h.no_lineEnd, h.trimmed⟩
          exact takes_operands (hname.safeKey hmark)

/-- The line that ends an edit. -/
theorem takes_dash : Takes mode [0x2D, 0x0A] ⟨.modifying dn edits (some m), true, records⟩
    ⟨.modifying dn (edits ++ [m]) none, true, records⟩ := by
  have hline : RecordState.accept mode false [0x2D] (.modifying dn edits (some m)) =
      .ok (.modifying dn (edits ++ [m]) none) := rfl
  rw [← List.singleton_append]
  exact takes_line (by decide) (by decide) (by decide) (by decide) (by decide) hline

theorem takes_editChars (h : m.Lined) :
    Takes mode (Utf8.encode (editChars m)) ⟨.modifying dn edits none, true, records⟩
      ⟨.modifying dn (edits ++ [m.unmarked]) none, true, records⟩ := by
  rw [editChars, Utf8.encode_append, Utf8.encode_append]
  exact ((takes_editHead h.no_lineEnd h.trimmed).append (takes_unmarkedOperands h)).append
    takes_dash

theorem takes_edits (h : ∀ m ∈ edits, m.Lined) :
    Takes mode (Utf8.encode (edits.flatMap editChars)) ⟨.modifying dn [] none, true, records⟩
      ⟨.modifying dn (edits.map Modification.unmarked) none, true, records⟩ :=
  takes_each (fun done => ⟨.modifying dn done none, true, records⟩)
    fun m hm _ => takes_editChars (h m hm)

/-! ## Records and documents -/

theorem safeKey_changetype : SafeKey "changetype" :=
  by decide

/-- The lines that open a change record tell the name and the kind of change. -/
theorem takes_changeHead (hdn : dn.Legible) (hend : '\n' ∉ text.toList)
    (htrim : trim text = text)
    (htype : RecordState.acceptType dn "changetype" (utf8 text) = .ok state) :
    Takes .changes (Utf8.encode (changeHead dn text)) ⟨.idle, isStarted, records⟩
      ⟨state, true, records⟩ := by
  rw [changeHead, List.append_assoc, List.append_assoc, Utf8.encode_append]
  refine (takes_dnLine hdn).append ?_
  refine takes_textLine safeKey_changetype hend htrim fun bytes _ hsplit => ?_
  simp only [opened, RecordState.accept, hsplit, bind, Except.bind, htype]

theorem acceptType_word {word : String} (hword : trim word = word) :
    RecordState.acceptType dn "changetype" (utf8 word) =
      if sameIgnoringCase word "add" then .ok (.adding dn .empty)
      else if sameIgnoringCase word "delete" then .ok (.deleting dn)
      else if sameIgnoringCase word "modify" then .ok (.modifying dn [] none)
      else .error (.unknownChangetype word) := by
  rw [RecordState.acceptType, looseText, Utf8.decodeLossy_utf8, hword]
  rfl

/-- The state at the blank line that ends the record of a change. -/
def atEnd : Change → RecordState
  | .add e => .adding e.dn e.attributes
  | .delete dn => .deleting dn
  | .modify dn edits => .modifying dn edits none

/-- The lines of a record, up to its blank line, give what is not marked. -/
theorem takes_changeLines {c : Change} (h : c.Lined) : ∃ lines,
    Utf8.encode (changeChars c) = lines ++ [0x0A] ∧
      Takes .changes lines ⟨.idle, isStarted, records⟩ ⟨atEnd c.unmarked, true, records⟩ := by
  cases c with
  | add e =>
      refine ⟨_, Utf8.encode_append _ _, ?_⟩
      rw [Utf8.encode_append]
      exact (takes_changeHead h.1 (by decide) (by decide) (acceptType_word (by decide))).append
        (takes_unmarkedLines (gathers_adding e.dn) h.2)
  | delete dn =>
      refine ⟨_, Utf8.encode_append _ _, ?_⟩
      exact takes_changeHead h (by decide) (by decide) (acceptType_word (by decide))
  | modify dn edits =>
      refine ⟨_, Utf8.encode_append _ _, ?_⟩
      rw [Utf8.encode_append]
      exact (takes_changeHead h.1 (by decide) (by decide) (acceptType_word (by decide))).append
        (takes_edits h.2)

/-- The blank line completes a change, unless it adds an entry without attributes. -/
theorem complete_atEnd (c : Change) : (atEnd c).complete =
    if c.isBare then .error .emptyAddition else .ok (some (.change c)) := by
  cases c <;> rfl

theorem takes_changeRecord {c : Change} (h : c.Told) :
    Takes .changes (Utf8.encode (changeChars c)) ⟨.idle, isStarted, records⟩
      ⟨.idle, true, records ++ [.change c]⟩ := by
  obtain ⟨lines, hlines, htake⟩ := takes_changeLines h.lined
  rw [h.unmarked_eq] at htake
  rw [hlines]
  refine htake.append (takes_endRecord ?_)
  rw [complete_atEnd, h.isBare_eq_false]
  rfl

theorem takes_changeChars {c : Change} (h : c.Recordable) :
    Takes .changes (Utf8.encode (changeChars c)) ⟨.idle, isStarted, records⟩
      ⟨.idle, true, records ++ [.change c]⟩ :=
  takes_changeRecord h.told

/-- A document of changes that are told. -/
theorem takes_changes {changes : List Change} (h : ∀ c ∈ changes, c.Told) :
    Takes .changes (Utf8.encode (header ++ changes.flatMap changeChars)) ⟨.idle, false, []⟩
      ⟨.idle, true, changes.map .change⟩ :=
  takes_document fun c hc _ => takes_changeRecord (h c hc)

theorem filterMap_change (changes : List Change) :
    (changes.map Record.change).filterMap Record.change? = changes := by
  rw [List.filterMap_map]
  exact List.filterMap_some

/-- Changes that are told come back from their document. -/
theorem parseChanges_told {changes : List Change} (h : ∀ c ∈ changes, c.Told) :
    parseChanges (writeChanges changes) = .ok changes := by
  have hread : read .changes (utf8 (writeChanges changes)) = .ok (changes.map .change) := by
    rw [utf8, writeChanges, String.toList_ofList]
    exact read_of_takes (takes_changes h)
  simp only [parseChanges, hread, bind, Except.bind, pure, Except.pure, filterMap_change]

/-- Changes come back from their document in order, with their edits in order and the spelling
    of their names and attribute types. -/
theorem parseChanges_writeChanges (changes : List Change) (h : ∀ c ∈ changes, c.Recordable) :
    parseChanges (writeChanges changes) = .ok changes := by
  have hread : read .changes (utf8 (writeChanges changes)) = .ok (changes.map .change) := by
    rw [utf8, writeChanges, String.toList_ofList]
    exact read_document fun c hc _ => takes_changeChars (h c hc)
  simp only [parseChanges, hread, bind, Except.bind, pure, Except.pure, filterMap_change]

/-- Values of any bytes, the empty attribute type, edits without operands and no edits at all. -/
theorem parseChanges_writeChanges_bytes :
    let changes : List Change :=
      [.add ⟨⟨[.single "cn" " #a,b+c=\"d "]⟩, .ofPairs [("-", [[], [0x20, 0xFF, 0x0D]])]⟩,
        .delete .empty,
        .modify ⟨[.single "x-y;z" ""]⟩ [⟨.add, .ofList "" [[0x3A], [0x0A, 0x00]]⟩,
          ⟨.delete, .ofList "Mail" []⟩, ⟨.delete, .ofList "mail" []⟩,
          ⟨.replace, .ofList "dn" [[0x3C, 0x41]]⟩],
        .modify .empty []]
    parseChanges (writeChanges changes) = .ok changes :=
  parseChanges_writeChanges _ (by decide)

end Ldif
end DirectoryStore
