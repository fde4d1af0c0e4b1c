import DirectoryStore.Proofs.Ldif.Guarded

/-!
# Documents that are read and written again

What is read from a document and written again is read from the new document as well, but for
two things that lines do not protect.  An attribute type that starts with `#`, which a line with
a blank in front of it gives, is written at the start of a line, and its lines are comments.
And the attribute of an edit, which base64 may give with line ends in it, is written as it
stands, so that one edit becomes several lines of other meaning.

What is read beyond an edit stays behind it, whatever it is.  So what the first line of such an
attribute opens can never become the edit that was written.
-/

namespace DirectoryStore

/-- Attributes whose lines are no comments. -/
def Entry.Stable (e : Entry) : Prop :=
  ∀ s ∈ e.attributes.sets, Ldif.isMarked s.key = false

/-- An edit whose attribute is written in one line, and whose operands are no comments. -/
structure Modification.Stable (m : Modification) : Prop where
  no_lineEnd : '\n' ∉ m.key.toList
  unmarked : m.operands.values.isEmpty = false → Ldif.isMarked m.key = false

/-- A change whose record tells it. -/
def Change.Stable : Change → Prop
  | .add e => e.Stable
  | .delete _ => True
  | .modify _ edits => ∀ m ∈ edits, m.Stable

/-- The edits of a change. -/
def Change.edits : Change → List Modification
  | .modify _ edits => edits
  | _ => []

theorem Modification.Readable.lined {m : Modification} (h : m.Readable)
    (hline : '\n' ∉ m.key.toList) : m.Lined :=
  ⟨h.trimmed, hline, fun hvalues => (h.lineName hvalues).no_colon⟩

theorem Change.Readable.lined {c : Change} (h : c.Readable)
    (hedits : ∀ m ∈ c.edits, '\n' ∉ m.key.toList) : c.Lined := by
  cases c with
  | add e => exact ⟨h.1.legible, h.1.lineNames⟩
  | delete dn => exact h
  | modify dn edits => exact ⟨h.1, fun m hm => (h.2 m hm).lined (hedits m hm)⟩

theorem Change.Readable.isBare_eq_false {c : Change} (h : c.Readable) : c.isBare = false := by
  cases c with
  | add e => exact h.2
  | delete dn => rfl
  | modify dn edits => rfl

theorem Change.Stable.no_lineEnd {c : Change} (h : c.Stable) :
    ∀ m ∈ c.edits, '\n' ∉ m.key.toList := by
  cases c with
  | add e => nofun
  | delete dn => nofun
  | modify dn edits => exact fun m hm => (h m hm).no_lineEnd

/-- Among changes whose lines stay apart the stable ones are those that lose nothing. -/
theorem Change.unmarked_eq_iff {c : Change} (hedits : ∀ m ∈ c.edits, '\n' ∉ m.key.toList) :
    c.unmarked = c ↔ c.Stable := by
  cases c with
  | add e => rw [unmarked, add.injEq, Entry.unmarked_eq_iff, Stable, Entry.Stable]
  | delete dn => exact iff_of_true rfl trivial
  | modify dn edits =>
      rw [unmarked, modify.injEq, and_iff_right rfl, Stable]
      constructor
      · intro h m hm
        have hmap : edits.map Modification.unmarked = edits.map id := h.trans edits.map_id.symm
        exact ⟨hedits m hm, Modification.unmarked_eq_iff.mp (List.map_inj_left.mp hmap m hm)⟩
      · intro h
        have hmap : edits.map Modification.unmarked = edits.map id :=
          List.map_inj_left.mpr fun m hm => Modification.unmarked_eq_iff.mpr (h m hm).unmarked
        exact hmap.trans edits.map_id

theorem Change.Readable.told {c : Change} (h : c.Readable) (hstable : c.Stable) : c.Told :=
  ⟨h.lined hstable.no_lineEnd, (unmarked_eq_iff hstable.no_lineEnd).mpr hstable,
    h.isBare_eq_false⟩

/-- What holds of an element if it holds of all before it holds of all. -/
theorem forall_mem_of_first {α : Type} {p : α → Prop} {l : List α}
    (h : ∀ before x after, l = before ++ x :: after → (∀ y ∈ before, p y) → p x) :
    ∀ x ∈ l, p x := by
  induction l using List.reverseRecOn with
  | nil => nofun
  | append_singleton l x ih =>
      have hl : ∀ y ∈ l, p y := by
        refine ih fun before y after hy hbefore => ?_
        exact h before y (after ++ [x]) (by rw [hy, List.append_assoc, List.cons_append]) hbefore
      exact List.forall_mem_append.mpr ⟨hl, List.forall_mem_singleton.mpr (h l x [] rfl hl)⟩

namespace Ldif

variable {mode : Mode} {text : String} {bytes rest : Bytes} {state state' : RecordState}
variable {records all : List Record} {isStarted isFirst : Bool} {dn : Dn} {n k : Nat}
variable {m : Modification} {changes before after : List Change}

/-! ## Entries -/

/-- Entries that can be read come back from their document with the attributes that are not
    marked. -/
theorem parseEntries_unmarked {entries : List Entry} (h : ∀ e ∈ entries, e.Readable) :
    parseEntries (writeEntries entries) = .ok (entries.map Entry.unmarked) := by
  have hread : read .content (utf8 (writeEntries entries)) =
      .ok (entries.map fun e => .entry e.unmarked) := by
    rw [utf8, writeEntries, String.toList_ofList]
    exact read_document fun e he _ => takes_unmarkedChars (h e he).legible (h e he).lineNames
  have hmap : entries.map (fun e => Record.entry e.unmarked) =
      (entries.map Entry.unmarked).map .entry := List.map_map.symm
  simp only [parseEntries, hread, bind, Except.bind, pure, Except.pure, hmap, filterMap_entry]

theorem map_unmarked_eq_iff {entries : List Entry} :
    entries.map Entry.unmarked = entries ↔ ∀ e ∈ entries, e.Stable := by
  constructor
  · intro hmap e he
    have he' := List.map_inj_left.mp (hmap.trans entries.map_id.symm) e he
    exact Entry.unmarked_eq_iff.mp he'
  · intro hstable
    have hmap : entries.map Entry.unmarked = entries.map id :=
      List.map_inj_left.mpr fun e he => Entry.unmarked_eq_iff.mpr (hstable e he)
    exact hmap.trans entries.map_id

/-- Entries that were read come back from their document with the attributes that are not marked,
    and so all of them come back just if no attribute is marked. -/
theorem parseEntries_rewritten {text : String} {entries : List Entry}
    (h : parseEntries text = .ok entries) :
    parseEntries (writeEntries entries) = .ok (entries.map Entry.unmarked) ∧
      (parseEntries (writeEntries entries) = .ok entries ↔ ∀ e ∈ entries, e.Stable) := by
  have hunmarked := parseEntries_unmarked (readable_of_parseEntries h)
  refine ⟨hunmarked, ?_⟩
  rw [hunmarked, Except.ok.injEq]
  exact map_unmarked_eq_iff

/-- An entry with a marked attribute, and one without. -/
theorem parseEntries_rewritten_tab :
    let entries : List Entry :=
      [⟨⟨[.single "cn" "a", .single "dc" "x"]⟩, .ofPairs [("#foo", [[0x78]]), ("sn", [[0x79]])]⟩,
        ⟨.empty, .ofPairs [("a#", [[], [0xFF]])]⟩]
    parseEntries (guardedEntries entries) = .ok entries ∧
      parseEntries (writeEntries entries) = .ok (entries.map Entry.unmarked) ∧
        (parseEntries (writeEntries entries) = .ok entries ↔ ∀ e ∈ entries, e.Stable) := by
  intro entries
  have h : parseEntries (guardedEntries entries) = .ok entries :=
    parseEntries_guarded (by decide)
  exact ⟨h, parseEntries_rewritten h⟩

/-- The attribute behind the tab is read, written at the start of a line, and lost. -/
theorem parseEntries_tab_lost :
    let dn : Dn := ⟨[.single "cn" "a", .single "dc" "x"]⟩
    let entries : List Entry := [⟨dn, .ofPairs [("#foo", [[0x78]]), ("sn", [[0x79]])]⟩]
    parseEntries "version: 1\n\ndn: cn=a,dc=x\n\t#foo: x\nsn: y\n\n" = .ok entries ∧
      parseEntries (writeEntries entries) = .ok [⟨dn, .ofPairs [("sn", [[0x79]])]⟩] ∧
        parseEntries (writeEntries entries) ≠ .ok entries := by
  intro dn entries
  have htext : "version: 1\n\ndn: cn=a,dc=x\n\t#foo: x\nsn: y\n\n" = guardedEntries entries := by
    decide
  have hreadable : ∀ e ∈ entries, e.Readable := by decide
  have hlost : parseEntries (writeEntries entries) = .ok [⟨dn, .ofPairs [("sn", [[0x79]])]⟩] :=
    parseEntries_unmarked hreadable
  rw [htext, hlost]
  exact ⟨parseEntries_guarded hreadable, rfl, by decide⟩

/-! ## What stays behind -/

theorem lasting_before (before : List Record) :
    Lasting fun _ records _ => before <+: records where
  hold h := h
  extend h := h
  comment h _ := h
  accept h _ _ := h
  complete h _ := h.trans (List.prefix_append _ _)

/-- The edits that the record in a state has so far. -/
def RecordState.edits : RecordState → List Modification
  | .modifying _ edits open? => edits ++ open?.toList
  | _ => []

/-- The edits of the changes so far, and of the record that is read. -/
def told (state : RecordState) (records : List Record) : List (List Modification) :=
  (records.filterMap Record.change?).map Change.edits ++ [state.edits]

theorem RecordState.acceptOperand_edits {edits : List Modification} {e : Modification}
    {name : String} {value : Value}
    (h : RecordState.acceptOperand dn edits e name value = .ok state')
    (hm : (RecordState.modifying dn edits (some e)).edits[k]? = some m) :
    ∃ m', state'.edits[k]? = some m' ∧ m'.key = m.key := by
  rw [acceptOperand] at h
  split at h
  · cases h
    rw [RecordState.edits, Option.toList_some] at hm ⊢
    by_cases hk : k < edits.length
    · rw [List.getElem?_append_left hk] at hm ⊢
      exact ⟨m, hm, rfl⟩
    · rw [List.getElem?_append_right (Nat.le_of_not_lt hk), List.getElem?_singleton] at hm ⊢
      split at hm
      · rename_i hlast
        cases hm
        exact ⟨_, if_pos hlast, rfl⟩
      · cases hm
  · cases h

/-- An edit may get more operands, but it stays what it is about. -/
theorem RecordState.accept_edits (h : state.accept mode isFirst bytes = .ok state')
    (hm : state.edits[k]? = some m) : ∃ m', state'.edits[k]? = some m' ∧ m'.key = m.key := by
  cases state with
  | modifying dn edits open? =>
      cases open? with
      | none =>
          rw [RecordState.edits, Option.toList_none, List.append_nil] at hm
          rw [accept] at h
          split at h
          · cases h
          · obtain ⟨⟨name, value⟩, -, hedit⟩ := bind_eq_ok h
            have hedit' : acceptEdit dn edits name value = .ok state' := hedit
            rw [acceptEdit] at hedit'
            split at hedit'
            · cases hedit'
            · cases hedit'
              refine ⟨m, ?_, rfl⟩
              rw [RecordState.edits, List.getElem?_append_left (List.getElem?_eq_some_iff.mp hm).1,
                hm]
      | some e =>
          rw [accept] at h
          split at h
          · cases h
            refine ⟨m, ?_, rfl⟩
            rw [RecordState.edits, Option.toList_none, List.append_nil]
            exact hm
          · obtain ⟨⟨name, value⟩, -, hoperand⟩ := bind_eq_ok h
            exact acceptOperand_edits hoperand hm
  | _ => cases hm

theorem told_complete (records : List Record) {record : Option Record}
    (h : state.complete = .ok record) :
    told state records <+: told .idle (records ++ record.toList) := by
  rw [told, told, List.filterMap_append, List.map_append, List.append_assoc,
    List.prefix_append_right_inj]
  cases state with
  | idle =>
      cases h
      exact List.prefix_refl _
  | content dn attrs =>
      cases h
      exact List.prefix_refl _
  | untyped dn => cases h
  | adding dn attrs =>
      rw [RecordState.complete] at h
      split at h
      · cases h
      · cases h
        exact List.prefix_append [[]] [[]]
  | deleting dn =>
      cases h
      exact List.prefix_append [[]] [[]]
  | modifying dn edits open? =>
      cases open? with
      | some m => cases h
      | none =>
          cases h
          rw [RecordState.edits, Option.toList_none, List.append_nil]
          exact List.prefix_append [edits] [[]]

/-- The edit `k` of the change `n` is about an attribute without line ends. -/
def TellsLine (n k : Nat) (state : RecordState) (records : List Record) : Prop :=
  ∃ edits m, (told state records)[n]? = some edits ∧ edits[k]? = some m ∧ '\n' ∉ m.key.toList

theorem TellsLine.accept (h : TellsLine n k state records)
    (haccept : state.accept mode isFirst bytes = .ok state') : TellsLine n k state' records := by
  obtain ⟨edits, m, hedits, hm, hline⟩ := h
  rw [told] at hedits
  by_cases hn : n < ((records.filterMap Record.change?).map Change.edits).length
  · rw [List.getElem?_append_left hn] at hedits
    refine ⟨edits, m, ?_, hm, hline⟩
    rw [told, List.getElem?_append_left hn, hedits]
  · rw [List.getElem?_append_right (Nat.le_of_not_lt hn), List.getElem?_singleton] at hedits
    split at hedits
    · rename_i hlast
      cases hedits
      obtain ⟨m', hm', hkey⟩ := RecordState.accept_edits haccept hm
      refine ⟨state'.edits, m', ?_, hm', hkey ▸ hline⟩
      rw [told, List.getElem?_append_right (Nat.le_of_not_lt hn), hlast]
      rfl
    · cases hedits

theorem TellsLine.complete {record : Option Record} (h : TellsLine n k state records)
    (hcomplete : state.complete = .ok record) :
    TellsLine n k .idle (records ++ record.toList) := by
  obtain ⟨edits, m, hedits, hm, hline⟩ := h
  obtain ⟨more, hmore⟩ := told_complete records hcomplete
  refine ⟨edits, m, ?_, hm, hline⟩
  rw [← hmore, List.getElem?_append_left (List.getElem?_eq_some_iff.mp hedits).1, hedits]

/-! ## The line that opens an edit -/

/-- How the line that opens an edit of a kind starts. -/
def heading (kind : EditKind) : Bytes :=
  utf8 (editWord kind) ++ [0x3A, 0x20]

theorem accept_heading {kind : EditKind} {edits : List Modification} (hline : 0x0A ∉ bytes)
    (hhead : heading kind <+: bytes)
    (h : RecordState.accept mode isFirst bytes (.modifying dn edits none) = .ok state') :
    ∃ m, state' = .modifying dn edits (some m) ∧ '\n' ∉ m.key.toList := by
  obtain ⟨value, rfl⟩ := hhead
  rw [heading, List.append_assoc] at h hline
  have hread : readValue (0x20 :: value) = .ok (value.dropWhile (· = 0x20)) := by
    rw [readValue]
    · rw [List.dropWhile_cons_of_pos (by decide)]
    · simp
    · simp
  have hcolon : 0x3A ∈ utf8 (editWord kind) ++ ([0x3A, 0x20] ++ value) :=
    List.mem_append_right _ List.mem_cons_self
  have hsplit := splitLine_eq (safeKey_editWord kind) hread
  rw [List.cons_append, List.singleton_append] at h hline hcolon
  simp only [RecordState.accept, isDash_eq_false hcolon, Bool.false_eq_true, if_false, hsplit,
    bind, Except.bind, RecordState.acceptEdit, editKind?_editWord] at h
  cases h
  refine ⟨_, rfl, not_mem_looseText (by decide) fun hmem => hline ?_⟩
  have hvalue := (List.dropWhile_suffix _).subset hmem
  exact List.mem_append_right _ (List.mem_cons_of_mem _ (List.mem_cons_of_mem _ hvalue))

/-- The edit `k` of the change `n` is there, or the line that opens it is held back. -/
def Opening (kind : EditKind) (n k : Nat) (state : RecordState) (records : List Record)
    (pending : Option Bytes) : Prop :=
  TellsLine n k state records ∨ (records.filterMap Record.change?).length = n ∧
    (∃ dn edits, state = .modifying dn edits none ∧ edits.length = k) ∧
      ∃ line, pending = some line ∧ heading kind <+: line

theorem lasting_opening (kind : EditKind) (n k : Nat) : Lasting (Opening kind n k) where
  hold h := by
    rcases h with h | ⟨-, -, line, hline, -⟩
    · exact .inl h
    · cases hline
  extend h := by
    rcases h with h | ⟨hn, hstate, line, hline, hhead⟩
    · exact .inl h
    · cases hline
      exact .inr ⟨hn, hstate, _, rfl, hhead.trans (List.prefix_append _ _)⟩
  comment h hmark := by
    rcases h with h | ⟨-, -, line, hline, value, hvalue⟩
    · exact .inl h
    · cases hline
      have hword : heading kind ≠ [] ∧ (heading kind).head? ≠ some 0x23 := by
        cases kind <;> decide
      rw [← hvalue, List.head?_append_of_ne_nil _ hword.1] at hmark
      exact absurd hmark hword.2
  accept h hline haccept := by
    rcases h with h | ⟨hn, ⟨dn, edits, rfl, hk⟩, line, hpending, hhead⟩
    · exact .inl (h.accept haccept)
    · cases hpending
      obtain ⟨m, rfl, hm⟩ := accept_heading hline hhead haccept
      refine .inl ⟨edits ++ [m], m, ?_, ?_, hm⟩
      · rw [told, List.getElem?_append_right (by rw [List.length_map, hn]), List.length_map, hn,
          Nat.sub_self]
        rfl
      · rw [← hk, List.getElem?_concat_length]
  complete h hcomplete := by
    rcases h with h | ⟨-, -, line, hline, -⟩
    · exact .inl (h.complete hcomplete)
    · cases hline

/-- The physical line that starts with the heading of an edit is held back. -/
theorem takeLines_heading {r : Reader} {p : Progress} {kind : EditKind} (hr : r.At mode p)
    (hend : 0x0A ∉ heading kind ++ rest) : ∃ r' line,
      r.takeLines (heading kind ++ rest ++ [0x0A]) = .ok r' ∧ r'.state = p.state ∧
        r'.records = p.records ∧ r'.pending = some line ∧ 0x0A ∉ line.bytes ∧
          heading kind <+: line.bytes := by
  -- A carriage return at the end is not part of the line.
  obtain ⟨rest', hrest', hreturn⟩ : ∃ rest', rest' ⊆ rest ∧
      Reader.withoutReturn (heading kind ++ rest) = heading kind ++ rest' := by
    rw [Reader.withoutReturn]
    split
    · rename_i hlast
      cases rest with
      | nil =>
          rw [List.append_nil] at hlast
          cases kind <;> exact absurd hlast (by decide)
      | cons b rest =>
          refine ⟨(b :: rest).dropLast, List.dropLast_subset _, ?_⟩
          exact List.dropLast_append_of_ne_nil (List.cons_ne_nil _ _)
    · exact ⟨rest, List.Subset.refl _, rfl⟩
  obtain ⟨b, word, hword, hb⟩ : ∃ b word, heading kind = b :: word ∧ b ≠ 0x20 := by
    cases kind <;> exact ⟨_, _, rfl, by decide⟩
  have hr' : ({ r with unended := [], lines := r.lines + 1 } : Reader).At mode p :=
    ⟨hr.mode, rfl, hr.records, hr.pending⟩
  have hline := @physicalLine_line mode _ (word ++ rest') _ _ hr' hb (r.lines + 1)
  rw [← List.cons_append, ← hword, ← hreturn] at hline
  rw [Reader.takeLines_line hend, Reader.endLine, hline]
  refine ⟨_, _, Reader.takeLines_unended List.not_mem_nil _, rfl, hr.records, rfl, ?_, ?_⟩
  · rw [hreturn]
    refine fun hmem => hend (List.append_subset.mpr ⟨List.subset_append_left _ _, ?_⟩ hmem)
    exact fun b hb => List.mem_append_right _ (hrest' hb)
  · rw [hreturn]
    exact List.prefix_append _ _

/-- At the end of a document the edit is one of its changes. -/
theorem Opening.edit {kind : EditKind} (h : Opening kind n k .idle records none) :
    ∃ c m, (records.filterMap Record.change?)[n]? = some c ∧ c.edits[k]? = some m ∧
      '\n' ∉ m.key.toList := by
  rcases h with ⟨edits, m, hedits, hm, hline⟩ | ⟨-, -, line, hpending, -⟩
  · rw [told] at hedits
    by_cases hn : n < ((records.filterMap Record.change?).map Change.edits).length
    · rw [List.getElem?_append_left hn, List.getElem?_map, Option.map_eq_some_iff] at hedits
      obtain ⟨c, hc, rfl⟩ := hedits
      exact ⟨c, m, hc, hm, hline⟩
    · rw [List.getElem?_append_right (Nat.le_of_not_lt hn), List.getElem?_singleton] at hedits
      split at hedits
      · cases hedits
        cases hm
      · cases hedits
  · cases hpending

/-- The document of changes up to an edit: the changes before, and the lines of the record in
    front of the edit. -/
def upToEdit (before : List Change) (dn : Dn) (edits : List Modification) : Bytes :=
  Utf8.encode (header ++ before.flatMap changeChars) ++
    (Utf8.encode (changeHead dn "modify") ++ Utf8.encode (edits.flatMap editChars))

theorem takes_upToEdit {edits : List Modification}
    (hbefore : ∀ c ∈ before, c.Told) (hdn : dn.Legible)
    (hedits : ∀ m ∈ edits, m.Lined) :
    Takes .changes (upToEdit before dn edits) ⟨.idle, false, []⟩
      ⟨.modifying dn (edits.map Modification.unmarked) none, true, before.map .change⟩ :=
  (takes_changes hbefore).append
    ((takes_changeHead hdn (by decide) (by decide) (acceptType_word (by decide))).append
      (takes_edits hedits))

/-- An edit whose attribute has a line end is written with the first line of the attribute behind
    its heading. -/
theorem writeChanges_eq_upToEdit (before after : List Change) (dn : Dn)
    (edits others : List Modification) {first more : List Char}
    (hkey : m.key.toList = first ++ '\n' :: more) :
    ∃ rest, utf8 (writeChanges (before ++ .modify dn (edits ++ m :: others) :: after)) =
      upToEdit before dn edits ++ (heading m.kind ++ Utf8.encode first ++ [0x0A]) ++ rest := by
  have hend : Utf8.encode ['\n'] = [0x0A] := rfl
  have hcolon : Utf8.encode [':', ' '] = [0x3A, 0x20] := rfl
  refine ⟨Utf8.encode (more ++ '\n' :: (setLines m.operands ++ ['-', '\n'] ++
    others.flatMap editChars ++ '\n' :: after.flatMap changeChars)), ?_⟩
  rw [utf8, writeChanges, String.toList_ofList, upToEdit, heading, utf8, ← hend, ← hcolon]
  simp only [← Utf8.encode_append]
  congr 1
  simp [changeChars, editChars, hkey]

/-- An edit whose attribute has a line end is not what is read in its place. -/
theorem edit_of_rewritten {edits others : List Modification}
    (hbefore : ∀ c ∈ before, c.Told) (hdn : dn.Legible)
    (hedits : ∀ m ∈ edits, m.Lined) (hline : '\n' ∈ m.key.toList)
    (h : parseChanges (writeChanges (before ++ .modify dn (edits ++ m :: others) :: after)) =
      .ok changes) : ∃ c m', changes[before.length]? = some c ∧
        c.edits[edits.length]? = some m' ∧ '\n' ∉ m'.key.toList := by
  obtain ⟨first, more, hkey, hfirst⟩ := List.eq_append_cons_of_mem hline
  obtain ⟨records, hread, hchanges⟩ := bind_eq_ok h
  cases hchanges
  obtain ⟨rest, hrest⟩ := writeChanges_eq_upToEdit before after dn edits others hkey
  rw [hrest] at hread
  obtain ⟨r₁, htake₁, hr₁⟩ := takes_upToEdit hbefore hdn hedits (Reader.start .changes)
    (Reader.start_at _)
  have hheading : 0x0A ∉ heading m.kind ++ Utf8.encode first := by
    rw [List.mem_append, not_or]
    refine ⟨?_, fun hmem => hfirst (Utf8.mem_of_mem_encode hmem (by decide))⟩
    cases m.kind <;> decide
  obtain ⟨r₂, line, htake₂, hstate, hrecords, hpending, hclean, hhead⟩ :=
    takeLines_heading hr₁ hheading
  have htake := Reader.takeLines_append (Reader.start .changes) (upToEdit before dn edits)
    (heading m.kind ++ Utf8.encode first ++ [0x0A])
  rw [htake₁] at htake
  simp only [bind, Except.bind, hr₁.unended, List.nil_append] at htake
  have hopening : r₂.Bears (Opening m.kind before.length edits.length) := by
    refine ⟨.inr ⟨?_, ⟨dn, _, hstate, List.length_map _⟩, line.bytes, ?_, hhead⟩, ?_⟩
    · rw [hrecords, filterMap_change]
    · rw [hpending]
      rfl
    · intro line' hline'
      rw [hpending] at hline'
      cases hline'
      exact hclean
  exact ((lasting_opening _ _ _).read_append (htake.trans htake₂) hopening hread).edit

/-! ## Changes -/

/-- A blank line that is taken completes the record before it. -/
theorem complete_of_blank {r r' : Reader} (hr : r.At mode ⟨state, isStarted, records⟩)
    (h : r.takeLines [0x0A] = .ok r') :
    ∃ record, state.complete = .ok record ∧ r'.records = records ++ record.toList ∧
      r'.pending = none := by
  have hr' : ({ r with unended := [], lines := r.lines + 1 } : Reader).At mode
      ⟨state, isStarted, records⟩ := ⟨hr.mode, rfl, hr.records, hr.pending⟩
  have hflush : r.endLine [] = Reader.endRecord { r with
      unended := [], lines := r.lines + 1, pending := none, isStarted, state } (r.lines + 1) := by
    change Reader.physicalLine { r with unended := [], lines := r.lines + 1 } _ [] = _
    rw [Reader.physicalLine, hr'.flush_eq]
    rfl
  rw [← List.nil_append [0x0A], Reader.takeLines_line List.not_mem_nil] at h
  obtain ⟨r₀, hend, hkept⟩ := bind_eq_ok h
  rw [Reader.takeLines_unended List.not_mem_nil] at hkept
  cases hkept
  rw [hflush, Reader.endRecord] at hend
  split at hend
  · cases hend
  · rename_i record hcomplete
    cases hend
    exact ⟨record, hcomplete, congrArg (· ++ record.toList) hr.records, rfl⟩

/-- A document that goes on behind a blank line has completed the record before it. -/
theorem complete_of_read
    (htake : Takes mode bytes ⟨.idle, false, []⟩ ⟨state, isStarted, records⟩)
    (h : read mode (bytes ++ [0x0A] ++ rest) = .ok all) :
    ∃ record, state.complete = .ok record ∧ records ++ record.toList <+: all := by
  obtain ⟨r, hstart, hr⟩ := htake (Reader.start mode) (Reader.start_at mode)
  have hlines := h
  rw [read_eq, Reader.takeLines_append] at hlines
  obtain ⟨r₂, hlines, -⟩ := bind_eq_ok hlines
  obtain ⟨r₁, hread, -⟩ := bind_eq_ok hlines
  have hblank := hread
  rw [Reader.takeLines_append, hstart] at hblank
  simp only [bind, Except.bind, hr.unended, List.nil_append] at hblank
  obtain ⟨record, hcomplete, hrecords, hpending⟩ := complete_of_blank hr hblank
  refine ⟨record, hcomplete, (lasting_before _).read_append hread ⟨?_, ?_⟩ h⟩
  · exact hrecords ▸ List.prefix_refl _
  · rw [hpending]
    exact fun _ hline => absurd hline (Option.not_mem_none _)

/-- A document goes on behind a record only with what the record tells, and only if that can be
    told. -/
theorem prefix_of_parseChanges {c : Change} {found : List Change}
    (hbefore : ∀ b ∈ before, b.Told) (hc : c.Lined)
    (h : parseChanges (writeChanges (before ++ c :: after)) = .ok found) :
    c.unmarked.isBare = false ∧ before ++ [c.unmarked] <+: found := by
  obtain ⟨lines, hlines, htake⟩ := takes_changeLines hc
  obtain ⟨records, hread, hrecords⟩ := bind_eq_ok h
  have hbytes : utf8 (writeChanges (before ++ c :: after)) =
      Utf8.encode (header ++ before.flatMap changeChars) ++ lines ++ [0x0A] ++
        Utf8.encode (after.flatMap changeChars) := by
    rw [List.append_assoc _ lines, ← hlines, utf8, writeChanges, String.toList_ofList]
    simp only [← Utf8.encode_append, List.flatMap_append, List.flatMap_cons, List.append_assoc]
  rw [hbytes] at hread
  obtain ⟨record, hcomplete, hprefix⟩ := complete_of_read
    ((takes_changes hbefore).append htake) hread
  rw [complete_atEnd] at hcomplete
  split at hcomplete
  · cases hcomplete
  · rename_i hbare
    cases hcomplete
    have hlist := hprefix.filterMap Record.change?
    rw [List.filterMap_append, filterMap_change, Except.ok.inj hrecords] at hlist
    exact ⟨Bool.eq_false_iff.mpr hbare, hlist⟩

/-- What changes become that are read again is what was written only if the records told it. -/
theorem stable_of_rewritten (hreadable : ∀ c ∈ changes, c.Readable)
    (h : parseChanges (writeChanges changes) = .ok changes) : ∀ c ∈ changes, c.Stable := by
  refine forall_mem_of_first fun before c after hchanges hstable => ?_
  subst hchanges
  have hbefore : ∀ b ∈ before, b.Told :=
    fun b hb => (hreadable b (List.mem_append_left _ hb)).told (hstable b hb)
  have hc := hreadable c (List.mem_append_right _ List.mem_cons_self)
  have hedits : ∀ m ∈ c.edits, '\n' ∉ m.key.toList := by
    refine forall_mem_of_first fun edits m others hm hfirst hline => ?_
    cases c with
    | modify dn all =>
        obtain rfl : all = edits ++ m :: others := hm
        have hlined : ∀ e ∈ edits, e.Lined := fun e he =>
          (hc.2 e (List.mem_append_left _ he)).lined (hfirst e he)
        obtain ⟨c', m', hc', hm', hline'⟩ := edit_of_rewritten hbefore hc.1 hlined hline h
        rw [List.getElem?_append_right (Nat.le_refl _), Nat.sub_self] at hc'
        cases hc'
        rw [Change.edits, List.getElem?_append_right (Nat.le_refl _), Nat.sub_self] at hm'
        cases hm'
        exact hline' hline
    | add e => exact absurd hm.symm (List.append_ne_nil_of_right_ne_nil _ (List.cons_ne_nil _ _))
    | delete dn =>
        exact absurd hm.symm (List.append_ne_nil_of_right_ne_nil _ (List.cons_ne_nil _ _))
  refine (Change.unmarked_eq_iff hedits).mp ?_
  have hprefix := (prefix_of_parseChanges hbefore (hc.lined hedits) h).2
  rw [List.prefix_append_right_inj] at hprefix
  exact (List.cons_prefix_cons.mp hprefix).1

/-- Changes that were read come back from their document just if each is told by its record: no
    attribute that is written at the start of a line is marked, and no attribute of an edit has a
    line end in it. -/
theorem parseChanges_rewritten (h : parseChanges text = .ok changes) :
    parseChanges (writeChanges changes) = .ok changes ↔ ∀ c ∈ changes, c.Stable := by
  have hreadable := readable_of_parseChanges h
  exact ⟨stable_of_rewritten hreadable,
    fun hstable => parseChanges_told fun c hc => (hreadable c hc).told (hstable c hc)⟩

/-- An edit that base64 gives a marked attribute, without operands, and changes of other kinds. -/
theorem parseChanges_rewritten_marks :
    let changes : List Change :=
      [.add ⟨⟨[.single "cn" " #a"]⟩, .ofPairs [("sn", [[0x0A], []])]⟩, .delete .empty,
        .modify ⟨[.single "cn" "a"]⟩ [⟨.delete, .ofList "#b" []⟩, ⟨.add, .ofList "c" [[0x64]]⟩,
          ⟨.replace, .ofList "e:\u00fc" []⟩]]
    parseChanges (guardedChanges changes) = .ok changes ∧
      (parseChanges (writeChanges changes) = .ok changes ↔ ∀ c ∈ changes, c.Stable) := by
  intro changes
  have h : parseChanges (guardedChanges changes) = .ok changes :=
    parseChanges_guarded (by decide)
  exact ⟨h, parseChanges_rewritten h⟩

/-- One edit becomes two. -/
theorem parseChanges_injected :
    let dn : Dn := ⟨[.single "cn" "a"]⟩
    let change : Change := .modify dn [⟨.delete, .ofList "sn\n-\ndelete: mail" []⟩]
    parseChanges
        "version: 1\n\ndn: cn=a\nchangetype: modify\ndelete:: c24KLQpkZWxldGU6IG1haWw=\n-\n\n" =
      .ok [change] ∧
    parseChanges (writeChanges [change]) =
      .ok [.modify dn [⟨.delete, .ofList "sn" []⟩, ⟨.delete, .ofList "mail" []⟩]] ∧
    parseChanges (writeChanges [change]) ≠ .ok [change] := by
  intro dn change
  have htext :
      "version: 1\n\ndn: cn=a\nchangetype: modify\ndelete:: c24KLQpkZWxldGU6IG1haWw=\n-\n\n" =
        guardedChanges [change] := by
    decide
  have hwritten : writeChanges [change] = guardedChanges
      [.modify dn [⟨.delete, .ofList "sn" []⟩, ⟨.delete, .ofList "mail" []⟩]] := by
    decide
  have htwo : parseChanges (guardedChanges
      [.modify dn [⟨.delete, .ofList "sn" []⟩, ⟨.delete, .ofList "mail" []⟩]]) =
      .ok [.modify dn [⟨.delete, .ofList "sn" []⟩, ⟨.delete, .ofList "mail" []⟩]] :=
    parseChanges_guarded (by decide)
  rw [htext, hwritten, htwo]
  exact ⟨parseChanges_guarded (by decide), rfl, by decide⟩

end Ldif
end DirectoryStore
