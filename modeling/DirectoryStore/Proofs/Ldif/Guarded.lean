import DirectoryStore.Proofs.Ldif.Readable

/-!
# Documents for all that can be read

Nothing that can be read is out of reach of a document.  A blank in front of a marked name keeps
its line from being a comment, and base64 holds the attribute of an edit whatever it is.  With
that, entries and changes can be read just if some document yields them.
-/

namespace DirectoryStore
namespace Ldif

variable {mode : Mode} {p : Progress} {state : RecordState} {records : List Record}
variable {isStarted : Bool} {dn : Dn} {edits : List Modification} {m : Modification}
variable {name : String} {body : AttributeMap → RecordState}

/-! ## Lines -/

/-- A line for any name, with a tab in front of one that is marked. -/
def guardedLine (name : String) (value : Value) : List Char :=
  if isMarked name then '\t' :: lineChars name value else lineChars name value

/-- A line for each value of an attribute. -/
def guardedSet (s : AttributeSet) : List Char :=
  s.values.toList.flatMap (guardedLine s.key)

theorem trim_tab (name : String) : trim (String.ofList ('\t' :: name.toList)) = trim name := by
  rw [trim, String.toList_ofList, List.dropWhile_cons_of_pos (by decide), trim]

/-- A guarded line gives its name and its value. -/
theorem takes_guardedLine (h : LineName name) (value : Value)
    (haccept : ∀ bytes, 0x3A ∈ bytes → splitLine bytes = .ok (name, value) →
      p.state.accept mode (!p.isStarted) bytes = .ok state) :
    Takes mode (Utf8.encode (guardedLine name value)) p ⟨state, true, p.records⟩ := by
  obtain ⟨rest, hrest, hread⟩ := valueBytes_eq_cons value
  obtain ⟨rest', hrest', hbytes, hend, hcr⟩ := written_ends name value
  cases hrest.symm.trans hrest'
  rw [guardedLine]
  cases hmark : isMarked name with
  | false =>
      refine takes_written (h.safeKey hmark) value (haccept _ ?_ ?_)
      · rw [hrest]
        exact List.mem_append_right _ List.mem_cons_self
      · exact splitLine_written (h.safeKey hmark) value
  | true =>
      have htab : Utf8.encode ('\t' :: lineChars name value) =
          0x09 :: (utf8 name ++ 0x3A :: rest) ++ [0x0A] := by
        rw [Utf8.encode_cons, hbytes]
        rfl
      have hname : 0x09 :: utf8 name = utf8 (String.ofList ('\t' :: name.toList)) := by
        rw [utf8, utf8, String.toList_ofList, Utf8.encode_cons]
        rfl
      have hcolon : ':' ∉ (String.ofList ('\t' :: name.toList)).toList := by
        rw [String.toList_ofList, List.mem_cons, not_or]
        exact ⟨by decide, h.no_colon⟩
      have hsplit : splitLine (0x09 :: (utf8 name ++ 0x3A :: rest)) = .ok (name, value) := by
        rw [← List.cons_append, hname, splitLine_utf8 hcolon hread, trim_tab, h.trimmed]
      obtain ⟨hline, hlast⟩ := nameLine_ends h.no_lineEnd hend hcr
      rw [if_pos rfl, htab]
      refine takes_line (List.cons_ne_nil _ _) ?_ ?_ ?_ ?_ (haccept _ ?_ hsplit)
      · rw [List.mem_cons, not_or]
        exact ⟨by decide, hline⟩
      · rw [List.getLast?_cons_of_ne_nil
          (List.append_ne_nil_of_right_ne_nil _ (List.cons_ne_nil _ _))]
        exact hlast
      · rw [List.head?_cons]
        decide
      · rw [List.head?_cons]
        decide
      · exact List.mem_cons_of_mem _ (List.mem_append_right _ List.mem_cons_self)

/-- The lines of attributes give them all, with their spelling. -/
theorem takes_guardedSets (hbody : Gathers body) {attrs : AttributeMap}
    (hkeys : ∀ s ∈ attrs.sets, LineName s.key) :
    Takes mode (Utf8.encode ((orderedSets attrs).flatMap guardedSet)) ⟨body .empty, true, records⟩
      ⟨body attrs, true, records⟩ := by
  have h : Takes mode (Utf8.encode ((orderedSets attrs).flatMap guardedSet))
      ⟨body .empty, true, records⟩
      ⟨body (AttributeMap.ofSets (orderedSets attrs)), true, records⟩ := by
    refine takes_flatMap (fun attrs => ⟨body attrs, true, records⟩) ?_ .empty
    intro s hs attrs'
    have hs' := mem_orderedSets.mp hs
    refine takes_values (fun value attrs => ?_) (toList_ne_nil (attrs.nonempty s hs')) attrs'
    exact takes_guardedLine (hkeys s hs') value fun bytes _ hsplit => hbody _ _ _ _ _ _ hsplit
  rwa [ofSets_orderedSets] at h

/-! ## Records -/

/-- A record for an entry with any attributes that can be read. -/
def guardedEntry (e : Entry) : List Char :=
  dnLine e.dn ++ (orderedSets e.attributes).flatMap guardedSet ++ ['\n']

theorem takes_guardedEntry {e : Entry} (h : e.Readable) :
    Takes .content (Utf8.encode (guardedEntry e)) ⟨.idle, isStarted, records⟩
      ⟨.idle, true, records ++ [.entry e]⟩ := by
  rw [guardedEntry, Utf8.encode_append, Utf8.encode_append]
  refine ((takes_dnLine h.legible).append
    (takes_guardedSets (gathers_content e.dn) h.lineNames)).append ?_
  exact takes_endRecord rfl

/-- The lines of an edit, with its attribute as a value. -/
def guardedEdit (m : Modification) : List Char :=
  lineChars (editWord m.kind) (utf8 m.key) ++ guardedSet m.operands ++ ['-', '\n']

theorem takes_guardedEdit (h : m.Readable) :
    Takes mode (Utf8.encode (guardedEdit m)) ⟨.modifying dn edits none, true, records⟩
      ⟨.modifying dn (edits ++ [m]) none, true, records⟩ := by
  have hhead : Takes mode (Utf8.encode (lineChars (editWord m.kind) (utf8 m.key)))
      ⟨.modifying dn edits none, true, records⟩
      ⟨.modifying dn edits (some ⟨m.kind, m.key, .empty⟩), true, records⟩ := by
    refine takes_written (safeKey_editWord m.kind) (utf8 m.key) ?_
    obtain ⟨rest, hrest, -⟩ := valueBytes_eq_cons (utf8 m.key)
    have hcolon : 0x3A ∈ utf8 (editWord m.kind) ++ valueBytes (utf8 m.key) := by
      rw [hrest]
      exact List.mem_append_right _ List.mem_cons_self
    have hsplit := splitLine_written (safeKey_editWord m.kind) (utf8 m.key)
    exact accept_editHead h.trimmed hcolon hsplit
  have hoperands : Takes mode (Utf8.encode (guardedSet m.operands))
      ⟨.modifying dn edits (some ⟨m.kind, m.key, .empty⟩), true, records⟩
      ⟨.modifying dn edits (some m), true, records⟩ := by
    cases hvalues : m.operands.values.isEmpty with
    | true =>
        obtain ⟨kind, key, values⟩ := m
        obtain rfl := ValueSet.isEmpty_iff_eq.mp hvalues
        exact Takes.nil
    | false =>
        refine takes_operandLines fun value values => ?_
        exact takes_guardedLine (h.lineName hvalues) value
          fun bytes hcolon hsplit => accept_operand hcolon hsplit
  rw [guardedEdit, Utf8.encode_append, Utf8.encode_append]
  exact (hhead.append hoperands).append takes_dash

/-- A record for any change that can be read. -/
def guardedChange : Change → List Char
  | .add e => changeHead e.dn "add" ++ (orderedSets e.attributes).flatMap guardedSet ++ ['\n']
  | .delete dn => changeHead dn "delete" ++ ['\n']
  | .modify dn edits => changeHead dn "modify" ++ edits.flatMap guardedEdit ++ ['\n']

theorem takes_guardedChange {c : Change} (h : c.Readable) :
    Takes .changes (Utf8.encode (guardedChange c)) ⟨.idle, isStarted, records⟩
      ⟨.idle, true, records ++ [.change c]⟩ := by
  cases c with
  | add e =>
      have hcomplete : (RecordState.adding e.dn e.attributes).complete =
          .ok (some (.change (.add e))) := by
        rw [RecordState.complete, h.2]
        rfl
      rw [guardedChange, Utf8.encode_append, Utf8.encode_append]
      exact ((takes_changeHead h.1.legible (by decide) (by decide)
        (acceptType_word (by decide))).append
          (takes_guardedSets (gathers_adding e.dn) h.1.lineNames)).append
            (takes_endRecord hcomplete)
  | delete dn =>
      rw [guardedChange, Utf8.encode_append]
      exact (takes_changeHead h (by decide) (by decide) (acceptType_word (by decide))).append
        (takes_endRecord rfl)
  | modify dn edits =>
      have hedits : Takes .changes (Utf8.encode (edits.flatMap guardedEdit))
          ⟨.modifying dn [] none, true, records⟩
          ⟨.modifying dn (edits.map id) none, true, records⟩ :=
        takes_each (fun done => ⟨.modifying dn done none, true, records⟩)
          fun m hm _ => takes_guardedEdit (h.2 m hm)
      rw [List.map_id] at hedits
      rw [guardedChange, Utf8.encode_append, Utf8.encode_append]
      exact ((takes_changeHead h.1 (by decide) (by decide) (acceptType_word (by decide))).append
        hedits).append (takes_endRecord rfl)

/-! ## Documents -/

/-- The document of entries with any attributes that can be read. -/
def guardedEntries (entries : List Entry) : String :=
  String.ofList (header ++ entries.flatMap guardedEntry)

/-- The document of any changes that can be read. -/
def guardedChanges (changes : List Change) : String :=
  String.ofList (header ++ changes.flatMap guardedChange)

theorem parseEntries_guarded {entries : List Entry} (h : ∀ e ∈ entries, e.Readable) :
    parseEntries (guardedEntries entries) = .ok entries := by
  have hread : read .content (utf8 (guardedEntries entries)) = .ok (entries.map .entry) := by
    rw [utf8, guardedEntries, String.toList_ofList]
    exact read_document fun e he _ => takes_guardedEntry (h e he)
  simp only [parseEntries, hread, bind, Except.bind, pure, Except.pure, filterMap_entry]

theorem parseChanges_guarded {changes : List Change} (h : ∀ c ∈ changes, c.Readable) :
    parseChanges (guardedChanges changes) = .ok changes := by
  have hread : read .changes (utf8 (guardedChanges changes)) = .ok (changes.map .change) := by
    rw [utf8, guardedChanges, String.toList_ofList]
    exact read_document fun c hc _ => takes_guardedChange (h c hc)
  simp only [parseChanges, hread, bind, Except.bind, pure, Except.pure, filterMap_change]

/-- Entries can be read just if a document yields them. -/
theorem readable_iff_parseEntries {entries : List Entry} :
    (∀ e ∈ entries, e.Readable) ↔ ∃ text, parseEntries text = .ok entries :=
  ⟨fun h => ⟨_, parseEntries_guarded h⟩, fun ⟨_, h⟩ => readable_of_parseEntries h⟩

/-- Changes can be read just if a document yields them. -/
theorem readable_iff_parseChanges {changes : List Change} :
    (∀ c ∈ changes, c.Readable) ↔ ∃ text, parseChanges text = .ok changes :=
  ⟨fun h => ⟨_, parseChanges_guarded h⟩, fun ⟨_, h⟩ => readable_of_parseChanges h⟩

end Ldif
end DirectoryStore
