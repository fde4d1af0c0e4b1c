import Mathlib.Data.List.Basic
import DirectoryStore.Proofs.Attribute.Lookup
import DirectoryStore.Proofs.Ldif.Lines
import DirectoryStore.Proofs.Name.Spelling

/-!
# LDIF and back

Reading what was written gives back what was written.  The lines of an entry rebuild its
attributes one value at a time, and in the order in which they are written, which is not the
order in which they are kept.  Lines whose attribute type is marked are comments, and their
values are not read.
-/

namespace DirectoryStore

/-- The attributes whose lines are no comments. -/
def AttributeMap.unmarked (attrs : AttributeMap) : AttributeMap :=
  attrs.filter fun s => !Ldif.isMarked s.key

/-- The entry with the attributes whose lines are no comments. -/
def Entry.unmarked (e : Entry) : Entry :=
  ⟨e.dn, e.attributes.unmarked⟩

theorem AttributeMap.unmarked_eq_iff {attrs : AttributeMap} :
    attrs.unmarked = attrs ↔ ∀ s ∈ attrs.sets, Ldif.isMarked s.key = false := by
  rw [unmarked, filter, AttributeMap.mk.injEq, List.filter_eq_self]
  simp only [Bool.not_eq_true']

theorem Entry.unmarked_eq_iff {e : Entry} :
    e.unmarked = e ↔ ∀ s ∈ e.attributes.sets, Ldif.isMarked s.key = false := by
  rw [← AttributeMap.unmarked_eq_iff, unmarked]
  exact ⟨fun h => congrArg Entry.attributes h, fun h => by rw [h]⟩

namespace Ldif

variable {mode : Mode} {records : List Record} {isStarted : Bool} {dn : Dn} {key : String}
variable {body : AttributeMap → RecordState}

theorem encode_flatMap_cons {α : Type} (f : α → List Char) (x : α) (xs : List α) :
    Utf8.encode ((x :: xs).flatMap f) = Utf8.encode (f x) ++ Utf8.encode (xs.flatMap f) := by
  rw [List.flatMap_cons, Utf8.encode_append]

/-- Pieces of a document that each move the reader on. -/
theorem takes_flatMap {α β : Type} {f : α → List Char} (stand : β → Progress) {g : β → α → β}
    {xs : List α} (h : ∀ x ∈ xs, ∀ b, Takes mode (Utf8.encode (f x)) (stand b) (stand (g b x)))
    (b : β) : Takes mode (Utf8.encode (xs.flatMap f)) (stand b) (stand (xs.foldl g b)) := by
  induction xs generalizing b with
  | nil => exact Takes.nil
  | cons x xs ih =>
      rw [encode_flatMap_cons]
      refine (h x List.mem_cons_self b).append ?_
      exact ih (fun y hy => h y (List.mem_cons_of_mem _ hy)) _

/-- Pieces of a document that each give one thing more. -/
theorem takes_each {α β : Type} {f : α → List Char} (stand : List β → Progress) {g : α → β}
    {xs : List α} (h : ∀ x ∈ xs, ∀ done, Takes mode (Utf8.encode (f x)) (stand done)
      (stand (done ++ [g x]))) :
    Takes mode (Utf8.encode (xs.flatMap f)) (stand []) (stand (xs.map g)) := by
  have htake := takes_flatMap stand h []
  rwa [List.foldl_append_eq_append, List.nil_append, ← List.flatMap_def, ← List.map_eq_flatMap]
    at htake

/-! ## Lines of attributes -/

/-- The body of a record that collects the values of attributes. -/
def Gathers (body : AttributeMap → RecordState) : Prop :=
  ∀ (mode : Mode) (isFirst : Bool) (attrs : AttributeMap) (bytes : Bytes) (name : String)
    (value : Value), splitLine bytes = .ok (name, value) →
      (body attrs).accept mode isFirst bytes = .ok (body (attrs.addValues name [value]))

theorem gathers_content (dn : Dn) : Gathers (.content dn) := by
  intro mode isFirst attrs bytes name value h
  simp only [RecordState.accept, h, bind, Except.bind, pure, Except.pure]

theorem gathers_adding (dn : Dn) : Gathers (.adding dn) := by
  intro mode isFirst attrs bytes name value h
  simp only [RecordState.accept, h, bind, Except.bind, pure, Except.pure]

/-- Lines for values of an attribute give all of them, if each line gives its value. -/
theorem takes_values {line : Value → List Char} {values : List Value} {key : String}
    (hline : ∀ value attrs, Takes mode (Utf8.encode (line value)) ⟨body attrs, true, records⟩
      ⟨body (attrs.addValues key [value]), true, records⟩)
    (hne : values ≠ []) (attrs : AttributeMap) :
    Takes mode (Utf8.encode (values.flatMap line)) ⟨body attrs, true, records⟩
      ⟨body (attrs.addValues key values), true, records⟩ := by
  rw [← AttributeMap.foldl_addValues hne]
  refine takes_flatMap (fun attrs => ⟨body attrs, true, records⟩) ?_ attrs
  exact fun value _ attrs => hline value attrs

theorem toList_ne_nil {values : ValueSet} (h : values.isEmpty = false) : values.toList ≠ [] := by
  intro he
  rw [ValueSet.isEmpty, he] at h
  cases h

theorem takes_setLines (hbody : Gathers body) {s : AttributeSet} (hs : SafeKey s.key)
    (hvalues : s.values.isEmpty = false) (attrs : AttributeMap) :
    Takes mode (Utf8.encode (setLines s)) ⟨body attrs, true, records⟩
      ⟨body (attrs.addValues s.key s.values.toList), true, records⟩ := by
  refine takes_values (fun value attrs => ?_) (toList_ne_nil hvalues) attrs
  exact takes_written hs value (hbody _ _ _ _ _ _ (splitLine_written hs value))

/-- The lines of a marked type are comments. -/
theorem takes_setLines_marked {p : Progress} {s : AttributeSet} (hmark : isMarked s.key = true)
    (hkey : '\n' ∉ s.key.toList) : Takes mode (Utf8.encode (setLines s)) p p := by
  have h : Takes mode (Utf8.encode (s.values.toList.flatMap (lineChars s.key))) p
      (s.values.toList.foldl (fun q _ => q) p) := by
    refine takes_flatMap (fun q => q) ?_ p
    intro value _ q
    exact takes_marked hmark hkey value
  rwa [List.foldl_fixed] at h

/-- The sets of a map in the order in which they are written. -/
def orderedSets (attrs : AttributeMap) : List AttributeSet :=
  (attrs.get? leadingKey).toList ++
    attrs.sets.filter fun s => !sameIgnoringCase s.key leadingKey

theorem attributeLines_eq (attrs : AttributeMap) :
    attributeLines attrs = (orderedSets attrs).flatMap setLines := by
  rw [orderedSets, List.flatMap_append]
  rfl

theorem sameIgnoringCase_iff {a b : String} :
    sameIgnoringCase a b = true ↔ foldCase a = foldCase b := by
  rw [sameIgnoringCase, beq_iff_eq]

theorem mem_orderedSets {attrs : AttributeMap} {s : AttributeSet} :
    s ∈ orderedSets attrs ↔ s ∈ attrs.sets := by
  rw [orderedSets, List.mem_append, Option.mem_toList, List.mem_filter, AttributeMap.get?_eq,
    AttributeMap.setAt?_eq_some_iff]
  cases hkey : sameIgnoringCase s.key leadingKey with
  | true => simp [AttributeSet.foldedKey, sameIgnoringCase_iff.mp hkey]
  | false =>
      have hne : ¬ s.foldedKey = foldCase leadingKey := by
        intro he
        rw [sameIgnoringCase_iff.mpr he] at hkey
        cases hkey
      simp [hne]

theorem orderedSets_pairwise (attrs : AttributeMap) :
    (orderedSets attrs).Pairwise fun s t => s.foldedKey ≠ t.foldedKey := by
  refine List.pairwise_append.mpr ⟨?_, (Rising.pairwise_ne attrs.rising).filter _, ?_⟩
  · cases attrs.get? leadingKey with
    | none => exact List.Pairwise.nil
    | some s => exact List.pairwise_singleton _ _
  · intro s hs t ht he
    rw [Option.mem_toList, AttributeMap.get?_eq, AttributeMap.setAt?_eq_some_iff] at hs
    have ht' := (List.mem_filter.mp ht).2
    rw [sameIgnoringCase_iff.mpr (he.symm.trans hs.2)] at ht'
    cases ht'

theorem ofSets_orderedSets (attrs : AttributeMap) :
    AttributeMap.ofSets (orderedSets attrs) = attrs :=
  AttributeMap.ofSets_eq (fun _ => mem_orderedSets) (orderedSets_pairwise attrs)

/-- The sets of unmarked types, in the order in which they are written, make up the map of
    them. -/
theorem ofSets_unmarked (attrs : AttributeMap) :
    AttributeMap.ofSets ((orderedSets attrs).filter fun s => !isMarked s.key) =
      attrs.unmarked := by
  refine AttributeMap.ofSets_eq (fun s => ?_) ((orderedSets_pairwise attrs).filter _)
  rw [AttributeMap.unmarked, AttributeMap.filter, List.mem_filter, List.mem_filter,
    mem_orderedSets]

/-- The lines of attributes give those that are not marked, with their spelling. -/
theorem takes_unmarkedLines (hbody : Gathers body) {attrs : AttributeMap}
    (hkeys : ∀ s ∈ attrs.sets, LineName s.key) :
    Takes mode (Utf8.encode (attributeLines attrs)) ⟨body .empty, true, records⟩
      ⟨body attrs.unmarked, true, records⟩ := by
  have h : Takes mode (Utf8.encode ((orderedSets attrs).flatMap setLines))
      ⟨body .empty, true, records⟩
      ⟨body ((orderedSets attrs).foldl (fun m s =>
        if !isMarked s.key then m.addValues s.key s.values.toList else m) .empty), true,
        records⟩ := by
    refine takes_flatMap (fun attrs => ⟨body attrs, true, records⟩) ?_ .empty
    intro s hs attrs'
    have hs' := mem_orderedSets.mp hs
    cases hmark : isMarked s.key with
    | false =>
      exact takes_setLines hbody ((hkeys s hs').safeKey hmark) (attrs.nonempty s hs') attrs'
    | true => exact takes_setLines_marked hmark (hkeys s hs').no_lineEnd
  rw [← List.foldl_filter] at h
  rw [attributeLines_eq, ← ofSets_unmarked]
  exact h

/-! ## Records and documents -/

theorem safeKey_dn : SafeKey "dn" :=
  by decide

theorem safeKey_version : SafeKey "version" :=
  by decide

/-- The state of a record that has only a `dn` line so far. -/
def opened (mode : Mode) (dn : Dn) : RecordState :=
  match mode with
  | .content => .content dn .empty
  | .changes => .untyped dn

theorem start_utf8 (hdn : dn.Legible) :
    RecordState.start mode (utf8 dn.text) = .ok (opened mode dn) := by
  rw [RecordState.start, Utf8.text?_utf8]
  simp only [Dn.parse_text hdn]
  cases mode <;> rfl

theorem accept_dnLine (isFirst : Bool) (value : Value) :
    RecordState.idle.accept mode isFirst (utf8 "dn" ++ valueBytes value) =
      RecordState.start mode value := by
  have hversion : sameIgnoringCase "dn" "version" = false := by decide
  have hname : sameIgnoringCase "dn" "dn" = true := by decide
  simp only [RecordState.accept, splitLine_written safeKey_dn, bind, Except.bind,
    RecordState.acceptFirst, hversion, hname, Bool.and_false, Bool.false_eq_true, if_false,
    if_true]

theorem takes_dnLine (hdn : dn.Legible) :
    Takes mode (Utf8.encode (dnLine dn)) ⟨.idle, isStarted, records⟩
      ⟨opened mode dn, true, records⟩ := by
  refine takes_written safeKey_dn (utf8 dn.text) ?_
  exact (accept_dnLine _ _).trans (start_utf8 hdn)

/-- What opens a document is no record. -/
theorem takes_header :
    Takes mode (Utf8.encode header) ⟨.idle, false, []⟩ ⟨.idle, true, []⟩ := by
  have hversion : sameIgnoringCase "version" "version" = true := by decide
  have hcheck : checkVersion (utf8 "1") = .ok () := by
    rw [checkVersion, looseText, Utf8.decodeLossy_utf8]
    rfl
  have haccept : RecordState.idle.accept mode true (utf8 "version" ++ valueBytes (utf8 "1")) =
      .ok .idle := by
    simp only [RecordState.accept, splitLine_written safeKey_version, bind, Except.bind,
      RecordState.acceptFirst, hversion, hcheck, Bool.and_true, if_true]
  rw [header, Utf8.encode_append]
  exact (takes_written safeKey_version (utf8 "1") haccept).append takes_blank_idle

/-- Records that are taken in one after another, behind the header. -/
theorem takes_document {α : Type} {f : α → List Char} {record : α → Record} {xs : List α}
    (h : ∀ x ∈ xs, ∀ records, Takes mode (Utf8.encode (f x)) ⟨.idle, true, records⟩
      ⟨.idle, true, records ++ [record x]⟩) :
    Takes mode (Utf8.encode (header ++ xs.flatMap f)) ⟨.idle, false, []⟩
      ⟨.idle, true, xs.map record⟩ := by
  rw [Utf8.encode_append]
  exact takes_header.append (takes_each (fun records => ⟨.idle, true, records⟩) h)

/-- Records that are taken in one after another make up a document. -/
theorem read_document {α : Type} {f : α → List Char} {record : α → Record} {xs : List α}
    (h : ∀ x ∈ xs, ∀ records, Takes mode (Utf8.encode (f x)) ⟨.idle, true, records⟩
      ⟨.idle, true, records ++ [record x]⟩) :
    read mode (Utf8.encode (header ++ xs.flatMap f)) = .ok (xs.map record) :=
  read_of_takes (takes_document h)

/-- The record of an entry gives the entry with the attributes that are not marked. -/
theorem takes_unmarkedChars {e : Entry} (hdn : e.dn.Legible)
    (hkeys : ∀ s ∈ e.attributes.sets, LineName s.key) :
    Takes .content (Utf8.encode (entryChars e)) ⟨.idle, isStarted, records⟩
      ⟨.idle, true, records ++ [.entry e.unmarked]⟩ := by
  rw [entryChars, Utf8.encode_append, Utf8.encode_append]
  refine ((takes_dnLine hdn).append
    (takes_unmarkedLines (gathers_content e.dn) hkeys)).append ?_
  exact takes_endRecord rfl

theorem takes_entryChars {e : Entry} (hdn : e.dn.Legible)
    (hkeys : ∀ s ∈ e.attributes.sets, SafeKey s.key) :
    Takes .content (Utf8.encode (entryChars e)) ⟨.idle, isStarted, records⟩
      ⟨.idle, true, records ++ [.entry e]⟩ := by
  have h : Takes .content (Utf8.encode (entryChars e)) ⟨.idle, isStarted, records⟩
      ⟨.idle, true, records ++ [.entry e.unmarked]⟩ :=
    takes_unmarkedChars hdn fun s hs => (hkeys s hs).lineName
  rwa [Entry.unmarked_eq_iff.mpr fun s hs => (hkeys s hs).isMarked_eq_false] at h

theorem filterMap_entry (entries : List Entry) :
    (entries.map Record.entry).filterMap Record.entry? = entries := by
  rw [List.filterMap_map]
  exact List.filterMap_some

/-- The record of an entry, without a header, is a document of that entry. -/
theorem parseEntries_ldif {e : Entry} (hdn : e.dn.Legible)
    (hkeys : ∀ s ∈ e.attributes.sets, SafeKey s.key) : parseEntries e.ldif = .ok [e] := by
  have h : Takes .content (utf8 e.ldif) ⟨.idle, false, []⟩ ⟨.idle, true, [.entry e]⟩ := by
    rw [utf8, Entry.ldif, String.toList_ofList]
    exact takes_entryChars hdn hkeys
  rw [parseEntries, read_of_takes h]
  rfl

/-- Entries come back from their document in order, with the spelling of their names and
    attribute types. -/
theorem parseEntries_writeEntries (entries : List Entry) (hdn : ∀ e ∈ entries, e.dn.Legible)
    (hkeys : ∀ e ∈ entries, ∀ s ∈ e.attributes.sets, SafeKey s.key) :
    parseEntries (writeEntries entries) = .ok entries := by
  have h : read .content (utf8 (writeEntries entries)) = .ok (entries.map .entry) := by
    rw [utf8, writeEntries, String.toList_ofList]
    exact read_document fun e he _ => takes_entryChars (hdn e he) (hkeys e he)
  simp only [parseEntries, h, bind, Except.bind, pure, Except.pure, filterMap_entry]

/-- Names that need escapes, and values that plain text would not preserve. -/
theorem parseEntries_writeEntries_bytes :
    let entries : List Entry :=
      [⟨.empty, .empty⟩,
        ⟨⟨[⟨⟨"cn", " #a,b+c=\"d "⟩, [⟨"x-y;z", "ü/\u0000"⟩]⟩, .single "DC" ""]⟩,
          .ofPairs [("", [[], [0x3A], [0x3C, 0x41]]),
            ("Mail", [[0x41, 0x0D], [0x0A], [0xFF, 0x00]]),
            ("objectclass", [[0x20], [0x61, 0x20]])]⟩]
    parseEntries (writeEntries entries) = .ok entries :=
  parseEntries_writeEntries _ (by decide) (by decide)

end Ldif
end DirectoryStore
