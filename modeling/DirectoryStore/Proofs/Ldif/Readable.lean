import Mathlib.Data.List.DropRight
import DirectoryStore.Proofs.Ldif.Changes

/-!
# What reading yields

Whatever a document is, the names that are read from it can be written, and the attribute types
stand in front of a separator, with no line end in them and no blanks around them.  Only the
attribute of an edit is read from a value, which may be any text without blanks around it; but
its operands repeat it in front of a separator.

Such facts hold of the state of a record and of the records before it, and each line keeps
them.  `Lasting` collects what a property has to satisfy at each step of a reader for a whole
document to keep it.
-/

namespace DirectoryStore

/-- An entry whose name can be written and whose attribute types stood in front of a separator. -/
structure Entry.Readable (e : Entry) : Prop where
  legible : e.dn.Legible
  lineNames : ∀ s ∈ e.attributes.sets, Ldif.LineName s.key

/-- An edit whose attribute was read from a value, and stood in front of a separator if there are
    operands. -/
structure Modification.Readable (m : Modification) : Prop where
  trimmed : trim m.key = m.key
  lineName : m.operands.values.isEmpty = false → Ldif.LineName m.key

/-- A change that can be read from a record. -/
def Change.Readable : Change → Prop
  | .add e => e.Readable ∧ e.attributes.isEmpty = false
  | .delete dn => dn.Legible
  | .modify dn edits => dn.Legible ∧ ∀ m ∈ edits, m.Readable

instance (e : Entry) : Decidable e.Readable :=
  decidable_of_iff (e.dn.Legible ∧ ∀ s ∈ e.attributes.sets, Ldif.LineName s.key)
    ⟨fun h => ⟨h.1, h.2⟩, fun h => ⟨h.legible, h.lineNames⟩⟩

instance (m : Modification) : Decidable m.Readable :=
  decidable_of_iff (trim m.key = m.key ∧
      (m.operands.values.isEmpty = false → Ldif.LineName m.key))
    ⟨fun h => ⟨h.1, h.2⟩, fun h => ⟨h.trimmed, h.lineName⟩⟩

instance (c : Change) : Decidable c.Readable :=
  match c with
  | .add e => inferInstanceAs (Decidable (e.Readable ∧ e.attributes.isEmpty = false))
  | .delete dn => inferInstanceAs (Decidable dn.Legible)
  | .modify dn edits => inferInstanceAs (Decidable (dn.Legible ∧ ∀ m ∈ edits, m.Readable))

namespace Ldif

/-- A property of the state of a record, the records before it and the line that is held back,
    which each step of a reader keeps. -/
structure Lasting (P : RecordState → List Record → Option Bytes → Prop) : Prop where
  hold {state records bytes} : P state records none → P state records (some bytes)
  extend {state records bytes more} : P state records (some bytes) →
    P state records (some (bytes ++ more))
  comment {state records bytes} : P state records (some bytes) → bytes.head? = some 0x23 →
    P state records none
  accept {state records bytes mode isFirst state'} : P state records (some bytes) →
    0x0A ∉ bytes → RecordState.accept mode isFirst bytes state = .ok state' →
      P state' records none
  complete {state records record} : P state records none → state.complete = .ok record →
    P .idle (records ++ record.toList) none

variable {mode : Mode} {r r' : Reader} {bytes bs : Bytes} {state state' : RecordState}
variable {records : List Record} {name : String} {value : Value} {isFirst : Bool} {n : Nat}
variable {P : RecordState → List Record → Option Bytes → Prop}

/-- The property holds where the reader stands, and the line that it holds back is without line
    ends. -/
structure Reader.Bears (r : Reader) (P : RecordState → List Record → Option Bytes → Prop) :
    Prop where
  property : P r.state r.records (r.pending.map LogicalLine.bytes)
  clean : ∀ line ∈ r.pending, 0x0A ∉ line.bytes

namespace Lasting

theorem flush (hP : Lasting P) (hr : r.Bears P) (h : r.flush = .ok r') :
    P r'.state r'.records none ∧ r'.pending = none := by
  obtain ⟨hproperty, hclean⟩ := hr
  rw [Reader.flush] at h
  cases hpending : r.pending with
  | none =>
      rw [hpending] at h hproperty
      cases h
      exact ⟨hproperty, hpending⟩
  | some line =>
      rw [hpending] at h hproperty
      dsimp only at h
      rw [Reader.logicalLine] at h
      split at h
      · rename_i hmark
        cases h
        exact ⟨hP.comment hproperty hmark, rfl⟩
      · split at h
        · cases h
        · rename_i haccept
          cases h
          exact ⟨hP.accept hproperty (hclean line hpending) haccept, rfl⟩

theorem endRecord (hP : Lasting P) (hproperty : P r.state r.records none)
    (hpending : r.pending = none) (h : r.endRecord n = .ok r') : r'.Bears P := by
  rw [Reader.endRecord] at h
  split at h
  · cases h
  · rename_i hcomplete
    cases h
    constructor
    · rw [hpending]
      exact hP.complete hproperty hcomplete
    · rw [hpending]
      exact fun _ hline => absurd hline (Option.not_mem_none _)

theorem physicalLine (hP : Lasting P) (hr : r.Bears P) (hline : 0x0A ∉ bs)
    (h : r.physicalLine n bs = .ok r') : r'.Bears P := by
  unfold Reader.physicalLine at h
  split at h
  · obtain ⟨r₁, hflush, hend⟩ := bind_eq_ok h
    obtain ⟨hproperty, hpending⟩ := hP.flush hr hflush
    exact hP.endRecord hproperty hpending hend
  · rename_i rest
    split at h
    · cases h
    · rename_i line hpending
      cases h
      obtain ⟨hproperty, hclean⟩ := hr
      rw [hpending] at hproperty
      refine ⟨hP.extend hproperty, fun line' hline' => ?_⟩
      cases hline'
      rw [List.mem_append, not_or]
      exact ⟨hclean line hpending, fun hmem => hline (List.mem_cons_of_mem _ hmem)⟩
  · obtain ⟨r₁, hflush, hheld⟩ := bind_eq_ok h
    cases hheld
    refine ⟨hP.hold (hP.flush hr hflush).1, fun line' hline' => ?_⟩
    cases hline'
    exact hline

theorem endLine (hP : Lasting P) (hr : r.Bears P) (hline : 0x0A ∉ bs)
    (h : r.endLine bs = .ok r') : r'.Bears P := by
  have hr' : ({ r with unended := [], lines := r.lines + 1 } : Reader).Bears P := ⟨hr.1, hr.2⟩
  refine hP.physicalLine hr' ?_ h
  rw [Reader.withoutReturn]
  split
  · exact fun hmem => hline (List.dropLast_subset _ hmem)
  · exact hline

theorem takeLines (hP : Lasting P) (hr : r.Bears P) (h : r.takeLines bytes = .ok r') :
    r'.Bears P ∧ 0x0A ∉ r'.unended := by
  induction bytes using Reader.buffer_induction generalizing r with
  | unended bytes hbytes =>
      rw [Reader.takeLines_unended hbytes] at h
      cases h
      exact ⟨⟨hr.1, hr.2⟩, hbytes⟩
  | line line rest hline ih =>
      rw [Reader.takeLines_line hline] at h
      obtain ⟨r₁, hend, hlines⟩ := bind_eq_ok h
      exact ih (hP.endLine hr hline hend) hlines

theorem finish (hP : Lasting P) (hr : r.Bears P) (hline : 0x0A ∉ r.unended)
    (h : r.finish = .ok records) : P .idle records none := by
  rw [Reader.finish] at h
  obtain ⟨r₁, hr₁, h⟩ : ∃ r₁ : Reader, r₁.Bears P ∧
      (do
        let r ← r₁.flush
        if r.state = .idle then return r.records else throw ⟨r.lines, .endsInsideRecord⟩ :
          Except LdifError (List Record)) = .ok records := by
    split at h
    · exact ⟨r, hr, h⟩
    · obtain ⟨r₁, hend, h⟩ := bind_eq_ok h
      exact ⟨r₁, hP.endLine hr hline hend, h⟩
  obtain ⟨r₂, hflush, h⟩ := bind_eq_ok h
  split at h
  · rename_i hidle
    cases h
    exact hidle ▸ (hP.flush hr₁ hflush).1
  · cases h

/-- A property that lasts and holds at some point of a document holds of its records. -/
theorem read_append (hP : Lasting P) (hstart : (Reader.start mode).takeLines bytes = .ok r)
    (hr : r.Bears P) (h : read mode (bytes ++ bs) = .ok records) : P .idle records none := by
  rw [read_eq, Reader.takeLines_append, hstart] at h
  obtain ⟨r₁, hlines, hfinish⟩ := bind_eq_ok h
  obtain ⟨hr₁, hline⟩ := hP.takeLines hr hlines
  exact hP.finish hr₁ hline hfinish

theorem read (hP : Lasting P) (hstart : P .idle [] none) (h : read mode bytes = .ok records) :
    P .idle records none := by
  have hnone : (Reader.start mode).takeLines [] = .ok (Reader.start mode) :=
    Reader.takeLines_unended List.not_mem_nil _
  exact hP.read_append hnone ⟨hstart, nofun⟩ h

end Lasting

/-! ## Names of lines -/

theorem mem_trim {c : Char} (h : c ∈ (trim name).toList) : c ∈ name.toList := by
  rw [trim, String.toList_ofList, List.mem_reverse] at h
  have hback := (List.dropWhile_suffix _).subset h
  rw [List.mem_reverse] at hback
  exact (List.dropWhile_suffix _).subset hback

theorem trim_trim (name : String) : trim (trim name) = trim name := by
  have htrim : ∀ cs : List Char, trim (String.ofList cs) =
      String.ofList ((cs.dropWhile isBlank).rdropWhile isBlank) := by
    intro cs
    rw [trim, String.toList_ofList, List.rdropWhile]
  have hname : trim name =
      String.ofList ((name.toList.dropWhile isBlank).rdropWhile isBlank) := rfl
  rw [hname, htrim]
  congr 1
  generalize hfront : name.toList.dropWhile isBlank = front
  -- What is cut off at the end leaves the front as it is.
  have hkept : (front.rdropWhile isBlank).dropWhile isBlank = front.rdropWhile isBlank := by
    cases hcut : front.rdropWhile isBlank with
    | nil => rfl
    | cons c cs =>
        obtain ⟨rest, hrest⟩ := List.rdropWhile_prefix isBlank (l := front)
        have hhead := List.head?_dropWhile_not isBlank name.toList
        rw [hfront, ← hrest, hcut] at hhead
        exact List.dropWhile_cons_of_neg (by rw [hhead]; exact Bool.false_ne_true)
  rw [hkept, List.rdropWhile_idempotent]

theorem trim_looseText (bytes : Bytes) : trim (looseText bytes) = looseText bytes :=
  trim_trim _

/-- The ASCII characters of a loose text are bytes of what it was read from. -/
theorem not_mem_looseText {c : Char} (hc : c.toNat < 0x80) (h : UInt8.ofNat c.toNat ∉ bytes) :
    c ∉ (looseText bytes).toList :=
  fun hmem => h (Utf8.mem_of_mem_decodeLossy (mem_trim hmem) hc)

theorem lineName_of_splitLine (h : splitLine bytes = .ok (name, value)) (hline : 0x0A ∉ bytes) :
    LineName name := by
  rw [splitLine] at h
  split at h
  · cases h
  · split at h
    · cases h
    · cases h
      refine ⟨not_mem_looseText (by decide) ?_, not_mem_looseText (by decide) ?_,
        trim_looseText _⟩
      · exact fun hmem => absurd (List.all_eq_true.mp List.all_takeWhile _ hmem) (by decide)
      · exact fun hmem => hline ((List.takeWhile_prefix _).subset hmem)

/-! ## What can be read -/

/-- A record that can be read. -/
def Record.Readable : Record → Prop
  | .entry e => e.Readable
  | .change c => c.Readable

/-- The part of a record that can be read. -/
def RecordState.Readable : RecordState → Prop
  | .idle => True
  | .content dn attrs | .adding dn attrs => Entry.Readable ⟨dn, attrs⟩
  | .untyped dn | .deleting dn => dn.Legible
  | .modifying dn edits open? => dn.Legible ∧ ∀ m ∈ edits ++ open?.toList, m.Readable

namespace RecordState

theorem start_readable (h : start mode value = .ok state) : state.Readable := by
  rw [start] at h
  split at h
  · cases h
  · split at h
    · cases h
    · rename_i hdn
      have hlegible := Dn.legible_of_parse hdn
      cases mode with
      | content =>
          cases h
          exact ⟨hlegible, List.forall_mem_nil _⟩
      | changes =>
          cases h
          exact hlegible

theorem acceptFirst_readable (h : acceptFirst mode isFirst name value = .ok state) :
    state.Readable := by
  rw [acceptFirst] at h
  split at h
  · split at h
    · cases h
    · cases h
      exact trivial
  · split at h
    · exact start_readable h
    · cases h

theorem acceptType_readable {dn : Dn} (hdn : dn.Legible)
    (h : acceptType dn name value = .ok state) : state.Readable := by
  rw [acceptType] at h
  split at h
  · cases h
  · dsimp only at h
    split at h
    · cases h
      exact ⟨hdn, List.forall_mem_nil _⟩
    · split at h
      · cases h
        exact hdn
      · split at h
        · cases h
          exact ⟨hdn, List.forall_mem_nil _⟩
        · cases h

theorem addValues_readable {dn : Dn} {attrs : AttributeMap} (h : Entry.Readable ⟨dn, attrs⟩)
    (hname : LineName name) : Entry.Readable ⟨dn, attrs.addValues name [value]⟩ :=
  ⟨h.legible, AttributeMap.forall_key_update h.lineNames hname _⟩

/-- The line that opens an edit names an attribute without blanks around it; an operand stands
    behind it. -/
theorem acceptEdit_readable {dn : Dn} {edits : List Modification}
    (h : RecordState.Readable (.modifying dn edits none))
    (haccept : acceptEdit dn edits name value = .ok state) : state.Readable := by
  rw [acceptEdit] at haccept
  split at haccept
  · cases haccept
  · cases haccept
    refine ⟨h.1, List.forall_mem_append.mpr ⟨?_, ?_⟩⟩
    · exact (List.forall_mem_append.mp h.2).1
    · exact List.forall_mem_singleton.mpr ⟨trim_looseText value,
        fun hempty => absurd rfl (Bool.eq_false_iff.mp hempty)⟩

theorem acceptOperand_readable {dn : Dn} {edits : List Modification} {m : Modification}
    (h : RecordState.Readable (.modifying dn edits (some m))) (hname : LineName name)
    (haccept : acceptOperand dn edits m name value = .ok state) : state.Readable := by
  rw [acceptOperand] at haccept
  split at haccept
  · rename_i hkey
    cases haccept
    obtain ⟨hedits, hopen⟩ := List.forall_mem_append.mp h.2
    refine ⟨h.1, List.forall_mem_append.mpr ⟨hedits, ?_⟩⟩
    refine List.forall_mem_singleton.mpr ⟨(hopen m List.mem_cons_self).trimmed, fun _ => ?_⟩
    exact hkey ▸ hname
  · cases haccept

theorem accept_readable (h : state.Readable) (hline : 0x0A ∉ bytes)
    (haccept : state.accept mode isFirst bytes = .ok state') : state'.Readable := by
  cases state with
  | idle =>
      obtain ⟨⟨name, value⟩, -, hfirst⟩ := bind_eq_ok haccept
      exact acceptFirst_readable hfirst
  | content dn attrs =>
      obtain ⟨⟨name, value⟩, hsplit, hvalue⟩ := bind_eq_ok haccept
      cases hvalue
      exact addValues_readable h (lineName_of_splitLine hsplit hline)
  | untyped dn =>
      obtain ⟨⟨name, value⟩, -, htype⟩ := bind_eq_ok haccept
      exact acceptType_readable h htype
  | adding dn attrs =>
      obtain ⟨⟨name, value⟩, hsplit, hvalue⟩ := bind_eq_ok haccept
      cases hvalue
      exact addValues_readable h (lineName_of_splitLine hsplit hline)
  | deleting dn => cases haccept
  | modifying dn edits open? =>
      cases open? with
      | none =>
          rw [accept] at haccept
          split at haccept
          · cases haccept
          · obtain ⟨⟨name, value⟩, -, hedit⟩ := bind_eq_ok haccept
            exact acceptEdit_readable h hedit
      | some m =>
          rw [accept] at haccept
          split at haccept
          · cases haccept
            refine ⟨h.1, ?_⟩
            rw [Option.toList_none, List.append_nil]
            exact h.2
          · obtain ⟨⟨name, value⟩, hsplit, hoperand⟩ := bind_eq_ok haccept
            exact acceptOperand_readable h (lineName_of_splitLine hsplit hline) hoperand

theorem complete_readable {record : Option Record} (h : state.Readable)
    (hcomplete : state.complete = .ok record) : ∀ x ∈ record, x.Readable := by
  cases state with
  | idle =>
      cases hcomplete
      exact fun _ hx => absurd hx (Option.not_mem_none _)
  | content dn attrs =>
      cases hcomplete
      exact fun x hx => Option.some.inj hx ▸ h
  | untyped dn => cases hcomplete
  | adding dn attrs =>
      rw [complete] at hcomplete
      split at hcomplete
      · cases hcomplete
      · rename_i hattrs
        cases hcomplete
        exact fun x hx => Option.some.inj hx ▸ ⟨h, Bool.eq_false_iff.mpr hattrs⟩
  | deleting dn =>
      cases hcomplete
      exact fun x hx => Option.some.inj hx ▸ h
  | modifying dn edits open? =>
      cases open? with
      | some m => cases hcomplete
      | none =>
          cases hcomplete
          rw [Readable, Option.toList_none, List.append_nil] at h
          exact fun x hx => Option.some.inj hx ▸ h

end RecordState

theorem lasting_readable :
    Lasting fun state records _ => state.Readable ∧ ∀ x ∈ records, x.Readable where
  hold h := h
  extend h := h
  comment h _ := h
  accept h hline haccept := ⟨RecordState.accept_readable h.1 hline haccept, h.2⟩
  complete h hcomplete := ⟨trivial, List.forall_mem_append.mpr ⟨h.2, fun x hx =>
    RecordState.complete_readable h.1 hcomplete x (Option.mem_toList.mp hx)⟩⟩

/-- The entries of a document can be read. -/
theorem readable_of_parseEntries {text : String} {entries : List Entry}
    (h : parseEntries text = .ok entries) : ∀ e ∈ entries, e.Readable := by
  obtain ⟨records, hread, hentries⟩ := bind_eq_ok h
  cases hentries
  intro e he
  obtain ⟨x, hx, hxe⟩ := List.mem_filterMap.mp he
  have hreadable := (lasting_readable.read ⟨trivial, nofun⟩ hread).2 x hx
  cases x with
  | entry e' => exact Option.some.inj hxe ▸ hreadable
  | change c => cases hxe

/-- The changes of a document can be read. -/
theorem readable_of_parseChanges {text : String} {changes : List Change}
    (h : parseChanges text = .ok changes) : ∀ c ∈ changes, c.Readable := by
  obtain ⟨records, hread, hchanges⟩ := bind_eq_ok h
  cases hchanges
  intro c hc
  obtain ⟨x, hx, hxc⟩ := List.mem_filterMap.mp hc
  have hreadable := (lasting_readable.read ⟨trivial, nofun⟩ hread).2 x hx
  cases x with
  | entry e => cases hxc
  | change c' => exact Option.some.inj hxc ▸ hreadable

end Ldif
end DirectoryStore
