import DirectoryStore.Ldif.Writer
import DirectoryStore.Proofs.Ldif.Chunks
import DirectoryStore.Proofs.Text.Base64

/-!
# Lines of LDIF

Between lines a reader holds back the last one, which the next one may continue.  What a
document does is therefore said by the state that the reader has once the line held back is
taken in: a line moves that state on, a blank line completes a record.

A written line is taken in as one line, and splits into the name and the value that it was
written for.
-/

namespace DirectoryStore
namespace Ldif

variable {mode : Mode} {r : Reader} {bytes bs : Bytes} {value : Value} {name : String}

/-- Where a reader stands between lines. -/
structure Progress where
  state : RecordState
  isStarted : Bool
  records : List Record

variable {p p' q : Progress} {state : RecordState}

/-- The reader has taken in `p`, but for a line that it holds back.  A comment that it holds back
    does not matter. -/
structure Reader.At (r : Reader) (mode : Mode) (p : Progress) : Prop where
  mode : r.mode = mode
  unended : r.unended = []
  records : r.records = p.records
  pending : ((∀ line ∈ r.pending, line.bytes.head? = some 0x23) ∧ r.state = p.state ∧
      r.isStarted = p.isStarted) ∨
    ∃ line, r.pending = some line ∧ line.bytes.head? ≠ some 0x23 ∧
      r.state.accept r.mode (!r.isStarted) line.bytes = .ok p.state ∧ p.isStarted = true

theorem Reader.start_at (mode : Mode) : (Reader.start mode).At mode ⟨.idle, false, []⟩ :=
  ⟨rfl, rfl, rfl, .inl ⟨fun _ hline => absurd hline (Option.not_mem_none _), rfl, rfl⟩⟩

theorem Reader.At.flush_eq (h : r.At mode p) :
    r.flush = .ok { r with pending := none, isStarted := p.isStarted, state := p.state } := by
  rcases h.pending with ⟨hpending, hstate, hstarted⟩ | ⟨line, hpending, hhead, haccept, hstarted⟩
  · obtain ⟨mode, unended, lines, isStarted, pending, state, records⟩ := r
    cases hstate
    cases hstarted
    cases pending with
    | none => rfl
    | some line =>
        have hmark : line.bytes.head? = some 0x23 := hpending line rfl
        simp only [Reader.flush, Reader.logicalLine, if_pos hmark]
  · simp only [Reader.flush, hpending, Reader.logicalLine, if_neg hhead, haccept, hstarted]

/-- Bytes that lead a reader from `p` to `q`. -/
def Takes (mode : Mode) (bytes : Bytes) (p q : Progress) : Prop :=
  ∀ r : Reader, r.At mode p → ∃ r', r.takeLines bytes = .ok r' ∧ r'.At mode q

theorem Takes.nil : Takes mode [] p p :=
  fun r hr => ⟨_, Reader.takeLines_unended List.not_mem_nil r,
    hr.mode, rfl, hr.records, hr.pending⟩

theorem Takes.append (h : Takes mode bytes p p') (h' : Takes mode bs p' q) :
    Takes mode (bytes ++ bs) p q := by
  intro r hr
  obtain ⟨r₁, h₁, hr₁⟩ := h r hr
  obtain ⟨r₂, h₂, hr₂⟩ := h' r₁ hr₁
  refine ⟨r₂, ?_, hr₂⟩
  rw [Reader.takeLines_append, h₁]
  simp only [bind, Except.bind, hr₁.unended, List.nil_append, h₂]

/-- A line and its end make one physical line. -/
theorem takeLines_endLine (hend : 0x0A ∉ bs) (hcr : bs.getLast? ≠ some 0x0D) {r' : Reader}
    (h : Reader.physicalLine { r with unended := [], lines := r.lines + 1 } (r.lines + 1) bs =
      .ok r') : r.takeLines (bs ++ [0x0A]) = .ok { r' with unended := [] } := by
  have hline : r.endLine bs = .ok r' := by
    rw [Reader.endLine, Reader.withoutReturn, if_neg hcr, h]
  rw [Reader.takeLines_line hend, hline]
  exact Reader.takeLines_unended List.not_mem_nil r'

theorem physicalLine_line {b : UInt8} (hr : r.At mode p) (hb : b ≠ 0x20) (n : Nat) :
    r.physicalLine n (b :: bs) = .ok
      { r with pending := some ⟨n, b :: bs⟩, isStarted := p.isStarted, state := p.state } := by
  rw [Reader.physicalLine, hr.flush_eq]
  · rfl
  · simp
  · simp [hb]

theorem physicalLine_blank {record : Option Record} (hr : r.At mode p)
    (h : p.state.complete = .ok record) (n : Nat) :
    r.physicalLine n [] = .ok { r with
      pending := none, isStarted := p.isStarted, state := .idle,
      records := p.records ++ record.toList } := by
  rw [Reader.physicalLine, hr.flush_eq]
  simp only [bind, Except.bind, Reader.endRecord, h, hr.records]

theorem takes_line (hne : bs ≠ []) (hend : 0x0A ∉ bs) (hcr : bs.getLast? ≠ some 0x0D)
    (hspace : bs.head? ≠ some 0x20) (hmark : bs.head? ≠ some 0x23)
    (haccept : p.state.accept mode (!p.isStarted) bs = .ok state) :
    Takes mode (bs ++ [0x0A]) p ⟨state, true, p.records⟩ := by
  intro r hr
  obtain ⟨b, cs, rfl⟩ := List.exists_cons_of_ne_nil hne
  have hb : b ≠ 0x20 := fun he => hspace (by rw [he]; rfl)
  have hr' : ({ r with unended := [], lines := r.lines + 1 } : Reader).At mode p :=
    ⟨hr.mode, rfl, hr.records, hr.pending⟩
  have htake := takeLines_endLine hend hcr (physicalLine_line hr' hb (r.lines + 1))
  refine ⟨_, htake, hr.mode, rfl, hr.records, .inr ⟨_, rfl, hmark, ?_, rfl⟩⟩
  dsimp only
  rw [hr.mode]
  exact haccept

/-- A comment leads nowhere. -/
theorem takes_comment (hmark : bs.head? = some 0x23) (hend : 0x0A ∉ bs)
    (hcr : bs.getLast? ≠ some 0x0D) : Takes mode (bs ++ [0x0A]) p p := by
  intro r hr
  obtain ⟨cs, rfl⟩ := List.head?_eq_some_iff.mp hmark
  have hr' : ({ r with unended := [], lines := r.lines + 1 } : Reader).At mode p :=
    ⟨hr.mode, rfl, hr.records, hr.pending⟩
  have htake := takeLines_endLine hend hcr (physicalLine_line hr' (by decide) (r.lines + 1))
  refine ⟨_, htake, hr.mode, rfl, hr.records, .inl ⟨?_, rfl, rfl⟩⟩
  intro line hline
  cases hline
  rfl

theorem takes_blank {record : Option Record} {records : List Record} {isStarted : Bool}
    (h : state.complete = .ok record) :
    Takes mode [0x0A] ⟨state, isStarted, records⟩
      ⟨.idle, isStarted, records ++ record.toList⟩ := by
  intro r hr
  have hr' : ({ r with unended := [], lines := r.lines + 1 } : Reader).At mode
      ⟨state, isStarted, records⟩ := ⟨hr.mode, rfl, hr.records, hr.pending⟩
  have htake := takeLines_endLine List.not_mem_nil nofun
    (physicalLine_blank hr' h (r.lines + 1))
  exact ⟨_, htake, hr.mode, rfl, rfl, .inl ⟨nofun, rfl, rfl⟩⟩

/-- A blank line between records does nothing. -/
theorem takes_blank_idle {records : List Record} {isStarted : Bool} :
    Takes mode [0x0A] ⟨.idle, isStarted, records⟩ ⟨.idle, isStarted, records⟩ := by
  have h : Takes mode [0x0A] ⟨.idle, isStarted, records⟩
      ⟨.idle, isStarted, records ++ none.toList⟩ := takes_blank rfl
  rwa [Option.toList_none, List.append_nil] at h

/-- A blank line hands over the record that it completes. -/
theorem takes_endRecord {record : Record} {records : List Record} {isStarted : Bool}
    (h : state.complete = .ok (some record)) :
    Takes mode [0x0A] ⟨state, isStarted, records⟩ ⟨.idle, isStarted, records ++ [record]⟩ :=
  takes_blank h

theorem Reader.At.finish_eq {isStarted : Bool} {records : List Record}
    (h : r.At mode ⟨.idle, isStarted, records⟩) : r.finish = .ok records := by
  have hempty : r.unended.isEmpty = true := by
    rw [h.unended]
    rfl
  simp only [Reader.finish, hempty, if_pos, bind, Except.bind, pure, Except.pure, h.flush_eq,
    h.records]

/-- A document that leads to the end of a record gives the records on the way. -/
theorem read_of_takes {isStarted : Bool} {records : List Record}
    (h : Takes mode bytes ⟨.idle, false, []⟩ ⟨.idle, isStarted, records⟩) :
    read mode bytes = .ok records := by
  obtain ⟨r, htake, hr⟩ := h (Reader.start mode) (Reader.start_at mode)
  have hr' : ({ r with records := [] } : Reader).At mode ⟨.idle, isStarted, []⟩ :=
    ⟨hr.mode, hr.unended, rfl, hr.pending⟩
  have hfeed : (Reader.start mode).feed bytes = .ok ({ r with records := [] }, r.records) := by
    rw [Reader.feed, show (Reader.start mode).unended = [] from rfl, List.nil_append, htake]
    rfl
  simp only [read, hfeed, bind, Except.bind, pure, Except.pure, hr'.finish_eq, hr.records,
    List.append_nil]

/-! ## Written lines -/

/-- The bytes of a line after its name. -/
def valueBytes (value : Value) : Bytes :=
  Utf8.encode (valueChars value)

theorem safe_byte {b : UInt8} (h : isUnsafe b = false) :
    b.toNat < 0x80 ∧ b ≠ 0x0A ∧ b ≠ 0x0D := by
  simp only [isUnsafe, Bool.or_eq_false_iff, decide_eq_false_iff_not, UInt8.not_lt] at h
  have hb : b.toNat ≤ 0x7F := UInt8.le_iff_toNat_le.mp h.2
  exact ⟨by omega, h.1.1.2, h.1.2⟩

theorem any_isUnsafe (h : needsBase64 value = false) : ∀ b ∈ value, isUnsafe b = false := by
  simp only [needsBase64, Bool.or_eq_false_iff] at h
  simpa using List.any_eq_false.mp h.2

theorem valueBytes_plain (h : needsBase64 value = false) :
    valueBytes value = 0x3A :: 0x20 :: value := by
  have hascii : ∀ b ∈ value, b.toNat < 0x80 := fun b hb => (safe_byte (any_isUnsafe h b hb)).1
  rw [valueBytes, valueChars, h]
  simp only [Bool.false_eq_true, if_false, Utf8.encode_cons, plainChars,
    Utf8.encode_map_ofNat hascii]
  rfl

theorem valueBytes_base64 (h : needsBase64 value = true) :
    valueBytes value = 0x3A :: 0x3A :: 0x20 :: Base64.written value := by
  rw [valueBytes, valueChars, h]
  simp only [if_true, Utf8.encode_cons, Base64.written]
  rfl

theorem isAsciiBlank_of_mem_written {b : UInt8} (h : b ∈ Base64.written value) :
    isAsciiBlank b = false := by
  rcases Base64.mem_written h with ⟨n, hn, rfl⟩ | rfl
  · have hall : ∀ k : Fin 64, isAsciiBlank (Base64.symbolByte k) = false := by decide
    exact hall ⟨n, hn⟩
  · decide

theorem not_blank {b : UInt8} (h : isAsciiBlank b = false) : b ≠ 0x0A ∧ b ≠ 0x0D := by
  constructor <;> rintro rfl <;> exact absurd h (by decide)

/-- A value is written without line ends. -/
theorem mem_valueBytes {b : UInt8} (h : b ∈ valueBytes value) : b ≠ 0x0A ∧ b ≠ 0x0D := by
  cases hv : needsBase64 value with
  | false =>
      rw [valueBytes_plain hv, List.mem_cons, List.mem_cons] at h
      rcases h with rfl | rfl | h
      · decide
      · decide
      · exact (safe_byte (any_isUnsafe hv b h)).2
  | true =>
      rw [valueBytes_base64 hv, List.mem_cons, List.mem_cons, List.mem_cons] at h
      rcases h with rfl | rfl | rfl | h
      · decide
      · decide
      · decide
      · exact not_blank (isAsciiBlank_of_mem_written h)

theorem valueBytes_eq_cons (value : Value) : ∃ rest, valueBytes value = 0x3A :: rest ∧
    readValue rest = .ok value := by
  cases hv : needsBase64 value with
  | false =>
      refine ⟨_, valueBytes_plain hv, ?_⟩
      have hhead : value.dropWhile (· = 0x20) = value := by
        cases value with
        | nil => rfl
        | cons b value =>
            simp only [needsBase64, List.head?_cons, Option.any_some, Bool.or_eq_false_iff,
              isUnsafeStart, decide_eq_false_iff_not] at hv
            exact List.dropWhile_cons_of_neg (by simpa using hv.1.1.1.1.2)
      rw [readValue]
      · rw [List.dropWhile_cons_of_pos (by decide), hhead]
      · simp
      · simp
  | true =>
      refine ⟨_, valueBytes_base64 hv, ?_⟩
      have hfilter : (0x20 :: Base64.written value).filter (fun b => !isAsciiBlank b) =
          Base64.written value := by
        rw [List.filter_cons_of_neg (by decide), List.filter_eq_self]
        intro b hb
        rw [isAsciiBlank_of_mem_written hb]
        rfl
      simp only [readValue, hfilter, Base64.decode_written]

/-- Names that a line can start with: they are found again in front of the separator. -/
structure SafeKey (name : String) : Prop where
  no_colon : ':' ∉ name.toList
  no_lineEnd : '\n' ∉ name.toList
  no_mark : name.toList.head? ≠ some '#'
  trimmed : trim name = name

instance (name : String) : Decidable (SafeKey name) :=
  decidable_of_iff (':' ∉ name.toList ∧ '\n' ∉ name.toList ∧ name.toList.head? ≠ some '#' ∧
      trim name = name)
    ⟨fun h => ⟨h.1, h.2.1, h.2.2.1, h.2.2.2⟩,
      fun h => ⟨h.no_colon, h.no_lineEnd, h.no_mark, h.trimmed⟩⟩

/-- Names that are read from a line: what stands in front of its separator, without the blanks
    around it. -/
structure LineName (name : String) : Prop where
  no_colon : ':' ∉ name.toList
  no_lineEnd : '\n' ∉ name.toList
  trimmed : trim name = name

instance (name : String) : Decidable (LineName name) :=
  decidable_of_iff (':' ∉ name.toList ∧ '\n' ∉ name.toList ∧ trim name = name)
    ⟨fun h => ⟨h.1, h.2.1, h.2.2⟩, fun h => ⟨h.no_colon, h.no_lineEnd, h.trimmed⟩⟩

/-- Names that make a line a comment when the line starts with them. -/
def isMarked (name : String) : Bool :=
  name.toList.head? == some '#'

theorem SafeKey.lineName (h : SafeKey name) : LineName name :=
  ⟨h.no_colon, h.no_lineEnd, h.trimmed⟩

theorem SafeKey.isMarked_eq_false (h : SafeKey name) : isMarked name = false :=
  beq_eq_false_iff_ne.mpr h.no_mark

theorem LineName.safeKey (h : LineName name) (hmark : isMarked name = false) : SafeKey name :=
  ⟨h.no_colon, h.no_lineEnd, beq_eq_false_iff_ne.mp hmark, h.trimmed⟩

theorem colon_not_mem (h : ':' ∉ name.toList) : 0x3A ∉ utf8 name :=
  fun hb => h (Utf8.mem_of_mem_encode hb (by decide))

/-- What stands in front of the first separator is the name, but for blanks around it. -/
theorem splitLine_utf8 {rest : Bytes} (hcolon : ':' ∉ name.toList)
    (hread : readValue rest = .ok value) :
    splitLine (utf8 name ++ 0x3A :: rest) = .ok (trim name, value) := by
  have hall : ∀ b ∈ utf8 name, decide (b ≠ 0x3A) = true := by
    intro b hb
    rw [decide_eq_true_eq]
    rintro rfl
    exact colon_not_mem hcolon hb
  have hdrop : (utf8 name ++ 0x3A :: rest).dropWhile (· ≠ 0x3A) = 0x3A :: rest := by
    rw [List.dropWhile_append_of_pos hall, List.dropWhile_cons_of_neg (by decide)]
  have htake : (utf8 name ++ 0x3A :: rest).takeWhile (· ≠ 0x3A) = utf8 name := by
    rw [List.takeWhile_append_of_pos hall, List.takeWhile_cons_of_neg (by decide),
      List.append_nil]
  simp only [splitLine, hdrop, hread, htake, looseText, Utf8.decodeLossy_utf8]

theorem splitLine_eq {rest : Bytes} (h : SafeKey name) (hread : readValue rest = .ok value) :
    splitLine (utf8 name ++ 0x3A :: rest) = .ok (name, value) := by
  rw [splitLine_utf8 h.no_colon hread, h.trimmed]

theorem splitLine_written (h : SafeKey name) (value : Value) :
    splitLine (utf8 name ++ valueBytes value) = .ok (name, value) := by
  obtain ⟨rest, hrest, hread⟩ := valueBytes_eq_cons value
  rw [hrest]
  exact splitLine_eq h hread

/-- A text that trimming leaves alone has no blank at either end. -/
theorem not_blank_ends (h : trim name = name) :
    (∀ c, name.toList.head? = some c → isBlank c = false) ∧
      ∀ c, name.toList.getLast? = some c → isBlank c = false := by
  have htrim := congrArg String.toList h
  rw [trim, String.toList_ofList] at htrim
  generalize name.toList = cs at htrim ⊢
  have hfront := List.dropWhile_suffix isBlank (l := cs)
  have hback := List.dropWhile_suffix isBlank (l := (cs.dropWhile isBlank).reverse)
  have hlen := congrArg List.length htrim
  rw [List.length_reverse] at hlen
  have hle := hback.length_le
  rw [List.length_reverse] at hle
  have hcs : cs.dropWhile isBlank = cs :=
    hfront.eq_of_length (Nat.le_antisymm hfront.length_le (hlen ▸ hle))
  have hrev : cs.reverse.dropWhile isBlank = cs.reverse := by
    rw [hcs] at htrim
    rw [← List.reverse_reverse (cs.reverse.dropWhile isBlank), htrim]
  constructor
  · intro c hc
    have hhead := List.head?_dropWhile_not isBlank cs
    rw [hcs, hc] at hhead
    exact hhead
  · intro c hc
    have hhead := List.head?_dropWhile_not isBlank cs.reverse
    rw [hrev, List.head?_reverse, hc] at hhead
    exact hhead

theorem head_ne_space (h : trim name = name) : name.toList.head? ≠ some ' ' :=
  fun hhead => absurd ((not_blank_ends h).1 _ hhead) (by decide)

/-- A name and more, behind a colon, are one physical line. -/
theorem nameLine_ends {rest : Bytes} (hname : '\n' ∉ name.toList) (hend : 0x0A ∉ rest)
    (hcr : rest.getLast? ≠ some 0x0D) :
    0x0A ∉ utf8 name ++ 0x3A :: rest ∧ (utf8 name ++ 0x3A :: rest).getLast? ≠ some 0x0D := by
  constructor
  · rw [List.mem_append, List.mem_cons, not_or, not_or]
    exact ⟨fun hb => hname (Utf8.mem_of_mem_encode hb (by decide)), by decide, hend⟩
  · rw [List.getLast?_append, List.getLast?_cons]
    intro he
    cases hlast : rest.getLast? with
    | none =>
        rw [hlast] at he
        cases he
    | some b =>
        rw [hlast] at he
        exact hcr (hlast.trans he)

/-- A line of a name and more, behind a colon, moves the state of the reader on. -/
theorem takes_nameLine {rest : Bytes} (h : SafeKey name) (hend : 0x0A ∉ rest)
    (hcr : rest.getLast? ≠ some 0x0D)
    (haccept : p.state.accept mode (!p.isStarted) (utf8 name ++ 0x3A :: rest) = .ok state) :
    Takes mode (utf8 name ++ 0x3A :: rest ++ [0x0A]) p ⟨state, true, p.records⟩ := by
  -- The line starts with the name, or with the separator.
  have hhead : ∀ b : UInt8, b.toNat < 0x80 → b ≠ 0x3A →
      name.toList.head? ≠ some (Char.ofNat b.toNat) →
      (utf8 name ++ 0x3A :: rest).head? ≠ some b := by
    intro b hb hcolon hname hhead
    cases hu : utf8 name with
    | nil =>
        rw [hu] at hhead
        cases hhead
        exact hcolon rfl
    | cons x xs =>
        rw [hu] at hhead
        cases hhead
        exact hname (Utf8.head?_encode (b := b) (by rw [← utf8, hu]; rfl) hb)
  obtain ⟨hline, hlast⟩ := nameLine_ends h.no_lineEnd hend hcr
  refine takes_line ?_ hline hlast (hhead 0x20 (by decide) (by decide) (head_ne_space h.trimmed))
    (hhead 0x23 (by decide) (by decide) h.no_mark) haccept
  simp

/-- What is written for a value, behind its name and the colon, is the rest of one line. -/
theorem written_ends (name : String) (value : Value) : ∃ rest, valueBytes value = 0x3A :: rest ∧
    Utf8.encode (lineChars name value) = utf8 name ++ 0x3A :: rest ++ [0x0A] ∧
    0x0A ∉ rest ∧ rest.getLast? ≠ some 0x0D := by
  obtain ⟨rest, hrest, -⟩ := valueBytes_eq_cons value
  have hsafe : ∀ b ∈ rest, b ≠ 0x0A ∧ b ≠ 0x0D := by
    intro b hb
    have hmem : b ∈ valueBytes value := by
      rw [hrest]
      exact List.mem_cons_of_mem _ hb
    exact mem_valueBytes hmem
  refine ⟨rest, hrest, ?_, fun hb => (hsafe _ hb).1 rfl,
    fun hlast => (hsafe _ (List.mem_of_getLast? hlast)).2 rfl⟩
  rw [lineChars, Utf8.encode_append, Utf8.encode_append, ← hrest]
  rfl

/-- A written line moves the state of the reader on by its name and value. -/
theorem takes_written (h : SafeKey name) (value : Value)
    (haccept : p.state.accept mode (!p.isStarted) (utf8 name ++ valueBytes value) = .ok state) :
    Takes mode (Utf8.encode (lineChars name value)) p ⟨state, true, p.records⟩ := by
  obtain ⟨rest, hrest, hbytes, hend, hcr⟩ := written_ends name value
  rw [hrest] at haccept
  rw [hbytes]
  exact takes_nameLine h hend hcr haccept

/-- A line that is written for a marked name is a comment. -/
theorem takes_marked (hmark : isMarked name = true) (hname : '\n' ∉ name.toList) (value : Value) :
    Takes mode (Utf8.encode (lineChars name value)) p p := by
  obtain ⟨rest, -, hbytes, hend, hcr⟩ := written_ends name value
  obtain ⟨hline, hlast⟩ := nameLine_ends hname hend hcr
  rw [hbytes]
  refine takes_comment ?_ hline hlast
  obtain ⟨cs, hcs⟩ := List.head?_eq_some_iff.mp (beq_iff_eq.mp hmark)
  rw [utf8, hcs, Utf8.encode_cons]
  rfl

end Ldif
end DirectoryStore
