import Mathlib.Control.Monad.Basic
import DirectoryStore.Proofs.Ldif.Layout

/-!
# Documents one after another

Behind a document that ends with a blank line a reader is between records and holds nothing back.
All that it has kept are the records, the number of lines, and that a first line has been read.
So what follows is read as a document of its own: its records come behind those before, and what
is wrong with it is reported as many lines later as there are before it.  Only a line that tells
the version has to be the first one.
-/

namespace DirectoryStore

/-- The error `n` lines later. -/
def LdifError.later (n : Nat) (e : LdifError) : LdifError :=
  { e with line := e.line + n }

@[simp] theorem LdifError.violation_later (n : Nat) (e : LdifError) :
    (e.later n).violation = e.violation := rfl

theorem LdifError.line?_later (n : Nat) (e : LdifError) :
    (e.later n).line? = e.line?.map (· + n) := by
  obtain ⟨line, violation⟩ := e
  cases violation <;> rfl

namespace Ldif

/-- The lines of a document without their line ends.  What comes after the last line end is a line
    as well, unless there is nothing. -/
def physicalLines : Bytes → List Bytes
  | [] => []
  | b :: bs =>
      if b = 0x0A then [] :: physicalLines bs
      else match physicalLines bs with
        | [] => [[b]]
        | line :: lines => (b :: line) :: lines

/-- What a line is continued by when the given ones come next, and the logical lines after it. -/
def joinLines : List Bytes → Bytes × List Bytes
  | [] => ([], [])
  | line :: lines =>
      match line with
      | [] => ([], (joinLines lines).2)
      | 0x20 :: text => (text ++ (joinLines lines).1, (joinLines lines).2)
      | line => ([], (line ++ (joinLines lines).1) :: (joinLines lines).2)

/-- The logical lines of a document, those left out that continue nothing. -/
def logicalLines (doc : Bytes) : List Bytes :=
  (joinLines ((physicalLines doc).map Reader.withoutReturn)).2

/-- Whether a logical line tells the version. -/
def isVersionLine (line : Bytes) : Bool :=
  match splitLine line with
  | .ok (name, _) => sameIgnoringCase name "version"
  | .error _ => false

/-- Whether the first of some logical lines that is no comment tells the version. -/
def versionFirst (lines : List Bytes) : Bool :=
  (lines.find? fun line => line.head? ≠ some 0x23).any isVersionLine

/-- Documents that are empty or end with a blank line, with or without a carriage return before
    its line end. -/
inductive Closed : Bytes → Prop where
  | empty : Closed []
  | blank {front line : Bytes} (hfront : ∀ b ∈ front.getLast?, b = 0x0A)
      (hline : line = [] ∨ line = [0x0D]) : Closed (front ++ (line ++ [0x0A]))

variable {front back line rest : Bytes}

theorem physicalLines_line (h : 0x0A ∉ line) (rest : Bytes) :
    physicalLines (line ++ 0x0A :: rest) = line :: physicalLines rest := by
  induction line with
  | nil => rfl
  | cons b line ih =>
      rw [List.mem_cons, not_or] at h
      rw [List.cons_append, physicalLines, if_neg (Ne.symm h.1), ih h.2]

theorem physicalLines_unended (h : 0x0A ∉ line) (hne : line ≠ []) :
    physicalLines line = [line] := by
  induction line with
  | nil => exact absurd rfl hne
  | cons b line ih =>
      rw [List.mem_cons, not_or] at h
      rw [physicalLines, if_neg (Ne.symm h.1)]
      by_cases hline : line = []
      · rw [hline]
        rfl
      · rw [ih h.2 hline]

namespace Reader

variable {r r' : Reader} {α β γ δ : Type}

/-! ## The same lines later in a document -/

/-- The reader `n` lines later. -/
def later (n : Nat) (r : Reader) : Reader :=
  { r with
    lines := r.lines + n
    pending := r.pending.map fun line => { line with number := line.number + n } }

/-- The outcome of what is read `n` lines later, where `f` tells how results change. -/
def displaced (n : Nat) (f : α → β) (x : Except LdifError α) : Except LdifError β :=
  (x.map f).mapError (·.later n)

theorem displaced_bind {n : Nat} {f : α → β} {g : γ → δ} {x : Except LdifError α}
    {k : α → Except LdifError γ} {k' : β → Except LdifError δ}
    (h : ∀ a, k' (f a) = displaced n g (k a)) :
    displaced n f x >>= k' = displaced n g (x >>= k) := by
  cases x with
  | error e => rfl
  | ok a => exact h a

theorem logicalLine_later (n : Nat) (r : Reader) (line : LogicalLine) :
    (r.later n).logicalLine { line with number := line.number + n } =
      displaced n (later n) (r.logicalLine line) := by
  unfold logicalLine
  split
  · rfl
  · cases h : r.state.accept r.mode (!r.isStarted) line.bytes <;> simp only [later, h] <;> rfl

theorem flush_later (n : Nat) (r : Reader) :
    (r.later n).flush = displaced n (later n) r.flush := by
  cases h : r.pending with
  | none =>
      rw [flush_of_none h, flush_of_none]
      · rfl
      · rw [later, h, Option.map_none]
  | some line =>
      simp only [flush, later, h, Option.map_some]
      exact logicalLine_later n { r with pending := none } line

theorem endRecord_later (n number : Nat) (r : Reader) :
    (r.later n).endRecord (number + n) = displaced n (later n) (r.endRecord number) := by
  cases h : r.state.complete <;> simp only [endRecord, later, h] <;> rfl

theorem physicalLine_later (n number : Nat) (bytes : Bytes) (r : Reader) :
    (r.later n).physicalLine (number + n) bytes =
      displaced n (later n) (r.physicalLine number bytes) := by
  unfold physicalLine
  split
  · rw [flush_later]
    exact displaced_bind fun r' => endRecord_later n number r'
  · cases h : r.pending <;> simp only [later, h, Option.map_none, Option.map_some] <;> rfl
  · rw [flush_later]
    exact displaced_bind fun r' => rfl

theorem endLine_later (n : Nat) (bytes : Bytes) (r : Reader) :
    (r.later n).endLine bytes = displaced n (later n) (r.endLine bytes) := by
  have h := physicalLine_later n (r.lines + 1) (withoutReturn bytes)
    { r with unended := [], lines := r.lines + 1 }
  rw [Nat.add_right_comm] at h
  rw [endLine, endLine, ← h]
  simp only [later, Nat.add_right_comm]

theorem close_later (n : Nat) (r : Reader) : (r.later n).close = displaced n id r.close := by
  rw [close, close, flush_later]
  refine displaced_bind fun r' => ?_
  unfold conclude
  split
  · rename_i hidle
    rw [if_pos (show r'.state = .idle from hidle)]
    rfl
  · rename_i hopen
    rw [if_neg (show ¬ r'.state = .idle from hopen)]
    rfl

theorem readOn_later (n : Nat) (rest : Bytes) (r : Reader) :
    (r.later n).readOn rest = displaced n id (r.readOn rest) := by
  induction rest using buffer_induction generalizing r with
  | unended rest hline =>
      by_cases hne : rest = []
      · rw [hne, readOn_nil, readOn_nil]
        exact close_later n { r with unended := [] }
      · rw [readOn_end hline hne, readOn_end hline hne, endLine_later]
        exact displaced_bind fun r' => close_later n r'
  | line line rest hline ih =>
      rw [readOn_line hline, readOn_line hline, endLine_later]
      exact displaced_bind fun r' => ih r'

theorem readOn_behind (earlier : List Record) (rest : Bytes) (r : Reader) :
    (behind earlier r).readOn rest = (r.readOn rest).map (earlier ++ ·) := by
  rw [readOn, readOn, takeLines_behind]
  cases r.takeLines rest with
  | error e => rfl
  | ok r' => exact finish_behind earlier r'

/-! ## The first line -/

/-- The logical lines that a reader has ahead of it, with the one that it holds back. -/
def ahead (r : Reader) (lines : List Bytes) : List Bytes :=
  match r.pending with
  | none => (joinLines lines).2
  | some held => (held.bytes ++ (joinLines lines).1) :: (joinLines lines).2

/-- Between records only a version line is not taken in as the first one as it is later. -/
theorem accept_notFirst {line : Bytes} (h : isVersionLine line = false) (mode : Mode)
    (isFirst : Bool) :
    RecordState.idle.accept mode isFirst line = RecordState.idle.accept mode false line := by
  rw [isVersionLine] at h
  rw [RecordState.accept, RecordState.accept]
  cases hsplit : splitLine line with
  | error v => rfl
  | ok found =>
      rw [hsplit] at h
      simp only [bind, Except.bind, RecordState.acceptFirst, h, Bool.and_false, Bool.false_eq_true,
        if_false]

theorem versionFirst_comment {line : Bytes} {lines : List Bytes} (h : line.head? = some 0x23) :
    versionFirst (line :: lines) = versionFirst lines := by
  rw [versionFirst, versionFirst, List.find?_cons_of_neg (by simp [h])]

theorem versionFirst_line {line : Bytes} {lines : List Bytes} (h : line.head? ≠ some 0x23) :
    versionFirst (line :: lines) = isVersionLine line := by
  rw [versionFirst, List.find?_cons_of_pos (by simp [h]), Option.any_some]

/-- To take in what is held back makes readers equal that differ in whether a line has been read,
    or leaves them with that difference. -/
theorem flush_started {lines : List Bytes} (hidle : r.state = .idle)
    (hmore : (joinLines lines).1 = []) (h : versionFirst (r.ahead lines) = false) :
    { r with isStarted := true }.flush = r.flush ∨
      (r.flush = .ok { r with pending := none } ∧
        { r with isStarted := true }.flush = .ok { r with pending := none, isStarted := true } ∧
        versionFirst (joinLines lines).2 = false) := by
  obtain ⟨mode, unended, number, isStarted, pending, state, records⟩ := r
  obtain rfl : state = .idle := hidle
  cases pending with
  | none => exact .inr ⟨rfl, rfl, h⟩
  | some held =>
      simp only [ahead, hmore, List.append_nil] at h
      by_cases hmark : held.bytes.head? = some 0x23
      · rw [versionFirst_comment hmark] at h
        refine .inr ⟨?_, ?_, h⟩ <;> simp only [flush, logicalLine, if_pos hmark]
      · rw [versionFirst_line hmark] at h
        refine .inl ?_
        simp only [flush, logicalLine, if_neg hmark, Bool.not_true]
        rw [accept_notFirst h mode (!isStarted)]

theorem joinLines_continued (text : Bytes) (lines : List Bytes) :
    joinLines ((0x20 :: text) :: lines) = (text ++ (joinLines lines).1, (joinLines lines).2) := rfl

theorem joinLines_begun {line : Bytes} (h : line.head? ≠ some 0x20) (hne : line ≠ [])
    (lines : List Bytes) :
    joinLines (line :: lines) = ([], (line ++ (joinLines lines).1) :: (joinLines lines).2) := by
  rw [joinLines]
  · exact hne
  · rintro text rfl
    exact h rfl

theorem joinLines_of_head {line : Bytes} (h : line.head? ≠ some 0x20) (lines : List Bytes) :
    (joinLines (line :: lines)).1 = [] := by
  by_cases hne : line = []
  · rw [hne]
    rfl
  · rw [joinLines_begun h hne]

/-- So does a line, as long as the first line that is no comment does not tell the version. -/
theorem physicalLine_started {lines : List Bytes} {line : Bytes} (hidle : r.state = .idle)
    (h : versionFirst (r.ahead (line :: lines)) = false) (n : Nat) :
    { r with isStarted := true }.physicalLine n line = r.physicalLine n line ∨
      ∃ r', r.physicalLine n line = .ok r' ∧
        { r with isStarted := true }.physicalLine n line = .ok { r' with isStarted := true } ∧
        r'.state = .idle ∧ versionFirst (r'.ahead lines) = false := by
  by_cases hhead : line.head? = some 0x20
  · obtain ⟨text, rfl⟩ := List.head?_eq_some_iff.mp hhead
    cases hpending : r.pending with
    | none =>
        refine .inl ?_
        simp only [physicalLine, hpending]
    | some held =>
        refine .inr ⟨{ r with pending := some ⟨held.number, held.bytes ++ text⟩ }, ?_, ?_, hidle,
          ?_⟩
        · simp only [physicalLine, hpending]
        · simp only [physicalLine]
        · simp only [ahead, hpending, joinLines_continued] at h
          simpa only [ahead, List.append_assoc] using h
  · rw [physicalLine_eq hhead, physicalLine_eq hhead]
    rcases flush_started hidle (joinLines_of_head hhead lines) h with
      hsame | ⟨hflush, hflush', hrest⟩
    · rw [hsame]
      exact .inl rfl
    · rw [hflush, hflush']
      refine .inr ?_
      by_cases hne : line = []
      · subst hne
        refine ⟨{ r with pending := none }, ?_, ?_, hidle, hrest⟩
        · simp only [bind, Except.bind, beginLine, if_true, endRecord, hidle, RecordState.complete,
            Option.toList_none, List.append_nil]
        · simp only [bind, Except.bind, beginLine, if_true, endRecord, hidle, RecordState.complete,
            Option.toList_none, List.append_nil]
      · rw [joinLines_begun hhead hne] at hrest
        refine ⟨{ r with pending := some ⟨n, line⟩ }, ?_, ?_, hidle, hrest⟩
        · simp only [bind, Except.bind, beginLine, if_neg hne]
        · simp only [bind, Except.bind, beginLine, if_neg hne]

theorem close_started (hidle : r.state = .idle) (h : versionFirst (r.ahead []) = false) :
    { r with isStarted := true }.close = r.close := by
  rw [close, close]
  rcases flush_started hidle rfl h with hsame | ⟨hflush, hflush', -⟩
  · rw [hsame]
  · rw [hflush, hflush']
    rfl

/-- Whether a line has been read before does not matter for what does not begin with a version. -/
theorem readOn_started {rest : Bytes} (hidle : r.state = .idle)
    (h : versionFirst (r.ahead ((physicalLines rest).map withoutReturn)) = false) :
    { r with isStarted := true }.readOn rest = r.readOn rest := by
  induction rest using buffer_induction generalizing r with
  | unended rest hline =>
      by_cases hne : rest = []
      · subst hne
        rw [readOn_nil, readOn_nil]
        exact close_started (r := { r with unended := [] }) hidle h
      · rw [physicalLines_unended hline hne] at h
        rw [readOn_end hline hne, readOn_end hline hne, endLine, endLine]
        rcases physicalLine_started (r := { r with unended := [], lines := r.lines + 1 }) hidle h
          (r.lines + 1) with hsame | ⟨r', hr, hr', hidle', h'⟩
        · rw [hsame]
        · rw [hr, hr']
          exact close_started hidle' h'
  | line line rest hline ih =>
      rw [physicalLines_line hline] at h
      rw [readOn_line hline, readOn_line hline, endLine, endLine]
      rcases physicalLine_started (r := { r with unended := [], lines := r.lines + 1 }) hidle h
        (r.lines + 1) with hsame | ⟨r', hr, hr', hidle', h'⟩
      · rw [hsame]
      · rw [hr, hr']
        exact ih hidle' h'

/-! ## Behind a blank line -/

theorem flush_keeps (h : r.flush = .ok r') : r'.mode = r.mode ∧ r'.lines = r.lines := by
  obtain ⟨mode, unended, number, isStarted, pending, state, records⟩ := r
  cases pending with
  | none =>
      cases h
      exact ⟨rfl, rfl⟩
  | some held =>
      simp only [flush, logicalLine] at h
      split at h
      · cases h
        exact ⟨rfl, rfl⟩
      · split at h
        · cases h
        · cases h
          exact ⟨rfl, rfl⟩

theorem endRecord_eq_ok {n : Nat} (h : r.endRecord n = .ok r') :
    r'.state = .idle ∧ r'.pending = r.pending ∧ r'.mode = r.mode ∧ r'.lines = r.lines := by
  rw [endRecord] at h
  split at h
  · cases h
  · cases h
    exact ⟨rfl, rfl, rfl, rfl⟩

theorem endLine_keeps {line : Bytes} (h : r.endLine line = .ok r') :
    r'.mode = r.mode ∧ r'.lines = r.lines + 1 := by
  by_cases hhead : (withoutReturn line).head? = some 0x20
  · obtain ⟨text, htext⟩ := List.head?_eq_some_iff.mp hhead
    rw [endLine, htext, physicalLine] at h
    split at h
    · cases h
    · cases h
      exact ⟨rfl, rfl⟩
  · rw [endLine, physicalLine_eq hhead] at h
    obtain ⟨r₁, hflush, h⟩ := bind_eq_ok h
    obtain ⟨hmode, hlines⟩ := flush_keeps hflush
    rw [beginLine] at h
    split at h
    · obtain ⟨-, -, hmode', hlines'⟩ := endRecord_eq_ok h
      exact ⟨hmode'.trans hmode, hlines'.trans hlines⟩
    · cases h
      exact ⟨hmode, hlines⟩

/-- A blank line ends the record and leaves nothing held back. -/
theorem endLine_blank {line : Bytes} (hline : withoutReturn line = [])
    (h : r.endLine line = .ok r') : r'.state = .idle ∧ r'.pending = none := by
  rw [endLine, hline, physicalLine] at h
  obtain ⟨r₁, hflush, h⟩ := bind_eq_ok h
  obtain ⟨hidle, hpending, -⟩ := endRecord_eq_ok h
  exact ⟨hidle, hpending.trans (pending_flush hflush)⟩

/-- Lines that are all ended are counted, and leave nothing for the next chunk. -/
theorem takeLines_ended {buffer : Bytes} (hended : ∀ b ∈ buffer.getLast?, b = 0x0A)
    (h : r.takeLines buffer = .ok r') :
    r'.mode = r.mode ∧ r'.unended = [] ∧ r'.lines = r.lines + (physicalLines buffer).length := by
  induction buffer using buffer_induction generalizing r with
  | unended buffer hline =>
      have hempty : buffer = [] := by
        rw [← List.getLast?_eq_none_iff, Option.eq_none_iff_forall_not_mem]
        intro b hb
        exact hline (hended b hb ▸ List.mem_of_getLast? hb)
      subst hempty
      rw [takeLines_unended hline] at h
      cases h
      exact ⟨rfl, rfl, rfl⟩
  | line line rest hline ih =>
      have hrest : ∀ b ∈ rest.getLast?, b = 0x0A := by
        intro b hb
        refine hended b ?_
        rw [List.getLast?_append, List.getLast?_cons, Option.mem_def.mp hb]
        rfl
      rw [takeLines_line hline] at h
      obtain ⟨r₁, hend, h⟩ := bind_eq_ok h
      obtain ⟨hmode, hlines⟩ := endLine_keeps hend
      obtain ⟨hmode', hunended, hlines'⟩ := ih hrest h
      refine ⟨hmode'.trans hmode, hunended, ?_⟩
      rw [hlines', hlines, physicalLines_line hline, List.length_cons]
      omega

end Reader

/-- What a reader keeps of a document that it has read to the end, up to a blank line. -/
theorem Closed.takeLines_eq {doc : Bytes} {mode : Mode} {records : List Record} (h : Closed doc)
    (hread : read mode doc = .ok records) :
    ∃ isStarted, (Reader.start mode).takeLines doc =
      .ok ⟨mode, [], (physicalLines doc).length, isStarted, none, .idle, records⟩ := by
  rw [read_eq] at hread
  obtain ⟨r, htake, hfinish⟩ := bind_eq_ok hread
  have hended : ∀ b ∈ doc.getLast?, b = 0x0A := by
    cases h with
    | empty => nofun
    | blank => simp
  obtain ⟨hmode, hunended, hlines⟩ := Reader.takeLines_ended hended htake
  have hbetween : r.state = .idle ∧ r.pending = none := by
    cases h with
    | empty =>
        rw [Reader.takeLines_unended List.not_mem_nil] at htake
        cases htake
        exact ⟨rfl, rfl⟩
    | @blank front line hfront hline =>
        rw [Reader.takeLines_append] at htake
        obtain ⟨r₀, hfront', htake⟩ := bind_eq_ok htake
        obtain ⟨-, hnone, -⟩ := Reader.takeLines_ended hfront hfront'
        have hblank : 0x0A ∉ line ∧ Reader.withoutReturn line = [] := by
          rcases hline with rfl | rfl <;> decide
        rw [hnone, List.nil_append, Reader.takeLines_line hblank.1] at htake
        obtain ⟨r₁, hend, htake⟩ := bind_eq_ok htake
        obtain ⟨hidle, hpending⟩ := Reader.endLine_blank hblank.2 hend
        rw [Reader.takeLines_unended List.not_mem_nil] at htake
        cases htake
        exact ⟨hidle, hpending⟩
  obtain ⟨mode', unended, lines, isStarted, pending, state, found⟩ := r
  obtain ⟨rfl, rfl⟩ := hbetween
  obtain rfl : mode' = mode := hmode
  obtain rfl : unended = [] := hunended
  obtain rfl : lines = 0 + _ := hlines
  cases hfinish
  exact ⟨isStarted, by rw [htake, Nat.zero_add]⟩

/-- A document that is read behind one that ends with a blank line gives its records behind those
    of the first one.  If it is violated, then so is the whole, with the same error as many lines
    later as the first document has. -/
theorem read_closed_append {front back : Bytes} {mode : Mode} {records : List Record}
    (hclosed : Closed front) (hfront : read mode front = .ok records)
    (hback : versionFirst (logicalLines back) = false) :
    read mode (front ++ back) =
      ((read mode back).map (records ++ ·)).mapError (·.later (physicalLines front).length) := by
  obtain ⟨isStarted, htake⟩ := hclosed.takeLines_eq hfront
  have hstart :
      { Reader.start mode with isStarted }.readOn back = (Reader.start mode).readOn back := by
    cases isStarted with
    | false => rfl
    | true => exact Reader.readOn_started rfl hback
  have hrest := Reader.readOn_behind records back
    ({ Reader.start mode with isStarted }.later (physicalLines front).length)
  rw [Reader.readOn_later, hstart] at hrest
  have hresume : Reader.behind records
      ({ Reader.start mode with isStarted }.later (physicalLines front).length) =
        ⟨mode, [], (physicalLines front).length, isStarted, none, .idle, records⟩ := by
    simp [Reader.behind, Reader.later, Reader.start]
  calc read mode (front ++ back)
      = (⟨mode, [], (physicalLines front).length, isStarted, none, .idle, records⟩ : Reader).readOn
          back := by
        rw [read_eq, Reader.takeLines_append, htake]
        rfl
    _ = (Reader.displaced (physicalLines front).length id (read mode back)).map (records ++ ·) := by
        rw [← hresume, hrest, read_eq]
        rfl
    _ = ((read mode back).map (records ++ ·)).mapError (·.later (physicalLines front).length) := by
        cases read mode back <;> rfl

/-- Two documents, the second of which begins with a comment of two lines and is violated in its
    fifth line. -/
theorem read_closed_append_commented :
    let front := utf8 "version: 1\n\ndn: cn=a\nchangetype: delete\n" ++ ([0x0D] ++ [0x0A])
    let back := utf8 "#\n version: 1\ndn: cn=b\nchangetype: delete\nsn: x\n"
    let records := [Record.change (.delete ⟨[Rdn.single "cn" "a"]⟩)]
    Closed front ∧ read .changes front = .ok records ∧ versionFirst (logicalLines back) = false ∧
      read .changes back = .error ⟨5, .deletionWithBody⟩ ∧
      read .changes (front ++ back) =
        ((read .changes back).map (records ++ ·)).mapError
          (·.later (physicalLines front).length) := by
  intro front back records
  have hclosed : Closed front := .blank (by decide +kernel) (.inr rfl)
  have hfront : read .changes front = .ok records := by decide +kernel
  have hback : versionFirst (logicalLines back) = false := by decide +kernel
  exact ⟨hclosed, hfront, hback, by decide +kernel, read_closed_append hclosed hfront hback⟩

end Ldif
end DirectoryStore
