import Mathlib.Logic.Relation
import DirectoryStore.Proofs.Ldif.Chunks

/-!
# The layout of documents

One document can be laid out in many ways: its lines folded at any place, even inside a
character, carriage returns before its line feeds, comments between its lines.  Readers of two
layouts count their lines differently and hold back the same logical line in other pieces, but
between logical lines they agree.  So the records are the same, or the first violation is, but
for the line that it is reported at.
-/

namespace DirectoryStore
namespace Ldif

/-- A comment: a line that starts with a number sign, and lines that continue it. -/
inductive Comment : Bytes → Prop
  | line {text : Bytes} (h : 0x0A ∉ text) : Comment (0x23 :: (text ++ [0x0A]))
  | continued {comment text : Bytes} (hs : Comment comment) (h : 0x0A ∉ text) :
      Comment (comment ++ 0x20 :: (text ++ [0x0A]))

/-- The document with a carriage return before each line feed. -/
def withReturns (doc : Bytes) : Bytes :=
  doc.flatMap fun b => if b = 0x0A then [0x0D, 0x0A] else [b]

/-- A change of the layout of a document. -/
inductive Relaid : Bytes → Bytes → Prop
  /-- A line is folded behind any byte of it that is no carriage return. -/
  | fold {front back : Bytes} {b : UInt8} (hline : b ≠ 0x0A) (hreturn : b ≠ 0x0D) :
      Relaid (front ++ b :: back) (front ++ b :: 0x0A :: 0x20 :: back)
  /-- Carriage returns are put before the line feeds, where there were none. -/
  | returns {doc : Bytes} (h : ¬ [0x0D, 0x0A] <:+: doc) : Relaid doc (withReturns doc)
  /-- A comment is put between two lines, the second of which is not continued, or at either end
      of the document. -/
  | comment {front text back : Bytes} (hfront : ∀ b ∈ front.getLast?, b = 0x0A)
      (hback : back.head? ≠ some 0x20) (h : Comment text) :
      Relaid (front ++ back) (front ++ (text ++ back))

/-- Outcomes that agree but for the lines of violations. -/
inductive Agree {α β : Type} (R : α → β → Prop) :
    Except LdifError α → Except LdifError β → Prop
  | ok {a : α} {b : β} (h : R a b) : Agree R (.ok a) (.ok b)
  | error {e f : LdifError} (h : e.violation = f.violation) : Agree R (.error e) (.error f)

namespace Agree

variable {α β γ δ : Type} {R : α → β → Prop} {S : γ → δ → Prop}
variable {x y z : Except LdifError α} {f : α → Except LdifError γ} {g : β → Except LdifError δ}

theorem refl (x : Except LdifError α) : Agree Eq x x := by
  cases x with
  | ok a => exact .ok rfl
  | error e => exact .error rfl

theorem symm (h : Agree Eq x y) : Agree Eq y x := by
  cases h with
  | ok h => exact .ok h.symm
  | error h => exact .error h.symm

theorem trans (hxy : Agree Eq x y) (hyz : Agree Eq y z) : Agree Eq x z := by
  cases hxy with
  | ok h =>
      cases hyz with
      | ok h' => exact .ok (h.trans h')
  | error h =>
      cases hyz with
      | error h' => exact .error (h.trans h')

theorem bind {y : Except LdifError β} (hxy : Agree R x y)
    (h : ∀ a b, R a b → Agree S (f a) (g b)) : Agree S (x >>= f) (y >>= g) := by
  cases hxy with
  | ok hab => exact h _ _ hab
  | error he => exact .error he

theorem mapError_eq (h : Agree Eq x y) :
    x.mapError LdifError.violation = y.mapError LdifError.violation := by
  cases h with
  | ok h => rw [h]
  | error h => exact congrArg Except.error h

end Agree

namespace Reader

variable {r r' : Reader} {bs line more back comment : Bytes} {b : UInt8} {m n : Nat}

/-- Readers that differ only in how they count lines, and in what they keep of a line that is not
    ended. -/
structure Alike (r r' : Reader) : Prop where
  mode : r.mode = r'.mode
  isStarted : r.isStarted = r'.isStarted
  pending : r.pending.map LogicalLine.bytes = r'.pending.map LogicalLine.bytes
  state : r.state = r'.state
  records : r.records = r'.records

theorem Alike.refl (r : Reader) : Alike r r :=
  ⟨rfl, rfl, rfl, rfl, rfl⟩

/-! ## Readers that are alike stay alike -/

theorem Alike.flush (h : Alike r r') : Agree Alike r.flush r'.flush := by
  obtain ⟨mode, unended, lines, isStarted, pending, state, records⟩ := r
  obtain ⟨mode', unended', lines', isStarted', pending', state', records'⟩ := r'
  obtain ⟨rfl, rfl, hpending, rfl, rfl⟩ := h
  cases pending with
  | none =>
      cases pending' with
      | none => exact .ok ⟨rfl, rfl, rfl, rfl, rfl⟩
      | some line' => cases hpending
  | some line =>
      cases pending' with
      | none => cases hpending
      | some line' =>
          obtain ⟨number, bytes⟩ := line
          obtain ⟨number', bytes'⟩ := line'
          cases hpending
          simp only [Reader.flush, logicalLine]
          split
          · exact .ok ⟨rfl, rfl, rfl, rfl, rfl⟩
          · cases RecordState.accept mode (!isStarted) bytes state with
            | error v => exact .error rfl
            | ok state' => exact .ok ⟨rfl, rfl, rfl, rfl, rfl⟩

theorem Alike.endRecord (h : Alike r r') (m n : Nat) :
    Agree Alike (r.endRecord m) (r'.endRecord n) := by
  rw [Reader.endRecord, Reader.endRecord, h.state]
  cases r'.state.complete with
  | error v => exact .error rfl
  | ok record => exact .ok ⟨h.mode, h.isStarted, h.pending, rfl, by rw [h.records]⟩

/-- Takes in a line that continues nothing, once the line before it is taken in. -/
def beginLine (r : Reader) (number : Nat) (line : Bytes) : Except LdifError Reader :=
  if line = [] then r.endRecord number else .ok { r with pending := some ⟨number, line⟩ }

theorem physicalLine_eq (h : line.head? ≠ some 0x20) (n : Nat) (r : Reader) :
    r.physicalLine n line = r.flush >>= fun r' => r'.beginLine n line := by
  unfold physicalLine
  split
  · rfl
  · exact absurd rfl h
  · rename_i hne _
    simp only [beginLine, if_neg hne]
    rfl

theorem Alike.beginLine (h : Alike r r') (m n : Nat) (line : Bytes) :
    Agree Alike (r.beginLine m line) (r'.beginLine n line) := by
  unfold Reader.beginLine
  split
  · exact h.endRecord m n
  · exact .ok ⟨h.mode, h.isStarted, rfl, h.state, h.records⟩

theorem Alike.physicalLine (h : Alike r r') (m n : Nat) (line : Bytes) :
    Agree Alike (r.physicalLine m line) (r'.physicalLine n line) := by
  by_cases hhead : line.head? = some 0x20
  · obtain ⟨rest, rfl⟩ := List.head?_eq_some_iff.mp hhead
    have hpending := h.pending
    rw [Reader.physicalLine, Reader.physicalLine]
    cases hr : r.pending with
    | none =>
        cases hr' : r'.pending with
        | none => exact .error rfl
        | some held' =>
            rw [hr, hr'] at hpending
            cases hpending
    | some held =>
        cases hr' : r'.pending with
        | none =>
            rw [hr, hr'] at hpending
            cases hpending
        | some held' =>
            rw [hr, hr'] at hpending
            have hbytes : held.bytes = held'.bytes := Option.some.inj hpending
            exact .ok ⟨h.mode, h.isStarted, by simp [hbytes], h.state, h.records⟩
  · rw [physicalLine_eq hhead, physicalLine_eq hhead]
    exact h.flush.bind fun _ _ h => h.beginLine m n line

/-- What is kept of a line that is not ended, and how many are, does not matter. -/
theorem Alike.restart (h : Alike r r') (bs bs' : Bytes) (m n : Nat) :
    Alike { r with unended := bs, lines := m } { r' with unended := bs', lines := n } :=
  ⟨h.mode, h.isStarted, h.pending, h.state, h.records⟩

theorem Alike.endLine (h : Alike r r') (bs : Bytes) : Agree Alike (r.endLine bs) (r'.endLine bs) :=
  (h.restart [] [] _ _).physicalLine _ _ _

/-! ## The rest of a document -/

/-- Reads the rest of a document, from the beginning of a line on. -/
def readOn (r : Reader) (rest : Bytes) : Except LdifError (List Record) :=
  r.takeLines rest >>= finish

/-- Hands over the records that are left, outside of a record. -/
def conclude (r : Reader) : Except LdifError (List Record) :=
  if r.state = .idle then .ok r.records else .error ⟨r.lines, .endsInsideRecord⟩

/-- Takes in the line that is held back, as the last one of a document. -/
def close (r : Reader) : Except LdifError (List Record) :=
  r.flush >>= conclude

theorem readOn_nil (r : Reader) : r.readOn [] = { r with unended := [] }.close := by
  rw [readOn, takeLines_unended List.not_mem_nil]
  rfl

/-- A line counts at the end of a document, too, where it is not ended. -/
theorem readOn_end (h : 0x0A ∉ line) (hne : line ≠ []) (r : Reader) :
    r.readOn line = r.endLine line >>= close := by
  rw [readOn, takeLines_unended h]
  simp only [bind, Except.bind, finish, List.isEmpty_eq_false_iff.mpr hne, Bool.false_eq_true,
    if_false]
  rfl

theorem readOn_line (h : 0x0A ∉ line) (r : Reader) (rest : Bytes) :
    r.readOn (line ++ 0x0A :: rest) = r.endLine line >>= fun r' => r'.readOn rest := by
  rw [readOn, takeLines_line h]
  cases r.endLine line <;> rfl

theorem Alike.conclude (h : Alike r r') : Agree Eq r.conclude r'.conclude := by
  rw [Reader.conclude, Reader.conclude, h.state, h.records]
  split
  · exact .ok rfl
  · exact .error rfl

theorem Alike.close (h : Alike r r') : Agree Eq r.close r'.close :=
  h.flush.bind fun _ _ h => h.conclude

theorem Alike.readOn (h : Alike r r') (rest : Bytes) :
    Agree Eq (r.readOn rest) (r'.readOn rest) := by
  induction rest using buffer_induction generalizing r r' with
  | unended rest hline =>
      by_cases hne : rest = []
      · rw [hne, readOn_nil, readOn_nil]
        exact (h.restart [] [] _ _).close
      · rw [readOn_end hline hne, readOn_end hline hne]
        exact (h.endLine rest).bind fun _ _ h => h.close
  | line line rest hline ih =>
      rw [readOn_line hline, readOn_line hline]
      exact (h.endLine line).bind fun _ _ h => ih h

/-! ## Folded lines -/

theorem withoutReturn_append (hreturn : line.getLast? ≠ some 0x0D) (more : Bytes) :
    withoutReturn (line ++ more) = line ++ withoutReturn more := by
  unfold withoutReturn
  cases more with
  | nil => simp [hreturn]
  | cons b more =>
      rw [List.getLast?_append, List.getLast?_cons, Option.some_or, List.dropLast_append_cons]
      split <;> rfl

/-- What a line is continued by is put behind it, with or without a fold between them. -/
theorem physicalLine_continued (hne : line ≠ []) (more : Bytes) (m n : Nat) :
    Agree Alike
      (r.physicalLine m line >>= fun r' =>
        { r' with unended := [], lines := r'.lines + 1 }.physicalLine (r'.lines + 1)
          (0x20 :: more))
      (r.physicalLine n (line ++ more)) := by
  obtain ⟨b, line, rfl⟩ := List.exists_cons_of_ne_nil hne
  by_cases hb : b = 0x20
  · subst hb
    rw [physicalLine, List.cons_append, physicalLine]
    cases r.pending with
    | none => exact .error rfl
    | some held =>
        refine .ok ⟨rfl, rfl, ?_, rfl, rfl⟩
        simp
  · have hhead : ∀ bs : Bytes, (b :: bs).head? ≠ some 0x20 := fun _ he => hb (Option.some.inj he)
    rw [List.cons_append, physicalLine_eq (hhead _), physicalLine_eq (hhead _)]
    cases r.flush with
    | error e => exact .error rfl
    | ok r' => exact .ok ⟨rfl, rfl, rfl, rfl, rfl⟩

theorem endLine_folded (hne : line ≠ []) (hreturn : line.getLast? ≠ some 0x0D) (more : Bytes) :
    Agree Alike (r.endLine line >>= fun r' => r'.endLine (0x20 :: more))
      (r.endLine (line ++ more)) := by
  have hspace : withoutReturn (0x20 :: more) = 0x20 :: withoutReturn more :=
    @withoutReturn_append [0x20] (by decide) more
  have hline : withoutReturn line = line := if_neg hreturn
  simp only [endLine, hline, hspace, withoutReturn_append hreturn]
  exact physicalLine_continued hne _ _ _

/-- A fold in the first line, the rest of which may or may not be ended. -/
theorem readOn_folded_head (hline : 0x0A ∉ line) (hne : line ≠ [])
    (hreturn : line.getLast? ≠ some 0x0D) (back : Bytes) (r : Reader) :
    Agree Eq (r.readOn (line ++ 0x0A :: 0x20 :: back)) (r.readOn (line ++ back)) := by
  rw [readOn_line hline]
  rcases buffer_cases back with hback | ⟨more, back, hmore, rfl⟩
  · have hspace : 0x0A ∉ 0x20 :: back := by simp [hback]
    have hwhole : 0x0A ∉ line ++ back := by simp [hline, hback]
    rw [readOn_end hwhole (List.append_ne_nil_of_left_ne_nil hne back)]
    simp only [readOn_end hspace nofun, ← bind_assoc]
    exact (endLine_folded hne hreturn back).bind fun _ _ h => h.close
  · have hspace : 0x0A ∉ 0x20 :: more := by simp [hmore]
    have hwhole : 0x0A ∉ line ++ more := by simp [hline, hmore]
    rw [← List.append_assoc, readOn_line hwhole]
    simp only [← List.cons_append, readOn_line hspace, ← bind_assoc]
    exact (endLine_folded hne hreturn more).bind fun _ _ h => h.readOn back

theorem readOn_folded (hline : b ≠ 0x0A) (hreturn : b ≠ 0x0D) (front back : Bytes) (r : Reader) :
    Agree Eq (r.readOn (front ++ b :: 0x0A :: 0x20 :: back)) (r.readOn (front ++ b :: back)) := by
  induction front using buffer_induction generalizing r with
  | unended front hfront =>
      have hhead : 0x0A ∉ front ++ [b] := by simp [hfront, Ne.symm hline]
      have hlast : (front ++ [b]).getLast? ≠ some 0x0D := by simp [hreturn]
      rw [List.append_cons front b, List.append_cons front b back]
      exact readOn_folded_head hhead (List.concat_ne_nil b front) hlast back r
  | line line front hfront ih =>
      rw [List.append_assoc, List.append_assoc, List.cons_append, List.cons_append,
        readOn_line hfront, readOn_line hfront]
      cases r.endLine line with
      | error e => exact .error rfl
      | ok r' => exact ih r'

/-! ## Carriage returns -/

theorem withReturns_unended (h : 0x0A ∉ line) : withReturns line = line := by
  induction line with
  | nil => rfl
  | cons b line ih =>
      rw [List.mem_cons, not_or] at h
      rw [withReturns, List.flatMap_cons, if_neg (Ne.symm h.1), ← withReturns, ih h.2]
      rfl

theorem withReturns_line (h : 0x0A ∉ line) (rest : Bytes) :
    withReturns (line ++ 0x0A :: rest) = line ++ [0x0D] ++ 0x0A :: withReturns rest := by
  have hline := withReturns_unended h
  rw [withReturns] at hline ⊢
  rw [List.flatMap_append, List.flatMap_cons, hline, List.append_assoc]
  rfl

theorem endLine_return (h : line.getLast? ≠ some 0x0D) (r : Reader) :
    r.endLine (line ++ [0x0D]) = r.endLine line := by
  have hreturn : withoutReturn (line ++ [0x0D]) = line := by
    rw [withoutReturn_append h]
    exact List.append_nil line
  rw [endLine, endLine, hreturn, withoutReturn, if_neg h]

theorem readOn_withReturns (r : Reader) {doc : Bytes} (h : ¬ [0x0D, 0x0A] <:+: doc) :
    r.readOn (withReturns doc) = r.readOn doc := by
  induction doc using buffer_induction generalizing r with
  | unended doc hdoc => rw [withReturns_unended hdoc]
  | line line rest hline ih =>
      have hreturn : line.getLast? ≠ some 0x0D := by
        intro hlast
        obtain ⟨init, rfl⟩ := List.getLast?_eq_some_iff.mp hlast
        exact h ⟨init, rest, by simp⟩
      have hrest : ¬ [0x0D, 0x0A] <:+: rest := fun hin =>
        h (hin.trans ⟨line ++ [0x0A], [], by simp⟩)
      have hend : 0x0A ∉ line ++ [0x0D] := by simp [hline]
      rw [withReturns_line hline, readOn_line hend, readOn_line hline, endLine_return hreturn]
      cases r.endLine line with
      | error e => rfl
      | ok r' => exact ih r' hrest

/-! ## Comments -/

theorem flush_restart (r : Reader) (bs : Bytes) (n : Nat) :
    { r with unended := bs, lines := n }.flush =
      r.flush.map fun r' => { r' with unended := bs, lines := n } := by
  obtain ⟨mode, unended, lines, isStarted, pending, state, records⟩ := r
  cases pending with
  | none => rfl
  | some line =>
      simp only [Reader.flush, logicalLine]
      split
      · rfl
      · cases RecordState.accept mode (!isStarted) line.bytes state <;> rfl

/-- Nothing is held back once it is taken in. -/
theorem pending_flush (h : r.flush = .ok r') : r'.pending = none := by
  obtain ⟨mode, unended, lines, isStarted, pending, state, records⟩ := r
  cases pending with
  | none =>
      cases h
      rfl
  | some line =>
      simp only [Reader.flush, logicalLine] at h
      split at h
      · cases h
        rfl
      · cases haccept : RecordState.accept mode (!isStarted) line.bytes state with
        | error v => simp [haccept] at h
        | ok state' =>
            simp only [haccept] at h
            cases h
            rfl

theorem flush_of_none (h : r.pending = none) : r.flush = .ok r := by
  rw [flush, h]

/-- The line before one that continues nothing may have been taken in already. -/
theorem endLine_flush (h : line.head? ≠ some 0x20) (r : Reader) :
    Agree Alike (r.endLine line) (r.flush >>= fun r' => r'.endLine line) := by
  have hhead : (withoutReturn line).head? ≠ some 0x20 := by
    unfold withoutReturn
    split
    · cases line with
      | nil => nofun
      | cons b line => cases line <;> simp_all
    · exact h
  simp only [endLine, physicalLine_eq hhead, flush_restart]
  cases hflush : r.flush with
  | error e => exact .error rfl
  | ok r' =>
      simp only [bind, Except.bind, Except.map, flush_of_none (pending_flush hflush)]
      exact ((Alike.refl r').restart [] [] _ _).beginLine _ _ _

theorem readOn_flush (h : back.head? ≠ some 0x20) (r : Reader) :
    Agree Eq (r.readOn back) (r.flush >>= fun r' => r'.readOn back) := by
  rcases buffer_cases back with hline | ⟨line, rest, hline, rfl⟩
  · by_cases hne : back = []
    · simp only [hne, readOn_nil, close, flush_restart]
      cases hflush : r.flush with
      | error e => exact .error rfl
      | ok r' =>
          simp only [bind, Except.bind, Except.map, flush_of_none (pending_flush hflush)]
          exact ((Alike.refl r').restart [] [] _ _).conclude
    · simp only [readOn_end hline hne, ← bind_assoc]
      exact (endLine_flush h r).bind fun _ _ h' => h'.close
  · have hhead : line.head? ≠ some 0x20 := by
      intro hhead
      rw [List.head?_append, hhead] at h
      exact h rfl
    simp only [readOn_line hline, ← bind_assoc]
    exact (endLine_flush hhead r).bind fun _ _ h' => h'.readOn rest

/-- A comment is held back behind what was held back before it. -/
theorem readOn_comment (h : Comment comment) :
    ∃ held : LogicalLine, held.bytes.head? = some 0x23 ∧ ∀ (r : Reader) (back : Bytes),
      Agree Eq (r.readOn (comment ++ back))
        (r.flush >>= fun r' => { r' with pending := some held }.readOn back) := by
  induction h with
  | @line text htext =>
      have hline : withoutReturn (0x23 :: text) = 0x23 :: withoutReturn text :=
        @withoutReturn_append [0x23] (by decide) text
      have hhead : (0x23 :: withoutReturn text).head? ≠ some 0x20 := by simp
      have hend : 0x0A ∉ 0x23 :: text := by simp [htext]
      refine ⟨⟨0, 0x23 :: withoutReturn text⟩, rfl, fun r back => ?_⟩
      rw [List.cons_append, List.append_assoc, List.singleton_append, ← List.cons_append,
        readOn_line hend, endLine, hline, physicalLine_eq hhead, flush_restart]
      cases r.flush with
      | error e => exact .error rfl
      | ok r' =>
          simp only [bind, Except.bind, Except.map, beginLine, if_neg (List.cons_ne_nil _ _)]
          refine Alike.readOn ?_ back
          exact ⟨rfl, rfl, rfl, rfl, rfl⟩
  | @continued comment text hs htext ih =>
      obtain ⟨held, hmark, hheld⟩ := ih
      have hline : withoutReturn (0x20 :: text) = 0x20 :: withoutReturn text :=
        @withoutReturn_append [0x20] (by decide) text
      have hend : 0x0A ∉ 0x20 :: text := by simp [htext]
      refine ⟨⟨held.number, held.bytes ++ withoutReturn text⟩, ?_, fun r back => ?_⟩
      · rw [List.head?_append, hmark]
        rfl
      · rw [List.append_assoc, List.cons_append, List.append_assoc, List.singleton_append,
          ← List.cons_append]
        refine (hheld r _).trans ?_
        simp only [readOn_line hend, endLine, hline]
        cases r.flush with
        | error e => exact .error rfl
        | ok r' =>
            simp only [bind, Except.bind, physicalLine]
            refine Alike.readOn ?_ back
            exact ⟨rfl, rfl, rfl, rfl, rfl⟩

theorem flush_comment {held : LogicalLine} (hmark : held.bytes.head? = some 0x23)
    (h : r.pending = none) : { r with pending := some held }.flush = .ok r := by
  obtain ⟨mode, unended, lines, isStarted, pending, state, records⟩ := r
  cases h
  simp only [flush, logicalLine, if_pos hmark]

/-- A comment goes unnoticed in front of a line that is not continued. -/
theorem readOn_skips (h : Comment comment) (hback : back.head? ≠ some 0x20) (r : Reader) :
    Agree Eq (r.readOn (comment ++ back)) (r.readOn back) := by
  obtain ⟨held, hmark, hheld⟩ := readOn_comment h
  refine (hheld r back).trans (.trans ?_ (readOn_flush hback r).symm)
  cases hflush : r.flush with
  | error e => exact .error rfl
  | ok r' =>
      have hskip := readOn_flush hback { r' with pending := some held }
      rwa [flush_comment hmark (pending_flush hflush)] at hskip

theorem readOn_commented (h : Comment comment) (hback : back.head? ≠ some 0x20) (front : Bytes)
    (hfront : ∀ b ∈ front.getLast?, b = 0x0A) (r : Reader) :
    Agree Eq (r.readOn (front ++ (comment ++ back))) (r.readOn (front ++ back)) := by
  induction front using buffer_induction generalizing r with
  | unended front hline =>
      have hempty : front = [] := by
        rw [← List.getLast?_eq_none_iff, Option.eq_none_iff_forall_not_mem]
        intro b hb
        exact hline (hfront b hb ▸ List.mem_of_getLast? hb)
      rw [hempty]
      exact readOn_skips h hback r
  | line line rest hline ih =>
      have hrest : ∀ b ∈ rest.getLast?, b = 0x0A := by
        intro b hb
        refine hfront b ?_
        rw [List.getLast?_append, List.getLast?_cons, Option.mem_def.mp hb]
        rfl
      rw [List.append_assoc, List.append_assoc, List.cons_append, List.cons_append,
        readOn_line hline, readOn_line hline]
      cases r.endLine line with
      | error e => exact .error rfl
      | ok r' => exact ih hrest r'

end Reader

/-- One change of the layout leaves the outcome as it was, but for the line of a violation. -/
theorem Relaid.agree {doc doc' : Bytes} (h : Relaid doc doc') (mode : Mode) :
    Agree Eq (read mode doc') (read mode doc) := by
  rw [read_eq, read_eq]
  cases h with
  | fold hline hreturn => exact Reader.readOn_folded hline hreturn _ _ _
  | returns h =>
      have heq := Reader.readOn_withReturns (Reader.start mode) h
      rw [Reader.readOn, Reader.readOn] at heq
      rw [heq]
      exact .refl _
  | comment hfront hback h => exact Reader.readOn_commented h hback _ hfront _

/-- However the layout of a document is changed, the records or the first violation stay the
    same. -/
theorem read_relaid {doc doc' : Bytes} (h : Relation.ReflTransGen Relaid doc doc') (mode : Mode) :
    (read mode doc').mapError LdifError.violation =
      (read mode doc).mapError LdifError.violation := by
  induction h with
  | refl => rfl
  | tail _ h ih => exact (h.agree mode).mapError_eq.trans ih

/-- A record for the name `c=é`: folded inside its last character, then with carriage returns, then
    behind a comment of two lines. -/
theorem read_relaid_character :
    let doc : Bytes := [0x64, 0x6E, 0x3A, 0x63, 0x3D] ++ 0xC3 :: [0xA9, 0x0A, 0x0A]
    let folded : Bytes :=
      [0x64, 0x6E, 0x3A, 0x63, 0x3D] ++ 0xC3 :: 0x0A :: 0x20 :: [0xA9, 0x0A, 0x0A]
    let comment : Bytes := 0x23 :: ([0x0D] ++ [0x0A]) ++ 0x20 :: ([0xFF] ++ [0x0A])
    Relation.ReflTransGen Relaid doc (comment ++ withReturns folded) ∧
      (read .content (comment ++ withReturns folded)).mapError LdifError.violation =
        (read .content doc).mapError LdifError.violation := by
  intro doc folded comment
  have hfold : Relaid doc folded := .fold (by decide) (by decide)
  have hreturns : Relaid folded (withReturns folded) := .returns (by decide)
  have htext : Comment comment := .continued (.line (by decide)) (by decide)
  have hcomment : Relaid ([] ++ withReturns folded) ([] ++ (comment ++ withReturns folded)) :=
    .comment (by simp) (by decide) htext
  have h := ((Relation.ReflTransGen.single hfold).tail hreturns).tail hcomment
  exact ⟨h, read_relaid h .content⟩

end Ldif
end DirectoryStore
