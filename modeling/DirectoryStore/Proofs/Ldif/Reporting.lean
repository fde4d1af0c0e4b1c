import DirectoryStore.Proofs.Ldif.Concatenation

/-!
# The line that an error is reported at

A logical line is held back until a line comes that does not continue it, and only then is it
taken in.  So an error comes up later in a document than it is reported at: it is reported where
the logical line starts, however many comments and blank lines there are before it and however it
is folded.  A line that continues nothing, and a record that may not end at a blank line, are
found out at once.
-/

namespace DirectoryStore
namespace Ldif

/-- Lines one after another, each of them ended. -/
def ended (lines : List Bytes) : Bytes :=
  lines.flatMap (· ++ [0x0A])

/-- A line that ends a record. -/
def IsBlank (line : Bytes) : Prop :=
  line = [] ∨ line = [0x0D]

/-- A line that continues the one before it. -/
def IsContinuation (line : Bytes) : Prop :=
  line.head? = some 0x20

/-- A line that a logical line starts with. -/
def IsStart (line : Bytes) : Prop :=
  ¬ IsBlank line ∧ ¬ IsContinuation line

instance (line : Bytes) : Decidable (IsBlank line) :=
  inferInstanceAs (Decidable (_ ∨ _))

instance (line : Bytes) : Decidable (IsContinuation line) :=
  inferInstanceAs (Decidable (_ = _))

instance (line : Bytes) : Decidable (IsStart line) :=
  inferInstanceAs (Decidable (_ ∧ _))

/-- What is wrong with the line `n` of some lines shows at the line `k`: at once where the line is
    blank or a continuation, else at the first line after it that is no continuation. -/
inductive Shows : List Bytes → Nat → Nat → Prop
  | atOnce {front rest : List Bytes} {line : Bytes} (h : IsBlank line ∨ IsContinuation line) :
      Shows (front ++ line :: rest) (front.length + 1) (front.length + 1)
  | later {front more rest : List Bytes} {line next : Bytes} (h : IsStart line)
      (hmore : ∀ line ∈ more, IsContinuation line) (hnext : ¬ IsContinuation next) :
      Shows (front ++ line :: (more ++ next :: rest)) (front.length + 1)
        (front.length + 1 + more.length + 1)

variable {lines seen rest : List Bytes} {line : Bytes} {e : LdifError} {n k : Nat}

theorem ended_append (lines rest : List Bytes) :
    ended (lines ++ rest) = ended lines ++ ended rest :=
  List.flatMap_append

theorem ended_cons (line : Bytes) (rest : List Bytes) :
    ended (line :: rest) = line ++ 0x0A :: ended rest := by
  rw [ended, List.flatMap_cons, List.append_assoc]
  rfl

/-! ## Where errors show -/

theorem Shows.append (h : Shows lines n k) (rest : List Bytes) : Shows (lines ++ rest) n k := by
  cases h with
  | atOnce h =>
      rw [List.append_assoc]
      exact .atOnce h
  | later h hmore hnext =>
      rw [List.append_assoc, List.cons_append, List.append_assoc]
      exact .later h hmore hnext

theorem Shows.bounds (h : Shows lines n k) : 1 ≤ n ∧ n ≤ k ∧ k ≤ lines.length := by
  cases h <;> simp only [List.length_append, List.length_cons] <;> omega

/-! ## Kinds of lines -/

theorem withoutReturn_eq_nil_iff : Reader.withoutReturn line = [] ↔ IsBlank line := by
  unfold Reader.withoutReturn IsBlank
  split
  · rename_i hlast
    obtain ⟨init, rfl⟩ := List.getLast?_eq_some_iff.mp hlast
    simp
  · rename_i hlast
    refine ⟨.inl, ?_⟩
    rintro (rfl | rfl)
    · rfl
    · exact absurd rfl hlast

theorem head_withoutReturn_iff :
    (Reader.withoutReturn line).head? = some 0x20 ↔ IsContinuation line := by
  unfold Reader.withoutReturn IsContinuation
  split
  · cases line with
    | nil => rfl
    | cons b line => cases line <;> simp_all
  · rfl

namespace Reader

variable {r r' : Reader}

/-- A reader that has taken in the given lines: it knows how many they are, and at which of them
    the logical line starts that it holds back. -/
structure Tracks (seen : List Bytes) (r : Reader) : Prop where
  lines : r.lines = seen.length
  held : ∀ held ∈ r.pending, ∃ front line more, seen = front ++ line :: more ∧
    held.number = front.length + 1 ∧ IsStart line ∧ ∀ line ∈ more, IsContinuation line

theorem Tracks.start (mode : Mode) : Tracks [] (Reader.start mode) :=
  ⟨rfl, nofun⟩

/-! ## One line -/

/-- What is held back is at fault when it cannot be taken in. -/
theorem flush_eq_error (h : r.flush = .error e) : ∃ held ∈ r.pending, e.line = held.number := by
  cases hpending : r.pending with
  | none =>
      rw [flush_of_none hpending] at h
      cases h
  | some held =>
      refine ⟨held, rfl, ?_⟩
      simp only [flush, hpending, logicalLine] at h
      split at h
      · cases h
      · split at h
        · cases h
          rfl
        · cases h

theorem endRecord_eq_error (h : r.endRecord n = .error e) : e.line = n := by
  rw [endRecord] at h
  split at h
  · cases h
    rfl
  · cases h

theorem endLine_continued (h : IsContinuation line) :
    ∃ text, r.endLine line =
      { r with unended := [], lines := r.lines + 1 }.physicalLine (r.lines + 1) (0x20 :: text) := by
  obtain ⟨text, htext⟩ := List.head?_eq_some_iff.mp (head_withoutReturn_iff.mpr h)
  exact ⟨text, by rw [endLine, htext]⟩

theorem endLine_begun (h : ¬ IsContinuation line) :
    r.endLine line = { r with unended := [], lines := r.lines + 1 }.flush >>=
      fun r' => r'.beginLine (r.lines + 1) (withoutReturn line) := by
  rw [endLine, physicalLine_eq fun hhead => h (head_withoutReturn_iff.mp hhead)]

theorem Tracks.endLine (hr : Tracks seen r) (h : r.endLine line = .ok r') :
    Tracks (seen ++ [line]) r' := by
  refine ⟨?_, ?_⟩
  · rw [(endLine_keeps h).2, hr.lines, List.length_append, List.length_singleton]
  -- A continuation goes behind the line that is held back; any other line takes that in first.
  by_cases hline : IsContinuation line
  · obtain ⟨text, htext⟩ := endLine_continued (r := r) hline
    rw [htext, physicalLine] at h
    cases hpending : r.pending with
    | none =>
        simp only [hpending] at h
        cases h
    | some held =>
        obtain ⟨front, begun, more, hseen, hnumber, hbegun, hmore⟩ := hr.held held hpending
        simp only [hpending] at h
        cases h
        rintro - ⟨⟩
        refine ⟨front, begun, more ++ [line], by simp [hseen], hnumber, hbegun, ?_⟩
        intro l hl
        rcases List.mem_append.mp hl with hl | hl
        · exact hmore l hl
        · exact List.mem_singleton.mp hl ▸ hline
  · rw [endLine_begun hline] at h
    obtain ⟨r₁, hflush, h⟩ := bind_eq_ok h
    rw [beginLine] at h
    split at h
    · obtain ⟨-, hpending, -⟩ := endRecord_eq_ok h
      rw [hpending, pending_flush hflush]
      exact fun held hheld => absurd hheld (Option.not_mem_none held)
    · rename_i hne
      cases h
      rintro - ⟨⟩
      have hblank : ¬ IsBlank line := fun hblank => hne (withoutReturn_eq_nil_iff.mpr hblank)
      exact ⟨seen, line, [], rfl, by rw [hr.lines], ⟨hblank, hline⟩, List.forall_mem_nil _⟩

/-- A line that cannot be taken in is at fault itself, or ends a logical line that is. -/
theorem Tracks.endLine_error (hr : Tracks seen r) (h : r.endLine line = .error e) :
    Shows (seen ++ [line]) e.line (seen.length + 1) := by
  by_cases hline : IsContinuation line
  · obtain ⟨text, htext⟩ := endLine_continued (r := r) hline
    rw [htext, physicalLine] at h
    split at h
    · cases h
      rw [hr.lines]
      exact .atOnce (.inr hline)
    · cases h
  · rw [endLine_begun hline] at h
    -- At fault is the line held back, unless this one is blank and ends a record too early.
    cases hflush : { r with unended := [], lines := r.lines + 1 }.flush with
    | error e' =>
        rw [hflush] at h
        cases h
        obtain ⟨held, hheld, hnumber⟩ := flush_eq_error hflush
        obtain ⟨front, begun, more, rfl, hfront, hbegun, hmore⟩ := hr.held held hheld
        have hshows : Shows (front ++ begun :: (more ++ [line])) (front.length + 1)
            (front.length + 1 + more.length + 1) := .later hbegun hmore hline
        rw [hnumber, hfront]
        simpa only [List.append_assoc, List.cons_append, List.length_append, List.length_cons,
          Nat.add_assoc, Nat.add_comm 1] using hshows
    | ok r₁ =>
        rw [hflush] at h
        simp only [bind, Except.bind, beginLine] at h
        split at h
        · rename_i hblank
          rw [endRecord_eq_error h, hr.lines]
          exact .atOnce (.inl (withoutReturn_eq_nil_iff.mp hblank))
        · cases h

/-! ## Many lines -/

/-- Lines that cannot all be taken in have a first one at which this shows. -/
theorem Tracks.takeLines_error (hr : Tracks seen r) (hlines : ∀ line ∈ rest, 0x0A ∉ line)
    (h : r.takeLines (ended rest) = .error e) :
    ∃ before line after, rest = before ++ line :: after ∧
      (∃ r', r.takeLines (ended before) = .ok r') ∧
      r.takeLines (ended (before ++ [line])) = .error e ∧
      Shows (seen ++ before ++ [line]) e.line (seen.length + before.length + 1) := by
  induction rest generalizing seen r with
  | nil =>
      rw [show ended [] = [] from rfl, takeLines_unended List.not_mem_nil] at h
      cases h
  | cons line rest ih =>
      rw [List.forall_mem_cons] at hlines
      have hnil : ∀ r : Reader, r.takeLines (ended []) = .ok { r with unended := [] } :=
        takeLines_unended List.not_mem_nil
      rw [ended_cons, takeLines_line hlines.1] at h
      cases hend : r.endLine line with
      | error e' =>
          rw [hend] at h
          cases h
          refine ⟨[], line, rest, rfl, ⟨_, hnil r⟩, ?_, ?_⟩
          · rw [List.nil_append, ended_cons, takeLines_line hlines.1, hend]
            rfl
          · rw [List.append_nil]
            exact hr.endLine_error hend
      | ok r₁ =>
          rw [hend] at h
          obtain ⟨before, bad, after, rfl, ⟨r', hbefore⟩, hbad, hshows⟩ :=
            ih (hr.endLine hend) hlines.2 h
          refine ⟨line :: before, bad, after, rfl, ⟨r', ?_⟩, ?_, ?_⟩
          · rw [ended_cons, takeLines_line hlines.1, hend]
            exact hbefore
          · rw [List.cons_append, ended_cons, takeLines_line hlines.1, hend]
            exact hbad
          · simpa only [List.append_assoc, List.cons_append, List.nil_append, List.length_append,
              List.length_cons, List.length_nil, Nat.zero_add, Nat.add_assoc, Nat.add_comm 1]
              using hshows

/-- What comes behind lines that cannot be taken in does not matter. -/
theorem takeLines_error_append {front : Bytes} (h : r.takeLines front = .error e) (back : Bytes) :
    r.takeLines (front ++ back) = .error e := by
  rw [takeLines_append, h]
  rfl

theorem takeLines_ok_of_append {front back : Bytes} (h : r.takeLines (front ++ back) = .ok r') :
    ∃ r₁, r.takeLines front = .ok r₁ := by
  rw [takeLines_append] at h
  obtain ⟨r₁, hfront, -⟩ := bind_eq_ok h
  exact ⟨r₁, hfront⟩

theorem start_feed (mode : Mode) (bytes : Bytes) :
    (start mode).feed bytes =
      ((start mode).takeLines bytes).map fun r => ({ r with records := [] }, r.records) := by
  rw [feed, show (start mode).unended = [] from rfl, List.nil_append]
  cases (start mode).takeLines bytes <;> rfl

theorem start_feed_eq_error {mode : Mode} {bytes : Bytes} :
    (start mode).feed bytes = .error e ↔ (start mode).takeLines bytes = .error e := by
  rw [start_feed]
  cases (start mode).takeLines bytes <;> simp [Except.map]

theorem start_feed_ok {mode : Mode} {bytes : Bytes} (h : (start mode).takeLines bytes = .ok r) :
    ∃ fed, (start mode).feed bytes = .ok fed :=
  ⟨_, by rw [start_feed, h]; rfl⟩

end Reader

/-- An error of a document is reported at a line of it.  It shows there, or where the logical line
    ends that starts there: with fewer lines there is none, and with those and more the same. -/
theorem feed_error_line {mode : Mode} (hlines : ∀ line ∈ lines, 0x0A ∉ line)
    (h : (Reader.start mode).feed (ended lines) = .error e) (hn : e.line? = some n) :
    (1 ≤ n ∧ n ≤ lines.length) ∧
      (∃ fed, (Reader.start mode).feed (ended (lines.take (n - 1))) = .ok fed) ∧
      ∃ k, Shows lines n k ∧
        (∀ j < k, ∃ fed, (Reader.start mode).feed (ended (lines.take j)) = .ok fed) ∧
        ∀ j ≥ k, (Reader.start mode).feed (ended (lines.take j)) = .error e := by
  obtain rfl : e.line = n := by
    rw [LdifError.line?] at hn
    split at hn
    · cases hn
    · exact Option.some.inj hn
  obtain ⟨before, line, after, rfl, ⟨r, hbefore⟩, hbad, hshows⟩ :=
    (Reader.Tracks.start mode).takeLines_error hlines (Reader.start_feed_eq_error.mp h)
  rw [List.nil_append, List.length_nil, Nat.zero_add] at hshows
  have hall : Shows (before ++ line :: after) e.line (before.length + 1) := by
    simpa only [List.append_assoc, List.singleton_append] using hshows.append after
  have hok : ∀ j < before.length + 1, ∃ fed,
      (Reader.start mode).feed (ended ((before ++ line :: after).take j)) = .ok fed := by
    intro j hj
    rw [List.take_append_of_le_length (Nat.le_of_lt_succ hj)]
    rw [← List.take_append_drop j before, ended_append] at hbefore
    obtain ⟨r₁, hfront⟩ := Reader.takeLines_ok_of_append hbefore
    exact Reader.start_feed_ok hfront
  have herror : ∀ j ≥ before.length + 1,
      (Reader.start mode).feed (ended ((before ++ line :: after).take j)) = .error e := by
    intro j hj
    have hprefix : (before ++ [line]).length ≤ j := by simpa using hj
    rw [Reader.start_feed_eq_error, List.append_cons, List.take_append,
      List.take_of_length_le hprefix, ended_append]
    exact Reader.takeLines_error_append hbad _
  obtain ⟨hpos, hle, hlen⟩ := hall.bounds
  exact ⟨⟨hpos, Nat.le_trans hle hlen⟩, hok _ (by omega), _, hall, hok, herror⟩

/-- An unknown kind of change in the fifth line, which is folded and comes behind a comment and
    blank lines: it shows at the seventh line. -/
theorem feed_error_line_folded :
    let lines := ["#", "", "\r", "dn: cn=a", "changetype: re", " name\r", "sn: x", ""].map utf8
    let e : LdifError := ⟨5, .unknownChangetype "rename"⟩
    (∀ line ∈ lines, 0x0A ∉ line) ∧ (Reader.start .changes).feed (ended lines) = .error e ∧
      e.line? = some 5 ∧ Shows lines 5 7 ∧
      ((1 ≤ 5 ∧ 5 ≤ lines.length) ∧
        (∃ fed, (Reader.start .changes).feed (ended (lines.take (5 - 1))) = .ok fed) ∧
        ∃ k, Shows lines 5 k ∧
          (∀ j < k, ∃ fed, (Reader.start .changes).feed (ended (lines.take j)) = .ok fed) ∧
          ∀ j ≥ k, (Reader.start .changes).feed (ended (lines.take j)) = .error e) := by
  intro lines e
  have hlines : ∀ line ∈ lines, 0x0A ∉ line := by decide +kernel
  have hfeed : (Reader.start .changes).feed (ended lines) = .error e := by decide +kernel
  have hstart : IsStart (utf8 "changetype: re") := by decide +kernel
  have hshows : Shows lines 5 7 :=
    @Shows.later (["#", "", "\r", "dn: cn=a"].map utf8) [utf8 " name\r"] [utf8 ""] _ (utf8 "sn: x")
      hstart (by decide +kernel) (by decide +kernel)
  exact ⟨hlines, hfeed, rfl, hshows, feed_error_line hlines hfeed rfl⟩

end Ldif
end DirectoryStore
