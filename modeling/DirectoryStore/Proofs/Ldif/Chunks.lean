import DirectoryStore.Ldif.Reader

/-!
# Documents in chunks

A reader takes in the lines that end in a chunk and keeps the bytes after the last line end.
What is kept goes in front of the next chunk, so that taking in two chunks is taking in both
of them at once; and records that have not been handed over yet do not bear on what is read
after them.  Hence the way a document is cut does not matter, wherever the cuts fall.
-/

namespace DirectoryStore
namespace Ldif

theorem bind_eq_ok {ε α β : Type} {x : Except ε α} {f : α → Except ε β} {b : β}
    (h : x >>= f = .ok b) : ∃ a, x = .ok a ∧ f a = .ok b := by
  cases x with
  | error e => cases h
  | ok a => exact ⟨a, rfl, h⟩

namespace Reader

variable {r r' : Reader} {bs buffer rest : Bytes}

/-! ## Lines of a buffer -/

theorem ne_lineEnd (h : 0x0A ∉ bs) : ∀ b ∈ bs, decide (b ≠ 0x0A) = true :=
  fun _ hb => decide_eq_true fun he => h (he ▸ hb)

theorem takeLines_unended (h : 0x0A ∉ bs) (r : Reader) :
    r.takeLines bs = .ok { r with unended := bs } := by
  have hdrop : bs.dropWhile (· ≠ 0x0A) = [] := by
    rw [← List.append_nil bs, List.dropWhile_append_of_pos (ne_lineEnd h), List.dropWhile_nil]
  rw [takeLines]
  split
  · rfl
  · rename_i hcons
    rw [hdrop] at hcons
    cases hcons

theorem takeLines_line (h : 0x0A ∉ bs) (r : Reader) (rest : Bytes) :
    r.takeLines (bs ++ 0x0A :: rest) = r.endLine bs >>= fun r' => r'.takeLines rest := by
  have hall := ne_lineEnd h
  have hdrop : (bs ++ 0x0A :: rest).dropWhile (· ≠ 0x0A) = 0x0A :: rest := by
    rw [List.dropWhile_append_of_pos hall, List.dropWhile_cons_of_neg (by decide)]
  have htake : (bs ++ 0x0A :: rest).takeWhile (· ≠ 0x0A) = bs := by
    rw [List.takeWhile_append_of_pos hall, List.takeWhile_cons_of_neg (by decide), List.append_nil]
  rw [takeLines]
  split
  · rename_i hnil
    rw [hdrop] at hnil
    cases hnil
  · rename_i hcons
    rw [hdrop] at hcons
    cases hcons
    rw [htake]
    cases r.endLine bs <;> rfl

/-- A buffer holds no line end, or a line and what comes after it. -/
theorem buffer_cases (buffer : Bytes) :
    0x0A ∉ buffer ∨ ∃ line rest, 0x0A ∉ line ∧ buffer = line ++ 0x0A :: rest := by
  by_cases h : 0x0A ∈ buffer
  · obtain ⟨line, rest, hbuffer, hline⟩ := List.eq_append_cons_of_mem h
    exact .inr ⟨line, rest, hline, hbuffer⟩
  · exact .inl h

/-- Induction over the lines of a buffer. -/
@[elab_as_elim]
theorem buffer_induction {motive : Bytes → Prop} (unended : ∀ bs, 0x0A ∉ bs → motive bs)
    (line : ∀ line rest, 0x0A ∉ line → motive rest → motive (line ++ 0x0A :: rest))
    (buffer : Bytes) : motive buffer := by
  induction hn : buffer.length using Nat.strongRecOn generalizing buffer with
  | ind n ih =>
      rcases buffer_cases buffer with h | ⟨bs, rest, h, rfl⟩
      · exact unended buffer h
      · refine line bs rest h (ih rest.length ?_ rest rfl)
        rw [← hn, List.length_append, List.length_cons]
        omega

/-- What a reader keeps does not bear on a buffer that is given to it. -/
theorem takeLines_forget (r : Reader) (kept buffer : Bytes) :
    { r with unended := kept }.takeLines buffer = r.takeLines buffer := by
  rcases buffer_cases buffer with h | ⟨line, rest, h, rfl⟩
  · rw [takeLines_unended h, takeLines_unended h]
  · rw [takeLines_line h, takeLines_line h]
    rfl

/-- Bytes that come later go behind those that are kept. -/
theorem takeLines_append (r : Reader) (xs ys : Bytes) :
    r.takeLines (xs ++ ys) = r.takeLines xs >>= fun r' => r'.takeLines (r'.unended ++ ys) := by
  induction xs using buffer_induction generalizing r with
  | unended xs h =>
      rw [takeLines_unended h]
      exact (takeLines_forget r xs (xs ++ ys)).symm
  | line line rest h ih =>
      rw [List.append_assoc, List.cons_append, takeLines_line h, takeLines_line h]
      cases r.endLine line with
      | error e => rfl
      | ok r' => exact ih r'

/-! ## Records that wait -/

/-- The reader with `earlier` records in front of those that it has not handed over. -/
def behind (earlier : List Record) (r : Reader) : Reader :=
  { r with records := earlier ++ r.records }

variable (earlier : List Record)

theorem map_bind_behind {x : Except LdifError Reader} {f : Reader → Except LdifError Reader}
    (hf : ∀ r, f (behind earlier r) = (f r).map (behind earlier)) :
    x.map (behind earlier) >>= f = (x >>= f).map (behind earlier) := by
  cases x with
  | error e => rfl
  | ok r => exact hf r

theorem logicalLine_behind (r : Reader) (line : LogicalLine) :
    (behind earlier r).logicalLine line = (r.logicalLine line).map (behind earlier) := by
  unfold logicalLine
  split
  · rfl
  · cases h : r.state.accept r.mode (!r.isStarted) line.bytes <;> simp only [behind, h] <;> rfl

theorem flush_behind (r : Reader) :
    (behind earlier r).flush = r.flush.map (behind earlier) := by
  cases hpending : r.pending with
  | none =>
      simp only [flush, behind, hpending]
      rw [← hpending]
      rfl
  | some line =>
      simp only [flush, behind, hpending]
      exact logicalLine_behind earlier { r with pending := none } line

theorem endRecord_behind (number : Nat) (r : Reader) :
    (behind earlier r).endRecord number = (r.endRecord number).map (behind earlier) := by
  cases h : r.state.complete with
  | error v => simp only [endRecord, behind, h]; rfl
  | ok record =>
      simp only [endRecord, behind, h, List.append_assoc]
      rfl

theorem physicalLine_behind (number : Nat) (bytes : Bytes) (r : Reader) :
    (behind earlier r).physicalLine number bytes =
      (r.physicalLine number bytes).map (behind earlier) := by
  unfold physicalLine
  split
  · rw [flush_behind]
    exact map_bind_behind earlier fun r' => endRecord_behind earlier number r'
  · cases h : r.pending <;> simp only [behind, h] <;> rfl
  · rw [flush_behind]
    exact map_bind_behind earlier fun r' => rfl

theorem endLine_behind (r : Reader) (bytes : Bytes) :
    (behind earlier r).endLine bytes = (r.endLine bytes).map (behind earlier) :=
  physicalLine_behind earlier _ _ { r with unended := [], lines := r.lines + 1 }

theorem takeLines_behind (r : Reader) (buffer : Bytes) :
    (behind earlier r).takeLines buffer = (r.takeLines buffer).map (behind earlier) := by
  induction buffer using buffer_induction generalizing r with
  | unended buffer h =>
      rw [takeLines_unended h, takeLines_unended h]
      rfl
  | line line rest h ih =>
      rw [takeLines_line h, takeLines_line h, endLine_behind]
      exact map_bind_behind earlier fun r' => ih r'

/-! ## Chunks -/

/-- Two chunks hand over what they hand over as one, in two parts. -/
theorem feed_append (r : Reader) (xs ys : Bytes) :
    r.feed (xs ++ ys) = do
      let (r', records) ← r.feed xs
      let (r'', more) ← r'.feed ys
      return (r'', records ++ more) := by
  simp only [feed]
  rw [← List.append_assoc, takeLines_append]
  cases r.takeLines (r.unended ++ xs) with
  | error e => rfl
  | ok r' =>
      -- Handing over leaves the reader without the records that `r'` would have in front.
      have hbehind := takeLines_behind r'.records { r' with records := [] } (r'.unended ++ ys)
      simp only [behind, List.append_nil] at hbehind
      have hsame : { r' with records := r'.records } = r' := rfl
      rw [hsame] at hbehind
      simp only [bind, Except.bind, pure, Except.pure]
      rw [hbehind]
      cases ({ r' with records := [] } : Reader).takeLines (r'.unended ++ ys) <;> rfl

/-- Chunks hand over what they hand over as one, if nothing waits to be handed over. -/
theorem feedAll_eq_feed (hr : r.feed [] = .ok (r, [])) (chunks : List Bytes) :
    r.feedAll chunks = r.feed chunks.flatten := by
  induction chunks generalizing r with
  | nil => exact hr.symm
  | cons chunk chunks ih =>
      rw [List.flatten_cons, feed_append, feedAll]
      cases hchunk : r.feed chunk with
      | error e => rfl
      | ok fed =>
          obtain ⟨r', records⟩ := fed
          -- An empty chunk after this one hands over nothing more.
          have hr' : r'.feed [] = .ok (r', []) := by
            have hempty := feed_append r chunk []
            rw [List.append_nil, hchunk] at hempty
            simp only [bind, Except.bind, pure, Except.pure] at hempty
            cases hfeed : r'.feed [] with
            | error e => rw [hfeed] at hempty; cases hempty
            | ok fed =>
                obtain ⟨r'', more⟩ := fed
                rw [hfeed] at hempty
                simp only [Except.ok.injEq, Prod.mk.injEq, List.self_eq_append_right] at hempty
                rw [hempty.1, hempty.2]
          simp only [bind, Except.bind, ih hr']

theorem start_feed_nil (mode : Mode) : (start mode).feed [] = .ok (start mode, []) := by
  rw [feed, start, List.append_nil, takeLines_unended List.not_mem_nil]
  rfl

/-- Records that wait come first at the end. -/
theorem finish_behind (r : Reader) :
    (behind earlier r).finish = r.finish.map (earlier ++ ·) := by
  have hflush : ∀ r : Reader,
      ((behind earlier r).flush >>= fun r => if r.state = .idle then pure r.records
        else throw ⟨r.lines, .endsInsideRecord⟩ : Except LdifError (List Record)) =
      (r.flush >>= fun r => if r.state = .idle then pure r.records
        else throw ⟨r.lines, .endsInsideRecord⟩).map (earlier ++ ·) := by
    intro r
    rw [flush_behind]
    cases r.flush with
    | error e => rfl
    | ok r =>
        simp only [Except.map, bind, Except.bind, behind]
        split <;> rfl
  rw [finish, finish, show (behind earlier r).unended = r.unended from rfl]
  by_cases hempty : r.unended.isEmpty = true
  · rw [if_pos hempty, if_pos hempty]
    exact hflush r
  · rw [if_neg hempty, if_neg hempty]
    rw [endLine_behind]
    cases r.endLine r.unended with
    | error e => rfl
    | ok r => exact hflush r

end Reader

/-- Reading a document at once hands nothing over on the way. -/
theorem read_eq (mode : Mode) (bytes : Bytes) :
    read mode bytes = (Reader.start mode).takeLines bytes >>= Reader.finish := by
  rw [read, Reader.feed, show (Reader.start mode).unended = [] from rfl, List.nil_append]
  cases (Reader.start mode).takeLines bytes with
  | error e => rfl
  | ok r =>
      have hbehind := Reader.finish_behind r.records { r with records := [] }
      rw [Reader.behind, List.append_nil] at hbehind
      simp only [bind, Except.bind, pure, Except.pure]
      rw [hbehind]
      cases ({ r with records := [] } : Reader).finish <;> rfl

/-- A document in chunks gives what it gives as a whole, its records or its first violation;
    and up to any point between chunks the reader has handed over, and keeps, what it does when
    the bytes so far come at once. -/
theorem readChunks_eq_read (mode : Mode) (chunks : List Bytes) :
    readChunks mode chunks = read mode chunks.flatten ∧
      (Reader.start mode).feedAll chunks = (Reader.start mode).feed chunks.flatten := by
  have hfed := Reader.feedAll_eq_feed (Reader.start_feed_nil mode) chunks
  refine ⟨?_, hfed⟩
  rw [readChunks, hfed, read]

end Ldif
end DirectoryStore
