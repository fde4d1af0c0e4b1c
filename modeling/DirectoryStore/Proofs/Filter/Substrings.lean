import DirectoryStore.Proofs.Filter.Matching

/-!
# Substrings

A substring test cuts the start and the end off a value and then looks for the parts in between
from left to right, each at its first occurrence behind the part before.  The first occurrence
never loses a way to place the rest: whatever stands behind a later occurrence also stands behind
the first one, with a longer gap.  So the test succeeds exactly if the parts can be placed at all.
-/

namespace DirectoryStore
namespace Item

variable {part start finish after rest v w : Value} {parts : List Value}

/-! ## Start and end -/

theorem afterStart?_eq_some_iff : afterStart? start v = some rest ↔ v = start ++ rest := by
  simp only [afterStart?, List.isPrefixOf_iff_prefix]
  constructor
  · intro h
    split at h
    · rename_i hprefix
      obtain ⟨behind, rfl⟩ := hprefix
      rw [List.drop_left] at h
      rw [Option.some.inj h]
    · cases h
  · rintro rfl
    rw [if_pos (List.prefix_append start rest), List.drop_left]

theorem beforeEnd?_eq_some_iff : beforeEnd? finish v = some rest ↔ v = rest ++ finish := by
  simp only [beforeEnd?, List.isSuffixOf_iff_suffix]
  constructor
  · intro h
    split at h
    · rename_i hsuffix
      obtain ⟨before, rfl⟩ := hsuffix
      rw [List.length_append, Nat.add_sub_cancel, List.take_left] at h
      rw [Option.some.inj h]
    · cases h
  · rintro rfl
    rw [if_pos (List.suffix_append rest finish), List.length_append, Nat.add_sub_cancel,
      List.take_left]

/-! ## First occurrences -/

/-- What is behind the first occurrence of a part is behind an occurrence of it. -/
theorem eq_append_of_afterFirst? (h : afterFirst? part v = some after) :
    ∃ gap, v = gap ++ (part ++ after) := by
  induction v with
  | nil =>
      unfold afterFirst? at h
      split at h
      · rename_i hpart
        cases h
        exact ⟨[], by rw [List.isEmpty_iff.mp hpart]; rfl⟩
      · cases h
  | cons b v ih =>
      unfold afterFirst? at h
      split at h
      · rename_i hstart
        cases h
        rw [afterStart?_eq_some_iff.mp hstart]
        exact ⟨[], rfl⟩
      · obtain ⟨gap, rfl⟩ := ih h
        exact ⟨b :: gap, rfl⟩

/-- Where a part occurs, what is behind its first occurrence ends with what is behind this one. -/
theorem afterFirst?_of_occurs (gap part rest : Value) :
    ∃ front, afterFirst? part (gap ++ (part ++ rest)) = some (front ++ rest) := by
  induction gap with
  | nil =>
      refine ⟨[], ?_⟩
      rw [List.nil_append, List.nil_append]
      cases hv : part ++ rest with
      | nil =>
          obtain ⟨rfl, rfl⟩ := List.append_eq_nil_iff.mp hv
          rfl
      | cons b v => rw [afterFirst?, afterStart?_eq_some_iff.mpr hv.symm]
  | cons b gap ih =>
      rw [List.cons_append, afterFirst?]
      cases hstart : afterStart? part (b :: (gap ++ (part ++ rest))) with
      | none => exact ih
      | some after =>
          have heq := afterStart?_eq_some_iff.mp hstart
          have hlength := congrArg List.length heq
          simp only [List.length_cons, List.length_append] at hlength
          -- Both are ends of one value, and the one behind the first occurrence is the longer one.
          have hrest : rest <:+ b :: (gap ++ (part ++ rest)) := ⟨b :: (gap ++ part), by simp⟩
          have hafter : after <:+ b :: (gap ++ (part ++ rest)) := ⟨part, heq.symm⟩
          obtain ⟨front, hfront⟩ := List.suffix_of_suffix_length_le hrest hafter (by omega)
          exact ⟨front, by rw [hfront]⟩

/-! ## Parts with gaps -/

/-- A value in which the parts stand in order, with a gap in front of each and a last one. -/
inductive Gapped : List Value → Value → Prop
  | last (gap : Value) : Gapped [] gap
  | part {part rest : Value} {parts : List Value} (gap : Value) (h : Gapped parts rest) :
      Gapped (part :: parts) (gap ++ (part ++ rest))

/-- Parts with gaps are a first gap and each part with the gap behind it. -/
theorem gapped_iff : Gapped parts v ↔ ∃ (gap : Value) (gaps : List Value),
    gaps.length = parts.length ∧ v = gap ++ (List.zipWith (· ++ ·) parts gaps).flatten := by
  constructor
  · intro h
    induction h with
    | last gap => exact ⟨gap, [], rfl, (List.append_nil gap).symm⟩
    | part gap _ ih =>
        obtain ⟨next, gaps, hlength, rfl⟩ := ih
        refine ⟨gap, next :: gaps, congrArg Nat.succ hlength, ?_⟩
        simp
  · rintro ⟨gap, gaps, hlength, rfl⟩
    induction parts generalizing gap gaps with
    | nil =>
        rw [List.zipWith_nil_left, List.flatten_nil, List.append_nil]
        exact .last gap
    | cons part parts ih =>
        cases gaps with
        | nil => cases hlength
        | cons next gaps =>
            rw [List.zipWith_cons_cons, List.flatten_cons, List.append_assoc]
            exact .part gap (ih next gaps (Nat.succ.inj hlength))

/-- Parts that can be placed in a value are found one after another, whatever is in front. -/
theorem Gapped.foldlM (h : Gapped parts v) (front : Value) :
    ∃ rest, parts.foldlM (fun rest part => afterFirst? part rest) (front ++ v) = some rest := by
  induction h generalizing front with
  | last gap => exact ⟨front ++ gap, rfl⟩
  | @part part rest parts gap _ ih =>
      obtain ⟨more, hfirst⟩ := afterFirst?_of_occurs (front ++ gap) part rest
      obtain ⟨left, hleft⟩ := ih more
      refine ⟨left, ?_⟩
      rw [← List.append_assoc, List.foldlM_cons, hfirst]
      exact hleft

/-- Parts that are found one after another stand in the value in this order. -/
theorem gapped_of_foldlM
    (h : parts.foldlM (fun rest part => afterFirst? part rest) v = some rest) :
    Gapped parts v := by
  induction parts generalizing v with
  | nil => exact .last v
  | cons part parts ih =>
      obtain ⟨after, hfirst, hrest⟩ := Option.bind_eq_some_iff.mp h
      obtain ⟨gap, rfl⟩ := eq_append_of_afterFirst? hfirst
      exact .part gap (ih hrest)

/-- A value has a start, parts in between and an end if it is made of them and of gaps. -/
theorem hasParts_iff {initial final : Option Value} : hasParts initial parts final v = true ↔
    ∃ (gap : Value) (gaps : List Value), gaps.length = parts.length ∧
      v = initial.getD [] ++ (gap ++ (List.zipWith (· ++ ·) parts gaps).flatten) ++
        final.getD [] := by
  simp only [hasParts, Option.isSome_iff_exists, Option.bind_eq_bind, Option.bind_eq_some_iff,
    afterStart?_eq_some_iff, beforeEnd?_eq_some_iff]
  constructor
  · rintro ⟨_, _, rfl, w, rfl, hfound⟩
    obtain ⟨gap, gaps, hlength, rfl⟩ := gapped_iff.mp (gapped_of_foldlM hfound)
    exact ⟨gap, gaps, hlength, (List.append_assoc _ _ _).symm⟩
  · rintro ⟨gap, gaps, hlength, rfl⟩
    obtain ⟨rest, hfound⟩ := (gapped_iff.mpr ⟨gap, gaps, hlength, rfl⟩).foldlM []
    exact ⟨rest, _, List.append_assoc _ _ _, _, rfl, hfound⟩

end Item

namespace Filter

/-- A substring test accepts the entries that have the attribute with some value made of the
    start, a gap, each inner part with a gap behind it, and the end. -/
theorem accepts_substrings_iff (key : String) (initial : Option Value) (any : List Value)
    (final : Option Value) (e : Entry) :
    accepts (.item (.substrings key initial any final)) e = true ↔
      ∃ s ∈ e.attributes.sets, sameIgnoringCase s.key key = true ∧ ∃ v ∈ s.values,
        ∃ (gap : Value) (gaps : List Value), gaps.length = any.length ∧
          v = initial.getD [] ++ (gap ++ (List.zipWith (· ++ ·) any gaps).flatten) ++
            final.getD [] := by
  rw [accepts, Item.holds, Item.someValue_iff]
  simp only [Item.hasParts_iff]

/-- Repeated parts may not share bytes, and the first `b` leaves room for the second. -/
example : Item.hasParts none [utf8 "b", utf8 "b"] none (utf8 "abc") = false ∧
    Item.hasParts (some (utf8 "a")) [utf8 "b", utf8 "b"] (some []) (utf8 "abbc") = true := by
  decide

end Filter
end DirectoryStore
