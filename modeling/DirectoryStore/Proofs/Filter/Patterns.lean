import DirectoryStore.Proofs.Filter.RoundTrip

/-!
# Patterns

A pattern is read to the end of its text, and only a backslash without two digits behind it stops
the reader.  What it reads can be written and reads back as a filter.  The reader of filters
refuses more in a value: NUL, parentheses and stars side by side; but wherever it accepts the
value of `(key=value)`, the pattern stands for the same filter.
-/

namespace DirectoryStore
namespace Filter

variable {cs before after text : List Char} {key : String} {vs : List Value} {v : Value}
variable {c x y : Char} {b : UInt8} {f : Filter} {i : Item}

/-! ## How far a pattern is read -/

/-- A beginning of a text that the reader of patterns gets over. -/
inductive Passed : List Char → Prop
  | nil : Passed []
  /-- A character other than the backslash, and more text. -/
  | plain {c : Char} {text : List Char} (hc : c ≠ '\\') (h : Passed text) : Passed (c :: text)
  /-- `'\\' digit digit`, and more text. -/
  | escape {x y : Char} {b : UInt8} {text : List Char} (hb : Hex.IsPairOf x y b)
      (h : Passed text) : Passed ('\\' :: x :: y :: text)

/-- The text starts with two hexadecimal digits. -/
def StartsPair (text : List Char) : Prop :=
  ∃ x y b rest, text = x :: y :: rest ∧ Hex.IsPairOf x y b

theorem readPattern_cons (hc : c ≠ '\\') (text : List Char) :
    readPattern (c :: text) =
      if c = '*' then (readPattern text).map ([] :: ·)
      else (readPattern text).map (leadWith (Utf8.encodeChar c)) := by
  rw [readPattern.eq_def]
  exact if_neg hc

theorem readPattern_escape (hb : Hex.IsPairOf x y b) (text : List Char) :
    readPattern ('\\' :: x :: y :: text) = (readPattern text).map (leadWith [b]) := by
  simp only [readPattern, if_true, Hex.byte?_eq_some_iff.mpr hb]

theorem Passed.read (h : Passed text) : ∃ vs, readPattern text = .ok vs := by
  induction h with
  | nil => exact ⟨_, rfl⟩
  | plain hc _ ih =>
      obtain ⟨vs, hvs⟩ := ih
      rw [readPattern_cons hc, hvs]
      split <;> exact ⟨_, rfl⟩
  | escape hb _ ih =>
      obtain ⟨vs, hvs⟩ := ih
      rw [readPattern_escape hb, hvs]
      exact ⟨_, rfl⟩

theorem passed_of_read (h : readPattern cs = .ok vs) : Passed cs := by
  fun_induction readPattern cs generalizing vs with
  | case1 => exact .nil
  | case2 x y more b hb ih =>
      obtain ⟨us, hread, -⟩ := map_eq_ok h
      exact .escape (Hex.byte?_eq_some_iff.mp hb) (ih hread)
  | case3 | case4 => cases h
  | case5 _ hback ih | case6 _ _ hback _ ih =>
      obtain ⟨us, hread, -⟩ := map_eq_ok h
      exact .plain hback (ih hread)

theorem Passed.of_plain (hc : c ≠ '\\') (h : Passed (c :: text)) : Passed text := by
  cases h with
  | plain _ h => exact h
  | escape _ _ => exact absurd rfl hc

theorem Passed.of_escape (h : Passed ('\\' :: x :: y :: text)) : Passed text := by
  cases h with
  | plain hc _ => exact absurd rfl hc
  | escape _ h => exact h

theorem Passed.startsPair (h : Passed ('\\' :: after)) : StartsPair after := by
  cases h with
  | plain hc _ => exact absurd rfl hc
  | escape hb _ => exact ⟨_, _, _, _, rfl, hb⟩

/-- Behind a beginning that the reader gets over, it goes on with what is left. -/
theorem Passed.of_append (h : Passed before) (htext : Passed (before ++ after)) : Passed after := by
  induction h with
  | nil => exact htext
  | plain hc _ ih => exact ih (htext.of_plain hc)
  | escape _ _ ih => exact ih htext.of_escape

/-- The reader gets over a text if it gets over each backslash that it comes to. -/
theorem passed_of_escapes (text : List Char)
    (h : ∀ before after, text = before ++ '\\' :: after → Passed before → StartsPair after) :
    Passed text := by
  -- By the length of the text, of which an escape takes three characters at once.
  match text, h with
  | [], _ => exact .nil
  | c :: more, h =>
      by_cases hc : c = '\\'
      · obtain ⟨x, y, b, rest, rfl, hb⟩ := h [] more (by rw [hc]; rfl) .nil
        rw [hc]
        refine .escape hb (passed_of_escapes rest fun before after hrest hbefore => ?_)
        exact h ('\\' :: x :: y :: before) after (by rw [hrest, hc]; rfl) (.escape hb hbefore)
      · refine .plain hc (passed_of_escapes more fun before after hmore hbefore => ?_)
        exact h (c :: before) after (by rw [hmore]; rfl) (.plain hc hbefore)
termination_by text.length

/-- A pattern is read if each backslash that the reader comes to starts an escape. -/
theorem readPattern_isOk_iff : (∃ vs, readPattern text = .ok vs) ↔
    ∀ before after, text = before ++ '\\' :: after → Passed before → StartsPair after := by
  constructor
  · rintro ⟨vs, hread⟩ before after rfl hbefore
    exact (hbefore.of_append (passed_of_read hread)).startsPair
  · exact fun h => (passed_of_escapes text h).read

/-! ## What is read can be written -/

theorem part_ne_nil (v : Value) : ∀ u ∈ part v, u ≠ [] := by
  unfold part
  split
  · nofun
  · rename_i hv
    rintro u ⟨⟩ rfl
    exact hv rfl

theorem part_eq_none (h : part v = none) : v = [] := by
  unfold part at h
  split at h
  · rename_i hv
    exact List.isEmpty_iff.mp hv
  · cases h

theorem ofPatternFragments_parts (key : String) (first : Value) (inner : List Value)
    (last : Value) : ofPatternFragments key (first :: (inner ++ [last])) =
      if first.isEmpty && (inner.filter fun v => !v.isEmpty).isEmpty && last.isEmpty then
        .present key
      else .substrings key (part first) (inner.filter fun v => !v.isEmpty) (part last) := by
  cases inner with
  | nil => rfl
  | cons v inner =>
      rw [List.cons_append, ofPatternFragments]
      simp only [← List.cons_append, List.dropLast_concat, List.getLast_concat]

/-- Whatever stands between the stars of a pattern, the item can be spelled. -/
theorem wellFormed_ofPatternFragments (hkey : IsAttribute key) (vs : List Value) :
    (ofPatternFragments key vs).WellFormed := by
  rcases fragments_cases vs with rfl | ⟨v, rfl⟩ | ⟨first, inner, last, rfl⟩
  · exact hkey
  · exact hkey
  rw [ofPatternFragments_parts]
  split
  · exact hkey
  rename_i hsome
  refine ⟨hkey, fun hnone => hsome ?_, fun v hv => ?_⟩
  · simp only [Item.parts, List.append_eq_nil_iff, Option.toList_eq_nil_iff] at hnone
    obtain ⟨⟨hfirst, hinner⟩, hlast⟩ := hnone
    rw [part_eq_none hfirst, hinner, part_eq_none hlast]
    rfl
  · rw [Item.parts, List.mem_append, List.mem_append, Option.mem_toList, Option.mem_toList] at hv
    rcases hv with (hv | hv) | hv
    · exact part_ne_nil first v hv
    · rintro rfl
      cases (List.mem_filter.mp hv).2
    · exact part_ne_nil last v hv

theorem parse_text_of_wellFormed (h : f.WellFormed) : parse f.text = .ok f := by
  have hread := readOne_chars f h []
  rw [List.append_nil] at hread
  rw [parse_eq_ok_iff, text, String.toList_ofList, hread]

/-! ## Values of filters as patterns -/

theorem readPattern_ne_nil (h : readPattern cs = .ok vs) : vs ≠ [] := by
  fun_induction readPattern cs generalizing vs with
  | case1 =>
      cases h
      exact List.cons_ne_nil _ _
  | case2 | case6 =>
      obtain ⟨us, -, rfl⟩ := map_eq_ok h
      exact leadWith_ne_nil _ _
  | case3 | case4 => cases h
  | case5 =>
      obtain ⟨us, -, rfl⟩ := map_eq_ok h
      exact List.cons_ne_nil _ _

theorem map_leadWith_leadWith (r : Except Misfit (List Value)) (v w : Bytes) :
    (r.map (leadWith w)).map (leadWith v) = r.map (leadWith (v ++ w)) := by
  cases r with
  | error m => rfl
  | ok vs => exact congrArg Except.ok (leadWith_leadWith v w vs)

/-- Octets are read as what they spell. -/
theorem Octets.readPattern (h : Octets text v) (rest : List Char) :
    readPattern (text ++ rest) = (readPattern rest).map (leadWith v) := by
  induction h with
  | nil =>
      rw [List.nil_append]
      cases hrest : Filter.readPattern rest with
      | error m => rfl
      | ok vs =>
          obtain ⟨u, us, rfl⟩ := List.exists_cons_of_ne_nil (readPattern_ne_nil hrest)
          rfl
  | plain hc _ ih =>
      simp only [Item.isSpecial, Bool.or_eq_false_iff, decide_eq_false_iff_not] at hc
      obtain ⟨⟨⟨⟨hstar, -⟩, -⟩, hback⟩, -⟩ := hc
      rw [List.cons_append, readPattern_cons hback, if_neg hstar, ih, map_leadWith_leadWith]
  | escape hb _ ih =>
      rw [List.cons_append, List.cons_append, List.cons_append, readPattern_escape hb, ih,
        map_leadWith_leadWith]
      rfl

/-- Values between stars are read as they are from a filter. -/
theorem Fragments.readPattern (h : Fragments text vs) : readPattern text = .ok vs := by
  induction h with
  | @last text v h =>
      have hread := h.readPattern []
      rw [List.append_nil] at hread
      rw [hread]
      exact congrArg (fun u => Except.ok [u]) (List.append_nil v)
  | @star _ _ v vs h _ ih =>
      rw [h.readPattern, readPattern_cons (by decide), if_pos rfl, ih]
      exact congrArg (fun u => Except.ok (u :: vs)) (List.append_nil v)

/-- The item of a pattern is that of the filter, if the filter has no empty parts. -/
theorem ofPatternFragments_eq (h : ofFragments key vs = .ok i) : ofPatternFragments key vs = i := by
  rcases fragments_cases vs with rfl | ⟨v, rfl⟩ | ⟨first, inner, last, rfl⟩
  · exact Except.ok.inj h
  · exact Except.ok.inj h
  rw [ofFragments_parts] at h
  rw [ofPatternFragments_parts]
  split at h
  · rename_i hempty
    simp only [Bool.and_eq_true, List.isEmpty_iff] at hempty
    obtain ⟨⟨rfl, rfl⟩, rfl⟩ := hempty
    exact Except.ok.inj h
  rename_i hempty
  split at h
  · cases h
  rename_i hany
  have hinner : (inner.filter fun v => !v.isEmpty) = inner := by
    rw [List.filter_eq_self]
    intro v hv
    rw [Bool.not_eq_true']
    exact Bool.eq_false_iff.mpr fun he => hany (List.any_eq_true.mpr ⟨v, hv, he⟩)
  rw [hinner, if_neg hempty]
  exact Except.ok.inj h

/-- Behind the parenthesis an attribute starts an item. -/
theorem readInside_attribute (hkey : IsAttribute key) (rest : List Char) :
    readInside (key.toList ++ rest) = (readItem (key.toList ++ rest)).map (onRead item) := by
  have hfirst := hkey.1
  cases hcs : key.toList with
  | nil =>
      rw [hcs] at hfirst
      cases hfirst
  | cons c cs =>
      rw [hcs, List.head?_cons, Option.any_some] at hfirst
      have hc : c ≠ '&' ∧ c ≠ '|' ∧ c ≠ '!' := by
        refine ⟨?_, ?_, ?_⟩ <;> rintro rfl <;> exact absurd hfirst (by decide)
      simp only [List.cons_append, readInside, if_neg hc.1, if_neg hc.2.1, if_neg hc.2.2]

/-- What is read of `(key=text)` are values between stars, and the item that they make up. -/
theorem fragments_of_parse {text : String} (hkey : IsAttribute key)
    (h : parse ("(" ++ key ++ "=" ++ text ++ ")") = .ok f) :
    ∃ vs i, Fragments text.toList vs ∧ ofFragments key vs = .ok i ∧ f = .item i := by
  have hchars : ("(" ++ key ++ "=" ++ text ++ ")").toList =
      '(' :: (key.toList ++ '=' :: (text.toList ++ [')'])) := by
    simp [String.toList_append]
  rw [parse_eq_ok_iff, hchars] at h
  obtain ⟨inside, hinside, hread⟩ := readOne_eq_ok h
  cases hinside
  rw [readInside_attribute hkey] at hread
  obtain ⟨⟨i, left⟩, hitem, hf⟩ := map_eq_ok hread
  cases hf
  rw [readItem_attribute hkey (by decide)] at hitem
  obtain ⟨⟨vs, after⟩, hvs, hitem⟩ := bind_eq_ok hitem
  dsimp only at hitem
  split at hitem
  · rename_i hi
    cases hitem
    obtain ⟨value, hvalue, hfragments, -⟩ := fragments_of_read hvs
    rw [List.append_cancel_right hvalue]
    exact ⟨vs, i, hfragments, hi, rfl⟩
  · cases hitem

/-! ## Patterns and filters -/

theorem ofPattern_eq_ok_iff {text : String} : ofPattern key text = .ok f ↔
    ∃ vs, readPattern text.toList = .ok vs ∧ f = .item (ofPatternFragments key vs) := by
  unfold ofPattern
  cases readPattern text.toList with
  | error m => simp
  | ok vs => simp [eq_comm]

/-- A pattern is read exactly if each backslash that the reader comes to starts an escape; what is
    read can be written and reads back; and a value that a filter can have stands for this
    filter. -/
theorem ofPattern_extends_parse (hkey : IsAttribute key) (text : String) :
    ((∃ f, ofPattern key text = .ok f) ↔ ∀ before after,
      text.toList = before ++ '\\' :: after → Passed before → StartsPair after) ∧
    (∀ f, ofPattern key text = .ok f → parse f.text = .ok f) ∧
    ∀ f, parse ("(" ++ key ++ "=" ++ text ++ ")") = .ok f → ofPattern key text = .ok f := by
  refine ⟨?_, fun f h => ?_, fun f h => ?_⟩
  · rw [← readPattern_isOk_iff]
    constructor
    · rintro ⟨f, hf⟩
      obtain ⟨vs, hvs, -⟩ := ofPattern_eq_ok_iff.mp hf
      exact ⟨vs, hvs⟩
    · rintro ⟨vs, hvs⟩
      exact ⟨_, ofPattern_eq_ok_iff.mpr ⟨vs, hvs, rfl⟩⟩
  · obtain ⟨vs, -, rfl⟩ := ofPattern_eq_ok_iff.mp h
    exact parse_text_of_wellFormed (wellFormed_ofPatternFragments hkey vs)
  · obtain ⟨vs, i, hfragments, hi, rfl⟩ := fragments_of_parse hkey h
    exact ofPattern_eq_ok_iff.mpr
      ⟨vs, hfragments.readPattern, by rw [ofPatternFragments_eq hi]⟩

/-- Stars side by side, an unescaped parenthesis and an escape at the end. -/
theorem ofPattern_extends_parse_stars :
    let text := "*a**(\\2A"
    let f : Filter := .item (.substrings "cn;x-y" none [utf8 "a"] (some (utf8 "(*")))
    IsAttribute "cn;x-y" ∧ ofPattern "cn;x-y" text = .ok f ∧ parse f.text = .ok f := by
  intro text f
  have hkey : IsAttribute "cn;x-y" := by decide
  have hchars : text.toList = ['*', 'a', '*', '*', '(', '\\', '2', 'A'] := by decide
  have hread : readPattern text.toList = .ok [[], utf8 "a", [], utf8 "(*"] := by
    rw [hchars]
    rfl
  have hpattern : ofPattern "cn;x-y" text = .ok f :=
    ofPattern_eq_ok_iff.mpr ⟨_, hread, by decide⟩
  exact ⟨hkey, hpattern, (ofPattern_extends_parse hkey text).2.1 f hpattern⟩

end Filter
end DirectoryStore
