import DirectoryStore.Proofs.Name.Spelling

/-!
# What the reader of names accepts

A text is accepted just if it is blank or spells a name by octets.  Each function of the reader
has a lemma here that reconstructs the text from what it gave; the lemmas for the other
direction are with the spellings.

One spelling that is accepted is not in the notation: behind the closing quote of a value the
value may go on, as a value without quotes does.
-/

namespace DirectoryStore
namespace Name

variable {c mark : Char} {cs rest after text : List Char} {ps : List Piece} {value type : String}

/-! ## Spaces and pieces -/

theorem exists_spaces (cs : List Char) : ∃ n, cs = spaces n ++ skipSpaces cs := by
  have hspaces : cs.takeWhile (· == ' ') = spaces (cs.takeWhile (· == ' ')).length := by
    refine List.eq_replicate_iff.mpr ⟨rfl, fun c hc => ?_⟩
    exact eq_of_beq (List.all_eq_true.mp List.all_takeWhile c hc)
  refine ⟨(cs.takeWhile (· == ' ')).length, ?_⟩
  rw [← hspaces, skipSpaces, List.takeWhile_append_dropWhile]

theorem head?_skipSpaces (cs : List Char) : (skipSpaces cs).head? ≠ some ' ' := by
  intro h
  have hnot := List.head?_dropWhile_not (· == ' ') cs
  rw [skipSpaces] at h
  rw [h] at hnot
  exact absurd hnot (by decide)

theorem settle_firmPieces_append (c : Char) (ps : List Piece) :
    settle (firmPieces c ++ ps) = Utf8.encodeChar c ++ settle ps := by
  rw [settle_append_of_firm (endsFirm_firmPieces c), firmPieces_bytes]

theorem settle_firm_cons (b : UInt8) (ps : List Piece) :
    settle ([⟨b, true⟩] ++ ps) = b :: settle ps := by
  have hfirm : EndsFirm [⟨b, true⟩] := fun p hp => by cases hp; rfl
  exact settle_append_of_firm hfirm ps

theorem settle_loose_cons (b : UInt8) (ps : List Piece) :
    settle ([⟨b, false⟩] ++ ps) = if settle ps = [] then [] else b :: settle ps :=
  settle_append [⟨b, false⟩] ps

/-! ## Values -/

theorem not_mem_specials (hback : c ≠ '\\') (hmark : ¬(c = '+' ∨ c = ',' ∨ c = ';'))
    (hstray : ¬(c = '"' ∨ c = '<' ∨ c = '>')) : c ∉ specials := by
  simp only [not_or] at hmark hstray
  simp [specials, hback, hmark, hstray]

theorem ne_backslash (hnil : c = '\\' → rest = [] → False)
    (hcons : ∀ x more, c = '\\' → rest = x :: more → False) : c ≠ '\\' := by
  intro hback
  cases rest with
  | nil => exact hnil hback rfl
  | cons x more => exact hcons x more hback rfl

/-- Text without quotes that has been read is octets, spaces and what ends it. -/
theorem octets_of_readPieces_bare (h : readPieces .bare cs = .ok (ps, after)) :
    ∃ text n, cs = text ++ (spaces n ++ after) ∧ Octets PlainBare text (settle ps) ∧
      Stops after := by
  generalize hregion : Region.bare = region at h
  fun_induction readPieces region cs generalizing ps with
  | case1 | case3 | case10 | case11 | case15 => cases hregion
  | case4 | case5 | case6 | case9 | case13 => cases h
  | case2 =>
      cases h
      exact ⟨[], 0, rfl, .nil, Stops.nil⟩
  | case12 _ _ rest _ _ _ hmark =>
      cases h
      exact ⟨[], 0, rfl, .nil, stops_cons (by simpa using hmark) rest⟩
  | case7 _ x _ y rest b hbyte ih =>
      subst hregion
      obtain ⟨⟨qs, after⟩, hread, heq⟩ := map_ahead_eq_ok h
      cases heq
      obtain ⟨text, n, rfl, hoctets, hstops⟩ := ih rfl hread
      refine ⟨'\\' :: x :: y :: text, n, rfl, ?_, hstops⟩
      rw [settle_firm_cons]
      exact .byte (Hex.byte?_eq_some_iff.mp hbyte) hoctets
  | case8 _ c rest _ hc ih =>
      subst hregion
      obtain ⟨⟨qs, after⟩, hread, heq⟩ := map_ahead_eq_ok h
      cases heq
      obtain ⟨text, n, rfl, hoctets, hstops⟩ := ih rfl hread
      refine ⟨'\\' :: c :: text, n, rfl, ?_, hstops⟩
      rw [settle_firmPieces_append]
      exact .escaped hc hoctets
  | case14 _ c _ hnil hcons _ hmark hstray hspace ih =>
      have hplain := not_mem_specials (ne_backslash hnil hcons) hmark hstray
      obtain ⟨⟨qs, after⟩, hread, heq⟩ := map_ahead_eq_ok h
      cases heq
      obtain ⟨text, n, rfl, hoctets, hstops⟩ := ih rfl hread
      refine ⟨c :: text, n, rfl, ?_, hstops⟩
      rw [settle_firmPieces_append]
      exact .plain ⟨hplain, fun hc => absurd hc hspace⟩ hoctets
  | case16 _ c _ hnil hcons _ hmark hstray hspace _ ih =>
      have hc : c = ' ' := Decidable.of_not_not hspace
      obtain ⟨⟨qs, after⟩, hread, heq⟩ := map_ahead_eq_ok h
      cases heq
      obtain ⟨text, n, rfl, hoctets, hstops⟩ := ih rfl hread
      rw [hc, settle_loose_cons]
      -- The space is one of those behind the value if nothing is left of the value.
      split
      · rename_i hnone
        have htext := hoctets.eq_nil_iff.mpr hnone
        exact ⟨[], n + 1, by rw [htext]; rfl, .nil, hstops⟩
      · rename_i hsome
        have htext : text ≠ [] := fun htext => hsome (hoctets.eq_nil_iff.mp htext)
        exact ⟨' ' :: text, n, rfl, .plain ⟨by decide, fun _ => htext⟩ hoctets, hstops⟩

/-- Text between quotes that has been read is octets up to the closing quote. -/
theorem octets_of_readPieces_quoted (h : readPieces .quoted cs = .ok (ps, after)) :
    ∃ text bs rest qs, cs = text ++ '"' :: rest ∧ Octets PlainQuoted text bs ∧
      readPieces .closed rest = .ok (qs, after) ∧ settle ps = bs ++ settle qs := by
  generalize hregion : Region.quoted = region at h
  fun_induction readPieces region cs generalizing ps with
  | case2 | case3 => cases hregion
  | case12 | case13 | case14 | case15 | case16 => exact absurd hregion.symm ‹_›
  | case1 | case4 | case5 | case6 | case9 => cases h
  | case10 rest _ _ _ => exact ⟨[], [], rest, ps, rfl, .nil, h, rfl⟩
  | case7 _ x _ y _ b hbyte ih =>
      subst hregion
      obtain ⟨⟨qs, after⟩, hread, heq⟩ := map_ahead_eq_ok h
      cases heq
      obtain ⟨text, bs, rest, rs, rfl, hoctets, hclosed, hsettle⟩ := ih rfl hread
      refine ⟨'\\' :: x :: y :: text, b :: bs, rest, rs, rfl, ?_, hclosed, ?_⟩
      · exact .byte (Hex.byte?_eq_some_iff.mp hbyte) hoctets
      · rw [settle_firm_cons, hsettle]
        rfl
  | case8 _ c _ _ hc ih =>
      subst hregion
      obtain ⟨⟨qs, after⟩, hread, heq⟩ := map_ahead_eq_ok h
      cases heq
      obtain ⟨text, bs, rest, rs, rfl, hoctets, hclosed, hsettle⟩ := ih rfl hread
      refine ⟨'\\' :: c :: text, Utf8.encodeChar c ++ bs, rest, rs, rfl, .escaped hc hoctets,
        hclosed, ?_⟩
      rw [settle_firmPieces_append, hsettle, List.append_assoc]
  | case11 c _ hnil hcons hquote ih =>
      have hback := ne_backslash hnil hcons
      obtain ⟨⟨qs, after⟩, hread, heq⟩ := map_ahead_eq_ok h
      cases heq
      obtain ⟨text, bs, rest, rs, rfl, hoctets, hclosed, hsettle⟩ := ih rfl hread
      refine ⟨c :: text, Utf8.encodeChar c ++ bs, rest, rs, rfl, .plain ⟨hquote, hback⟩ hoctets,
        hclosed, ?_⟩
      rw [settle_firmPieces_append, hsettle, List.append_assoc]

/-- Text without quotes that has been read behind spaces has no spaces around it. -/
theorem bareOctets_of_read (h : readPieces .bare (skipSpaces cs) = .ok (ps, after)) :
    ∃ text gap n, cs = spaces gap ++ (text ++ (spaces n ++ after)) ∧
      BareOctets text (settle ps) ∧ Stops after := by
  obtain ⟨gap, hgap⟩ := exists_spaces cs
  obtain ⟨text, n, hskip, hoctets, hstops⟩ := octets_of_readPieces_bare h
  refine ⟨text, gap, n, by rw [← hskip, ← hgap], ⟨hoctets, fun hhead => ?_⟩, hstops⟩
  apply head?_skipSpaces cs
  rw [hskip, List.head?_append, hhead]
  rfl

/-- A value that has been read, with the spaces around it. -/
theorem valueWorded_of_read (h : readValue cs = .ok (value, after)) :
    ∃ text before n, cs = spaces before ++ (text ++ (spaces n ++ after)) ∧
      ValueWorded True value text ∧ Stops after := by
  unfold readValue at h
  dsimp only at h
  split at h
  · cases h
  rename_i ps after' hpieces
  split at h
  · cases h
  rename_i hvalue
  cases h
  rw [text?_eq_some_iff] at hvalue
  split at hpieces
  · rename_i rest hskip
    obtain ⟨before, hbefore⟩ := exists_spaces cs
    obtain ⟨text, bs, rest, qs, rfl, hquoted, hclosed, hsettle⟩ :=
      octets_of_readPieces_quoted hpieces
    rw [readPieces_closed] at hclosed
    obtain ⟨more, gap, n, rfl, hbare, hstops⟩ := bareOctets_of_read hclosed
    rw [hsettle] at hvalue
    rw [hskip] at hbefore
    by_cases hmore : more = []
    · -- Nothing but spaces behind the closing quote.
      subst hmore
      rw [hbare.1.eq_nil_iff.mp rfl, List.append_nil] at hvalue
      refine ⟨'"' :: (text ++ ['"']), before, gap + n, ?_, .quoted (hvalue ▸ hquoted), hstops⟩
      rw [hbefore]
      simp [spaces, ← List.replicate_append_replicate]
    · refine ⟨'"' :: (text ++ '"' :: (spaces gap ++ more)), before, n, ?_,
        .resumed trivial hquoted gap hbare hmore hvalue, hstops⟩
      rw [hbefore]
      simp
  · obtain ⟨text, before, n, hcs, hbare, hstops⟩ := bareOctets_of_read hpieces
    exact ⟨text, before, n, hcs, .bare (hvalue ▸ hbare), hstops⟩

/-! ## Components and names -/

/-- A type that has been read, with the spaces around it and the `=` behind it. -/
theorem exists_of_readType (h : readType cs = .ok (type, rest)) :
    ∃ before n, cs = spaces before ++ (type.toList ++ (spaces n ++ '=' :: rest)) := by
  obtain ⟨before, hbefore⟩ := exists_spaces cs
  obtain ⟨n, hn⟩ := exists_spaces ((skipSpaces cs).dropWhile isNameChar)
  refine ⟨before, n, ?_⟩
  unfold readType at h
  dsimp only at h
  split at h
  · split at h
    · cases h
    split at h
    · cases h
    split at h
    · rename_i heq
      cases h
      rw [heq] at hn
      rw [String.toList_ofList, ← hn, List.takeWhile_append_dropWhile, ← hbefore]
    · cases h
  · split at h <;> cases h

/-- A component that has been read, up to what ends it. -/
theorem worded_of_readComponent {d : Component} (h : readComponent cs = .ok (d, after)) :
    ∃ text, cs = text ++ after ∧ d.Worded True text ∧ Stops after := by
  unfold readComponent at h
  split at h
  · cases h
  rename_i htype
  split at h
  · cases h
  rename_i hvalue
  cases h
  obtain ⟨before, afterType, rfl⟩ := exists_of_readType htype
  obtain ⟨text, beforeValue, n, rfl, hworded, hstops⟩ := valueWorded_of_read hvalue
  exact ⟨_, by simp, .mk before afterType beforeValue n hworded, hstops⟩

/-- A component in front of relative names belongs to the first of them behind a plus sign, and
    is one of its own behind another mark. -/
theorem joined_attach {d : Component} {rs : List Rdn} (hmark : mark ∈ ['+', ',', ';'])
    (hd : d.Worded True text) (hrs : Joined (Rdn.Worded True) [',', ';'] rs rest) :
    Joined (Rdn.Worded True) [',', ';'] (attach d mark rs) (text ++ mark :: rest) := by
  obtain ⟨r, rs, rfl⟩ : ∃ r rs', rs = r :: rs' := by
    cases hrs with
    | one => exact ⟨_, _, rfl⟩
    | cons => exact ⟨_, _, rfl⟩
  rw [attach]
  split
  · rename_i hplus
    subst hplus
    have hfirst {text' : List Char} (hr : r.Worded True text') :
        Rdn.Worded True ⟨d, r.components⟩ (text ++ '+' :: text') :=
      .cons hd (by decide) hr
    cases hrs with
    | one hr => exact .one (hfirst hr)
    | @cons _ _ _ text' _ hr hmark' hs =>
        rw [← List.cons_append, ← List.append_assoc]
        exact .cons (hfirst hr) hmark' hs
  · rename_i hplus
    refine .cons (.one hd) ?_ hrs
    simpa [hplus] using hmark

theorem joined_of_readRdns {rs : List Rdn} (h : readRdns cs = .ok rs) :
    Joined (Rdn.Worded True) [',', ';'] rs cs := by
  fun_induction readRdns cs generalizing rs with
  | case1 | case3 => cases h
  | case2 cs d hread =>
      cases h
      obtain ⟨text, rfl, hd, -⟩ := worded_of_readComponent hread
      rw [List.append_nil]
      exact .one (.one hd)
  | case4 cs d mark rest hread rs' hrest ih =>
      cases h
      obtain ⟨text, rfl, hd, hstops⟩ := worded_of_readComponent hread
      exact joined_attach (hstops mark rfl) hd (ih hrest)

end Name

open Name

theorem Dn.parse_of_worded {text : String} {d : Dn} (hd : d.Legible)
    (h : d.Worded True text.toList) : Dn.parse text = .ok d := by
  have hblank := Name.isAllBlank_worded h
  rw [String.ofList_toList] at hblank
  rw [Dn.parse, hblank, Name.readRdns_of_worded hd h]
  rfl

/-- Just the texts that are blank or spell a name are accepted, as the names they spell. -/
theorem Dn.parse_eq_ok_iff_worded (text : String) (d : Dn) :
    Dn.parse text = .ok d ↔
      isAllBlank text = true ∧ d = .empty ∨ d.Legible ∧ d.Worded True text.toList := by
  constructor
  · intro h
    have hlegible := Dn.legible_of_parse h
    rw [Dn.parse] at h
    split at h
    · rename_i hblank
      cases h
      exact .inl ⟨hblank, rfl⟩
    · split at h
      · rename_i hread
        cases h
        exact .inr ⟨hlegible, Name.joined_of_readRdns hread⟩
      · cases h
  · rintro (⟨hblank, rfl⟩ | ⟨hlegible, hworded⟩)
    · rw [Dn.parse, if_pos hblank]
    · exact Dn.parse_of_worded hlegible hworded

/-- Not only names with nothing but spaces behind a closing quote are accepted: here a value
    goes on behind it. -/
theorem Dn.parse_accepts_resumed : ¬ ∀ text d, Dn.parse text = .ok d →
    isAllBlank text = true ∧ d = .empty ∨ d.Legible ∧ d.Worded False text.toList := by
  intro hall
  have hquoted : Octets PlainQuoted ['a'] (utf8 "a") := .plain (by decide) .nil
  have hbare : BareOctets ['b'] (utf8 "b") := ⟨.plain (by decide) .nil, by decide⟩
  have hvalue : ValueWorded True "ab" ['"', 'a', '"', 'b'] :=
    .resumed trivial hquoted 0 hbare (by decide) (by decide)
  have hcomponent : Component.Worded True ⟨"cn", "ab"⟩ _ := .mk 0 0 0 0 hvalue
  have hrdn : Rdn.Worded True (.single "cn" "ab") _ := .one hcomponent
  have hworded : Dn.Worded True ⟨[.single "cn" "ab"]⟩ _ := .one hrdn
  have hlegible : (Dn.mk [.single "cn" "ab"]).Legible := by decide
  rcases hall "cn=\"a\"b" _ (Dn.parse_of_worded hlegible hworded) with ⟨-, h⟩ | ⟨-, h⟩
  · cases h
  generalize htext : "cn=\"a\"b".toList = text at h
  cases h with
  | cons _ _ hs => cases hs
  | one h =>
  cases h with
  | cons _ _ hs => cases hs
  | one h =>
  cases h with
  | @mk chars before afterType beforeValue after h =>
  -- No part of this text is a space.
  obtain rfl : before = 0 := by
    cases before with
    | zero => rfl
    | succ _ => cases htext
  have hafterType : ['=', '"', 'a', '"', 'b'] = spaces afterType ++ _ :=
    @List.append_cancel_left _ "cn".toList _ _ htext
  obtain rfl : afterType = 0 := by
    cases afterType with
    | zero => rfl
    | succ _ => cases hafterType
  have hbeforeValue : ['"', 'a', '"', 'b'] = spaces beforeValue ++ _ :=
    (List.cons.inj hafterType).2
  obtain rfl : beforeValue = 0 := by
    cases beforeValue with
    | zero => rfl
    | succ _ => cases hbeforeValue
  cases h with
  | bare h =>
      cases chars with
      | nil => exact absurd (h.1.eq_nil_iff.mp rfl) (by decide)
      | cons c chars =>
          have hquote : '"' = c := (List.cons.inj hbeforeValue).1
          exact h.1.head?_bare (congrArg some hquote.symm)
  | @quoted inner h =>
      -- The last character would be the closing quote or a space.
      have hlast : 'b' = (spaces after).getLast?.getD '"' := by
        have hlast := congrArg List.getLast? hbeforeValue
        simpa [spaces, List.getLast?_append, List.getLast?_cons] using hlast
      cases after with
      | zero => cases hlast
      | succ n => simp [spaces, List.getLast?_replicate] at hlast
  | resumed h => exact h

end DirectoryStore
