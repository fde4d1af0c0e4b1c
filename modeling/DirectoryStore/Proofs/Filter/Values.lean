import DirectoryStore.Filter.Reader
import DirectoryStore.Filter.Text
import DirectoryStore.Proofs.Text.Hex

/-!
# Values in filters

A value is spelled by octets: characters that stand for their own bytes, and bytes escaped as
hexadecimal pairs.  Octets read as their bytes in front of whatever follows them, stars
separate values, and what is read has been spelled so.  Every value can be written in octets,
whether it is a text or bytes that are none.
-/

namespace DirectoryStore
namespace Filter

variable {allowed : Bool} {cs rest text text' : List Char} {vs : List Value} {v w : Bytes}
variable {c x y : Char} {b : UInt8}

/-! ## Octets -/

/-- A spelling of bytes: each is escaped as a pair of digits, or belongs to a character that
    stands for itself. -/
inductive Octets : List Char → Bytes → Prop
  /-- No octet. -/
  | nil : Octets [] []
  /-- A character other than NUL, parentheses, star and backslash, and more octets. -/
  | plain {c : Char} {text : List Char} {v : Bytes} (hc : Item.isSpecial c = false)
      (h : Octets text v) :
      Octets (c :: text) (Utf8.encodeChar c ++ v)
  /-- `'\\' digit digit`, and more octets. -/
  | escape {x y : Char} {b : UInt8} {text : List Char} {v : Bytes} (hb : Hex.IsPairOf x y b)
      (h : Octets text v) :
      Octets ('\\' :: x :: y :: text) (b :: v)

theorem Octets.singleton (hc : Item.isSpecial c = false) : Octets [c] (Utf8.encodeChar c) := by
  rw [← List.append_nil (Utf8.encodeChar c)]
  exact Octets.plain hc Octets.nil

theorem Octets.append (h : Octets text v) (h' : Octets text' w) :
    Octets (text ++ text') (v ++ w) := by
  induction h with
  | nil => exact h'
  | plain hc _ ih =>
      rw [List.cons_append, List.append_assoc]
      exact ih.plain hc
  | escape hb _ ih => exact ih.escape hb

theorem Octets.flatMap {α : Type} {f : α → List Char} {g : α → Bytes}
    (h : ∀ x, Octets (f x) (g x)) (xs : List α) : Octets (xs.flatMap f) (xs.flatMap g) := by
  induction xs with
  | nil => exact Octets.nil
  | cons x xs ih =>
      rw [List.flatMap_cons, List.flatMap_cons]
      exact (h x).append ih

/-- Nothing is spelled by nothing, and by nothing else. -/
theorem Octets.eq_nil_iff (h : Octets text v) : text = [] ↔ v = [] := by
  cases h with
  | nil => exact iff_of_true rfl rfl
  | @plain c _ v _ _ =>
      apply iff_of_false (List.cons_ne_nil _ _)
      intro he
      exact Utf8.encodeChar_ne_nil c (List.append_eq_nil_iff.mp he).1
  | escape _ _ => exact iff_of_false (List.cons_ne_nil _ _) (List.cons_ne_nil _ _)

/-! ## Written values -/

theorem octets_escape (b : UInt8) : Octets ('\\' :: Hex.lowerPair b) [b] :=
  Octets.nil.escape (Hex.isPairOf_lower b)

theorem octets_escapeChar (c : Char) : Octets (Item.escapeChar c) (Utf8.encodeChar c) := by
  unfold Item.escapeChar
  split
  · rename_i h
    have hascii : c.toNat < 0x80 := by
      simp only [Item.isSpecial, Bool.or_eq_true, decide_eq_true_eq] at h
      rcases h with (((rfl | rfl) | rfl) | rfl) | rfl <;> decide
    rw [Utf8.encodeChar_of_lt hascii]
    exact octets_escape _
  · rename_i h
    exact Octets.singleton (Bool.not_eq_true _ ▸ h)

theorem octets_escapeByte (b : UInt8) : Octets (Item.escapeByte b) [b] := by
  unfold Item.escapeByte
  split
  · rename_i h
    have hn : (Char.ofNat b.toNat).toNat = b.toNat := Utf8.toNat_ofNat (by omega)
    have hoctets := octets_escapeChar (Char.ofNat b.toNat)
    rwa [Utf8.encodeChar_of_lt (by omega), hn, UInt8.ofNat_toNat] at hoctets
  · exact octets_escape b

/-- A value is written in octets that spell it. -/
theorem octets_valueChars (v : Value) : Octets (Item.valueChars v) v := by
  unfold Item.valueChars
  split
  · rename_i cs h
    have hoctets := Octets.flatMap octets_escapeChar cs
    rwa [← Utf8.encode, Utf8.decode?_eq_some_iff.mp h] at hoctets
  · have hoctets := Octets.flatMap octets_escapeByte v
    rwa [List.flatMap_singleton'] at hoctets

/-! ## Octets are read as what they spell -/

/-- A text that reads as the given bytes, wherever it stands in a value. -/
def Spells (text : List Char) (v : Bytes) : Prop :=
  ∀ allowed rest, readFragments allowed (text ++ rest) =
    (readFragments allowed rest).map (onRead (leadWith v))

theorem leadWith_leadWith (v w : Bytes) (vs : List Value) :
    leadWith v (leadWith w vs) = leadWith (v ++ w) vs := by
  cases vs with
  | nil => rfl
  | cons u vs => rw [leadWith, leadWith, leadWith, List.append_assoc]

theorem leadWith_ne_nil (v : Bytes) (vs : List Value) : leadWith v vs ≠ [] := by
  cases vs <;> exact List.cons_ne_nil _ _

theorem readFragments_cons (hc : c ≠ '\\') (rest : List Char) :
    readFragments allowed (c :: rest) =
      if c = ')' then .ok ([[]], c :: rest)
      else if c = '*' ∧ allowed then (readFragments allowed rest).map (onRead ([] :: ·))
      else if c = '*' ∨ c = '(' ∨ c = '\x00' then .error (.unescaped c, c :: rest)
      else (readFragments allowed rest).map (onRead (leadWith (Utf8.encodeChar c))) := by
  rw [readFragments.eq_def]
  exact if_neg hc

/-- A value has a fragment, be it empty. -/
theorem readFragments_ne_nil (h : readFragments allowed cs = .ok (vs, rest)) : vs ≠ [] := by
  unfold readFragments at h
  split at h
  · cases h
    exact List.cons_ne_nil _ _
  split at h
  · split at h
    · split at h
      · obtain ⟨q, -, hq⟩ := map_eq_ok h
        cases hq
        exact leadWith_ne_nil _ _
      · cases h
    · cases h
  split at h
  · cases h
    exact List.cons_ne_nil _ _
  split at h
  · obtain ⟨q, -, hq⟩ := map_eq_ok h
    cases hq
    exact List.cons_ne_nil _ _
  split at h
  · cases h
  · obtain ⟨q, -, hq⟩ := map_eq_ok h
    cases hq
    exact leadWith_ne_nil _ _

theorem Spells.nil : Spells [] [] := by
  intro allowed rest
  rw [List.nil_append]
  cases h : readFragments allowed rest with
  | error m => rfl
  | ok r =>
      obtain ⟨vs, after⟩ := r
      obtain ⟨u, vs, rfl⟩ := List.exists_cons_of_ne_nil (readFragments_ne_nil h)
      rfl

theorem Spells.append (h : Spells text v) (h' : Spells text' w) :
    Spells (text ++ text') (v ++ w) := by
  intro allowed rest
  rw [List.append_assoc, h, h']
  cases readFragments allowed rest with
  | error m => rfl
  | ok r =>
      simp only [Except.map, onRead, leadWith_leadWith]

theorem spells_escape (hb : Hex.IsPairOf x y b) : Spells ['\\', x, y] [b] := by
  intro allowed rest
  simp only [List.cons_append, List.nil_append, readFragments, if_true,
    Hex.byte?_eq_some_iff.mpr hb]

theorem spells_plain (h : Item.isSpecial c = false) : Spells [c] (Utf8.encodeChar c) := by
  intro allowed rest
  simp only [Item.isSpecial, Bool.or_eq_false_iff, decide_eq_false_iff_not] at h
  obtain ⟨⟨⟨⟨hstar, hopen⟩, hclose⟩, hback⟩, hnul⟩ := h
  rw [List.singleton_append, readFragments_cons hback]
  simp [hstar, hopen, hclose, hnul]

/-- Octets read as the bytes that they spell. -/
theorem Octets.spells (h : Octets text v) : Spells text v := by
  induction h with
  | nil => exact Spells.nil
  | plain hc _ ih => exact (spells_plain hc).append ih
  | escape hb _ ih => exact (spells_escape hb).append ih

/-! ## Values between stars -/

/-- A spelling of values with stars between them. -/
inductive Fragments : List Char → List Value → Prop
  /-- A value without a star. -/
  | last {text : List Char} {v : Value} (h : Octets text v) : Fragments text [v]
  /-- A value, a star and more values. -/
  | star {text texts : List Char} {v : Value} {vs : List Value} (h : Octets text v)
      (hs : Fragments texts vs) :
      Fragments (text ++ '*' :: texts) (v :: vs)

theorem readFragments_close (allowed : Bool) (rest : List Char) :
    readFragments allowed (')' :: rest) = .ok ([[]], ')' :: rest) := by
  rw [readFragments_cons (by decide), if_pos rfl]

theorem readFragments_star (rest : List Char) :
    readFragments true ('*' :: rest) = (readFragments true rest).map (onRead ([] :: ·)) := by
  rw [readFragments_cons (by decide), if_neg (by decide), if_pos ⟨rfl, rfl⟩]

theorem Octets.readFragments (h : Octets text v) (allowed : Bool) (rest : List Char) :
    readFragments allowed (text ++ ')' :: rest) = .ok ([v], ')' :: rest) := by
  rw [h.spells, readFragments_close]
  simp only [Except.map, onRead, leadWith, List.append_nil]

theorem Octets.readValue (h : Octets text v) (rest : List Char) :
    readValue (text ++ ')' :: rest) = .ok (v, ')' :: rest) := by
  rw [Filter.readValue, h.readFragments]
  simp only [Except.map, onRead, List.flatten_singleton]

/-- Stars separate values when they are read. -/
theorem Fragments.read (h : Fragments text vs) (rest : List Char) :
    readFragments true (text ++ ')' :: rest) = .ok (vs, ')' :: rest) := by
  induction h with
  | last h => exact h.readFragments true rest
  | star h _ ih =>
      rw [List.append_assoc, List.cons_append, h.spells, readFragments_star, ih]
      simp only [Except.map, onRead, leadWith, List.append_nil]

/-! ## Parts between stars -/

/-- `part = 1*octet` -/
def IsPart (text : List Char) (v : Value) : Prop :=
  text ≠ [] ∧ Octets text v

/-- `[part]` -/
inductive OptionalPart : List Char → Option Value → Prop
  | absent : OptionalPart [] none
  | present {text : List Char} {v : Value} (h : IsPart text v) : OptionalPart text (some v)

/-- `*(part '*')` -/
inductive StarredParts : List Char → List Value → Prop
  | nil : StarredParts [] []
  | cons {text texts : List Char} {v : Value} {vs : List Value} (h : IsPart text v)
      (hs : StarredParts texts vs) : StarredParts (text ++ '*' :: texts) (v :: vs)

section

variable {initial inner final : List Char} {initial? final? : Option Value} {any : List Value}

theorem IsPart.ne_nil (h : IsPart text v) : v ≠ [] :=
  fun he => h.1 (h.2.eq_nil_iff.mpr he)

theorem Octets.isPart (h : Octets text v) (hv : v ≠ []) : IsPart text v :=
  ⟨fun he => hv (h.eq_nil_iff.mp he), h⟩

theorem OptionalPart.octets (h : OptionalPart text final?) : Octets text (final?.getD []) := by
  cases h with
  | absent => exact Octets.nil
  | present h => exact h.2

theorem OptionalPart.ne_nil (h : OptionalPart text final?) : ∀ v ∈ final?, v ≠ [] := by
  cases h with
  | absent => exact nofun
  | present h =>
      intro v hv
      cases hv
      exact h.ne_nil

theorem StarredParts.ne_nil (h : StarredParts text vs) : ∀ v ∈ vs, v ≠ [] := by
  induction h with
  | nil => exact nofun
  | cons h _ ih => exact List.forall_mem_cons.mpr ⟨h.ne_nil, ih⟩

theorem StarredParts.fragments (h : StarredParts inner any) (hlast : Octets text v) :
    Fragments (inner ++ text) (any ++ [v]) := by
  induction h with
  | nil => exact .last hlast
  | cons h _ ih =>
      rw [List.append_assoc, List.cons_append]
      exact .star h.2 ih

/-- Parts around stars are values between stars, empty where a part is missing. -/
theorem fragments_of_parts (hinitial : OptionalPart initial initial?)
    (hinner : StarredParts inner any) (hfinal : OptionalPart final final?) :
    Fragments (initial ++ '*' :: (inner ++ final))
      (initial?.getD [] :: (any ++ [final?.getD []])) :=
  .star hinitial.octets (hinner.fragments hfinal.octets)

theorem Octets.optionalPart (h : Octets text v) : OptionalPart text (part v) := by
  unfold part
  split
  · rename_i hv
    rw [h.eq_nil_iff.mpr (List.isEmpty_iff.mp hv)]
    exact .absent
  · rename_i hv
    exact .present (h.isPart fun he => hv (List.isEmpty_iff.mpr he))

/-- Values between stars are parts, but for the last, unless one of them is empty. -/
theorem Fragments.parts (h : Fragments text (any ++ [v])) (hany : ∀ u ∈ any, u ≠ []) :
    ∃ inner final, text = inner ++ final ∧ StarredParts inner any ∧ Octets final v := by
  induction any generalizing text with
  | nil =>
      cases h with
      | last h => exact ⟨[], text, rfl, .nil, h⟩
      | star _ hs => cases hs
  | cons u any ih =>
      rw [List.forall_mem_cons] at hany
      rw [List.cons_append] at h
      generalize hvs : any ++ [v] = vs at h
      cases h with
      | last _ => exact absurd hvs (List.append_ne_nil_of_right_ne_nil _ (List.cons_ne_nil _ _))
      | @star text texts _ _ h hs =>
          obtain ⟨inner, final, rfl, hinner, hfinal⟩ := ih (hvs ▸ hs) hany.2
          refine ⟨text ++ '*' :: inner, final, ?_, .cons (h.isPart hany.1) hinner, hfinal⟩
          rw [List.append_assoc, List.cons_append]

end

/-! ## What is read has been spelled -/

theorem Fragments.plain (hc : Item.isSpecial c = false) (h : Fragments text vs) :
    Fragments (c :: text) (leadWith (Utf8.encodeChar c) vs) := by
  cases h with
  | last h => exact .last (h.plain hc)
  | star h hs => exact .star (h.plain hc) hs

theorem Fragments.escape (hb : Hex.IsPairOf x y b) (h : Fragments text vs) :
    Fragments ('\\' :: x :: y :: text) (leadWith [b] vs) := by
  cases h with
  | last h => exact .last (h.escape hb)
  | star h hs => exact .star (h.escape hb) hs

/-- What was read of a value has been spelled, and where stars are not allowed it is one
    value. -/
theorem fragments_of_read {allowed : Bool} {cs rest : List Char} {vs : List Value}
    (h : readFragments allowed cs = .ok (vs, rest)) :
    ∃ text, cs = text ++ rest ∧ Fragments text vs ∧ (allowed = false → ∃ v, vs = [v]) := by
  fun_induction Filter.readFragments allowed cs generalizing vs rest with
  | case1 =>
      cases h
      exact ⟨[], rfl, .last .nil, fun _ => ⟨[], rfl⟩⟩
  | case2 x y more b hb ih =>
      obtain ⟨⟨us, after⟩, hread, hr⟩ := map_eq_ok h
      obtain ⟨text, rfl, htext, hone⟩ := ih hread
      cases hr
      refine ⟨'\\' :: x :: y :: text, rfl, htext.escape (Hex.byte?_eq_some_iff.mp hb), ?_⟩
      intro hall
      obtain ⟨u, rfl⟩ := hone hall
      exact ⟨[b] ++ u, rfl⟩
  | case3 | case4 | case7 => cases h
  | case5 more hback =>
      cases h
      exact ⟨[], rfl, .last .nil, fun _ => ⟨[], rfl⟩⟩
  | case6 c more hback hclose hstar ih =>
      obtain ⟨⟨us, after⟩, hread, hr⟩ := map_eq_ok h
      obtain ⟨text, rfl, htext, -⟩ := ih hread
      cases hr
      rw [hstar.1]
      refine ⟨'*' :: text, rfl, .star .nil htext, ?_⟩
      intro hall
      cases hall.symm.trans hstar.2
  | case8 c more hback hclose hstar hbad ih =>
      obtain ⟨⟨us, after⟩, hread, hr⟩ := map_eq_ok h
      obtain ⟨text, rfl, htext, hone⟩ := ih hread
      cases hr
      simp only [not_or] at hbad
      have hplain : Item.isSpecial c = false := by
        simp [Item.isSpecial, hback, hclose, hbad]
      refine ⟨c :: text, rfl, htext.plain hplain, ?_⟩
      intro hall
      obtain ⟨u, rfl⟩ := hone hall
      exact ⟨Utf8.encodeChar c ++ u, rfl⟩

theorem octets_of_readValue (h : Filter.readValue cs = .ok (v, rest)) :
    ∃ text, cs = text ++ rest ∧ Octets text v := by
  obtain ⟨⟨vs, after⟩, hread, hv⟩ := map_eq_ok h
  obtain ⟨text, hcs, htext, hone⟩ := fragments_of_read hread
  obtain ⟨v', rfl⟩ := hone rfl
  cases hv
  cases htext with
  | last htext => exact ⟨text, hcs, by rwa [List.flatten_singleton]⟩
  | star _ hs => cases hs

end Filter
end DirectoryStore
