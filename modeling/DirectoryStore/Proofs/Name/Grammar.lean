import DirectoryStore.Name.Reader
import DirectoryStore.Name.Text
import DirectoryStore.Proofs.Text.Hex

/-!
# Legal spellings of names

A name can be spelled in many ways: each character of a value by itself, behind a backslash or
as escaped bytes, a value with or without quotes, and any number of spaces around every part.
Whatever is chosen, the text is read as that name.  The choices meet at the end of a value
without quotes, where spaces that stand for themselves do not count: there the last character
of the value is never such a space.
-/

namespace DirectoryStore

/-- An attribute type that can be read: a word of name characters. -/
def Component.Legible (c : Component) : Prop :=
  c.type ≠ "" ∧ ∀ x ∈ c.type.toList, isNameChar x = true

/-- All attribute types can be read. -/
def Rdn.Legible (r : Rdn) : Prop :=
  ∀ c ∈ r.components, c.Legible

/-- All attribute types can be read. -/
def Dn.Legible (d : Dn) : Prop :=
  ∀ r ∈ d.rdns, r.Legible

instance (c : Component) : Decidable c.Legible :=
  decidable_of_iff (c.type ≠ "" ∧ c.type.toList.all isNameChar = true)
    (and_congr_right fun _ => List.all_eq_true)

instance (r : Rdn) : Decidable r.Legible :=
  inferInstanceAs (Decidable (∀ c ∈ r.components, c.Legible))

instance (d : Dn) : Decidable d.Legible :=
  inferInstanceAs (Decidable (∀ r ∈ d.rdns, r.Legible))

namespace Name

/-! ## Spellings -/

/-- A backslash and two digits for each byte. -/
inductive EscapedBytes : Bytes → List Char → Prop
  | nil : EscapedBytes [] []
  | cons {x y : Char} {b : UInt8} {bs : Bytes} {text : List Char} (h : Hex.IsPairOf x y b)
      (hs : EscapedBytes bs text) : EscapedBytes (b :: bs) ('\\' :: x :: y :: text)

/-- A spelling of a character, where `bare` says whether it may stand for itself. -/
inductive CharSpelled (bare : Prop) (c : Char) : List Char → Prop
  /-- The character itself. -/
  | itself (h : bare) : CharSpelled bare c [c]
  /-- A backslash and the character. -/
  | escaped (h : c ∈ escapable) : CharSpelled bare c ['\\', c]
  /-- Its bytes, all of them escaped. -/
  | bytes {text : List Char} (h : EscapedBytes (Utf8.encodeChar c) text) :
      CharSpelled bare c text

/-- A value without quotes, given whether its start is still to come.  Marks of the notation do
    not stand for themselves, and neither does a space that is the first character or the
    last. -/
inductive Unquoted : Bool → List Char → List Char → Prop
  | nil {isFirst : Bool} : Unquoted isFirst [] []
  | cons {isFirst : Bool} {c : Char} {cs text texts : List Char}
      (h : CharSpelled (c ∉ specials ∧ (c = ' ' → isFirst = false ∧ cs ≠ [])) c text)
      (hs : Unquoted false cs texts) : Unquoted isFirst (c :: cs) (text ++ texts)

/-- A value between quotes, where only quotes and backslashes do not stand for themselves. -/
inductive Quoted : List Char → List Char → Prop
  | nil : Quoted [] []
  | cons {c : Char} {cs text texts : List Char}
      (h : CharSpelled (c ≠ '"' ∧ c ≠ '\\') c text) (hs : Quoted cs texts) :
      Quoted (c :: cs) (text ++ texts)

/-- A spelling of a value, with quotes or without. -/
inductive ValueSpelled (value : String) : List Char → Prop
  | unquoted {text : List Char} (h : Unquoted true value.toList text) :
      ValueSpelled value text
  | quoted {text : List Char} (h : Quoted value.toList text) :
      ValueSpelled value ('"' :: (text ++ ['"']))

/-- Any number of spaces. -/
def spaces (n : Nat) : List Char :=
  List.replicate n ' '

/-- Spellings of things, one or more, each with one of the marks before the next. -/
inductive Joined {α : Type} (Spelled : α → List Char → Prop) (marks : List Char) :
    List α → List Char → Prop
  | one {a : α} {text : List Char} (h : Spelled a text) : Joined Spelled marks [a] text
  | cons {a : α} {as : List α} {mark : Char} {text texts : List Char} (h : Spelled a text)
      (hmark : mark ∈ marks) (hs : Joined Spelled marks as texts) :
      Joined Spelled marks (a :: as) (text ++ mark :: texts)

/-! ## Octets

The reader decodes bytes, not characters: escaped bytes and characters that stand for
themselves may together make a character.  Spellings by octets therefore allow more than the
spellings above, and they are all that is read.
-/

/-- Characters that stand for themselves, escaped characters and escaped bytes, with the bytes
    of them all.  `Plain c text` says that `c` may stand for itself in front of `text`. -/
inductive Octets (Plain : Char → List Char → Prop) : List Char → Bytes → Prop
  | nil : Octets Plain [] []
  | plain {c : Char} {text : List Char} {bs : Bytes} (h : Plain c text)
      (hs : Octets Plain text bs) : Octets Plain (c :: text) (Utf8.encodeChar c ++ bs)
  | escaped {c : Char} {text : List Char} {bs : Bytes} (h : c ∈ escapable)
      (hs : Octets Plain text bs) : Octets Plain ('\\' :: c :: text) (Utf8.encodeChar c ++ bs)
  | byte {x y : Char} {b : UInt8} {text : List Char} {bs : Bytes} (h : Hex.IsPairOf x y b)
      (hs : Octets Plain text bs) : Octets Plain ('\\' :: x :: y :: text) (b :: bs)

/-- What may stand for itself without quotes: no mark of the notation, and a space only in
    front of something else. -/
def PlainBare (c : Char) (text : List Char) : Prop :=
  c ∉ specials ∧ (c = ' ' → text ≠ [])

/-- What may stand for itself between quotes: all but quotes and backslashes. -/
def PlainQuoted (c : Char) (_ : List Char) : Prop :=
  c ≠ '"' ∧ c ≠ '\\'

instance (c : Char) (text : List Char) : Decidable (PlainBare c text) :=
  inferInstanceAs (Decidable (c ∉ specials ∧ (c = ' ' → text ≠ [])))

instance (c : Char) (text : List Char) : Decidable (PlainQuoted c text) :=
  inferInstanceAs (Decidable (c ≠ '"' ∧ c ≠ '\\'))

/-- Text without quotes that has no spaces around it, with its bytes. -/
def BareOctets (text : List Char) (bs : Bytes) : Prop :=
  Octets PlainBare text bs ∧ text.head? ≠ some ' '

/-- A spelling of a value by octets.  `resumes` says whether the value may go on behind its
    closing quote. -/
inductive ValueWorded (resumes : Prop) (value : String) : List Char → Prop
  | bare {text : List Char} (h : BareOctets text (utf8 value)) : ValueWorded resumes value text
  | quoted {text : List Char} (h : Octets PlainQuoted text (utf8 value)) :
      ValueWorded resumes value ('"' :: (text ++ ['"']))
  | resumed {text more : List Char} {bs bs' : Bytes} (h : resumes)
      (hquoted : Octets PlainQuoted text bs) (gap : Nat) (hbare : BareOctets more bs')
      (hmore : more ≠ []) (hvalue : utf8 value = bs ++ bs') :
      ValueWorded resumes value ('"' :: (text ++ '"' :: (spaces gap ++ more)))

end Name

open Name

/-- A spelling of a component, with spaces around its type and its value. -/
inductive Component.Spelled (c : Component) : List Char → Prop
  | mk {text : List Char} (before afterType beforeValue after : Nat)
      (h : ValueSpelled c.value text) :
      Spelled c (spaces before ++ (c.type.toList ++ (spaces afterType ++
        '=' :: (spaces beforeValue ++ (text ++ spaces after)))))

/-- A spelling of a relative name: components around plus signs. -/
def Rdn.Spelled (r : Rdn) : List Char → Prop :=
  Joined Component.Spelled ['+'] r.components

/-- A spelling of a name that is not empty: relative names around commas or semicolons. -/
def Dn.Spelled (d : Dn) : List Char → Prop :=
  Joined Rdn.Spelled [',', ';'] d.rdns

/-- A spelling of a component by octets, with spaces around its type and its value. -/
inductive Component.Worded (resumes : Prop) (c : Component) : List Char → Prop
  | mk {text : List Char} (before afterType beforeValue after : Nat)
      (h : ValueWorded resumes c.value text) :
      Worded resumes c (spaces before ++ (c.type.toList ++ (spaces afterType ++
        '=' :: (spaces beforeValue ++ (text ++ spaces after)))))

/-- A spelling of a relative name by octets: components around plus signs. -/
def Rdn.Worded (resumes : Prop) (r : Rdn) : List Char → Prop :=
  Joined (Component.Worded resumes) ['+'] r.components

/-- A spelling by octets of a name that is not empty: relative names around commas or
    semicolons. -/
def Dn.Worded (resumes : Prop) (d : Dn) : List Char → Prop :=
  Joined (Rdn.Worded resumes) [',', ';'] d.rdns

namespace Name

variable {c mark : Char} {cs rest after text texts : List Char} {isFirst : Bool}
variable {bs bs' : Bytes} {ps qs : List Piece} {region : Region} {resumes : Prop}
variable {Plain : Char → List Char → Prop} {value : String}

/-! ## Spellings by characters are spellings by octets -/

theorem Octets.eq_nil_iff (h : Octets Plain text bs) : text = [] ↔ bs = [] := by
  cases h with
  | nil => simp
  | plain | escaped => simp [Utf8.encodeChar_ne_nil]
  | byte => simp

theorem EscapedBytes.octets (h : EscapedBytes bs text) (hs : Octets Plain texts bs') :
    Octets Plain (text ++ texts) (bs ++ bs') := by
  induction h with
  | nil => exact hs
  | cons hpair _ ih => exact .byte hpair ih

/-- A character in front of a text, where `bare` allows it to stand for itself there. -/
theorem CharSpelled.octets {bare : Prop} (h : CharSpelled bare c text)
    (hplain : bare → Plain c texts) (hs : Octets Plain texts bs) :
    Octets Plain (text ++ texts) (Utf8.encodeChar c ++ bs) := by
  cases h with
  | itself h => exact .plain (hplain h) hs
  | escaped h => exact .escaped h hs
  | bytes h => exact h.octets hs

theorem Unquoted.octets (h : Unquoted isFirst cs text) :
    Octets PlainBare text (Utf8.encode cs) := by
  induction h with
  | nil => exact .nil
  | @cons isFirst c cs text texts h _ ih =>
      rw [Utf8.encode_cons]
      refine h.octets (fun hbare => ⟨hbare.1, fun hspace htexts => ?_⟩) ih
      -- The characters behind a space that stands for itself are spelled somehow.
      cases cs with
      | nil => exact (hbare.2 hspace).2 rfl
      | cons d cs =>
          have hnil := ih.eq_nil_iff.mp htexts
          rw [Utf8.encode_cons] at hnil
          exact Utf8.encodeChar_ne_nil d (List.append_eq_nil_iff.mp hnil).1

theorem Quoted.octets (h : Quoted cs text) : Octets PlainQuoted text (Utf8.encode cs) := by
  induction h with
  | nil => exact .nil
  | cons h _ ih =>
      rw [Utf8.encode_cons]
      exact h.octets id ih

/-- A value without quotes does not start with a space. -/
theorem Unquoted.head? (h : Unquoted true cs text) : text.head? ≠ some ' ' := by
  cases h with
  | nil => exact nofun
  | @cons _ c _ _ _ h _ =>
  cases h with
  | itself h =>
      rintro hspace
      exact Bool.noConfusion (h.2 (Option.some.inj hspace)).1
  | escaped _ => simp
  | bytes h =>
      generalize hbs : Utf8.encodeChar c = bs at h
      cases h with
      | nil => exact absurd hbs (Utf8.encodeChar_ne_nil c)
      | cons _ _ => simp

theorem ValueSpelled.worded (h : ValueSpelled value text) : ValueWorded resumes value text := by
  cases h with
  | unquoted h => exact .bare ⟨h.octets, h.head?⟩
  | quoted h => exact .quoted h.octets

theorem Joined.imp {α : Type} {Spelled Spelled' : α → List Char → Prop} {marks : List Char}
    {as : List α} (h : Joined Spelled marks as text)
    (himp : ∀ a text, Spelled a text → Spelled' a text) : Joined Spelled' marks as text := by
  induction h with
  | one h => exact .one (himp _ _ h)
  | cons h hmark _ ih => exact .cons (himp _ _ h) hmark ih

theorem component_worded {c : Component} (h : c.Spelled text) : c.Worded resumes text := by
  cases h with
  | mk before afterType beforeValue after h => exact .mk before afterType beforeValue after h.worded

theorem rdn_worded {r : Rdn} (h : r.Spelled text) : r.Worded resumes text :=
  Joined.imp h fun _ _ => component_worded

/-! ## Characters -/

theorem map_ahead_nil (r : Except Fault (List Piece × List Char)) : r.map (ahead []) = r := by
  cases r <;> rfl

theorem map_ahead_ahead (r : Except Fault (List Piece × List Char)) :
    (r.map (ahead qs)).map (ahead ps) = r.map (ahead (ps ++ qs)) := by
  cases r with
  | error _ => rfl
  | ok r => simp only [Except.map, ahead, List.append_assoc]

theorem firmPieces_bytes (c : Char) : (firmPieces c).map Piece.byte = Utf8.encodeChar c := by
  simp [firmPieces, Function.comp_def]

/-- Between quotes and outside, what stands behind an escape is where the escape stood. -/
theorem readPieces_escape (hregion : region.afterEscape = region) (hc : c ∈ escapable)
    (rest : List Char) : readPieces region ('\\' :: c :: rest) =
      (readPieces region rest).map (ahead (firmPieces c)) := by
  have hdigit : Hex.isDigit c = false := by
    have hall : (escapable.all fun x => !Hex.isDigit x) = true := by decide
    exact Bool.not_eq_true' _ |>.mp (List.all_eq_true.mp hall c hc)
  cases rest with
  | nil => simp [readPieces, hdigit, hc, hregion]
  | cons d rest => simp [readPieces, hdigit, hc, hregion]

theorem readPieces_hex (hregion : region.afterEscape = region) {x y : Char} {b : UInt8}
    (h : Hex.IsPairOf x y b) (rest : List Char) : readPieces region ('\\' :: x :: y :: rest) =
      (readPieces region rest).map (ahead [⟨b, true⟩]) := by
  rw [readPieces, if_pos h.1.isDigit]
  simp only [Hex.byte?_eq_some_iff.mpr h, hregion]

theorem readPieces_plain (hc : c ∉ specials) (hs : c ≠ ' ') (rest : List Char) :
    readPieces .bare (c :: rest) = (readPieces .bare rest).map (ahead (firmPieces c)) := by
  simp only [specials, List.mem_cons, List.not_mem_nil, or_false, not_or] at hc
  rw [readPieces]
  · rw [if_neg, if_neg, if_pos hs]
    · simp [hc]
    · simp [hc]
  · simp [hc]
  · simp [hc]
  · simp

theorem readPieces_space (rest : List Char) :
    readPieces .bare (' ' :: rest) = (readPieces .bare rest).map (ahead [⟨0x20, false⟩]) := by
  rw [readPieces]
  · rfl
  · simp
  · simp
  · simp

theorem readPieces_quoted (hc : c ≠ '"' ∧ c ≠ '\\') (rest : List Char) :
    readPieces .quoted (c :: rest) = (readPieces .quoted rest).map (ahead (firmPieces c)) := by
  rw [readPieces]
  · rw [if_neg hc.1]
  · simp [hc.2]
  · simp [hc.2]

/-! ## Values -/

/-- Pieces that give up nothing at their end. -/
def EndsFirm (ps : List Piece) : Prop :=
  ∀ p, ps.getLast? = some p → p.isFirm = true

theorem endsFirm_firmPieces (c : Char) : EndsFirm (firmPieces c) := by
  intro p hp
  obtain ⟨b, -, rfl⟩ := List.mem_map.mp (List.mem_of_getLast? hp)
  rfl

theorem EndsFirm.append (hqs : EndsFirm qs) (hps : qs = [] → EndsFirm ps) :
    EndsFirm (ps ++ qs) := by
  intro p hp
  rw [List.getLast?_append] at hp
  cases hq : qs.getLast? with
  | none =>
      rw [hq, Option.none_or] at hp
      exact hps (List.getLast?_eq_none_iff.mp hq) p hp
  | some q =>
      rw [hq] at hp
      cases hp
      exact hqs _ hq

theorem settle_of_firm (h : EndsFirm ps) : settle ps = ps.map Piece.byte := by
  rcases List.eq_nil_or_concat ps with rfl | ⟨qs, p, rfl⟩
  · rfl
  · have hp := h p (by simp)
    simp [settle, hp]

theorem settle_append (ps qs : List Piece) :
    settle (ps ++ qs) =
      if settle qs = [] then settle ps else ps.map Piece.byte ++ settle qs := by
  simp only [settle, List.reverse_append, List.dropWhile_append, List.isEmpty_iff,
    List.map_eq_nil_iff, List.reverse_eq_nil_iff]
  split
  · rfl
  · simp

/-- What follows firm pieces counts as it counts alone. -/
theorem settle_append_of_firm (h : EndsFirm ps) (qs : List Piece) :
    settle (ps ++ qs) = ps.map Piece.byte ++ settle qs := by
  rw [settle_append]
  split
  · rename_i hqs
    rw [hqs, settle_of_firm h, List.append_nil]
  · rfl

/-- Spaces that stand for themselves do not count at the end. -/
theorem settle_loose (n : Nat) : settle (List.replicate n ⟨0x20, false⟩) = [] := by
  rw [settle, List.reverse_replicate, List.dropWhile_replicate]
  rfl

/-- Octets come out as their bytes, the last of them firm, if what stands for itself does. -/
theorem Octets.read (hregion : region.afterEscape = region) (h : Octets Plain text bs)
    (hplain : ∀ c text rest, Plain c text →
      ∃ ps, readPieces region (c :: rest) = (readPieces region rest).map (ahead ps) ∧
        ps.map Piece.byte = Utf8.encodeChar c ∧ (text = [] → EndsFirm ps)) (rest : List Char) :
    ∃ ps, readPieces region (text ++ rest) = (readPieces region rest).map (ahead ps) ∧
      ps.map Piece.byte = bs ∧ EndsFirm ps := by
  have hfirst {first qs : List Piece} {text rest : List Char}
      (hread : readPieces region rest = (readPieces region text).map (ahead qs)) :
      (readPieces region rest).map (ahead first) =
        (readPieces region text).map (ahead (first ++ qs)) := by
    rw [hread, map_ahead_ahead]
  induction h with
  | nil => exact ⟨[], (map_ahead_nil _).symm, rfl, nofun⟩
  | @plain c text bs h hs ih =>
      obtain ⟨qs, hread, hbytes, hlast⟩ := ih
      obtain ⟨ps, hstep, hchar, hfirm⟩ := hplain c text (text ++ rest) h
      refine ⟨ps ++ qs, hstep.trans (hfirst hread), ?_, hlast.append fun hqs => hfirm ?_⟩
      · rw [List.map_append, hchar, hbytes]
      · rw [hs.eq_nil_iff, ← hbytes, hqs]
        rfl
  | @escaped c _ _ h _ ih =>
      obtain ⟨qs, hread, hbytes, hlast⟩ := ih
      refine ⟨firmPieces c ++ qs, (readPieces_escape hregion h _).trans (hfirst hread), ?_,
        hlast.append fun _ => endsFirm_firmPieces c⟩
      rw [List.map_append, firmPieces_bytes, hbytes]
  | @byte _ _ b _ _ h _ ih =>
      obtain ⟨qs, hread, hbytes, hlast⟩ := ih
      refine ⟨[⟨b, true⟩] ++ qs, (readPieces_hex hregion h _).trans (hfirst hread), ?_,
        hlast.append fun _ p hp => ?_⟩
      · rw [List.map_append, hbytes]
        rfl
      · cases hp
        rfl

/-- Octets without quotes come out as their bytes. -/
theorem Octets.read_bare (h : Octets PlainBare text bs) (rest : List Char) :
    ∃ ps, readPieces .bare (text ++ rest) = (readPieces .bare rest).map (ahead ps) ∧
      ps.map Piece.byte = bs ∧ EndsFirm ps := by
  refine h.read rfl (fun c text rest hplain => ?_) rest
  by_cases hspace : c = ' '
  · rw [hspace]
    exact ⟨[⟨0x20, false⟩], readPieces_space rest, rfl,
      fun htext => absurd htext (hplain.2 hspace)⟩
  · exact ⟨firmPieces c, readPieces_plain hplain.1 hspace rest, firmPieces_bytes c,
      fun _ => endsFirm_firmPieces c⟩

/-- Octets between quotes come out as their bytes. -/
theorem Octets.read_quoted (h : Octets PlainQuoted text bs) (rest : List Char) :
    ∃ ps, readPieces .quoted (text ++ '"' :: rest) = (readPieces .closed rest).map (ahead ps) ∧
      ps.map Piece.byte = bs ∧ EndsFirm ps := by
  have hclose : readPieces .quoted ('"' :: rest) = readPieces .closed rest := by
    rw [readPieces, if_pos rfl]
    · simp
    · simp
  rw [← hclose]
  exact h.read rfl (fun c _ rest hplain => ⟨firmPieces c, readPieces_quoted hplain rest,
    firmPieces_bytes c, fun _ => endsFirm_firmPieces c⟩) ('"' :: rest)

/-- What ends a value: the end of the text, or a separator. -/
def Stops (after : List Char) : Prop :=
  ∀ x, after.head? = some x → x ∈ ['+', ',', ';']

theorem Stops.nil : Stops [] :=
  nofun

theorem stops_cons (h : mark ∈ ['+', ',', ';']) (rest : List Char) : Stops (mark :: rest) := by
  intro x hx
  cases hx
  exact h

theorem spaces_succ (n : Nat) : spaces (n + 1) = ' ' :: spaces n :=
  rfl

theorem readPieces_stops (h : Stops after) (hregion : region ≠ .quoted) :
    readPieces region after = .ok ([], after) := by
  cases after with
  | nil => cases region <;> first | rfl | exact absurd rfl hregion
  | cons x rest =>
      have hx : x = '+' ∨ x = ',' ∨ x = ';' := by simpa using h x rfl
      have hback : x ≠ '\\' := by rcases hx with rfl | rfl | rfl <;> decide
      rw [readPieces]
      · rw [if_pos hx]
      · simp [hback]
      · simp [hback]
      · exact hregion

/-- Spaces after a value come out loose. -/
theorem readPieces_spaces (h : Stops after) (n : Nat) :
    readPieces .bare (spaces n ++ after) = .ok (List.replicate n ⟨0x20, false⟩, after) := by
  induction n with
  | zero => exact readPieces_stops h nofun
  | succ n ih =>
      rw [spaces_succ, List.cons_append, readPieces_space, ih]
      rfl

theorem skipSpaces_cons (hc : c ≠ ' ') (cs : List Char) : skipSpaces (c :: cs) = c :: cs := by
  simp [skipSpaces, hc]

theorem skipSpaces_spaces (n : Nat) (rest : List Char) :
    skipSpaces (spaces n ++ rest) = skipSpaces rest := by
  induction n with
  | zero => rfl
  | succ n ih =>
      rw [← ih, spaces_succ, List.cons_append]
      rfl

theorem skipSpaces_stops (h : Stops after) : skipSpaces after = after := by
  cases after with
  | nil => rfl
  | cons x rest =>
      apply skipSpaces_cons
      rintro rfl
      exact absurd (h ' ' rfl) (by decide)

/-- After the closing quote spaces are skipped, and then the value is read as without quotes. -/
theorem readPieces_closed (cs : List Char) :
    readPieces .closed cs = readPieces .bare (skipSpaces cs) := by
  induction cs with
  | nil => rfl
  | cons c cs ih =>
      by_cases hspace : c = ' '
      · rw [hspace, readPieces]
        · exact ih
        · simp
        · simp
        · simp
      · rw [skipSpaces_cons hspace]
        by_cases hback : c = '\\'
        · rw [hback]
          cases cs with
          | nil => rfl
          | cons d rest => cases rest <;> rfl
        · rw [readPieces, readPieces]
          · simp [hspace]
          all_goals simp [hback]

/-- Text without quotes is read up to its end, without the spaces around it. -/
theorem BareOctets.read (h : BareOctets text bs) (hafter : Stops after) (n : Nat) :
    ∃ ps, readPieces .bare (skipSpaces (text ++ (spaces n ++ after))) = .ok (ps, after) ∧
      settle ps = bs := by
  obtain ⟨hoctets, hhead⟩ := h
  cases text with
  | nil =>
      -- All the spaces stand in front of the separator.
      refine ⟨[], ?_, (hoctets.eq_nil_iff.mp rfl).symm⟩
      rw [List.nil_append, skipSpaces_spaces, skipSpaces_stops hafter]
      exact readPieces_stops hafter nofun
  | cons c text =>
      have hspace : c ≠ ' ' := fun hc => hhead (by rw [hc]; rfl)
      obtain ⟨ps, hread, hbytes, hlast⟩ := hoctets.read_bare (spaces n ++ after)
      refine ⟨ps ++ List.replicate n ⟨0x20, false⟩, ?_, ?_⟩
      · rw [List.cons_append, skipSpaces_cons hspace, ← List.cons_append, hread,
          readPieces_spaces hafter]
        rfl
      · rw [settle_append_of_firm hlast, settle_loose, hbytes, List.append_nil]

theorem text?_eq_some_iff : Utf8.text? bs = some value ↔ utf8 value = bs := by
  rw [Utf8.text?, Option.map_eq_some_iff, utf8, ← Utf8.decode?_eq_some_iff]
  constructor
  · rintro ⟨cs, hcs, rfl⟩
    rwa [String.toList_ofList]
  · exact fun h => ⟨_, h, String.ofList_toList⟩

/-- A text of octets without quotes does not start with a quote. -/
theorem Octets.head?_bare (h : Octets PlainBare text bs) : text.head? ≠ some '"' := by
  cases h with
  | nil => exact nofun
  | plain h => exact fun hc => h.1 (by rw [Option.some.inj hc]; decide)
  | escaped | byte => simp

theorem readValue_bare (h : BareOctets text (utf8 value)) (hafter : Stops after) (m n : Nat) :
    readValue (spaces m ++ (text ++ (spaces n ++ after))) = .ok (value, after) := by
  obtain ⟨ps, hread, hbytes⟩ := h.read hafter n
  have hhead : ∀ rest, skipSpaces (text ++ (spaces n ++ after)) ≠ '"' :: rest := by
    intro rest hskip
    cases text with
    | nil =>
        rw [List.nil_append, skipSpaces_spaces, skipSpaces_stops hafter] at hskip
        exact absurd (hafter '"' (by rw [hskip]; rfl)) (by decide)
    | cons c text =>
        rw [List.cons_append, skipSpaces_cons (fun hc => h.2 (by rw [hc]; rfl))] at hskip
        cases hskip
        exact h.1.head?_bare rfl
  rw [readValue, skipSpaces_spaces]
  split
  · rename_i heq
    split at heq
    · rename_i hskip
      exact absurd hskip (hhead _)
    · rw [hread] at heq
      cases heq
  · rename_i heq
    split at heq
    · rename_i hskip
      exact absurd hskip (hhead _)
    · rw [hread] at heq
      cases heq
      rw [text?_eq_some_iff.mpr hbytes.symm]

/-- A value between quotes is read together with what it goes on with. -/
theorem readValue_quoted (hquoted : Octets PlainQuoted text bs) (hbare : BareOctets texts bs')
    (hvalue : utf8 value = bs ++ bs') (hafter : Stops after) (m gap n : Nat) :
    readValue (spaces m ++
      '"' :: (text ++ '"' :: (spaces gap ++ (texts ++ (spaces n ++ after))))) =
        .ok (value, after) := by
  obtain ⟨ps, hread, hbytes, hlast⟩ :=
    hquoted.read_quoted (spaces gap ++ (texts ++ (spaces n ++ after)))
  obtain ⟨qs, hrest, hmore⟩ := hbare.read hafter n
  rw [readPieces_closed, skipSpaces_spaces, hrest] at hread
  have hsettle : utf8 value = settle (ps ++ qs) := by
    rw [settle_append_of_firm hlast, hbytes, hmore, hvalue]
  rw [readValue, skipSpaces_spaces, skipSpaces_cons (by decide)]
  simp only [hread, Except.map, ahead, text?_eq_some_iff.mpr hsettle]

/-- However a value is spelled, it is read up to the separator that ends it. -/
theorem ValueWorded.read (h : ValueWorded resumes value text) (hafter : Stops after)
    (m n : Nat) : readValue (spaces m ++ (text ++ (spaces n ++ after))) = .ok (value, after) := by
  cases h with
  | bare h => exact readValue_bare h hafter m n
  | quoted h =>
      have hread := readValue_quoted h ⟨.nil, nofun⟩ (List.append_nil _).symm hafter m 0 n
      simpa [spaces] using hread
  | resumed _ hquoted gap hbare _ hvalue =>
      have hread := readValue_quoted hquoted hbare hvalue hafter m gap n
      simpa using hread

/-! ## Components and names -/

theorem isNameChar_ne_space (h : isNameChar c = true) : c ≠ ' ' := by
  rintro rfl
  exact absurd h (by decide)

/-- A type is read up to the `=` behind it, with the spaces around it. -/
theorem readType_spaces {type : String} (hne : type ≠ "")
    (h : ∀ x ∈ type.toList, isNameChar x = true) (m n : Nat) (rest : List Char) :
    readType (spaces m ++ (type.toList ++ (spaces n ++ '=' :: rest))) = .ok (type, rest) := by
  have hword : type.toList ≠ [] := fun he => hne (String.toList_eq_nil_iff.mp he)
  have hstart : skipSpaces (spaces m ++ (type.toList ++ (spaces n ++ '=' :: rest))) =
      type.toList ++ (spaces n ++ '=' :: rest) := by
    rw [skipSpaces_spaces]
    cases hcs : type.toList with
    | nil => exact absurd hcs hword
    | cons c cs =>
        rw [hcs] at h
        exact skipSpaces_cons (isNameChar_ne_space (h c List.mem_cons_self)) _
  obtain ⟨x, more, hafter, hx, hmark⟩ : ∃ x more, spaces n ++ '=' :: rest = x :: more ∧
      isNameChar x = false ∧ (x = '=' ∨ x = ' ') := by
    cases n with
    | zero => exact ⟨'=', rest, rfl, by decide, .inl rfl⟩
    | succ n => exact ⟨' ', spaces n ++ '=' :: rest, rfl, by decide, .inr rfl⟩
  have htake : (type.toList ++ x :: more).takeWhile isNameChar = type.toList := by
    rw [List.takeWhile_append_of_pos h, List.takeWhile_cons_of_neg (Bool.not_eq_true _ ▸ hx),
      List.append_nil]
  have hdrop : (type.toList ++ x :: more).dropWhile isNameChar = x :: more := by
    rw [List.dropWhile_append_of_pos h, List.dropWhile_cons_of_neg (Bool.not_eq_true _ ▸ hx)]
  have hequals : skipSpaces (x :: more) = '=' :: rest := by
    rw [← hafter, skipSpaces_spaces]
    exact skipSpaces_cons (by decide) rest
  rw [hafter] at hstart ⊢
  have hmark' : ¬ (x ≠ '=' ∧ x ≠ ' ') := by
    rcases hmark with rfl | rfl <;> simp
  simp [readType, hstart, htake, hdrop, hmark', hne, hequals]

/-- However a component is spelled, it is read up to the separator that ends it. -/
theorem readComponent_worded {d : Component} (hd : d.Legible) (h : d.Worded resumes text)
    (hafter : Stops after) : readComponent (text ++ after) = .ok (d, after) := by
  cases h with
  | mk before afterType beforeValue n h =>
      have htype := readType_spaces hd.1 hd.2 before afterType
      have hvalue := h.read hafter beforeValue n
      simp only [List.append_assoc, List.cons_append]
      rw [readComponent, htype]
      simp only [hvalue]

theorem readRdns_end {d : Component} (h : readComponent cs = .ok (d, [])) :
    readRdns cs = .ok [⟨d, []⟩] := by
  rw [readRdns]
  split <;> rename_i heq <;> rw [h] at heq <;> cases heq
  rfl

theorem readRdns_mark {d : Component} (h : readComponent cs = .ok (d, mark :: rest)) :
    readRdns cs = (readRdns rest).map (attach d mark) := by
  rw [readRdns]
  split <;> rename_i heq <;> rw [h] at heq <;> cases heq
  cases readRdns rest <;> rfl

/-- However a relative name is spelled, it is read in front of the names after it. -/
theorem readRdns_worded {r : Rdn} (hr : r.Legible) (h : r.Worded resumes text) {rs : List Rdn}
    (hafter : after = [] ∧ rs = [] ∨
      ∃ mark rest, mark ∈ [',', ';'] ∧ after = mark :: rest ∧ readRdns rest = .ok rs) :
    readRdns (text ++ after) = .ok (r :: rs) := by
  obtain ⟨d, more⟩ := r
  have hd := hr d List.mem_cons_self
  induction more generalizing d text with
  | nil =>
      cases h with
      | cons _ _ hs => cases hs
      | one h =>
          rcases hafter with ⟨rfl, rfl⟩ | ⟨mark, rest, hmark, rfl, hread⟩
          · exact readRdns_end (readComponent_worded hd h Stops.nil)
          · have hplus : mark ≠ '+' := by
              rintro rfl
              exact absurd hmark (by decide)
            have hstops := stops_cons (List.mem_cons_of_mem '+' hmark) rest
            rw [readRdns_mark (readComponent_worded hd h hstops), hread]
            cases rs with
            | nil => rfl
            | cons r rs => simp only [Except.map, attach, if_neg hplus]
  | cons d' more ih =>
      cases h with
      | @cons _ _ mark _ texts h hmark hs =>
          have hr' : (Rdn.mk d' more).Legible := fun x hx => hr x (List.mem_cons_of_mem _ hx)
          have hrest := ih d' hr' hs (hr' d' List.mem_cons_self)
          rw [List.mem_singleton.mp hmark]
          have hstops := stops_cons (show '+' ∈ ['+', ',', ';'] by decide) (texts ++ after)
          rw [List.append_assoc, List.cons_append,
            readRdns_mark (readComponent_worded hd h hstops), hrest]
          rfl

/-- However the relative names of a list are spelled, they are read. -/
theorem readRdns_of_worded {rs : List Rdn} (hrs : ∀ r ∈ rs, r.Legible)
    (h : Joined (Rdn.Worded resumes) [',', ';'] rs text) : readRdns text = .ok rs := by
  induction h with
  | one h =>
      have hread := readRdns_worded (hrs _ List.mem_cons_self) h (.inl ⟨rfl, rfl⟩)
      rwa [List.append_nil] at hread
  | cons h hmark _ ih =>
      have hrest := ih fun r hr => hrs r (List.mem_cons_of_mem _ hr)
      exact readRdns_worded (hrs _ List.mem_cons_self) h (.inr ⟨_, _, hmark, rfl, hrest⟩)

theorem readRdns_joined {rs : List Rdn} (hrs : ∀ r ∈ rs, r.Legible)
    (h : Joined Rdn.Spelled [',', ';'] rs text) : readRdns text = .ok rs :=
  @readRdns_of_worded _ False rs hrs (h.imp fun _ _ => rdn_worded)

/-! ## Spelled names are not blank -/

theorem Joined.mem {α : Type} {Spelled : α → List Char → Prop} {marks : List Char}
    {as : List α} (h : Joined Spelled marks as text)
    (hall : ∀ a text, Spelled a text → c ∈ text) : c ∈ text := by
  cases h with
  | one h => exact hall _ _ h
  | cons h _ _ => exact List.mem_append_left _ (hall _ _ h)

theorem isAllBlank_worded {d : Dn} (h : d.Worded resumes text) :
    isAllBlank (String.ofList text) = false := by
  have hmem : '=' ∈ text := by
    apply Joined.mem h
    intro r text hr
    apply Joined.mem hr
    intro c text hc
    cases hc with
    | mk _ _ _ _ _ => simp
  rw [isAllBlank, String.toList_ofList, List.all_eq_false]
  exact ⟨'=', hmem, by decide⟩

theorem isAllBlank_spelled {d : Dn} (h : d.Spelled text) :
    isAllBlank (String.ofList text) = false :=
  @isAllBlank_worded text False d (h.imp fun _ _ => rdn_worded)

end Name

/-- However a name is spelled, its text is read as that name. -/
theorem Dn.parse_spelled {d : Dn} {text : String} (hd : d.Legible) (h : d.Spelled text.toList) :
    Dn.parse text = .ok d := by
  have hblank := Name.isAllBlank_spelled h
  rw [String.ofList_toList] at hblank
  rw [Dn.parse, hblank, Name.readRdns_joined hd h]
  rfl

/-- An escaped space before padding, escaped bytes in either case, a quoted value and an empty
    one. -/
theorem Dn.parse_spelled_mixed :
    let d : Dn := ⟨[⟨⟨"cn", " é "⟩, [⟨"2.5-4;x", "a,\""⟩]⟩, .single "O" ""]⟩
    let text := " cn = \\ \\c3\\A9\\20  +2.5-4;x=\"a\\2c\\\"\" ;O= "
    d.Legible ∧ d.Spelled text.toList ∧ Dn.parse text = .ok d := by
  have hpair : Hex.IsPairOf 'c' '3' 0xC3 ∧ Hex.IsPairOf 'A' '9' 0xA9 ∧
      Hex.IsPairOf '2' '0' 0x20 ∧ Hex.IsPairOf '2' 'c' 0x2C := by decide
  have haccent : EscapedBytes (Utf8.encodeChar 'é') ['\\', 'c', '3', '\\', 'A', '9'] :=
    .cons hpair.1 (.cons hpair.2.1 .nil)
  have hspace : EscapedBytes (Utf8.encodeChar ' ') ['\\', '2', '0'] :=
    .cons hpair.2.2.1 .nil
  have hcomma : EscapedBytes (Utf8.encodeChar ',') ['\\', '2', 'c'] :=
    .cons hpair.2.2.2 .nil
  have hcn : Unquoted true [' ', 'é', ' '] _ :=
    .cons (.escaped (by decide)) (.cons (.bytes haccent) (.cons (.bytes hspace) .nil))
  have hx : Quoted ['a', ',', '"'] _ :=
    .cons (.itself (by decide)) (.cons (.bytes hcomma) (.cons (.escaped (by decide)) .nil))
  have ho : Unquoted true [] [] := .nil
  have hrdn : Rdn.Spelled ⟨⟨"cn", " é "⟩, [⟨"2.5-4;x", "a,\""⟩]⟩ _ :=
    .cons (.mk 1 1 1 2 (.unquoted hcn)) (by decide : '+' ∈ ['+']) (.one (.mk 0 0 0 1 (.quoted hx)))
  have ho' : Rdn.Spelled (.single "O" "") _ := .one (.mk 0 0 1 0 (.unquoted ho))
  have hspelled : Dn.Spelled ⟨[⟨⟨"cn", " é "⟩, [⟨"2.5-4;x", "a,\""⟩]⟩, .single "O" ""]⟩ _ :=
    .cons hrdn (by decide : ';' ∈ [',', ';']) (.one ho')
  exact ⟨by decide, hspelled, Dn.parse_spelled (by decide) hspelled⟩

end DirectoryStore
