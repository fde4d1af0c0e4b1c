import DirectoryStore.Name.Basic
import DirectoryStore.Name.Error
import DirectoryStore.Text.Blank

/-!
# Reading names

The reader goes through the characters of a text once.  An attribute type is a word,
`=` follows, then a value: a run of plain characters and escapes, possibly with one
leading part in double quotes.  Components are joined by `+`, relative names by `,` or
`;`.  Spaces around every part are skipped, and a value must come out as UTF-8.
-/

namespace DirectoryStore
namespace Name

/-- Faults whose place is the text still to be read. -/
abbrev Fault := Malformation (List Char)

/-- Characters that a backslash may precede. -/
def escapable : List Char :=
  [',', '+', '"', '\\', '<', '>', ';', '=', '#', ' ']

def skipSpaces (cs : List Char) : List Char :=
  cs.dropWhile (· == ' ')

/-- An attribute type together with the `=` after it. -/
def readType (cs : List Char) : Except Fault (String × List Char) :=
  let start := skipSpaces cs
  let word := start.takeWhile isNameChar
  let after := start.dropWhile isNameChar
  match after with
  | c :: _ =>
      if c ≠ '=' ∧ c ≠ ' ' then .error (.strayInType (firstByteChar c) after)
      else if word.isEmpty then .error (.missingType start)
      else match skipSpaces after with
        | '=' :: rest => .ok (String.ofList word, rest)
        | rest => .error (.missingEquals rest)
  | [] =>
      if word.isEmpty then .error (.missingType start) else .error (.missingEquals [])

/-- One byte of a value.  A loose byte is an unescaped space, which does not count if nothing
    firm follows it. -/
structure Piece where
  byte : UInt8
  isFirm : Bool
deriving DecidableEq, Repr

/-- Where in a value the reader is. -/
inductive Region where
  /-- Outside quotes. -/
  | bare
  /-- Between the quotes. -/
  | quoted
  /-- After the closing quote, before anything but spaces. -/
  | closed
deriving DecidableEq, Repr

/-- The pieces of a character that stands for itself. -/
def firmPieces (c : Char) : List Piece :=
  (Utf8.encodeChar c).map fun b => ⟨b, true⟩

/-- Puts pieces in front of those read after them. -/
def ahead (ps : List Piece) (r : List Piece × List Char) : List Piece × List Char :=
  (ps ++ r.1, r.2)

/-- The region after an escape. -/
def Region.afterEscape : Region → Region
  | .quoted => .quoted
  | .bare | .closed => .bare

/-- Reads a value up to the separator that ends it, which stays unread. -/
def readPieces : Region → List Char → Except Fault (List Piece × List Char)
  | .quoted, [] => .error .openQuote
  | .bare, [] => .ok ([], [])
  | .closed, [] => .ok ([], [])
  | _, ['\\'] => .error .danglingEscape
  | region, '\\' :: c :: rest =>
      if Hex.isDigit c then
        match rest with
        | [] => .error (.truncatedHex [c])
        | d :: rest' =>
            match Hex.byte? c d with
            | none => .error (.invalidHex (c :: d :: rest'))
            | some b => (readPieces region.afterEscape rest').map (ahead [⟨b, true⟩])
      else if c ∈ escapable then
        (readPieces region.afterEscape rest).map (ahead (firmPieces c))
      else .error (.invalidEscape (firstByteChar c) (c :: rest))
  | .quoted, c :: rest =>
      if c = '"' then readPieces .closed rest
      else (readPieces .quoted rest).map (ahead (firmPieces c))
  | region, c :: rest =>
      if c = '+' ∨ c = ',' ∨ c = ';' then .ok ([], c :: rest)
      else if c = '"' ∨ c = '<' ∨ c = '>' then .error (.unescaped c (c :: rest))
      else if c ≠ ' ' then (readPieces .bare rest).map (ahead (firmPieces c))
      else if region = .closed then readPieces .closed rest
      else (readPieces .bare rest).map (ahead [⟨0x20, false⟩])

/-- The bytes that count: loose ones at the end do not. -/
def settle (ps : List Piece) : Bytes :=
  (ps.reverse.dropWhile fun p => !p.isFirm).reverse.map Piece.byte

/-- A value, up to the separator that ends it. -/
def readValue (cs : List Char) : Except Fault (String × List Char) :=
  let pieces := match skipSpaces cs with
    | '"' :: rest => readPieces .quoted rest
    | rest => readPieces .bare rest
  match pieces with
  | .error fault => .error fault
  | .ok (ps, after) =>
      match Utf8.text? (settle ps) with
      | none => .error .notUtf8
      | some value => .ok (value, after)

/-- One component, up to the separator that ends it. -/
def readComponent (cs : List Char) : Except Fault (Component × List Char) :=
  match readType cs with
  | .error fault => .error fault
  | .ok (type, afterType) =>
      match readValue afterType with
      | .error fault => .error fault
      | .ok (value, after) => .ok (⟨type, value⟩, after)

theorem length_skipSpaces_le (cs : List Char) : (skipSpaces cs).length ≤ cs.length :=
  (List.dropWhile_suffix _).length_le

theorem readType_length {cs : List Char} {r : String × List Char} (h : readType cs = .ok r) :
    r.2.length < cs.length := by
  have hstart := length_skipSpaces_le cs
  have hafter : ((skipSpaces cs).dropWhile isNameChar).length ≤ (skipSpaces cs).length :=
    (List.dropWhile_suffix _).length_le
  have hskip := length_skipSpaces_le ((skipSpaces cs).dropWhile isNameChar)
  unfold readType at h
  dsimp only at h
  split at h
  · split at h
    · cases h
    · split at h
      · cases h
      · split at h
        · rename_i rest heq
          injection h with h
          subst h
          rw [heq] at hskip
          simp only [List.length_cons] at hskip
          dsimp only
          omega
        · cases h
  · split at h <;> cases h

theorem map_ahead_eq_ok {x : Except Fault (List Piece × List Char)} {ps : List Piece}
    {r : List Piece × List Char} (h : x.map (ahead ps) = .ok r) :
    ∃ q, x = .ok q ∧ r = ahead ps q := by
  cases x with
  | error e => cases h
  | ok q => exact ⟨q, rfl, (Except.ok.inj h).symm⟩

theorem readPieces_length {region : Region} {cs : List Char} {r : List Piece × List Char}
    (h : readPieces region cs = .ok r) : r.2.length ≤ cs.length := by
  have step {x : Except Fault (List Piece × List Char)} {ps : List Piece} {n : Nat}
      (ih : ∀ {q : List Piece × List Char}, x = .ok q → q.2.length ≤ n)
      {r : List Piece × List Char} (h : x.map (ahead ps) = .ok r) : r.2.length ≤ n := by
    obtain ⟨q, hq, rfl⟩ := map_ahead_eq_ok h
    exact ih (q := q) hq
  fun_induction readPieces region cs generalizing r with
  | case1 | case4 | case5 | case6 | case9 | case13 => cases h
  | case2 | case3 | case12 => cases h; simp
  | case7 _ _ _ _ _ _ _ ih => have := step ih h; simp only [List.length_cons]; omega
  | case8 _ _ _ _ _ ih => have := step ih h; simp only [List.length_cons]; omega
  | case10 _ _ _ ih => have := ih h; simp only [List.length_cons]; omega
  | case11 _ _ _ _ _ ih => have := step ih h; simp only [List.length_cons]; omega
  | case14 _ _ _ _ _ _ _ _ _ ih => have := step ih h; simp only [List.length_cons]; omega
  | case15 _ _ _ _ _ _ _ _ ih => have := ih h; simp only [List.length_cons]; omega
  | case16 _ _ _ _ _ _ _ _ _ _ ih => have := step ih h; simp only [List.length_cons]; omega

theorem readValue_length {cs : List Char} {r : String × List Char} (h : readValue cs = .ok r) :
    r.2.length ≤ cs.length := by
  have hskip := length_skipSpaces_le cs
  unfold readValue at h
  dsimp only at h
  split at h
  · cases h
  · rename_i ps after heq
    have hlen : after.length ≤ cs.length := by
      split at heq
      · rename_i rest hrest
        have := readPieces_length heq
        rw [hrest] at hskip
        simp only [List.length_cons] at hskip
        dsimp only at this
        omega
      · exact Nat.le_trans (readPieces_length heq) hskip
    split at h
    · cases h
    · cases h
      exact hlen

/-- Reading a component takes something off the text. -/
theorem readComponent_length {cs : List Char} {r : Component × List Char}
    (h : readComponent cs = .ok r) : r.2.length < cs.length := by
  unfold readComponent at h
  split at h
  · cases h
  · rename_i htype
    split at h
    · cases h
    · rename_i hvalue
      cases h
      exact Nat.lt_of_le_of_lt (readValue_length hvalue) (readType_length htype)

/-- Puts a component in front of the relative names after it, across the separator `mark`: a
    plus sign makes it part of the first of them. -/
def attach (c : Component) (mark : Char) : List Rdn → List Rdn
  | [] => [⟨c, []⟩]
  | r :: rs => if mark = '+' then ⟨c, r.components⟩ :: rs else ⟨c, []⟩ :: r :: rs

/-- The relative names that a text spells, one at least. -/
def readRdns (cs : List Char) : Except Fault (List Rdn) :=
  match _h : readComponent cs with
  | .error fault => .error fault
  | .ok (c, []) => .ok [⟨c, []⟩]
  | .ok (c, mark :: rest) =>
      match readRdns rest with
      | .error fault => .error fault
      | .ok rs => .ok (attach c mark rs)
termination_by cs.length
decreasing_by
  have := readComponent_length _h
  simp only [List.length_cons] at this
  omega

end Name

/-- The name that a text spells.  A text of blanks is the empty name. -/
def Dn.parse (text : String) : Except NameError Dn :=
  if isAllBlank text then .ok .empty
  else match Name.readRdns text.toList with
    | .ok rdns => .ok ⟨rdns⟩
    | .error fault =>
        let place rest := byteCount text.toList - byteCount rest
        .error (.malformed text (fault.map place))

/-- The relative name that a text spells: the only one of its name. -/
def Rdn.parse (text : String) : Except NameError Rdn :=
  match Dn.parse text with
  | .error e => .error e
  | .ok ⟨[r]⟩ => .ok r
  | .ok ⟨[]⟩ => .error (.malformed text .emptyRelative)
  | .ok ⟨_ :: _ :: _⟩ => .error (.malformed text .severalRelative)

/-- The relative name of the given components. -/
def Rdn.ofComponents (cs : List Component) : Except NameError Rdn :=
  match Rdn.ofComponents? cs with
  | some r => .ok r
  | none => .error (.malformed "" .noComponents)

/-- The name directly above. -/
def Dn.up (d : Dn) : Except NameError Dn :=
  match d.up? with
  | some above => .ok above
  | none => .error .emptyDn

end DirectoryStore
