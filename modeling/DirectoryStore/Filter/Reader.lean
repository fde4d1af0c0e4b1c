import DirectoryStore.Filter.Basic
import DirectoryStore.Filter.Error
import DirectoryStore.Text.Ascii

/-!
# Reading filters

`Filter.parse` reads the parenthesised form.  Blanks are part of values and stand nowhere
else.  `Filter.ofPattern` reads a bare value with stars for anything, in which parentheses
need no escape and stars side by side count as one.

Reading a filter takes characters off the text, which the result records: that makes the
recursion into parentheses end.
-/

namespace DirectoryStore
namespace Filter

/-- A fault with the text still to be read as its place. -/
abbrev Misfit := FilterFault × List Char

/-- The first byte of what is to be read, as faults show it. -/
def met (cs : List Char) : Option Char :=
  cs.head?.map firstByteChar

/-- Takes the character `wanted` off the text. -/
def expect (wanted : Char) (cs : List Char) : Except Misfit (List Char) :=
  match cs with
  | c :: rest => if c = wanted then .ok rest else .error (.expected wanted (met cs), cs)
  | [] => .error (.expected wanted none, [])

/-- The fault of a backslash that no two hexadecimal digits follow. -/
def badEscape (rest : List Char) : Misfit :=
  (if byteCount rest < 2 then .truncatedEscape else .invalidEscape, rest)

/-- Puts bytes in front of the first fragment. -/
def leadWith (bytes : Bytes) : List Value → List Value
  | [] => [bytes]
  | v :: vs => (bytes ++ v) :: vs

/-- Applies a function to what was read, not to what is left. -/
def onRead {α β : Type} (f : α → β) (r : α × List Char) : β × List Char :=
  (f r.1, r.2)

/-- Reads a value up to a closing parenthesis, in fragments between stars.  Where stars are
    not `allowed` they have to be escaped. -/
def readFragments (allowed : Bool) : List Char → Except Misfit (List Value × List Char)
  | [] => .ok ([[]], [])
  | c :: rest =>
      if c = '\\' then
        match rest with
        | high :: low :: more =>
            match Hex.byte? high low with
            | some b => (readFragments allowed more).map (onRead (leadWith [b]))
            | none => .error (badEscape rest)
        | _ => .error (badEscape rest)
      else if c = ')' then .ok ([[]], c :: rest)
      else if c = '*' ∧ allowed then (readFragments allowed rest).map (onRead ([] :: ·))
      else if c = '*' ∨ c = '(' ∨ c = '\x00' then .error (.unescaped c, c :: rest)
      else (readFragments allowed rest).map (onRead (leadWith (Utf8.encodeChar c)))

/-- Reads a value without stars. -/
def readValue (cs : List Char) : Except Misfit (Value × List Char) :=
  (readFragments false cs).map (onRead List.flatten)

/-- A fragment, unless it is empty. -/
def part (v : Value) : Option Value :=
  if v.isEmpty then none else some v

/-- The item that fragments of a value make up: no star, only a star, or parts around stars. -/
def ofFragments (key : String) (fragments : List Value) : Except FilterFault Item :=
  match fragments with
  | [] => .ok (.compare .equal key [])
  | [value] => .ok (.compare .equal key value)
  | first :: second :: more =>
      let inner := (second :: more).dropLast
      let last := (second :: more).getLast (List.cons_ne_nil _ _)
      if first.isEmpty && inner.isEmpty && last.isEmpty then .ok (.present key)
      else if inner.any List.isEmpty then .error .emptySubstring
      else .ok (.substrings key (part first) inner (part last))

/-- Reads an attribute: a word that starts with a letter or digit. -/
def readAttribute (cs : List Char) : Except Misfit (String × List Char) :=
  match cs with
  | c :: _ =>
      if isAlphanumeric c then
        .ok (String.ofList (cs.takeWhile isNameChar), cs.dropWhile isNameChar)
      else .error (.expectedAttribute (met cs), cs)
  | [] => .error (.expectedAttribute none, [])

/-- A character of a matching rule. -/
def isRuleChar (c : Char) : Bool :=
  isAlphanumeric c || c = '-' || c = '.'

/-- Reads a colon with the word after it, or with the `=` that ends an extensible operator. -/
def readMark (cs : List Char) : Except Misfit (Option String × List Char) := do
  match ← expect ':' cs with
  | '=' :: rest => .ok (none, rest)
  | rest =>
      let word := rest.takeWhile isRuleChar
      if word.isEmpty then .error (.expectedRule, rest)
      else .ok (some (String.ofList word), rest.dropWhile isRuleChar)

/-- Reads the matching rule of an extensible operator, if there is one, and the end of the
    operator. -/
def readRule (cs : List Char) : Except Misfit (Option String × List Char) := do
  match ← readMark cs with
  | (none, rest) => .ok (none, rest)
  | (some rule, rest) =>
      match ← readMark rest with
      | (none, rest') => .ok (some rule, rest')
      | (some _, _) => .error (.unexpectedRule, rest.tail)

/-- Reads an extensible operator: the flag for the name, the rule and the end. -/
def readOperator (cs : List Char) : Except Misfit ((Bool × Option String) × List Char) := do
  match ← readMark cs with
  | (none, rest) => .ok ((false, none), rest)
  | (some word, rest) =>
      if sameIgnoringCase word "dn" then
        let (rule, rest') ← readRule rest
        .ok ((true, rule), rest')
      else
        let (rule, rest') ← readRule cs
        .ok ((false, rule), rest')

/-- Reads an extensible match, after its attribute if it has one. -/
def readExtensible (key : Option String) (cs : List Char) :
    Except Misfit (Item × List Char) := do
  let ((withDn, rule), rest) ← readOperator cs
  if key.isNone && rule.isNone then .error (.missingRule, cs)
  else
    let (value, rest') ← readValue rest
    .ok (.extensible key withDn rule value, rest')

/-- Reads the rest of a comparison whose sign has begun. -/
def readComparison (comparison : Comparison) (key : String) (cs : List Char) :
    Except Misfit (Item × List Char) := do
  let rest ← expect '=' cs
  let (value, rest') ← readValue rest
  .ok (.compare comparison key value, rest')

/-- Reads an item, up to the closing parenthesis. -/
def readItem (cs : List Char) : Except Misfit (Item × List Char) :=
  if cs.head? = some ':' then readExtensible none cs
  else do
    let (key, rest) ← readAttribute cs
    match rest with
    | '=' :: rest' => do
        let (fragments, after) ← readFragments true rest'
        match ofFragments key fragments with
        | .ok i => .ok (i, after)
        | .error fault => .error (fault, after)
    | '~' :: rest' => readComparison .approximate key rest'
    | '>' :: rest' => readComparison .atLeast key rest'
    | '<' :: rest' => readComparison .atMost key rest'
    | ':' :: _ => readExtensible (some key) rest
    | _ => .error (.afterAttribute (met rest), rest)

theorem bind_eq_ok {α β : Type} {x : Except Misfit α} {f : α → Except Misfit β} {b : β}
    (h : x >>= f = .ok b) : ∃ a, x = .ok a ∧ f a = .ok b := by
  cases x with
  | error e => cases h
  | ok a => exact ⟨a, rfl, h⟩

theorem map_eq_ok {α β : Type} {x : Except Misfit α} {f : α → β} {b : β}
    (h : x.map f = .ok b) : ∃ a, x = .ok a ∧ f a = b := by
  cases x with
  | error e => cases h
  | ok a => exact ⟨a, rfl, Except.ok.inj h⟩

theorem expect_eq_ok {wanted : Char} {cs rest : List Char} (h : expect wanted cs = .ok rest) :
    cs = wanted :: rest := by
  cases cs with
  | nil => cases h
  | cons c cs =>
      by_cases hc : c = wanted
      · simp only [expect, if_pos hc, Except.ok.injEq] at h
        rw [hc, h]
      · simp only [expect, if_neg hc] at h
        cases h

theorem length_dropWhile_le (p : Char → Bool) (cs : List Char) :
    (cs.dropWhile p).length ≤ cs.length :=
  (List.dropWhile_suffix p).length_le

theorem readFragments_length {allowed : Bool} {cs : List Char} {r : List Value × List Char}
    (h : readFragments allowed cs = .ok r) : r.2.length ≤ cs.length := by
  fun_induction readFragments allowed cs generalizing r with
  | case1 => cases h; exact Nat.le_refl _
  | case2 _ _ _ _ _ ih =>
      obtain ⟨q, hq, rfl⟩ := map_eq_ok h
      have := ih hq
      simp only [onRead, List.length_cons]
      omega
  | case3 | case4 | case7 => cases h
  | case5 => cases h; exact Nat.le_refl _
  | case6 _ _ _ _ _ ih | case8 _ _ _ _ _ _ ih =>
      obtain ⟨q, hq, rfl⟩ := map_eq_ok h
      have := ih hq
      simp only [onRead, List.length_cons]
      omega

theorem readValue_length {cs : List Char} {r : Value × List Char} (h : readValue cs = .ok r) :
    r.2.length ≤ cs.length := by
  obtain ⟨q, hq, rfl⟩ := map_eq_ok h
  exact readFragments_length hq

theorem readAttribute_length {cs : List Char} {r : String × List Char}
    (h : readAttribute cs = .ok r) : r.2.length ≤ cs.length := by
  unfold readAttribute at h
  split at h
  · split at h
    · cases h
      exact length_dropWhile_le isNameChar _
    · cases h
  · cases h

theorem readMark_length {cs : List Char} {r : Option String × List Char}
    (h : readMark cs = .ok r) : r.2.length ≤ cs.length := by
  obtain ⟨rest, hrest, h⟩ := bind_eq_ok h
  have hcs := congrArg List.length (expect_eq_ok hrest)
  simp only [List.length_cons] at hcs
  dsimp only at h
  split at h
  · cases h
    simp only [List.length_cons] at hcs
    dsimp only
    omega
  · split at h
    · cases h
    · cases h
      have := length_dropWhile_le isRuleChar rest
      dsimp only
      omega

theorem readRule_length {cs : List Char} {r : Option String × List Char}
    (h : readRule cs = .ok r) : r.2.length ≤ cs.length := by
  obtain ⟨q, hq, h⟩ := bind_eq_ok h
  have h1 := readMark_length hq
  split at h
  · cases h
    exact h1
  · obtain ⟨q', hq', h⟩ := bind_eq_ok h
    have h2 := readMark_length hq'
    dsimp only at h1
    split at h
    · cases h
      exact Nat.le_trans h2 h1
    · cases h

theorem readOperator_length {cs : List Char} {r : (Bool × Option String) × List Char}
    (h : readOperator cs = .ok r) : r.2.length ≤ cs.length := by
  obtain ⟨q, hq, h⟩ := bind_eq_ok h
  have h1 := readMark_length hq
  split at h
  · cases h
    exact h1
  · split at h
    · obtain ⟨q', hq', h⟩ := bind_eq_ok h
      have h2 := readRule_length hq'
      cases h
      exact Nat.le_trans h2 h1
    · obtain ⟨q', hq', h⟩ := bind_eq_ok h
      have h2 := readRule_length hq'
      cases h
      exact h2

theorem readExtensible_length {key : Option String} {cs : List Char} {r : Item × List Char}
    (h : readExtensible key cs = .ok r) : r.2.length ≤ cs.length := by
  obtain ⟨q, hq, h⟩ := bind_eq_ok h
  have h1 := readOperator_length hq
  dsimp only at h
  split at h
  · cases h
  · obtain ⟨v, hv, h⟩ := bind_eq_ok h
    have h2 := readValue_length hv
    cases h
    exact Nat.le_trans h2 h1

theorem readComparison_length {c : Comparison} {key : String} {cs : List Char}
    {r : Item × List Char} (h : readComparison c key cs = .ok r) : r.2.length ≤ cs.length := by
  obtain ⟨rest, hrest, h⟩ := bind_eq_ok h
  have hcs := congrArg List.length (expect_eq_ok hrest)
  obtain ⟨v, hv, h⟩ := bind_eq_ok h
  have h2 := readValue_length hv
  cases h
  simp only [List.length_cons] at hcs
  dsimp only
  omega

theorem readItem_length {cs : List Char} {r : Item × List Char} (h : readItem cs = .ok r) :
    r.2.length ≤ cs.length := by
  unfold readItem at h
  split at h
  · exact readExtensible_length h
  · obtain ⟨⟨key, rest⟩, hq, h⟩ := bind_eq_ok h
    have h1 := readAttribute_length hq
    dsimp only at h h1
    split at h
    · obtain ⟨⟨fragments, after⟩, hf, h⟩ := bind_eq_ok h
      have h2 := readFragments_length hf
      dsimp only at h h2
      split at h
      · cases h
        simp only [List.length_cons] at h1
        dsimp only
        omega
      · cases h
    · have := readComparison_length h
      simp only [List.length_cons] at h1
      omega
    · have := readComparison_length h
      simp only [List.length_cons] at h1
      omega
    · have := readComparison_length h
      simp only [List.length_cons] at h1
      omega
    · exact Nat.le_trans (readExtensible_length h) h1
    · cases h

/-- What was read from `cs`, with less left of it than there was. -/
abbrev Taken (α : Type) (cs : List Char) :=
  { r : α × List Char // r.2.length < cs.length }

/-- Takes the parenthesis that closes what was read after an opening one. -/
def close {α : Type} {cs inside : List Char} (hcs : cs = '(' :: inside) (a : α)
    (rest : List Char) (h : rest.length ≤ inside.length) : Except Misfit (Taken α cs) :=
  match hrest : expect ')' rest with
  | .error e => .error e
  | .ok after => .ok ⟨(a, after), by
      have h1 := congrArg List.length (expect_eq_ok hrest)
      have h2 := congrArg List.length hcs
      simp only [List.length_cons] at h1 h2
      dsimp only
      omega⟩

/-- Reads an item after an opening parenthesis, and the closing one. -/
def readLeaf {cs inside : List Char} (hcs : cs = '(' :: inside) :
    Except Misfit (Taken Filter cs) :=
  match hitem : readItem inside with
  | .error e => .error e
  | .ok (i, after) => close hcs (.item i) after (readItem_length hitem)

theorem length_inside_lt {c : Char} {cs rest : List Char} (h : expect '(' cs = .ok (c :: rest)) :
    rest.length < cs.length := by
  rw [expect_eq_ok h]
  exact Nat.lt_succ_of_lt (Nat.lt_succ_self _)

mutual

/-- Reads a filter in parentheses. -/
def readFilter (cs : List Char) : Except Misfit (Taken Filter cs) :=
  match hcs : expect '(' cs with
  | .error e => .error e
  | .ok [] => readLeaf (expect_eq_ok hcs)
  | .ok (c :: rest) =>
      if c = '&' then
        match readFilters rest with
        | .error e => .error e
        | .ok ⟨(fs, after), h⟩ =>
            close (expect_eq_ok hcs) (.and fs) after (Nat.le_of_lt (Nat.lt_succ_of_lt h))
      else if c = '|' then
        match readFilters rest with
        | .error e => .error e
        | .ok ⟨(fs, after), h⟩ =>
            close (expect_eq_ok hcs) (.or fs) after (Nat.le_of_lt (Nat.lt_succ_of_lt h))
      else if c = '!' then
        match readFilter rest with
        | .error e => .error e
        | .ok ⟨(f, after), h⟩ =>
            close (expect_eq_ok hcs) (.not f) after (Nat.le_of_lt (Nat.lt_succ_of_lt h))
      else readLeaf (expect_eq_ok hcs)
termination_by (cs.length, 0)
decreasing_by
  all_goals exact Prod.Lex.left _ _ (length_inside_lt hcs)

/-- Reads one filter or more, one after another. -/
def readFilters (cs : List Char) : Except Misfit (Taken (List Filter) cs) :=
  match readFilter cs with
  | .error e => .error e
  | .ok ⟨(f, rest), h⟩ =>
      if rest.head? = some '(' then
        match readFilters rest with
        | .error e => .error e
        | .ok ⟨(fs, after), h'⟩ => .ok ⟨(f :: fs, after), Nat.lt_trans h' h⟩
      else .ok ⟨([f], rest), h⟩
termination_by (cs.length, 1)
decreasing_by
  · apply Prod.Lex.right
    decide
  · exact Prod.Lex.left _ _ h

end

/-- The item for fragments of a pattern, in which empty ones between stars do not count. -/
def ofPatternFragments (key : String) (fragments : List Value) : Item :=
  match fragments with
  | [] => .compare .equal key []
  | [value] => .compare .equal key value
  | first :: second :: more =>
      let inner := (second :: more).dropLast.filter fun v => !v.isEmpty
      let last := (second :: more).getLast (List.cons_ne_nil _ _)
      if first.isEmpty && inner.isEmpty && last.isEmpty then .present key
      else .substrings key (part first) inner (part last)

/-- Reads a pattern to the end of the text, in fragments between stars. -/
def readPattern : List Char → Except Misfit (List Value)
  | [] => .ok [[]]
  | c :: rest =>
      if c = '\\' then
        match rest with
        | high :: low :: more =>
            match Hex.byte? high low with
            | some b => (readPattern more).map (leadWith [b])
            | none => .error (badEscape rest)
        | _ => .error (badEscape rest)
      else if c = '*' then (readPattern rest).map ([] :: ·)
      else (readPattern rest).map (leadWith (Utf8.encodeChar c))

/-- A fault with its place as a byte offset into `text`. -/
def locate (text : String) (m : Misfit) : FilterError :=
  ⟨text, byteCount text.toList - byteCount m.2, m.1⟩

/-- The filter that a text spells. -/
def parse (text : String) : Except FilterError Filter :=
  match readFilter text.toList with
  | .error m => .error (locate text m)
  | .ok ⟨(f, []), _⟩ => .ok f
  | .ok ⟨(_, rest), _⟩ => .error (locate text (.trailing, rest))

/-- The filter for a bare value of an attribute, in which stars stand for anything. -/
def ofPattern (key : String) (text : String) : Except FilterError Filter :=
  match readPattern text.toList with
  | .error m => .error (locate text m)
  | .ok fragments => .ok (.item (ofPatternFragments key fragments))

end Filter
end DirectoryStore
