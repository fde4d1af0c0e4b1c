import DirectoryStore.Proofs.Filter.Values

/-!
# Items of filters

The grammar of items, and that the reader of items follows it: what is derived is read, and
what is read is derived.  The grammar of extensible operators is ambiguous at one place: their
first word is the flag for the name whenever it is `dn`, so a rule of that name needs the flag
in front.  The items that can be written so that they read back are those that some text
derives.
-/

namespace DirectoryStore

/-- A word that names an attribute: it starts with a letter or digit. -/
def IsAttribute (key : String) : Prop :=
  key.toList.head?.any isAlphanumeric = true ∧ ∀ c ∈ key.toList, isNameChar c = true

instance (key : String) : Decidable (IsAttribute key) :=
  decidable_of_iff
    (key.toList.head?.any isAlphanumeric = true ∧ key.toList.all isNameChar = true)
    (and_congr_right fun _ => List.all_eq_true)

/-- A word that names a matching rule. -/
def IsRule (rule : String) : Prop :=
  rule ≠ "" ∧ ∀ c ∈ rule.toList, Filter.isRuleChar c = true

instance (rule : String) : Decidable (IsRule rule) :=
  decidable_of_iff (rule ≠ "" ∧ rule.toList.all Filter.isRuleChar = true)
    (and_congr_right fun _ => List.all_eq_true)

/-- The parts of a substring test, from first to last. -/
def Item.parts (initial : Option Value) (any : List Value) (final : Option Value) : List Value :=
  initial.toList ++ any ++ final.toList

/-- An item that a text can spell. -/
def Item.WellFormed : Item → Prop
  | .compare _ key _ => IsAttribute key
  | .present key => IsAttribute key
  | .substrings key initial any final => IsAttribute key ∧ parts initial any final ≠ [] ∧
      ∀ v ∈ parts initial any final, v ≠ []
  | .extensible key withDn rule _ => (key ≠ none ∨ rule ≠ none) ∧ (∀ k ∈ key, IsAttribute k) ∧
      ∀ r ∈ rule, IsRule r ∧ (sameIgnoringCase r "dn" = true → withDn = true)

instance (i : Item) : Decidable i.WellFormed :=
  match i with
  | .compare _ key _ => inferInstanceAs (Decidable (IsAttribute key))
  | .present key => inferInstanceAs (Decidable (IsAttribute key))
  | .substrings .. => inferInstanceAs (Decidable (_ ∧ _ ∧ _))
  | .extensible .. => inferInstanceAs (Decidable (_ ∧ _ ∧ _))

namespace Filter

variable {cs rest text : List Char} {key rule word : String} {value : Value} {c : Char}
variable {key? rule? : Option String} {withDn : Bool} {i : Item}

/-! ## The grammar of items -/

/-- `[':dn']`, in either case. -/
inductive OptionalFlag : List Char → Bool → Prop
  | absent : OptionalFlag [] false
  | present {word : String} (h : sameIgnoringCase word "dn" = true) :
      OptionalFlag (':' :: word.toList) true

/-- `[':' rule]` -/
def ruleChars (rule? : Option String) : List Char :=
  (rule?.map fun r => ':' :: r.toList).getD []

/-- `[':dn'] [':' rule] ':='`, where a first word `dn` is the flag. -/
inductive Operator : List Char → Bool → Option String → Prop
  | mk {flag : List Char} {withDn : Bool} {rule? : Option String}
      (hflag : OptionalFlag flag withDn)
      (hrule : ∀ r ∈ rule?, IsRule r ∧ (sameIgnoringCase r "dn" = true → withDn = true)) :
      Operator (flag ++ ruleChars rule? ++ [':', '=']) withDn rule?

/-- A text that stands for an item between parentheses. -/
inductive DerivesItem : List Char → Item → Prop
  /-- `attr ('=' / '~=' / '>=' / '<=') value` -/
  | compare {key : String} {text : List Char} {value : Value} (comparison : Comparison)
      (hkey : IsAttribute key) (hvalue : Octets text value) :
      DerivesItem (key.toList ++ Item.sign comparison ++ text) (.compare comparison key value)
  /-- `attr '=*'` -/
  | present {key : String} (hkey : IsAttribute key) :
      DerivesItem (key.toList ++ ['=', '*']) (.present key)
  /-- `attr '=' [part] '*' *(part '*') [part]`, with one part at least. -/
  | substrings {key : String} {initial inner final : List Char}
      {initial? final? : Option Value} {any : List Value} (hkey : IsAttribute key)
      (hinitial : OptionalPart initial initial?) (hinner : StarredParts inner any)
      (hfinal : OptionalPart final final?) (hsome : Item.parts initial? any final? ≠ []) :
      DerivesItem (key.toList ++ '=' :: (initial ++ '*' :: (inner ++ final)))
        (.substrings key initial? any final?)
  /-- `attr [':dn'] [':' rule] ':=' value` -/
  | extensible {key : String} {op text : List Char} {withDn : Bool} {rule? : Option String}
      {value : Value} (hkey : IsAttribute key) (hop : Operator op withDn rule?)
      (hvalue : Octets text value) :
      DerivesItem (key.toList ++ op ++ text) (.extensible (some key) withDn rule? value)
  /-- `[':dn'] ':' rule ':=' value` -/
  | extensibleOfAny {op text : List Char} {withDn : Bool} {rule : String} {value : Value}
      (hop : Operator op withDn (some rule)) (hvalue : Octets text value) :
      DerivesItem (op ++ text) (.extensible none withDn (some rule) value)

/-! ## Words -/

theorem takeWhile_word {p : Char → Bool} (h : ∀ x ∈ cs, p x = true) (hc : p c = false)
    (rest : List Char) : (cs ++ c :: rest).takeWhile p = cs := by
  rw [List.takeWhile_append_of_pos h, List.takeWhile_cons_of_neg (Bool.not_eq_true _ ▸ hc),
    List.append_nil]

theorem dropWhile_word {p : Char → Bool} (h : ∀ x ∈ cs, p x = true) (hc : p c = false)
    (rest : List Char) : (cs ++ c :: rest).dropWhile p = c :: rest := by
  rw [List.dropWhile_append_of_pos h, List.dropWhile_cons_of_neg (Bool.not_eq_true _ ▸ hc)]

theorem readAttribute_word (h : IsAttribute key) (hc : isNameChar c = false) (rest : List Char) :
    readAttribute (key.toList ++ c :: rest) = .ok (key, c :: rest) := by
  have htake := takeWhile_word h.2 hc rest
  have hdrop := dropWhile_word h.2 hc rest
  have hhead := h.1
  cases hcs : key.toList with
  | nil =>
      rw [hcs] at hhead
      cases hhead
  | cons x xs =>
      rw [hcs] at hhead htake hdrop
      rw [List.cons_append] at htake hdrop ⊢
      have hword : String.ofList (x :: xs) = key := by rw [← hcs, String.ofList_toList]
      rw [readAttribute, if_pos (by simpa using hhead), htake, hdrop, hword]

/-- What is read up to the operator is an attribute. -/
theorem attribute_of_read (h : readAttribute cs = .ok (key, rest)) :
    cs = key.toList ++ rest ∧ IsAttribute key := by
  unfold readAttribute at h
  split at h
  · rename_i c cs
    split at h
    · rename_i hc
      cases h
      have hname : isNameChar c = true := by
        simp only [isNameChar, hc, Bool.true_or]
      rw [IsAttribute, String.toList_ofList]
      refine ⟨List.takeWhile_append_dropWhile.symm, ?_, List.all_eq_true.mp List.all_takeWhile⟩
      rw [List.takeWhile_cons_of_pos hname, List.head?_cons]
      exact hc
    · cases h
  · cases h

/-! ## Comparisons and substrings -/

theorem ofFragments_parts (key : String) (first : Value) (inner : List Value) (last : Value) :
    ofFragments key (first :: (inner ++ [last])) =
      if first.isEmpty && inner.isEmpty && last.isEmpty then .ok (.present key)
      else if inner.any List.isEmpty then .error .emptySubstring
      else .ok (.substrings key (part first) inner (part last)) := by
  cases inner with
  | nil => rfl
  | cons v inner =>
      have hdrop : (v :: (inner ++ [last])).dropLast = v :: inner := by
        rw [← List.cons_append, List.dropLast_concat]
      have hlast : (v :: (inner ++ [last])).getLast (List.cons_ne_nil _ _) = last := by
        simp only [← List.cons_append, List.getLast_concat]
      simp only [List.cons_append, ofFragments, hdrop, hlast]

/-- Fragments are one, or a first, some inner ones and a last. -/
theorem fragments_cases (vs : List Value) :
    vs = [] ∨ (∃ v, vs = [v]) ∨ ∃ first inner last, vs = first :: (inner ++ [last]) := by
  match vs with
  | [] => exact .inl rfl
  | [v] => exact .inr (.inl ⟨v, rfl⟩)
  | first :: second :: more =>
      obtain hnil | ⟨inner, last, hinner⟩ := List.eq_nil_or_concat (second :: more)
      · cases hnil
      · exact .inr (.inr ⟨first, inner, last, by rw [hinner, List.concat_eq_append]⟩)

theorem part_getD {part? : Option Value} (h : ∀ v ∈ part?, v ≠ []) :
    part (part?.getD []) = part? := by
  cases part? with
  | none => rfl
  | some v => exact if_neg fun he => h v rfl (List.isEmpty_iff.mp he)

theorem isEmpty_getD {part? : Option Value} (h : ∀ v ∈ part?, v ≠ []) :
    (part?.getD []).isEmpty = part?.isNone := by
  cases part? with
  | none => rfl
  | some v => exact Bool.eq_false_iff.mpr fun he => h v rfl (List.isEmpty_iff.mp he)

/-- Parts around stars make up a substring test, if there is one at all. -/
theorem ofFragments_substrings (key : String) {initial? final? : Option Value}
    {any : List Value} (hinitial : ∀ v ∈ initial?, v ≠ []) (hany : ∀ v ∈ any, v ≠ [])
    (hfinal : ∀ v ∈ final?, v ≠ []) (hsome : Item.parts initial? any final? ≠ []) :
    ofFragments key (initial?.getD [] :: (any ++ [final?.getD []])) =
      .ok (.substrings key initial? any final?) := by
  have hempty : (initial?.isNone && any.isEmpty && final?.isNone) = false := by
    cases initial? <;> cases any <;> cases final? <;> simp_all [Item.parts]
  have hinner : any.any List.isEmpty = false := by
    apply List.any_eq_false.mpr
    intro v hv he
    exact hany v hv (List.isEmpty_iff.mp he)
  rw [ofFragments_parts, isEmpty_getD hinitial, isEmpty_getD hfinal, hempty, hinner,
    part_getD hinitial, part_getD hfinal]
  rfl

/-- The item of a value between stars is derived from it. -/
theorem derivesItem_of_fragments {vs : List Value} (hkey : IsAttribute key)
    (htext : Fragments text vs) (h : ofFragments key vs = .ok i) :
    DerivesItem (key.toList ++ '=' :: text) i := by
  rcases fragments_cases vs with rfl | ⟨v, rfl⟩ | ⟨first, inner, last, rfl⟩
  · cases htext
  · cases h
    cases htext with
    | last htext =>
        have := DerivesItem.compare .equal hkey htext
        rwa [List.append_assoc] at this
    | star _ hs => cases hs
  rw [ofFragments_parts] at h
  generalize hvs : inner ++ [last] = vs at htext
  cases htext with
  | last _ => exact absurd hvs (List.append_ne_nil_of_right_ne_nil _ (List.cons_ne_nil _ _))
  | star hfirst hs =>
  rw [← hvs] at hs
  split at h
  · rename_i hempty
    simp only [Bool.and_eq_true, List.isEmpty_iff] at hempty
    obtain ⟨⟨rfl, rfl⟩, rfl⟩ := hempty
    cases h
    obtain ⟨_, final, rfl, hnone, hfinal⟩ := hs.parts nofun
    cases hnone
    rw [hfirst.eq_nil_iff.mpr rfl, hfinal.eq_nil_iff.mpr rfl]
    exact .present hkey
  rename_i hempty
  split at h
  · cases h
  rename_i hinner
  cases h
  obtain ⟨texts, final, rfl, hparts, hfinal⟩ := hs.parts fun u hu he =>
    hinner (List.any_eq_true.mpr ⟨u, hu, List.isEmpty_iff.mpr he⟩)
  refine .substrings hkey hfirst.optionalPart hparts hfinal.optionalPart fun he => hempty ?_
  simp only [Item.parts, List.append_eq_nil_iff, Option.toList_eq_nil_iff] at he
  obtain ⟨⟨hno, rfl⟩, hno'⟩ := he
  simp_all [part]

/-! ## Extensible operators -/

theorem isRuleChar_of_foldChar (h : isRuleChar (foldChar c) = true) : isRuleChar c = true := by
  by_cases hc : 'A' ≤ c ∧ c ≤ 'Z'
  · simp [isRuleChar, isAlphanumeric, isLetter, hc]
  · rwa [foldChar, if_neg hc] at h

/-- In either case `dn` could be a rule. -/
theorem isRule_of_dn (h : sameIgnoringCase word "dn" = true) : IsRule word := by
  have hfold : word.toList.map foldChar = ['d', 'n'] := by
    rw [← toList_foldCase, beq_iff_eq.mp h]
    rfl
  refine ⟨?_, fun x hx => isRuleChar_of_foldChar ?_⟩
  · intro he
    rw [he] at hfold
    cases hfold
  · have hmem : foldChar x ∈ ['d', 'n'] := hfold ▸ List.mem_map_of_mem hx
    have hall : ['d', 'n'].all isRuleChar = true := by decide
    exact List.all_eq_true.mp hall _ hmem

theorem readMark_end (rest : List Char) : readMark (':' :: '=' :: rest) = .ok (none, rest) :=
  rfl

theorem readMark_word (h : IsRule rule) (rest : List Char) :
    readMark (':' :: (rule.toList ++ ':' :: rest)) = .ok (some rule, ':' :: rest) := by
  have htake := takeWhile_word h.2 (show isRuleChar ':' = false by decide) rest
  have hdrop := dropWhile_word h.2 (show isRuleChar ':' = false by decide) rest
  cases hcs : rule.toList with
  | nil => exact absurd (String.toList_eq_nil_iff.mp hcs) h.1
  | cons x xs =>
      have hx : x ≠ '=' := by
        rintro rfl
        exact absurd (h.2 '=' (by rw [hcs]; exact List.mem_cons_self)) (by decide)
      rw [hcs] at htake hdrop
      rw [List.cons_append] at htake hdrop ⊢
      have hword : String.ofList (x :: xs) = rule := by rw [← hcs, String.ofList_toList]
      simp only [readMark, expect, if_true, bind, Except.bind]
      split
      · rename_i hcons
        cases hcons
        exact absurd rfl hx
      · simp only [htake, hdrop, List.isEmpty_cons, Bool.false_eq_true, if_false, hword]

/-- Between two colons stands the end of the operator, or a word like a rule. -/
theorem mark_of_read {mark : Option String} (h : readMark cs = .ok (mark, rest)) :
    mark = none ∧ cs = ':' :: '=' :: rest ∨
      ∃ r, mark = some r ∧ IsRule r ∧ cs = ':' :: (r.toList ++ rest) := by
  obtain ⟨inside, hcs, h⟩ := bind_eq_ok h
  rw [expect_eq_ok hcs]
  split at h
  · cases h
    exact .inl ⟨rfl, rfl⟩
  · dsimp only at h
    split at h
    · cases h
    · rename_i hne
      cases h
      refine .inr ⟨_, rfl, ?_, ?_⟩
      · rw [IsRule, String.toList_ofList]
        refine ⟨fun he => hne ?_, List.all_eq_true.mp List.all_takeWhile⟩
        rw [← String.toList_eq_nil_iff, String.toList_ofList] at he
        rw [he]
        rfl
      · rw [String.toList_ofList, List.takeWhile_append_dropWhile]

theorem readRule_written (h : ∀ r ∈ rule?, IsRule r) (rest : List Char) :
    readRule (ruleChars rule? ++ ':' :: '=' :: rest) = .ok (rule?, rest) := by
  cases rule? with
  | none => rfl
  | some r =>
      have hmark := readMark_word (h r rfl) ('=' :: rest)
      simp only [ruleChars, Option.map_some, Option.getD_some, List.cons_append, readRule, hmark,
        bind, Except.bind, readMark_end]

/-- After the flag stands a rule, or none, and the end; and the rule is the word after the
    first colon. -/
theorem rule_of_read (h : readRule cs = .ok (rule?, rest)) :
    cs = ruleChars rule? ++ ':' :: '=' :: rest ∧ (∀ r ∈ rule?, IsRule r) ∧
      ∃ rest', readMark cs = .ok (rule?, rest') := by
  obtain ⟨⟨mark, rest'⟩, hmark, hend⟩ := bind_eq_ok h
  rcases mark_of_read hmark with ⟨rfl, rfl⟩ | ⟨r, rfl, hr, rfl⟩
  · cases hend
    exact ⟨rfl, nofun, rest, hmark⟩
  · obtain ⟨⟨second, rest''⟩, hsecond, hend⟩ := bind_eq_ok hend
    rcases mark_of_read hsecond with ⟨rfl, rfl⟩ | ⟨_, rfl, -, -⟩
    · cases hend
      refine ⟨rfl, ?_, _, hmark⟩
      intro r' hr'
      cases hr'
      exact hr
    · cases hend

/-- A derived operator is read as its flag and rule. -/
theorem Operator.read {op : List Char} (h : Operator op withDn rule?) (rest : List Char) :
    readOperator (op ++ rest) = .ok ((withDn, rule?), rest) := by
  obtain ⟨hflag, hrule⟩ := h
  have hread := readRule_written (fun r hr => (hrule r hr).1) rest
  simp only [List.append_assoc, List.cons_append, List.nil_append]
  cases hflag with
  | absent =>
      rw [List.nil_append, readOperator]
      cases rule? with
      | none => rfl
      | some r =>
          have hdn : sameIgnoringCase r "dn" = false := by
            cases hr : sameIgnoringCase r "dn" with
            | false => rfl
            | true => cases (hrule r rfl).2 hr
          have hmark := readMark_word (hrule r rfl).1 ('=' :: rest)
          rw [show ruleChars (some r) ++ ':' :: '=' :: rest =
            ':' :: (r.toList ++ ':' :: '=' :: rest) from rfl] at hread ⊢
          simp only [hmark, bind, Except.bind, hdn, Bool.false_eq_true, if_false, hread]
  | @present word hdn =>
      -- The flag stands before another colon, of the rule or of the end.
      obtain ⟨after, hafter⟩ : ∃ after, ruleChars rule? ++ ':' :: '=' :: rest = ':' :: after := by
        cases rule? with
        | none => exact ⟨_, rfl⟩
        | some r => exact ⟨_, rfl⟩
      rw [hafter] at hread ⊢
      have hmark := readMark_word (isRule_of_dn hdn) after
      simp only [List.cons_append, readOperator, hmark, bind, Except.bind, hdn, if_true, hread]

/-- An operator that is read is derived. -/
theorem operator_of_read (h : readOperator cs = .ok ((withDn, rule?), rest)) :
    ∃ op, cs = op ++ rest ∧ Operator op withDn rule? := by
  obtain ⟨⟨mark, after⟩, hmark, h⟩ := bind_eq_ok h
  rcases mark_of_read hmark with ⟨rfl, rfl⟩ | ⟨word, rfl, -, hcs⟩
  · cases h
    exact ⟨_, rfl, .mk .absent nofun⟩
  dsimp only at h
  split at h
  · rename_i hdn
    obtain ⟨⟨_, _⟩, hread, h⟩ := bind_eq_ok h
    cases h
    obtain ⟨rfl, hrule, -⟩ := rule_of_read hread
    refine ⟨_, ?_, .mk (.present hdn) fun r hr => ⟨hrule r hr, fun _ => rfl⟩⟩
    simp only [hcs, List.append_assoc, List.cons_append, List.nil_append]
  · rename_i hdn
    obtain ⟨⟨_, _⟩, hread, h⟩ := bind_eq_ok h
    cases h
    obtain ⟨hcs', hrule, _, hmark'⟩ := rule_of_read hread
    -- The rule is the first word, which is not the flag.
    rw [hmark] at hmark'
    cases hmark'
    refine ⟨_, ?_, .mk .absent fun r hr => ⟨hrule r hr, ?_⟩⟩
    · rw [hcs', List.nil_append, List.append_assoc]
      rfl
    · intro hr'
      cases hr
      exact absurd hr' hdn

theorem Operator.eq_colon {op : List Char} (h : Operator op withDn rule?) :
    ∃ more, op = ':' :: more := by
  obtain ⟨hflag, -⟩ := h
  cases hflag with
  | present _ => exact ⟨_, rfl⟩
  | absent => cases rule? <;> exact ⟨_, rfl⟩

/-! ## Derived items are read -/

theorem readExtensible_derived (key? : Option String) {op : List Char}
    (hop : Operator op withDn rule?) (hvalue : Octets text value)
    (hsome : (key?.isNone && rule?.isNone) = false) (rest : List Char) :
    readExtensible key? (op ++ (text ++ ')' :: rest)) =
      .ok (.extensible key? withDn rule? value, ')' :: rest) := by
  simp only [readExtensible, hop.read, bind, Except.bind, hsome, Bool.false_eq_true, if_false,
    hvalue.readValue]

theorem readComparison_derived (comparison : Comparison) (key : String)
    (hvalue : Octets text value) (rest : List Char) :
    readComparison comparison key ('=' :: (text ++ ')' :: rest)) =
      .ok (.compare comparison key value, ')' :: rest) := by
  simp only [readComparison, expect, if_true, bind, Except.bind, hvalue.readValue]

/-- After its attribute an item goes on with its operator. -/
theorem readItem_attribute (hkey : IsAttribute key) (hc : isNameChar c = false)
    (rest : List Char) : readItem (key.toList ++ c :: rest) =
      match c :: rest with
      | '=' :: rest' => do
          let (fragments, after) ← readFragments true rest'
          match ofFragments key fragments with
          | .ok i => .ok (i, after)
          | .error fault => .error (fault, after)
      | '~' :: rest' => readComparison .approximate key rest'
      | '>' :: rest' => readComparison .atLeast key rest'
      | '<' :: rest' => readComparison .atMost key rest'
      | ':' :: _ => readExtensible (some key) (c :: rest)
      | _ => .error (.afterAttribute (met (c :: rest)), c :: rest) := by
  have hhead : ¬ (key.toList ++ c :: rest).head? = some ':' := by
    have hfirst := hkey.1
    cases hcs : key.toList with
    | nil =>
        rw [hcs] at hfirst
        cases hfirst
    | cons x xs =>
        rw [List.cons_append, List.head?_cons]
        rintro ⟨⟩
        rw [hcs, List.head?_cons, Option.any_some] at hfirst
        exact absurd hfirst (by decide)
  rw [readItem, if_neg hhead, readAttribute_word hkey hc]
  rfl

/-- A derived item is read up to the parenthesis that closes it. -/
theorem DerivesItem.read (h : DerivesItem text i) (rest : List Char) :
    readItem (text ++ ')' :: rest) = .ok (i, ')' :: rest) := by
  cases h with
  | compare comparison hkey hvalue =>
      rw [List.append_assoc, List.append_assoc]
      cases comparison with
      | equal =>
          rw [Item.sign, List.singleton_append, readItem_attribute hkey (by decide)]
          simp only [hvalue.readFragments, bind, Except.bind, ofFragments]
      | approximate | atLeast | atMost =>
          simp only [Item.sign, List.cons_append, List.nil_append]
          rw [readItem_attribute hkey (by decide)]
          exact readComparison_derived _ _ hvalue rest
  | present hkey =>
      rw [List.append_assoc, List.cons_append, List.cons_append, List.nil_append,
        readItem_attribute hkey (by decide)]
      simp only [readFragments_star, readFragments_close, Except.map, bind, Except.bind, onRead]
      rfl
  | @substrings key _ _ _ _ _ _ hkey hinitial hinner hfinal hsome =>
      have hread := (fragments_of_parts hinitial hinner hfinal).read rest
      have hitem := ofFragments_substrings key hinitial.ne_nil hinner.ne_nil hfinal.ne_nil hsome
      rw [List.append_assoc, List.cons_append, readItem_attribute hkey (by decide)]
      simp only [hread, bind, Except.bind, hitem]
  | @extensible key _ _ _ _ _ hkey hop hvalue =>
      have hread := readExtensible_derived (some key) hop hvalue rfl rest
      obtain ⟨more, rfl⟩ := hop.eq_colon
      rw [List.append_assoc, List.append_assoc, List.cons_append,
        readItem_attribute hkey (by decide)]
      exact hread
  | extensibleOfAny hop hvalue =>
      have hread := readExtensible_derived none hop hvalue rfl rest
      obtain ⟨more, rfl⟩ := hop.eq_colon
      rw [List.append_assoc, List.cons_append, readItem, List.head?_cons, if_pos rfl]
      exact hread

/-- The flag is no rule: without an attribute it is no item by itself. -/
theorem not_derivesItem_flag (hdn : sameIgnoringCase word "dn" = true) (text : List Char) :
    ¬ DerivesItem (':' :: (word.toList ++ ':' :: '=' :: text)) i := by
  intro h
  have hread := h.read []
  have hop : readOperator (':' :: (word.toList ++ ':' :: '=' :: (text ++ [')']))) =
      .ok ((true, none), text ++ [')']) := by
    have hflag : Operator (':' :: word.toList ++ ruleChars none ++ [':', '=']) true none :=
      .mk (.present hdn) nofun
    simpa [ruleChars] using hflag.read (text ++ [')'])
  simp only [List.cons_append, List.append_assoc] at hread
  rw [readItem, List.head?_cons, if_pos rfl, readExtensible, hop] at hread
  cases hread

/-! ## Items that are read are derived -/

theorem derivesItem_of_readExtensible (h : readExtensible key? cs = .ok (i, rest))
    (hkey : ∀ k ∈ key?, IsAttribute k) :
    ∃ text, cs = text ++ rest ∧ DerivesItem ((key?.map String.toList).getD [] ++ text) i := by
  obtain ⟨⟨⟨withDn, rule?⟩, after⟩, hread, hmore⟩ := bind_eq_ok h
  obtain ⟨op, rfl, hop⟩ := operator_of_read hread
  dsimp only at hmore
  split at hmore
  · cases hmore
  rename_i hsome
  obtain ⟨⟨value, after⟩, hread', hend⟩ := bind_eq_ok hmore
  obtain ⟨text, rfl, hvalue⟩ := octets_of_readValue hread'
  cases hend
  refine ⟨op ++ text, (List.append_assoc _ _ _).symm, ?_⟩
  cases key? with
  | some key =>
      rw [Option.map_some, Option.getD_some, ← List.append_assoc]
      exact .extensible (hkey key rfl) hop hvalue
  | none =>
      rw [Option.map_none, Option.getD_none, List.nil_append]
      cases rule? with
      | some rule => exact .extensibleOfAny hop hvalue
      | none => exact absurd rfl hsome

theorem derivesItem_of_readComparison {comparison : Comparison} {mark : Char}
    (hmark : Item.sign comparison = [mark, '=']) (hkey : IsAttribute key)
    (h : readComparison comparison key cs = .ok (i, rest)) :
    ∃ text, cs = text ++ rest ∧ DerivesItem (key.toList ++ mark :: text) i := by
  obtain ⟨inside, hcs, hmore⟩ := bind_eq_ok h
  obtain ⟨⟨value, after⟩, hread', hend⟩ := bind_eq_ok hmore
  obtain ⟨text, rfl, hvalue⟩ := octets_of_readValue hread'
  cases hend
  refine ⟨'=' :: text, expect_eq_ok hcs, ?_⟩
  have := DerivesItem.compare comparison hkey hvalue
  rwa [hmark, List.append_assoc] at this

/-- Every item that is read is derived from what was read of the text. -/
theorem derivesItem_of_read (h : readItem cs = .ok (i, rest)) :
    ∃ text, cs = text ++ rest ∧ DerivesItem text i := by
  unfold readItem at h
  split at h
  · exact derivesItem_of_readExtensible h nofun
  obtain ⟨⟨key, after⟩, hattribute, hop⟩ := bind_eq_ok h
  obtain ⟨rfl, hkey⟩ := attribute_of_read hattribute
  have front {mark : Char} {after : List Char}
      (hafter : ∃ text, after = text ++ rest ∧ DerivesItem (key.toList ++ mark :: text) i) :
      ∃ text, key.toList ++ mark :: after = text ++ rest ∧ DerivesItem text i := by
    obtain ⟨text, rfl, htext⟩ := hafter
    exact ⟨_, by rw [List.append_assoc, List.cons_append], htext⟩
  dsimp only at hop
  split at hop
  · obtain ⟨⟨vs, left⟩, hread, hend⟩ := bind_eq_ok hop
    obtain ⟨text, rfl, htext, -⟩ := fragments_of_read hread
    dsimp only at hend
    split at hend
    · rename_i hitem
      cases hend
      exact front ⟨text, rfl, derivesItem_of_fragments hkey htext hitem⟩
    · cases hend
  · exact front (derivesItem_of_readComparison rfl hkey hop)
  · exact front (derivesItem_of_readComparison rfl hkey hop)
  · exact front (derivesItem_of_readComparison rfl hkey hop)
  · have hgiven : ∀ k ∈ some key, IsAttribute k := fun k hk => Option.some.inj hk ▸ hkey
    obtain ⟨text, hcs, htext⟩ := derivesItem_of_readExtensible hop hgiven
    exact ⟨key.toList ++ text, by rw [hcs, List.append_assoc], htext⟩
  · cases hop

/-! ## Written items -/

/-- An item that can be derived is well formed. -/
theorem DerivesItem.wellFormed (h : DerivesItem text i) : i.WellFormed := by
  cases h with
  | compare _ hkey _ => exact hkey
  | present hkey => exact hkey
  | substrings hkey hinitial hinner hfinal hsome =>
      refine ⟨hkey, hsome, fun v hv => ?_⟩
      rw [Item.parts, List.mem_append, List.mem_append, Option.mem_toList, Option.mem_toList] at hv
      rcases hv with (hv | hv) | hv
      · exact hinitial.ne_nil v hv
      · exact hinner.ne_nil v hv
      · exact hfinal.ne_nil v hv
  | extensible hkey hop _ =>
      obtain ⟨-, hrule⟩ := hop
      refine ⟨.inl (Option.some_ne_none _), fun k hk => ?_, hrule⟩
      cases hk
      exact hkey
  | extensibleOfAny hop _ =>
      obtain ⟨-, hrule⟩ := hop
      exact ⟨.inr (Option.some_ne_none _), nofun, hrule⟩

theorem optionalPart_partChars {part? : Option Value} (h : ∀ v ∈ part?, v ≠ []) :
    OptionalPart (Item.partChars part?) part? := by
  cases part? with
  | none => exact .absent
  | some v =>
      rw [show Item.partChars (some v) = Item.valueChars v from
        List.flatMap_singleton Item.valueChars v]
      exact .present ((octets_valueChars v).isPart (h v rfl))

theorem starredParts_chars {any : List Value} (h : ∀ v ∈ any, v ≠ []) :
    StarredParts (any.flatMap fun v => Item.valueChars v ++ ['*']) any := by
  induction any with
  | nil => exact .nil
  | cons v any ih =>
      rw [List.forall_mem_cons] at h
      rw [List.flatMap_cons, List.append_assoc, List.singleton_append]
      exact .cons ((octets_valueChars v).isPart h.1) (ih h.2)

theorem optionalFlag_chars (withDn : Bool) :
    OptionalFlag (if withDn then [':', 'd', 'n'] else []) withDn := by
  cases withDn with
  | false => exact .absent
  | true =>
      have hdn : sameIgnoringCase "dn" "dn" = true := by decide
      exact .present hdn

/-- A well-formed item is derived from its written form. -/
theorem derivesItem_chars (h : i.WellFormed) : DerivesItem i.chars i := by
  cases i with
  | compare comparison key value => exact .compare comparison h (octets_valueChars value)
  | present key => exact .present h
  | substrings key initial any final =>
      obtain ⟨hkey, hsome, hparts⟩ := h
      simp only [Item.parts, List.mem_append, Option.mem_toList] at hparts
      have hinitial := optionalPart_partChars fun v hv => hparts v (.inl (.inl hv))
      have hany := starredParts_chars fun v hv => hparts v (.inl (.inr hv))
      have hfinal := optionalPart_partChars fun v hv => hparts v (.inr hv)
      have := DerivesItem.substrings hkey hinitial hany hfinal hsome
      simpa only [Item.chars, List.append_assoc, List.cons_append] using this
  | extensible key? withDn rule? value =>
      obtain ⟨hsome, hkey, hrule⟩ := h
      have hop := Operator.mk (optionalFlag_chars withDn) hrule
      have hvalue := octets_valueChars value
      cases key? with
      | some key =>
          have := DerivesItem.extensible (hkey key rfl) hop hvalue
          simpa only [Item.chars, ruleChars, Option.map_some, Option.getD_some, List.append_assoc,
            List.cons_append, List.nil_append] using this
      | none =>
          cases rule? with
          | none => exact absurd hsome (by simp)
          | some rule =>
              have := DerivesItem.extensibleOfAny hop hvalue
              simpa only [Item.chars, ruleChars, Option.map_none, Option.getD_none,
                List.append_assoc, List.cons_append, List.nil_append] using this

end Filter
end DirectoryStore
