import DirectoryStore.Proofs.Filter.Items

/-!
# The grammar of filters

A text spells a filter exactly if the grammar derives it with this filter as its tree.  What is
derived is read in front of anything, by induction on the derivation; what is read is derived,
by induction on the length of the text.  A list of filters ends where no further parenthesis
opens, so no text has two trees.
-/

namespace DirectoryStore
namespace Filter

variable {cs rest text : List Char} {f g : Filter} {fs : List Filter}

/-! ## Derivations -/

/-- A text that stands for a filter.  The lists of filters pair each of them with the text that
    derives it. -/
inductive Derives : List Char → Filter → Prop
  /-- `'(&' 1*filter ')'` -/
  | and {ps : List (List Char × Filter)} (hne : ps ≠ []) (h : ∀ p ∈ ps, Derives p.1 p.2) :
      Derives ('(' :: '&' :: (ps.flatMap Prod.fst ++ [')'])) (.and (ps.map Prod.snd))
  /-- `'(|' 1*filter ')'` -/
  | or {ps : List (List Char × Filter)} (hne : ps ≠ []) (h : ∀ p ∈ ps, Derives p.1 p.2) :
      Derives ('(' :: '|' :: (ps.flatMap Prod.fst ++ [')'])) (.or (ps.map Prod.snd))
  /-- `'(!' filter ')'` -/
  | not {text : List Char} {f : Filter} (h : Derives text f) :
      Derives ('(' :: '!' :: (text ++ [')'])) (.not f)
  /-- `'(' item ')'` -/
  | item {text : List Char} {i : Item} (h : DerivesItem text i) :
      Derives ('(' :: (text ++ [')'])) (.item i)

theorem Derives.eq_open (h : Derives text f) : ∃ inside, text = '(' :: inside := by
  cases h with
  | and _ _ | or _ _ | not _ | item _ => exact ⟨_, rfl⟩

/-! ## The reader without its bounds -/

/-- The filter at the front of a text, and what is left. -/
def readOne (cs : List Char) : Except Misfit (Filter × List Char) :=
  (readFilter cs).map Subtype.val

/-- The filters at the front of a text, and what is left. -/
def readMany (cs : List Char) : Except Misfit (List Filter × List Char) :=
  (readFilters cs).map Subtype.val

/-- What stands between parentheses. -/
def readInside : List Char → Except Misfit (Filter × List Char)
  | [] => (readItem []).map (onRead item)
  | c :: rest =>
      if c = '&' then (readMany rest).map (onRead and)
      else if c = '|' then (readMany rest).map (onRead or)
      else if c = '!' then (readOne rest).map (onRead not)
      else (readItem (c :: rest)).map (onRead item)

theorem readOne_length (h : readOne cs = .ok (f, rest)) : rest.length < cs.length := by
  obtain ⟨⟨r, hr⟩, -, rfl⟩ := map_eq_ok h
  exact hr

theorem expect_self (c : Char) (rest : List Char) : expect c (c :: rest) = .ok rest :=
  if_pos rfl

/-- Whether the closing parenthesis stands there does not depend on the bound. -/
theorem close_val {α : Type} {inside : List Char} (hcs : cs = '(' :: inside) (a : α)
    (h : rest.length ≤ inside.length) :
    (close hcs a rest h).map Subtype.val = (expect ')' rest).map (a, ·) := by
  unfold close
  split <;> rename_i hrest <;> simp only [hrest, Except.map]

theorem readLeaf_val {inside : List Char} (hcs : cs = '(' :: inside) :
    (readLeaf hcs).map Subtype.val =
      ((readItem inside).map (onRead item) >>= fun r => (expect ')' r.2).map (r.1, ·)) := by
  unfold readLeaf
  split <;> rename_i hitem <;> simp only [hitem, close_val] <;> rfl

/-- A filter is what stands between two parentheses. -/
theorem readOne_eq (cs : List Char) : readOne cs = (expect '(' cs >>= fun inside =>
    readInside inside >>= fun r => (expect ')' r.2).map (r.1, ·)) := by
  rw [readOne, readFilter]
  split
  · rename_i hinside
    simp only [hinside]
    rfl
  · rename_i hinside
    simp only [hinside, readLeaf_val]
    rfl
  · rename_i c rest hinside
    simp only [hinside, bind, Except.bind, readInside]
    by_cases hand : c = '&'
    · simp only [if_pos hand, readMany]
      cases readFilters rest with
      | error m => rfl
      | ok r => exact close_val _ _ _
    by_cases hor : c = '|'
    · simp only [if_neg hand, if_pos hor, readMany]
      cases readFilters rest with
      | error m => rfl
      | ok r => exact close_val _ _ _
    by_cases hnot : c = '!'
    · simp only [if_neg hand, if_neg hor, if_pos hnot, readOne]
      cases readFilter rest with
      | error m => rfl
      | ok r => exact close_val _ _ _
    · simp only [if_neg hand, if_neg hor, if_neg hnot, readLeaf_val]
      rfl

/-- Filters go on where another parenthesis opens. -/
theorem readMany_eq (cs : List Char) : readMany cs = (readOne cs >>= fun r =>
    if r.2.head? = some '(' then (readMany r.2).map (onRead (r.1 :: ·))
    else .ok ([r.1], r.2)) := by
  rw [readMany, readFilters, readOne]
  split
  · rename_i hone
    simp only [hone]
    rfl
  · rename_i f rest h hone
    simp only [hone, Except.map, bind, Except.bind]
    by_cases hnext : rest.head? = some '('
    · simp only [if_pos hnext, readMany]
      cases readFilters rest <;> rfl
    · simp only [if_neg hnext]

/-- Between parentheses, what reads up to the closing one is a filter. -/
theorem readOne_closed {inside : List Char} (h : readInside inside = .ok (f, ')' :: rest)) :
    readOne ('(' :: inside) = .ok (f, rest) := by
  simp only [readOne_eq, expect_self, bind, Except.bind, h, Except.map]

/-- A filter is read from an opening parenthesis to the closing one. -/
theorem readOne_eq_ok (h : readOne cs = .ok (f, rest)) :
    ∃ inside, cs = '(' :: inside ∧ readInside inside = .ok (f, ')' :: rest) := by
  rw [readOne_eq] at h
  obtain ⟨inside, hinside, h⟩ := bind_eq_ok h
  obtain ⟨⟨g, after⟩, hread, h⟩ := bind_eq_ok h
  obtain ⟨rest', hrest, h⟩ := map_eq_ok h
  cases h
  exact ⟨inside, expect_eq_ok hinside, expect_eq_ok hrest ▸ hread⟩

/-! ## What is derived is read -/

/-- The inside of an item is not taken for a combination. -/
theorem readInside_item {i : Item} (h : DerivesItem text i) (rest : List Char) :
    readInside (text ++ ')' :: rest) = .ok (item i, ')' :: rest) := by
  have hitem := h.read rest
  cases hcs : text ++ ')' :: rest with
  | nil => exact absurd hcs (List.append_ne_nil_of_right_ne_nil _ (List.cons_ne_nil _ _))
  | cons c inside =>
      rw [hcs] at hitem
      -- No item starts with the sign of a combination.
      have hc : c ≠ '&' ∧ c ≠ '|' ∧ c ≠ '!' := by
        refine ⟨?_, ?_, ?_⟩ <;> rintro rfl <;> cases hitem
      simp only [readInside, if_neg hc.1, if_neg hc.2.1, if_neg hc.2.2, hitem]
      rfl

/-- Filters are read up to the parenthesis that closes their list. -/
theorem readMany_of_readOne {ps : List (List Char × Filter)} (hne : ps ≠ [])
    (hopen : ∀ p ∈ ps, ∃ inside, p.1 = '(' :: inside)
    (hread : ∀ p ∈ ps, ∀ rest, readOne (p.1 ++ rest) = .ok (p.2, rest)) (rest : List Char) :
    readMany (ps.flatMap Prod.fst ++ ')' :: rest) = .ok (ps.map Prod.snd, ')' :: rest) := by
  induction ps with
  | nil => exact absurd rfl hne
  | cons p ps ih =>
      rw [List.forall_mem_cons] at hopen hread
      rw [List.flatMap_cons, List.append_assoc, readMany_eq, hread.1]
      cases ps with
      | nil => rfl
      | cons q ps =>
          have hmany := ih (List.cons_ne_nil q ps) hopen.2 hread.2
          have hnext : ((q :: ps).flatMap Prod.fst ++ ')' :: rest).head? = some '(' := by
            obtain ⟨inside, hinside⟩ := hopen.2 q List.mem_cons_self
            rw [List.flatMap_cons, hinside]
            rfl
          simp only [bind, Except.bind, if_pos hnext, hmany]
          rfl

/-- A derived filter is read in front of anything. -/
theorem Derives.read (h : Derives text f) (rest : List Char) :
    readOne (text ++ rest) = .ok (f, rest) := by
  induction h generalizing rest with
  | and hne h ih =>
      have hmany := readMany_of_readOne hne (fun p hp => (h p hp).eq_open) ih rest
      simp only [List.cons_append, List.append_assoc, List.nil_append]
      refine readOne_closed ?_
      simp only [readInside, if_true, hmany]
      rfl
  | or hne h ih =>
      have hmany := readMany_of_readOne hne (fun p hp => (h p hp).eq_open) ih rest
      simp only [List.cons_append, List.append_assoc, List.nil_append]
      refine readOne_closed ?_
      simp only [readInside, if_true, hmany]
      rfl
  | not _ ih =>
      have hone := ih (')' :: rest)
      simp only [List.cons_append, List.append_assoc, List.nil_append]
      refine readOne_closed ?_
      simp only [readInside, if_true, hone]
      rfl
  | item h =>
      simp only [List.cons_append, List.append_assoc, List.nil_append]
      exact readOne_closed (readInside_item h rest)

/-- A text has one tree at most. -/
theorem Derives.unique (hf : Derives text f) (hg : Derives text g) : f = g := by
  have hread := hf.read []
  rw [hg.read] at hread
  cases hread
  rfl

/-! ## What is read is derived -/

-- The induction is on the length of the text: what stands between parentheses is shorter, and so
-- is what the first of several filters leaves.
mutual

theorem derives_of_readOne (cs : List Char) (f : Filter) (rest : List Char)
    (h : readOne cs = .ok (f, rest)) : ∃ text, cs = text ++ rest ∧ Derives text f := by
  obtain ⟨inside, hcs, hread⟩ := readOne_eq_ok h
  have hlength := congrArg List.length hcs
  rw [List.length_cons] at hlength
  unfold readInside at hread
  split at hread
  · cases hread
  rename_i c inside
  rw [List.length_cons] at hlength
  split at hread
  · rename_i hand
    obtain ⟨⟨fs, left⟩, hmany, hf⟩ := map_eq_ok hread
    obtain ⟨ps, hne, hinside, rfl, hps⟩ := derives_of_readMany inside fs left hmany
    cases hf
    refine ⟨_, ?_, .and hne hps⟩
    simp [hcs, hand, hinside]
  split at hread
  · rename_i hor
    obtain ⟨⟨fs, left⟩, hmany, hf⟩ := map_eq_ok hread
    obtain ⟨ps, hne, hinside, rfl, hps⟩ := derives_of_readMany inside fs left hmany
    cases hf
    refine ⟨_, ?_, .or hne hps⟩
    simp [hcs, hor, hinside]
  split at hread
  · rename_i hnot
    obtain ⟨⟨g, left⟩, hone, hf⟩ := map_eq_ok hread
    obtain ⟨text, hinside, htext⟩ := derives_of_readOne inside g left hone
    cases hf
    refine ⟨_, ?_, .not htext⟩
    simp [hcs, hnot, hinside]
  · obtain ⟨⟨i, left⟩, hitem, hf⟩ := map_eq_ok hread
    obtain ⟨text, hinside, htext⟩ := derivesItem_of_read hitem
    cases hf
    refine ⟨_, ?_, .item htext⟩
    simp [hcs, hinside]
termination_by (cs.length, 0)

theorem derives_of_readMany (cs : List Char) (fs : List Filter) (rest : List Char)
    (h : readMany cs = .ok (fs, rest)) : ∃ ps : List (List Char × Filter), ps ≠ [] ∧
      cs = ps.flatMap Prod.fst ++ rest ∧ fs = ps.map Prod.snd ∧ ∀ p ∈ ps, Derives p.1 p.2 := by
  rw [readMany_eq] at h
  obtain ⟨⟨f, after⟩, hone, h⟩ := bind_eq_ok h
  have hlength := readOne_length hone
  obtain ⟨text, hcs, htext⟩ := derives_of_readOne cs f after hone
  split at h
  · obtain ⟨⟨gs, left⟩, hmany, h⟩ := map_eq_ok h
    obtain ⟨ps, -, hafter, hgs, hps⟩ := derives_of_readMany after gs left hmany
    cases h
    refine ⟨(text, f) :: ps, List.cons_ne_nil _ _, ?_, ?_, List.forall_mem_cons.mpr ⟨htext, hps⟩⟩
    · rw [List.flatMap_cons, List.append_assoc, ← hafter, hcs]
    · rw [List.map_cons, ← hgs]
  · cases h
    refine ⟨[(text, f)], List.cons_ne_nil _ _, ?_, rfl, List.forall_mem_singleton.mpr htext⟩
    rw [List.flatMap_singleton, hcs]
termination_by (cs.length, 1)

end

/-! ## Texts -/

/-- A text spells a filter if nothing is left of it. -/
theorem parse_eq_ok_iff {text : String} :
    parse text = .ok f ↔ readOne text.toList = .ok (f, []) := by
  rw [parse, readOne]
  cases readFilter text.toList with
  | error m => simp only [Except.map, reduceCtorEq]
  | ok r =>
      obtain ⟨⟨g, left⟩, hr⟩ := r
      cases left with
      | nil => simp only [Except.map, Except.ok.injEq, Prod.mk.injEq, and_true]
      | cons c left => simp only [Except.map, Except.ok.injEq, Prod.mk.injEq, and_false,
          reduceCtorEq]

/-- The texts that spell a filter are those that the grammar derives with it. -/
theorem parse_eq_ok_iff_derives (text : String) (f : Filter) :
    parse text = .ok f ↔ Derives text.toList f := by
  rw [parse_eq_ok_iff]
  constructor
  · intro h
    obtain ⟨cs, hcs, hderives⟩ := derives_of_readOne _ f [] h
    rwa [hcs, List.append_nil]
  · intro h
    have hread := h.read []
    rwa [List.append_nil] at hread

end Filter
end DirectoryStore
