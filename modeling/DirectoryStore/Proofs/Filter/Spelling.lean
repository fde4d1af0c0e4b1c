import DirectoryStore.Proofs.Entry.Spelling
import DirectoryStore.Proofs.Filter.Matching
import DirectoryStore.Proofs.Name.Order

/-!
# Filters and entries that differ in spelling

One policy of case goes for all that an item looks at: types that are looked up, types that are
scanned and types in the name are compared without regard to it.  So an item cannot tell apart
spellings of types, neither its own nor those of the entry, and no filter made of items can.
-/

namespace DirectoryStore

open List (Forall₂)

/-- Maps that say the same contain the same types, in whatever spelling these are asked for. -/
theorem AttributeMap.contains_respelled {m m' : AttributeMap} {key key' : String}
    (h : m.same m' = true) (hkey : sameIgnoringCase key key' = true) :
    m.contains key = m'.contains key' := by
  have hvalues := congrArg Option.isSome (same_iff.mp h (foldCase key))
  rw [valuesAt?, valuesAt?, Option.isSome_map, Option.isSome_map] at hvalues
  rw [contains, contains, get?_eq, get?_eq, hvalues, beq_iff_eq.mp hkey]

/-- The components of a name in two spellings. -/
theorem Dn.forall₂_components {d d' : Dn} (h : d.same d' = true) :
    Forall₂ (fun c c' => c.key = c'.key) (d.rdns.flatMap Rdn.components)
      (d'.rdns.flatMap Rdn.components) := by
  have hkeys : (d.rdns.flatMap Rdn.components).map Component.key =
      (d'.rdns.flatMap Rdn.components).map Component.key := by
    rw [List.map_flatMap, List.map_flatMap]
    exact congrArg List.flatten (same_iff_map_key.mp h)
  rwa [← List.forall₂_eq_eq_eq, List.forall₂_map_left_iff, List.forall₂_map_right_iff] at hkeys

namespace Item

variable {e e' : Entry} {d d' : Dn} {key key' type type' : String} {key? key?' : Option String}
variable {p : Value → Bool} {i j : Item}

/-- The same type, or none in either place. -/
def SameKey (key? key?' : Option String) : Prop :=
  Option.Rel (fun k k' => sameIgnoringCase k k' = true) key? key?'

/-! ## What is looked at -/

theorem any_congr {α : Type} {R : α → α → Prop} {f g : α → Bool} {xs ys : List α}
    (h : Forall₂ R xs ys) (hfg : ∀ x y, R x y → f x = g y) : xs.any f = ys.any g := by
  induction h with
  | nil => rfl
  | cons hxy _ ih => rw [List.any_cons, List.any_cons, hfg _ _ hxy, ih]

theorem wants_congr (hkey : SameKey key? key?') (htype : foldCase type = foldCase type') :
    wants key? type = wants key?' type' := by
  cases hkey with
  | none => rfl
  | some h =>
      have hfold := beq_iff_eq.mp h
      simp only [wants, Option.all_some, sameIgnoringCase, htype, hfold]

theorem someWanted_congr (he : e.attributes.same e'.attributes = true)
    (hkey : SameKey key? key?') : someWanted e key? p = someWanted e' key?' p := by
  rw [someWanted, someWanted, List.any_filter, List.any_filter]
  refine any_congr (AttributeMap.forall₂_sets he) fun s s' hs => ?_
  rw [AttributeSet.same, Bool.and_eq_true, beq_iff_eq, beq_iff_eq] at hs
  rw [wants_congr hkey hs.1, hs.2]

theorem someValue_congr (he : e.attributes.same e'.attributes = true)
    (hkey : sameIgnoringCase key key' = true) : someValue e key p = someValue e' key' p := by
  rw [someValue_eq_someWanted, someValue_eq_someWanted]
  exact someWanted_congr he (.some hkey)

theorem someComponent_congr (hd : d.same d' = true) (hkey : SameKey key? key?') :
    someComponent d key? p = someComponent d' key?' p := by
  rw [someComponent, someComponent, List.any_filter, List.any_filter]
  refine any_congr (Dn.forall₂_components hd) fun c c' hc => ?_
  simp only [Component.key, List.cons.injEq, and_true] at hc
  rw [wants_congr hkey hc.1, hc.2]

/-! ## Items -/

/-- Items that differ at most in the case of attribute types. -/
inductive Respelled : Item → Item → Prop
  | compare (comparison : Comparison) {key key' : String} (value : Value)
      (h : sameIgnoringCase key key' = true) :
      Respelled (.compare comparison key value) (.compare comparison key' value)
  | present {key key' : String} (h : sameIgnoringCase key key' = true) :
      Respelled (.present key) (.present key')
  | substrings {key key' : String} (initial : Option Value) (any : List Value)
      (final : Option Value) (h : sameIgnoringCase key key' = true) :
      Respelled (.substrings key initial any final) (.substrings key' initial any final)
  | extensible {key? key?' : Option String} (withDn : Bool) (rule? : Option String)
      (value : Value) (h : SameKey key? key?') :
      Respelled (.extensible key? withDn rule? value) (.extensible key?' withDn rule? value)

/-- Two spellings of an item hold of the same entries, in whatever spelling these are. -/
theorem Respelled.holds_eq (h : i.Respelled j) (he : e.same e' = true) :
    i.holds e = j.holds e' := by
  obtain ⟨hdn, hattributes⟩ := Entry.same_iff.mp he
  cases h with
  | compare comparison value hkey => exact someValue_congr hattributes hkey
  | present hkey => exact AttributeMap.contains_respelled hattributes hkey
  | substrings initial any final hkey => exact someValue_congr hattributes hkey
  | extensible withDn rule? value hkey =>
      unfold holds
      dsimp only
      cases ruleComparison? rule? with
      | none => rfl
      | some c => simp only [someWanted_congr hattributes hkey, someComponent_congr hdn hkey]

end Item

namespace Filter

variable {e e' : Entry} {f g : Filter}

/-! ## Filters -/

/-- Filters of one shape that differ at most in the case of attribute types. -/
inductive Respelled : Filter → Filter → Prop
  | and {fs gs : List Filter} (h : Forall₂ Respelled fs gs) : Respelled (.and fs) (.and gs)
  | or {fs gs : List Filter} (h : Forall₂ Respelled fs gs) : Respelled (.or fs) (.or gs)
  | not {f g : Filter} (h : Respelled f g) : Respelled (.not f) (.not g)
  | item {i j : Item} (h : i.Respelled j) : Respelled (.item i) (.item j)

-- The induction is on how the filters are respelled, over a list as well as over one filter.
mutual

/-- Filters agree on two entries if their items do. -/
theorem accepts_eq_of_items (hitems : ∀ i j, Item.Respelled i j → i.holds e = j.holds e') :
    ∀ {f g}, Respelled f g → f.accepts e = g.accepts e'
  | _, _, .and h => by rw [accepts, accepts, allAccept_eq_of_items hitems h]
  | _, _, .or h => by rw [accepts, accepts, anyAccept_eq_of_items hitems h]
  | _, _, .not h => by rw [accepts, accepts, accepts_eq_of_items hitems h]
  | _, _, .item h => by rw [accepts, accepts, hitems _ _ h]

theorem allAccept_eq_of_items (hitems : ∀ i j, Item.Respelled i j → i.holds e = j.holds e') :
    ∀ {fs gs}, Forall₂ Respelled fs gs → allAccept fs e = allAccept gs e'
  | _, _, .nil => rfl
  | _, _, .cons h hs => by
      rw [allAccept, allAccept, accepts_eq_of_items hitems h, allAccept_eq_of_items hitems hs]

theorem anyAccept_eq_of_items (hitems : ∀ i j, Item.Respelled i j → i.holds e = j.holds e') :
    ∀ {fs gs}, Forall₂ Respelled fs gs → anyAccept fs e = anyAccept gs e'
  | _, _, .nil => rfl
  | _, _, .cons h hs => by
      rw [anyAccept, anyAccept, accepts_eq_of_items hitems h, anyAccept_eq_of_items hitems hs]

end

/-- Evaluation does not depend on the spelling of types, in the filter or in the entry. -/
theorem accepts_respelled (h : Respelled f g) (he : e.same e' = true) :
    f.accepts e = g.accepts e' :=
  accepts_eq_of_items (fun _ _ hitem => hitem.holds_eq he) h

/-- Two spellings of a filter with items of every kind, on two spellings of an entry. -/
theorem accepts_respelled_spellings :
    let e : Entry := ⟨⟨[.single "cn" "x", .single "ou" "P"]⟩,
      .ofPairs [("mail", [utf8 "a@b"]), ("SN", [utf8 "q"])]⟩
    let e' : Entry := ⟨⟨[.single "CN" "x", .single "Ou" "P"]⟩,
      .ofPairs [("sn", [utf8 "q"]), ("MAIL", [utf8 "a@b"])]⟩
    let f : Filter := .and [.item (.substrings "Mail" (some (utf8 "a")) [] (some (utf8 "b"))),
      .or [.item (.compare .atLeast "sn" (utf8 "r")),
        .item (.extensible (some "OU") true (some "caseIgnoreMatch") (utf8 "p"))],
      .not (.item (.present "o"))]
    let g : Filter := .and [.item (.substrings "mAIL" (some (utf8 "a")) [] (some (utf8 "b"))),
      .or [.item (.compare .atLeast "Sn" (utf8 "r")),
        .item (.extensible (some "ou") true (some "caseIgnoreMatch") (utf8 "p"))],
      .not (.item (.present "O"))]
    Respelled f g ∧ e.same e' = true ∧ f.accepts e = g.accepts e' ∧ f.accepts e = true := by
  intro e e' f g
  have hsubstrings : Respelled _ _ := .item (.substrings (some (utf8 "a")) [] (some (utf8 "b"))
    (show sameIgnoringCase "Mail" "mAIL" = true by decide))
  have hcompare : Respelled _ _ := .item (.compare .atLeast (utf8 "r")
    (show sameIgnoringCase "sn" "Sn" = true by decide))
  have hextensible : Respelled _ _ := .item (.extensible true (some "caseIgnoreMatch") (utf8 "p")
    (.some (show sameIgnoringCase "OU" "ou" = true by decide)))
  have hpresent : Respelled _ _ := .item (.present
    (show sameIgnoringCase "o" "O" = true by decide))
  have h : Respelled f g := .and (.cons hsubstrings (.cons
    (.or (.cons hcompare (.cons hextensible .nil))) (.cons (.not hpresent) .nil)))
  have he : e.same e' = true := by decide
  exact ⟨h, he, accepts_respelled h he, by decide⟩

end Filter
end DirectoryStore
