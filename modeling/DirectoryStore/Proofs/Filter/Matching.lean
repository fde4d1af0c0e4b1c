import DirectoryStore.Filter.Eval
import DirectoryStore.Proofs.Attribute.Lookup

/-!
# What items look at

A comparison looks up the values of one attribute by its folded type; an extensible match scans
all attributes, and the components of the name, for the types that it wants.  Each set of a map
stands under its own folded type and no other set does, so a lookup finds what a scan for its type
finds, and extensible matches agree with comparisons.
-/

namespace DirectoryStore
namespace Item

variable {e : Entry} {d : Dn} {key type rule : String} {key? rule? : Option String}
variable {p : Value → Bool} {given v : Value} {c : Comparison}

/-! ## Scans and lookups -/

theorem wants_iff : wants key? type = true ↔ ∀ k ∈ key?, sameIgnoringCase type k = true := by
  cases key? <;> simp [wants]

/-- A scan finds the values of the attributes that are wanted. -/
theorem someWanted_iff : someWanted e key? p = true ↔ ∃ s ∈ e.attributes.sets,
    (∀ k ∈ key?, sameIgnoringCase s.key k = true) ∧ ∃ v ∈ s.values, p v = true := by
  simp only [someWanted, List.any_eq_true, List.mem_filter, wants_iff, and_assoc]
  rfl

/-- A scan finds the components of a name that are wanted. -/
theorem someComponent_iff : someComponent d key? p = true ↔ ∃ r ∈ d.rdns, ∃ c ∈ r.components,
    (∀ k ∈ key?, sameIgnoringCase c.type k = true) ∧ p (utf8 c.value) = true := by
  simp only [someComponent, List.any_eq_true, List.mem_filter, List.mem_flatMap, wants_iff]
  constructor
  · rintro ⟨c, ⟨⟨r, hr, hc⟩, hwanted⟩, hp⟩
    exact ⟨r, hr, c, hc, hwanted, hp⟩
  · rintro ⟨r, hr, c, hc, hwanted, hp⟩
    exact ⟨c, ⟨⟨r, hr, hc⟩, hwanted⟩, hp⟩

/-- A lookup finds the values of the attribute, in whatever spelling it is stored. -/
theorem someValue_iff : someValue e key p = true ↔ ∃ s ∈ e.attributes.sets,
    sameIgnoringCase s.key key = true ∧ ∃ v ∈ s.values, p v = true := by
  simp only [someValue, Option.any_eq_true, AttributeMap.get?_eq, AttributeMap.setAt?_eq_some_iff,
    List.any_eq_true, sameIgnoringCase, beq_iff_eq, and_assoc]
  rfl

/-- A lookup finds what a scan for one type finds. -/
theorem someValue_eq_someWanted (e : Entry) (key : String) (p : Value → Bool) :
    someValue e key p = someWanted e (some key) p := by
  rw [Bool.eq_iff_iff, someValue_iff, someWanted_iff]
  simp only [Option.mem_some_iff, forall_eq']

/-! ## Matching rules -/

/-- A rule that goes by a name, in any case, or by its number. -/
def NamesRule (name number rule : String) : Prop :=
  sameIgnoringCase rule name = true ∨ rule = number

instance (name number rule : String) : Decidable (NamesRule name number rule) :=
  inferInstanceAs (Decidable (_ ∨ _))

/-- A value that equals the given one under a matching rule.  Under a rule that is not one of
    these, no value does. -/
inductive EqualUnder : Option String → Value → Value → Prop
  /-- Without a rule, byte for byte. -/
  | byDefault (v : Value) : EqualUnder none v v
  /-- Byte for byte. -/
  | exact {rule : String} (hrule : NamesRule "caseExactMatch" "2.5.13.5" rule) (v : Value) :
      EqualUnder (some rule) v v
  /-- Up to the case of ASCII letters. -/
  | ignoringCase {rule : String} {given v : Value}
      (hrule : NamesRule "caseIgnoreMatch" "2.5.13.2" rule) (hv : foldValue v = foldValue given) :
      EqualUnder (some rule) given v

theorem ruleComparison?_exact (h : NamesRule "caseExactMatch" "2.5.13.5" rule) :
    ruleComparison? (some rule) = some .equal := by
  rcases h with h | rfl
  · simp only [ruleComparison?, h, Bool.true_or, if_true]
  · decide

theorem ruleComparison?_ignoringCase (h : NamesRule "caseIgnoreMatch" "2.5.13.2" rule) :
    ruleComparison? (some rule) = some .approximate := by
  rcases h with h | rfl
  · have hfold : foldCase rule = foldCase "caseIgnoreMatch" := beq_iff_eq.mp h
    have hname : sameIgnoringCase rule "caseExactMatch" = false := by
      rw [sameIgnoringCase, hfold]
      decide
    have hnumber : (rule == "2.5.13.5") = false := by
      rw [beq_eq_false_iff_ne]
      rintro rfl
      exact absurd hfold (by decide)
    simp only [ruleComparison?, hname, hnumber, h, Bool.or_self, Bool.true_or, Bool.false_eq_true,
      if_true, if_false]
  · decide

/-- The comparison that a rule stands for holds of the values that are equal under the rule. -/
theorem equalUnder_iff :
    EqualUnder rule? given v ↔ ∃ c, ruleComparison? rule? = some c ∧ c.holds given v = true := by
  constructor
  · intro h
    cases h with
    | byDefault v => exact ⟨.equal, rfl, decide_eq_true rfl⟩
    | exact hrule v => exact ⟨.equal, ruleComparison?_exact hrule, decide_eq_true rfl⟩
    | ignoringCase hrule hv =>
        exact ⟨.approximate, ruleComparison?_ignoringCase hrule, decide_eq_true hv⟩
  · rintro ⟨c, hrule, hv⟩
    cases rule? with
    | none =>
        cases hrule
        rw [of_decide_eq_true hv]
        exact .byDefault given
    | some rule =>
        unfold ruleComparison? at hrule
        dsimp only at hrule
        split at hrule
        · rename_i hexact
          cases hrule
          rw [of_decide_eq_true hv]
          exact .exact (by simpa [NamesRule] using hexact) given
        split at hrule
        · rename_i hignore
          cases hrule
          exact .ignoringCase (by simpa [NamesRule] using hignore) (of_decide_eq_true hv)
        · cases hrule

/-! ## Extensible matches -/

/-- An extensible match looks for equal values in the attributes that it wants, and with the flag
    also in the components of the name. -/
theorem holds_extensible_iff {withDn : Bool} :
    (extensible key? withDn rule? given).holds e = true ↔
      (∃ s ∈ e.attributes.sets, (∀ k ∈ key?, sameIgnoringCase s.key k = true) ∧
        ∃ v ∈ s.values, EqualUnder rule? given v) ∨
      withDn = true ∧ ∃ r ∈ e.dn.rdns, ∃ c ∈ r.components,
        (∀ k ∈ key?, sameIgnoringCase c.type k = true) ∧ EqualUnder rule? given (utf8 c.value) := by
  simp only [equalUnder_iff]
  unfold holds
  dsimp only
  cases ruleComparison? rule? with
  | none => simp
  | some c => simp [someWanted_iff, someComponent_iff]

/-- With an attribute and without the flag, an extensible match is a comparison. -/
theorem holds_extensible_eq_compare (h : ruleComparison? rule? = some c) (key : String)
    (given : Value) (e : Entry) :
    (extensible (some key) false rule? given).holds e = (compare c key given).holds e := by
  simp only [holds, h, Bool.false_and, Bool.or_false, someValue_eq_someWanted]

/-- Without an attribute, an extensible match looks at those that the entry has. -/
theorem holds_extensible_none_iff (rule? : Option String) (given : Value) (e : Entry) :
    (extensible none false rule? given).holds e = true ↔ ∃ key ∈ e.attributes.keys,
      (extensible (some key) false rule? given).holds e = true := by
  simp only [holds_extensible_iff, Bool.false_eq_true, false_and, or_false]
  constructor
  · rintro ⟨s, hs, -, hv⟩
    refine ⟨s.key, List.mem_map_of_mem hs, s, hs, ?_, hv⟩
    rintro k ⟨⟩
    exact beq_self_eq_true _
  · rintro ⟨_, -, s, hs, -, hv⟩
    exact ⟨s, hs, nofun, hv⟩

/-- With the flag, an extensible match looks at the components of the name as well. -/
theorem holds_extensible_flag_iff (key? rule? : Option String) (given : Value) (e : Entry) :
    (extensible key? true rule? given).holds e = true ↔
      (extensible key? false rule? given).holds e = true ∨ ∃ r ∈ e.dn.rdns, ∃ c ∈ r.components,
        (∀ k ∈ key?, sameIgnoringCase c.type k = true) ∧ EqualUnder rule? given (utf8 c.value) := by
  simp only [holds_extensible_iff, Bool.false_eq_true, false_and, or_false, true_and]

end Item

namespace Filter

/-- How extensible matches with a value agree with comparisons and with each other. -/
structure ExtensibleAgrees (e : Entry) (value : Value) : Prop where
  byDefault : ∀ key, accepts (.item (.extensible (some key) false none value)) e =
    accepts (.item (.compare .equal key value)) e
  exact : ∀ key rule, Item.NamesRule "caseExactMatch" "2.5.13.5" rule →
    accepts (.item (.extensible (some key) false (some rule) value)) e =
      accepts (.item (.compare .equal key value)) e
  ignoringCase : ∀ key rule, Item.NamesRule "caseIgnoreMatch" "2.5.13.2" rule →
    accepts (.item (.extensible (some key) false (some rule) value)) e =
      accepts (.item (.compare .approximate key value)) e
  withoutKey : ∀ rule?, accepts (.item (.extensible none false rule? value)) e = true ↔
    ∃ key ∈ e.attributes.keys,
      accepts (.item (.extensible (some key) false rule? value)) e = true
  withDn : ∀ key? rule?, accepts (.item (.extensible key? true rule? value)) e = true ↔
    accepts (.item (.extensible key? false rule? value)) e = true ∨
      ∃ r ∈ e.dn.rdns, ∃ c ∈ r.components, (∀ k ∈ key?, sameIgnoringCase c.type k = true) ∧
        Item.EqualUnder rule? value (utf8 c.value)

/-- Extensible matches agree with comparisons on every entry. -/
theorem extensible_agrees (e : Entry) (value : Value) : ExtensibleAgrees e value where
  byDefault key := Item.holds_extensible_eq_compare rfl key value e
  exact key _ hrule :=
    Item.holds_extensible_eq_compare (Item.ruleComparison?_exact hrule) key value e
  ignoringCase key _ hrule :=
    Item.holds_extensible_eq_compare (Item.ruleComparison?_ignoringCase hrule) key value e
  withoutKey rule? := Item.holds_extensible_none_iff rule? value e
  withDn key? rule? := Item.holds_extensible_flag_iff key? rule? value e

end Filter
end DirectoryStore
