import DirectoryStore.Attribute.ValueSet

/-!
# Search filters

A filter combines items with and, or and not.  An item looks at one attribute of an
entry, or, as an extensible match, at any of them and at the name of the entry.
-/

namespace DirectoryStore

/-- How a value of the entry relates to the value that an item gives. -/
inductive Comparison where
  /-- The same bytes. -/
  | equal
  /-- The same bytes up to the case of ASCII letters. -/
  | approximate
  /-- The same or later in byte order. -/
  | atLeast
  /-- The same or earlier in byte order. -/
  | atMost
deriving DecidableEq, Repr

/-- A test of an entry. -/
inductive Item where
  /-- Some value of the attribute relates to the given one. -/
  | compare (comparison : Comparison) (key : String) (value : Value)
  /-- The attribute is there. -/
  | present (key : String)
  /-- Some value starts with `initial`, ends with `final`, and has the parts `any` in between,
      in this order and apart from each other. -/
  | substrings (key : String) (initial : Option Value) (any : List Value)
      (final : Option Value)
  /-- Some value is the given one under a matching rule: of the attribute, or of any if none
      is named, and with `withDn` also in the components of the name. -/
  | extensible (key : Option String) (withDn : Bool) (rule : Option String)
      (value : Value)
deriving DecidableEq, Repr

/-- A combination of items. -/
inductive Filter where
  | and (filters : List Filter)
  | or (filters : List Filter)
  | not (filter : Filter)
  | item (item : Item)
deriving Repr, Inhabited

namespace Filter

mutual

/-- Equality of filters. -/
def beq : Filter → Filter → Bool
  | and fs, and gs => beqAll fs gs
  | or fs, or gs => beqAll fs gs
  | not f, not g => beq f g
  | item i, item j => i = j
  | _, _ => false

/-- Equality of lists of filters. -/
def beqAll : List Filter → List Filter → Bool
  | [], [] => true
  | f :: fs, g :: gs => beq f g && beqAll fs gs
  | _, _ => false

end

mutual

theorem eq_of_beq : ∀ f g : Filter, beq f g = true → f = g
  | and fs, and gs, h => congrArg and (eq_of_beqAll fs gs (by simpa [beq] using h))
  | or fs, or gs, h => congrArg or (eq_of_beqAll fs gs (by simpa [beq] using h))
  | not f, not g, h => congrArg not (eq_of_beq f g (by simpa [beq] using h))
  | item _, item _, h => congrArg item (by simpa [beq] using h)
  | and _, or _, h | and _, not _, h | and _, item _, h => by simp [beq] at h
  | or _, and _, h | or _, not _, h | or _, item _, h => by simp [beq] at h
  | not _, and _, h | not _, or _, h | not _, item _, h => by simp [beq] at h
  | item _, and _, h | item _, or _, h | item _, not _, h => by simp [beq] at h

theorem eq_of_beqAll : ∀ fs gs : List Filter, beqAll fs gs = true → fs = gs
  | [], [], _ => rfl
  | f :: fs, g :: gs, h => by
      have h' : beq f g = true ∧ beqAll fs gs = true := by simpa [beqAll] using h
      rw [eq_of_beq f g h'.1, eq_of_beqAll fs gs h'.2]
  | [], _ :: _, h | _ :: _, [], h => by simp [beqAll] at h

end

mutual

theorem beq_refl : ∀ f : Filter, beq f f = true
  | and fs => by simpa [beq] using beqAll_refl fs
  | or fs => by simpa [beq] using beqAll_refl fs
  | not f => by simpa [beq] using beq_refl f
  | item _ => by simp [beq]

theorem beqAll_refl : ∀ fs : List Filter, beqAll fs fs = true
  | [] => rfl
  | f :: fs => by simp [beqAll, beq_refl f, beqAll_refl fs]

end

instance : DecidableEq Filter := fun f g =>
  if h : beq f g = true then .isTrue (eq_of_beq f g h)
  else .isFalse fun he => h (he ▸ beq_refl f)

end Filter
end DirectoryStore
