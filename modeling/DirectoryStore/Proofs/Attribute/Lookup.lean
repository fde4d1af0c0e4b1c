import DirectoryStore.Attribute.AttributeMap

/-!
# Attributes by type

What the changes of an attribute map do to the set that is found for a type.  A map is
known by what it finds, and two maps say the same when they find the same values.
-/

namespace DirectoryStore

namespace Rising

variable {α κ : Type} [LT κ] {key : α → κ} {l : List α} {x y : α} {k : κ}

/-- A rising list holds one element a key. -/
theorem eq_of_key_eq [Std.Irrefl (α := κ) (· < ·)] (h : Rising key l) (hx : x ∈ l) (hy : y ∈ l)
    (hk : key x = key y) : x = y := by
  induction l with
  | nil => cases hx
  | cons z l ih =>
      obtain ⟨hz, hl⟩ := List.pairwise_cons.mp h
      rcases List.mem_cons.mp hx with rfl | hxl <;> rcases List.mem_cons.mp hy with he | hyl
      · exact he.symm
      · exact absurd (hk ▸ hz y hyl) (Std.Irrefl.irrefl _)
      · subst he
        exact absurd (hk ▸ hz x hxl) (Std.Irrefl.irrefl _)
      · exact ih hl hxl hyl

theorem pairwise_ne [Std.Irrefl (α := κ) (· < ·)] (h : Rising key l) :
    l.Pairwise fun x y => key x ≠ key y := by
  refine List.Pairwise.imp (fun {x y} hlt he => ?_) h
  rw [he] at hlt
  exact Std.Irrefl.irrefl _ hlt

variable [BEq κ] [LawfulBEq κ]

theorem find?_eq_some_iff [Std.Irrefl (α := κ) (· < ·)] (h : Rising key l) :
    find? key k l = some x ↔ x ∈ l ∧ key x = k := by
  constructor
  · intro hf
    have hk : (key x == k) = true := List.find?_some (p := fun y => key y == k) hf
    exact ⟨List.mem_of_find?_eq_some hf, eq_of_beq hk⟩
  · rintro ⟨hx, rfl⟩
    cases hf : find? key (key x) l with
    | none => exact absurd (beq_self_eq_true (key x)) (List.find?_eq_none.mp hf x hx)
    | some y =>
        have hy := List.mem_of_find?_eq_some hf
        have hk : (key y == key x) = true := List.find?_some (p := fun z => key z == key x) hf
        rw [eq_of_key_eq h hy hx (eq_of_beq hk)]

omit [LT κ] in
theorem find?_eq_none_iff : find? key k l = none ↔ ∀ x ∈ l, key x ≠ k := by
  simp [find?, List.find?_eq_none]

theorem find?_put [DecidableLT κ] [Std.Irrefl (α := κ) (· < ·)]
    [Std.Trichotomous (α := κ) (· < ·)] [Trans (α := κ) (· < ·) (· < ·) (· < ·)] [DecidableEq κ]
    (h : Rising key l) :
    find? key k (put key x l) = if k = key x then some x else find? key k l := by
  apply Option.ext
  intro y
  rw [find?_eq_some_iff (put_rising x h), mem_put]
  split
  · rename_i hk
    subst hk
    constructor
    · rintro ⟨rfl | ⟨-, hne⟩, he⟩
      · rfl
      · exact absurd he hne
    · rintro he
      cases he
      exact ⟨.inl rfl, rfl⟩
  · rename_i hk
    rw [find?_eq_some_iff h]
    constructor
    · rintro ⟨rfl | ⟨hy, -⟩, he⟩
      · exact absurd he.symm hk
      · exact ⟨hy, he⟩
    · rintro ⟨hy, he⟩
      exact ⟨.inr ⟨hy, fun hx => hk (he.symm.trans hx)⟩, he⟩

end Rising

theorem ValueSet.empty_insertAll (s : ValueSet) : empty.insertAll s.toList = s :=
  ext fun v => by simp [mem_insertAll, not_mem_empty, mem_toList]

theorem ValueSet.isEmpty_iff_eq {s : ValueSet} : s.isEmpty = true ↔ s = empty := by
  rw [isEmpty, List.isEmpty_iff]
  exact ⟨fun h => ext fun v => by rw [← mem_toList, h, ← mem_toList]; rfl, fun h => h ▸ rfl⟩

namespace AttributeMap

variable {m n : AttributeMap} {s set : AttributeSet} {k key : String}

/-- The set of a type in lower case. -/
def setAt? (m : AttributeMap) (k : String) : Option AttributeSet :=
  Rising.find? AttributeSet.foldedKey k m.sets

/-- The values of a type in lower case. -/
def valuesAt? (m : AttributeMap) (k : String) : Option ValueSet :=
  (m.setAt? k).map AttributeSet.values

theorem get?_eq (m : AttributeMap) (key : String) : m.get? key = m.setAt? (foldCase key) := rfl

theorem setAt?_eq_some_iff : m.setAt? k = some s ↔ s ∈ m.sets ∧ s.foldedKey = k :=
  Rising.find?_eq_some_iff m.rising

theorem setAt?_eq_none_iff : m.setAt? k = none ↔ ∀ s ∈ m.sets, s.foldedKey ≠ k :=
  Rising.find?_eq_none_iff

theorem setAt?_of_mem (h : s ∈ m.sets) : m.setAt? s.foldedKey = some s :=
  setAt?_eq_some_iff.mpr ⟨h, rfl⟩

theorem valuesAt?_eq_some (h : m.setAt? k = some s) : m.valuesAt? k = some s.values := by
  rw [valuesAt?, h, Option.map_some]

theorem valuesAt?_eq_none (h : m.setAt? k = none) : m.valuesAt? k = none := by
  rw [valuesAt?, h, Option.map_none]

@[simp] theorem setAt?_empty (k : String) : empty.setAt? k = none := rfl

/-- A map is known by what it finds. -/
theorem ext_setAt? (h : ∀ k, m.setAt? k = n.setAt? k) : m = n := by
  obtain ⟨l, hl, hm⟩ := m
  obtain ⟨l', hl', hn⟩ := n
  have : l = l' := Rising.ext hl hl' fun s => by
    have hs := h s.foldedKey
    rw [Option.ext_iff] at hs
    have := hs s
    rwa [setAt?_eq_some_iff, setAt?_eq_some_iff, and_iff_left rfl, and_iff_left rfl] at this
  subst this
  rfl

/-! ## Changes -/

theorem setAt?_erase (m : AttributeMap) (key k : String) :
    (m.erase key).setAt? k = if k = foldCase key then none else m.setAt? k := by
  apply Option.ext
  intro s
  rw [setAt?_eq_some_iff, erase, filter, List.mem_filter, decide_eq_true_eq]
  split
  · rename_i hk
    subst hk
    simp +contextual
  · rename_i hk
    rw [setAt?_eq_some_iff]
    constructor
    · rintro ⟨⟨hs, -⟩, he⟩
      exact ⟨hs, he⟩
    · rintro ⟨hs, rfl⟩
      exact ⟨⟨hs, hk⟩, rfl⟩

theorem setAt?_insert (m : AttributeMap) (set : AttributeSet) (k : String) :
    (m.insert set).setAt? k = if k = set.foldedKey
      then (if set.values.isEmpty then none else some set) else m.setAt? k := by
  unfold insert
  split
  · rename_i hset
    rw [setAt?, Rising.find?_put m.rising, hset]
    rfl
  · rename_i hset
    rw [Bool.not_eq_false] at hset
    rw [setAt?_erase, hset]
    rfl

/-- After values were added or removed, the stored spelling stands, or that of the change if
    there was none. -/
theorem setAt?_update (m : AttributeMap) (key : String) (f : ValueSet → ValueSet) (k : String) :
    (m.update key f).setAt? k = if k = foldCase key then
      let set : AttributeSet := match m.get? key with
        | some s => ⟨s.key, f s.values⟩
        | none => ⟨key, f .empty⟩
      if set.values.isEmpty then none else some set
      else m.setAt? k := by
  unfold update
  cases hget : m.get? key with
  | none => exact setAt?_insert m _ k
  | some s =>
      have hs : s.foldedKey = foldCase key := (setAt?_eq_some_iff.mp hget).2
      dsimp only
      rw [setAt?_insert, ← hs]
      rfl

theorem valuesAt?_update (m : AttributeMap) (key : String) (f : ValueSet → ValueSet)
    (k : String) : (m.update key f).valuesAt? k = if k = foldCase key then
      let values := f ((m.valuesAt? k).getD .empty)
      if values.isEmpty then none else some values
      else m.valuesAt? k := by
  rw [valuesAt?, setAt?_update]
  split
  · rename_i hk
    subst hk
    rw [valuesAt?, ← get?_eq]
    cases m.get? key with
    | none => by_cases he : (f .empty).isEmpty <;> simp [he]
    | some s => by_cases he : (f s.values).isEmpty <;> simp [he]
  · rfl

/-- What holds of all types in a map, and of the type of a set, holds of all types afterwards. -/
theorem forall_key_insert {p : String → Prop} {set : AttributeSet} (h : ∀ s ∈ m.sets, p s.key)
    (hset : p set.key) : ∀ s ∈ (m.insert set).sets, p s.key := by
  unfold insert
  split
  · intro s hs
    rcases Rising.mem_put.mp hs with rfl | hs
    · exact hset
    · exact h s hs.1
  · exact fun s hs => h s (List.mem_filter.mp hs).1

theorem forall_key_update {p : String → Prop} {key : String} (h : ∀ s ∈ m.sets, p s.key)
    (hkey : p key) (f : ValueSet → ValueSet) : ∀ s ∈ (m.update key f).sets, p s.key := by
  unfold update
  split
  · rename_i s hs
    rw [get?_eq, setAt?_eq_some_iff] at hs
    exact forall_key_insert h (h s hs.1)
  · exact forall_key_insert h hkey

/-! ## Sameness -/

theorem view_rising (m : AttributeMap) : Rising Prod.fst m.view :=
  List.pairwise_map.mpr m.rising

theorem mem_view_iff {values : ValueSet} :
    (k, values) ∈ m.view ↔ m.valuesAt? k = some values := by
  rw [valuesAt?, Option.map_eq_some_iff, view, List.mem_map]
  constructor
  · rintro ⟨s, hs, he⟩
    cases he
    exact ⟨s, setAt?_of_mem hs, rfl⟩
  · rintro ⟨s, hs, rfl⟩
    obtain ⟨hmem, rfl⟩ := setAt?_eq_some_iff.mp hs
    exact ⟨s, hmem, rfl⟩

/-- Maps say the same when they find the same values. -/
theorem same_iff : m.same n = true ↔ ∀ k, m.valuesAt? k = n.valuesAt? k := by
  rw [same, beq_iff_eq]
  constructor
  · intro h k
    apply Option.ext
    intro values
    rw [← mem_view_iff, ← mem_view_iff, h]
  · intro h
    refine Rising.ext m.view_rising n.view_rising fun x => ?_
    obtain ⟨k, values⟩ := x
    rw [mem_view_iff, mem_view_iff, h]

theorem same_refl (m : AttributeMap) : m.same m = true :=
  same_iff.mpr fun _ => rfl

/-! ## Maps that are put together -/

/-- Two updates of one type are one update, provided the first does not take away the type and
    with it its spelling. -/
theorem update_update {f g : ValueSet → ValueSet} (hf : ∀ s, (f s).isEmpty = false) :
    (m.update key f).update key g = m.update key (g ∘ f) := by
  refine ext_setAt? fun k => ?_
  by_cases hk : k = foldCase key
  · subst hk
    have hget : (m.update key f).get? key = match m.get? key with
        | some s => some ⟨s.key, f s.values⟩
        | none => some ⟨key, f .empty⟩ := by
      rw [get?_eq, setAt?_update, if_pos rfl]
      cases m.get? key with
      | none => simp [hf]
      | some s => simp [hf]
    rw [setAt?_update, if_pos rfl, setAt?_update, if_pos rfl, hget]
    cases m.get? key <;> rfl
  · rw [setAt?_update, if_neg hk, setAt?_update, if_neg hk, setAt?_update, if_neg hk]

theorem insertAll_nonempty (s : ValueSet) (v : Value) : (s.insertAll [v]).isEmpty = false := by
  cases he : (s.insertAll [v]).isEmpty with
  | false => rfl
  | true =>
      rw [ValueSet.isEmpty, List.isEmpty_iff] at he
      have hv : v ∈ s.insertAll [v] := ValueSet.mem_insertAll.mpr (.inr List.mem_cons_self)
      rw [← ValueSet.mem_toList, he] at hv
      cases hv

/-- Values may be added one by one. -/
theorem foldl_addValues {vs : List Value} (hne : vs ≠ []) (m : AttributeMap) (key : String) :
    vs.foldl (fun m v => m.addValues key [v]) m = m.addValues key vs := by
  induction vs generalizing m with
  | nil => exact absurd rfl hne
  | cons v vs ih =>
      rw [List.foldl_cons]
      by_cases hvs : vs = []
      · subst hvs
        rfl
      · rw [ih hvs, addValues, addValues, update_update fun s => insertAll_nonempty s v]
        rfl

/-- A new type comes with the spelling and the values that are added. -/
theorem setAt?_addValues_set (hm : m.setAt? s.foldedKey = none) (hs : s.values.isEmpty = false)
    (k : String) :
    (m.addValues s.key s.values.toList).setAt? k =
      if k = s.foldedKey then some s else m.setAt? k := by
  have hget : m.get? s.key = none := hm
  rw [addValues, setAt?_update]
  by_cases hk : k = s.foldedKey
  · refine (if_pos hk).trans ?_
    simp only [hget, ValueSet.empty_insertAll, hs, Bool.false_eq_true, if_false, if_pos hk]
  · refine (if_neg hk).trans ?_
    rw [if_neg hk]

theorem setAt?_foldl_addValues {sets : List AttributeSet}
    (hne : sets.Pairwise fun s t => s.foldedKey ≠ t.foldedKey)
    (hvalues : ∀ s ∈ sets, s.values.isEmpty = false)
    (hm : ∀ s ∈ sets, m.setAt? s.foldedKey = none) :
    (sets.foldl (fun m s => m.addValues s.key s.values.toList) m).setAt? k = some s ↔
      (s ∈ sets ∧ s.foldedKey = k) ∨ m.setAt? k = some s := by
  induction sets generalizing m with
  | nil => simp
  | cons t sets ih =>
      obtain ⟨hne₁, hne₂⟩ := List.pairwise_cons.mp hne
      have hadd := setAt?_addValues_set (hm t List.mem_cons_self) (hvalues t List.mem_cons_self)
      have hrest : ∀ s ∈ sets,
          (m.addValues t.key t.values.toList).setAt? s.foldedKey = none := by
        intro s hs
        rw [hadd, if_neg (hne₁ s hs).symm]
        exact hm s (List.mem_cons_of_mem _ hs)
      rw [List.foldl_cons, ih hne₂ (fun s hs => hvalues s (List.mem_cons_of_mem _ hs)) hrest,
        hadd, List.mem_cons]
      by_cases hk : k = t.foldedKey
      · subst hk
        have hm' := hm t List.mem_cons_self
        rw [if_pos rfl, hm']
        constructor
        · rintro (⟨hs, he⟩ | he)
          · exact .inl ⟨.inr hs, he⟩
          · cases he
            exact .inl ⟨.inl rfl, rfl⟩
        · rintro (⟨rfl | hs, he⟩ | he)
          · exact .inr rfl
          · exact .inl ⟨hs, he⟩
          · cases he
      · rw [if_neg hk]
        constructor
        · rintro (⟨hs, he⟩ | he)
          · exact .inl ⟨.inr hs, he⟩
          · exact .inr he
        · rintro (⟨rfl | hs, he⟩ | he)
          · exact absurd he.symm hk
          · exact .inl ⟨hs, he⟩
          · exact .inr he

/-- The sets of a map, in any order, make up the map. -/
theorem ofSets_eq {sets : List AttributeSet} (h : ∀ s, s ∈ sets ↔ s ∈ m.sets)
    (hne : sets.Pairwise fun s t => s.foldedKey ≠ t.foldedKey) : ofSets sets = m := by
  refine ext_setAt? fun k => Option.ext fun s => ?_
  rw [ofSets, setAt?_foldl_addValues hne (fun s hs => m.nonempty s ((h s).mp hs))
    (fun s _ => setAt?_empty _), setAt?_empty, setAt?_eq_some_iff, h]
  simp

end AttributeMap
end DirectoryStore
