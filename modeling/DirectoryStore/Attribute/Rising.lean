/-!
# Lists that rise in a key

Sets and maps are kept as lists whose keys rise strictly.  Such a list holds one element
a key, and two of them with the same members are the same list.  `put` places an element
by cutting the list at its key: what is smaller, the element, what is greater.
-/

namespace DirectoryStore

/-- The keys of the list rise strictly. -/
def Rising {α κ : Type} [LT κ] (key : α → κ) (l : List α) : Prop :=
  l.Pairwise fun a b => key a < key b

namespace Rising

variable {α κ : Type} [LT κ]

/-- Places `x`, in the stead of any element with the same key. -/
def put [DecidableLT κ] (key : α → κ) (x : α) (l : List α) : List α :=
  l.filter (fun y => key y < key x) ++ x :: l.filter (fun y => key x < key y)

/-- The element with key `k`. -/
def find? [BEq κ] (key : α → κ) (k : κ) (l : List α) : Option α :=
  l.find? fun y => key y == k

/-- The list without the element with key `k`. -/
def drop [DecidableEq κ] (key : α → κ) (k : κ) (l : List α) : List α :=
  l.filter fun y => key y ≠ k

theorem put_rising [DecidableLT κ] [Trans (α := κ) (· < ·) (· < ·) (· < ·)] {key : α → κ}
    {l : List α} (x : α) (h : Rising key l) : Rising key (put key x l) := by
  refine List.pairwise_append.mpr ⟨h.filter _, ?_, ?_⟩
  · refine List.pairwise_cons.mpr ⟨fun y hy => ?_, h.filter _⟩
    simpa using (List.mem_filter.mp hy).2
  · intro a ha b hb
    have hax : key a < key x := by simpa using (List.mem_filter.mp ha).2
    rcases List.mem_cons.mp hb with rfl | hb
    · exact hax
    · have hxb : key x < key b := by simpa using (List.mem_filter.mp hb).2
      exact Trans.trans hax hxb

theorem filter_rising {key : α → κ} {l : List α} (p : α → Bool) (h : Rising key l) :
    Rising key (l.filter p) :=
  h.filter p

theorem mem_put [DecidableLT κ] [Std.Irrefl (α := κ) (· < ·)]
    [Std.Trichotomous (α := κ) (· < ·)] {key : α → κ} {l : List α} {x y : α} :
    y ∈ put key x l ↔ y = x ∨ (y ∈ l ∧ key y ≠ key x) := by
  simp only [put, List.mem_append, List.mem_filter, List.mem_cons, decide_eq_true_eq]
  constructor
  · rintro (⟨hy, hlt⟩ | rfl | ⟨hy, hlt⟩)
    · exact .inr ⟨hy, fun he => Std.Irrefl.irrefl _ (he ▸ hlt)⟩
    · exact .inl rfl
    · exact .inr ⟨hy, fun he => Std.Irrefl.irrefl _ (he ▸ hlt)⟩
  · rintro (rfl | ⟨hy, hne⟩)
    · exact .inr (.inl rfl)
    · rcases Std.lt_trichotomy (key y) (key x) with hlt | he | hlt
      · exact .inl ⟨hy, hlt⟩
      · exact absurd he hne
      · exact .inr (.inr ⟨hy, hlt⟩)

/-- Rising lists with the same members are the same list. -/
theorem ext [Std.Asymm (α := κ) (· < ·)] {key : α → κ} {l m : List α} (hl : Rising key l)
    (hm : Rising key m) (h : ∀ x, x ∈ l ↔ x ∈ m) : l = m := by
  induction l generalizing m with
  | nil =>
      cases m with
      | nil => rfl
      | cons y m => exact absurd ((h y).mpr List.mem_cons_self) List.not_mem_nil
  | cons x l ih =>
      cases m with
      | nil => exact absurd ((h x).mp List.mem_cons_self) List.not_mem_nil
      | cons y m =>
          obtain ⟨hxl, hl'⟩ := List.pairwise_cons.mp hl
          obtain ⟨hym, hm'⟩ := List.pairwise_cons.mp hm
          have hxy : x = y := by
            rcases List.mem_cons.mp ((h x).mp List.mem_cons_self) with he | hxm
            · exact he
            rcases List.mem_cons.mp ((h y).mpr List.mem_cons_self) with he | hyl
            · exact he.symm
            exact absurd (hxl y hyl) (Std.Asymm.asymm _ _ (hym x hxm))
          subst hxy
          congr 1
          refine ih hl' hm' fun z => ⟨fun hz => ?_, fun hz => ?_⟩
          · rcases List.mem_cons.mp ((h z).mp (List.mem_cons_of_mem _ hz)) with rfl | hz'
            · exact absurd (hxl z hz) (Std.Asymm.asymm _ _ (hxl z hz))
            · exact hz'
          · rcases List.mem_cons.mp ((h z).mpr (List.mem_cons_of_mem _ hz)) with rfl | hz'
            · exact absurd (hym z hz) (Std.Asymm.asymm _ _ (hym z hz))
            · exact hz'

end Rising
end DirectoryStore
