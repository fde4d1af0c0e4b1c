import DirectoryStore.Files.Objects
import DirectoryStore.Proofs.Attribute.Lookup

/-!
# Objects in a file system

A file system is observed by what stands at its paths.  Each change of it is described by what
stands there afterwards, and a listing by what stands in or below the directory.
-/

namespace DirectoryStore

/-- What `l` becomes when `source`, with which it ends, is replaced by `target`. -/
def rebase {α : Type} (source target l : List α) : List α :=
  l.take (l.length - source.length) ++ target

@[simp] theorem rebase_append {α : Type} (source target l : List α) :
    rebase source target (l ++ source) = l ++ target := by
  simp [rebase]

theorem ne_of_not_suffix {α : Type} {l m : List α} (h : ¬ l <:+ m) : m ≠ l :=
  fun he => h (he ▸ List.suffix_refl _)

namespace Path

theorem isBelow_iff {base p : Path} : isBelow base p = true ↔ ∃ l, l ≠ [] ∧ p = l ++ base := by
  rw [isBelow, Bool.and_eq_true, List.isSuffixOf_iff_suffix, decide_eq_true_eq]
  constructor
  · intro h
    obtain ⟨⟨l, rfl⟩, hlen⟩ := h
    refine ⟨l, ?_, rfl⟩
    rintro rfl
    simp at hlen
  · intro h
    obtain ⟨l, hl, rfl⟩ := h
    have := List.length_pos_iff.mpr hl
    exact ⟨List.suffix_append _ _, by simp; omega⟩

end Path

namespace FileSystem

variable {linked : Bool} {fs : FileSystem linked} {p q dir source target : Path}
variable {o : FileObject linked} {name : String}

/-- The top is a directory. -/
theorem ne_nil_of_object? (h : fs.object? p ≠ some .directory) : p ≠ [] := by
  rintro rfl
  exact h rfl

theorem object?_eq_some_iff (hp : p ≠ []) : fs.object? p = some o ↔ (p, o) ∈ fs.objects := by
  rw [object?, if_neg hp, Option.map_eq_some_iff]
  constructor
  · intro h
    obtain ⟨x, hx, rfl⟩ := h
    obtain ⟨hmem, hk⟩ := (Rising.find?_eq_some_iff fs.rising).mp hx
    rwa [← hk]
  · intro h
    exact ⟨(p, o), (Rising.find?_eq_some_iff fs.rising).mpr ⟨h, rfl⟩, rfl⟩

/-! ## Changes of objects -/

theorem object?_put (hp : p ≠ []) :
    (fs.put p o).object? q = if q = p then some o else fs.object? q := by
  by_cases hq : q = []
  · subst hq
    rw [if_neg hp.symm]
    rfl
  · rw [object?, if_neg hq, put, Rising.find?_put fs.rising]
    split
    · rfl
    · rw [object?, if_neg hq]

theorem object?_removeIf {gone : Path → Bool} :
    (fs.removeIf gone).object? q = if q ≠ [] ∧ gone q = true then none else fs.object? q := by
  by_cases hq : q = []
  · subst hq
    rfl
  · refine Option.ext fun o => ?_
    rw [object?_eq_some_iff hq, removeIf, List.mem_filter]
    cases hgone : gone q with
    | true => simp [hq]
    | false =>
        rw [if_neg (by simp), object?_eq_some_iff hq]
        simp

/-- Objects put in different places. -/
theorem object?_foldl_put {f : Path → Path} {l : List (Path × FileObject linked)}
    (hne : ∀ x ∈ l, f x.1 ≠ []) (hdiff : l.Pairwise fun x y => f x.1 ≠ f y.1) :
    (l.foldl (fun fs x => fs.put (f x.1) x.2) fs).object? q = some o ↔
      (∃ x ∈ l, f x.1 = q ∧ x.2 = o) ∨
        ((∀ x ∈ l, f x.1 ≠ q) ∧ fs.object? q = some o) := by
  induction l generalizing fs with
  | nil => simp
  | cons y l ih =>
      obtain ⟨hy, hl⟩ := List.pairwise_cons.mp hdiff
      rw [List.foldl_cons, ih (fun x hx => hne x (List.mem_cons_of_mem _ hx)) hl,
        object?_put (hne y List.mem_cons_self)]
      by_cases hq : q = f y.1
      · subst hq
        have hnone : ∀ x ∈ l, f x.1 ≠ f y.1 := fun x hx => (hy x hx).symm
        constructor
        · intro h
          rcases h with ⟨x, hx, he, -⟩ | ⟨-, ho⟩
          · exact absurd he (hnone x hx)
          · rw [if_pos rfl, Option.some.injEq] at ho
            exact .inl ⟨y, List.mem_cons_self, rfl, ho⟩
        · intro h
          rcases h with ⟨x, hx, he, ho⟩ | ⟨hall, -⟩
          · rcases List.mem_cons.mp hx with rfl | hx
            · exact .inr ⟨hnone, by rw [if_pos rfl, ho]⟩
            · exact absurd he (hnone x hx)
          · exact absurd rfl (hall y List.mem_cons_self)
      · simp [hq, Ne.symm hq]

theorem moving_pairwise (fs : FileSystem linked) (source target : Path) :
    (fs.objects.filter fun o => source.isSuffixOf o.1).Pairwise fun x y =>
      rebase source target x.1 ≠ rebase source target y.1 := by
  have hne := (Rising.pairwise_ne fs.rising).filter fun o => source.isSuffixOf o.1
  refine hne.imp_of_mem fun {x y} hx hy hxy he => hxy ?_
  obtain ⟨lx, hlx⟩ := List.isSuffixOf_iff_suffix.mp (List.mem_filter.mp hx).2
  obtain ⟨ly, hly⟩ := List.isSuffixOf_iff_suffix.mp (List.mem_filter.mp hy).2
  rw [← hlx, ← hly, rebase_append, rebase_append, List.append_cancel_right_eq] at he
  rw [← hlx, ← hly, he]

/-- A move takes along all that is at and below the old place, and what was at the new one goes.
    Nothing may be below it. -/
theorem object?_moved (hsource : source ≠ []) (htarget : target ≠ [])
    (hfree : ∀ l, l ≠ [] → fs.object? (l ++ target) = none) :
    (fs.moved source target).object? q =
      if target <:+ q then fs.object? (rebase target source q)
      else if source <:+ q then none else fs.object? q := by
  have hfold : ∀ o, (fs.moved source target).object? q = some o ↔ _ := fun o =>
    object?_foldl_put (f := rebase source target)
      (fun x _ => by simp [rebase, htarget]) (moving_pairwise fs source target)
  refine Option.ext fun o => ?_
  rw [hfold]
  by_cases hq : target <:+ q
  · obtain ⟨l, rfl⟩ := hq
    have hgone : (fs.removeIf fun q => source.isSuffixOf q || q == target).object?
        (l ++ target) = none := by
      rw [object?_removeIf]
      cases l with
      | nil => simp [htarget]
      | cons name l => rw [hfree _ (List.cons_ne_nil _ _), ite_self]
    have hne : l ++ source ≠ [] := by simp [hsource]
    rw [if_pos (List.suffix_append _ _), rebase_append, object?_eq_some_iff hne, hgone]
    constructor
    · intro h
      rcases h with ⟨x, hx, he, rfl⟩ | ⟨-, h⟩
      · obtain ⟨hx, hs⟩ := List.mem_filter.mp hx
        obtain ⟨k, hk⟩ := List.isSuffixOf_iff_suffix.mp hs
        rw [← hk, rebase_append, List.append_cancel_right_eq] at he
        rwa [← he, hk]
      · cases h
    · intro h
      refine .inl ⟨_, List.mem_filter.mpr ⟨h, ?_⟩, rebase_append _ _ _, rfl⟩
      exact List.isSuffixOf_iff_suffix.mpr (List.suffix_append _ _)
  · have hno : ∀ x ∈ fs.objects.filter fun o => source.isSuffixOf o.1,
        rebase source target x.1 ≠ q := by
      rintro x - rfl
      exact hq (List.suffix_append _ _)
    have hqt : q ≠ target := by
      rintro rfl
      exact hq (List.suffix_refl _)
    rw [if_neg hq, object?_removeIf]
    by_cases hs : source <:+ q
    · have hne : q ≠ [] := by
        rintro rfl
        exact hsource (List.suffix_nil.mp hs)
      have hs' := List.isSuffixOf_iff_suffix.mpr hs
      rw [if_pos hs, if_pos ⟨hne, by simp [hs']⟩]
      constructor
      · intro h
        rcases h with ⟨x, hx, he, -⟩ | ⟨-, h⟩
        · exact absurd he (hno x hx)
        · exact h
      · intro h
        cases h
    · have hs' : source.isSuffixOf q = false := by
        rw [← Bool.not_eq_true, List.isSuffixOf_iff_suffix]
        exact hs
      rw [if_neg hs, if_neg (by simp [hs', hqt])]
      constructor
      · intro h
        rcases h with ⟨x, hx, he, -⟩ | ⟨-, h⟩
        · exact absurd he (hno x hx)
        · exact h
      · intro h
        exact .inr ⟨hno, h⟩

/-! ## Listings -/

theorem mem_namesAt : name ∈ fs.namesAt dir ↔ ∃ o, fs.object? (name :: dir) = some o := by
  simp only [namesAt, List.mem_reverse, List.mem_filterMap,
    object?_eq_some_iff (List.cons_ne_nil name dir)]
  constructor
  · intro h
    obtain ⟨⟨p, o⟩, hmem, hp⟩ := h
    cases p with
    | nil => cases hp
    | cons name' up =>
        dsimp only at hp
        split at hp
        · rename_i hup
          cases hp
          exact ⟨o, eq_of_beq hup ▸ hmem⟩
        · cases hp
  · intro h
    obtain ⟨o, hmem⟩ := h
    exact ⟨_, hmem, if_pos (beq_self_eq_true dir)⟩

theorem namesAt_eq_nil :
    (fs.namesAt dir).isEmpty = true ↔ ∀ name, fs.object? (name :: dir) = none := by
  rw [List.isEmpty_iff, List.eq_nil_iff_forall_not_mem]
  simp only [mem_namesAt, not_exists, ← Option.eq_none_iff_forall_ne_some]

theorem mem_belowAt {place : List String} : (place, o) ∈ fs.belowAt dir ↔
    place ≠ [] ∧ fs.object? (place.reverse ++ dir) = some o := by
  rw [belowAt, List.mem_mergeSort, List.mem_filterMap]
  constructor
  · intro h
    obtain ⟨⟨p, o'⟩, hmem, hp⟩ := h
    dsimp only at hp
    split at hp
    · rename_i hbelow
      obtain ⟨l, hl, rfl⟩ := Path.isBelow_iff.mp hbelow
      rw [Path.relative?, if_pos (by simp)] at hp
      simp only [List.length_append, Nat.add_sub_cancel_right, List.take_left', Option.map_some,
        Option.some.injEq, Prod.mk.injEq] at hp
      obtain ⟨rfl, rfl⟩ := hp
      refine ⟨by simp [hl], ?_⟩
      rw [List.reverse_reverse]
      exact (object?_eq_some_iff (by simp [hl])).mpr hmem
    · cases hp
  · intro h
    obtain ⟨hplace, ho⟩ := h
    have hne : place.reverse ≠ [] := by simp [hplace]
    refine ⟨_, (object?_eq_some_iff (by simp [hplace])).mp ho, ?_⟩
    have hbelow : Path.isBelow dir (place.reverse ++ dir) = true :=
      Path.isBelow_iff.mpr ⟨_, hne, rfl⟩
    dsimp only
    rw [if_pos hbelow, Path.relative?, if_pos (by simp)]
    simp

end FileSystem
end DirectoryStore
