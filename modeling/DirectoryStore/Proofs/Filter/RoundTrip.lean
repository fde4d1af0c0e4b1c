import DirectoryStore.Proofs.Filter.Grammar

/-!
# Filters round trip

The filters that can be written so that they read back are exactly those that can be read at
all: the well-formed ones, which the grammar derives from their written form, while no text
derives any other.
-/

namespace DirectoryStore
namespace Filter

variable {text : List Char} {f : Filter} {fs : List Filter}

/-! ## What can be written -/

mutual

/-- A filter that a text can spell: its lists are not empty and its items can be spelled. -/
def WellFormed : Filter → Prop
  | and fs => fs ≠ [] ∧ AllWellFormed fs
  | or fs => fs ≠ [] ∧ AllWellFormed fs
  | not f => WellFormed f
  | item i => i.WellFormed

/-- Filters that texts can spell. -/
def AllWellFormed : List Filter → Prop
  | [] => True
  | f :: fs => WellFormed f ∧ AllWellFormed fs

end

mutual

def decideWellFormed : (f : Filter) → Decidable f.WellFormed
  | and fs | or fs =>
      have := decideAllWellFormed fs
      inferInstanceAs (Decidable (fs ≠ [] ∧ AllWellFormed fs))
  | not f => decideWellFormed f
  | item i => inferInstanceAs (Decidable i.WellFormed)

def decideAllWellFormed : (fs : List Filter) → Decidable (AllWellFormed fs)
  | [] => .isTrue trivial
  | f :: fs =>
      have := decideWellFormed f
      have := decideAllWellFormed fs
      inferInstanceAs (Decidable (f.WellFormed ∧ AllWellFormed fs))

end

instance (f : Filter) : Decidable f.WellFormed :=
  decideWellFormed f

/-! ## What is derived -/

theorem allWellFormed_iff : AllWellFormed fs ↔ ∀ f ∈ fs, f.WellFormed := by
  induction fs with
  | nil => exact iff_of_true trivial nofun
  | cons f fs ih => rw [AllWellFormed, List.forall_mem_cons, ih]

/-- A filter that can be derived is well formed. -/
theorem Derives.wellFormed (h : Derives text f) : f.WellFormed := by
  induction h with
  | and hne _ ih | or hne _ ih =>
      refine ⟨fun he => hne (List.map_eq_nil_iff.mp he), allWellFormed_iff.mpr ?_⟩
      exact List.forall_mem_map.mpr ih
  | not _ ih => exact ih
  | item h => exact h.wellFormed

/-! ## What is written is derived -/

/-- The filters of a list with their written forms. -/
def written (fs : List Filter) : List (List Char × Filter) :=
  fs.map fun f => (f.chars, f)

theorem flatMap_written (fs : List Filter) : (written fs).flatMap Prod.fst = charsAll fs := by
  induction fs with
  | nil => rfl
  | cons f fs ih => rw [written, List.map_cons, List.flatMap_cons, ← written, ih, charsAll]

theorem map_written (fs : List Filter) : (written fs).map Prod.snd = fs := by
  rw [written, List.map_map]
  exact List.map_id fs

theorem written_ne_nil (h : fs ≠ []) : written fs ≠ [] :=
  fun he => h (List.map_eq_nil_iff.mp he)

mutual

/-- A well-formed filter is derived from its written form. -/
theorem derives_chars : ∀ f : Filter, f.WellFormed → Derives f.chars f
  | and fs, h => by
      have hderives := Derives.and (written_ne_nil h.1) (derives_written fs h.2)
      rwa [flatMap_written, map_written] at hderives
  | or fs, h => by
      have hderives := Derives.or (written_ne_nil h.1) (derives_written fs h.2)
      rwa [flatMap_written, map_written] at hderives
  | not f, h => .not (derives_chars f h)
  | item _, h => .item (derivesItem_chars h)

theorem derives_written : ∀ fs : List Filter, AllWellFormed fs →
    ∀ p ∈ written fs, Derives p.1 p.2
  | [], _ => nofun
  | f :: fs, h => List.forall_mem_cons.mpr ⟨derives_chars f h.1, derives_written fs h.2⟩

end

/-! ## Round trip -/

/-- A well-formed filter reads back in front of anything. -/
theorem readOne_chars (f : Filter) (h : f.WellFormed) (rest : List Char) :
    readOne (f.chars ++ rest) = .ok (f, rest) :=
  (derives_chars f h).read rest

theorem wellFormed_of_readOne (cs : List Char) (f : Filter) (rest : List Char)
    (h : readOne cs = .ok (f, rest)) : f.WellFormed := by
  obtain ⟨text, -, hderives⟩ := derives_of_readOne cs f rest h
  exact hderives.wellFormed

/-- The well-formed filters are those that read back, and whatever is read is one of them. -/
theorem wellFormed_iff_parse_text (f : Filter) : (f.WellFormed ↔ parse f.text = .ok f) ∧
    ∀ text, parse text = .ok f → f.WellFormed := by
  have hread : ∀ text, parse text = .ok f → f.WellFormed := fun text h =>
    wellFormed_of_readOne _ f [] (parse_eq_ok_iff.mp h)
  refine ⟨⟨fun h => ?_, hread f.text⟩, hread⟩
  have hone := readOne_chars f h []
  rw [List.append_nil] at hone
  rw [parse_eq_ok_iff, text, String.toList_ofList, hone]

/-- A rule `dn` behind the flag, bytes that are no text, and stars and parentheses in values. -/
theorem wellFormed_iff_parse_text_nested :
    let f : Filter := .and [
      .not (.or [.item (.compare .equal "2.5.4;x-y" [0xFF, 0x2A, 0x00, 0x80]),
        .item (.extensible none true (some "dn") []),
        .item (.extensible (some "cn") false none (utf8 " é\\"))]),
      .item (.substrings "sn" (some (utf8 "*")) [utf8 "()", [0xC3]] none),
      .item (.present "0")]
    f.WellFormed ∧ parse f.text = .ok f :=
  ⟨by decide, (wellFormed_iff_parse_text _).1.mp (by decide)⟩

end Filter
end DirectoryStore
