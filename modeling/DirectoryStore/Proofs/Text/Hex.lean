import DirectoryStore.Text.Hex
import DirectoryStore.Proofs.Text.Utf8

/-!
# Hexadecimal pairs

Two digits are read as a byte exactly if they write it, the high one first and each letter in
either case.
-/

namespace DirectoryStore
namespace Hex

variable {c x y : Char} {n : Nat} {b : UInt8}

/-- A digit that writes a value, its letter in either case. -/
def IsDigitOf (c : Char) (n : Nat) : Prop :=
  n < 16 ∧ (c = lowerDigit n ∨ c = upperDigit n)

/-- Two digits that write a byte, the high one first. -/
def IsPairOf (x y : Char) (b : UInt8) : Prop :=
  IsDigitOf x (b.toNat / 16) ∧ IsDigitOf y (b.toNat % 16)

instance (c : Char) (n : Nat) : Decidable (IsDigitOf c n) :=
  inferInstanceAs (Decidable (_ ∧ _))

instance (x y : Char) (b : UInt8) : Decidable (IsPairOf x y b) :=
  inferInstanceAs (Decidable (_ ∧ _))

theorem value?_lowerDigit (h : n < 16) : value? (lowerDigit n) = some n := by
  have hall : ∀ k : Fin 16, value? (lowerDigit k) = some k.val := by decide
  exact hall ⟨n, h⟩

theorem value?_upperDigit (h : n < 16) : value? (upperDigit n) = some n := by
  have hall : ∀ k : Fin 16, value? (upperDigit k) = some k.val := by decide
  exact hall ⟨n, h⟩

/-- A character between two others lies as far from the first as its code does. -/
theorem eq_ofNat_add {first last : Char} (h : first ≤ c ∧ c ≤ last) :
    c.toNat - first.toNat ≤ last.toNat - first.toNat ∧
      c = Char.ofNat (first.toNat + (c.toNat - first.toNat)) := by
  have hlow : first.toNat ≤ c.toNat := UInt32.le_iff_toNat_le.mp h.1
  have hhigh : c.toNat ≤ last.toNat := UInt32.le_iff_toNat_le.mp h.2
  refine ⟨by omega, ?_⟩
  rw [Nat.add_sub_cancel' hlow, Char.ofNat_toNat]

/-- The reader of digits knows those that write a value, and no others. -/
theorem value?_eq_some_iff : value? c = some n ↔ IsDigitOf c n := by
  constructor
  · intro h
    unfold value? at h
    split at h
    · rename_i hc
      obtain ⟨hle, heq⟩ := eq_ofNat_add hc
      cases h
      have hlt : c.toNat - '0'.toNat < 10 := Nat.lt_succ_of_le hle
      refine ⟨by omega, .inl ?_⟩
      rw [lowerDigit, if_pos hlt]
      exact heq
    split at h
    · rename_i hc
      obtain ⟨hle, heq⟩ := eq_ofNat_add hc
      cases h
      have hlt : c.toNat - 'a'.toNat < 6 := Nat.lt_succ_of_le hle
      refine ⟨by omega, .inl ?_⟩
      rw [lowerDigit, if_neg (by omega), Nat.add_sub_cancel]
      exact heq
    split at h
    · rename_i hc
      obtain ⟨hle, heq⟩ := eq_ofNat_add hc
      cases h
      have hlt : c.toNat - 'A'.toNat < 6 := Nat.lt_succ_of_le hle
      refine ⟨by omega, .inr ?_⟩
      rw [upperDigit, if_neg (by omega), Nat.add_sub_cancel]
      exact heq
    · cases h
  · intro h
    rcases h.2 with rfl | rfl
    · exact value?_lowerDigit h.1
    · exact value?_upperDigit h.1

theorem IsDigitOf.isDigit (h : IsDigitOf c n) : isDigit c = true := by
  rw [Hex.isDigit, value?_eq_some_iff.mpr h]
  rfl

/-- The reader of pairs knows those that write a byte, and no others. -/
theorem byte?_eq_some_iff : byte? x y = some b ↔ IsPairOf x y b := by
  have hsize : b.toNat < 256 := b.toNat_lt_size
  constructor
  · intro h
    simp only [byte?, Option.bind_eq_bind, Option.bind_eq_some_iff] at h
    obtain ⟨high, hhigh, low, hlow, hb⟩ := h
    cases hb
    rw [value?_eq_some_iff] at hhigh hlow
    have hlt : high * 16 + low < 256 := by
      have := hhigh.1
      have := hlow.1
      omega
    have hlow16 := hlow.1
    rw [IsPairOf, Utf8.toNat_byte hlt, show (high * 16 + low) / 16 = high by omega,
      show (high * 16 + low) % 16 = low by omega]
    exact ⟨hhigh, hlow⟩
  · intro h
    have hhigh := value?_eq_some_iff.mpr h.1
    have hlow := value?_eq_some_iff.mpr h.2
    simp only [byte?, hhigh, hlow, bind, Option.bind, pure]
    rw [Utf8.ofNat_eq (b := b) (by omega)]

theorem isPairOf_lower (b : UInt8) :
    IsPairOf (lowerDigit (b.toNat / 16)) (lowerDigit (b.toNat % 16)) b := by
  have hsize : b.toNat < 256 := b.toNat_lt_size
  exact ⟨⟨by omega, .inl rfl⟩, ⟨by omega, .inl rfl⟩⟩

theorem isPairOf_upper (b : UInt8) :
    IsPairOf (upperDigit (b.toNat / 16)) (upperDigit (b.toNat % 16)) b := by
  have hsize : b.toNat < 256 := b.toNat_lt_size
  exact ⟨⟨by omega, .inr rfl⟩, ⟨by omega, .inr rfl⟩⟩

end Hex
end DirectoryStore
