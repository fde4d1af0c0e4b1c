/-!
# ASCII character classes and letter case

Attribute names are words of ASCII letters, digits and a few marks, and they are
compared without regard to the case of ASCII letters.  Folding a text to lower
case touches nothing but those letters.
-/

namespace DirectoryStore

/-- An ASCII letter. -/
def isLetter (c : Char) : Bool :=
  ('a' ≤ c && c ≤ 'z') || ('A' ≤ c && c ≤ 'Z')

/-- An ASCII decimal digit. -/
def isDigit (c : Char) : Bool :=
  '0' ≤ c && c ≤ '9'

/-- An ASCII letter or digit. -/
def isAlphanumeric (c : Char) : Bool :=
  isLetter c || isDigit c

/-- A character of an attribute name: an ASCII letter or digit, `-`, `.` or `;`. -/
def isNameChar (c : Char) : Bool :=
  isAlphanumeric c || c == '-' || c == '.' || c == ';'

/-- The lower-case form of an ASCII letter; any other character is left alone. -/
def foldChar (c : Char) : Char :=
  if 'A' ≤ c ∧ c ≤ 'Z' then Char.ofNat (c.toNat + 32) else c

/-- A text with its ASCII letters in lower case. -/
def foldCase (s : String) : String :=
  String.ofList (s.toList.map foldChar)

/-- The lower-case form of the code of an ASCII letter; any other byte is left alone. -/
def foldByte (b : UInt8) : UInt8 :=
  if 65 ≤ b.toNat ∧ b.toNat ≤ 90 then b + 32 else b

/-- Equality of texts up to the case of ASCII letters. -/
def sameIgnoringCase (s t : String) : Bool :=
  foldCase s == foldCase t

theorem toList_foldCase (s : String) : (foldCase s).toList = s.toList.map foldChar := by
  simp [foldCase]

/-- Folding a folded character changes nothing: lower-case letters are not upper-case ones. -/
theorem foldChar_foldChar (c : Char) : foldChar (foldChar c) = foldChar c := by
  by_cases h : 'A' ≤ c ∧ c ≤ 'Z'
  · have hlo : 65 ≤ c.toNat := UInt32.le_iff_toNat_le.mp h.1
    have hhi : c.toNat ≤ 90 := UInt32.le_iff_toNat_le.mp h.2
    have hall : ∀ n : Fin 26, foldChar (foldChar (Char.ofNat (65 + n.val))) =
        foldChar (Char.ofNat (65 + n.val)) := by decide
    have := hall ⟨c.toNat - 65, by omega⟩
    rwa [show 65 + (c.toNat - 65) = c.toNat by omega, Char.ofNat_toNat] at this
  · rw [foldChar, foldChar, if_neg h, if_neg h]

theorem foldCase_foldCase (s : String) : foldCase (foldCase s) = foldCase s := by
  simp [foldCase, foldChar_foldChar, Function.comp_def]

end DirectoryStore
