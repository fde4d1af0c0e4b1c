import DirectoryStore.Text.Utf8

/-!
# Text through UTF-8 and back

The bytes of a text scan into its characters, so both decoders give the text back.  Bytes
below 0x80 stand for themselves wherever they occur, which lets a reader of bytes look for
ASCII marks.
-/

namespace DirectoryStore
namespace Utf8

variable {c : Char} {cs ds : List Char} {b : UInt8} {bs rest : Bytes} {n : Nat}

theorem toNat_cases (c : Char) :
    c.toNat < 0xD800 ∨ (0xDFFF < c.toNat ∧ c.toNat < 0x110000) :=
  c.valid

theorem toNat_byte (h : n < 256) : (UInt8.ofNat n).toNat = n := by
  simp [Nat.mod_eq_of_lt h]

@[simp] theorem encode_nil : encode [] = [] := rfl

theorem encode_cons (c : Char) (cs : List Char) : encode (c :: cs) = encodeChar c ++ encode cs :=
  rfl

theorem encode_append (cs ds : List Char) : encode (cs ++ ds) = encode cs ++ encode ds :=
  List.flatMap_append

theorem encodeChar_of_lt (h : c.toNat < 0x80) : encodeChar c = [UInt8.ofNat c.toNat] := by
  rw [encodeChar]
  exact if_pos h

/-! ## Scanning -/

theorem next_two (n : Nat) (h : 0x80 ≤ n) (h' : n < 0x800) (rest : Bytes) :
    next (UInt8.ofNat (0xC0 + n / 64)) (UInt8.ofNat (0x80 + n % 64) :: rest) =
      (some (Char.ofNat n), 1) := by
  have h₀ : (UInt8.ofNat (0xC0 + n / 64)).toNat = 0xC0 + n / 64 := toNat_byte (by omega)
  have h₁ : (UInt8.ofNat (0x80 + n % 64)).toNat = 0x80 + n % 64 := toNat_byte (by omega)
  simp only [next, h₀]
  rw [if_neg (by omega), if_neg (by omega), if_pos (by omega), follow, h₁, if_pos (by omega)]
  have : (0xC0 + n / 64 - 0xC0) * 64 + (0x80 + n % 64 - 0x80) = n := by omega
  rw [this]

theorem follow_two {acc lo hi : Nat} (n : Nat) (hacc : acc = n / 4096)
    (hlo : lo ≤ 0x80 + n / 64 % 64) (hhi : 0x80 + n / 64 % 64 ≤ hi) (rest : Bytes) :
    follow acc lo hi 1 (UInt8.ofNat (0x80 + n / 64 % 64) :: UInt8.ofNat (0x80 + n % 64) :: rest) =
      (some (Char.ofNat n), 2) := by
  have h₁ : (UInt8.ofNat (0x80 + n / 64 % 64)).toNat = 0x80 + n / 64 % 64 := toNat_byte (by omega)
  have h₂ : (UInt8.ofNat (0x80 + n % 64)).toNat = 0x80 + n % 64 := toNat_byte (by omega)
  rw [follow, h₁, if_pos ⟨hlo, hhi⟩]
  simp only [follow, h₂]
  rw [if_pos (by omega)]
  have : (acc * 64 + (0x80 + n / 64 % 64 - 0x80)) * 64 + (0x80 + n % 64 - 0x80) = n := by omega
  rw [this]

theorem next_three (n : Nat) (h : 0x800 ≤ n) (h' : n < 0x10000)
    (hchar : n < 0xD800 ∨ 0xDFFF < n) (rest : Bytes) :
    next (UInt8.ofNat (0xE0 + n / 4096))
      (UInt8.ofNat (0x80 + n / 64 % 64) :: UInt8.ofNat (0x80 + n % 64) :: rest) =
      (some (Char.ofNat n), 2) := by
  have h₀ : (UInt8.ofNat (0xE0 + n / 4096)).toNat = 0xE0 + n / 4096 := toNat_byte (by omega)
  simp only [next, h₀]
  rw [if_neg (by omega), if_neg (by omega), if_neg (by omega)]
  split
  · exact follow_two n (by omega) (by omega) (by omega) rest
  · split
    · exact follow_two n (by omega) (by omega) (by omega) rest
    · rw [if_pos (by omega)]
      exact follow_two n (by omega) (by omega) (by omega) rest

theorem follow_three {acc lo hi : Nat} (n : Nat) (hacc : acc = n / 262144)
    (hlo : lo ≤ 0x80 + n / 4096 % 64) (hhi : 0x80 + n / 4096 % 64 ≤ hi) (rest : Bytes) :
    follow acc lo hi 2 (UInt8.ofNat (0x80 + n / 4096 % 64) ::
      UInt8.ofNat (0x80 + n / 64 % 64) :: UInt8.ofNat (0x80 + n % 64) :: rest) =
      (some (Char.ofNat n), 3) := by
  have h₁ : (UInt8.ofNat (0x80 + n / 4096 % 64)).toNat = 0x80 + n / 4096 % 64 :=
    toNat_byte (by omega)
  rw [follow, h₁, if_pos ⟨hlo, hhi⟩]
  have hacc' : acc * 64 + (0x80 + n / 4096 % 64 - 0x80) = n / 4096 := by omega
  rw [hacc']
  simp only [follow_two n rfl (show 0x80 ≤ _ by omega) (show _ ≤ 0xBF by omega) rest]

theorem next_four (n : Nat) (h : 0x10000 ≤ n) (h' : n < 0x110000) (rest : Bytes) :
    next (UInt8.ofNat (0xF0 + n / 262144)) (UInt8.ofNat (0x80 + n / 4096 % 64) ::
      UInt8.ofNat (0x80 + n / 64 % 64) :: UInt8.ofNat (0x80 + n % 64) :: rest) =
      (some (Char.ofNat n), 3) := by
  have h₀ : (UInt8.ofNat (0xF0 + n / 262144)).toNat = 0xF0 + n / 262144 := toNat_byte (by omega)
  simp only [next, h₀]
  rw [if_neg (by omega), if_neg (by omega), if_neg (by omega), if_neg (by omega),
    if_neg (by omega), if_neg (by omega)]
  split
  · exact follow_three n (by omega) (by omega) (by omega) rest
  · split
    · exact follow_three n (by omega) (by omega) (by omega) rest
    · rw [if_pos (by omega)]
      exact follow_three n (by omega) (by omega) (by omega) rest

/-- The bytes of a character scan into it. -/
theorem scan_encodeChar (c : Char) (rest : Bytes) :
    scan (encodeChar c ++ rest) = some c :: scan rest := by
  have hc := toNat_cases c
  have hchar : Char.ofNat c.toNat = c := Char.ofNat_toNat c
  unfold encodeChar
  dsimp only
  split
  · rename_i h
    rw [List.cons_append, List.nil_append, scan]
    have h₀ : (UInt8.ofNat c.toNat).toNat = c.toNat := toNat_byte (by omega)
    simp only [next, h₀, if_pos h, hchar, List.drop_zero]
  · split
    · rw [List.cons_append, List.cons_append, List.nil_append, scan,
        next_two _ (by omega) (by omega), hchar]
      rfl
    · split
      · rw [List.cons_append, List.cons_append, List.cons_append, List.nil_append, scan,
          next_three _ (by omega) (by omega) (by omega), hchar]
        rfl
      · rw [List.cons_append, List.cons_append, List.cons_append, List.cons_append,
          List.nil_append, scan, next_four _ (by omega) (by omega), hchar]
        rfl

theorem scan_encode (cs : List Char) : scan (encode cs) = cs.map some := by
  induction cs with
  | nil => simp [scan]
  | cons c cs ih => rw [encode_cons, scan_encodeChar, ih, List.map_cons]

theorem decode?_encode (cs : List Char) : decode? (encode cs) = some cs := by
  rw [decode?, scan_encode]
  induction cs with
  | nil => rfl
  | cons c cs ih => simp [ih]

theorem text?_utf8 (s : String) : text? (utf8 s) = some s := by
  simp [text?, utf8, decode?_encode]

theorem decodeLossy_utf8 (s : String) : decodeLossy (utf8 s) = s := by
  simp [decodeLossy, utf8, scan_encode, Function.comp_def]

/-! ## What scans well is written so -/

variable {acc lo hi more k : Nat}

theorem toNat_ofNat (h : n < 0xD800 ∨ (0xDFFF < n ∧ n < 0x110000)) :
    (Char.ofNat n).toNat = n := by
  rw [Char.ofNat, dif_pos h]
  rfl

theorem ofNat_eq (h : n = b.toNat) : UInt8.ofNat n = b := by
  rw [h, UInt8.ofNat_toNat]

theorem follow_zero (h : follow acc lo hi 0 rest = (some c, k)) :
    ∃ b bs, rest = b :: bs ∧ lo ≤ b.toNat ∧ b.toNat ≤ hi ∧
      c = Char.ofNat (acc * 64 + (b.toNat - 0x80)) ∧ k = 1 := by
  cases rest with
  | nil => cases h
  | cons b bs =>
      rw [follow] at h
      split at h
      · rename_i hb
        injection h with hc hk
        exact ⟨b, bs, rfl, hb.1, hb.2, (Option.some.inj hc).symm, hk.symm⟩
      · cases h

theorem follow_succ (h : follow acc lo hi (more + 1) rest = (some c, k)) :
    ∃ b bs k', rest = b :: bs ∧ lo ≤ b.toNat ∧ b.toNat ≤ hi ∧
      follow (acc * 64 + (b.toNat - 0x80)) 0x80 0xBF more bs = (some c, k') ∧ k = k' + 1 := by
  cases rest with
  | nil => cases h
  | cons b bs =>
      rw [follow] at h
      split at h
      · rename_i hb
        injection h with hc hk
        exact ⟨b, bs, _, rfl, hb.1, hb.2, Prod.ext hc rfl, hk.symm⟩
      · cases h

theorem encode_two {b : UInt8} (hb : 0xC2 ≤ b.toNat) (hb' : b.toNat < 0xE0)
    (h : follow (b.toNat - 0xC0) 0x80 0xBF 0 rest = (some c, k)) :
    encodeChar c ++ rest.drop k = b :: rest := by
  obtain ⟨b₁, bs, rfl, hlo, hhi, hc, rfl⟩ := follow_zero h
  have hn := toNat_ofNat (n := (b.toNat - 0xC0) * 64 + (b₁.toNat - 0x80)) (by omega)
  simp only [encodeChar, hc, hn]
  rw [if_neg (by omega), if_pos (by omega), ofNat_eq (b := b) (by omega),
    ofNat_eq (b := b₁) (by omega)]
  rfl

/-- Three bytes, the second of which lies in a range that keeps overlong forms and surrogates
    out. -/
theorem encode_three {b : UInt8} (hb : 0xE0 ≤ b.toNat ∧ b.toNat < 0xF0)
    (hlo : 0x80 ≤ lo ∧ (b.toNat = 0xE0 → 0xA0 ≤ lo))
    (hhi : hi ≤ 0xBF ∧ (b.toNat = 0xED → hi ≤ 0x9F))
    (h : follow (b.toNat - 0xE0) lo hi 1 rest = (some c, k)) :
    encodeChar c ++ rest.drop k = b :: rest := by
  obtain ⟨b₁, bs, k₁, rfl, hlo₁, hhi₁, h₁, rfl⟩ := follow_succ h
  obtain ⟨b₂, bs, rfl, hlo₂, hhi₂, hc, rfl⟩ := follow_zero h₁
  have hn := toNat_ofNat
    (n := ((b.toNat - 0xE0) * 64 + (b₁.toNat - 0x80)) * 64 + (b₂.toNat - 0x80)) (by omega)
  simp only [encodeChar, hc, hn]
  rw [if_neg (by omega), if_neg (by omega), if_pos (by omega), ofNat_eq (b := b) (by omega),
    ofNat_eq (b := b₁) (by omega), ofNat_eq (b := b₂) (by omega)]
  rfl

/-- Four bytes, the second of which lies in a range that keeps overlong forms and code points
    that are too large out. -/
theorem encode_four {b : UInt8} (hb : 0xF0 ≤ b.toNat ∧ b.toNat < 0xF5)
    (hlo : 0x80 ≤ lo ∧ (b.toNat = 0xF0 → 0x90 ≤ lo))
    (hhi : hi ≤ 0xBF ∧ (b.toNat = 0xF4 → hi ≤ 0x8F))
    (h : follow (b.toNat - 0xF0) lo hi 2 rest = (some c, k)) :
    encodeChar c ++ rest.drop k = b :: rest := by
  obtain ⟨b₁, bs, k₁, rfl, hlo₁, hhi₁, h₁, rfl⟩ := follow_succ h
  obtain ⟨b₂, bs, k₂, rfl, hlo₂, hhi₂, h₂, rfl⟩ := follow_succ h₁
  obtain ⟨b₃, bs, rfl, hlo₃, hhi₃, hc, rfl⟩ := follow_zero h₂
  have hn := toNat_ofNat (n := (((b.toNat - 0xF0) * 64 + (b₁.toNat - 0x80)) * 64 +
    (b₂.toNat - 0x80)) * 64 + (b₃.toNat - 0x80)) (by omega)
  simp only [encodeChar, hc, hn]
  rw [if_neg (by omega), if_neg (by omega), if_neg (by omega), ofNat_eq (b := b) (by omega),
    ofNat_eq (b := b₁) (by omega), ofNat_eq (b := b₂) (by omega), ofNat_eq (b := b₃) (by omega)]
  rfl

/-- A character that is found is written in the bytes in which it is found. -/
theorem encodeChar_of_next (h : next b rest = (some c, k)) :
    encodeChar c ++ rest.drop k = b :: rest := by
  simp only [next] at h
  split at h
  · injection h with hc hk
    rw [← hk, ← Option.some.inj hc, encodeChar_of_lt (by rw [toNat_ofNat (by omega)]; omega),
      toNat_ofNat (by omega), UInt8.ofNat_toNat]
    rfl
  split at h
  · cases h
  split at h
  · exact encode_two (by omega) (by omega) h
  split at h
  · exact encode_three (by omega) (by omega) (by omega) h
  split at h
  · exact encode_three (by omega) (by omega) (by omega) h
  split at h
  · exact encode_three (by omega) (by omega) (by omega) h
  split at h
  · exact encode_four (by omega) (by omega) (by omega) h
  split at h
  · exact encode_four (by omega) (by omega) (by omega) h
  split at h
  · exact encode_four (by omega) (by omega) (by omega) h
  · cases h

theorem encode_of_decode? (h : decode? bs = some cs) : encode cs = bs := by
  rw [decode?] at h
  induction bs using scan.induct generalizing cs with
  | case1 =>
      rw [scan] at h
      cases h
      rfl
  | case2 b rest ih =>
      rw [scan, List.mapM_cons] at h
      obtain ⟨c, hc, h⟩ := Option.bind_eq_some_iff.mp h
      obtain ⟨cs', hcs, h⟩ := Option.bind_eq_some_iff.mp h
      cases h
      rw [encode_cons, ih hcs]
      exact encodeChar_of_next (Prod.ext hc rfl)

/-- Bytes decode to a text just if they are the bytes of that text. -/
theorem decode?_eq_some_iff : decode? bs = some cs ↔ encode cs = bs :=
  ⟨encode_of_decode?, fun h => h ▸ decode?_encode cs⟩

/-! ## ASCII -/

/-- Only ASCII characters have bytes below 0x80. -/
theorem mem_encodeChar (h : b ∈ encodeChar c) (hb : b.toNat < 0x80) : c = Char.ofNat b.toNat := by
  have hc := toNat_cases c
  have hbyte : ∀ k, 0x80 ≤ k → k < 256 → b ≠ UInt8.ofNat k := by
    rintro k hk hk' rfl
    rw [toNat_byte hk'] at hb
    omega
  unfold encodeChar at h
  dsimp only at h
  split at h
  · rename_i hlt
    rw [List.mem_singleton] at h
    subst h
    rw [toNat_byte (by omega), Char.ofNat_toNat]
  · split at h
    · simp only [List.mem_cons, List.not_mem_nil, or_false] at h
      rcases h with h | h <;> exact absurd h (hbyte _ (by omega) (by omega))
    · split at h
      · simp only [List.mem_cons, List.not_mem_nil, or_false] at h
        rcases h with h | h | h <;> exact absurd h (hbyte _ (by omega) (by omega))
      · simp only [List.mem_cons, List.not_mem_nil, or_false] at h
        rcases h with h | h | h | h <;> exact absurd h (hbyte _ (by omega) (by omega))

theorem mem_of_mem_encode (h : b ∈ encode cs) (hb : b.toNat < 0x80) :
    Char.ofNat b.toNat ∈ cs := by
  obtain ⟨c, hc, hbc⟩ := List.mem_flatMap.mp h
  exact mem_encodeChar hbc hb ▸ hc

theorem encodeChar_ne_nil (c : Char) : encodeChar c ≠ [] := by
  unfold encodeChar
  dsimp only
  repeat' split
  all_goals exact List.cons_ne_nil _ _

/-- An ASCII byte at the start belongs to the first character. -/
theorem head?_encode (h : (encode cs).head? = some b) (hb : b.toNat < 0x80) :
    cs.head? = some (Char.ofNat b.toNat) := by
  cases cs with
  | nil => cases h
  | cons c cs =>
      cases hc : encodeChar c with
      | nil => exact absurd hc (encodeChar_ne_nil c)
      | cons b' bs =>
          rw [encode_cons, hc] at h
          cases h
          have hbc : b ∈ encodeChar c := by
            rw [hc]
            exact List.mem_cons_self
          rw [List.head?_cons, mem_encodeChar hbc hb]

/-- An ASCII byte at the end belongs to the last character. -/
theorem getLast?_encode (h : (encode cs).getLast? = some b) (hb : b.toNat < 0x80) :
    cs.getLast? = some (Char.ofNat b.toNat) := by
  rcases List.eq_nil_or_concat cs with rfl | ⟨ds, c, rfl⟩
  · cases h
  · rw [List.concat_eq_append, encode_append, encode_cons, encode_nil, List.append_nil,
      List.getLast?_append] at h
    cases hlast : (encodeChar c).getLast? with
    | none => exact absurd (List.getLast?_eq_none_iff.mp hlast) (encodeChar_ne_nil c)
    | some b' =>
        rw [hlast] at h
        cases h
        rw [List.concat_eq_append, List.getLast?_concat,
          mem_encodeChar (List.mem_of_getLast? hlast) hb]

theorem mem_of_mem_scan (h : some c ∈ scan bs) : ∀ b ∈ encodeChar c, b ∈ bs := by
  induction bs using scan.induct with
  | case1 =>
      rw [scan] at h
      cases h
  | case2 b rest ih =>
      rw [scan, List.mem_cons] at h
      rcases h with h | h
      · intro b' hb'
        rw [← encodeChar_of_next (Prod.ext h.symm rfl)]
        exact List.mem_append_left _ hb'
      · intro b' hb'
        exact List.mem_cons_of_mem _ (List.mem_of_mem_drop (ih h b' hb'))

/-- The ASCII characters of a lossy text are bytes of what it was read from. -/
theorem mem_of_mem_decodeLossy (h : c ∈ (decodeLossy bs).toList) (hc : c.toNat < 0x80) :
    UInt8.ofNat c.toNat ∈ bs := by
  rw [decodeLossy, String.toList_ofList] at h
  obtain ⟨o, ho, rfl⟩ := List.mem_map.mp h
  cases o with
  | none => exact absurd hc (by decide)
  | some c =>
      refine mem_of_mem_scan ho _ ?_
      rw [Option.getD_some] at hc ⊢
      rw [encodeChar_of_lt hc]
      exact List.mem_singleton_self _

/-- Text of ASCII characters has one byte a character. -/
theorem encode_map_ofNat (h : ∀ b ∈ bs, b.toNat < 0x80) :
    encode (bs.map fun b => Char.ofNat b.toNat) = bs := by
  induction bs with
  | nil => rfl
  | cons b bs ih =>
      have hb := h b List.mem_cons_self
      have hn : (Char.ofNat b.toNat).toNat = b.toNat := by
        rw [Char.ofNat, dif_pos (Or.inl (by omega))]
        rfl
      rw [List.map_cons, encode_cons, encodeChar_of_lt (by omega), hn,
        ih fun b' hb' => h b' (List.mem_cons_of_mem _ hb'), UInt8.ofNat_toNat]
      rfl

end Utf8
end DirectoryStore
