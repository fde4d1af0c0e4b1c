import DirectoryStore.Proofs.Text.Utf8
import DirectoryStore.Text.Base64

/-!
# Base64 and back

Decoding takes groups of four symbols apart.  All groups but the last stand for three bytes
each, so the bytes are cut before their last one, two or three.
-/

namespace DirectoryStore
namespace Base64

variable {bs front last : Bytes} {n : Nat}

/-- The byte of a symbol. -/
def symbolByte (n : Nat) : UInt8 :=
  UInt8.ofNat (symbol n).toNat

theorem symbol_ascii (h : n < 64) : (symbol n).toNat < 0x80 := by
  have hall : ∀ k : Fin 64, (symbol k).toNat < 0x80 := by decide
  exact hall ⟨n, h⟩

theorem value?_symbolByte (h : n < 64) : value? (symbolByte n) = some n := by
  have hall : ∀ k : Fin 64, value? (symbolByte k) = some k.val := by decide
  exact hall ⟨n, h⟩

theorem symbolByte_ne_pad (h : n < 64) : symbolByte n ≠ pad := by
  intro he
  have := value?_symbolByte h
  rw [he] at this
  cases this

theorem encode_symbol_cons (h : n < 64) (cs : List Char) :
    Utf8.encode (symbol n :: cs) = symbolByte n :: Utf8.encode cs := by
  rw [Utf8.encode_cons, Utf8.encodeChar_of_lt (symbol_ascii h)]
  rfl

theorem byte_lt (b : UInt8) : b.toNat < 256 :=
  b.toNat_lt_size

/-! ## Full groups -/

/-- The values of six bits that make up full groups of three bytes. -/
def sextets : Bytes → List Nat
  | a :: b :: c :: rest =>
      a.toNat / 4 :: (a.toNat % 4 * 16 + b.toNat / 16) :: (b.toNat % 16 * 4 + c.toNat / 64) ::
        c.toNat % 64 :: sextets rest
  | _ => []

/-- The bytes that are written for a byte sequence. -/
def written (bs : Bytes) : Bytes :=
  Utf8.encode (encode bs)

theorem written_group (a b c : UInt8) (rest : Bytes) :
    written (a :: b :: c :: rest) = symbolByte (a.toNat / 4) ::
      symbolByte (a.toNat % 4 * 16 + b.toNat / 16) ::
      symbolByte (b.toNat % 16 * 4 + c.toNat / 64) :: symbolByte (c.toNat % 64) ::
      written rest := by
  have ha := byte_lt a
  have hb := byte_lt b
  have hc := byte_lt c
  rw [written, encode, encode_symbol_cons (by omega), encode_symbol_cons (by omega),
    encode_symbol_cons (by omega), encode_symbol_cons (by omega), written]

theorem written_append (h : front.length % 3 = 0) :
    written (front ++ last) = written front ++ written last := by
  induction front using sextets.induct with
  | case1 a b c rest ih =>
      simp only [List.length_cons] at h
      have ih := ih (by omega)
      simp only [List.cons_append, written_group, ih]
  | case2 front hshort =>
      match front, hshort, h with
      | [], _, _ => rfl
      | a :: b :: c :: rest, hshort, _ => exact absurd rfl (hshort a b c rest)

theorem encode_pad_cons (cs : List Char) : Utf8.encode ('=' :: cs) = pad :: Utf8.encode cs :=
  rfl

/-- What is written consists of symbols and padding. -/
theorem mem_written {x : UInt8} (h : x ∈ written bs) :
    (∃ n, n < 64 ∧ x = symbolByte n) ∨ x = pad := by
  induction bs using encode.induct with
  | case1 => cases h
  | case2 a =>
      have ha := byte_lt a
      rw [written, encode, encode_symbol_cons (by omega), encode_symbol_cons (by omega),
        encode_pad_cons, encode_pad_cons] at h
      simp only [List.mem_cons] at h
      rcases h with rfl | rfl | rfl | rfl | h
      · exact .inl ⟨_, by omega, rfl⟩
      · exact .inl ⟨_, by omega, rfl⟩
      · exact .inr rfl
      · exact .inr rfl
      · cases h
  | case3 a b =>
      have ha := byte_lt a
      have hb := byte_lt b
      rw [written, encode, encode_symbol_cons (by omega), encode_symbol_cons (by omega),
        encode_symbol_cons (by omega), encode_pad_cons] at h
      simp only [List.mem_cons] at h
      rcases h with rfl | rfl | rfl | rfl | h
      · exact .inl ⟨_, by omega, rfl⟩
      · exact .inl ⟨_, by omega, rfl⟩
      · exact .inl ⟨_, by omega, rfl⟩
      · exact .inr rfl
      · cases h
  | case4 a b c rest ih =>
      have ha := byte_lt a
      have hb := byte_lt b
      have hc := byte_lt c
      rw [written_group] at h
      simp only [List.mem_cons] at h
      rcases h with rfl | rfl | rfl | rfl | h
      · exact .inl ⟨_, by omega, rfl⟩
      · exact .inl ⟨_, by omega, rfl⟩
      · exact .inl ⟨_, by omega, rfl⟩
      · exact .inl ⟨_, by omega, rfl⟩
      · exact ih h

theorem length_written (h : bs.length % 3 = 0) : (written bs).length % 4 = 0 := by
  induction bs using sextets.induct with
  | case1 a b c rest ih =>
      simp only [List.length_cons] at h
      have ih := ih (by omega)
      simp only [written_group, List.length_cons]
      omega
  | case2 bs hshort =>
      match bs, hshort, h with
      | [], _, _ => rfl
      | a :: b :: c :: rest, hshort, _ => exact absurd rfl (hshort a b c rest)

theorem values_symbol_cons (h : n < 64) (offset : Nat) (rest : Bytes) :
    values offset (symbolByte n :: rest) =
      match values (offset + 1) rest with
      | .error e => .error e
      | .ok vs => .ok (n :: vs) := by
  cases hvalues : values (offset + 1) rest with
  | error e => simp only [values, value?_symbolByte h, hvalues]
  | ok vs => simp only [values, value?_symbolByte h, hvalues]

theorem values_written (h : bs.length % 3 = 0) (offset : Nat) :
    values offset (written bs) = .ok (sextets bs) := by
  induction bs using sextets.induct generalizing offset with
  | case1 a b c rest ih =>
      have ha := byte_lt a
      have hb := byte_lt b
      have hc := byte_lt c
      simp only [List.length_cons] at h
      have ih := ih (by omega)
      rw [written_group, values_symbol_cons (by omega), values_symbol_cons (by omega),
        values_symbol_cons (by omega), values_symbol_cons (by omega), ih, sextets]
  | case2 bs hshort =>
      match bs, hshort, h with
      | [], _, _ => rfl
      | a :: b :: c :: rest, hshort, _ => exact absurd rfl (hshort a b c rest)

theorem pack_sextets (h : bs.length % 3 = 0) (vs : List Nat) :
    pack (sextets bs ++ vs) = bs ++ pack vs := by
  induction bs using sextets.induct with
  | case1 a b c rest ih =>
      have ha := byte_lt a
      have hb := byte_lt b
      have hc := byte_lt c
      simp only [List.length_cons] at h
      rw [sextets]
      simp only [List.cons_append]
      rw [pack, ih (by omega), Utf8.ofNat_eq (b := a) (by omega), Utf8.ofNat_eq (b := b) (by omega),
        Utf8.ofNat_eq (b := c) (by omega)]
  | case2 bs hshort =>
      match bs, hshort, h with
      | [], _, _ => rfl
      | a :: b :: c :: rest, hshort, _ => exact absurd rfl (hshort a b c rest)

/-! ## The last group -/

theorem lastGroup_symbol_cons (h : n < 64) (start place : Nat) (rest : Bytes) :
    lastGroup start place (symbolByte n :: rest) =
      match lastGroup start (place + 1) rest with
      | .error e => .error e
      | .ok (vs, pads) => .ok ((symbolByte n, n) :: vs, pads) := by
  cases hlast : lastGroup start (place + 1) rest with
  | error e => simp only [lastGroup, if_neg (symbolByte_ne_pad h), value?_symbolByte h, hlast]
  | ok last => simp only [lastGroup, if_neg (symbolByte_ne_pad h), value?_symbolByte h, hlast]

/-- Values with their symbols. -/
def marked (vs : List Nat) : List (UInt8 × Nat) :=
  vs.map fun n => (symbolByte n, n)

theorem map_snd_marked (vs : List Nat) : (marked vs).map Prod.snd = vs := by
  simp [marked, Function.comp_def]

theorem length_marked (vs : List Nat) : (marked vs).length = vs.length :=
  List.length_map _

/-- A last group is complete, leaves no bits over, and packs into its bytes. -/
theorem lastGroup_written (start : Nat) (hlo : 0 < last.length) (hhi : last.length ≤ 3) :
    (written last).length = 4 ∧ ∃ vs pads,
      lastGroup start 0 (written last) = .ok (marked vs, pads) ∧
      2 ≤ vs.length ∧ vs.length + pads = 4 ∧ spareBits vs = 0 ∧ pack vs = last := by
  match last, hlo, hhi with
  | [a], _, _ =>
      have ha := byte_lt a
      have hw : written [a] =
          [symbolByte (a.toNat / 4), symbolByte (a.toNat % 4 * 16), pad, pad] := by
        rw [written, encode, encode_symbol_cons (by omega), encode_symbol_cons (by omega)]
        rfl
      refine ⟨by rw [hw]; rfl, [a.toNat / 4, a.toNat % 4 * 16], 2, ?_, Nat.le_refl _, rfl, ?_,
        ?_⟩
      · rw [hw, lastGroup_symbol_cons (by omega), lastGroup_symbol_cons (by omega)]
        rfl
      · simp only [spareBits]
        omega
      · simp only [pack]
        rw [Utf8.ofNat_eq (b := a) (by omega)]
  | [a, b], _, _ =>
      have ha := byte_lt a
      have hb := byte_lt b
      have hw : written [a, b] = [symbolByte (a.toNat / 4),
          symbolByte (a.toNat % 4 * 16 + b.toNat / 16), symbolByte (b.toNat % 16 * 4), pad] := by
        rw [written, encode, encode_symbol_cons (by omega), encode_symbol_cons (by omega),
          encode_symbol_cons (by omega)]
        rfl
      refine ⟨by rw [hw]; rfl, [a.toNat / 4, a.toNat % 4 * 16 + b.toNat / 16,
        b.toNat % 16 * 4], 1, ?_, by simp, rfl, ?_, ?_⟩
      · rw [hw, lastGroup_symbol_cons (by omega), lastGroup_symbol_cons (by omega),
          lastGroup_symbol_cons (by omega)]
        rfl
      · simp only [spareBits]
        omega
      · simp only [pack]
        rw [Utf8.ofNat_eq (b := a) (by omega), Utf8.ofNat_eq (b := b) (by omega)]
  | [a, b, c], _, _ =>
      have ha := byte_lt a
      have hb := byte_lt b
      have hc := byte_lt c
      have hw := written_group a b c []
      refine ⟨by rw [hw]; rfl, [a.toNat / 4, a.toNat % 4 * 16 + b.toNat / 16,
        b.toNat % 16 * 4 + c.toNat / 64, c.toNat % 64], 0, ?_, by simp, rfl, rfl, ?_⟩
      · rw [hw, lastGroup_symbol_cons (by omega), lastGroup_symbol_cons (by omega),
          lastGroup_symbol_cons (by omega), lastGroup_symbol_cons (by omega)]
        rfl
      · simp only [pack]
        rw [Utf8.ofNat_eq (b := a) (by omega), Utf8.ofNat_eq (b := b) (by omega),
          Utf8.ofNat_eq (b := c) (by omega)]

theorem strayEnd?_eq_none (h : bs.length % 4 = 0) : strayEnd? bs = none := by
  rw [strayEnd?, if_neg (by omega)]

/-- Decoding undoes encoding. -/
theorem decode_written (bs : Bytes) : decode (written bs) = .ok bs := by
  by_cases hnil : bs = []
  · subst hnil
    rfl
  have hpos : 0 < bs.length := List.length_pos_iff.mpr hnil
  have hcut : bs = bs.take ((bs.length - 1) / 3 * 3) ++ bs.drop ((bs.length - 1) / 3 * 3) :=
    (List.take_append_drop _ _).symm
  have hfront : (bs.take ((bs.length - 1) / 3 * 3)).length % 3 = 0 := by
    rw [List.length_take]
    omega
  have hlast : (bs.drop ((bs.length - 1) / 3 * 3)).length =
      bs.length - (bs.length - 1) / 3 * 3 := List.length_drop
  generalize bs.take ((bs.length - 1) / 3 * 3) = front at hcut hfront
  generalize bs.drop ((bs.length - 1) / 3 * 3) = last at hcut hlast
  obtain ⟨hfour, vs, pads, hgroup, hcount, hpads, hspare, hpack⟩ :=
    lastGroup_written (written front).length (show 0 < last.length by omega) (by omega)
  have hlen : (written bs).length = (written front).length + 4 := by
    rw [hcut, written_append hfront, List.length_append, hfour]
  have hmod := length_written hfront
  have hstart : (written bs).length - lastLength (written bs).length =
      (written front).length := by
    rw [lastLength, if_pos (by omega)]
    omega
  have htake : (written bs).take (written front).length = written front := by
    rw [hcut, written_append hfront, List.take_left]
  have hdrop : (written bs).drop (written front).length = written last := by
    rw [hcut, written_append hfront, List.drop_left]
  have hone : ¬ (written bs ≠ [] ∧ vs.length < 2) := by omega
  have hfull : ¬ (vs.length + pads) % 4 ≠ 0 := by omega
  unfold decode
  rw [strayEnd?_eq_none (by omega)]
  simp only [hstart, htake, hdrop, values_written hfront, hgroup, map_snd_marked, length_marked]
  rw [if_neg hone, if_neg hfull, if_neg (by omega), pack_sextets hfront, hpack, ← hcut]

end Base64
end DirectoryStore
