import DirectoryStore.Text.Utf8

/-!
# Base64

The standard alphabet with padding.  Four symbols stand for three bytes; two or three
symbols and their padding stand for one or two bytes at the end.  Decoding wants the
padding, and zero in the bits that the last symbol leaves over.
-/

namespace DirectoryStore
namespace Base64

/-- The symbol of a value below sixty-four. -/
def symbol (n : Nat) : Char :=
  if n < 26 then Char.ofNat ('A'.toNat + n)
  else if n < 52 then Char.ofNat ('a'.toNat + (n - 26))
  else if n < 62 then Char.ofNat ('0'.toNat + (n - 52))
  else if n = 62 then '+'
  else '/'

/-- The value of a symbol. -/
def value? (b : UInt8) : Option Nat :=
  let n := b.toNat
  if 65 ≤ n ∧ n ≤ 90 then some (n - 65)
  else if 97 ≤ n ∧ n ≤ 122 then some (n - 97 + 26)
  else if 48 ≤ n ∧ n ≤ 57 then some (n - 48 + 52)
  else if n = 43 then some 62
  else if n = 47 then some 63
  else none

/-- The symbols that stand for a byte sequence. -/
def encode : Bytes → List Char
  | [] => []
  | [a] =>
      [symbol (a.toNat / 4), symbol (a.toNat % 4 * 16), '=', '=']
  | [a, b] =>
      [symbol (a.toNat / 4), symbol (a.toNat % 4 * 16 + b.toNat / 16),
       symbol (b.toNat % 16 * 4), '=']
  | a :: b :: c :: rest =>
      symbol (a.toNat / 4) :: symbol (a.toNat % 4 * 16 + b.toNat / 16) ::
      symbol (b.toNat % 16 * 4 + c.toNat / 64) :: symbol (c.toNat % 64) :: encode rest

/-- Why a byte sequence is not base64. -/
inductive DecodeError where
  /-- A byte outside the alphabet, or padding where none may stand. -/
  | invalidSymbol (byte : UInt8) (offset : Nat)
  /-- Too few symbols in the last group. -/
  | invalidLength (length : Nat)
  /-- A last group that its padding does not fill up. -/
  | invalidPadding
  /-- A last symbol with bits set that stand for no byte. -/
  | invalidLastSymbol (byte : UInt8) (offset : Nat)
deriving DecidableEq, Repr

/-- The wording of an error. -/
def DecodeError.message : DecodeError → String
  | invalidSymbol byte offset => s!"Invalid symbol {byte.toNat}, offset {offset}."
  | invalidLength length => s!"Invalid input length: {length}"
  | invalidPadding => "Invalid padding"
  | invalidLastSymbol byte offset => s!"Invalid last symbol {byte.toNat}, offset {offset}."

/-- The padding sign. -/
def pad : UInt8 := 61

/-- The values of symbols, the first of which stands at `offset`. -/
def values (offset : Nat) : Bytes → Except DecodeError (List Nat)
  | [] => .ok []
  | b :: rest =>
      match value? b with
      | none => .error (.invalidSymbol b offset)
      | some v =>
          match values (offset + 1) rest with
          | .error e => .error e
          | .ok vs => .ok (v :: vs)

/-- Checks that only padding follows, the first of it at `padAt`. -/
def onlyPads (padAt : Nat) : Bytes → Except DecodeError Unit
  | [] => .ok ()
  | b :: rest => if b = pad then onlyPads padAt rest else .error (.invalidSymbol pad padAt)

/-- The symbols of the last group with their values, and the number of pads after them.  The
    group starts at `start`, and `place` symbols of it have been read. -/
def lastGroup (start place : Nat) : Bytes → Except DecodeError (List (UInt8 × Nat) × Nat)
  | [] => .ok ([], 0)
  | b :: rest =>
      if b = pad then
        if place < 2 then .error (.invalidSymbol pad (start + place))
        else
          match onlyPads (start + place) rest with
          | .error e => .error e
          | .ok () => .ok ([], rest.length + 1)
      else
        match value? b with
        | none => .error (.invalidSymbol b (start + place))
        | some v =>
            match lastGroup start (place + 1) rest with
            | .error e => .error e
            | .ok (vs, pads) => .ok ((b, v) :: vs, pads)

/-- The bytes that values of six bits make up, in groups of four. -/
def pack : List Nat → Bytes
  | a :: b :: c :: d :: rest =>
      UInt8.ofNat (a * 4 + b / 16) :: UInt8.ofNat (b % 16 * 16 + c / 4) ::
      UInt8.ofNat (c % 4 * 64 + d) :: pack rest
  | [a, b, c] => [UInt8.ofNat (a * 4 + b / 16), UInt8.ofNat (b % 16 * 16 + c / 4)]
  | [a, b] => [UInt8.ofNat (a * 4 + b / 16)]
  | _ => []

/-- The bits of the last symbol that stand for no byte, given all values of its group. -/
def spareBits : List Nat → Nat
  | [_, b] => b % 16
  | [_, _, c] => c % 4
  | _ => 0

/-- Whether the last of `bs` is neither a symbol nor padding and stands alone in its group. -/
def strayEnd? (bs : Bytes) : Option UInt8 :=
  if bs.length % 4 = 1 then
    bs.getLast?.filter fun b => b ≠ pad && (value? b).isNone
  else none

/-- The length of the last group: what is over, or a full group. -/
def lastLength (n : Nat) : Nat :=
  if n % 4 = 0 then min n 4 else n % 4

/-- The bytes that symbols stand for.  All groups but the last hold symbols only; the last one
    may end in padding and has to be complete. -/
def decode (bs : Bytes) : Except DecodeError Bytes :=
  match strayEnd? bs with
  | some b => .error (.invalidSymbol b (bs.length - 1))
  | none =>
      let start := bs.length - lastLength bs.length
      match values 0 (bs.take start) with
      | .error e => .error e
      | .ok whole =>
          match lastGroup start 0 (bs.drop start) with
          | .error e => .error e
          | .ok (last, pads) =>
              let count := last.length
              if bs ≠ [] ∧ count < 2 then .error (.invalidLength (start + count))
              else if (count + pads) % 4 ≠ 0 then .error .invalidPadding
              else if spareBits (last.map Prod.snd) ≠ 0 then
                .error (.invalidLastSymbol ((last.getLast?.map Prod.fst).getD 0)
                  (start + count - 1))
              else .ok (pack (whole ++ last.map Prod.snd))

end Base64
end DirectoryStore
