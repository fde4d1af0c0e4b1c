/-!
# Bytes and UTF-8

Values are sequences of bytes; texts enter and leave them through UTF-8.  `encode`
writes code points, `scan` cuts any byte sequence into well-formed characters and
maximal ill-formed pieces, and both the strict and the lossy decoder read off `scan`.
-/

namespace DirectoryStore

/-- A byte sequence. -/
abbrev Bytes := List UInt8

namespace Utf8

/-- The bytes of one character, by the length of its code point. -/
def encodeChar (c : Char) : Bytes :=
  let n := c.toNat
  if n < 0x80 then [UInt8.ofNat n]
  else if n < 0x800 then
    [UInt8.ofNat (0xC0 + n / 64), UInt8.ofNat (0x80 + n % 64)]
  else if n < 0x10000 then
    [UInt8.ofNat (0xE0 + n / 4096), UInt8.ofNat (0x80 + n / 64 % 64),
     UInt8.ofNat (0x80 + n % 64)]
  else
    [UInt8.ofNat (0xF0 + n / 262144), UInt8.ofNat (0x80 + n / 4096 % 64),
     UInt8.ofNat (0x80 + n / 64 % 64), UInt8.ofNat (0x80 + n % 64)]

/-- The bytes of a sequence of characters. -/
def encode (cs : List Char) : Bytes :=
  cs.flatMap encodeChar

/-- Continues a character of which `acc` has been read: the next byte must lie between `lo`
    and `hi`, and `more` further continuation bytes follow it.  Answers the character, if
    all of them are there, and how many bytes belong to it. -/
def follow (acc lo hi : Nat) : Nat → Bytes → Option Char × Nat
  | _, [] => (none, 0)
  | 0, b :: _ =>
      if lo ≤ b.toNat ∧ b.toNat ≤ hi then
        (some (Char.ofNat (acc * 64 + (b.toNat - 0x80))), 1)
      else (none, 0)
  | more + 1, b :: rest =>
      if lo ≤ b.toNat ∧ b.toNat ≤ hi then
        let r := follow (acc * 64 + (b.toNat - 0x80)) 0x80 0xBF more rest
        (r.1, r.2 + 1)
      else (none, 0)

/-- The character that starts with byte `b`, if it is well formed, and the number of bytes
    after `b` that belong to it.  The narrower ranges after `E0`, `ED`, `F0` and `F4` keep
    out overlong forms, surrogates and code points that are too large. -/
def next (b : UInt8) (rest : Bytes) : Option Char × Nat :=
  let n := b.toNat
  if n < 0x80 then (some (Char.ofNat n), 0)
  else if n < 0xC2 then (none, 0)
  else if n < 0xE0 then follow (n - 0xC0) 0x80 0xBF 0 rest
  else if n = 0xE0 then follow (n - 0xE0) 0xA0 0xBF 1 rest
  else if n = 0xED then follow (n - 0xE0) 0x80 0x9F 1 rest
  else if n < 0xF0 then follow (n - 0xE0) 0x80 0xBF 1 rest
  else if n = 0xF0 then follow (n - 0xF0) 0x90 0xBF 2 rest
  else if n < 0xF4 then follow (n - 0xF0) 0x80 0xBF 2 rest
  else if n = 0xF4 then follow (n - 0xF0) 0x80 0x8F 2 rest
  else (none, 0)

/-- Cuts a byte sequence into characters; each maximal ill-formed piece becomes one `none`. -/
def scan : Bytes → List (Option Char)
  | [] => []
  | b :: rest => (next b rest).1 :: scan (rest.drop (next b rest).2)
termination_by bs => bs.length
decreasing_by
  simp only [List.length_drop, List.length_cons]
  omega

/-- The characters of a well-formed byte sequence. -/
def decode? (bs : Bytes) : Option (List Char) :=
  (scan bs).mapM id

/-- The text of any byte sequence, with U+FFFD for each ill-formed piece. -/
def decodeLossy (bs : Bytes) : String :=
  String.ofList ((scan bs).map fun c => c.getD '\uFFFD')

/-- The text of a well-formed byte sequence. -/
def text? (bs : Bytes) : Option String :=
  (decode? bs).map String.ofList

end Utf8

/-- The UTF-8 bytes of a text. -/
def utf8 (s : String) : Bytes :=
  Utf8.encode s.toList

/-- The number of bytes of a sequence of characters, the unit of offsets into a text. -/
def byteCount (cs : List Char) : Nat :=
  (Utf8.encode cs).length

/-- The first UTF-8 byte of a character, shown as the character of that code: the way faults
    name what they met. -/
def firstByteChar (c : Char) : Char :=
  match Utf8.encodeChar c with
  | b :: _ => Char.ofNat b.toNat
  | [] => c

end DirectoryStore
