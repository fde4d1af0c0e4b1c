import DirectoryStore.Text.Ascii
import DirectoryStore.Text.Hex
import DirectoryStore.Toml.Part

/-!
# Numbers, truth values, dates and times in TOML

These are words without quotes.  What a word is worth does not matter here, only whether
it is well formed and in range: whole numbers must fit into 64 bits with a sign, positive
fractional ones into a double.
-/

namespace DirectoryStore
namespace Toml

/-- Whether every underscore stands between two digits.  `afterDigit` tells whether a digit
    comes before the word. -/
def joinsDigits (isDigit : Char → Bool) : (afterDigit : Bool) → List Char → Bool
  | _, [] => true
  | afterDigit, c :: rest =>
      if c = '_' then
        afterDigit && rest.head?.any isDigit && joinsDigits isDigit false rest
      else joinsDigits isDigit (isDigit c) rest

def withoutUnderscores (cs : List Char) : List Char :=
  cs.filter (· != '_')

/-- A word without its sign, and whether that is a minus. -/
def unsigned : List Char → Bool × List Char
  | '-' :: rest => (true, rest)
  | '+' :: rest => (false, rest)
  | cs => (false, cs)

/-- The number that digits of a base spell, if there is a digit and all are in range. -/
def natural? (base : Nat) (digits : List Char) : Option Nat := do
  guard (!digits.isEmpty)
  let values ← digits.mapM Hex.value?
  guard (values.all (· < base))
  return values.foldl (fun n v => n * base + v) 0

/-- The number that decimal digits spell, written without leading zeros. -/
def decimal? (digits : List Char) : Option Nat := do
  guard (digits.head? ≠ some '0' ∨ digits.length = 1)
  natural? 10 digits

/-- The bound of whole numbers, which fit into 64 bits with a sign. -/
def integerBound : Nat := UInt64.size / 2

/-- Whether a word is a whole number in base sixteen, eight or two. -/
def isBased (base : Nat) (word : List Char) : Bool :=
  joinsDigits Hex.isDigit false word &&
    (natural? base (withoutUnderscores word)).any (· < integerBound)

/-- Whether a word is a whole number. -/
def isInteger (word : List Char) : Bool :=
  match word with
  | '0' :: 'x' :: digits => isBased 16 digits
  | '0' :: 'o' :: digits => isBased 8 digits
  | '0' :: 'b' :: digits => isBased 2 digits
  | _ =>
      let (isMinus, digits) := unsigned word
      joinsDigits isDigit false digits &&
        (decimal? (withoutUnderscores digits)).any
          (· < if isMinus then integerBound + 1 else integerBound)

/-- The least whole number that a double rounds to infinity: halfway between the largest
    double and `2 ^ 1024`. -/
def doubleBound : Nat := Nat.pow 2 1024 - Nat.pow 2 970

/-- Whether `m · 10 ^ e`, with `m` of at most `width` digits, is too large for a double. -/
def exceedsDouble (m width : Nat) (e : Int) : Bool :=
  if m = 0 ∨ e + width ≤ 300 then false
  else if 310 < e then true
  else doubleBound ≤ m * Nat.pow 10 e.toNat / Nat.pow 10 (-e).toNat

/-- The exponent of a fractional number, from its `e` on; without one it is zero. -/
def exponent? : List Char → Option Int
  | [] => some 0
  | c :: rest => do
      guard (c = 'e' ∨ c = 'E')
      let (isMinus, digits) := unsigned rest
      let n ← natural? 10 digits
      return if isMinus then -n else n

/-- Whether a word is a number with a fraction or an exponent, or stands for infinity or no
    number at all. -/
def isFractional (word : List Char) : Bool :=
  let (isMinus, digits) := unsigned word
  if digits = ['i', 'n', 'f'] ∨ digits = ['n', 'a', 'n'] then true
  else if !joinsDigits isDigit false digits then false
  else
    let plain := withoutUnderscores digits
    let whole := plain.takeWhile isDigit
    let after := plain.dropWhile isDigit
    let (fraction, tail) := match after with
      | '.' :: rest => (rest.takeWhile isDigit, rest.dropWhile isDigit)
      | rest => ([], rest)
    if after.isEmpty || (after.head? = some '.' && fraction.isEmpty) then false
    else match decimal? whole, natural? 10 (whole ++ fraction), exponent? tail with
      | some _, some m, some e =>
          isMinus ||
            !exceedsDouble m (whole.length + fraction.length) (e - fraction.length)
      | _, _, _ => false

/-- Reads two digits whose number lies in the given range. -/
def twoDigits (low high : Nat) : Reader Nat
  | c :: d :: rest => do
      let n ← natural? 10 [c, d]
      guard (low ≤ n ∧ n ≤ high)
      return (n, rest)
  | _ => none

/-- The number of days of a month. -/
def daysIn (year month : Nat) : Nat :=
  if month = 2 then
    if year % 4 = 0 ∧ (year % 100 ≠ 0 ∨ year % 400 = 0) then 29 else 28
  else if month ∈ [4, 6, 9, 11] then 30
  else 31

/-- Reads a date: year, month and day. -/
def date : Reader Unit := fun cs => do
  guard (4 ≤ cs.length)
  let year ← natural? 10 (cs.take 4)
  let (_, cs) ← char '-' (cs.drop 4)
  let (month, cs) ← twoDigits 1 12 cs
  let (_, cs) ← char '-' cs
  let (_, cs) ← twoDigits 1 (daysIn year month) cs
  return ((), cs)

/-- Reads hours and minutes. -/
def hourMinute : Reader Unit := fun cs => do
  let (_, cs) ← twoDigits 0 23 cs
  let (_, cs) ← char ':' cs
  let (_, cs) ← twoDigits 0 59 cs
  return ((), cs)

/-- Whether a reader takes a whole word. -/
def takesAll {α : Type} (part : Reader α) (word : List Char) : Bool :=
  (part word).any fun (_, rest) => rest.isEmpty

/-- Reads a time of day to the second, which may be a leap second, and its fraction. -/
def time : Reader Unit := fun cs => do
  let (_, cs) ← hourMinute cs
  let (_, cs) ← char ':' cs
  let (_, cs) ← twoDigits 0 60 cs
  match cs with
  | '.' :: rest =>
      guard (rest.head?.any isDigit)
      return ((), rest.dropWhile isDigit)
  | _ => return ((), cs)

/-- Whether a word is the distance of a time zone, or nothing. -/
def isOffset : List Char → Bool
  | [] => true
  | ['Z'] => true
  | ['z'] => true
  | c :: rest => (c == '+' || c == '-') && takesAll hourMinute rest

/-- Whether a word is a time of day, with a time zone or without. -/
def isZonedTime (word : List Char) : Bool :=
  (time word).any fun (_, rest) => isOffset rest

/-- Whether a word is a date, a time of day, or both with a `T` between them. -/
def isMoment (word : List Char) : Bool :=
  match date word with
  | some (_, []) => true
  | some (_, c :: rest) => (c == 'T' || c == 't') && isZonedTime rest
  | none => takesAll time word

/-- Characters of words. -/
def isWordChar (c : Char) : Bool :=
  isLetter c || isDigit c || c ∈ ['_', '+', '-', '.', ':']

/-- Reads a word that is a value.  A date may be joined to a time of day by a space. -/
def scalar : Reader Unit := fun cs => do
  let word := cs.takeWhile isWordChar
  let rest := cs.dropWhile isWordChar
  if takesAll date word then
    match rest with
    | ' ' :: c :: after =>
        if isDigit c then
          guard (isZonedTime ((c :: after).takeWhile isWordChar))
          return ((), (c :: after).dropWhile isWordChar)
        else return ((), rest)
    | _ => return ((), rest)
  else
    guard (word ∈ ["true".toList, "false".toList] || isInteger word || isFractional word ||
      isMoment word)
    return ((), rest)

end Toml
end DirectoryStore
