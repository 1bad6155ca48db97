import MerkleSnark.Codec.Bytes
import MerkleSnark.Text.Terminal

/-!
# Bit lists

A digest is a list of bits, the highest bit of every byte first, and is shown as hexadecimal text.
The entries of a list are integers, so that a list with other entries than zero and one can be
refused rather than misread.

## Main definitions

* `bytesToBits` — eight bits a byte.
* `bitsToHex?` — one hexadecimal digit for four bits.
* `hexToBits?` — the bits of a text of a given number of digits.
-/

namespace MerkleSnark

/-- Why bits or a text are not convertible. -/
inductive BitsError
  /-- The number of bits is not a multiple of four. -/
  | ragged (count : Nat)
  /-- Four entries do not spell a binary number. -/
  | notBinary (text : String)
  /-- A text has the wrong number of digits for a number of bits. -/
  | digitCount (bits : Int) (found : Nat)
  /-- A text has other characters than lowercase hexadecimal digits. -/
  | notHex
  deriving DecidableEq, Repr

/-- The wording of a failure.  A quoted text is cut off after two hundred characters. -/
def BitsError.message : BitsError → String
  | .ragged count => s!"bit length {count} is not a multiple of 4"
  | .notBinary text =>
    "invalid literal for int() with base 2: " ++ String.ofList ((Text.quote text).toList.take 200)
  | .digitCount bits found => s!"expected {bits.fdiv 4} hex characters, got {found}"
  | .notHex => "root must be lowercase hexadecimal"

/-- The bit of a number at a place. -/
def bitAt (n place : Nat) : Int := (((n >>> place) % 2 : Nat) : Int)

/-- The bits of a byte, the highest first. -/
def byteBits (b : UInt8) : List Int := [7, 6, 5, 4, 3, 2, 1, 0].map (bitAt b.toNat)

/-- The bits of bytes, eight a byte. -/
def bytesToBits (bytes : Bytes) : List Int := bytes.flatMap byteBits

/-- The number that binary digits spell, if there is at least one digit and no other character. -/
def binaryValue? (digits : List Char) : Option Nat :=
  if !digits.isEmpty && digits.all fun c => c == '0' || c == '1' then
    some (digits.foldl (fun acc c => acc * 2 + (c.toNat - 48)) 0)
  else none

/-- The hexadecimal text of a natural number, without leading zeros. -/
def hexText (n : Nat) : String := String.ofList (Nat.toDigits 16 n)

/-- The hexadecimal digit of four entries.  The entries are written one after another and read as
one binary number with an optional minus sign. -/
def nibbleHex? (entries : List Int) : Except BitsError String :=
  let text := String.join (entries.map toString)
  match text.toList with
  | '-' :: digits =>
    match binaryValue? digits with
    | some 0 => .ok "0"
    | some n => .ok ("-" ++ hexText n)
    | none => .error (.notBinary text)
  | digits =>
    match binaryValue? digits with
    | some n => .ok (hexText n)
    | none => .error (.notBinary text)

/-- The digits of entries, four entries a digit. -/
def nibblesHex? : List Int → Except BitsError (List String)
  | a :: b :: c :: d :: rest => do return (← nibbleHex? [a, b, c, d]) :: (← nibblesHex? rest)
  | _ => .ok []

/-- The hexadecimal text of bits. -/
def bitsToHex? (bits : List Int) : Except BitsError String :=
  if bits.length % 4 ≠ 0 then .error (.ragged bits.length)
  else (nibblesHex? bits).map String.join

/-- Whether a character is a lowercase hexadecimal digit. -/
def isLowerHex (c : Char) : Bool := ('0' ≤ c && c ≤ '9') || ('a' ≤ c && c ≤ 'f')

/-- The bits of a hexadecimal digit, the highest first. -/
def nibbleBits (c : Char) : List Int := [3, 2, 1, 0].map (bitAt (Bytes.digitValue c))

/-- The bits of a text that spells `size` bits, with blanks at its ends ignored. -/
def hexToBits? (text : String) (size : Int) : Except BitsError (List Int) :=
  let digits := Text.trim Text.isBlank text.toList
  if (digits.length : Int) * 4 ≠ size then .error (.digitCount size digits.length)
  else if digits.all isLowerHex then .ok (digits.flatMap nibbleBits)
  else .error .notHex

end MerkleSnark
