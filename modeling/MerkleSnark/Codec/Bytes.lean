/-!
# Byte strings

Artifacts are lists of bytes, numbers in them big-endian.

## Main definitions

* `Bytes` — a list of bytes.
* `firstEntries` — the front of a list.
* `Bytes.ofNat`, `Bytes.toNat` — big-endian numbers of a fixed width.
* `Bytes.toHex`, `Bytes.ofHex` — lowercase hexadecimal text.
-/

namespace MerkleSnark

/-- A string of bytes. -/
abbrev Bytes := List UInt8

/-- The first `size` entries of a list; a negative size leaves out that many of the last ones. -/
def firstEntries {α : Type} (size : Int) (entries : List α) : List α :=
  entries.take (if size < 0 then size + entries.length else size).toNat

namespace Bytes

/-- The lowest `width` bytes of a number, the highest of them first. -/
def ofNat : Nat → Nat → Bytes
  | 0, _ => []
  | width + 1, n => (n >>> (8 * width)).toUInt8 :: ofNat width n

/-- The number that bytes spell, the first byte counting most. -/
def toNat (bytes : Bytes) : Nat := bytes.foldl (fun acc b => acc * 256 + b.toNat) 0

/-- The lowercase hexadecimal digit of a number below sixteen. -/
def hexDigit (n : Nat) : Char :=
  if n < 10 then Char.ofNat (48 + n) else Char.ofNat (87 + n)

/-- Two hexadecimal digits a byte. -/
def toHex (bytes : Bytes) : String :=
  String.ofList (bytes.flatMap fun b => [hexDigit (b.toNat / 16), hexDigit (b.toNat % 16)])

/-- The value of a hexadecimal digit. -/
def digitValue (c : Char) : Nat :=
  if c ≤ '9' then c.toNat - 48 else if c ≤ 'F' then c.toNat - 55 else c.toNat - 87

/-- The bytes that pairs of hexadecimal digits spell; a digit that is left over is ignored. -/
def ofHex : List Char → Bytes
  | high :: low :: rest => (digitValue high * 16 + digitValue low).toUInt8 :: ofHex rest
  | _ => []

@[simp] theorem length_ofNat (width n : Nat) : (ofNat width n).length = width := by
  induction width with
  | zero => rfl
  | succ width ih => simp [ofNat, ih]

end Bytes

end MerkleSnark
