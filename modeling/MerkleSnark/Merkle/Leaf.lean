import MerkleSnark.Codec.Bits
import MerkleSnark.Sha256.Digest

/-!
# Leaves

A leaf is a byte string, or a text that stands for one.  Texts from the command line may hold bytes
that are no valid UTF-8; such a byte appears as a code point from `U+DC80` to `U+DCFF` and turns
back into itself.  The digest of a leaf is made of the first bits of its SHA-256 hash.

## Main definitions

* `Leaf`, `Leaf.bytes?` — a leaf and its bytes.
* `Leaf.digest?` — the first bits of its hash.
-/

namespace MerkleSnark

/-- A leaf of the tree. -/
inductive Leaf
  /-- A byte string. -/
  | bytes (data : Bytes)
  /-- A text, as code points. -/
  | text (codePoints : List Nat)
  deriving DecidableEq, Repr

/-- Why a leaf has no digest. -/
inductive LeafError
  /-- A code point stands for no bytes. -/
  | notEncodable (codePoint : Nat)
  /-- More bits are asked for than the hash has. -/
  | digestTooLong (size : Int)
  deriving DecidableEq, Repr

/-- The wording of a failure. -/
def LeafError.message : LeafError → String
  | .notEncodable codePoint => s!"code point {codePoint} stands for no bytes"
  | .digestTooLong size => s!"digest size {size} exceeds SHA-256 output"

namespace Leaf

/-- The leaf of a text. -/
def ofString (s : String) : Leaf := .text (s.toList.map Char.toNat)

/-- The bytes of a code point: UTF-8, and the byte itself for an escaped byte. -/
def codePointBytes? (n : Nat) : Except LeafError Bytes :=
  let continuation (shift : Nat) : UInt8 := (0x80 + (n >>> shift) % 64).toUInt8
  if n < 0x80 then .ok [n.toUInt8]
  else if n < 0x800 then .ok [(0xC0 + n >>> 6).toUInt8, continuation 0]
  else if 0xDC80 ≤ n ∧ n ≤ 0xDCFF then .ok [(n - 0xDC00).toUInt8]
  else if 0xD800 ≤ n ∧ n ≤ 0xDFFF then .error (.notEncodable n)
  else if n < 0x10000 then .ok [(0xE0 + n >>> 12).toUInt8, continuation 6, continuation 0]
  else .ok [(0xF0 + n >>> 18).toUInt8, continuation 12, continuation 6, continuation 0]

/-- The bytes of a leaf. -/
def bytes? : Leaf → Except LeafError Bytes
  | .bytes data => .ok data
  | .text codePoints => do return (← codePoints.mapM codePointBytes?).flatten

/-- The first `size` bits of the hash of a leaf; a negative size leaves out that many of the last
ones. -/
def digest? (leaf : Leaf) (size : Int) : Except LeafError (List Int) := do
  let bits := bytesToBits (Sha256.digest (← leaf.bytes?))
  if size > bits.length then throw (.digestTooLong size)
  return firstEntries size bits

end Leaf

end MerkleSnark
