import MerkleSnark.Codec.Bytes
import MerkleSnark.Field.Scalar

/-!
# Reading bytes

A decoder consumes bytes from the front and keeps the number of bytes consumed.  A read that asks
for more bytes than are left fails and consumes nothing; bytes consumed before a failure stay
consumed.

## Main definitions

* `ByteReader` — the bytes that are left, and the offset of the first of them.
* `DecodeError` — the causes of failure.
* `Decoder` — computations that read.
* `Decoder.bytes`, `Decoder.uint`, `Decoder.scalar`, `Decoder.times`, `Decoder.atEnd` — the reads.
-/

namespace MerkleSnark

/-- The kind of an artifact, as its header states it. -/
structure ArtifactKind where
  /-- The number in the header; one that is no byte stands in none. -/
  code : Int
  deriving DecidableEq, Repr

namespace ArtifactKind

/-- A key for making proofs. -/
def provingKey : ArtifactKind := ⟨1⟩

/-- A key for checking proofs. -/
def verificationKey : ArtifactKind := ⟨2⟩

/-- A proof. -/
def proof : ArtifactKind := ⟨3⟩

/-- The name of a kind, for the three kinds that exist. -/
def name? (kind : ArtifactKind) : Option String :=
  if kind = provingKey then some "proving key"
  else if kind = verificationKey then some "verification key"
  else if kind = proof then some "proof"
  else none

/-- The name, or the number of a kind that does not exist. -/
def describe (kind : ArtifactKind) : String := kind.name?.getD s!"kind {kind.code}"

end ArtifactKind

/-- Why bytes are not an artifact. -/
inductive DecodeError
  /-- Fewer bytes are left than a read needs. -/
  | endOfData (offset need : Nat)
  /-- Bytes are left behind the payload. -/
  | trailing (count : Nat)
  /-- The first bytes are not the mark of an artifact. -/
  | badMagic
  /-- The header names another kind. -/
  | wrongKind (expected found : ArtifactKind)
  /-- The header names another kind than an expected one that does not exist itself. -/
  | unnamedKind
  /-- The format is of another version. -/
  | unsupportedVersion (version : Nat)
  /-- A scalar is not reduced. -/
  | scalarOutOfRange
  /-- The flag byte of a point is neither of the two. -/
  | badPointFlag (flag : Nat)
  /-- A point of the first group is off its curve. -/
  | offCurve
  /-- A point of the second group is off the twist. -/
  | offTwist
  /-- A point of the second group has the wrong order. -/
  | notInSubgroup
  /-- A term mentions a wire that does not exist. -/
  | wireOutOfRange (wire : Nat)
  /-- The size of the evaluation domain is too small or no power of two. -/
  | badDomainSize (size : Nat)
  /-- A list has the wrong length. -/
  | entryCount (list : String) (found : Nat) (expected : Int)
  /-- A verification key has no entry for the constant wire. -/
  | noInputEntries
  deriving DecidableEq, Repr

/-- The wording of a failure. -/
def DecodeError.message : DecodeError → String
  | .endOfData offset need => s!"unexpected end of data at offset {offset} (need {need} bytes)"
  | .trailing count => s!"{count} trailing bytes after payload"
  | .badMagic => "bad magic, not a zkmerkle artifact"
  | .wrongKind expected found => s!"expected a {expected.describe}, found {found.describe}"
  | .unnamedKind => "the expected kind has no name"
  | .unsupportedVersion version => s!"unsupported format version {version}"
  | .scalarOutOfRange => "scalar out of range"
  | .badPointFlag flag => s!"bad point flag {flag}"
  | .offCurve => "G1 point is not on the curve"
  | .offTwist => "G2 point is not on the twisted curve"
  | .notInSubgroup => "G2 point is not in the prime-order subgroup"
  | .wireOutOfRange wire => s!"variable index {wire} out of range"
  | .badDomainSize size => s!"bad evaluation domain size {size}"
  | .entryCount list found expected => s!"{list} has {found} entries, expected {expected}"
  | .noInputEntries => "verification key has no IC entries"

/-- The bytes that are left to read. -/
structure ByteReader where
  /-- The bytes. -/
  rest : Bytes
  /-- The number of bytes consumed before them. -/
  offset : Nat := 0
  deriving DecidableEq, Repr

/-- Computations that read bytes.  What was read before a failure stays read. -/
abbrev Decoder := ExceptT DecodeError (StateM ByteReader)

namespace Decoder

/-- The next `size` bytes. -/
def bytes (size : Nat) : Decoder Bytes := do
  let reader ← get
  let chunk := reader.rest.take size
  if chunk.length < size then throw (.endOfData reader.offset size)
  set (⟨reader.rest.drop size, reader.offset + size⟩ : ByteReader)
  return chunk

/-- The big-endian number in the next `size` bytes. -/
def uint (size : Nat) : Decoder Nat := return (← bytes size).toNat

/-- A count or an index. -/
def count : Decoder Nat := uint 4

/-- A reduced scalar. -/
def scalar : Decoder Fr := do
  let value ← uint 32
  if h : value < scalarOrder then return ⟨value, h⟩ else throw .scalarOutOfRange

/-- A number of values, one after another. -/
def times {α : Type} (item : Decoder α) : Nat → Decoder (List α)
  | 0 => return []
  | n + 1 => return (← item) :: (← times item n)

/-- A count and that number of values. -/
def counted {α : Type} (item : Decoder α) : Decoder (List α) := do times item (← count)

/-- Nothing is left. -/
def atEnd : Decoder Unit := do
  let reader ← get
  unless reader.rest.isEmpty do throw (.trailing reader.rest.length)

/-- Runs a decoder on all of the bytes it is given. -/
def run {α : Type} (decoder : Decoder α) (bytes : Bytes) : Except DecodeError α :=
  (ExceptT.run decoder ⟨bytes, 0⟩).1

end Decoder

end MerkleSnark
