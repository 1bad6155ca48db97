import MerkleSnark.Codec.Decoder

/-!
# Writing bytes

Encodings are byte strings that a decoder reads back.  Only counts and indices can fail to have one:
they are written in four bytes.

## Main definitions

* `EncodeError` — a number that does not fit its field.
* `Encode.count`, `Encode.scalar`, `Encode.header` — the parts that all artifacts share.
* `Decoder.header` — reads a header and checks the kind.
-/

namespace MerkleSnark

/-- Why a value has no encoding. -/
inductive EncodeError
  /-- A count or an index needs more than four bytes. -/
  | countTooLarge (value : Nat)
  /-- A kind is no byte. -/
  | kindOutOfRange (code : Int)
  deriving DecidableEq, Repr

/-- The wording of a failure. -/
def EncodeError.message : EncodeError → String
  | .countTooLarge value => s!"{value} does not fit in four bytes"
  | .kindOutOfRange _ => "bytes must be in range(0, 256)"

/-- The mark in front of every artifact: the letters `ZKMK`. -/
def artifactMagic : Bytes := [0x5A, 0x4B, 0x4D, 0x4B]

/-- The version of the format. -/
def formatVersion : Nat := 1

namespace Encode

/-- A count or an index, in four bytes. -/
def count (n : Nat) : Except EncodeError Bytes :=
  if n < 1 <<< 32 then .ok (Bytes.ofNat 4 n) else .error (.countTooLarge n)

/-- A scalar, in thirty-two bytes. -/
def scalar (x : Fr) : Bytes := Bytes.ofNat 32 x.val

/-- The mark, the kind and the version. -/
def header (kind : ArtifactKind) : Except EncodeError Bytes :=
  if 0 ≤ kind.code ∧ kind.code < 256 then
    .ok (artifactMagic ++ [kind.code.toNat.toUInt8, formatVersion.toUInt8])
  else .error (.kindOutOfRange kind.code)

/-- A count and the encodings of that number of values. -/
def counted {α : Type} (item : α → Bytes) (values : List α) : Except EncodeError Bytes := do
  return (← count values.length) ++ values.flatMap item

end Encode

/-- Reads a header and checks that it announces the expected kind. -/
def Decoder.header (expected : ArtifactKind) : Decoder Unit := do
  unless (← bytes 4) = artifactMagic do throw .badMagic
  let tail ← bytes 2
  let kind : ArtifactKind := ⟨(tail.getD 0 0).toNat⟩
  let version := (tail.getD 1 0).toNat
  if kind ≠ expected then
    if expected.name?.isNone then throw .unnamedKind
    throw (.wrongKind expected kind)
  if version ≠ formatVersion then throw (.unsupportedVersion version)

end MerkleSnark
