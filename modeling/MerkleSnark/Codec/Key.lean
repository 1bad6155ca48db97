import MerkleSnark.Codec.Point
import MerkleSnark.Codec.System
import MerkleSnark.Groth16.Key

/-!
# Encoded keys and proofs

An artifact is a header and its fields in order.  A proving key carries its constraint system, and
is accepted only when the lengths of its lists fit that system.

## Main definitions

* `ProvingKey.encode`, `ProvingKey.decode`.
* `VerificationKey.encode`, `VerificationKey.decode`.
* `Proof.encode`, `Proof.decode`.
-/

namespace MerkleSnark.Groth16

variable {P Q : Type} [PointCodec P] [PointCodec Q]

namespace ProvingKey

/-- The header and all fields. -/
def encode (pk : ProvingKey P Q) : Except EncodeError Bytes := do
  let points (l : List P) := Encode.counted PointCodec.encode l
  let header ← Encode.header .provingKey
  let system ← pk.system.encode
  let domainSize ← Encode.count pk.domainSize
  let single := PointCodec.encode pk.alpha ++ PointCodec.encode pk.beta
    ++ PointCodec.encode pk.betaTwist ++ PointCodec.encode pk.delta
    ++ PointCodec.encode pk.deltaTwist
  let aQuery ← points pk.aQuery
  let bQuery ← points pk.bQuery
  let bTwistQuery ← Encode.counted PointCodec.encode pk.bTwistQuery
  let hQuery ← points pk.hQuery
  let lQuery ← points pk.lQuery
  return header ++ system ++ domainSize ++ single
    ++ aQuery ++ bQuery ++ bTwistQuery ++ hQuery ++ lQuery

/-- The lists of a key by name, with their lengths and the lengths the system asks for. -/
def lengths (pk : ProvingKey P Q) : List (String × Nat × Int) :=
  let wires := pk.system.numVariables
  [("a_query", pk.aQuery.length, wires),
    ("b_g1_query", pk.bQuery.length, wires),
    ("b_g2_query", pk.bTwistQuery.length, wires),
    ("h_query", pk.hQuery.length, (pk.domainSize : Int) - 1),
    ("l_query", pk.lQuery.length, pk.system.auxiliarySize)]

/-- Reads all fields.  The domain is at least as large as the number of constraints, and its size
has at most one binary digit that is set. -/
def decoder : Decoder (ProvingKey P Q) := do
  Decoder.header .provingKey
  let system ← ConstraintSystem.decode
  let domainSize ← Decoder.count
  if domainSize < system.numConstraints || domainSize &&& (domainSize - 1) != 0 then
    throw (.badDomainSize domainSize)
  let alpha ← Decoder.point
  let beta ← Decoder.point
  let betaTwist ← Decoder.point
  let delta ← Decoder.point
  let deltaTwist ← Decoder.point
  let aQuery ← Decoder.counted Decoder.point
  let bQuery ← Decoder.counted Decoder.point
  let bTwistQuery ← Decoder.counted Decoder.point
  let hQuery ← Decoder.counted Decoder.point
  let lQuery ← Decoder.counted Decoder.point
  Decoder.atEnd
  let pk : ProvingKey P Q :=
    { system, domainSize, alpha, beta, betaTwist, delta, deltaTwist,
      aQuery, bQuery, bTwistQuery, hQuery, lQuery }
  match pk.lengths.find? fun l => (l.2.1 : Int) != l.2.2 with
  | some (list, found, expected) => throw (.entryCount list found expected)
  | none => return pk

/-- Reads a key from all of the bytes. -/
def decode (bytes : Bytes) : Except DecodeError (ProvingKey P Q) := decoder.run bytes

end ProvingKey

namespace VerificationKey

/-- The header and all fields. -/
def encode (vk : VerificationKey P Q) : Except EncodeError Bytes := do
  return (← Encode.header .verificationKey)
    ++ PointCodec.encode vk.alpha ++ PointCodec.encode vk.beta
    ++ PointCodec.encode vk.gamma ++ PointCodec.encode vk.delta
    ++ (← Encode.counted PointCodec.encode vk.ic)

/-- Reads all fields; there is an entry for the constant wire at least. -/
def decoder : Decoder (VerificationKey P Q) := do
  Decoder.header .verificationKey
  let alpha ← Decoder.point
  let beta ← Decoder.point
  let gamma ← Decoder.point
  let delta ← Decoder.point
  let ic ← Decoder.counted Decoder.point
  Decoder.atEnd
  if ic.isEmpty then throw .noInputEntries
  return { alpha, beta, gamma, delta, ic }

/-- Reads a key from all of the bytes. -/
def decode (bytes : Bytes) : Except DecodeError (VerificationKey P Q) := decoder.run bytes

end VerificationKey

namespace Proof

/-- The header and the three points. -/
def encode (proof : Proof P Q) : Except EncodeError Bytes := do
  return (← Encode.header .proof) ++ PointCodec.encode proof.a ++ PointCodec.encode proof.b
    ++ PointCodec.encode proof.c

/-- Reads the three points; the one of the second group has the right order. -/
def decoder [PointGroup Q] : Decoder (Proof P Q) := do
  Decoder.header .proof
  let a ← Decoder.point
  let b ← Decoder.subgroupPoint
  let c ← Decoder.point
  Decoder.atEnd
  return { a, b, c }

/-- Reads a proof from all of the bytes. -/
def decode [PointGroup Q] (bytes : Bytes) : Except DecodeError (Proof P Q) := decoder.run bytes

end Proof

end MerkleSnark.Groth16
