import MerkleSnark.Codec.Encoder
import MerkleSnark.Constraint.System

/-!
# Encoded constraint systems

A linear combination is a count and its terms in increasing order of the wire; a system is its two
input sizes, the number of constraints and the three combinations of each.  Names of constraints are
not written.

## Main definitions

* `LinearCombination.encode`, `LinearCombination.decode`.
* `ConstraintSystem.encode`, `ConstraintSystem.decode`.
-/

namespace MerkleSnark

namespace LinearCombination

/-- A count and the terms. -/
def encode (x : LinearCombination) : Except EncodeError Bytes := do
  let items ← x.terms.mapM fun t => return (← Encode.count t.1) ++ Encode.scalar t.2
  return (← Encode.count x.terms.length) ++ items.flatten

/-- One term over `numVariables` wires. -/
def decodeTerm (numVariables : Nat) : Decoder (Nat × Fr) := do
  let wire ← Decoder.count
  if wire ≥ numVariables then throw (.wireOutOfRange wire)
  return (wire, ← Decoder.scalar)

/-- A count and terms over `numVariables` wires, in any order and with repetitions. -/
def decode (numVariables : Nat) : Decoder LinearCombination := do
  return ofTerms (← Decoder.counted (decodeTerm numVariables))

end LinearCombination

/-- The three combinations. -/
def Constraint.encode (k : Constraint) : Except EncodeError Bytes := do
  return (← k.a.encode) ++ (← k.b.encode) ++ (← k.c.encode)

/-- Three combinations over `numVariables` wires. -/
def Constraint.decode (numVariables : Nat) : Decoder Constraint := do
  let a ← LinearCombination.decode numVariables
  let b ← LinearCombination.decode numVariables
  let c ← LinearCombination.decode numVariables
  return ⟨a, b, c, ""⟩

namespace ConstraintSystem

/-- The input sizes and the counted constraints. -/
def encode (cs : ConstraintSystem) : Except EncodeError Bytes := do
  let primary ← Encode.count cs.primarySize
  let auxiliary ← Encode.count cs.auxiliarySize
  let count ← Encode.count cs.numConstraints
  return primary ++ auxiliary ++ count ++ (← cs.constraints.mapM Constraint.encode).flatten

/-- Reads the input sizes and the counted constraints. -/
def decode : Decoder ConstraintSystem := do
  let primarySize ← Decoder.count
  let auxiliarySize ← Decoder.count
  let constraints ← Decoder.counted (Constraint.decode (1 + primarySize + auxiliarySize))
  return ⟨primarySize, auxiliarySize, constraints⟩

end ConstraintSystem

end MerkleSnark
