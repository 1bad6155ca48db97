import MerkleSnark.Constraint.System

/-!
# Keys and proofs

## Main definitions

* `ProvingKey`, `VerificationKey` — the two halves of a reference string.
* `Proof` — three points.
-/

namespace MerkleSnark.Groth16

/-- What a prover needs.  In the comments `A`, `B`, `C` are the polynomials of a wire at the secret
point `τ`, and `Z` is the polynomial that vanishes on the domain of size `n`. -/
structure ProvingKey (P Q : Type) where
  /-- The system the key was made for. -/
  system : ConstraintSystem
  /-- The size `n` of the evaluation domain. -/
  domainSize : Nat
  /-- The point `α` in the first group. -/
  alpha : P
  /-- The point `β` in the first group. -/
  beta : P
  /-- The point `β` in the second group. -/
  betaTwist : Q
  /-- The point `δ` in the first group. -/
  delta : P
  /-- The point `δ` in the second group. -/
  deltaTwist : Q
  /-- For every wire, `A(τ)` in the first group. -/
  aQuery : List P
  /-- For every wire, `B(τ)` in the first group. -/
  bQuery : List P
  /-- For every wire, `B(τ)` in the second group. -/
  bTwistQuery : List Q
  /-- The points `τᵏ · Z(τ) / δ` for `k` up to `n - 2`. -/
  hQuery : List P
  /-- For every private wire, `(β · A(τ) + α · B(τ) + C(τ)) / δ`. -/
  lQuery : List P

/-- What a verifier needs. -/
structure VerificationKey (P Q : Type) where
  /-- The point `α` in the first group. -/
  alpha : P
  /-- The point `β` in the second group. -/
  beta : Q
  /-- The point `γ` in the second group. -/
  gamma : Q
  /-- The point `δ` in the second group. -/
  delta : Q
  /-- For the constant wire and every public one, `(β · A(τ) + α · B(τ) + C(τ)) / γ`. -/
  ic : List P

/-- The number of public inputs a key is for; the entry of the constant wire is not counted. -/
def VerificationKey.numPublicInputs {P Q : Type} (vk : VerificationKey P Q) : Nat :=
  vk.ic.length - 1

/-- A proof. -/
structure Proof (P Q : Type) where
  /-- The first point. -/
  a : P
  /-- The point in the second group. -/
  b : Q
  /-- The third point. -/
  c : P

end MerkleSnark.Groth16
