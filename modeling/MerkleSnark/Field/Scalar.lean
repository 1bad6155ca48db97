import MerkleSnark.Field.Residue

/-!
# The scalar field

Wire values, coefficients and secrets all live in the field whose size is the order of the pairing
groups.  Its multiplicative group has order `2 ^ 28 · odd`, so evaluation domains of every power of
two up to `2 ^ 28` exist inside it.

## Main definitions

* `Fr` — the scalar field.
* `Fr.generator` — a generator of the multiplicative group, also the shift of the coset domain.
* `Fr.exponent?` — the exponents of powers.
* `Fr.rootOfUnity?`, `Fr.rootsOfUnity?` — a primitive root of unity and its powers.
-/

namespace MerkleSnark

/-- The order of the pairing groups. -/
def scalarOrder : Nat :=
  21888242871839275222246405745257275088548364400416034343698204186575808495617

instance : Modulus scalarOrder := ⟨by decide⟩

/-- The field of scalars. -/
abbrev Fr := Residue scalarOrder

/-- Why there is no evaluation domain of a given size. -/
inductive DomainError
  /-- The size is not a power of two. -/
  | notPowerOfTwo (size : Int)
  /-- The size exceeds the two-power part of the multiplicative group. -/
  | tooLarge (size : Int)
  /-- The evaluation point is one of the points of the domain. -/
  | pointOnDomain
  /-- A transform of no values at all. -/
  | noValues
  deriving DecidableEq, Repr

/-- The wording of a refused domain. -/
def DomainError.message : DomainError → String
  | .notPowerOfTwo n => s!"n must be a power of two: {n}"
  | .tooLarge n => s!"n must not exceed 2^28: {n}"
  | .pointOnDomain => "tau lies on the evaluation domain"
  | .noValues => "no values to transform"

/-- Whether a number is a power of two: it has one binary digit that is set. -/
def isPowerOfTwo (n : Nat) : Bool := n != 0 && n &&& (n - 1) == 0

namespace Fr

/-- The number of binary digits of `scalarOrder`. -/
def bitLength : Nat := 254

/-- A generator of the multiplicative group. -/
def generator : Fr := .ofNat scalarOrder 5

/-- The size of the largest domain. -/
def maxDomainSize : Nat := 1 <<< 28

/-- The most binary digits of an exponent.  A power takes one step of a recursion for each. -/
def maxExponentBits : Nat := 990

/-- The exponent of a power that can be computed: not negative, and not too deep. -/
def exponent? (n : Int) : Option Nat :=
  if 0 ≤ n ∧ n.toNat.log2 < maxExponentBits then some n.toNat else none

/-- A primitive root of unity of order `n`, for the powers of two up to `maxDomainSize`. -/
def rootOfUnity? (n : Int) : Except DomainError Fr :=
  if n < 1 ∨ isPowerOfTwo n.toNat = false then .error (.notPowerOfTwo n)
  else if n > maxDomainSize then .error (.tooLarge n)
  else .ok (generator ^ ((scalarOrder - 1) / n.toNat))

/-- The powers `[1, x, …, x ^ (n - 1)]`, each times `c`. -/
def powersFrom (c x : Fr) : Nat → List Fr
  | 0 => []
  | n + 1 => c :: powersFrom (c * x) x n

@[simp] theorem length_powersFrom (c x : Fr) (n : Nat) : (powersFrom c x n).length = n := by
  induction n generalizing c with
  | zero => rfl
  | succ n ih => simp [powersFrom, ih]

/-- The whole domain of order `n`, as the powers of `rootOfUnity? n`. -/
def rootsOfUnity? (n : Int) : Except DomainError (List Fr) := do
  return powersFrom 1 (← rootOfUnity? n) n.toNat

end Fr

end MerkleSnark
