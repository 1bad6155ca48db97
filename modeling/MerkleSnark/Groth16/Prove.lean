import MerkleSnark.Curve.MultiExp
import MerkleSnark.Curve.Pairing
import MerkleSnark.Groth16.Key
import MerkleSnark.Groth16.Program
import MerkleSnark.Random.Source

/-!
# Proving and verifying

A proof is a function of the key, the wire values, the quotient polynomial and two blinding scalars.
The blinding is drawn only after everything that can refuse the inputs.

A proof is accepted when `e(A, B) = e(α, β) · e(x, γ) · e(C, δ)`, where `x` commits to the public
inputs.  With three points negated this is one product of pairings compared with one.

## Main definitions

* `proofOf?` — the proof for given blinding scalars.
* `prove` — draws the blinding scalars and makes the proof.
* `commitment?` — the commitment to public inputs.
* `verify` — the decision.
-/

namespace MerkleSnark.Groth16

open PointGroup

/-! ### Proving -/

/-- Why there is no proof. -/
inductive ProveError
  /-- The inputs do not fit the system, or the system has no domain. -/
  | program (cause : ProgramError)
  /-- A list of the key has the wrong length. -/
  | lengths (cause : LengthMismatch)
  deriving DecidableEq, Repr

/-- The wording of a failure. -/
def ProveError.message : ProveError → String
  | .program cause => cause.message
  | .lengths cause => cause.message

/-- The proof for wire values `w`, quotient `h` and blinding scalars `r` and `s`. -/
def proofOf? {P Q : Type} [PointGroup P] [PointGroup Q] (pk : ProvingKey P Q) (w h : List Fr)
    (r s : Fr) : Except LengthMismatch (Proof P Q) := do
  let a := add (add pk.alpha (← multiExp pk.aQuery w)) (smul r pk.delta)
  let b := add (add pk.betaTwist (← multiExp pk.bTwistQuery w)) (smul s pk.deltaTwist)
  let b₁ := add (add pk.beta (← multiExp pk.bQuery w)) (smul s pk.delta)
  let hidden ← multiExp pk.lQuery (w.drop (pk.system.primarySize + 1))
  let quotient ← multiExp pk.hQuery h
  let blinded := add (add (add hidden quotient) (smul s a)) (smul r b₁)
  return ⟨a, b, add blinded (neg (smul (r * s) pk.delta))⟩

/-- Proves that the primary inputs extend to a satisfying assignment, namely by the auxiliary
ones. -/
def prove {σ P Q : Type} [ScalarSource σ] [PointGroup P] [PointGroup Q] (pk : ProvingKey P Q)
    (primary auxiliary : List Fr) : ExceptT ProveError (StateM σ) (Proof P Q) := do
  let w ← ((pk.system.assignment? primary auxiliary).mapError
    fun e => .program (.assignment e) : Except ProveError _)
  let h ← ((quotient? pk.system w pk.domainSize).mapError .program : Except ProveError _)
  let r ← (draw : StateM σ Fr)
  let s ← (draw : StateM σ Fr)
  ((proofOf? pk w.toList h r s).mapError .lengths : Except ProveError _)

/-! ### Verifying -/

/-- Why a proof cannot be judged. -/
inductive VerifyError
  /-- The number of public inputs is wrong. -/
  | publicCount (expected : Int) (found : Nat)
  /-- Two points cannot be paired. -/
  | pairing (cause : PairingError)
  deriving DecidableEq, Repr

/-- The wording of a failure. -/
def VerifyError.message : VerifyError → String
  | .publicCount expected found => s!"expected {expected} public inputs, got {found}"
  | .pairing cause => cause.message

/-- The commitment `IC₀ + Σ xᵢ · ICᵢ` to the public inputs. -/
def commitment? {P Q : Type} [PointGroup P] (vk : VerificationKey P Q) (inputs : List Fr) :
    Except VerifyError P :=
  match vk.ic with
  | [] => .error (.publicCount (-1) inputs.length)
  | constant :: rest =>
    (multiExp rest inputs).map (add constant)
      |>.mapError fun e => .publicCount e.points e.scalars

/-- Whether a proof is accepted for the public inputs. -/
def verify {P Q T : Type} [PointGroup P] [Pairing P Q T] (vk : VerificationKey P Q)
    (inputs : List Fr) (proof : Proof P Q) : Except VerifyError Bool := do
  let committed ← commitment? vk inputs
  (pairingProductIsOne (P := P)
    [(proof.b, proof.a), (vk.beta, neg vk.alpha), (vk.gamma, neg committed),
      (vk.delta, neg proof.c)]).mapError .pairing

end MerkleSnark.Groth16
