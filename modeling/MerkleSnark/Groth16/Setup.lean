import MerkleSnark.Curve.FixedBase
import MerkleSnark.Groth16.Key
import MerkleSnark.Groth16.Program
import MerkleSnark.Random.Source

/-!
# Key generation

The keys of a system are points whose exponents are expressions in five secrets.  The secrets are
drawn first; everything after them is a function of the system and the secrets.

## Main definitions

* `Secrets`, `Secrets.sample` — the five secrets, the evaluation point off the domain.
* `Tables`, `TableCache` — fixed-base tables of both generators, kept by the width of the window.
* `keysOf?` — the keys for given secrets and tables.
* `generate` — draws the secrets and makes the keys.
-/

namespace MerkleSnark.Groth16

open MerkleSnark.Polynomial

/-- The secrets of a key pair; whoever knows them can prove anything. -/
structure Secrets where
  /-- Shifts the left side of every proof. -/
  alpha : Fr
  /-- Shifts the right side of every proof. -/
  beta : Fr
  /-- Divides the public part. -/
  gamma : Fr
  /-- Divides the private part. -/
  delta : Fr
  /-- The point at which all polynomials are evaluated. -/
  tau : Fr
  deriving DecidableEq, Repr

/-- Draws until a scalar is off the domain of size `n`.  A uniform scalar lies on the domain with a
probability below `2 ^ -225`. -/
def drawOffDomain {σ : Type} [ScalarSource σ] (n : Nat) : StateM σ Fr := do
  let mut tau ← draw
  if vanishing n tau = 0 then
    repeat
      tau ← draw
    until vanishing n tau ≠ 0
  return tau

/-- Draws the five secrets in their order, for a domain of size `n`. -/
def Secrets.sample {σ : Type} [ScalarSource σ] (n : Nat) : StateM σ Secrets := do
  let alpha ← draw
  let beta ← draw
  let gamma ← draw
  let delta ← draw
  let tau ← drawOffDomain n
  return { alpha, beta, gamma, delta, tau }

/-- Tables of the two generators. -/
structure Tables (P Q : Type) where
  /-- The table of the first group. -/
  first : FixedBaseTable P
  /-- The table of the second group. -/
  second : FixedBaseTable Q

/-- The tables of the generators for a width. -/
def Tables.ofWindow (P Q : Type) [PointGroup P] [PointGroup Q] (window : Nat) : Tables P Q :=
  ⟨.ofBase PointGroup.generator window, .ofBase PointGroup.generator window⟩

/-- Tables that were made before, by their width. -/
abbrev TableCache (P Q : Type) := List (Nat × Tables P Q)

/-- The tables of a width, kept for the next time. -/
def TableCache.fetch {P Q : Type} [PointGroup P] [PointGroup Q] (window : Nat)
    (cache : TableCache P Q) : Tables P Q × TableCache P Q :=
  match cache.lookup window with
  | some tables => (tables, cache)
  | none =>
    let tables := Tables.ofWindow P Q window
    (tables, (window, tables) :: cache)

/-- The width of the windows for a system: it gives rise to about one product for every wire and
every point of the domain. -/
def tableWindow (cs : ConstraintSystem) : Nat :=
  fixedBaseWindow (cs.numVariables + domainSize cs.numConstraints)

/-- The values `(β · A + α · B + C) / d` of the wires, with `d` the divisor. -/
def combinedValues (s : Secrets) (divisor : Fr) (polys : Sides (List Fr)) : List Fr :=
  let inverse := divisor⁻¹
  List.zipWith (fun ab c => (ab + c) * inverse)
    (List.zipWith (fun a b => s.beta * a + s.alpha * b) polys.a polys.b) polys.c

/-- The values `τᵏ · Z(τ) / δ` for `k` up to `n - 2`. -/
def quotientBasis (s : Secrets) (n : Nat) : List Fr :=
  Fr.powersFrom (vanishing n s.tau / s.delta) s.tau (n - 1)

/-- The keys of a system for given secrets. -/
def keysOf? {P Q : Type} [PointGroup P] [PointGroup Q] (tables : Tables P Q)
    (cs : ConstraintSystem) (s : Secrets) :
    Except ProgramError (ProvingKey P Q × VerificationKey P Q) := do
  let n := domainSize cs.numConstraints
  let basis ← (lagrangeBasis? n s.tau).mapError .domain
  let polys ← wirePolynomials? cs basis
  let mul₁ := tables.first.mul
  let mul₂ := tables.second.mul
  let publicCount := cs.primarySize + 1
  let pk : ProvingKey P Q :=
    { system := cs
      domainSize := n
      alpha := mul₁ s.alpha
      beta := mul₁ s.beta
      betaTwist := mul₂ s.beta
      delta := mul₁ s.delta
      deltaTwist := mul₂ s.delta
      aQuery := polys.a.map mul₁
      bQuery := polys.b.map mul₁
      bTwistQuery := polys.b.map mul₂
      hQuery := (quotientBasis s n).map mul₁
      lQuery := ((combinedValues s s.delta polys).drop publicCount).map mul₁ }
  let vk : VerificationKey P Q :=
    { alpha := pk.alpha
      beta := pk.betaTwist
      gamma := mul₂ s.gamma
      delta := pk.deltaTwist
      ic := ((combinedValues s s.gamma polys).take publicCount).map mul₁ }
  return (pk, vk)

/-- Draws the secrets of a system and makes its keys. -/
def generate {σ P Q : Type} [ScalarSource σ] [PointGroup P] [PointGroup Q]
    (cs : ConstraintSystem) :
    StateM (σ × TableCache P Q) (Except ProgramError (ProvingKey P Q × VerificationKey P Q)) :=
  fun state =>
    let drawn := (Secrets.sample (domainSize cs.numConstraints)).run state.1
    let fetched := state.2.fetch (tableWindow cs)
    (keysOf? fetched.1 cs drawn.1, drawn.2, fetched.2)

end MerkleSnark.Groth16
