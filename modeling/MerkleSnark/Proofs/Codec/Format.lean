import Mathlib
import MerkleSnark.Codec.Key
import MerkleSnark.Proofs.Curve.Bn128

/-!
# The format of the artifacts

What bytes stand for a value, said without reading them: every relation cuts its bytes into the
pieces that the format names.  The relations are the language that the readers accept, so they leave
open what the readers leave open: the order of terms and their repetition, the coordinate bytes of a
point at infinity, and multiples of the characteristic in a coordinate.

## Main definitions

* `Spells.uint`, `Spells.scalar`, `Spells.listOf`, `Spells.counted` — numbers and lists.
* `G1.Spells`, `G2.Spells` — points.
* `LinearCombination.Spells`, `Constraint.Spells`, `ConstraintSystem.Spells` — systems.
* `ProvingKey.Spells`, `VerificationKey.Spells`, `Proof.Spells` — artifacts.
-/

namespace MerkleSnark

namespace Spells

variable {α : Type}

/-- A big-endian number in `size` bytes. -/
def uint (size : ℕ) (bs : Bytes) (n : ℕ) : Prop := bs.length = size ∧ bs.toNat = n

/-- A scalar in thirty-two bytes, reduced. -/
def scalar (bs : Bytes) (x : Fr) : Prop := uint 32 bs x.val

/-- Values one after another. -/
def listOf (item : Bytes → α → Prop) (bs : Bytes) (as : List α) : Prop :=
  ∃ bss, bs = bss.flatten ∧ List.Forall₂ item bss as

/-- The number of values in four bytes, and the values. -/
inductive counted (item : Bytes → α → Prop) : Bytes → List α → Prop
  | mk {count items : Bytes} {as : List α} (hcount : uint 4 count as.length)
      (hitems : listOf item items as) : counted item (count ++ items) as

/-- The mark, the kind and the version. -/
def header (kind : UInt8) : Bytes := artifactMagic ++ [kind, 1]

end Spells

/-! ### Points -/

namespace G1

/-- Flag zero and any coordinates, or flag one and the coordinates of a point of the curve, taken
modulo the characteristic. -/
inductive Spells : Bytes → G1 → Prop
  | atInfinity {x y : Bytes} (hx : x.length = 32) (hy : y.length = 32) :
    Spells (infinityFlag :: (x ++ y)) .infinity
  | finite {x y : Bytes} (hx : x.length = 32) (hy : y.length = 32)
    (hcurve : (Point.ofAffine (x.toNat : Fq) (y.toNat : Fq)).OnCurve coefficient) :
    Spells (finiteFlag :: (x ++ y)) (.ofAffine (x.toNat : Fq) (y.toNat : Fq))

end G1

namespace G2

/-- Flag zero and any coordinates, or flag one and the coordinates of a point of the twist, taken
modulo the characteristic. -/
inductive Spells : Bytes → G2 → Prop
  | atInfinity {xRe xIm yRe yIm : Bytes} (hxRe : xRe.length = 32) (hxIm : xIm.length = 32)
    (hyRe : yRe.length = 32) (hyIm : yIm.length = 32) :
    Spells (infinityFlag :: (xRe ++ xIm ++ yRe ++ yIm)) .infinity
  | finite {xRe xIm yRe yIm : Bytes} (hxRe : xRe.length = 32) (hxIm : xIm.length = 32)
    (hyRe : yRe.length = 32) (hyIm : yIm.length = 32)
    (hcurve : (Point.ofAffine (⟨xRe.toNat, xIm.toNat⟩ : Fq2) ⟨yRe.toNat, yIm.toNat⟩).OnCurve
      coefficient) :
    Spells (finiteFlag :: (xRe ++ xIm ++ yRe ++ yIm))
      (.ofAffine ⟨xRe.toNat, xIm.toNat⟩ ⟨yRe.toNat, yIm.toNat⟩)

theorem Spells.onCurve {bs : Bytes} {q : G2} (h : Spells bs q) : q.OnCurve coefficient := by
  cases h with
  | atInfinity => exact Point.onCurve_infinity
  | finite _ _ _ _ hcurve => exact hcurve

end G2

/-! ### Constraint systems -/

namespace LinearCombination

/-- A wire below the bound in four bytes, and a coefficient. -/
inductive SpellsTerm (bound : ℕ) : Bytes → ℕ × Fr → Prop
  | mk {wire coefficient : Bytes} {t : ℕ × Fr} (hwire : Spells.uint 4 wire t.1) (hlt : t.1 < bound)
    (hcoefficient : Spells.scalar coefficient t.2) : SpellsTerm bound (wire ++ coefficient) t

/-- Counted terms, which are summed up. -/
inductive Spells (bound : ℕ) : Bytes → LinearCombination → Prop
  | mk {bs : Bytes} {terms : List (ℕ × Fr)} (h : Spells.counted (SpellsTerm bound) bs terms) :
    Spells bound bs (ofTerms terms)

end LinearCombination

/-- Three combinations; a constraint that is read has no name. -/
inductive Constraint.Spells (bound : ℕ) : Bytes → Constraint → Prop
  | mk {aBytes bBytes cBytes : Bytes} {a b c : LinearCombination}
    (ha : LinearCombination.Spells bound aBytes a) (hb : LinearCombination.Spells bound bBytes b)
    (hc : LinearCombination.Spells bound cBytes c) :
    Spells bound (aBytes ++ bBytes ++ cBytes) ⟨a, b, c, ""⟩

/-- The two input sizes and the counted constraints, over the wires that exist. -/
inductive ConstraintSystem.Spells : Bytes → ConstraintSystem → Prop
  | mk {primary auxiliary constraints : Bytes} {cs : ConstraintSystem}
    (hprimary : Spells.uint 4 primary cs.primarySize)
    (hauxiliary : Spells.uint 4 auxiliary cs.auxiliarySize)
    (hconstraints : Spells.counted (Constraint.Spells (1 + cs.primarySize + cs.auxiliarySize))
      constraints cs.constraints) :
    Spells (primary ++ auxiliary ++ constraints) cs

/-! ### Artifacts -/

namespace Groth16

/-- The header of kind one and the fields in order.  The size of the domain is a power of two and at
least the number of constraints, and the lists have the lengths that the system asks for. -/
inductive ProvingKey.Spells : Bytes → ProvingKey G1 G2 → Prop
  | mk {system size alpha beta betaTwist delta deltaTwist a b bTwist h l : Bytes}
    {pk : ProvingKey G1 G2} (hsystem : pk.system.Spells system)
    (hsize : Spells.uint 4 size pk.domainSize) (hpower : ∃ k, pk.domainSize = 2 ^ k)
    (hle : pk.system.numConstraints ≤ pk.domainSize)
    (halpha : G1.Spells alpha pk.alpha) (hbeta : G1.Spells beta pk.beta)
    (hbetaTwist : G2.Spells betaTwist pk.betaTwist) (hdelta : G1.Spells delta pk.delta)
    (hdeltaTwist : G2.Spells deltaTwist pk.deltaTwist)
    (ha : Spells.counted G1.Spells a pk.aQuery)
    (hb : Spells.counted G1.Spells b pk.bQuery)
    (hbTwist : Spells.counted G2.Spells bTwist pk.bTwistQuery)
    (hh : Spells.counted G1.Spells h pk.hQuery) (hl : Spells.counted G1.Spells l pk.lQuery)
    (halen : pk.aQuery.length = pk.system.numVariables)
    (hblen : pk.bQuery.length = pk.system.numVariables)
    (hbTwistlen : pk.bTwistQuery.length = pk.system.numVariables)
    (hhlen : pk.hQuery.length = pk.domainSize - 1)
    (hllen : pk.lQuery.length = pk.system.auxiliarySize) :
    Spells (Spells.header 1 ++ system ++ size ++ alpha ++ beta ++ betaTwist ++ delta ++ deltaTwist
      ++ a ++ b ++ bTwist ++ h ++ l) pk

/-- The header of kind two and the fields in order; the list is not empty. -/
inductive VerificationKey.Spells : Bytes → VerificationKey G1 G2 → Prop
  | mk {alpha beta gamma delta ic : Bytes} {vk : VerificationKey G1 G2}
    (halpha : G1.Spells alpha vk.alpha) (hbeta : G2.Spells beta vk.beta)
    (hgamma : G2.Spells gamma vk.gamma) (hdelta : G2.Spells delta vk.delta)
    (hic : Spells.counted G1.Spells ic vk.ic) (hne : vk.ic ≠ []) :
    Spells (Spells.header 2 ++ alpha ++ beta ++ gamma ++ delta ++ ic) vk

/-- The header of kind three and the points in order; the order of the second divides that of the
scalars. -/
inductive Proof.Spells : Bytes → Proof G1 G2 → Prop
  | mk {a b c : Bytes} {proof : Proof G1 G2} (ha : G1.Spells a proof.a) (hb : G2.Spells b proof.b)
    (horder : scalarOrder • proof.b.element G2.coefficient = 0) (hc : G1.Spells c proof.c) :
    Spells (Spells.header 3 ++ a ++ b ++ c) proof

end Groth16

end MerkleSnark
