import MerkleSnark.Curve.Bn128

/-!
# The target field of the pairing

The extension of degree twelve is built in two steps over `Fq2`: a cubic one by `v³ = 9 + i` and a
quadratic one by `w² = v`.

## Main definitions

* `Fq6` — triples `c0 + c1 · v + c2 · v²`.
* `Fq12` — pairs `c0 + c1 · w`.
-/

namespace MerkleSnark

/-- The cubic extension of `Fq2` by `v³ = 9 + i`. -/
@[ext] structure Fq6 where
  /-- The constant coefficient. -/
  c0 : Fq2
  /-- The coefficient of `v`. -/
  c1 : Fq2
  /-- The coefficient of `v²`. -/
  c2 : Fq2
  deriving DecidableEq, Repr

namespace Fq6

instance : Zero Fq6 := ⟨⟨0, 0, 0⟩⟩
instance : One Fq6 := ⟨⟨1, 0, 0⟩⟩

/-- The sum. -/
def add (a b : Fq6) : Fq6 := ⟨a.c0 + b.c0, a.c1 + b.c1, a.c2 + b.c2⟩

/-- The difference. -/
def sub (a b : Fq6) : Fq6 := ⟨a.c0 - b.c0, a.c1 - b.c1, a.c2 - b.c2⟩

/-- The product.  Six products of coefficients give all nine: each mixed sum is a product of sums
less the two pure products. -/
def mul (a b : Fq6) : Fq6 :=
  let t0 := a.c0 * b.c0
  let t1 := a.c1 * b.c1
  let t2 := a.c2 * b.c2
  let s12 := (a.c1 + a.c2) * (b.c1 + b.c2) - t1 - t2
  let s01 := (a.c0 + a.c1) * (b.c0 + b.c1) - t0 - t1
  let s02 := (a.c0 + a.c2) * (b.c0 + b.c2) - t0 - t2
  ⟨t0 + Fq2.xi * s12, s01 + Fq2.xi * t2, s02 + t1⟩

instance : Add Fq6 := ⟨add⟩
instance : Sub Fq6 := ⟨sub⟩
instance : Mul Fq6 := ⟨mul⟩

/-- The product with `v`. -/
def mulV (a : Fq6) : Fq6 := ⟨Fq2.xi * a.c2, a.c0, a.c1⟩

/-- The product with an element of `Fq2`. -/
def scale (k : Fq2) (a : Fq6) : Fq6 := ⟨k * a.c0, k * a.c1, k * a.c2⟩

end Fq6

/-- The quadratic extension of `Fq6` by `w² = v`. -/
@[ext] structure Fq12 where
  /-- The constant coefficient. -/
  c0 : Fq6
  /-- The coefficient of `w`. -/
  c1 : Fq6
  deriving DecidableEq, Repr

namespace Fq12

instance : Zero Fq12 := ⟨⟨0, 0⟩⟩
instance : One Fq12 := ⟨⟨1, 0⟩⟩

/-- The product.  Three products of coefficients give all four. -/
def mul (a b : Fq12) : Fq12 :=
  let t0 := a.c0 * b.c0
  let t1 := a.c1 * b.c1
  ⟨t0 + t1.mulV, (a.c0 + a.c1) * (b.c0 + b.c1) - t0 - t1⟩

instance : Mul Fq12 := ⟨mul⟩

instance : HPow Fq12 Nat Fq12 := ⟨binaryPower⟩

/-- The product with an element of `Fq2`. -/
def scale (k : Fq2) (a : Fq12) : Fq12 := ⟨a.c0.scale k, a.c1.scale k⟩

/-- The sparse element `a + b · w + c · w³`. -/
def sparse (a b c : Fq2) : Fq12 := ⟨⟨a, 0, 0⟩, ⟨b, c, 0⟩⟩

/-- The sparse element `a + c · w²`. -/
def sparseEven (a c : Fq2) : Fq12 := ⟨⟨a, c, 0⟩, 0⟩

end Fq12

end MerkleSnark
