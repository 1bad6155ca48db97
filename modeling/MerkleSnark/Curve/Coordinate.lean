import MerkleSnark.Field.Residue

/-!
# Coordinate fields

Points of the first group have coordinates in a prime field, points of the second in its quadratic
extension by a square root of `-1`.

## Main definitions

* `Fq` — the prime field of coordinates.
* `Fq2` — pairs `re + im · i` with `i² = -1`.
-/

namespace MerkleSnark

/-- The characteristic of the coordinate fields. -/
def baseOrder : Nat :=
  21888242871839275222246405745257275088696311157297823662689037894645226208583

instance : Modulus baseOrder := ⟨by decide⟩

/-- The prime field of coordinates. -/
abbrev Fq := Residue baseOrder

/-- The quadratic extension of `Fq` by `i² = -1`. -/
@[ext] structure Fq2 where
  /-- The part in the prime field. -/
  re : Fq
  /-- The coefficient of `i`. -/
  im : Fq
  deriving DecidableEq, Repr

namespace Fq2

instance : Zero Fq2 := ⟨⟨0, 0⟩⟩
instance : One Fq2 := ⟨⟨1, 0⟩⟩
instance : Inhabited Fq2 := ⟨0⟩

/-- The sum. -/
def add (a b : Fq2) : Fq2 := ⟨a.re + b.re, a.im + b.im⟩

/-- The difference. -/
def sub (a b : Fq2) : Fq2 := ⟨a.re - b.re, a.im - b.im⟩

/-- The product. -/
def mul (a b : Fq2) : Fq2 := ⟨a.re * b.re - a.im * b.im, a.re * b.im + a.im * b.re⟩

instance : Add Fq2 := ⟨add⟩
instance : Sub Fq2 := ⟨sub⟩
instance : Neg Fq2 := ⟨fun a => ⟨-a.re, -a.im⟩⟩
instance : Mul Fq2 := ⟨mul⟩

/-- The conjugate `re - im · i`, which is also the image under the Frobenius map. -/
def conj (a : Fq2) : Fq2 := ⟨a.re, -a.im⟩

/-- The norm down to the prime field. -/
def norm (a : Fq2) : Fq := a.re * a.re + a.im * a.im

/-- A multiple by an element of the prime field. -/
def scale (c : Fq) (a : Fq2) : Fq2 := ⟨c * a.re, c * a.im⟩

/-- The conjugate over the norm, with `0⁻¹ = 0`. -/
instance : Inv Fq2 := ⟨fun a => scale a.norm⁻¹ a.conj⟩
instance : Div Fq2 := ⟨fun a b => a * b⁻¹⟩
instance : HPow Fq2 Nat Fq2 := ⟨binaryPower⟩

@[simp] theorem re_add (a b : Fq2) : (a + b).re = a.re + b.re := rfl
@[simp] theorem im_add (a b : Fq2) : (a + b).im = a.im + b.im := rfl
@[simp] theorem re_mul (a b : Fq2) : (a * b).re = a.re * b.re - a.im * b.im := rfl
@[simp] theorem im_mul (a b : Fq2) : (a * b).im = a.re * b.im + a.im * b.re := rfl

end Fq2

end MerkleSnark
