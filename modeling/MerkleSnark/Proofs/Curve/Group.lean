import Mathlib
import MerkleSnark.Curve.Group
import MerkleSnark.Proofs.Field.Scalar

/-!
# Points as representatives of group elements

Several points may represent one element of the group, so the laws of the group hold of the
elements and not of the points.  A model of the operations says which element a point stands for.
With a generator of prime order a point is then known by its exponent.

## Main definitions

* `PointGroup.Model` — the elements that points represent.
* `PointGroup.Model.Denotes` — a point is valid and represents an element.
* `PointGroup.Model.Exponent` — a point represents a multiple of the generator.

## Main results

* `Model.Denotes.multiple` — double-and-add computes a multiple.
* `Model.Exponent.add`, `Model.Exponent.smul` — the operations on exponents.
-/

namespace MerkleSnark.PointGroup

/-- A reading of valid points as elements of an abelian group, under which the operations on points
are those of the group. -/
structure Model (P : Type) [PointGroup P] (A : Type) [AddCommGroup A] where
  /-- The point represents an element. -/
  Valid : P → Prop
  /-- The element that a valid point represents. -/
  value : P → A
  valid_generator : Valid generator
  infinity : Valid infinity ∧ value infinity = 0
  add : ∀ {p q : P}, Valid p → Valid q → Valid (add p q) ∧ value (add p q) = value p + value q
  double : ∀ {p : P}, Valid p → Valid (double p) ∧ value (double p) = value p + value p
  neg : ∀ {p : P}, Valid p → Valid (neg p) ∧ value (neg p) = -value p
  isInfinity_iff : ∀ {p : P}, Valid p → (isInfinity p = true ↔ value p = 0)

namespace Model

variable {P : Type} [PointGroup P] {A : Type} [AddCommGroup A] (L : Model P A)

/-- The element that the generator represents. -/
def base : A := L.value PointGroup.generator

/-- The point is valid and represents the element. -/
def Denotes (p : P) (a : A) : Prop := L.Valid p ∧ L.value p = a

variable {L}

namespace Denotes

variable {p q : P} {a b : A}

theorem of_valid (h : L.Valid p) : L.Denotes p (L.value p) := ⟨h, rfl⟩

theorem generator : L.Denotes PointGroup.generator L.base := of_valid L.valid_generator

theorem infinity : L.Denotes PointGroup.infinity 0 := L.infinity

theorem add (hp : L.Denotes p a) (hq : L.Denotes q b) :
    L.Denotes (PointGroup.add p q) (a + b) := by
  obtain ⟨hvalid, hvalue⟩ := L.add hp.1 hq.1
  exact ⟨hvalid, by rw [hvalue, hp.2, hq.2]⟩

theorem double (hp : L.Denotes p a) : L.Denotes (PointGroup.double p) (a + a) := by
  obtain ⟨hvalid, hvalue⟩ := L.double hp.1
  exact ⟨hvalid, by rw [hvalue, hp.2]⟩

theorem neg (hp : L.Denotes p a) : L.Denotes (PointGroup.neg p) (-a) := by
  obtain ⟨hvalid, hvalue⟩ := L.neg hp.1
  exact ⟨hvalid, by rw [hvalue, hp.2]⟩

theorem isInfinity_iff (hp : L.Denotes p a) : isInfinity p = true ↔ a = 0 := by
  rw [L.isInfinity_iff hp.1, hp.2]

/-- **Double-and-add computes a multiple.** -/
theorem multiple (h : L.Denotes p a) (n : ℕ) :
    L.Denotes (PointGroup.multiple p n) (n • a) := by
  induction p, n using PointGroup.multiple.induct generalizing a with
  | case1 p =>
    rw [PointGroup.multiple, if_pos rfl, zero_nsmul]
    exact infinity
  | case2 p hne =>
    rw [PointGroup.multiple, if_neg hne, if_pos rfl, one_nsmul]
    exact h
  | case3 p n hne hone heven ih =>
    have hhalf : n • a = (n / 2) • (a + a) := by
      rw [← two_nsmul, smul_smul, Nat.div_mul_cancel (Nat.dvd_of_mod_eq_zero heven)]
    rw [PointGroup.multiple, if_neg hne, if_neg hone, if_pos heven, hhalf]
    exact ih h.double
  | case4 p n hne hone hodd ih =>
    have hhalf : n • a = (n / 2) • (a + a) + a := by
      rw [← two_nsmul, smul_smul, ← succ_nsmul]
      congr 1
      omega
    rw [PointGroup.multiple, if_neg hne, if_neg hone, if_neg hodd, hhalf]
    exact (ih h.double).add h

theorem smul (h : L.Denotes p a) (k : Fr) : L.Denotes (PointGroup.smul k p) (k.val • a) :=
  h.multiple k.val

end Denotes

/-! ### Exponents -/

variable (L)

/-- The point represents the multiple of the generator by `k`. -/
def Exponent (p : P) (k : Fr) : Prop := L.Denotes p (k.val • L.base)

variable {L}

theorem natCast_val_nsmul (horder : addOrderOf L.base = scalarOrder) (n : ℕ) :
    (n : Fr).val • L.base = n • L.base := by
  rw [Residue.val_natCast, ← horder, mod_addOrderOf_nsmul]

theorem add_val_nsmul (horder : addOrderOf L.base = scalarOrder) (k l : Fr) :
    (k + l).val • L.base = k.val • L.base + l.val • L.base := by
  rw [← add_nsmul, ← natCast_val_nsmul horder (k.val + l.val), Nat.cast_add,
    Residue.natCast_val, Residue.natCast_val]

theorem mul_val_nsmul (horder : addOrderOf L.base = scalarOrder) (k l : Fr) :
    (k * l).val • L.base = k.val • l.val • L.base := by
  rw [smul_smul, ← natCast_val_nsmul horder (k.val * l.val), Nat.cast_mul,
    Residue.natCast_val, Residue.natCast_val]

/-- The exponents of elements, as a homomorphism. -/
def exponentHom (horder : addOrderOf L.base = scalarOrder) : Fr →+ A where
  toFun k := k.val • L.base
  map_zero' := zero_nsmul _
  map_add' := add_val_nsmul horder

theorem neg_val_nsmul (horder : addOrderOf L.base = scalarOrder) (k : Fr) :
    (-k).val • L.base = -(k.val • L.base) :=
  map_neg (L.exponentHom horder) k

namespace Exponent

theorem generator : L.Exponent PointGroup.generator 1 := by
  have h : (1 : Fr).val • L.base = L.base := one_nsmul _
  rw [Exponent, h]
  exact Denotes.generator

theorem infinity : L.Exponent PointGroup.infinity 0 := by
  have h : (0 : Fr).val • L.base = 0 := zero_nsmul _
  rw [Exponent, h]
  exact Denotes.infinity

variable {p q : P} {k l : Fr} (horder : addOrderOf L.base = scalarOrder)

include horder

theorem add (hp : L.Exponent p k) (hq : L.Exponent q l) :
    L.Exponent (PointGroup.add p q) (k + l) := by
  rw [Exponent, add_val_nsmul horder]
  exact Denotes.add hp hq

theorem neg (hp : L.Exponent p k) : L.Exponent (PointGroup.neg p) (-k) := by
  rw [Exponent, neg_val_nsmul horder]
  exact Denotes.neg hp

theorem smul (hp : L.Exponent p k) (l : Fr) : L.Exponent (PointGroup.smul l p) (l * k) := by
  rw [Exponent, mul_val_nsmul horder]
  exact Denotes.smul hp l

end Exponent

end Model

end MerkleSnark.PointGroup
