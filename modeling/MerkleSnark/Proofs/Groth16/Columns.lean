import Mathlib
import MerkleSnark.Proofs.Groth16.Setup

/-!
# Polynomials of single wires

The column of a wire on one side of a system holds its coefficients in the constraints, one after
another.  Its polynomial takes these values on the evaluation domain, and zero where there is no
constraint left.  The values that key generation computes are those of the column polynomials of all
wires, in the order of the wires.

## Main definitions

* `LinearCombination.coefficient` — the coefficient of a wire.
* `IsColumnPolynomial`, `columnPolynomial` — the polynomial of a wire on one side.
* `combinedAt` — the value `β · Aᵢ + α · Bᵢ + Cᵢ` at the evaluation point.

## Main results

* `IsColumnPolynomial.eq_columnPolynomial` — there is only one such polynomial.
* `IsWirePolynomials.a_eq` and its like — the values that key generation computes.
* `combinedValues_eq` — the combined values, by wires.
-/

open Polynomial

namespace MerkleSnark

/-- The coefficient of a wire, the sum over its terms. -/
def LinearCombination.coefficient (x : LinearCombination) (i : ℕ) : Fr :=
  ((x.terms.filter fun t => t.1 = i).map Prod.snd).sum

/-- The coefficient of a wire is the value when this wire alone carries one. -/
theorem LinearCombination.eval_eq_coefficient {w : ℕ → Fr} {i : ℕ} (hi : w i = 1)
    (hother : ∀ j, j ≠ i → w j = 0) (x : LinearCombination) : x.eval w = x.coefficient i := by
  obtain ⟨terms⟩ := x
  rw [eval_eq_sum, coefficient]
  induction terms with
  | nil => rfl
  | cons t ts ih =>
    change t.2 * w t.1 + (ts.map fun t => t.2 * w t.1).sum
      = (((t :: ts).filter fun t => t.1 = i).map Prod.snd).sum
    rw [ih, List.filter_cons]
    by_cases ht : t.1 = i
    · rw [if_pos (decide_eq_true ht), List.map_cons, List.sum_cons, ht, hi, mul_one]
    · rw [if_neg (by rwa [decide_eq_true_iff]), hother t.1 ht, mul_zero, zero_add]

namespace Groth16

open MerkleSnark.Polynomial

variable {cs : ConstraintSystem} {n i : ℕ} {side : Constraint → LinearCombination}

/-- The root of unity of a domain for up to `2 ^ 28` constraints has the size of the domain as its
order. -/
theorem isPrimitiveRoot_root_domainSize {count : ℕ} (h : count ≤ 2 ^ 28) :
    IsPrimitiveRoot (Fr.root (domainSize count)) (domainSize count) := by
  obtain ⟨k, hsize, -, -, hk⟩ := exists_domainSize_eq count
  rw [hsize]
  exact Fr.isPrimitiveRoot_root (hk h)

/-! ### Columns -/

/-- The coefficient of wire `i` on one side of constraint `j`, zero past the last constraint. -/
def columnEntry (cs : ConstraintSystem) (side : Constraint → LinearCombination) (i j : ℕ) : Fr :=
  (cs.constraints[j]?.map fun k => (side k).coefficient i).getD 0

/-- The polynomial of wire `i` on one side: its degree is below the size of the domain, and its
values on the domain are the coefficients of the wire. -/
structure IsColumnPolynomial (cs : ConstraintSystem) (n : ℕ)
    (side : Constraint → LinearCombination) (i : ℕ) (f : Fr[X]) : Prop where
  degree_lt : f.degree < (n : WithBot ℕ)
  eval_root_pow : ∀ j < n, f.eval (Fr.root n ^ j) = columnEntry cs side i j

/-- The interpolant of a column. -/
noncomputable def columnPolynomial (cs : ConstraintSystem) (n : ℕ)
    (side : Constraint → LinearCombination) (i : ℕ) : Fr[X] :=
  interpolant (Fr.root n) n (columnEntry cs side i)

theorem isColumnPolynomial (hroot : IsPrimitiveRoot (Fr.root n) n) (cs : ConstraintSystem)
    (side : Constraint → LinearCombination) (i : ℕ) :
    IsColumnPolynomial cs n side i (columnPolynomial cs n side i) where
  degree_lt := degree_interpolant_lt hroot _
  eval_root_pow _ hj := eval_interpolant hroot _ hj

/-- **There is only one polynomial of a column.** -/
theorem IsColumnPolynomial.eq_columnPolynomial (hroot : IsPrimitiveRoot (Fr.root n) n) {f : Fr[X]}
    (hf : IsColumnPolynomial cs n side i f) : f = columnPolynomial cs n side i :=
  eq_interpolant hroot hf.degree_lt hf.eval_root_pow

/-! ### The wire that alone carries one -/

/-- The values of the wires up to `i` when only this one carries one. -/
def soleWire (i : ℕ) : List Fr := List.replicate i 0 ++ [1]

theorem wireValues_soleWire_self (i : ℕ) : wireValues (soleWire i) i = 1 := by
  rw [wireValues, soleWire, List.getD_append_right _ _ _ _ (by rw [List.length_replicate]),
    List.length_replicate, Nat.sub_self, List.getD_cons_zero]

theorem wireValues_soleWire_of_ne {j : ℕ} (h : j ≠ i) : wireValues (soleWire i) j = 0 := by
  rw [wireValues, soleWire, List.getD_eq_getElem?_getD]
  rcases Nat.lt_or_gt_of_ne h with h | h
  · rw [List.getElem?_append_left (by rwa [List.length_replicate]), List.getElem?_replicate,
      if_pos h, Option.getD_some]
  · rw [List.getElem?_eq_none (by simp; omega), Option.getD_none]

theorem dot_soleWire (xs : List Fr) (i : ℕ) : dot xs (soleWire i) = xs.getD i 0 := by
  induction i generalizing xs with
  | zero => cases xs <;> simp [soleWire]
  | succ i ih =>
    cases xs with
    | nil => simp
    | cons x xs =>
      have hsole : soleWire (i + 1) = 0 :: soleWire i := rfl
      rw [hsole, dot_cons, mul_zero, zero_add, ih, List.getD_cons_succ]

/-- The polynomial of a side is that of a column when only this wire carries one. -/
theorem sidePolynomial_soleWire (cs : ConstraintSystem) (n : ℕ)
    (side : Constraint → LinearCombination) (i : ℕ) :
    sidePolynomial cs (soleWire i) n side = columnPolynomial cs n side i := by
  have hvalues : sideValue cs (soleWire i) side = columnEntry cs side i := by
    funext j
    rw [sideValue, columnEntry, List.getD_eq_getElem?_getD, List.getElem?_map]
    simp only [LinearCombination.eval_eq_coefficient (wireValues_soleWire_self i)
      fun j hj => wireValues_soleWire_of_ne hj]
  rw [sidePolynomial, columnPolynomial, hvalues]

/-! ### Values at the evaluation point -/

variable {tau : Fr} {polys : Sides (List Fr)}

/-- A list whose inner products are the values of the side polynomials holds the values of the
column polynomials. -/
theorem eq_map_columnPolynomial {xs : List Fr} {m : ℕ} (hlen : xs.length = m)
    (hdot : ∀ ws, dot xs ws = (sidePolynomial cs ws n side).eval tau) :
    xs = (List.range m).map fun i => (columnPolynomial cs n side i).eval tau := by
  refine List.ext_getElem (by rw [List.length_map, List.length_range, hlen]) fun i hi _ => ?_
  have hsole := hdot (soleWire i)
  rw [dot_soleWire, sidePolynomial_soleWire, List.getD_eq_getElem _ _ hi] at hsole
  rw [hsole, List.getElem_map, List.getElem_range]

namespace IsWirePolynomials

variable (h : IsWirePolynomials cs n tau polys)
include h

theorem a_eq : polys.a = (List.range cs.numVariables).map fun i =>
    (columnPolynomial cs n Constraint.a i).eval tau :=
  eq_map_columnPolynomial h.length_a h.dot_a

theorem b_eq : polys.b = (List.range cs.numVariables).map fun i =>
    (columnPolynomial cs n Constraint.b i).eval tau :=
  eq_map_columnPolynomial h.length_b h.dot_b

theorem c_eq : polys.c = (List.range cs.numVariables).map fun i =>
    (columnPolynomial cs n Constraint.c i).eval tau :=
  eq_map_columnPolynomial h.length_c h.dot_c

end IsWirePolynomials

/-- The column polynomials of the three sides. -/
noncomputable def columnPolynomials (cs : ConstraintSystem) (n : ℕ) : Sides (ℕ → Fr[X]) :=
  ⟨columnPolynomial cs n Constraint.a, columnPolynomial cs n Constraint.b,
    columnPolynomial cs n Constraint.c⟩

/-- Polynomials for every wire, on each side that of its column. -/
structure AreColumnPolynomials (cs : ConstraintSystem) (n : ℕ) (p : Sides (ℕ → Fr[X])) : Prop where
  a : ∀ i, IsColumnPolynomial cs n Constraint.a i (p.a i)
  b : ∀ i, IsColumnPolynomial cs n Constraint.b i (p.b i)
  c : ∀ i, IsColumnPolynomial cs n Constraint.c i (p.c i)

theorem areColumnPolynomials (hroot : IsPrimitiveRoot (Fr.root n) n) (cs : ConstraintSystem) :
    AreColumnPolynomials cs n (columnPolynomials cs n) where
  a := isColumnPolynomial hroot cs Constraint.a
  b := isColumnPolynomial hroot cs Constraint.b
  c := isColumnPolynomial hroot cs Constraint.c

/-- There are no others. -/
theorem AreColumnPolynomials.eq_columnPolynomials {p : Sides (ℕ → Fr[X])}
    (hp : AreColumnPolynomials cs n p) (hroot : IsPrimitiveRoot (Fr.root n) n) :
    p = columnPolynomials cs n := by
  obtain ⟨a, b, c⟩ := p
  obtain ⟨ha, hb, hc⟩ := hp
  have ha : a = columnPolynomial cs n Constraint.a :=
    funext fun i => (ha i).eq_columnPolynomial hroot
  have hb : b = columnPolynomial cs n Constraint.b :=
    funext fun i => (hb i).eq_columnPolynomial hroot
  have hc : c = columnPolynomial cs n Constraint.c :=
    funext fun i => (hc i).eq_columnPolynomial hroot
  rw [ha, hb, hc, columnPolynomials]

/-- The value `β · Aᵢ + α · Bᵢ + Cᵢ` at the evaluation point. -/
noncomputable def combinedAt (s : Secrets) (p : Sides (ℕ → Fr[X])) (i : ℕ) : Fr :=
  s.beta * (p.a i).eval s.tau + s.alpha * (p.b i).eval s.tau + (p.c i).eval s.tau

theorem undividedValues_eq {s : Secrets} (h : IsWirePolynomials cs n s.tau polys) :
    undividedValues s polys
      = (List.range cs.numVariables).map (combinedAt s (columnPolynomials cs n)) := by
  rw [undividedValues, h.a_eq, h.b_eq, h.c_eq, List.zipWith_map, List.zipWith_self,
    List.zipWith_map, List.zipWith_self]
  rfl

/-- **The combined values**, by wires. -/
theorem combinedValues_eq {s : Secrets} (h : IsWirePolynomials cs n s.tau polys) (divisor : Fr) :
    combinedValues s divisor polys = (List.range cs.numVariables).map fun i =>
      combinedAt s (columnPolynomials cs n) i / divisor := by
  rw [combinedValues_eq_map, undividedValues_eq h, List.map_map]
  refine List.map_congr_left fun i _ => ?_
  rw [Function.comp_apply, div_eq_mul_inv]

end Groth16

end MerkleSnark
