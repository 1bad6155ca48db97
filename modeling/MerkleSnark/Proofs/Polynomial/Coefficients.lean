import Mathlib
import MerkleSnark.Polynomial.Domain
import MerkleSnark.Proofs.Field.Scalar

/-!
# Coefficient lists as polynomials

A list of scalars stands for the polynomial with these coefficients, the lowest first.  What the
transforms do to lists is stated through this reading.

## Main definitions

* `ofCoefficients` — the polynomial of a list.
* `coefficients` — the list of a polynomial.

## Main results

* `eval_ofCoefficients_split` — a polynomial is made of its coefficients of even and of odd degree.
* `eval_ofCoefficients_scaleByPowers` — scaling by powers scales the argument.
* `powersFrom_eq_map`, `powersFrom_one` — the points of a coset and of a domain.
-/

open Polynomial

namespace MerkleSnark

namespace Fr

theorem powersFrom_eq_map (c x : Fr) (n : ℕ) :
    powersFrom c x n = (List.range n).map fun i => c * x ^ i := by
  induction n generalizing c with
  | zero => rfl
  | succ n ih =>
    rw [powersFrom, ih, List.range_succ_eq_map, List.map_cons, List.map_map, pow_zero, mul_one]
    congr 1
    refine List.map_congr_left fun i _ => ?_
    rw [Function.comp_apply, pow_succ', mul_assoc]

/-- The points of a domain are the powers of its root. -/
theorem powersFrom_one (x : Fr) (n : ℕ) : powersFrom 1 x n = (List.range n).map (x ^ ·) := by
  rw [powersFrom_eq_map]
  simp only [one_mul]

theorem powersFrom_add (c x : Fr) (m n : ℕ) :
    powersFrom c x (m + n) = powersFrom c x m ++ powersFrom (c * x ^ m) x n := by
  induction m generalizing c with
  | zero => simp [powersFrom]
  | succ m ih =>
    rw [Nat.succ_add, powersFrom, powersFrom, ih, List.cons_append, pow_succ', mul_assoc]

/-- Scaling every point by `d`. -/
theorem map_mul_powersFrom (d c x : Fr) (n : ℕ) :
    (powersFrom c x n).map (d * ·) = powersFrom (d * c) x n := by
  induction n generalizing c with
  | zero => rfl
  | succ n ih => rw [powersFrom, powersFrom, List.map_cons, ih, mul_assoc]

/-- The squares of the points are the points of the square. -/
theorem map_square_powersFrom (c x : Fr) (n : ℕ) :
    (powersFrom c x n).map (fun y => y * y) = powersFrom (c * c) (x * x) n := by
  induction n generalizing c with
  | zero => rfl
  | succ n ih => rw [powersFrom, powersFrom, List.map_cons, ih, mul_mul_mul_comm]

end Fr

namespace Polynomial

/-- The polynomial with the given coefficients, the lowest first. -/
noncomputable def ofCoefficients : List Fr → Fr[X]
  | [] => 0
  | c :: cs => C c + X * ofCoefficients cs

@[simp] theorem ofCoefficients_nil : ofCoefficients [] = 0 := rfl

theorem ofCoefficients_cons (c : Fr) (cs : List Fr) :
    ofCoefficients (c :: cs) = C c + X * ofCoefficients cs := rfl

@[simp] theorem eval_ofCoefficients_cons (c : Fr) (cs : List Fr) (x : Fr) :
    (ofCoefficients (c :: cs)).eval x = c + x * (ofCoefficients cs).eval x := by
  rw [ofCoefficients_cons, eval_add, eval_C, eval_mul, eval_X]

theorem coeff_ofCoefficients (cs : List Fr) (i : ℕ) :
    (ofCoefficients cs).coeff i = cs.getD i 0 := by
  induction cs generalizing i with
  | nil => simp
  | cons c cs ih =>
    cases i with
    | zero => simp [ofCoefficients_cons]
    | succ i => simp [ofCoefficients_cons, coeff_X_mul, coeff_C_succ, ih]

theorem degree_ofCoefficients_lt (cs : List Fr) :
    (ofCoefficients cs).degree < (cs.length : WithBot ℕ) := by
  rw [degree_lt_iff_coeff_zero]
  intro i hi
  rw [coeff_ofCoefficients, List.getD_eq_default _ _ hi]

/-- The value as a sum over the list. -/
theorem eval_ofCoefficients_eq_sum (cs : List Fr) (x : Fr) :
    (ofCoefficients cs).eval x = ∑ i ∈ Finset.range cs.length, cs.getD i 0 * x ^ i := by
  induction cs with
  | nil => simp
  | cons c cs ih =>
    rw [eval_ofCoefficients_cons, ih, List.length_cons, Finset.sum_range_succ', Finset.mul_sum,
      add_comm]
    simp only [List.getD_cons_zero, List.getD_cons_succ, pow_zero, mul_one]
    congr 1
    refine Finset.sum_congr rfl fun i _ => ?_
    ring

/-- A polynomial is made of its coefficients of even and of odd degree. -/
theorem eval_ofCoefficients_split (cs : List Fr) (x : Fr) :
    (ofCoefficients cs).eval x
      = (ofCoefficients (evens cs)).eval (x * x) + x * (ofCoefficients (odds cs)).eval (x * x) := by
  induction cs with
  | nil => simp
  | cons c cs ih =>
    rw [eval_ofCoefficients_cons, evens_cons, odds_cons, eval_ofCoefficients_cons, ih]
    ring

/-- Scaling the coefficients by powers of `s` scales the argument by `s`. -/
theorem eval_ofCoefficients_scaleByPowers (c s x : Fr) (cs : List Fr) :
    (ofCoefficients (scaleByPowers c s cs)).eval x = c * (ofCoefficients cs).eval (s * x) := by
  induction cs generalizing c with
  | nil => simp [scaleByPowers]
  | cons v cs ih =>
    rw [scaleByPowers, eval_ofCoefficients_cons, eval_ofCoefficients_cons, ih]
    ring

theorem eval_ofCoefficients_map_mul (s x : Fr) (cs : List Fr) :
    (ofCoefficients (cs.map (· * s))).eval x = (ofCoefficients cs).eval x * s := by
  induction cs with
  | nil => simp
  | cons c cs ih =>
    rw [List.map_cons, eval_ofCoefficients_cons, eval_ofCoefficients_cons, ih]
    ring

/-- The lowest `n` coefficients of a polynomial. -/
noncomputable def coefficients (n : ℕ) (f : Fr[X]) : List Fr := (List.range n).map f.coeff

@[simp] theorem length_coefficients (n : ℕ) (f : Fr[X]) : (coefficients n f).length = n := by
  rw [coefficients, List.length_map, List.length_range]

/-- A polynomial of degree below `n` is made of its lowest `n` coefficients. -/
theorem ofCoefficients_coefficients {n : ℕ} {f : Fr[X]} (h : f.degree < (n : WithBot ℕ)) :
    ofCoefficients (coefficients n f) = f := by
  ext i
  rw [coeff_ofCoefficients, coefficients, List.getD_eq_getElem?_getD, List.getElem?_map]
  rcases Nat.lt_or_ge i n with hi | hi
  · rw [List.getElem?_range hi, Option.map_some, Option.getD_some]
  · rw [List.getElem?_eq_none (by rw [List.length_range]; exact hi), Option.map_none,
      Option.getD_none, coeff_eq_zero_of_degree_lt (h.trans_le (by exact_mod_cast hi))]

/-- A vanishing coefficient at the end can be left out. -/
theorem ofCoefficients_take {cs : List Fr} {n : ℕ}
    (h : ∀ i, n ≤ i → (ofCoefficients cs).coeff i = 0) :
    ofCoefficients (cs.take n) = ofCoefficients cs := by
  ext i
  rw [coeff_ofCoefficients]
  rcases Nat.lt_or_ge i n with hi | hi
  · rw [coeff_ofCoefficients, List.getD_eq_getElem?_getD, List.getD_eq_getElem?_getD,
      List.getElem?_take_of_lt hi]
  · rw [h i hi, List.getD_eq_default]
    exact (List.length_take_le n cs).trans hi

end Polynomial

end MerkleSnark
