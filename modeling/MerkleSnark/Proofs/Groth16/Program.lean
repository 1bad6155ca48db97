import Mathlib
import MerkleSnark.Groth16.Program
import MerkleSnark.Proofs.Constraint.LinearCombination
import MerkleSnark.Proofs.Polynomial.Domain

/-!
# Quadratic arithmetic programs

For given wire values every side of a system has one polynomial, which takes the value of the side
of constraint `j` at `ωʲ`.  Key generation and proving both evaluate these polynomials, one through
the Lagrange basis and the other through its coefficients.

## Main definitions

* `dot` — the inner product of two lists.
* `sideValue`, `sidePolynomial` — the values of one side, and their polynomial.
* `IsWirePolynomials` — what key generation evaluates.

## Main results

* `exists_wirePolynomials?_eq` — the wire polynomials, weighed by the wires, are those of the sides.
* `exists_constraintValues?_eq` — the values that a prover interpolates.
-/

open Polynomial

namespace MerkleSnark.Groth16

open MerkleSnark.Polynomial

/-! ### Inner products -/

/-- The inner product of two lists, as long as the shorter one. -/
def dot (xs ys : List Fr) : Fr := (List.zipWith (· * ·) xs ys).sum

@[simp] theorem dot_nil_left (ys : List Fr) : dot [] ys = 0 := rfl
@[simp] theorem dot_nil_right (xs : List Fr) : dot xs [] = 0 := by simp [dot]
@[simp] theorem dot_cons (x y : Fr) (xs ys : List Fr) :
    dot (x :: xs) (y :: ys) = x * y + dot xs ys := by simp [dot]

/-- An inner product can be split at any place. -/
theorem dot_take_add_dot_drop (n : ℕ) (xs ys : List Fr) :
    dot (xs.take n) (ys.take n) + dot (xs.drop n) (ys.drop n) = dot xs ys := by
  induction n generalizing xs ys with
  | zero => simp
  | succ n ih =>
    cases xs with
    | nil => simp
    | cons x xs =>
      cases ys with
      | nil => simp
      | cons y ys => simp [add_assoc, ih]

/-- The inner product with powers is the value of a polynomial. -/
theorem dot_powersFrom (c x : Fr) {n : ℕ} {hs : List Fr} (hlen : hs.length ≤ n) :
    dot (Fr.powersFrom c x n) hs = c * (ofCoefficients hs).eval x := by
  induction hs generalizing c n with
  | nil => simp
  | cons h hs ih =>
    obtain ⟨n, rfl⟩ : ∃ m, n = m + 1 := Nat.exists_eq_succ_of_ne_zero (by
      rw [List.length_cons] at hlen
      omega)
    rw [Fr.powersFrom, dot_cons, ih (c * x) (Nat.le_of_succ_le_succ hlen),
      eval_ofCoefficients_cons]
    ring

/-- Adding to one entry adds a product. -/
theorem dot_modify (totals : List Fr) (ws : List Fr) {i : ℕ} (hi : i < totals.length) (c : Fr) :
    dot (totals.modify i (· + c)) ws = dot totals ws + c * ws.getD i 0 := by
  induction totals generalizing i ws with
  | nil => exact absurd hi (Nat.not_lt_zero i)
  | cons x xs ih =>
    cases ws with
    | nil => simp
    | cons y ys =>
      cases i with
      | zero =>
        rw [List.modify_zero_cons, dot_cons, dot_cons, List.getD_cons_zero]
        ring
      | succ i =>
        rw [List.modify_succ_cons, dot_cons, dot_cons, ih ys (Nat.lt_of_succ_lt_succ hi),
          List.getD_cons_succ, add_assoc]

/-- An inner product as a sum over the places of the first list, and over any further places. -/
theorem dot_eq_sum {xs : List Fr} (ys : List Fr) {n : ℕ} (hlen : xs.length ≤ n) :
    dot xs ys = ∑ j ∈ Finset.range n, xs.getD j 0 * ys.getD j 0 := by
  induction xs generalizing ys n with
  | nil => simp
  | cons x xs ih =>
    obtain ⟨n, rfl⟩ : ∃ m, n = m + 1 := Nat.exists_eq_succ_of_ne_zero (by
      rw [List.length_cons] at hlen
      omega)
    rw [Finset.sum_range_succ', add_comm]
    cases ys with
    | nil => simp
    | cons y ys =>
      rw [dot_cons, ih ys (Nat.le_of_succ_le_succ hlen)]
      simp only [List.getD_cons_zero, List.getD_cons_succ]

/-! ### Sides of a system -/

variable {cs : ConstraintSystem} {n : ℕ}

/-- The values of wires in a list. -/
def wireValues (ws : List Fr) (i : ℕ) : Fr := ws.getD i 0

/-- The value of one side of constraint `j`, zero past the last constraint. -/
def sideValue (cs : ConstraintSystem) (ws : List Fr) (side : Constraint → LinearCombination)
    (j : ℕ) : Fr :=
  (cs.constraints.map fun k => (side k).eval (wireValues ws)).getD j 0

/-- The polynomial of one side on the domain of size `n`. -/
noncomputable def sidePolynomial (cs : ConstraintSystem) (ws : List Fr) (n : ℕ)
    (side : Constraint → LinearCombination) : Fr[X] :=
  interpolant (Fr.root n) n (sideValue cs ws side)

theorem sideValue_of_lt {ws : List Fr} {side : Constraint → LinearCombination} {j : ℕ}
    (hj : j < cs.constraints.length) :
    sideValue cs ws side j = (side cs.constraints[j]).eval (wireValues ws) := by
  rw [sideValue, List.getD_eq_getElem _ _ (by rwa [List.length_map]), List.getElem_map]

theorem sideValue_of_le {ws : List Fr} {side : Constraint → LinearCombination} {j : ℕ}
    (hj : cs.constraints.length ≤ j) : sideValue cs ws side j = 0 := by
  rw [sideValue, List.getD_eq_default _ _ (by rwa [List.length_map])]

theorem holds_iff {ws : List Fr} {j : ℕ} (hj : j < cs.constraints.length) :
    cs.constraints[j].Holds (wireValues ws)
      ↔ sideValue cs ws Constraint.a j * sideValue cs ws Constraint.b j
        = sideValue cs ws Constraint.c j := by
  rw [sideValue_of_lt hj, sideValue_of_lt hj, sideValue_of_lt hj, Constraint.Holds]

/-- A system is satisfied when the products of its sides agree everywhere. -/
theorem satisfied_iff {ws : List Fr} (hn : cs.numConstraints ≤ n) :
    cs.Satisfied (wireValues ws)
      ↔ ∀ j < n, sideValue cs ws Constraint.a j * sideValue cs ws Constraint.b j
        = sideValue cs ws Constraint.c j := by
  constructor
  · intro h j _
    rcases Nat.lt_or_ge j cs.constraints.length with hj | hj
    · exact (holds_iff hj).mp (h _ (List.getElem_mem hj))
    · rw [sideValue_of_le hj, sideValue_of_le hj, sideValue_of_le hj, zero_mul]
  · intro h k hk
    obtain ⟨j, hj, rfl⟩ := List.getElem_of_mem hk
    exact (holds_iff hj).mpr (h j (hj.trans_le hn))

/-! ### Wire polynomials -/

theorem size_accumulate (totals : Array Fr) (x : LinearCombination) (l : Fr) :
    (accumulate totals x l).size = totals.size := by
  obtain ⟨terms⟩ := x
  rw [accumulate]
  induction terms generalizing totals with
  | nil => rfl
  | cons t ts ih => rw [List.foldl_cons, ih, Array.size_modify]

/-- One combination adds its value times the basis value. -/
theorem dot_accumulate {totals : Array Fr} {x : LinearCombination}
    (hbounded : x.boundedBy totals.size = true) (l : Fr) (ws : List Fr) :
    dot (accumulate totals x l).toList ws
      = dot totals.toList ws + l * x.eval (wireValues ws) := by
  obtain ⟨terms⟩ := x
  rw [accumulate, LinearCombination.eval_eq_sum]
  rw [LinearCombination.boundedBy, List.all_eq_true] at hbounded
  induction terms generalizing totals with
  | nil => simp
  | cons t ts ih =>
    have hlt : t.1 < totals.toList.length := of_decide_eq_true (hbounded t List.mem_cons_self)
    rw [List.foldl_cons, ih, Array.toList_modify, dot_modify _ _ hlt, List.map_cons, List.sum_cons,
      wireValues]
    · ring
    · intro s hs
      rw [Array.size_modify]
      exact hbounded s (List.mem_cons_of_mem _ hs)

/-- The column sums, weighed by the wires, are the values of the rows weighed by the basis. -/
theorem dot_columnSums {numVariables : ℕ} {rows : List LinearCombination}
    (hbounded : ∀ x ∈ rows, x.boundedBy numVariables = true) (basis ws : List Fr) :
    (columnSums numVariables rows basis).size = numVariables
      ∧ dot (columnSums numVariables rows basis).toList ws
        = dot (rows.map fun x => x.eval (wireValues ws)) basis := by
  have hfold : ∀ (ps : List (LinearCombination × Fr)) (totals : Array Fr),
      totals.size = numVariables → (∀ p ∈ ps, p.1.boundedBy numVariables = true) →
      (ps.foldl (fun totals p => accumulate totals p.1 p.2) totals).size = numVariables
        ∧ dot (ps.foldl (fun totals p => accumulate totals p.1 p.2) totals).toList ws
          = dot totals.toList ws + (ps.map fun p => p.1.eval (wireValues ws) * p.2).sum := by
    intro ps
    induction ps with
    | nil => exact fun totals hsize _ => ⟨hsize, by simp⟩
    | cons p ps ih =>
      intro totals hsize hps
      obtain ⟨hsize', hdot⟩ := ih (accumulate totals p.1 p.2)
        (by rw [size_accumulate, hsize]) fun q hq => hps q (List.mem_cons_of_mem _ hq)
      refine ⟨hsize', ?_⟩
      rw [List.foldl_cons, hdot, dot_accumulate (hsize ▸ hps p List.mem_cons_self), List.map_cons,
        List.sum_cons]
      ring
  have hzero : ∀ (m : ℕ) (ws : List Fr), dot (List.replicate m 0) ws = 0 := by
    intro m
    induction m with
    | zero => exact fun ws => dot_nil_left ws
    | succ m ih =>
      intro ws
      cases ws with
      | nil => exact dot_nil_right _
      | cons y ys => rw [List.replicate_succ, dot_cons, ih, zero_mul, zero_add]
  obtain ⟨hsize, hdot⟩ := hfold (rows.zip basis) (Array.replicate numVariables 0)
    Array.size_replicate fun p hp => hbounded p.1 (List.of_mem_zip hp).1
  refine ⟨hsize, ?_⟩
  rw [columnSums, hdot, Array.toList_replicate, hzero, zero_add, dot, List.zip, List.map_zipWith,
    List.zipWith_map_left]

/-- The values of one side, weighed by the Lagrange basis, sum to the side polynomial. -/
theorem dot_lagrangeBasis (ws : List Fr) (side : Constraint → LinearCombination)
    (hn : cs.numConstraints ≤ n) (tau : Fr) :
    dot ((cs.constraints.map side).map fun x => x.eval (wireValues ws))
        ((List.range n).map fun j =>
          (Lagrange.basis (Finset.range n) (fun j => Fr.root n ^ j) j).eval tau)
      = (sidePolynomial cs ws n side).eval tau := by
  rw [sidePolynomial, ← sum_mul_eval_basis]
  rw [dot_eq_sum _ (n := n) (by rw [List.length_map, List.length_map]; exact hn)]
  refine Finset.sum_congr rfl fun j hj => ?_
  have hlt : j < ((List.range n).map fun j =>
      (Lagrange.basis (Finset.range n) (fun j => Fr.root n ^ j) j).eval tau).length := by
    rw [List.length_map, List.length_range]
    exact Finset.mem_range.mp hj
  rw [List.getD_eq_getElem _ _ hlt, List.getElem_map, List.getElem_range, sideValue, List.map_map]
  rfl

/-- The values at `tau` of the polynomials of all wires: weighed by wire values they sum to the
values of the side polynomials. -/
structure IsWirePolynomials (cs : ConstraintSystem) (n : ℕ) (tau : Fr) (polys : Sides (List Fr)) :
    Prop where
  length_a : polys.a.length = cs.numVariables
  length_b : polys.b.length = cs.numVariables
  length_c : polys.c.length = cs.numVariables
  dot_a : ∀ ws, dot polys.a ws = (sidePolynomial cs ws n Constraint.a).eval tau
  dot_b : ∀ ws, dot polys.b ws = (sidePolynomial cs ws n Constraint.b).eval tau
  dot_c : ∀ ws, dot polys.c ws = (sidePolynomial cs ws n Constraint.c).eval tau

/-- The column sums of a side, weighed by the wires, are the value of its polynomial. -/
theorem columnSums_lagrangeBasis {side : Constraint → LinearCombination}
    (hside : ∀ k ∈ cs.constraints, (side k).boundedBy cs.numVariables = true)
    (hn : cs.numConstraints ≤ n) {tau : Fr} {basis : List Fr}
    (hbasis : basis = (List.range n).map fun j =>
      (Lagrange.basis (Finset.range n) (fun j => Fr.root n ^ j) j).eval tau) (ws : List Fr) :
    (columnSums cs.numVariables (cs.constraints.map side) basis).toList.length = cs.numVariables
      ∧ dot (columnSums cs.numVariables (cs.constraints.map side) basis).toList ws
        = (sidePolynomial cs ws n side).eval tau := by
  have hrows : ∀ x ∈ cs.constraints.map side, x.boundedBy cs.numVariables = true := by
    intro x hx
    obtain ⟨k, hk, rfl⟩ := List.mem_map.mp hx
    exact hside k hk
  obtain ⟨hsize, hdot⟩ := dot_columnSums hrows basis ws
  refine ⟨by rw [Array.length_toList, hsize], ?_⟩
  rw [hdot, hbasis, dot_lagrangeBasis ws side hn]

/-- **The wire polynomials, weighed by the wires, are the side polynomials.** -/
theorem exists_wirePolynomials?_eq (hcs : cs.WellFormed) (hn : cs.numConstraints ≤ n) (tau : Fr) :
    ∃ polys, wirePolynomials? cs ((List.range n).map fun j =>
          (Lagrange.basis (Finset.range n) (fun j => Fr.root n ^ j) j).eval tau) = .ok polys
      ∧ IsWirePolynomials cs n tau polys := by
  set basis := (List.range n).map fun j =>
    (Lagrange.basis (Finset.range n) (fun j => Fr.root n ^ j) j).eval tau with hbasis
  have hbounded (k : Constraint) (hk : k ∈ cs.constraints) :
      (k.a.boundedBy cs.numVariables = true ∧ k.b.boundedBy cs.numVariables = true)
        ∧ k.c.boundedBy cs.numVariables = true := by
    have h := hcs k hk
    rwa [Constraint.boundedBy, Bool.and_eq_true, Bool.and_eq_true] at h
  have ha := columnSums_lagrangeBasis (fun k hk => (hbounded k hk).1.1) hn hbasis
  have hb := columnSums_lagrangeBasis (fun k hk => (hbounded k hk).1.2) hn hbasis
  have hc := columnSums_lagrangeBasis (fun k hk => (hbounded k hk).2) hn hbasis
  have hlen : ¬ basis.length < cs.numConstraints := by
    rw [hbasis, List.length_map, List.length_range]
    exact not_lt.mpr hn
  have hall : ¬ cs.constraints.all (·.boundedBy cs.numVariables) = false := by
    rw [Bool.not_eq_false, List.all_eq_true]
    exact hcs
  exact ⟨_, by rw [wirePolynomials?, if_neg hlen, if_neg hall],
    { length_a := (ha []).1
      length_b := (hb []).1
      length_c := (hc []).1
      dot_a := fun ws => (ha ws).2
      dot_b := fun ws => (hb ws).2
      dot_c := fun ws => (hc ws).2 }⟩

/-! ### Values of the sides -/

theorem sideValues?_eq {ws : List Fr} {rows : List LinearCombination}
    (hbounded : ∀ x ∈ rows, x.boundedBy ws.length = true) (size : ℕ) :
    sideValues? ws.toArray rows size
      = some ((rows.map fun x => x.eval (wireValues ws))
          ++ List.replicate (size - rows.length) 0) := by
  have heval : rows.mapM (·.evalAt? ws.toArray)
      = some (rows.map fun x => x.eval (wireValues ws)) := by
    induction rows with
    | nil => rfl
    | cons x rows ih =>
      have hx : x.evalAt? ws.toArray = some (x.eval (wireValues ws)) := by
        rw [LinearCombination.evalAt?, List.size_toArray, if_pos (hbounded x List.mem_cons_self)]
        refine congrArg some (LinearCombination.eval_congr fun t _ => ?_)
        rw [wireValues, Array.getD_eq_getD_getElem?, List.getElem?_toArray,
          List.getD_eq_getElem?_getD]
      rw [List.mapM_cons, hx, ih fun y hy => hbounded y (List.mem_cons_of_mem _ hy)]
      rfl
  rw [sideValues?, heval]
  rfl

/-- **The values that a prover interpolates.** -/
theorem exists_constraintValues?_eq {ws : List Fr} (hcs : cs.WellFormed)
    (hws : ws.length = cs.numVariables) (hn : cs.numConstraints ≤ n) :
    ∃ values, constraintValues? cs ws.toArray n = .ok values
      ∧ values.a.length = n ∧ values.b.length = n ∧ values.c.length = n
      ∧ (fun j => values.a.getD j 0) = sideValue cs ws Constraint.a
      ∧ (fun j => values.b.getD j 0) = sideValue cs ws Constraint.b
      ∧ (fun j => values.c.getD j 0) = sideValue cs ws Constraint.c := by
  have hbounded (k : Constraint) (hk : k ∈ cs.constraints) :
      (k.a.boundedBy ws.length = true ∧ k.b.boundedBy ws.length = true)
        ∧ k.c.boundedBy ws.length = true := by
    have h := hcs k hk
    rwa [Constraint.boundedBy, Bool.and_eq_true, Bool.and_eq_true, ← hws] at h
  have hside (side : Constraint → LinearCombination)
      (h : ∀ k ∈ cs.constraints, (side k).boundedBy ws.length = true) :
      ∃ vs, sideValues? ws.toArray (cs.constraints.map side) n = some vs ∧ vs.length = n
        ∧ (fun j => vs.getD j 0) = sideValue cs ws side := by
    refine ⟨_, sideValues?_eq (fun x hx => ?_) n, ?_, funext fun j => ?_⟩
    · obtain ⟨k, hk, rfl⟩ := List.mem_map.mp hx
      exact h k hk
    · rw [List.length_append, List.length_map, List.length_map, List.length_replicate]
      exact Nat.add_sub_cancel' hn
    · rw [sideValue, List.map_map]
      change _ = (cs.constraints.map ((fun x => x.eval (wireValues ws)) ∘ side)).getD j 0
      rcases Nat.lt_or_ge j cs.constraints.length with hj | hj
      · rw [List.getD_append _ _ _ _ (by rwa [List.length_map])]
      · rw [List.getD_append_right _ _ _ _ (by rwa [List.length_map]),
          List.getD_eq_default (cs.constraints.map _) _ (by rwa [List.length_map])]
        rw [List.getD_eq_getElem?_getD, List.getElem?_replicate]
        split <;> rfl
  obtain ⟨a, haeq, halen, ha⟩ := hside Constraint.a fun k hk => (hbounded k hk).1.1
  obtain ⟨b, hbeq, hblen, hb⟩ := hside Constraint.b fun k hk => (hbounded k hk).1.2
  obtain ⟨c, hceq, hclen, hc⟩ := hside Constraint.c fun k hk => (hbounded k hk).2
  refine ⟨⟨a, b, c⟩, ?_, halen, hblen, hclen, ha, hb, hc⟩
  simp only [constraintValues?, haeq, hbeq, hceq]

end MerkleSnark.Groth16
