import Mathlib
import MerkleSnark.Proofs.Groth16.Program

/-!
# The quotient of a program

The prover divides `A · B - C` by `Xⁿ - 1` through the values on a coset of the domain.  The result
is a polynomial of degree at most `n - 2` for all wire values, and the quotient when there is one.

## Main definitions

* `defect` — what is missing to `A · B - C = h · (Xⁿ - 1)`.

## Main results

* `dvd_iff_satisfied` — a system is satisfied when `Xⁿ - 1` divides `A · B - C`.
* `quotientOf_mul` — the values on the coset give the quotient when there is one.
* `exists_quotient?_eq` — a prover finds the quotient exactly for satisfying wire values.
* `natDegree_defect_le` — otherwise the defect is a polynomial of degree at most `2 * n - 2`.
-/

open Polynomial

namespace MerkleSnark.Groth16

open MerkleSnark.Polynomial

variable {k : ℕ} {omega : Fr}

theorem vanishing_mul_pow {n : ℕ} (homega : IsPrimitiveRoot omega n) (shift : Fr) (j : ℕ) :
    (shift * omega ^ j) ^ n - 1 = vanishing n shift := by
  rw [vanishing, mul_pow, ← pow_mul, mul_comm j, pow_mul, homega.pow_eq_one, one_pow, mul_one]

/-- The values of a polynomial on the coset, from its values on the domain. -/
theorem cosetFft_ifft_eq_map (homega : IsPrimitiveRoot omega (2 ^ k)) (shift : Fr) {v : List Fr}
    (hlen : v.length = 2 ^ k) :
    cosetFft omega shift (ifft omega v)
      = (Fr.powersFrom 1 omega (2 ^ k)).map fun x =>
          (interpolant omega (2 ^ k) fun j => v.getD j 0).eval (shift * x) := by
  rw [cosetFft_eq_map homega shift (length_ifft homega hlen), ofCoefficients_ifft homega hlen]

variable {values : Sides (List Fr)}

theorem quotientOf_eq (homega : IsPrimitiveRoot omega (2 ^ k)) (ha : values.a.length = 2 ^ k)
    (hb : values.b.length = 2 ^ k) (hc : values.c.length = 2 ^ k) :
    quotientOf omega (2 ^ k) values
      = (cosetIfft omega Fr.generator ((Fr.powersFrom 1 omega (2 ^ k)).map fun x =>
          ((interpolant omega (2 ^ k) fun j => values.a.getD j 0).eval (Fr.generator * x)
              * (interpolant omega (2 ^ k) fun j => values.b.getD j 0).eval (Fr.generator * x)
            - (interpolant omega (2 ^ k) fun j => values.c.getD j 0).eval (Fr.generator * x))
          * (vanishing (2 ^ k) Fr.generator)⁻¹)).take (2 ^ k - 1) := by
  simp only [quotientOf, cosetFft_ifft_eq_map homega _ ha, cosetFft_ifft_eq_map homega _ hb,
    cosetFft_ifft_eq_map homega _ hc, List.zipWith_map_left, List.zipWith_map_right,
    List.zipWith_self]

theorem length_quotientOf (homega : IsPrimitiveRoot omega (2 ^ k)) (ha : values.a.length = 2 ^ k)
    (hb : values.b.length = 2 ^ k) (hc : values.c.length = 2 ^ k) :
    (quotientOf omega (2 ^ k) values).length = 2 ^ k - 1 := by
  have hlen : ∀ f : Fr → Fr, ((Fr.powersFrom 1 omega (2 ^ k)).map f).length = 2 ^ k := fun f => by
    rw [List.length_map, Fr.length_powersFrom]
  rw [quotientOf_eq homega ha hb hc, List.length_take, cosetIfft, length_scaleByPowers,
    length_ifft homega (hlen _)]
  exact min_eq_left (Nat.sub_le _ _)

/-- The product of two polynomials of degree below `n`, less a third one, has degree at most
`2 * n - 2`. -/
theorem natDegree_mul_sub_le {n : ℕ} {a b c : Fr[X]} (ha : a.degree < (n : WithBot ℕ))
    (hb : b.degree < (n : WithBot ℕ)) (hc : c.degree < (n : WithBot ℕ)) (hn : 0 < n) :
    (a * b - c).natDegree ≤ 2 * n - 2 := by
  have hnat {f : Fr[X]} (hf : f.degree < (n : WithBot ℕ)) : f.natDegree ≤ n - 1 := by
    rcases eq_or_ne f 0 with rfl | hne
    · rw [natDegree_zero]
      exact Nat.zero_le _
    · exact Nat.le_sub_one_of_lt ((natDegree_lt_iff_degree_lt hne).mpr hf)
  have hab : (a * b).natDegree ≤ n - 1 + (n - 1) :=
    natDegree_mul_le.trans (Nat.add_le_add (hnat ha) (hnat hb))
  refine (natDegree_sub_le _ _).trans (max_le (hab.trans (by omega)) ((hnat hc).trans (by omega)))

/-- The degree of a quotient by `Xⁿ - 1`. -/
theorem degree_quotient_lt {n : ℕ} (hn : 0 < n) {f q : Fr[X]} (hf : f.natDegree ≤ 2 * n - 2)
    (hq : f = (X ^ n - 1) * q) : q.degree < ((n - 1 : ℕ) : WithBot ℕ) := by
  rcases eq_or_ne q 0 with rfl | hne
  · rw [degree_zero]
    exact WithBot.bot_lt_coe _
  · have hmonic : (X ^ n - 1 : Fr[X]).Monic := monic_X_pow_sub_C 1 hn.ne'
    have hdegree : f.natDegree = n + q.natDegree := by
      rw [hq, hmonic.natDegree_mul' hne, ← C_1, natDegree_X_pow_sub_C]
    rw [← natDegree_lt_iff_degree_lt hne]
    omega

/-- **The values on the coset give the quotient when there is one.** -/
theorem quotientOf_mul (hk : k ≤ 28) (homega : IsPrimitiveRoot omega (2 ^ k))
    (ha : values.a.length = 2 ^ k) (hb : values.b.length = 2 ^ k) (hc : values.c.length = 2 ^ k)
    (hdvd : X ^ 2 ^ k - 1 ∣ (interpolant omega (2 ^ k) fun j => values.a.getD j 0)
        * (interpolant omega (2 ^ k) fun j => values.b.getD j 0)
      - interpolant omega (2 ^ k) fun j => values.c.getD j 0) :
    ofCoefficients (quotientOf omega (2 ^ k) values) * (X ^ 2 ^ k - 1)
      = (interpolant omega (2 ^ k) fun j => values.a.getD j 0)
          * (interpolant omega (2 ^ k) fun j => values.b.getD j 0)
        - interpolant omega (2 ^ k) fun j => values.c.getD j 0 := by
  set a := interpolant omega (2 ^ k) fun j => values.a.getD j 0 with hadef
  set b := interpolant omega (2 ^ k) fun j => values.b.getD j 0 with hbdef
  set c := interpolant omega (2 ^ k) fun j => values.c.getD j 0 with hcdef
  obtain ⟨q, hq⟩ := hdvd
  have hpos : 0 < 2 ^ k := Nat.two_pow_pos k
  have hdegree : q.degree < ((2 ^ k - 1 : ℕ) : WithBot ℕ) :=
    degree_quotient_lt hpos (natDegree_mul_sub_le (degree_interpolant_lt homega _)
      (degree_interpolant_lt homega _) (degree_interpolant_lt homega _) hpos) hq
  have hdegree' : q.degree < ((2 ^ k : ℕ) : WithBot ℕ) :=
    hdegree.trans_le (by exact_mod_cast Nat.sub_le _ _)
  have hz : vanishing (2 ^ k) Fr.generator ≠ 0 := sub_ne_zero.mpr (Fr.generator_pow_ne_one hk)
  have hshift : Fr.generator ≠ 0 := by decide
  -- on the coset the divisor is the constant by which the values are divided
  have hvalues : ((Fr.powersFrom 1 omega (2 ^ k)).map fun x =>
        (a.eval (Fr.generator * x) * b.eval (Fr.generator * x) - c.eval (Fr.generator * x))
          * (vanishing (2 ^ k) Fr.generator)⁻¹)
      = cosetFft omega Fr.generator (coefficients (2 ^ k) q) := by
    rw [cosetFft_eq_map homega _ (length_coefficients _ _), ofCoefficients_coefficients hdegree',
      Fr.powersFrom_eq_map, List.map_map, List.map_map]
    refine List.map_congr_left fun j _ => ?_
    have heval := congrArg (eval (Fr.generator * omega ^ j)) hq
    rw [eval_sub, eval_mul, eval_mul, eval_sub, eval_pow, eval_X, eval_one,
      vanishing_mul_pow homega] at heval
    rw [Function.comp_apply, Function.comp_apply, one_mul, heval, mul_right_comm,
      mul_inv_cancel₀ hz, one_mul]
  have htake : ofCoefficients (quotientOf omega (2 ^ k) values) = q := by
    rw [quotientOf_eq homega ha hb hc, ← hadef, ← hbdef, ← hcdef, hvalues,
      cosetIfft_cosetFft homega hshift (length_coefficients _ _), ofCoefficients_take,
      ofCoefficients_coefficients hdegree']
    intro i hi
    rw [ofCoefficients_coefficients hdegree']
    exact coeff_eq_zero_of_degree_lt (hdegree.trans_le (by exact_mod_cast hi))
  rw [htake, hq, mul_comm]

/-! ### The quotient of a system -/

variable {cs : ConstraintSystem} {ws : List Fr}

/-- What is missing to `A · B - C = h · (Xⁿ - 1)`. -/
noncomputable def defect (cs : ConstraintSystem) (ws : List Fr) (n : ℕ) (h : List Fr) : Fr[X] :=
  sidePolynomial cs ws n Constraint.a * sidePolynomial cs ws n Constraint.b
    - sidePolynomial cs ws n Constraint.c - ofCoefficients h * (X ^ n - 1)

theorem eval_defect (cs : ConstraintSystem) (ws : List Fr) (n : ℕ) (h : List Fr) (tau : Fr) :
    (defect cs ws n h).eval tau
      = (sidePolynomial cs ws n Constraint.a).eval tau
            * (sidePolynomial cs ws n Constraint.b).eval tau
          - (sidePolynomial cs ws n Constraint.c).eval tau
        - (ofCoefficients h).eval tau * vanishing n tau := by
  rw [defect, eval_sub, eval_sub, eval_mul, eval_mul, eval_sub, eval_pow, eval_X, eval_one,
    vanishing]

/-- A system is satisfied exactly when `Xⁿ - 1` divides `A · B - C`. -/
theorem dvd_iff_satisfied (hk : k ≤ 28) (hn : cs.numConstraints ≤ 2 ^ k) :
    X ^ 2 ^ k - 1 ∣ sidePolynomial cs ws (2 ^ k) Constraint.a
          * sidePolynomial cs ws (2 ^ k) Constraint.b
        - sidePolynomial cs ws (2 ^ k) Constraint.c
      ↔ cs.Satisfied (wireValues ws) := by
  have homega := Fr.isPrimitiveRoot_root hk
  rw [X_pow_sub_one_dvd_iff homega (Nat.two_pow_pos k), satisfied_iff hn]
  refine forall₂_congr fun j hj => ?_
  rw [eval_sub, eval_mul, sidePolynomial, sidePolynomial, sidePolynomial,
    eval_interpolant homega _ hj, eval_interpolant homega _ hj, eval_interpolant homega _ hj,
    sub_eq_zero]

/-- **A prover finds the quotient exactly for satisfying wire values.** -/
theorem exists_quotient?_eq (hk : k ≤ 28) (hcs : cs.WellFormed) (hws : ws.length = cs.numVariables)
    (hn : cs.numConstraints ≤ 2 ^ k) :
    ∃ h, quotient? cs ws.toArray (2 ^ k) = .ok h ∧ h.length = 2 ^ k - 1
      ∧ (defect cs ws (2 ^ k) h = 0 ↔ cs.Satisfied (wireValues ws)) := by
  have homega := Fr.isPrimitiveRoot_root hk
  obtain ⟨values, hvalues, halen, hblen, hclen, ha, hb, hc⟩ :=
    exists_constraintValues?_eq hcs hws hn
  refine ⟨quotientOf (Fr.root (2 ^ k)) (2 ^ k) values, ?_,
    length_quotientOf homega halen hblen hclen, ?_⟩
  · rw [quotient?, Fr.rootOfUnity?_eq hk, hvalues]
    rfl
  · rw [← dvd_iff_satisfied hk hn, defect, sub_eq_zero]
    constructor
    · intro h
      rw [h]
      exact Dvd.intro_left _ rfl
    · intro h
      have hmul := quotientOf_mul hk homega halen hblen hclen (by rw [ha, hb, hc]; exact h)
      rw [hmul, ha, hb, hc]
      rfl

/-- The defect has degree at most `2 * n - 2`. -/
theorem natDegree_defect_le (hk : k ≤ 28) {h : List Fr} (hlen : h.length = 2 ^ k - 1) :
    (defect cs ws (2 ^ k) h).natDegree ≤ 2 * 2 ^ k - 2 := by
  have homega := Fr.isPrimitiveRoot_root hk
  have hpos : 0 < 2 ^ k := Nat.two_pow_pos k
  have hsides := natDegree_mul_sub_le (degree_interpolant_lt homega (sideValue cs ws Constraint.a))
    (degree_interpolant_lt homega (sideValue cs ws Constraint.b))
    (degree_interpolant_lt homega (sideValue cs ws Constraint.c)) hpos
  refine (natDegree_sub_le _ _).trans (max_le hsides ?_)
  rcases eq_or_ne (ofCoefficients h) 0 with hzero | hne
  · rw [hzero, zero_mul, natDegree_zero]
    exact Nat.zero_le _
  · have hdegree := degree_ofCoefficients_lt h
    rw [hlen, ← natDegree_lt_iff_degree_lt hne] at hdegree
    refine natDegree_mul_le.trans ?_
    rw [← C_1, natDegree_X_pow_sub_C]
    omega

end MerkleSnark.Groth16
