import Mathlib
import MerkleSnark.Proofs.Groth16.Completeness

/-!
# One program, evaluated twice

Key generation collects the coefficients of every wire, weighed by the Lagrange basis at the secret
point; a prover evaluates every constraint and interpolates.  Weighed by the wire values, the
numbers of the first are the values at the secret point of the polynomials of the second.  Both read
every coefficient of the system, so both refuse the same systems.  What the prover interpolates it
divides without a remainder for satisfying wire values and for no others.

## Main results

* `wirePolynomials?_ok_iff`, `constraintValues?_ok_iff` — only a wire that is missing is refused.
* `sum_wireValues_mul_wirePolynomials?` — **both ways evaluate the same three polynomials**.
* `quotient?_divides_iff` — **the division is exact for satisfying wire values only**.
-/

open Polynomial

namespace MerkleSnark.Groth16

open MerkleSnark.Polynomial

variable {cs : ConstraintSystem} {n : ℕ}

/-! ### Refused systems -/

/-- On a domain with enough points, the wire polynomials exist for well-formed systems only. -/
theorem wirePolynomials?_ok_iff {basis : List Fr} (hn : cs.numConstraints ≤ basis.length) :
    (∃ polys, wirePolynomials? cs basis = .ok polys) ↔ cs.WellFormed := by
  have hlen : ¬ basis.length < cs.numConstraints := not_lt.mpr hn
  rw [ConstraintSystem.WellFormed, ← List.all_eq_true]
  cases hall : cs.constraints.all (·.boundedBy cs.numVariables) with
  | false => simp [wirePolynomials?, hlen, hall]
  | true => simp [wirePolynomials?, hlen, hall]

theorem boundedBy_of_sideValues? {ws : List Fr} {rows : List LinearCombination} {size : ℕ}
    {vs : List Fr} (h : sideValues? ws.toArray rows size = some vs) :
    ∀ x ∈ rows, x.boundedBy ws.length = true := by
  obtain ⟨values, hvalues, -⟩ := Option.bind_eq_some_iff.mp h
  clear h
  induction rows generalizing values with
  | nil => exact fun x hx => absurd hx List.not_mem_nil
  | cons row rows ih =>
    rw [List.mapM_cons] at hvalues
    obtain ⟨value, hvalue, hrest⟩ := Option.bind_eq_some_iff.mp hvalues
    obtain ⟨others, hothers, -⟩ := Option.bind_eq_some_iff.mp hrest
    rw [LinearCombination.evalAt?, List.size_toArray] at hvalue
    have hrow : row.boundedBy ws.length = true := by
      by_contra hne
      rw [if_neg hne] at hvalue
      cases hvalue
    exact List.forall_mem_cons.mpr ⟨hrow, ih others hothers⟩

/-- On a domain with enough points, a side has one value for every point. -/
theorem length_of_sideValues? {w : Array Fr} {rows : List LinearCombination} {vs : List Fr}
    (hn : rows.length ≤ n) (h : sideValues? w rows n = some vs) : vs.length = n := by
  obtain ⟨ws⟩ := w
  rw [sideValues?_eq (boundedBy_of_sideValues? h), Option.some.injEq] at h
  rw [← h, List.length_append, List.length_map, List.length_replicate, Nat.add_sub_cancel' hn]

theorem lengths_of_constraintValues? {w : Array Fr} {values : Sides (List Fr)}
    (hn : cs.numConstraints ≤ n) (h : constraintValues? cs w n = .ok values) :
    values.a.length = n ∧ values.b.length = n ∧ values.c.length = n := by
  have hside (f : Constraint → LinearCombination) : (cs.constraints.map f).length ≤ n := by
    rwa [List.length_map]
  rw [constraintValues?] at h
  split at h
  · next a b c ha hb hc =>
    cases h
    exact ⟨length_of_sideValues? (hside _) ha, length_of_sideValues? (hside _) hb,
      length_of_sideValues? (hside _) hc⟩
  · cases h

/-- The sides of all constraints have values for well-formed systems only. -/
theorem constraintValues?_ok_iff {ws : List Fr} (hws : ws.length = cs.numVariables)
    (hn : cs.numConstraints ≤ n) :
    (∃ values, constraintValues? cs ws.toArray n = .ok values) ↔ cs.WellFormed := by
  constructor
  · rintro ⟨values, h⟩ k hk
    rw [constraintValues?] at h
    split at h
    · next a b c ha hb hc =>
      rw [Constraint.boundedBy, ← hws, Bool.and_eq_true, Bool.and_eq_true]
      exact ⟨⟨boundedBy_of_sideValues? ha _ (List.mem_map_of_mem hk),
        boundedBy_of_sideValues? hb _ (List.mem_map_of_mem hk)⟩,
        boundedBy_of_sideValues? hc _ (List.mem_map_of_mem hk)⟩
    · cases h
  · intro hcs
    obtain ⟨values, h, -⟩ := exists_constraintValues?_eq hcs hws hn
    exact ⟨values, h⟩

/-! ### Two evaluations -/

/-- The prover's coefficients are those of the side polynomial. -/
theorem eval_ofCoefficients_ifft {k : ℕ} (hk : k ≤ 28) {values ws : List Fr}
    (hlen : values.length = 2 ^ k) {side : Constraint → LinearCombination}
    (hvalues : (fun j => values.getD j 0) = sideValue cs ws side) (tau : Fr) :
    (ofCoefficients (ifft (Fr.root (2 ^ k)) values)).eval tau
      = (sidePolynomial cs ws (2 ^ k) side).eval tau := by
  rw [ofCoefficients_ifft (Fr.isPrimitiveRoot_root hk) hlen, hvalues, sidePolynomial]

/-- **Both ways evaluate the same three polynomials.**  Off the domain there are a basis and a root
of unity; a system that one of the two ways accepts is accepted by the other; and the sums over all
wires of the wire polynomials are the values of the interpolated polynomials. -/
theorem sum_wireValues_mul_wirePolynomials? {k : ℕ} (hk : k ≤ 28) (hn : cs.numConstraints ≤ 2 ^ k)
    {ws : List Fr} (hws : ws.length = cs.numVariables) {tau : Fr} (htau : tau ^ 2 ^ k ≠ 1) :
    ∃ basis omega, lagrangeBasis? (2 ^ k) tau = .ok basis
      ∧ Fr.rootOfUnity? ((2 ^ k : ℕ) : ℤ) = .ok omega
      ∧ ((∃ polys, wirePolynomials? cs basis = .ok polys) ↔ cs.WellFormed)
      ∧ ((∃ values, constraintValues? cs ws.toArray (2 ^ k) = .ok values) ↔ cs.WellFormed)
      ∧ ∀ polys values, wirePolynomials? cs basis = .ok polys →
        constraintValues? cs ws.toArray (2 ^ k) = .ok values →
        ∑ i ∈ Finset.range cs.numVariables, wireValues ws i * wireValues polys.a i
            = (ofCoefficients (ifft omega values.a)).eval tau
          ∧ ∑ i ∈ Finset.range cs.numVariables, wireValues ws i * wireValues polys.b i
            = (ofCoefficients (ifft omega values.b)).eval tau
          ∧ ∑ i ∈ Finset.range cs.numVariables, wireValues ws i * wireValues polys.c i
            = (ofCoefficients (ifft omega values.c)).eval tau := by
  have hvanishing : vanishing (2 ^ k) tau ≠ 0 := sub_ne_zero.mpr htau
  refine ⟨_, _, lagrangeBasis?_eq hk hvanishing, Fr.rootOfUnity?_eq hk,
    wirePolynomials?_ok_iff (by rwa [List.length_map, List.length_range]),
    constraintValues?_ok_iff hws hn, fun polys values hpolys hvalues => ?_⟩
  have hcs : cs.WellFormed := (constraintValues?_ok_iff hws hn).mp ⟨values, hvalues⟩
  obtain ⟨polys', hpolys', hwire⟩ := exists_wirePolynomials?_eq hcs hn tau
  obtain rfl : polys' = polys := Except.ok.inj (hpolys'.symm.trans hpolys)
  obtain ⟨values', hvalues', hlena, hlenb, hlenc, ha, hb, hc⟩ :=
    exists_constraintValues?_eq hcs hws hn
  obtain rfl : values' = values := Except.ok.inj (hvalues'.symm.trans hvalues)
  have hsum {ps : List Fr} (hlen : ps.length = cs.numVariables) :
      ∑ i ∈ Finset.range cs.numVariables, wireValues ws i * wireValues ps i = dot ps ws := by
    rw [dot_eq_sum ws hlen.le]
    exact Finset.sum_congr rfl fun i _ => mul_comm _ _
  rw [hsum hwire.length_a, hsum hwire.length_b, hsum hwire.length_c, hwire.dot_a, hwire.dot_b,
    hwire.dot_c, eval_ofCoefficients_ifft hk hlena ha, eval_ofCoefficients_ifft hk hlenb hb,
    eval_ofCoefficients_ifft hk hlenc hc]
  exact ⟨rfl, rfl, rfl⟩

theorem sum_wireValues_mul_wirePolynomials?_square : ∃ basis omega polys values,
    lagrangeBasis? (2 ^ 2) 11 = .ok basis ∧ Fr.rootOfUnity? ((2 ^ 2 : ℕ) : ℤ) = .ok omega
      ∧ wirePolynomials? squareSystem basis = .ok polys
      ∧ constraintValues? squareSystem [1, 8, 3].toArray (2 ^ 2) = .ok values
      ∧ ∑ i ∈ Finset.range 3, wireValues [1, 8, 3] i * wireValues polys.a i
        = (ofCoefficients (ifft omega values.a)).eval 11
      ∧ ∑ i ∈ Finset.range 3, wireValues [1, 8, 3] i * wireValues polys.b i
        = (ofCoefficients (ifft omega values.b)).eval 11
      ∧ ∑ i ∈ Finset.range 3, wireValues [1, 8, 3] i * wireValues polys.c i
        = (ofCoefficients (ifft omega values.c)).eval 11 := by
  have hcount : squareSystem.numConstraints ≤ 2 ^ 2 := by decide
  have hlen : ([1, 8, 3] : List Fr).length = squareSystem.numVariables := rfl
  have htau : (11 : Fr) ^ 2 ^ 2 ≠ 1 := by
    rw [pow_two 2, pow_mul, pow_two, pow_two]
    decide
  obtain ⟨basis, omega, hbasis, homega, hpolys, hvalues, hsum⟩ :=
    sum_wireValues_mul_wirePolynomials? (by decide) hcount hlen htau
  obtain ⟨polys, hpolys⟩ := hpolys.mpr (by decide)
  obtain ⟨values, hvalues⟩ := hvalues.mpr (by decide)
  exact ⟨basis, omega, polys, values, hbasis, homega, hpolys, hvalues,
    hsum polys values hpolys hvalues⟩

/-! ### The division -/

/-- A prover divides the values of the sides, on the domain of the root that it finds. -/
theorem quotient?_eq_map {k : ℕ} (hk : k ≤ 28) (cs : ConstraintSystem) (w : Array Fr) :
    quotient? cs w (2 ^ k)
      = (constraintValues? cs w (2 ^ k)).map (quotientOf (Fr.root (2 ^ k)) (2 ^ k)) := by
  rw [quotient?, Fr.rootOfUnity?_eq hk]
  cases constraintValues? cs w (2 ^ k) <;> rfl

/-- **The division is exact for satisfying wire values only.**  On every domain with enough points
there are values of the three sides and a quotient, unless a constraint mentions a wire that is
missing.  The quotient has one coefficient less than the domain has points, and times `Xⁿ - 1` it is
`A · B - C` for the interpolants of the values just when all constraints hold. -/
theorem quotient?_divides_iff {k : ℕ} (hk : k ≤ 28) (hn : cs.numConstraints ≤ 2 ^ k)
    {ws : List Fr} (hws : ws.length = cs.numVariables) :
    ∃ omega, Fr.rootOfUnity? ((2 ^ k : ℕ) : ℤ) = .ok omega ∧ IsPrimitiveRoot omega (2 ^ k)
      ∧ ((∃ values, constraintValues? cs ws.toArray (2 ^ k) = .ok values) ↔ cs.WellFormed)
      ∧ ((∃ h, quotient? cs ws.toArray (2 ^ k) = .ok h) ↔ cs.WellFormed)
      ∧ ∀ values h, constraintValues? cs ws.toArray (2 ^ k) = .ok values →
        quotient? cs ws.toArray (2 ^ k) = .ok h →
        h.length = 2 ^ k - 1
          ∧ ((interpolant omega (2 ^ k) fun j => values.a.getD j 0)
                * (interpolant omega (2 ^ k) fun j => values.b.getD j 0)
              - (interpolant omega (2 ^ k) fun j => values.c.getD j 0)
              = ofCoefficients h * (X ^ 2 ^ k - 1)
            ↔ cs.Satisfied (wireValues ws)) := by
  have hvalues := constraintValues?_ok_iff hws hn
  have hquotient : (∃ h, quotient? cs ws.toArray (2 ^ k) = .ok h) ↔ cs.WellFormed := by
    rw [← hvalues, quotient?_eq_map hk]
    cases constraintValues? cs ws.toArray (2 ^ k) <;> simp [Except.map]
  refine ⟨Fr.root (2 ^ k), Fr.rootOfUnity?_eq hk, Fr.isPrimitiveRoot_root hk, hvalues, hquotient,
    fun values h hok hdivided => ?_⟩
  have hcs : cs.WellFormed := hvalues.mp ⟨values, hok⟩
  obtain ⟨values', hok', -, -, -, ha, hb, hc⟩ := exists_constraintValues?_eq hcs hws hn
  obtain rfl : values' = values := Except.ok.inj (hok'.symm.trans hok)
  obtain ⟨h', hdivided', hlen, hdefect⟩ := exists_quotient?_eq hk hcs hws hn
  obtain rfl : h' = h := Except.ok.inj (hdivided'.symm.trans hdivided)
  rw [defect, sub_eq_zero] at hdefect
  rw [ha, hb, hc]
  exact ⟨hlen, hdefect⟩

/-- Nine is the square of three and eight is not. -/
theorem quotient?_divides_iff_square : ∃ omega : Fr, IsPrimitiveRoot omega (2 ^ 2)
    ∧ (∃ values h, constraintValues? squareSystem [1, 9, 3].toArray (2 ^ 2) = .ok values
      ∧ quotient? squareSystem [1, 9, 3].toArray (2 ^ 2) = .ok h ∧ h.length = 3
      ∧ (interpolant omega 4 fun j => values.a.getD j 0)
            * (interpolant omega 4 fun j => values.b.getD j 0)
          - (interpolant omega 4 fun j => values.c.getD j 0) = ofCoefficients h * (X ^ 4 - 1))
    ∧ (∃ values h, constraintValues? squareSystem [1, 8, 3].toArray (2 ^ 2) = .ok values
      ∧ quotient? squareSystem [1, 8, 3].toArray (2 ^ 2) = .ok h ∧ h.length = 3
      ∧ (interpolant omega 4 fun j => values.a.getD j 0)
            * (interpolant omega 4 fun j => values.b.getD j 0)
          - (interpolant omega 4 fun j => values.c.getD j 0) ≠ ofCoefficients h * (X ^ 4 - 1)) := by
  have hcount : squareSystem.numConstraints ≤ 2 ^ 2 := by decide
  have hcs : squareSystem.WellFormed := by decide
  obtain ⟨omega, homega, hroot, hvalues, hquotient, hdivides⟩ := quotient?_divides_iff
    (by decide : 2 ≤ 28) hcount (rfl : ([1, 9, 3] : List Fr).length = squareSystem.numVariables)
  obtain ⟨omega', homega', -, hvalues', hquotient', hdivides'⟩ := quotient?_divides_iff
    (by decide : 2 ≤ 28) hcount (rfl : ([1, 8, 3] : List Fr).length = squareSystem.numVariables)
  obtain rfl : omega' = omega := Except.ok.inj (homega'.symm.trans homega)
  obtain ⟨values, hok⟩ := hvalues.mpr hcs
  obtain ⟨h, hdivided⟩ := hquotient.mpr hcs
  obtain ⟨values', hok'⟩ := hvalues'.mpr hcs
  obtain ⟨h', hdivided'⟩ := hquotient'.mpr hcs
  obtain ⟨hlen, hexact⟩ := hdivides values h hok hdivided
  obtain ⟨hlen', hexact'⟩ := hdivides' values' h' hok' hdivided'
  exact ⟨omega', hroot, ⟨values, h, hok, hdivided, hlen, hexact.mpr (by decide)⟩,
    ⟨values', h', hok', hdivided', hlen', fun heq => absurd (hexact'.mp heq) (by decide)⟩⟩

end MerkleSnark.Groth16
