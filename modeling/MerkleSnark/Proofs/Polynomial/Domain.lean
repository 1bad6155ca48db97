import Mathlib
import MerkleSnark.Polynomial.Domain
import MerkleSnark.Proofs.Polynomial.Fourier

/-!
# Interpolation on a domain

On the powers `ω⁰, …, ωⁿ⁻¹` of a primitive root of unity a polynomial of degree below `n` is fixed
by its values.  `lagrangeBasis?` evaluates the basis of this interpolation, and the inverse
transform finds its coefficients.

## Main definitions

* `interpolant` — the polynomial of degree below `n` with given values on the domain.

## Main results

* `exists_domainSize_eq` — the size of a domain is the least sufficient power of two.
* `nodal_eq_X_pow_sub_one` — the polynomial that vanishes on the domain.
* `vanishing_eq_zero_iff` — `xⁿ - 1` has no other zeros than the points of the domain.
* `lagrangeBasis?_eq` — off the domain, the basis polynomials are evaluated.
* `lagrangeBasis?_interpolates` — the basis is refused on the domain only, and off it turns the
  values of a polynomial on the domain into its value.
* `ofCoefficients_ifft` — the inverse transform finds the interpolant.
* `X_pow_sub_one_dvd_iff` — a polynomial vanishes on the domain when `Xⁿ - 1` divides it.
-/

open Polynomial

namespace MerkleSnark.Polynomial

/-! ### The size of a domain -/

theorem exists_doubleUntil_eq (count fuel j : ℕ) :
    ∃ k, doubleUntil count fuel (2 ^ j) = 2 ^ k ∧ j ≤ k ∧ (k = j ∨ 2 ^ (k - 1) < count)
      ∧ (count ≤ 2 ^ (j + fuel) → count ≤ 2 ^ k) := by
  induction fuel generalizing j with
  | zero => exact ⟨j, rfl, le_rfl, Or.inl rfl, fun h => h⟩
  | succ fuel ih =>
    rw [doubleUntil]
    split
    · next hlt =>
      obtain ⟨k, heq, hle, hmin, hsuff⟩ := ih (j + 1)
      refine ⟨k, by rw [← heq, pow_succ], by omega, Or.inr ?_, fun h => hsuff ?_⟩
      · rcases hmin with rfl | h
        · exact hlt
        · exact h
      · rwa [Nat.add_right_comm, Nat.add_assoc]
    · next hge => exact ⟨j, rfl, le_rfl, Or.inl rfl, fun _ => not_lt.mp hge⟩

/-- The size of a domain is a power of two, at least two, that suffices for the constraints; up to
`2 ^ 28` constraints there is a root of unity of this order. -/
theorem exists_domainSize_eq (count : ℕ) :
    ∃ k, domainSize count = 2 ^ k ∧ 1 ≤ k ∧ count ≤ 2 ^ k ∧ (count ≤ 2 ^ 28 → k ≤ 28) := by
  obtain ⟨k, heq, hle, hmin, hsuff⟩ := exists_doubleUntil_eq count (count.log2 + 1) 1
  have hlog : count ≤ 2 ^ (1 + (count.log2 + 1)) := by
    have h := Nat.lt_log2_self (n := count)
    exact h.le.trans (Nat.pow_le_pow_right (by decide) (by omega))
  refine ⟨k, heq, hle, hsuff hlog, fun hcount => ?_⟩
  rcases hmin with rfl | h
  · decide
  · have hpow : 2 ^ (k - 1) < 2 ^ 28 := h.trans_le hcount
    have := (Nat.pow_lt_pow_iff_right (by decide)).mp hpow
    omega

/-! ### Interpolation -/

variable {omega : Fr} {n : ℕ}

/-- The polynomial of degree below `n` that takes the value `v j` at `ω ^ j`. -/
noncomputable def interpolant (omega : Fr) (n : ℕ) (v : ℕ → Fr) : Fr[X] :=
  Lagrange.interpolate (Finset.range n) (fun j => omega ^ j) v

theorem injOn_pow (homega : IsPrimitiveRoot omega n) :
    Set.InjOn (fun j => omega ^ j) (Finset.range n : Set ℕ) := by
  intro i hi j hj h
  rw [Finset.mem_coe, Finset.mem_range] at hi hj
  exact homega.pow_inj hi hj h

theorem eval_interpolant (homega : IsPrimitiveRoot omega n) (v : ℕ → Fr) {j : ℕ} (hj : j < n) :
    (interpolant omega n v).eval (omega ^ j) = v j :=
  Lagrange.eval_interpolate_at_node v (injOn_pow homega) (Finset.mem_range.mpr hj)

theorem degree_interpolant_lt (homega : IsPrimitiveRoot omega n) (v : ℕ → Fr) :
    (interpolant omega n v).degree < (n : WithBot ℕ) := by
  have h := Lagrange.degree_interpolate_lt v (injOn_pow homega)
  rwa [Finset.card_range] at h

/-- A polynomial of degree below `n` is the interpolant of its values. -/
theorem eq_interpolant (homega : IsPrimitiveRoot omega n) {f : Fr[X]} {v : ℕ → Fr}
    (hdegree : f.degree < (n : WithBot ℕ)) (hv : ∀ j < n, f.eval (omega ^ j) = v j) :
    f = interpolant omega n v := by
  refine Lagrange.eq_interpolate_of_eval_eq v (injOn_pow homega) ?_ fun j hj => ?_
  · rwa [Finset.card_range]
  · exact hv j (Finset.mem_range.mp hj)

/-- The polynomial that vanishes on the domain. -/
theorem nodal_eq_X_pow_sub_one (homega : IsPrimitiveRoot omega n) (hn : 0 < n) :
    Lagrange.nodal (Finset.range n) (fun j => omega ^ j) = X ^ n - 1 := by
  have hdegree : (Lagrange.nodal (Finset.range n) fun j => omega ^ j).degree = (n : WithBot ℕ) := by
    rw [Lagrange.degree_nodal, Finset.card_range]
  have hpow : (X ^ n - 1 : Fr[X]).degree = (n : WithBot ℕ) := degree_X_pow_sub_C hn 1
  refine eq_of_degree_sub_lt_of_eval_index_eq _ (injOn_pow homega) ?_ fun j hj => ?_
  · rw [Finset.card_range, ← hdegree]
    refine degree_sub_lt_left (hdegree.trans hpow.symm) Lagrange.nodal_ne_zero ?_
    rw [Lagrange.nodal_monic.leadingCoeff]
    exact (leadingCoeff_X_pow_sub_one hn).symm
  · rw [Lagrange.eval_nodal_at_node hj, eval_sub, eval_pow, eval_X, eval_one, ← pow_mul, mul_comm,
      pow_mul, homega.pow_eq_one, one_pow, sub_self]

/-- The points of the domain are the zeros of `xⁿ - 1`. -/
theorem vanishing_pow_eq_zero (homega : IsPrimitiveRoot omega n) (j : ℕ) :
    vanishing n (omega ^ j) = 0 := by
  rw [vanishing, ← pow_mul, mul_comm, pow_mul, homega.pow_eq_one, one_pow, sub_self]

theorem ne_pow_of_vanishing_ne_zero (homega : IsPrimitiveRoot omega n) {tau : Fr}
    (h : vanishing n tau ≠ 0) (j : ℕ) : tau ≠ omega ^ j := by
  rintro rfl
  exact h (vanishing_pow_eq_zero homega j)

theorem mem_powersFrom_iff {tau : Fr} :
    tau ∈ Fr.powersFrom 1 omega n ↔ ∃ j < n, omega ^ j = tau := by
  rw [Fr.powersFrom_one, List.mem_map]
  simp only [List.mem_range]

/-- The points of the domain are distinct. -/
theorem nodup_powersFrom (homega : IsPrimitiveRoot omega n) :
    (Fr.powersFrom 1 omega n).Nodup := by
  rw [Fr.powersFrom_one]
  refine List.Nodup.map_on (fun i hi j hj h => ?_) List.nodup_range
  exact homega.pow_inj (List.mem_range.mp hi) (List.mem_range.mp hj) h

/-- **The points of the domain are all zeros** of `xⁿ - 1`. -/
theorem vanishing_eq_zero_iff (homega : IsPrimitiveRoot omega n) (hn : 0 < n) (tau : Fr) :
    vanishing n tau = 0 ↔ tau ∈ Fr.powersFrom 1 omega n := by
  rw [mem_powersFrom_iff]
  constructor
  · intro h
    have : NeZero n := ⟨hn.ne'⟩
    exact homega.eq_pow_of_pow_eq_one (sub_eq_zero.mp h)
  · rintro ⟨j, -, rfl⟩
    exact vanishing_pow_eq_zero homega j

/-- A polynomial vanishes on the domain exactly when `Xⁿ - 1` divides it. -/
theorem X_pow_sub_one_dvd_iff (homega : IsPrimitiveRoot omega n) (hn : 0 < n) (f : Fr[X]) :
    X ^ n - 1 ∣ f ↔ ∀ j < n, f.eval (omega ^ j) = 0 := by
  rw [← nodal_eq_X_pow_sub_one homega hn]
  constructor
  · rintro ⟨q, rfl⟩ j hj
    rw [eval_mul, Lagrange.eval_nodal_at_node (Finset.mem_range.mpr hj), zero_mul]
  · intro h
    set z := Lagrange.nodal (Finset.range n) fun j => omega ^ j with hz
    rw [← modByMonic_eq_zero_iff_dvd Lagrange.nodal_monic]
    -- the remainder has a degree below `n` and vanishes at `n` points
    refine eq_zero_of_degree_lt_of_eval_index_eq_zero _ (injOn_pow homega) ?_
      fun j hj => ?_
    · rw [← Lagrange.degree_nodal (v := fun j => omega ^ j)]
      exact degree_modByMonic_lt _ Lagrange.nodal_monic
    · rw [modByMonic_eq_sub_mul_div, eval_sub, eval_mul, Lagrange.eval_nodal_at_node hj, zero_mul,
        sub_zero]
      exact h j (Finset.mem_range.mp hj)

/-! ### The Lagrange basis -/

/-- The value of a basis polynomial off the domain. -/
theorem eval_basis (homega : IsPrimitiveRoot omega n) {tau : Fr} (htau : vanishing n tau ≠ 0)
    {j : ℕ} (hj : j < n) :
    (Lagrange.basis (Finset.range n) (fun j => omega ^ j) j).eval tau
      = vanishing n tau / (n : Fr) * omega ^ j / (tau - omega ^ j) := by
  have hn : 0 < n := by omega
  have hne : omega ^ j ≠ 0 := pow_ne_zero j (homega.ne_zero hn.ne')
  have hweight : Lagrange.nodalWeight (Finset.range n) (fun j => omega ^ j) j
      = omega ^ j / (n : Fr) := by
    have hroot : omega ^ j * (omega ^ j) ^ (n - 1) = 1 := by
      rw [← pow_succ', Nat.sub_add_cancel hn, ← pow_mul, mul_comm, pow_mul, homega.pow_eq_one,
        one_pow]
    rw [Lagrange.nodalWeight_eq_eval_derivative_nodal (Finset.mem_range.mpr hj),
      nodal_eq_X_pow_sub_one homega hn]
    simp only [derivative_sub, derivative_X_pow, derivative_one, sub_zero, eval_mul, eval_pow,
      eval_X, eval_C]
    rw [mul_inv, ← eq_inv_of_mul_eq_one_left hroot, div_eq_mul_inv, mul_comm]
  rw [Lagrange.eval_basis_not_at_node (Finset.mem_range.mpr hj)
    (ne_pow_of_vanishing_ne_zero homega htau j), nodal_eq_X_pow_sub_one homega hn, hweight,
    eval_sub, eval_pow, eval_X, eval_one, ← vanishing]
  ring

/-- **Off the domain, the basis polynomials are evaluated.** -/
theorem lagrangeBasis?_eq {k : ℕ} (hk : k ≤ 28) {tau : Fr} (htau : vanishing (2 ^ k) tau ≠ 0) :
    lagrangeBasis? (2 ^ k) tau
      = .ok ((List.range (2 ^ k)).map fun j =>
          (Lagrange.basis (Finset.range (2 ^ k)) (fun j => Fr.root (2 ^ k) ^ j) j).eval tau) := by
  rw [lagrangeBasis?, if_neg htau, Fr.rootsOfUnity?_eq hk, Fr.powersFrom_one]
  refine congrArg Except.ok ?_
  rw [List.map_map]
  refine List.map_congr_left fun j hj => ?_
  rw [eval_basis (Fr.isPrimitiveRoot_root hk) htau (List.mem_range.mp hj), Function.comp_apply]

theorem lagrangeBasis?_eq_error {tau : Fr} (htau : vanishing n tau = 0) :
    lagrangeBasis? n tau = .error .pointOnDomain := by
  rw [lagrangeBasis?, if_pos htau]

/-- The basis is refused at the zeros of `xⁿ - 1` and nowhere else. -/
theorem lagrangeBasis?_eq_error_iff {k : ℕ} (hk : k ≤ 28) (tau : Fr) (e : DomainError) :
    lagrangeBasis? (2 ^ k) tau = .error e ↔ vanishing (2 ^ k) tau = 0 ∧ e = .pointOnDomain := by
  constructor
  · intro h
    by_cases htau : vanishing (2 ^ k) tau = 0
    · rw [lagrangeBasis?_eq_error htau, Except.error.injEq] at h
      exact ⟨htau, h.symm⟩
    · rw [lagrangeBasis?_eq hk htau] at h
      cases h
  · rintro ⟨htau, rfl⟩
    exact lagrangeBasis?_eq_error htau

/-- The basis weighs the values of a polynomial so that they sum to its value. -/
theorem sum_mul_eval_basis (omega : Fr) (n : ℕ) (v : ℕ → Fr) (tau : Fr) :
    ∑ j ∈ Finset.range n,
        v j * (Lagrange.basis (Finset.range n) (fun j => omega ^ j) j).eval tau
      = (interpolant omega n v).eval tau := by
  rw [interpolant, Lagrange.interpolate_apply, eval_finsetSum]
  exact Finset.sum_congr rfl fun j _ => by rw [eval_mul, eval_C]

/-- A polynomial of degree below `n` is its own interpolant, so the basis weighs its values. -/
theorem sum_eval_mul_eval_basis (homega : IsPrimitiveRoot omega n) {f : Fr[X]}
    (hdegree : f.degree < (n : WithBot ℕ)) (tau : Fr) :
    ∑ j ∈ Finset.range n, f.eval (omega ^ j)
        * (Lagrange.basis (Finset.range n) (fun j => omega ^ j) j).eval tau = f.eval tau := by
  rw [sum_mul_eval_basis omega n (fun j => f.eval (omega ^ j)),
    ← eq_interpolant homega hdegree fun _ _ => rfl]

/-- **The Lagrange basis interpolates.**  The points of a domain are the powers of the root of unity
that the search finds.  The basis at a point is refused just when the point is one of them; off the
domain there is one value for each point, and these weigh the values of every polynomial of degree
below their number so that they sum to its value.  In particular their own sum is one. -/
theorem lagrangeBasis?_interpolates {k : ℕ} (hk : k ≤ 28) (tau : Fr) :
    ∃ omega roots, Fr.rootOfUnity? ((2 ^ k : ℕ) : ℤ) = .ok omega
      ∧ Fr.rootsOfUnity? ((2 ^ k : ℕ) : ℤ) = .ok roots
      ∧ roots = (List.range (2 ^ k)).map (omega ^ ·) ∧ roots.Nodup
      ∧ (∀ e, lagrangeBasis? (2 ^ k) tau = .error e ↔ tau ∈ roots ∧ e = .pointOnDomain)
      ∧ (tau ∉ roots → ∃ basis, lagrangeBasis? (2 ^ k) tau = .ok basis ∧ basis.length = 2 ^ k
          ∧ (∀ f : Fr[X], f.degree < ((2 ^ k : ℕ) : WithBot ℕ) →
            ∑ j ∈ Finset.range (2 ^ k), f.eval (omega ^ j) * basis.getD j 0 = f.eval tau)
          ∧ basis.sum = 1) := by
  have homega := Fr.isPrimitiveRoot_root hk
  have hpos : 0 < 2 ^ k := Nat.two_pow_pos k
  have hzero := vanishing_eq_zero_iff homega hpos tau
  refine ⟨_, _, Fr.rootOfUnity?_eq hk, Fr.rootsOfUnity?_eq hk, Fr.powersFrom_one _ _,
    nodup_powersFrom homega, fun e => ?_, fun htau => ?_⟩
  · rw [← hzero]
    exact lagrangeBasis?_eq_error_iff hk tau e
  · refine ⟨_, lagrangeBasis?_eq hk (mt hzero.mp htau),
      by rw [List.length_map, List.length_range], fun f hdegree => ?_, ?_⟩
    · rw [← sum_eval_mul_eval_basis homega hdegree tau]
      refine Finset.sum_congr rfl fun j hj => ?_
      rw [List.getD_eq_getElem?_getD, List.getElem?_map,
        List.getElem?_range (Finset.mem_range.mp hj), Option.map_some, Option.getD_some]
    · -- the sum of the weights is the value of the polynomial one
      have hone := sum_eval_mul_eval_basis homega (f := 1)
        (degree_one_le.trans_lt (by exact_mod_cast hpos)) tau
      simp only [eval_one, one_mul] at hone
      exact hone

/-- Eleven lies off the domain of four points, and one on it. -/
theorem lagrangeBasis?_interpolates_fourPoints : 2 ≤ 28
    ∧ lagrangeBasis? (2 ^ 2) 1 = .error .pointOnDomain
    ∧ ∃ omega basis, Fr.rootOfUnity? ((2 ^ 2 : ℕ) : ℤ) = .ok omega
      ∧ lagrangeBasis? (2 ^ 2) 11 = .ok basis ∧ basis.length = 4 ∧ basis.sum = 1
      ∧ ∑ j ∈ Finset.range 4, (X ^ 3 : Fr[X]).eval (omega ^ j) * basis.getD j 0 = 11 ^ 3 := by
  have hk : 2 ≤ 28 := by decide
  have heleven : vanishing (2 ^ 2) 11 ≠ 0 := by
    rw [vanishing, pow_two 2, pow_mul, pow_two, pow_two]
    decide
  obtain ⟨omega, _, -, -, rfl, -, hrefused, -⟩ := lagrangeBasis?_interpolates hk 1
  have hon := (hrefused .pointOnDomain).mpr
    ⟨List.mem_map.mpr ⟨0, List.mem_range.mpr (by decide), pow_zero _⟩, rfl⟩
  obtain ⟨omega, roots, homega, -, -, -, hrefused, hbasis⟩ := lagrangeBasis?_interpolates hk 11
  have hoff : 11 ∉ roots := by
    intro hmem
    have herror := (hrefused .pointOnDomain).mpr ⟨hmem, rfl⟩
    rw [lagrangeBasis?_eq hk heleven] at herror
    cases herror
  obtain ⟨basis, hok, hlen, hinterpolate, hsum⟩ := hbasis hoff
  have hcube := hinterpolate (X ^ 3) (by rw [degree_X_pow]; decide)
  rw [eval_pow, eval_X] at hcube
  exact ⟨hk, hon, omega, basis, homega, hok, hlen, hsum, hcube⟩

/-! ### Coefficients -/

/-- **The inverse transform finds the interpolant.** -/
theorem ofCoefficients_ifft {k : ℕ} (homega : IsPrimitiveRoot omega (2 ^ k)) {evals : List Fr}
    (hlen : evals.length = 2 ^ k) :
    ofCoefficients (ifft omega evals) = interpolant omega (2 ^ k) fun j => evals.getD j 0 := by
  refine eq_interpolant homega ?_ fun j hj => ?_
  · have h := degree_ofCoefficients_lt (ifft omega evals)
    rwa [length_ifft homega hlen] at h
  · rw [← getD_fft homega (length_ifft homega hlen) hj, fft_ifft homega hlen]

end MerkleSnark.Polynomial
