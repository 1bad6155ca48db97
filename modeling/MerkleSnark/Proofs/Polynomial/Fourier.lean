import Mathlib
import MerkleSnark.Proofs.Polynomial.Coefficients

/-!
# The transforms evaluate and interpolate

A transform of size `2 ^ k` at a primitive root of unity lists the values of the polynomial of its
input on the domain, and the inverse transform finds the coefficients again.

## Main results

* `fft_eq_map` — the transform evaluates on the domain.
* `cosetFft_eq_map` — the coset transform evaluates on the coset.
* `fft_ifft`, `ifft_fft` — the two transforms are inverse to each other.
* `cosetFft_cosetIfft`, `cosetIfft_cosetFft` — so are those of a coset.
* `transforms_evaluate` — entry for entry, the transforms are sums over the coefficients.
* `transforms_invert` — at the root that the search finds, both pairs are inverse on both sides.
-/

open Polynomial

namespace MerkleSnark.Polynomial

/-! ### Evaluation -/

theorem fft_of_two_le (omega : Fr) {coeffs : List Fr} (h : 2 ≤ coeffs.length) :
    fft omega coeffs
      = butterflies omega (fft (omega * omega) (evens coeffs))
          (fft (omega * omega) (odds coeffs)) := by
  match coeffs, h with
  | _ :: _ :: _, _ => rw [fft]

theorem scaleByPowers_eq_zipWith (c x : Fr) (vs : List Fr) :
    scaleByPowers c x vs = List.zipWith (· * ·) vs (Fr.powersFrom c x vs.length) := by
  induction vs generalizing c with
  | nil => rfl
  | cons v vs ih => rw [scaleByPowers, ih, List.length_cons, Fr.powersFrom, List.zipWith_cons_cons]

/-- The butterflies of two transforms that list the values of `e` and of `o` at the squares of the
points list the values of `e + x · o` at the points and at their opposites. -/
theorem butterflies_map (omega : Fr) (n : ℕ) (e o : Fr → Fr) :
    butterflies omega ((Fr.powersFrom 1 (omega * omega) n).map e)
        ((Fr.powersFrom 1 (omega * omega) n).map o)
      = (Fr.powersFrom 1 omega n).map (fun x => e (x * x) + x * o (x * x))
        ++ (Fr.powersFrom 1 omega n).map (fun x => e (x * x) + -x * o (x * x)) := by
  have hsquares : Fr.powersFrom 1 (omega * omega) n
      = (Fr.powersFrom 1 omega n).map fun x => x * x := by
    rw [Fr.map_square_powersFrom, mul_one]
  rw [butterflies, scaleByPowers_eq_zipWith]
  simp only [hsquares, List.map_map, List.length_map, Fr.length_powersFrom, Nat.sub_self,
    List.replicate_zero, List.append_nil]
  simp only [List.zipWith_map_left, List.zipWith_map_right, List.zipWith_self]
  simp only [Function.comp_def]
  congr 1 <;> refine List.map_congr_left fun x _ => ?_ <;> ring

/-- A primitive root of an even order has the power `-1` at half of the order. -/
theorem pow_half_eq_neg_one {omega : Fr} {n : ℕ} (h : IsPrimitiveRoot omega (n * 2)) (hn : n ≠ 0) :
    omega ^ n = -1 :=
  (h.pow (by omega) rfl).eq_neg_one_of_two_right

/-- **The transform evaluates on the domain.** -/
theorem fft_eq_map {k : ℕ} {omega : Fr} (homega : IsPrimitiveRoot omega (2 ^ k)) {coeffs : List Fr}
    (hlen : coeffs.length = 2 ^ k) :
    fft omega coeffs
      = (Fr.powersFrom 1 omega (2 ^ k)).map fun x => (ofCoefficients coeffs).eval x := by
  induction k generalizing omega coeffs with
  | zero =>
    obtain ⟨c, rfl⟩ := List.length_eq_one_iff.mp hlen
    simp [fft, Fr.powersFrom]
  | succ k ih =>
    have hpos : 2 ^ k ≠ 0 := pow_ne_zero k two_ne_zero
    have htwo : coeffs.length = 2 * 2 ^ k := by rw [hlen, pow_succ']
    have hsquare : IsPrimitiveRoot (omega * omega) (2 ^ k) := by
      rw [← sq]
      exact homega.pow (by positivity) (pow_succ' 2 k)
    have heven : (evens coeffs).length = 2 ^ k := by rw [length_evens]; omega
    have hodd : (odds coeffs).length = 2 ^ k := by rw [length_odds]; omega
    rw [fft_of_two_le _ (by omega), ih hsquare heven, ih hsquare hodd, butterflies_map, pow_succ,
      mul_two, Fr.powersFrom_add, List.map_append, one_mul,
      pow_half_eq_neg_one (by rw [← pow_succ]; exact homega) hpos]
    congr 1
    · exact List.map_congr_left fun x _ => (eval_ofCoefficients_split coeffs x).symm
    · -- the second half of the domain is the first one with the sign changed
      have hneg := Fr.map_mul_powersFrom (-1) 1 omega (2 ^ k)
      rw [mul_one] at hneg
      rw [← hneg, List.map_map]
      refine List.map_congr_left fun x _ => ?_
      rw [Function.comp_apply, neg_one_mul, eval_ofCoefficients_split coeffs (-x), neg_mul_neg]

/-- **The coset transform evaluates on the coset.** -/
theorem cosetFft_eq_map {k : ℕ} {omega : Fr} (homega : IsPrimitiveRoot omega (2 ^ k)) (shift : Fr)
    {coeffs : List Fr} (hlen : coeffs.length = 2 ^ k) :
    cosetFft omega shift coeffs
      = (Fr.powersFrom 1 omega (2 ^ k)).map fun x => (ofCoefficients coeffs).eval (shift * x) := by
  rw [cosetFft, fft_eq_map homega (by rw [length_scaleByPowers, hlen])]
  refine List.map_congr_left fun x _ => ?_
  rw [eval_ofCoefficients_scaleByPowers, one_mul]

theorem length_fft {k : ℕ} {omega : Fr} (homega : IsPrimitiveRoot omega (2 ^ k))
    {coeffs : List Fr} (hlen : coeffs.length = 2 ^ k) : (fft omega coeffs).length = 2 ^ k := by
  rw [fft_eq_map homega hlen, List.length_map, Fr.length_powersFrom]

theorem length_ifft {k : ℕ} {omega : Fr} (homega : IsPrimitiveRoot omega (2 ^ k))
    {evals : List Fr} (hlen : evals.length = 2 ^ k) : (ifft omega evals).length = 2 ^ k := by
  rw [ifft, List.length_map, length_fft homega.inv hlen]

theorem length_cosetFft {k : ℕ} {omega : Fr} (homega : IsPrimitiveRoot omega (2 ^ k)) (shift : Fr)
    {coeffs : List Fr} (hlen : coeffs.length = 2 ^ k) :
    (cosetFft omega shift coeffs).length = 2 ^ k := by
  rw [cosetFft, length_fft homega (by rw [length_scaleByPowers, hlen])]

theorem getElem?_map_powersFrom (f : Fr → Fr) (omega : Fr) {n j : ℕ} (hj : j < n) :
    ((Fr.powersFrom 1 omega n).map f)[j]? = some (f (omega ^ j)) := by
  rw [Fr.powersFrom_one, List.map_map, List.getElem?_map, List.getElem?_range hj,
    Option.map_some, Function.comp_apply]

theorem getElem?_fft {k : ℕ} {omega : Fr} (homega : IsPrimitiveRoot omega (2 ^ k))
    {coeffs : List Fr} (hlen : coeffs.length = 2 ^ k) {j : ℕ} (hj : j < 2 ^ k) :
    (fft omega coeffs)[j]? = some ((ofCoefficients coeffs).eval (omega ^ j)) := by
  rw [fft_eq_map homega hlen, getElem?_map_powersFrom _ _ hj]

theorem getElem?_cosetFft {k : ℕ} {omega : Fr} (homega : IsPrimitiveRoot omega (2 ^ k))
    (shift : Fr) {coeffs : List Fr} (hlen : coeffs.length = 2 ^ k) {j : ℕ} (hj : j < 2 ^ k) :
    (cosetFft omega shift coeffs)[j]?
      = some ((ofCoefficients coeffs).eval (shift * omega ^ j)) := by
  rw [cosetFft_eq_map homega shift hlen, getElem?_map_powersFrom _ _ hj]

theorem getD_fft {k : ℕ} {omega : Fr} (homega : IsPrimitiveRoot omega (2 ^ k)) {coeffs : List Fr}
    (hlen : coeffs.length = 2 ^ k) {j : ℕ} (hj : j < 2 ^ k) :
    (fft omega coeffs).getD j 0 = (ofCoefficients coeffs).eval (omega ^ j) := by
  rw [List.getD_eq_getElem?_getD, getElem?_fft homega hlen hj, Option.getD_some]

/-- The value as a sum over the places of a list from which the coefficients are read. -/
theorem eval_ofCoefficients_map {α : Type} (read : α → Fr) (cs : List α) (x : Fr) :
    (ofCoefficients (cs.map read)).eval x = ∑ i : Fin cs.length, read cs[i] * x ^ (i : ℕ) := by
  rw [eval_ofCoefficients_eq_sum, List.length_map, Finset.sum_range]
  refine Finset.sum_congr rfl fun i _ => ?_
  rw [List.getD_eq_getElem?_getD, List.getElem?_map, List.getElem?_eq_getElem i.isLt,
    Option.map_some, Option.getD_some, Fin.getElem_fin]

/-- **The transforms evaluate.**  A root of unity of exact order `2 ^ k` is found for every domain,
and at any such root the transform of coefficients, given as scalars or as integers, lists the
values of their polynomial at `1, ω, ω², …`, and the transform on a coset those at `s, sω, sω², …`,
with `s = 0` not excluded. -/
theorem transforms_evaluate {k : ℕ} (hk : k ≤ 28) :
    (∃ omega, Fr.rootOfUnity? ((2 ^ k : ℕ) : ℤ) = .ok omega ∧ orderOf omega = 2 ^ k)
      ∧ ∀ omega : Fr, orderOf omega = 2 ^ k →
        ∀ coeffs : List ScalarInput, coeffs.length = 2 ^ k → ∀ shift : Fr,
          (fft omega (coeffs.map ScalarInput.toFr)).length = 2 ^ k
            ∧ (cosetFft omega shift (coeffs.map ScalarInput.toFr)).length = 2 ^ k
            ∧ ∀ j < 2 ^ k,
              (fft omega (coeffs.map ScalarInput.toFr))[j]?
                  = some (∑ i : Fin coeffs.length, coeffs[i].toFr * omega ^ ((i : ℕ) * j))
                ∧ (cosetFft omega shift (coeffs.map ScalarInput.toFr))[j]?
                  = some (∑ i : Fin coeffs.length,
                      coeffs[i].toFr * (shift * omega ^ j) ^ (i : ℕ)) := by
  refine ⟨⟨_, Fr.rootOfUnity?_eq hk, (Fr.isPrimitiveRoot_root hk).eq_orderOf.symm⟩, ?_⟩
  intro omega horder coeffs hcoeffs shift
  have homega : IsPrimitiveRoot omega (2 ^ k) := IsPrimitiveRoot.iff_orderOf.mpr horder
  have hlen : (coeffs.map ScalarInput.toFr).length = 2 ^ k := by rw [List.length_map, hcoeffs]
  refine ⟨length_fft homega hlen, length_cosetFft homega shift hlen, fun j hj => ⟨?_, ?_⟩⟩
  · rw [getElem?_fft homega hlen hj, eval_ofCoefficients_map]
    simp only [← pow_mul, mul_comm j]
  · rw [getElem?_cosetFft homega shift hlen hj, eval_ofCoefficients_map]

/-- Two coefficients, one of them a negative integer, at the root of order two and on a coset. -/
theorem transforms_evaluate_twoCoefficients :
    1 ≤ 28 ∧ orderOf (-1 : Fr) = 2 ^ 1
      ∧ (fft (-1) [3, .ofInt scalarOrder (-5)])[1]? = some 8
      ∧ (cosetFft (-1) 2 [3, .ofInt scalarOrder (-5)])[1]? = some 13 := by
  have hk : 1 ≤ 28 := by decide
  have horder : orderOf (-1 : Fr) = 2 ^ 1 :=
    (orderOf_eq_prime neg_one_sq Fr.neg_one_ne_one).trans (pow_one 2).symm
  obtain ⟨-, hevaluate⟩ := transforms_evaluate hk
  obtain ⟨-, -, hvalues⟩ := hevaluate (-1) horder [.element 3, .integer (-5)] rfl 2
  obtain ⟨hfft, hcoset⟩ := hvalues 1 (by decide)
  refine ⟨hk, horder, hfft.trans ?_, hcoset.trans ?_⟩
  · refine congrArg some ((Fin.sum_univ_two _).trans ?_)
    change (3 : Fr) * (-1) ^ (0 * 1) + .ofInt scalarOrder (-5) * (-1) ^ (1 * 1) = 8
    rw [zero_mul, one_mul, pow_zero, pow_one]
    decide
  · refine congrArg some ((Fin.sum_univ_two _).trans ?_)
    change (3 : Fr) * (2 * (-1) ^ 1) ^ 0 + .ofInt scalarOrder (-5) * (2 * (-1) ^ 1) ^ 1 = 13
    rw [pow_zero, pow_one, pow_one]
    decide

/-! ### Inversion -/

/-- The powers of a root of unity sum to zero, except for those of one. -/
theorem sum_pow_of_isPrimitiveRoot {n : ℕ} {omega : Fr} (homega : IsPrimitiveRoot omega n)
    {i l : ℕ} (hi : i < n) (hl : l < n) :
    ∑ j ∈ Finset.range n, (omega ^ i * omega⁻¹ ^ l) ^ j = if i = l then (n : Fr) else 0 := by
  have hne : omega ≠ 0 := homega.ne_zero (by omega)
  split
  · next h =>
    have hterm : omega ^ l * omega⁻¹ ^ l = 1 := by rw [← mul_pow, mul_inv_cancel₀ hne, one_pow]
    simp [h, hterm, -inv_pow]
  · next h =>
    have hone : omega ^ i * omega⁻¹ ^ l ≠ 1 := by
      intro heq
      rw [inv_pow, ← div_eq_mul_inv, div_eq_one_iff_eq (pow_ne_zero l hne)] at heq
      exact h (homega.pow_inj hi hl heq)
    have hpow : (omega ^ i * omega⁻¹ ^ l) ^ n = 1 := by
      rw [mul_pow, ← pow_mul, ← pow_mul, mul_comm i, mul_comm l, pow_mul, pow_mul,
        homega.pow_eq_one, homega.inv.pow_eq_one, one_pow, one_pow, mul_one]
    have hgeom := mul_geom_sum (omega ^ i * omega⁻¹ ^ l) n
    rw [hpow, sub_self] at hgeom
    exact (mul_eq_zero.mp hgeom).resolve_left (sub_ne_zero.mpr hone)

/-- Transforming at a root and at its inverse multiplies by the size. -/
theorem fft_inv_fft {k : ℕ} {omega : Fr} (homega : IsPrimitiveRoot omega (2 ^ k)) {coeffs : List Fr}
    (hlen : coeffs.length = 2 ^ k) :
    fft omega⁻¹ (fft omega coeffs) = coeffs.map (· * ((2 ^ k : ℕ) : Fr)) := by
  have hfft := length_fft homega hlen
  refine List.ext_getElem ?_ fun l hl₁ hl₂ => ?_
  · rw [length_fft homega.inv hfft, List.length_map, hlen]
  have hl : l < 2 ^ k := by rwa [length_fft homega.inv hfft] at hl₁
  rw [← List.getD_eq_getElem _ 0 hl₁, getD_fft homega.inv hfft hl, eval_ofCoefficients_eq_sum, hfft,
    List.getElem_map, ← List.getD_eq_getElem _ 0 (hlen ▸ hl)]
  calc ∑ j ∈ Finset.range (2 ^ k), (fft omega coeffs).getD j 0 * (omega⁻¹ ^ l) ^ j
      = ∑ j ∈ Finset.range (2 ^ k), ∑ i ∈ Finset.range (2 ^ k),
          coeffs.getD i 0 * (omega ^ i * omega⁻¹ ^ l) ^ j := by
        refine Finset.sum_congr rfl fun j hj => ?_
        rw [getD_fft homega hlen (Finset.mem_range.mp hj), eval_ofCoefficients_eq_sum, hlen,
          Finset.sum_mul]
        refine Finset.sum_congr rfl fun i _ => ?_
        rw [mul_pow, ← pow_mul omega j i, mul_comm j i, pow_mul, mul_assoc]
    _ = ∑ i ∈ Finset.range (2 ^ k), coeffs.getD i 0 *
          ∑ j ∈ Finset.range (2 ^ k), (omega ^ i * omega⁻¹ ^ l) ^ j := by
        rw [Finset.sum_comm]
        exact Finset.sum_congr rfl fun i _ => (Finset.mul_sum _ _ _).symm
    _ = ∑ i ∈ Finset.range (2 ^ k), if i = l then coeffs.getD l 0 * ((2 ^ k : ℕ) : Fr) else 0 := by
        refine Finset.sum_congr rfl fun i hi => ?_
        rw [sum_pow_of_isPrimitiveRoot homega (Finset.mem_range.mp hi) hl]
        split
        · next h => rw [h]
        · rw [mul_zero]
    _ = coeffs.getD l 0 * ((2 ^ k : ℕ) : Fr) := by
        rw [Finset.sum_ite_eq', if_pos (Finset.mem_range.mpr hl)]

theorem natCast_two_pow_ne_zero (k : ℕ) : ((2 ^ k : ℕ) : Fr) ≠ 0 := by
  have htwo : ((2 : ℕ) : Fr) ≠ 0 := by decide
  rw [Nat.cast_pow]
  exact pow_ne_zero k htwo

theorem map_mul_inv_cancel {s : Fr} (hs : s ≠ 0) (vs : List Fr) :
    (vs.map (· * s)).map (· * s⁻¹) = vs := by
  rw [List.map_map]
  refine (List.map_congr_left fun v _ => ?_).trans (List.map_id vs)
  rw [Function.comp_apply, mul_inv_cancel_right₀ hs, id_eq]

/-- **The inverse transform finds the coefficients again.** -/
theorem ifft_fft {k : ℕ} {omega : Fr} (homega : IsPrimitiveRoot omega (2 ^ k)) {coeffs : List Fr}
    (hlen : coeffs.length = 2 ^ k) : ifft omega (fft omega coeffs) = coeffs := by
  rw [ifft, length_fft homega hlen, fft_inv_fft homega hlen]
  exact map_mul_inv_cancel (natCast_two_pow_ne_zero k) coeffs

/-- **The coefficients found by the inverse transform have the given values.** -/
theorem fft_ifft {k : ℕ} {omega : Fr} (homega : IsPrimitiveRoot omega (2 ^ k)) {evals : List Fr}
    (hlen : evals.length = 2 ^ k) : fft omega (ifft omega evals) = evals := by
  have hinv := fft_inv_fft homega.inv hlen
  rw [inv_inv, fft_eq_map homega (length_fft homega.inv hlen)] at hinv
  have hscale : fft omega (ifft omega evals)
      = ((Fr.powersFrom 1 omega (2 ^ k)).map
          fun x => (ofCoefficients (fft omega⁻¹ evals)).eval x).map
            (· * ((2 ^ k : ℕ) : Fr)⁻¹) := by
    rw [fft_eq_map homega (length_ifft homega hlen), List.map_map]
    refine List.map_congr_left fun x _ => ?_
    rw [ifft, hlen, eval_ofCoefficients_map_mul, Function.comp_apply]
  rw [hscale, hinv]
  exact map_mul_inv_cancel (natCast_two_pow_ne_zero k) evals

theorem scaleByPowers_scaleByPowers (c x d y : Fr) (vs : List Fr) :
    scaleByPowers c x (scaleByPowers d y vs) = scaleByPowers (d * c) (y * x) vs := by
  induction vs generalizing c d with
  | nil => rfl
  | cons v vs ih => simp only [scaleByPowers, ih, mul_comm, mul_left_comm]

theorem scaleByPowers_one (vs : List Fr) : scaleByPowers 1 1 vs = vs := by
  induction vs with
  | nil => rfl
  | cons v vs ih => rw [scaleByPowers, mul_one, mul_one, ih]

/-- The inverse transform of a coset finds the coefficients again. -/
theorem cosetIfft_cosetFft {k : ℕ} {omega shift : Fr} (homega : IsPrimitiveRoot omega (2 ^ k))
    (hshift : shift ≠ 0) {coeffs : List Fr} (hlen : coeffs.length = 2 ^ k) :
    cosetIfft omega shift (cosetFft omega shift coeffs) = coeffs := by
  rw [cosetIfft, cosetFft, ifft_fft homega (by rw [length_scaleByPowers, hlen]),
    scaleByPowers_scaleByPowers, mul_one, mul_inv_cancel₀ hshift, scaleByPowers_one]

/-- The coefficients found by the inverse transform of a coset have the given values. -/
theorem cosetFft_cosetIfft {k : ℕ} {omega shift : Fr} (homega : IsPrimitiveRoot omega (2 ^ k))
    (hshift : shift ≠ 0) {evals : List Fr} (hlen : evals.length = 2 ^ k) :
    cosetFft omega shift (cosetIfft omega shift evals) = evals := by
  rw [cosetFft, cosetIfft, scaleByPowers_scaleByPowers, mul_one, inv_mul_cancel₀ hshift,
    scaleByPowers_one, fft_ifft homega hlen]

/-- **The inverse transforms invert, on both sides**, at the root of unity that the search finds for
a domain, and so do those of every coset but the one of zero. -/
theorem transforms_invert {k : ℕ} (hk : k ≤ 28) :
    ∃ omega, Fr.rootOfUnity? ((2 ^ k : ℕ) : ℤ) = .ok omega
      ∧ ∀ values : List Fr, values.length = 2 ^ k →
        ifft omega (fft omega values) = values ∧ fft omega (ifft omega values) = values
          ∧ ∀ shift : Fr, shift ≠ 0 →
            cosetIfft omega shift (cosetFft omega shift values) = values
              ∧ cosetFft omega shift (cosetIfft omega shift values) = values := by
  refine ⟨Fr.root (2 ^ k), Fr.rootOfUnity?_eq hk, fun values hlen => ?_⟩
  have homega := Fr.isPrimitiveRoot_root hk
  exact ⟨ifft_fft homega hlen, fft_ifft homega hlen, fun shift hshift =>
    ⟨cosetIfft_cosetFft homega hshift hlen, cosetFft_cosetIfft homega hshift hlen⟩⟩

/-- Four values, and the coset of the generator. -/
theorem transforms_invert_fourValues :
    2 ≤ 28 ∧ ([3, 1, 4, 1] : List Fr).length = 2 ^ 2 ∧ Fr.generator ≠ 0
      ∧ ∃ omega, Fr.rootOfUnity? ((2 ^ 2 : ℕ) : ℤ) = .ok omega
        ∧ fft omega (ifft omega [3, 1, 4, 1]) = [3, 1, 4, 1]
        ∧ cosetIfft omega Fr.generator (cosetFft omega Fr.generator [3, 1, 4, 1])
          = [3, 1, 4, 1] := by
  have hk : 2 ≤ 28 := by decide
  have hlen : ([3, 1, 4, 1] : List Fr).length = 2 ^ 2 := rfl
  have hshift : Fr.generator ≠ 0 := by decide
  obtain ⟨omega, hroot, hinvert⟩ := transforms_invert hk
  obtain ⟨-, hfft, hcoset⟩ := hinvert [3, 1, 4, 1] hlen
  exact ⟨hk, hlen, hshift, omega, hroot, hfft, (hcoset Fr.generator hshift).1⟩

end MerkleSnark.Polynomial
