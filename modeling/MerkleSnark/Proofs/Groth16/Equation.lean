import Mathlib
import MerkleSnark.Proofs.Groth16.Reference

/-!
# What a verifier decides

A verifier adds up the commitment to the public inputs and multiplies four pairings.  Two lists of
different lengths are refused.  Otherwise there is an answer, and it says whether the exponents of
the proof satisfy the equation of the scheme, in which the public inputs weigh the values of the
wire polynomials.

## Main results

* `commitment?_of_length_ne` — a wrong number of public inputs is refused.
* `gamma_mul_dot_eq_sum` — what a commitment to public inputs adds to the equation.
* `verify_iff_equation` — **the verifier decides the equation**.
-/

open Polynomial

namespace MerkleSnark

/-- A point that is given by its exponent has it. -/
theorem ExponentPoint.exponent_mk (k : Fr) : ExponentPoint.groupModel.Exponent ⟨k⟩ k := by
  have hone : ExponentPoint.groupModel.base = 1 := rfl
  refine ⟨trivial, ?_⟩
  rw [hone, nsmul_one, Residue.natCast_val]
  rfl

namespace Groth16

open MerkleSnark.Polynomial

variable {P Q T : Type} [PointGroup P] [PointGroup Q] [Pairing P Q T]
variable {A B U : Type} [AddCommGroup A] [AddCommGroup B] [CommGroup U]

/-! ### Public inputs -/

omit [PointGroup Q] [Pairing P Q T] in
/-- A wrong number of public inputs is refused. -/
theorem commitment?_of_length_ne {vk : VerificationKey P Q} {m : ℕ} (hic : vk.ic.length = m + 1)
    {inputs : List Fr} (h : inputs.length ≠ m) :
    commitment? vk inputs = .error (.publicCount m inputs.length) := by
  obtain ⟨constant, rest, hsplit⟩ := List.exists_of_length_succ vk.ic hic
  have hrest : rest.length = m := by
    rw [hsplit] at hic
    exact Nat.succ.inj hic
  have hsum : multiExp rest inputs = .error ⟨m, inputs.length⟩ := by
    rw [multiExp, hrest, if_pos h.symm]
  rw [commitment?, hsplit]
  change ((multiExp rest inputs).map (PointGroup.add constant)).mapError _ = _
  rw [hsum]
  rfl

omit [PointGroup Q] in
theorem verify_of_commitment?_eq_error {vk : VerificationKey P Q} {inputs : List Fr}
    {e : VerifyError} (h : commitment? vk inputs = .error e) (proof : Proof P Q) :
    verify vk inputs proof = .error e := by
  rw [verify, h]
  rfl

/-- The public part of the equation is the sum of the combined values, weighed by the constant wire
and the public inputs. -/
theorem gamma_mul_dot_eq_sum {cs : ConstraintSystem} {n : ℕ} {s : Secrets} {polys : Sides (List Fr)}
    (hpolys : IsWirePolynomials cs n s.tau polys) (hgamma : s.gamma ≠ 0) (ws : List Fr) :
    s.gamma * dot ((combinedValues s s.gamma polys).take (cs.primarySize + 1)) ws
      = ∑ i ∈ Finset.range (cs.primarySize + 1),
          ws.getD i 0 * combinedAt s (columnPolynomials cs n) i := by
  have hle : cs.primarySize + 1 ≤ cs.numVariables := by
    rw [ConstraintSystem.numVariables]
    omega
  rw [combinedValues_eq_map, ← List.map_take, mul_dot_map_mul_inv hgamma,
    undividedValues_eq hpolys, ← List.map_take, List.take_range, min_eq_left hle,
    dot_eq_sum ws (by rw [List.length_map, List.length_range])]
  refine Finset.sum_congr rfl fun i hi => ?_
  have hvalue : ((List.range (cs.primarySize + 1)).map
      (combinedAt s (columnPolynomials cs n))).getD i 0 = combinedAt s (columnPolynomials cs n) i := by
    rw [List.getD_eq_getElem?_getD, List.getElem?_map, List.getElem?_range (Finset.mem_range.mp hi)]
    rfl
  rw [hvalue, mul_comm]

/-! ### The decision -/

variable {M : Pairing.Model P Q T A B U}

/-- **The verifier decides the equation of the scheme.**  Take a verification key that was made for
a system, after any others, a list of integers and a proof with the exponents `a`, `b` and `c`,
whatever coordinates stand for its points.  The proof is refused when there are too few or too many
integers, and otherwise it is accepted exactly when the equation holds, in which `p` are the
polynomials of the wires. -/
theorem verify_iff_equation (hroot : M.root ≠ 1) {σ : Type} [ScalarSource σ] {source : σ}
    {earlier : List ConstraintSystem} {cs : ConstraintSystem} {s : Secrets}
    (hs : ((Secrets.sample (domainSize cs.numConstraints)).run source).1 = s)
    (hgamma : s.gamma ≠ 0) {pk : ProvingKey P Q} {vk : VerificationKey P Q}
    (hkeys : (generate cs (source, TableCache.after P Q earlier)).1 = .ok (pk, vk))
    {p : Sides (ℕ → Fr[X])} (hp : AreColumnPolynomials cs (domainSize cs.numConstraints) p)
    {proof : Proof P Q} {a b c : Fr} (hproof : proof.Exponents M a b c) (inputs : List ℤ) :
    (inputs.length ≠ cs.primarySize →
      verify vk (inputs.map (Int.cast : ℤ → Fr)) proof
        = .error (.publicCount cs.primarySize inputs.length))
    ∧ (inputs.length = cs.primarySize →
      ∃ accepted, verify vk (inputs.map (Int.cast : ℤ → Fr)) proof = .ok accepted
        ∧ (accepted = true ↔ a * b
          = s.alpha * s.beta
            + ∑ i ∈ Finset.range (cs.primarySize + 1), (((1 :: inputs).getD i 0 : ℤ) : Fr)
                * (s.beta * (p.a i).eval s.tau + s.alpha * (p.b i).eval s.tau
                  + (p.c i).eval s.tau)
            + c * s.delta)) := by
  rw [generate_after, hs] at hkeys
  obtain ⟨-, hcount, polys, hpolys, -, hvk⟩ :=
    exists_isFor_of_keysOf? M (multiply_ofWindow M (one_le_tableWindow cs)) hkeys
  have hmapped : (inputs.map (Int.cast : ℤ → Fr)).length = inputs.length := List.length_map _
  constructor
  · intro hlen
    rw [← hmapped] at hlen
    rw [verify_of_commitment?_eq_error (commitment?_of_length_ne (hvk.length_ic hpolys) hlen),
      hmapped]
  · intro hlen
    obtain ⟨accepted, haccepted, hiff⟩ :=
      exists_verify_eq hvk hpolys.primarySize_lt (hmapped.trans hlen) hproof
    refine ⟨accepted, haccepted, ?_⟩
    obtain rfl := hp.eq_columnPolynomials (isPrimitiveRoot_root_domainSize hcount)
    have hone : (1 : Fr) :: inputs.map (Int.cast : ℤ → Fr) = (1 :: inputs).map Int.cast := by
      rw [List.map_cons, Int.cast_one]
    have hpublic : s.gamma * dot ((combinedValues s s.gamma polys).take (cs.primarySize + 1))
          (1 :: inputs.map (Int.cast : ℤ → Fr))
        = ∑ i ∈ Finset.range (cs.primarySize + 1), (((1 :: inputs).getD i 0 : ℤ) : Fr)
            * combinedAt s (columnPolynomials cs (domainSize cs.numConstraints)) i := by
      rw [gamma_mul_dot_eq_sum hpolys hgamma, hone]
      refine Finset.sum_congr rfl fun i _ => ?_
      rw [← Int.cast_zero, List.getD_map]
    -- the product of the pairings is a power of the root, which is one just when its exponent is zero
    rw [hiff, Pairing.Model.root_pow_eq_one_iff hroot, hpublic, sub_sub, sub_sub, sub_eq_zero,
      ← add_assoc, mul_comm c]
    rfl

/-- The integer nine more than the order of the scalars counts as nine; the third point is at
infinity. -/
theorem verify_iff_equation_square :
    ExponentPoint.pairingModel.root ≠ 1 ∧ (5 : Fr) ≠ 0
      ∧ AreColumnPolynomials squareSystem (domainSize squareSystem.numConstraints)
        (columnPolynomials squareSystem (domainSize squareSystem.numConstraints))
      ∧ ∃ pk vk, (generate squareSystem (Cycle.ofList [2, 3, 5, 7, 11],
          TableCache.after ExponentPoint ExponentPoint [])).1 = .ok (pk, vk)
        ∧ ∃ accepted, verify vk ([(scalarOrder : ℤ) + 9].map (Int.cast : ℤ → Fr))
            ⟨⟨4⟩, ⟨6⟩, PointGroup.infinity⟩ = .ok accepted
          ∧ (accepted = true ↔ (4 : Fr) * 6
            = 2 * 3
              + ∑ i ∈ Finset.range 2, (((1 :: [(scalarOrder : ℤ) + 9]).getD i 0 : ℤ) : Fr)
                  * (3 * ((columnPolynomials squareSystem (domainSize squareSystem.numConstraints)).a
                      i).eval 11
                    + 2 * ((columnPolynomials squareSystem
                      (domainSize squareSystem.numConstraints)).b i).eval 11
                    + ((columnPolynomials squareSystem
                      (domainSize squareSystem.numConstraints)).c i).eval 11)
              + 0 * 7) := by
  have hgamma : (5 : Fr) ≠ 0 := by decide
  have hcount : squareSystem.numConstraints ≤ 2 ^ 28 := by decide
  have hp := areColumnPolynomials (isPrimitiveRoot_root_domainSize hcount) squareSystem
  have hs : ((Secrets.sample (domainSize squareSystem.numConstraints)).run
      (Cycle.ofList [2, 3, 5, 7, 11])).1 = ⟨2, 3, 5, 7, 11⟩ := sample_ofList vanishing_squareSystem
  obtain ⟨pk, vk, hkeys⟩ : ∃ pk vk, (generate squareSystem (Cycle.ofList [2, 3, 5, 7, 11],
      TableCache.after ExponentPoint ExponentPoint [])).1 = .ok (pk, vk) := by
    rw [generate_after, hs]
    apply exists_keysOf?_eq_ok
    · decide
    · decide
    · exact vanishing_squareSystem
  have hproof : (⟨⟨4⟩, ⟨6⟩, PointGroup.infinity⟩ : Proof ExponentPoint ExponentPoint).Exponents
      ExponentPoint.pairingModel 4 6 0 :=
    ⟨ExponentPoint.exponent_mk 4, ExponentPoint.exponent_mk 6, PointGroup.Model.Exponent.infinity⟩
  have hdecision := (verify_iff_equation ExponentPoint.root_pairingModel_ne_one hs hgamma hkeys hp
    hproof [(scalarOrder : ℤ) + 9]).2 rfl
  exact ⟨ExponentPoint.root_pairingModel_ne_one, hgamma, hp, pk, vk, hkeys, hdecision⟩

end Groth16

end MerkleSnark
