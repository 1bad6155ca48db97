import Mathlib
import MerkleSnark.Groth16.Prove
import MerkleSnark.Proofs.Curve.MultiExp
import MerkleSnark.Proofs.Groth16.Quotient
import MerkleSnark.Proofs.Groth16.Setup

/-!
# Proofs and the exponents that they hide

The three points of a proof are known by their exponents, and a verifier compares products of these.
For a proof that was made from wire values the comparison comes down to one number: all secrets but
the evaluation point cancel, and what is left is the defect of the quotient at this point.

## Main definitions

* `Proof.Exponents` — the exponents of the points of a proof.

## Main results

* `exists_proofOf?_eq` — the exponents of a proof that was made from wire values.
* `exists_verify_eq` — a verifier decides the equation of the scheme.
* `exists_proofOf?_defect` — for a proof made from wire values, the defect at the evaluation point.
* `run_prove_eq`, `run_prove` — proving draws two scalars, unless it refuses the inputs before.
-/

namespace MerkleSnark.Groth16

open MerkleSnark.Polynomial PointGroup

variable {P Q T : Type} [PointGroup P] [PointGroup Q] [Pairing P Q T]
variable {A B U : Type} [AddCommGroup A] [AddCommGroup B] [CommGroup U]
variable {M : Pairing.Model P Q T A B U}

/-- The points of a proof have the exponents `a`, `b` and `c`. -/
structure Proof.Exponents (M : Pairing.Model P Q T A B U) (proof : Proof P Q) (a b c : Fr) :
    Prop where
  a : M.first.Exponent proof.a a
  b : M.second.Exponent proof.b b
  c : M.first.Exponent proof.c c

/-! ### The verifier -/

section Verifier

variable {vk : VerificationKey P Q} {cs : ConstraintSystem} {s : Secrets} {polys : Sides (List Fr)}
  (hvk : vk.IsFor M cs s polys)
  (hpublic : cs.primarySize + 1 ≤ (combinedValues s s.gamma polys).length)
  {inputs : List Fr} (hinputs : inputs.length = cs.primarySize)

include hvk hpublic hinputs

/-- The exponent of a commitment. -/
theorem exists_commitment?_eq : ∃ p, commitment? vk inputs = .ok p
    ∧ M.first.Exponent p
      (dot ((combinedValues s s.gamma polys).take (cs.primarySize + 1)) (1 :: inputs)) := by
  have hic := hvk.ic
  set combined := (combinedValues s s.gamma polys).take (cs.primarySize + 1) with hcombined
  have hlen : combined.length = cs.primarySize + 1 := by
    rw [hcombined, List.length_take, min_eq_left hpublic]
  obtain ⟨first, others, hsplit⟩ := List.exists_of_length_succ combined hlen
  rw [hsplit] at hic hlen
  obtain ⟨constant, rest, hconstant, hrest, hvkic⟩ := List.forall₂_cons_right_iff.mp hic
  have hrestlen : others.length = inputs.length := by
    rw [hinputs]
    exact Nat.succ.inj hlen
  obtain ⟨sum, hsum, hsumexp⟩ := exists_multiExp_exponent M.addOrderOf_first hrest hrestlen
  refine ⟨add constant sum, ?_, ?_⟩
  · rw [commitment?, hvkic]
    change ((multiExp rest inputs).map (add constant)).mapError _ = _
    rw [hsum]
    rfl
  · rw [hsplit, dot_cons, mul_one]
    exact hconstant.add M.addOrderOf_first hsumexp

/-- **A verifier decides the equation of the scheme**, on exponents. -/
theorem exists_verify_eq {proof : Proof P Q} {a b c : Fr} (hproof : proof.Exponents M a b c) :
    ∃ accepted, verify vk inputs proof = .ok accepted
      ∧ (accepted = true ↔ M.root ^ (a * b - s.alpha * s.beta
          - s.gamma * dot ((combinedValues s s.gamma polys).take (cs.primarySize + 1)) (1 :: inputs)
          - s.delta * c).val = 1) := by
  obtain ⟨committed, hcommitted, hexponent⟩ := exists_commitment?_eq hvk hpublic hinputs
  set e := dot ((combinedValues s s.gamma polys).take (cs.primarySize + 1)) (1 :: inputs)
  have hpairs : List.Forall₂
      (fun (pair : Q × P) (e : Fr × Fr) =>
        M.second.Exponent pair.1 e.1 ∧ M.first.Exponent pair.2 e.2)
      [(proof.b, proof.a), (vk.beta, neg vk.alpha), (vk.gamma, neg committed),
        (vk.delta, neg proof.c)]
      [(b, a), (s.beta, -s.alpha), (s.gamma, -e), (s.delta, -c)] :=
    .cons ⟨hproof.b, hproof.a⟩ (.cons ⟨hvk.beta, hvk.alpha.neg M.addOrderOf_first⟩
      (.cons ⟨hvk.gamma, hexponent.neg M.addOrderOf_first⟩
        (.cons ⟨hvk.delta, hproof.c.neg M.addOrderOf_first⟩ .nil)))
  obtain ⟨accepted, hok, hiff⟩ := M.exists_pairingProductIsOne_eq hpairs
  refine ⟨accepted, ?_, ?_⟩
  · rw [verify, hcommitted]
    change (pairingProductIsOne _).mapError _ = _
    rw [hok]
    rfl
  · rw [hiff]
    have hvalue : ([(b, a), (s.beta, -s.alpha), (s.gamma, -e),
          (s.delta, -c)].map fun e : Fr × Fr => e.1 * e.2).sum
        = a * b - s.alpha * s.beta - s.gamma * e - s.delta * c := by
      simp only [List.map_cons, List.map_nil, List.sum_cons, List.sum_nil]
      ring
    rw [hvalue]

end Verifier

/-- There are values for the constant wire and for all public ones. -/
theorem IsWirePolynomials.primarySize_lt {cs : ConstraintSystem} {s : Secrets} {n : ℕ}
    {polys : Sides (List Fr)} (h : IsWirePolynomials cs n s.tau polys) :
    cs.primarySize + 1 ≤ (combinedValues s s.gamma polys).length := by
  rw [length_combinedValues s s.gamma h.length_a h.length_b h.length_c,
    ConstraintSystem.numVariables]
  omega

/-! ### The prover -/

variable {pk : ProvingKey P Q} {cs : ConstraintSystem} {s : Secrets} {polys : Sides (List Fr)}
variable {n : ℕ} {ws h : List Fr}

/-- **The exponents of a proof that was made from wire values.** -/
theorem exists_proofOf?_eq (hpk : pk.IsFor M cs s polys)
    (hpolys : IsWirePolynomials cs (domainSize cs.numConstraints) s.tau polys)
    (hws : ws.length = cs.numVariables)
    (hh : h.length = domainSize cs.numConstraints - 1) (r t : Fr) :
    ∃ proof a b, proofOf? pk ws h r t = .ok proof
      ∧ a = s.alpha + dot polys.a ws + r * s.delta
      ∧ b = s.beta + dot polys.b ws + t * s.delta
      ∧ proof.Exponents M a b
          (dot ((combinedValues s s.delta polys).drop (cs.primarySize + 1))
              (ws.drop (cs.primarySize + 1))
            + vanishing (domainSize cs.numConstraints) s.tau / s.delta
              * (ofCoefficients h).eval s.tau
            + t * a + r * b + -(r * t * s.delta)) := by
  have hfirst := M.addOrderOf_first
  have hsecond := M.addOrderOf_second
  have hprivate : ((combinedValues s s.delta polys).drop (cs.primarySize + 1)).length
      = (ws.drop (cs.primarySize + 1)).length := by
    rw [List.length_drop, List.length_drop, hws,
      length_combinedValues s s.delta hpolys.length_a hpolys.length_b hpolys.length_c]
  have hbasis : (quotientBasis s (domainSize cs.numConstraints)).length = h.length := by
    rw [quotientBasis, Fr.length_powersFrom, hh]
  obtain ⟨pa, hpa, hpaexp⟩ :=
    exists_multiExp_exponent hfirst hpk.aQuery (hpolys.length_a.trans hws.symm)
  obtain ⟨pb, hpb, hpbexp⟩ :=
    exists_multiExp_exponent hsecond hpk.bTwistQuery (hpolys.length_b.trans hws.symm)
  obtain ⟨pb₁, hpb₁, hpb₁exp⟩ :=
    exists_multiExp_exponent hfirst hpk.bQuery (hpolys.length_b.trans hws.symm)
  obtain ⟨hidden, hhidden, hhiddenexp⟩ := exists_multiExp_exponent hfirst hpk.lQuery hprivate
  obtain ⟨quotient, hquotient, hquotientexp⟩ := exists_multiExp_exponent hfirst hpk.hQuery hbasis
  have hvalue : (List.zipWith (· * ·) (quotientBasis s (domainSize cs.numConstraints)) h).sum
      = vanishing (domainSize cs.numConstraints) s.tau / s.delta
        * (ofCoefficients h).eval s.tau :=
    dot_powersFrom _ _ (by rw [hh])
  rw [hvalue] at hquotientexp
  -- the second factor is computed in both groups: as a part of the proof, and to blind the third
  have haexp := (hpk.alpha.add hfirst hpaexp).add hfirst (hpk.delta.smul hfirst r)
  have hbexp := (hpk.betaTwist.add hsecond hpbexp).add hsecond (hpk.deltaTwist.smul hsecond t)
  have hb₁exp := (hpk.beta.add hfirst hpb₁exp).add hfirst (hpk.delta.smul hfirst t)
  have hblinded := (((hhiddenexp.add hfirst hquotientexp).add hfirst (haexp.smul hfirst t)).add
    hfirst (hb₁exp.smul hfirst r)).add hfirst ((hpk.delta.smul hfirst (r * t)).neg hfirst)
  refine ⟨⟨add (add pk.alpha pa) (smul r pk.delta),
      add (add pk.betaTwist pb) (smul t pk.deltaTwist), _⟩, _, _, ?_, rfl, rfl,
    ⟨haexp, hbexp, hblinded⟩⟩
  rw [proofOf?, hpk.system, hpa, hpb, hpb₁, hhidden, hquotient]
  rfl

/-- **All secrets but the evaluation point cancel**: the two factors are blinded wire values, and what
a verifier compares comes down to the defect at this point. -/
theorem exists_proofOf?_defect (hpk : pk.IsFor M cs s polys)
    (hpolys : IsWirePolynomials cs (domainSize cs.numConstraints) s.tau polys)
    (hgamma : s.gamma ≠ 0) (hdelta : s.delta ≠ 0) {primary auxiliary : List Fr}
    (hprimary : primary.length = cs.primarySize) (hauxiliary : auxiliary.length = cs.auxiliarySize)
    (hh : h.length = domainSize cs.numConstraints - 1) (r t : Fr) :
    ∃ proof a b c, proofOf? pk (1 :: (primary ++ auxiliary)) h r t = .ok proof
      ∧ proof.Exponents M a b c
      ∧ a = s.alpha + dot polys.a (1 :: (primary ++ auxiliary)) + r * s.delta
      ∧ b = s.beta + dot polys.b (1 :: (primary ++ auxiliary)) + t * s.delta
      ∧ a * b - s.alpha * s.beta
          - s.gamma * dot ((combinedValues s s.gamma polys).take (cs.primarySize + 1)) (1 :: primary)
          - s.delta * c
        = (defect cs (1 :: (primary ++ auxiliary)) (domainSize cs.numConstraints) h).eval s.tau := by
  set ws := 1 :: (primary ++ auxiliary) with hwsdef
  have hws : ws.length = cs.numVariables := by
    rw [hwsdef, List.length_cons, List.length_append, hprimary, hauxiliary,
      ConstraintSystem.numVariables]
    omega
  have hpublic : ws.take (cs.primarySize + 1) = 1 :: primary := by
    rw [hwsdef, List.take_succ_cons, List.take_left' hprimary]
  obtain ⟨proof, a, b, hproof, ha, hb, hexponents⟩ := exists_proofOf?_eq hpk hpolys hws hh r t
  refine ⟨proof, a, b, _, hproof, hexponents, ha, hb, ?_⟩
  have hsum := public_add_private hgamma hdelta hpolys (cs.primarySize + 1) ws
  have hz : s.delta * (vanishing (domainSize cs.numConstraints) s.tau / s.delta)
      = vanishing (domainSize cs.numConstraints) s.tau := mul_div_cancel₀ _ hdelta
  rw [← hpublic, eval_defect, ← hpolys.dot_a ws, ← hpolys.dot_b ws, ← hpolys.dot_c ws, ha, hb]
  linear_combination -hsum - (ofCoefficients h).eval s.tau * hz

theorem liftM_ok_bind {ε σ α β : Type} (a : α) (f : α → ExceptT ε (StateM σ) β) :
    (liftM (Except.ok a : Except ε α) : ExceptT ε (StateM σ) α) >>= f = f a := rfl

/-- A run of the prover: the inputs are refused, or the quotient is, or two scalars are drawn. -/
theorem run_prove_eq {σ : Type} [ScalarSource σ] (pk : ProvingKey P Q) (primary auxiliary : List Fr)
    (source : σ) :
    (prove pk primary auxiliary).run.run source
      = match pk.system.assignment? primary auxiliary with
        | .error e => (.error (.program (.assignment e)), source)
        | .ok w =>
          match quotient? pk.system w pk.domainSize with
          | .error e => (.error (.program e), source)
          | .ok h =>
            ((proofOf? pk w.toList h (ScalarSource.next source).1
                (ScalarSource.next (ScalarSource.next source).2).1).mapError .lengths,
              (ScalarSource.next (ScalarSource.next source).2).2) := by
  cases hw : pk.system.assignment? primary auxiliary with
  | error e =>
    rw [prove, hw]
    rfl
  | ok w =>
    have hassignment : (Except.ok w : Except AssignmentError _).mapError
        (fun e => ProveError.program (.assignment e)) = .ok w := rfl
    rw [prove, hw, hassignment, liftM_ok_bind]
    dsimp only
    cases quotient? pk.system w pk.domainSize <;> rfl

/-- Proving draws two scalars, once the inputs were found to fit. -/
theorem run_prove {σ : Type} [ScalarSource σ] {primary auxiliary : List Fr} {w : Array Fr}
    (hw : pk.system.assignment? primary auxiliary = .ok w)
    (hh : quotient? pk.system w pk.domainSize = .ok h) (source : σ) :
    (prove pk primary auxiliary).run.run source
      = ((proofOf? pk w.toList h (ScalarSource.next source).1
            (ScalarSource.next (ScalarSource.next source).2).1).mapError .lengths,
          (ScalarSource.next (ScalarSource.next source).2).2) := by
  rw [run_prove_eq, hw]
  dsimp only
  rw [hh]

end MerkleSnark.Groth16
