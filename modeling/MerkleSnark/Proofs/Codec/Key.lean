import Mathlib
import MerkleSnark.Codec.Key
import MerkleSnark.Proofs.Codec.Point
import MerkleSnark.Proofs.Codec.System
import MerkleSnark.Proofs.Groth16.Prove

/-!
# Keys and proofs that are read back

The points of an artifact keep their exponents, and the system of a proving key keeps its quadratic
program.  So a key that is read back is a key for the same secrets, and a proof that is read back
is judged like the one that was written.

## Main results

* `ProvingKey.exists_decode_eq`, `VerificationKey.exists_decode_eq`, `Proof.exists_decode_eq`.
-/

namespace MerkleSnark.Groth16

open Decoder PointGroup MerkleSnark.Polynomial

variable {P Q T : Type} [PointGroup P] [PointGroup Q] [Pairing P Q T] [PointCodec P] [PointCodec Q]
variable {A B U : Type} [AddCommGroup A] [AddCommGroup B] [CommGroup U]
variable {M : Pairing.Model P Q T A B U} (hfirst : M.first.ReadsBack) (hsecond : M.second.ReadsBack)
variable {cs : ConstraintSystem} {s : Secrets} {polys : Sides (List Fr)} {bs : Bytes}

/-- The sizes of a domain that are accepted: the powers of two that are large enough, and zero if
there is no constraint. -/
theorem acceptedSize_iff {size count : ℕ} :
    (size < count || size &&& (size - 1) != 0) = false
      ↔ count ≤ size ∧ (size = 0 ∨ ∃ k, size = 2 ^ k) := by
  rw [Bool.or_eq_false_iff, decide_eq_false_iff_not, not_lt, bne_eq_false_iff_eq]
  refine and_congr_right fun _ => ?_
  by_cases hsize : size = 0
  · exact iff_of_true (by rw [hsize]; rfl) (Or.inl hsize)
  · rw [Nat.and_sub_one_eq_zero_iff_isPowerOfTwo hsize, or_iff_right hsize, Nat.isPowerOfTwo]

/-- The size of a domain is accepted. -/
theorem acceptedSize (count : ℕ) :
    (domainSize count < count || domainSize count &&& (domainSize count - 1) != 0) = false := by
  obtain ⟨k, hsize, -, hle, -⟩ := exists_domainSize_eq count
  exact acceptedSize_iff.mpr ⟨hsize ▸ hle, Or.inr ⟨k, hsize⟩⟩

omit [PointGroup P] [PointGroup Q] [Pairing P Q T] [PointCodec P] [PointCodec Q] in
/-- The check of the lengths of the lists. -/
theorem ProvingKey.find?_lengths_eq_none_iff {pk : ProvingKey P Q} :
    (pk.lengths.find? fun l => (l.2.1 : ℤ) != l.2.2) = none
      ↔ pk.aQuery.length = pk.system.numVariables ∧ pk.bQuery.length = pk.system.numVariables
        ∧ pk.bTwistQuery.length = pk.system.numVariables
        ∧ pk.hQuery.length + 1 = pk.domainSize
        ∧ pk.lQuery.length = pk.system.auxiliarySize := by
  simp only [lengths, List.find?_eq_none, List.forall_mem_cons, List.not_mem_nil, false_implies,
    implies_true, and_true, bne_iff_ne, not_not, Nat.cast_inj]
  omega

omit [PointCodec P] [PointCodec Q] in
/-- The lists of a key have the lengths that its system asks for. -/
theorem ProvingKey.IsFor.find?_lengths {pk : ProvingKey P Q} (hpk : pk.IsFor M cs s polys)
    (hpolys : IsWirePolynomials cs (Polynomial.domainSize cs.numConstraints) s.tau polys) :
    (pk.lengths.find? fun l => (l.2.1 : ℤ) != l.2.2) = none := by
  have hcombined :=
    length_combinedValues s s.delta hpolys.length_a hpolys.length_b hpolys.length_c
  have hsize : 1 ≤ Polynomial.domainSize cs.numConstraints := by
    obtain ⟨k, hsize, -⟩ := exists_domainSize_eq cs.numConstraints
    rw [hsize]
    exact Nat.one_le_two_pow
  have hlQuery := hpk.lQuery.length_eq
  have hhQuery := hpk.hQuery.length_eq
  rw [List.length_drop, hcombined, ConstraintSystem.numVariables] at hlQuery
  rw [quotientBasis, Fr.length_powersFrom] at hhQuery
  rw [find?_lengths_eq_none_iff, hpk.system, hpk.domainSize]
  refine ⟨hpk.aQuery.length_eq.trans hpolys.length_a, hpk.bQuery.length_eq.trans hpolys.length_b,
    hpk.bTwistQuery.length_eq.trans hpolys.length_b, ?_, ?_⟩
  · omega
  · omega

include hfirst hsecond

/-- **A proving key that is read back** is for the same secrets and the system that is read
back. -/
theorem ProvingKey.exists_decode_eq {pk : ProvingKey P Q} (hpk : pk.IsFor M cs s polys)
    (hcs : cs.WellFormed)
    (hpolys : IsWirePolynomials cs (Polynomial.domainSize cs.numConstraints) s.tau polys)
    (h : pk.encode = .ok bs) :
    ∃ pk', ProvingKey.decode bs = .ok pk' ∧ pk'.IsFor M cs.reread s polys := by
  unfold ProvingKey.encode at h
  obtain ⟨header, hheader, h⟩ := exists_of_bind_eq_ok h
  obtain ⟨system, hsystem, h⟩ := exists_of_bind_eq_ok h
  obtain ⟨size, hsize, h⟩ := exists_of_bind_eq_ok h
  obtain ⟨aBytes, haBytes, h⟩ := exists_of_bind_eq_ok h
  obtain ⟨bBytes, hbBytes, h⟩ := exists_of_bind_eq_ok h
  obtain ⟨bTwistBytes, hbTwistBytes, h⟩ := exists_of_bind_eq_ok h
  obtain ⟨hBytes, hhBytes, h⟩ := exists_of_bind_eq_ok h
  obtain ⟨lBytes, hlBytes, h⟩ := exists_of_bind_eq_ok h
  cases h
  rw [hpk.system] at hsystem
  rw [hpk.domainSize] at hsize
  obtain ⟨alpha, halpha, halphaexp⟩ := hfirst.reads_point hpk.alpha
  obtain ⟨beta, hbeta, hbetaexp⟩ := hfirst.reads_point hpk.beta
  obtain ⟨betaTwist, hbetaTwist, hbetaTwistexp⟩ := hsecond.reads_point hpk.betaTwist
  obtain ⟨delta, hdelta, hdeltaexp⟩ := hfirst.reads_point hpk.delta
  obtain ⟨deltaTwist, hdeltaTwist, hdeltaTwistexp⟩ := hsecond.reads_point hpk.deltaTwist
  obtain ⟨aQuery, haQuery, haQueryexp⟩ := hfirst.reads_points hpk.aQuery haBytes
  obtain ⟨bQuery, hbQuery, hbQueryexp⟩ := hfirst.reads_points hpk.bQuery hbBytes
  obtain ⟨bTwistQuery, hbTwistQuery, hbTwistQueryexp⟩ :=
    hsecond.reads_points hpk.bTwistQuery hbTwistBytes
  obtain ⟨hQuery, hhQuery, hhQueryexp⟩ := hfirst.reads_points hpk.hQuery hhBytes
  obtain ⟨lQuery, hlQuery, hlQueryexp⟩ := hfirst.reads_points hpk.lQuery hlBytes
  -- equal terms are merged when the system is read, and the number of constraints stays
  have hsizes := ConstraintSystem.numConstraints_reread cs
  have hread : ProvingKey.IsFor M ⟨cs.reread, Polynomial.domainSize cs.numConstraints, alpha, beta,
      betaTwist, delta, deltaTwist, aQuery, bQuery, bTwistQuery, hQuery, lQuery⟩ cs.reread s polys :=
    { system := rfl
      domainSize := by rw [hsizes]
      alpha := halphaexp
      beta := hbetaexp
      betaTwist := hbetaTwistexp
      delta := hdeltaexp
      deltaTwist := hdeltaTwistexp
      aQuery := haQueryexp
      bQuery := hbQueryexp
      bTwistQuery := hbTwistQueryexp
      hQuery := by rwa [hsizes]
      lQuery := hlQueryexp }
  refine ⟨_, Finishes.run_eq ?_, hread⟩
  unfold decoder
  simp only [List.append_assoc]
  refine (reads_header hheader).finish ?_
  refine (ConstraintSystem.reads_decode hcs hsystem).finish ?_
  refine (reads_count hsize).finish ?_
  rw [hsizes, acceptedSize]
  refine halpha.finish (hbeta.finish (hbetaTwist.finish (hdelta.finish (hdeltaTwist.finish ?_))))
  refine haQuery.finish (hbQuery.finish (hbTwistQuery.finish (hhQuery.finish ?_)))
  refine hlQuery.finishLast (Finishes.atEnd ?_)
  rw [hread.find?_lengths (hsizes.symm ▸ hpolys.reread)]
  exact .pure _

/-- **A verification key that is read back** is for the same secrets. -/
theorem VerificationKey.exists_decode_eq {vk : VerificationKey P Q} (hvk : vk.IsFor M cs s polys)
    (hic : vk.ic ≠ []) (h : vk.encode = .ok bs) :
    ∃ vk', VerificationKey.decode bs = .ok vk' ∧ vk'.IsFor M cs s polys := by
  unfold VerificationKey.encode at h
  obtain ⟨header, hheader, h⟩ := exists_of_bind_eq_ok h
  obtain ⟨icBytes, hicBytes, h⟩ := exists_of_bind_eq_ok h
  cases h
  obtain ⟨alpha, halpha, halphaexp⟩ := hfirst.reads_point hvk.alpha
  obtain ⟨beta, hbeta, hbetaexp⟩ := hsecond.reads_point hvk.beta
  obtain ⟨gamma, hgamma, hgammaexp⟩ := hsecond.reads_point hvk.gamma
  obtain ⟨delta, hdelta, hdeltaexp⟩ := hsecond.reads_point hvk.delta
  obtain ⟨ic, hic', hicexp⟩ := hfirst.reads_points hvk.ic hicBytes
  have hne : ¬ ic.isEmpty = true := by
    have hlength := hicexp.length_eq.trans hvk.ic.length_eq.symm
    rw [List.isEmpty_iff]
    rintro rfl
    exact hic (List.length_eq_zero_iff.mp hlength.symm)
  refine ⟨⟨alpha, beta, gamma, delta, ic⟩, Finishes.run_eq ?_,
    ⟨halphaexp, hbetaexp, hgammaexp, hdeltaexp, hicexp⟩⟩
  unfold decoder
  simp only [List.append_assoc]
  refine (reads_header hheader).finish ?_
  refine halpha.finish (hbeta.finish (hgamma.finish (hdelta.finish ?_)))
  refine hic'.finishLast (Finishes.atEnd ?_)
  rw [if_neg hne]
  exact .pure _

/-- **A proof that is read back** has the same exponents. -/
theorem Proof.exists_decode_eq {proof : Proof P Q} {a b c : Fr} (hproof : proof.Exponents M a b c)
    (h : proof.encode = .ok bs) :
    ∃ proof', Proof.decode bs = .ok proof' ∧ proof'.Exponents M a b c := by
  unfold Proof.encode at h
  obtain ⟨header, hheader, h⟩ := exists_of_bind_eq_ok h
  cases h
  obtain ⟨pa, hpa, hpaexp⟩ := hfirst.reads_point hproof.a
  obtain ⟨pb, hpb, hpbexp⟩ := hsecond.reads_subgroupPoint M.addOrderOf_second hproof.b
  obtain ⟨pc, hpc, hpcexp⟩ := hfirst.reads_point hproof.c
  refine ⟨⟨pa, pb, pc⟩, Finishes.run_eq ?_, ⟨hpaexp, hpbexp, hpcexp⟩⟩
  unfold decoder
  simp only [List.append_assoc]
  refine (reads_header hheader).finish (hpa.finish (hpb.finish ?_))
  exact hpc.finishLast (Finishes.atEnd (.pure _))

end MerkleSnark.Groth16
