import Mathlib
import MerkleSnark.Proofs.Codec.Decoder
import MerkleSnark.Proofs.Groth16.Prove

/-!
# The points of keys and proofs are valid

All points that key generation makes are multiples of the generators, and a proof is put together
from the points of its key.  So they are valid in every model of the operations, whatever it takes
for valid, and no scalar that is drawn can change this.

## Main definitions

* `PointGroup.Model.restrict` — the model that only takes the elements of a subgroup for valid.
* `ProvingKey.Valid`, `VerificationKey.Valid`, `Proof.Valid` — all points are valid.
* `ProvingKey.Fits` — the domain and the lists fit the system.
* `ProvingKey.Passes` — what a run of the prover goes through when nothing is refused.

## Main results

* `valid_of_keysOf?`, `fits_of_keysOf?` — the keys of a system.
* `valid_of_prove` — proofs.
* `ProvingKey.Fits.exists_passes` — a key that fits its system refuses inputs for their number
  only.
-/

namespace MerkleSnark

theorem eq_ok_of_mapError_eq_ok {ε ε' α : Type} {f : ε → ε'} {x : Except ε α} {a : α}
    (h : x.mapError f = .ok a) : x = .ok a := by
  cases x with
  | error e => cases h
  | ok b =>
    have hvalue : (Except.ok b : Except ε' α) = .ok a := h
    rw [Except.ok.inj hvalue]

namespace PointGroup.Model

variable {P A : Type} [PointGroup P] [AddCommGroup A]

/-- The model that only takes the points for elements of a subgroup for valid. -/
def restrict (L : Model P A) (S : AddSubgroup A) (hbase : L.base ∈ S) : Model P A where
  Valid p := L.Valid p ∧ L.value p ∈ S
  value := L.value
  valid_generator := ⟨L.valid_generator, hbase⟩
  infinity := ⟨⟨L.infinity.1, L.infinity.2 ▸ S.zero_mem⟩, L.infinity.2⟩
  add hp hq := by
    obtain ⟨hvalid, hvalue⟩ := L.add hp.1 hq.1
    exact ⟨⟨hvalid, hvalue ▸ S.add_mem hp.2 hq.2⟩, hvalue⟩
  double hp := by
    obtain ⟨hvalid, hvalue⟩ := L.double hp.1
    exact ⟨⟨hvalid, hvalue ▸ S.add_mem hp.2 hp.2⟩, hvalue⟩
  neg hp := by
    obtain ⟨hvalid, hvalue⟩ := L.neg hp.1
    exact ⟨⟨hvalid, hvalue ▸ S.neg_mem hp.2⟩, hvalue⟩
  isInfinity_iff hp := L.isInfinity_iff hp.1

variable {L : Model P A}

theorem valid_add {p q : P} (hp : L.Valid p) (hq : L.Valid q) : L.Valid (PointGroup.add p q) :=
  (L.add hp hq).1

theorem valid_smul {p : P} (hp : L.Valid p) (k : Fr) : L.Valid (PointGroup.smul k p) :=
  ((Denotes.of_valid hp).smul k).1

theorem valid_multiExp {ps : List P} {ks : List Fr} {p : P} (hps : ∀ p ∈ ps, L.Valid p)
    (h : multiExp ps ks = .ok p) : L.Valid p := by
  by_cases hlen : ps.length = ks.length
  · obtain ⟨q, hq, hdenotes⟩ := exists_multiExp_eq hlen hps
    rw [hq] at h
    obtain rfl := Except.ok.inj h
    exact hdenotes.1
  · rw [multiExp, if_pos hlen] at h
    cases h

end PointGroup.Model

namespace Groth16

open MerkleSnark.Polynomial PointGroup Model

variable {P Q A B : Type} [PointGroup P] [PointGroup Q] [AddCommGroup A] [AddCommGroup B]
variable {L : Model P A} {L' : Model Q B}

/-- All points of the key are valid. -/
structure ProvingKey.Valid (L : Model P A) (L' : Model Q B) (pk : ProvingKey P Q) : Prop where
  alpha : L.Valid pk.alpha
  beta : L.Valid pk.beta
  betaTwist : L'.Valid pk.betaTwist
  delta : L.Valid pk.delta
  deltaTwist : L'.Valid pk.deltaTwist
  aQuery : ∀ p ∈ pk.aQuery, L.Valid p
  bQuery : ∀ p ∈ pk.bQuery, L.Valid p
  bTwistQuery : ∀ q ∈ pk.bTwistQuery, L'.Valid q
  hQuery : ∀ p ∈ pk.hQuery, L.Valid p
  lQuery : ∀ p ∈ pk.lQuery, L.Valid p

/-- All points of the key are valid. -/
structure VerificationKey.Valid (L : Model P A) (L' : Model Q B) (vk : VerificationKey P Q) :
    Prop where
  alpha : L.Valid vk.alpha
  beta : L'.Valid vk.beta
  gamma : L'.Valid vk.gamma
  delta : L'.Valid vk.delta
  ic : ∀ p ∈ vk.ic, L.Valid p

/-- All points of the proof are valid. -/
structure Proof.Valid (L : Model P A) (L' : Model Q B) (proof : Proof P Q) : Prop where
  a : L.Valid proof.a
  b : L'.Valid proof.b
  c : L.Valid proof.c

/-- The domain of the key has a size that suffices for its system, and the lists have the lengths
that the system asks for. -/
structure ProvingKey.Fits (pk : ProvingKey P Q) : Prop where
  wellFormed : pk.system.WellFormed
  power : ∃ k ≤ 28, pk.domainSize = 2 ^ k
  numConstraints_le : pk.system.numConstraints ≤ pk.domainSize
  aQuery : pk.aQuery.length = pk.system.numVariables
  bQuery : pk.bQuery.length = pk.system.numVariables
  bTwistQuery : pk.bTwistQuery.length = pk.system.numVariables
  hQuery : pk.hQuery.length = pk.domainSize - 1
  lQuery : pk.lQuery.length = pk.system.auxiliarySize

/-! ### Keys -/

/-- Keys are made from the values of the wire polynomials. -/
theorem exists_of_keysOf?_eq {tables : Tables P Q} {cs : ConstraintSystem} {s : Secrets}
    {pk : ProvingKey P Q} {vk : VerificationKey P Q} (h : keysOf? tables cs s = .ok (pk, vk)) :
    ∃ basis polys, lagrangeBasis? (domainSize cs.numConstraints) s.tau = .ok basis
      ∧ wirePolynomials? cs basis = .ok polys ∧ pk = provingKeyFrom tables cs s polys
      ∧ vk = verificationKeyFrom tables cs s polys := by
  rw [keysOf?] at h
  cases hbasis : lagrangeBasis? (domainSize cs.numConstraints) s.tau with
  | error e => rw [hbasis] at h; cases h
  | ok basis =>
    rw [hbasis, mapError_ok, pure_bind] at h
    cases hpolys : wirePolynomials? cs basis with
    | error e => rw [hpolys] at h; cases h
    | ok polys =>
      rw [hpolys] at h
      cases h
      exact ⟨basis, polys, rfl, hpolys, rfl, rfl⟩

/-- A table multiplies the generator. -/
theorem valid_mul {L : Model P A} {w : ℕ} (hw : 1 ≤ w) (k : Fr) :
    L.Valid ((FixedBaseTable.ofBase PointGroup.generator w).mul k) := (exponent_mul hw k).1

theorem valid_map_mul {L : Model P A} {w : ℕ} (hw : 1 ≤ w) (ks : List Fr) :
    ∀ p ∈ ks.map (FixedBaseTable.ofBase (PointGroup.generator : P) w).mul, L.Valid p :=
  List.forall_mem_map.mpr fun k _ => valid_mul hw k

/-- **The points of the keys of a system are valid.** -/
theorem valid_of_keysOf? (L : Model P A) (L' : Model Q B) {w : ℕ} (hw : 1 ≤ w)
    {cs : ConstraintSystem} {s : Secrets} {pk : ProvingKey P Q} {vk : VerificationKey P Q}
    (h : keysOf? (Tables.ofWindow P Q w) cs s = .ok (pk, vk)) :
    pk.Valid L L' ∧ vk.Valid L L' := by
  obtain ⟨basis, polys, -, -, rfl, rfl⟩ := exists_of_keysOf?_eq h
  refine ⟨?_, ?_⟩
  · exact
      { alpha := valid_mul hw s.alpha
        beta := valid_mul hw s.beta
        betaTwist := valid_mul hw s.beta
        delta := valid_mul hw s.delta
        deltaTwist := valid_mul hw s.delta
        aQuery := valid_map_mul hw _
        bQuery := valid_map_mul hw _
        bTwistQuery := valid_map_mul hw _
        hQuery := valid_map_mul hw _
        lQuery := valid_map_mul hw _ }
  · exact
      { alpha := valid_mul hw s.alpha
        beta := valid_mul hw s.beta
        gamma := valid_mul hw s.gamma
        delta := valid_mul hw s.delta
        ic := valid_map_mul hw _ }

/-- There are no domains beyond the two-power part of the multiplicative group. -/
theorem le_of_lagrangeBasis? {n : ℕ} {tau : Fr} {basis : List Fr}
    (h : lagrangeBasis? n tau = .ok basis) : n ≤ 2 ^ 28 := by
  unfold lagrangeBasis? at h
  dsimp only at h
  split at h
  · cases h
  · obtain ⟨roots, hroots, -⟩ := exists_of_bind_eq_ok h
    obtain ⟨root, hroot, -⟩ := exists_of_bind_eq_ok hroots
    obtain ⟨k, hk, rfl, -⟩ := Fr.exists_of_rootOfUnity? hroot
    exact Nat.pow_le_pow_right (by decide) hk

theorem length_columnSums (numVariables : ℕ) (rows : List LinearCombination) (basis : List Fr) :
    (columnSums numVariables rows basis).toList.length = numVariables := by
  have hfold : ∀ (ps : List (LinearCombination × Fr)) (totals : Array Fr),
      (ps.foldl (fun totals p => accumulate totals p.1 p.2) totals).size = totals.size := by
    intro ps
    induction ps with
    | nil => exact fun _ => rfl
    | cons p ps ih =>
      intro totals
      rw [List.foldl_cons, ih, size_accumulate]
  rw [Array.length_toList, columnSums, hfold, Array.size_replicate]

/-- Wire polynomials exist for well-formed systems only, and there is one for every wire. -/
theorem lengths_of_wirePolynomials? {cs : ConstraintSystem} {basis : List Fr}
    {polys : Sides (List Fr)} (h : wirePolynomials? cs basis = .ok polys) :
    cs.WellFormed ∧ polys.a.length = cs.numVariables ∧ polys.b.length = cs.numVariables
      ∧ polys.c.length = cs.numVariables := by
  unfold wirePolynomials? at h
  split at h
  · cases h
  · split at h
    · cases h
    · next hall =>
      rw [Bool.not_eq_false, List.all_eq_true] at hall
      cases h
      exact ⟨hall, length_columnSums _ _ _, length_columnSums _ _ _, length_columnSums _ _ _⟩

/-- **The keys of a system fit it.** -/
theorem fits_of_keysOf? {tables : Tables P Q} {cs : ConstraintSystem} {s : Secrets}
    {pk : ProvingKey P Q} {vk : VerificationKey P Q} (h : keysOf? tables cs s = .ok (pk, vk)) :
    pk.system = cs ∧ pk.Fits ∧ vk.ic.length = cs.primarySize + 1 := by
  obtain ⟨basis, polys, hbasis, hpolys, rfl, rfl⟩ := exists_of_keysOf?_eq h
  obtain ⟨hcs, ha, hb, hc⟩ := lengths_of_wirePolynomials? hpolys
  obtain ⟨k, hsize, -, hle, -⟩ := exists_domainSize_eq cs.numConstraints
  have hdelta := length_combinedValues s s.delta ha hb hc
  have hgamma := length_combinedValues s s.gamma ha hb hc
  have hvariables : cs.numVariables = 1 + cs.primarySize + cs.auxiliarySize := rfl
  have hk : k ≤ 28 := by
    have hmax := le_of_lagrangeBasis? hbasis
    rw [hsize] at hmax
    exact (Nat.pow_le_pow_iff_right (by decide)).mp hmax
  refine ⟨rfl, ?_, ?_⟩
  · exact
      { wellFormed := hcs
        power := ⟨k, hk, hsize⟩
        numConstraints_le := hle.trans_eq hsize.symm
        aQuery := (List.length_map _).trans ha
        bQuery := (List.length_map _).trans hb
        bTwistQuery := (List.length_map _).trans hb
        hQuery := by
          simp only [provingKeyFrom, List.length_map, quotientBasis, Fr.length_powersFrom]
        lQuery := by
          simp only [provingKeyFrom, List.length_map, List.length_drop, hdelta]
          omega }
  · simp only [verificationKeyFrom, List.length_map, List.length_take, hgamma]
    omega

/-! ### Proofs -/

theorem valid_of_proofOf? {pk : ProvingKey P Q} (hpk : pk.Valid L L') {w h : List Fr} {r t : Fr}
    {proof : Proof P Q} (hproof : proofOf? pk w h r t = .ok proof) : proof.Valid L L' := by
  unfold proofOf? at hproof
  obtain ⟨pa, hpa, hproof⟩ := exists_of_bind_eq_ok hproof
  obtain ⟨pb, hpb, hproof⟩ := exists_of_bind_eq_ok hproof
  obtain ⟨pb₁, hpb₁, hproof⟩ := exists_of_bind_eq_ok hproof
  obtain ⟨hidden, hhidden, hproof⟩ := exists_of_bind_eq_ok hproof
  obtain ⟨quotient, hquotient, hproof⟩ := exists_of_bind_eq_ok hproof
  obtain rfl := Except.ok.inj hproof
  have ha := valid_add (valid_add hpk.alpha (valid_multiExp hpk.aQuery hpa))
    (valid_smul hpk.delta r)
  have hb := valid_add (valid_add hpk.betaTwist (valid_multiExp hpk.bTwistQuery hpb))
    (valid_smul hpk.deltaTwist t)
  have hb₁ := valid_add (valid_add hpk.beta (valid_multiExp hpk.bQuery hpb₁))
    (valid_smul hpk.delta t)
  have hblinded := valid_add (valid_add (valid_add (valid_multiExp hpk.lQuery hhidden)
    (valid_multiExp hpk.hQuery hquotient)) (valid_smul ha t)) (valid_smul hb₁ r)
  exact ⟨ha, hb, valid_add hblinded (L.neg (valid_smul hpk.delta (r * t))).1⟩

/-- **The points of a proof are valid** when those of the key are. -/
theorem valid_of_prove {σ : Type} [ScalarSource σ] {pk : ProvingKey P Q} (hpk : pk.Valid L L')
    {primary auxiliary : List Fr} {source : σ} {proof : Proof P Q}
    (h : ((prove pk primary auxiliary).run.run source).1 = .ok proof) : proof.Valid L L' := by
  rw [run_prove_eq] at h
  split at h
  · cases h
  · split at h
    · cases h
    · exact valid_of_proofOf? hpk (eq_ok_of_mapError_eq_ok h)

theorem exists_multiExp_eq_ok {ps : List P} {ks : List Fr} (h : ps.length = ks.length) :
    ∃ p, multiExp ps ks = .ok p := by
  rw [multiExp, if_neg (not_not.mpr h)]
  exact ⟨_, rfl⟩

theorem ProvingKey.Fits.exists_proofOf?_eq_ok {pk : ProvingKey P Q} (hpk : pk.Fits) {w h : List Fr}
    (hw : w.length = pk.system.numVariables) (hh : h.length = pk.domainSize - 1) (r t : Fr) :
    ∃ proof, proofOf? pk w h r t = .ok proof := by
  have hhidden : pk.lQuery.length = (w.drop (pk.system.primarySize + 1)).length := by
    rw [hpk.lQuery, List.length_drop, hw, ConstraintSystem.numVariables]
    omega
  obtain ⟨a, ha⟩ := exists_multiExp_eq_ok (hpk.aQuery.trans hw.symm)
  obtain ⟨b, hb⟩ := exists_multiExp_eq_ok (hpk.bTwistQuery.trans hw.symm)
  obtain ⟨b₁, hb₁⟩ := exists_multiExp_eq_ok (hpk.bQuery.trans hw.symm)
  obtain ⟨hidden, hhidden⟩ := exists_multiExp_eq_ok hhidden
  obtain ⟨quotient, hquotient⟩ := exists_multiExp_eq_ok (hpk.hQuery.trans hh.symm)
  rw [proofOf?, ha, hb, hb₁, hhidden, hquotient]
  exact ⟨_, rfl⟩

/-- What a run of the prover goes through when nothing is refused: the wire values, the values of
the sides on a domain whose size is a power of two, the quotient, two draws and a proof. -/
structure ProvingKey.Passes {σ : Type} [ScalarSource σ] (pk : ProvingKey P Q)
    (primary auxiliary : List Fr) (source : σ) (w : Array Fr) (values : Sides (List Fr))
    (h : List Fr) (proof : Proof P Q) : Prop where
  power : ∃ k ≤ 28, pk.domainSize = 2 ^ k
  assignment : pk.system.assignment? primary auxiliary = .ok w
  constraintValues : constraintValues? pk.system w pk.domainSize = .ok values
  length_a : values.a.length = pk.domainSize
  length_b : values.b.length = pk.domainSize
  length_c : values.c.length = pk.domainSize
  quotient : quotient? pk.system w pk.domainSize = .ok h
  length_quotient : h.length = pk.domainSize - 1
  proofOf : proofOf? pk w.toList h (ScalarSource.next source).1
    (ScalarSource.next (ScalarSource.next source).2).1 = .ok proof
  run : (prove pk primary auxiliary).run.run source
    = (.ok proof, (ScalarSource.next (ScalarSource.next source).2).2)

/-- **A key that fits its system refuses no inputs of the right number**, also none that do not
satisfy the system. -/
theorem ProvingKey.Fits.exists_passes {σ : Type} [ScalarSource σ] {pk : ProvingKey P Q}
    (hpk : pk.Fits) {primary auxiliary : List Fr}
    (hprimary : primary.length = pk.system.primarySize)
    (hauxiliary : auxiliary.length = pk.system.auxiliarySize) (source : σ) :
    ∃ w values h proof, pk.Passes primary auxiliary source w values h proof := by
  obtain ⟨k, hk, hsize⟩ := hpk.power
  have hle : pk.system.numConstraints ≤ 2 ^ k := hpk.numConstraints_le.trans_eq hsize
  have hlen : (1 :: (primary ++ auxiliary)).length = pk.system.numVariables := by
    rw [List.length_cons, List.length_append, hprimary, hauxiliary, ConstraintSystem.numVariables]
    omega
  have hw : pk.system.assignment? primary auxiliary
      = .ok (1 :: (primary ++ auxiliary)).toArray := by
    rw [ConstraintSystem.assignment?, if_neg (not_not.mpr hprimary),
      if_neg (not_not.mpr hauxiliary)]
  obtain ⟨values, hvalues, ha, hb, hc, -⟩ := exists_constraintValues?_eq hpk.wellFormed hlen hle
  obtain ⟨h, hh, hhlen, -⟩ := exists_quotient?_eq hk hpk.wellFormed hlen hle
  rw [← hsize] at hvalues ha hb hc hh hhlen
  obtain ⟨proof, hproof⟩ := hpk.exists_proofOf?_eq_ok hlen hhlen (ScalarSource.next source).1
    (ScalarSource.next (ScalarSource.next source).2).1
  exact ⟨_, values, h, proof,
    { power := ⟨k, hk, hsize⟩
      assignment := hw
      constraintValues := hvalues
      length_a := ha
      length_b := hb
      length_c := hc
      quotient := hh
      length_quotient := hhlen
      proofOf := hproof
      run := by
        rw [run_prove hw hh, hproof]
        rfl }⟩

/-- **A key that fits its system gives a proof for all inputs of the right number.** -/
theorem ProvingKey.Fits.exists_prove_eq_ok {σ : Type} [ScalarSource σ] {pk : ProvingKey P Q}
    (hpk : pk.Fits) {primary auxiliary : List Fr}
    (hprimary : primary.length = pk.system.primarySize)
    (hauxiliary : auxiliary.length = pk.system.auxiliarySize) (source : σ) :
    ∃ proof, ((prove pk primary auxiliary).run.run source).1 = .ok proof := by
  obtain ⟨_, _, _, proof, hpasses⟩ := hpk.exists_passes hprimary hauxiliary source
  exact ⟨proof, congrArg Prod.fst hpasses.run⟩

/-- Inputs of the wrong number are refused before anything is drawn. -/
theorem run_prove_of_misfit {σ : Type} [ScalarSource σ] {pk : ProvingKey P Q}
    {primary auxiliary : List Fr} {cause : AssignmentError}
    (h : pk.system.assignment? primary auxiliary = .error cause) (source : σ) :
    (prove pk primary auxiliary).run.run source
      = (.error (.program (.assignment cause)), source) := by
  rw [run_prove_eq, h]

end Groth16

end MerkleSnark
