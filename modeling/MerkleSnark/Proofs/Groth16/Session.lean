import Mathlib
import MerkleSnark.Proofs.Codec.Key
import MerkleSnark.Proofs.Groth16.Completeness
import MerkleSnark.Proofs.Groth16.Validity
import MerkleSnark.Workflow.Backend

/-!
# Honest sessions

A session is honest when its source gives no zero and its tables are those of the generators.  The
keys that come out of it make a pair for secrets that can be divided by, and they still do after both
were written and read back; a proof that is made with such a pair from satisfying wire values is
accepted after it was written and read back.

## Main definitions

* `ScalarSource.Positive` — no scalar that is drawn from a state on is zero.
* `Session.Honest` — a session as it is at the beginning of a run or at any time later.
* `KeyPair` — keys of a system for the same secrets.

## Main results

* `Session.Honest.run_generate`, `Session.Honest.run_prove` — a session stays honest.
* `Session.Honest.exists_keyPair` — the keys that a session makes.
* `KeyPair.exists_decode_eq`, `KeyPair.exists_proof_decode_eq` — what is read back.
-/

namespace MerkleSnark

/-! ### Scalars that are not zero -/

namespace ScalarSource

variable {σ : Type} [ScalarSource σ] {s : σ}

/-- None of the scalars that are drawn from the state on is zero. -/
def Positive (s : σ) : Prop := ∀ n, scalar s n ≠ 0

theorem Positive.ne_zero (h : Positive s) : (next s).1 ≠ 0 := h 0

theorem Positive.rest (h : Positive s) : Positive (next s).2 := fun n => h (n + 1)

theorem Positive.after (h : Positive s) (k : ℕ) : Positive (after s k) := fun n => by
  rw [scalar, ← after_add]
  exact h (k + n)

/-- A property of states that every draw keeps, and under which no draw gives zero. -/
theorem positive_of_invariant {I : σ → Prop} (h : ∀ s, I s → (next s).1 ≠ 0 ∧ I (next s).2)
    (hs : I s) : Positive s := by
  intro n
  have hstates : I (after s n) := by
    induction n generalizing s with
    | zero => exact hs
    | succ n ih => exact ih (h s hs).2
  exact (h _ hstates).1

end ScalarSource

/-- A list that is not empty and holds no zero never gives zero. -/
theorem Cycle.positive_ofList {scalars : List Fr} (hne : scalars ≠ [])
    (h : ∀ x ∈ scalars, x ≠ 0) : ScalarSource.Positive (Cycle.ofList scalars) := by
  apply ScalarSource.positive_of_invariant
    (I := fun s : Cycle => s.scalars = scalars ∧ ∀ x ∈ s.left, x ≠ 0)
  · rintro ⟨all, left⟩ ⟨rfl, hleft⟩
    cases left with
    | cons x rest => exact ⟨hleft x List.mem_cons_self, rfl, fun y hy => hleft y (.tail x hy)⟩
    | nil =>
      cases all with
      | nil => exact absurd rfl hne
      | cons x rest => exact ⟨h x List.mem_cons_self, rfl, fun y hy => h y (.tail x hy)⟩
  · exact ⟨rfl, h⟩

namespace Groth16

open MerkleSnark.Polynomial ScalarSource

variable {σ P Q T : Type} [ScalarSource σ] [PointGroup P] [PointGroup Q] [Pairing P Q T]
variable {A B U : Type} [AddCommGroup A] [AddCommGroup B] [CommGroup U]
variable {M : Pairing.Model P Q T A B U} {cs : ConstraintSystem} {s : Secrets}
  {polys : Sides (List Fr)} {pk : ProvingKey P Q} {vk : VerificationKey P Q}

/-- The divisors among the secrets are the third and the fourth scalar. -/
theorem Secrets.sample_divisors (source : σ) (n : ℕ) :
    ((Secrets.sample n).run source).1.gamma = (next (next (next source).2).2).1
      ∧ ((Secrets.sample n).run source).1.delta = (next (next (next (next source).2).2).2).1 := by
  rw [Secrets.sample, run_draw_next, run_draw_next, run_draw_next, run_draw_next, StateT.run_bind]
  exact ⟨rfl, rfl⟩

/-! ### Sources that were drawn from -/

theorem positive_prove {source : σ} (h : Positive source) (pk : ProvingKey P Q)
    (primary auxiliary : List Fr) : Positive ((prove pk primary auxiliary).run.run source).2 := by
  rw [run_prove_eq]
  split
  · exact h
  · split
    · exact h
    · exact h.rest.rest

/-! ### Key pairs -/

/-- Keys of a system for the same secrets, of which the divisors are not zero. -/
structure KeyPair (M : Pairing.Model P Q T A B U) (cs : ConstraintSystem) (s : Secrets)
    (polys : Sides (List Fr)) (pk : ProvingKey P Q) (vk : VerificationKey P Q) : Prop where
  wellFormed : cs.WellFormed
  numConstraints_le : cs.numConstraints ≤ 2 ^ 28
  values : IsWirePolynomials cs (domainSize cs.numConstraints) s.tau polys
  gamma_ne_zero : s.gamma ≠ 0
  delta_ne_zero : s.delta ≠ 0
  proving : pk.IsFor M cs s polys
  verification : vk.IsFor M cs s polys

theorem vanishing_ne_zero_of_lagrangeBasis? {n : ℕ} {tau : Fr} {basis : List Fr}
    (h : lagrangeBasis? n tau = .ok basis) : vanishing n tau ≠ 0 := by
  intro hzero
  rw [lagrangeBasis?_eq_error hzero] at h
  cases h

/-- Keys that can be made at all hold the points of their system for the secrets. -/
theorem exists_isFor_of_keysOf? (M : Pairing.Model P Q T A B U) {tables : Tables P Q}
    (htables : tables.Multiply M) (h : keysOf? tables cs s = .ok (pk, vk)) :
    cs.WellFormed ∧ cs.numConstraints ≤ 2 ^ 28
      ∧ ∃ polys, IsWirePolynomials cs (domainSize cs.numConstraints) s.tau polys
        ∧ pk.IsFor M cs s polys ∧ vk.IsFor M cs s polys := by
  obtain ⟨basis, polys, hbasis, hpolys, -, -⟩ := exists_of_keysOf?_eq h
  obtain ⟨hsystem, hfits, -⟩ := fits_of_keysOf? h
  have hcs := (lengths_of_wirePolynomials? hpolys).1
  have hcount : cs.numConstraints ≤ 2 ^ 28 := by
    obtain ⟨k, hk, hsize⟩ := hfits.power
    rw [← hsystem]
    apply hfits.numConstraints_le.trans
    rw [hsize]
    exact Nat.pow_le_pow_right (by decide) hk
  obtain ⟨polys, pk', vk', hkeys, hspec, hpk, hvk⟩ :=
    exists_keysOf?_eq M hcs hcount (vanishing_ne_zero_of_lagrangeBasis? hbasis) htables
  rw [h] at hkeys
  cases hkeys
  exact ⟨hcs, hcount, polys, hspec, hpk, hvk⟩

/-- With divisors other than zero they are a pair. -/
theorem KeyPair.of_keysOf? (M : Pairing.Model P Q T A B U) {tables : Tables P Q}
    (htables : tables.Multiply M) (hgamma : s.gamma ≠ 0) (hdelta : s.delta ≠ 0)
    (h : keysOf? tables cs s = .ok (pk, vk)) : ∃ polys, KeyPair M cs s polys pk vk := by
  obtain ⟨hcs, hcount, polys, hspec, hpk, hvk⟩ := exists_isFor_of_keysOf? M htables h
  exact ⟨polys, hcs, hcount, hspec, hgamma, hdelta, hpk, hvk⟩

/-- A key has an entry for the constant wire and one for every public wire. -/
theorem VerificationKey.IsFor.length_ic {n : ℕ} (hvk : vk.IsFor M cs s polys)
    (hpolys : IsWirePolynomials cs n s.tau polys) : vk.ic.length = cs.primarySize + 1 := by
  rw [hvk.ic.length_eq, List.length_take, min_eq_left (hpolys.primarySize_lt (s := s))]

namespace KeyPair

variable (h : KeyPair M cs s polys pk vk)
include h

theorem length_ic : vk.ic.length = cs.primarySize + 1 :=
  h.verification.length_ic h.values

variable [PointCodec P] [PointCodec Q] {bs bs' : Bytes}

/-- **Keys that are read back** are a pair for the system that is read back. -/
theorem exists_decode_eq (hfirst : M.first.ReadsBack) (hsecond : M.second.ReadsBack)
    (hpk : pk.encode = .ok bs) (hvk : vk.encode = .ok bs') :
    ∃ pk' vk', ProvingKey.decode bs = .ok pk' ∧ VerificationKey.decode bs' = .ok vk'
      ∧ KeyPair M cs.reread s polys pk' vk' := by
  obtain ⟨pk', hdecode, hproving⟩ :=
    ProvingKey.exists_decode_eq hfirst hsecond h.proving h.wellFormed h.values hpk
  have hic : vk.ic ≠ [] := List.ne_nil_of_length_eq_add_one h.length_ic
  obtain ⟨vk', hdecode', hverification⟩ :=
    VerificationKey.exists_decode_eq hfirst hsecond h.verification hic hvk
  refine ⟨pk', vk', hdecode, hdecode', ?_⟩
  exact
    { wellFormed := ConstraintSystem.wellFormed_reread h.wellFormed
      numConstraints_le := by
        rw [ConstraintSystem.numConstraints_reread]
        exact h.numConstraints_le
      values := by
        rw [ConstraintSystem.numConstraints_reread]
        exact h.values.reread
      gamma_ne_zero := h.gamma_ne_zero
      delta_ne_zero := h.delta_ne_zero
      proving := hproving
      -- only the number of public wires counts here
      verification := ⟨hverification.alpha, hverification.beta, hverification.gamma,
        hverification.delta, hverification.ic⟩ }

/-- **A proof that is read back** is accepted when its wire values satisfy the system. -/
theorem exists_proof_decode_eq (hfirst : M.first.ReadsBack) (hsecond : M.second.ReadsBack)
    {primary auxiliary : List Fr} (hprimary : primary.length = cs.primarySize)
    (hauxiliary : auxiliary.length = cs.auxiliarySize)
    (hsatisfied : cs.Satisfied (wireValues (1 :: (primary ++ auxiliary)))) {source : σ}
    {proof : Proof P Q} (hprove : ((prove pk primary auxiliary).run.run source).1 = .ok proof)
    (hproof : proof.encode = .ok bs) :
    ∃ proof', Proof.decode bs = .ok proof' ∧ verify vk primary proof' = .ok true := by
  obtain ⟨a, b, c, hexponents, haccept⟩ := exists_exponents_of_prove h.proving h.values
    h.gamma_ne_zero h.delta_ne_zero hprimary hauxiliary h.wellFormed h.numConstraints_le hsatisfied
    hprove
  obtain ⟨proof', hdecode, hexponents'⟩ :=
    Proof.exists_decode_eq hfirst hsecond hexponents hproof
  exact ⟨proof', hdecode, haccept vk proof' h.verification hexponents'⟩

end KeyPair

end Groth16

/-! ### Sessions -/

open Groth16

variable {σ P Q T : Type} [ScalarSource σ] [PointGroup P] [PointGroup Q] [Pairing P Q T]

/-- The source gives no zero, and the tables are those of the generators. -/
structure Session.Honest (session : Session σ P Q) : Prop where
  positive : ScalarSource.Positive session.source
  sound : session.tables.Sound

theorem Backend.run_generate_groth16 {cs : ConstraintSystem} {session : Session σ P Q}
    {result : Except ProgramError (ProvingKey P Q × VerificationKey P Q)} {source : σ}
    {tables : TableCache P Q}
    (h : Groth16.generate cs (session.source, session.tables) = (result, source, tables)) :
    (groth16.generate cs).run session
      = (result.mapError ProgramError.message, { source, tables }) := by
  simp only [groth16, StateT.run, h]

theorem Backend.run_prove_groth16 {pk : ProvingKey P Q} {primary auxiliary : List Fr}
    {session : Session σ P Q} {result : Except ProveError (Proof P Q)} {source : σ}
    (h : (Groth16.prove pk primary auxiliary).run.run session.source = (result, source)) :
    (groth16.prove pk primary auxiliary).run session
      = (result.mapError ProveError.message, { session with source }) := by
  rw [StateT.run]
  simp only [groth16, h]

theorem Backend.run_verify_groth16 {vk : VerificationKey P Q} {inputs : List Fr} {proof : Proof P Q}
    {session : Session σ P Q} {accepted : Bool}
    (h : Groth16.verify vk inputs proof = .ok accepted) :
    (groth16.verify vk inputs proof).run session = (.ok accepted, session) := by
  simp only [groth16, StateT.run, h]
  rfl

theorem Backend.generate_of_run_groth16 {cs : ConstraintSystem} {session session' : Session σ P Q}
    {keys : ProvingKey P Q × VerificationKey P Q}
    (h : (groth16.generate cs).run session = (.ok keys, session')) :
    (Groth16.generate cs (session.source, session.tables)).1 = .ok keys := by
  rcases hrun : Groth16.generate cs (session.source, session.tables) with ⟨result, source, tables⟩
  rw [run_generate_groth16 hrun] at h
  exact eq_ok_of_mapError_eq_ok (Prod.mk.inj h).1

theorem Backend.prove_of_run_groth16 {pk : ProvingKey P Q} {primary auxiliary : List Fr}
    {session session' : Session σ P Q} {proof : Proof P Q}
    (h : (groth16.prove pk primary auxiliary).run session = (.ok proof, session')) :
    ((Groth16.prove pk primary auxiliary).run.run session.source).1 = .ok proof := by
  rcases hrun : (Groth16.prove pk primary auxiliary).run.run session.source with ⟨result, source⟩
  rw [run_prove_groth16 hrun] at h
  exact eq_ok_of_mapError_eq_ok (Prod.mk.inj h).1

/-- A session stays honest when keys are made with it. -/
theorem Session.Honest.run_generate {session : Session σ P Q} (h : session.Honest)
    {cs : ConstraintSystem} {redraws : ℕ} {s : Secrets}
    (hs : s.Drawn (Polynomial.domainSize cs.numConstraints) session.source redraws) :
    ((Backend.groth16.generate cs).run session).2.Honest := by
  rw [Backend.run_generate_groth16 (hs.generate_eq session.tables)]
  exact ⟨h.positive.after (5 + redraws), (h.sound.fetch (tableWindow cs)).2⟩

/-- A session stays honest when a proof is made with it. -/
theorem Session.Honest.run_prove {session : Session σ P Q} (h : session.Honest)
    (pk : ProvingKey P Q) (primary auxiliary : List Fr) :
    ((Backend.groth16.prove pk primary auxiliary).run session).2.Honest := by
  have hsource := positive_prove h.positive pk primary auxiliary
  rw [Backend.run_prove_groth16 rfl]
  exact ⟨hsource, h.sound⟩

variable {A B U : Type} [AddCommGroup A] [AddCommGroup B] [CommGroup U]

/-- **The keys that an honest session makes** are a pair. -/
theorem Session.Honest.exists_keyPair (M : Pairing.Model P Q T A B U)
    {session session' : Session σ P Q} (h : session.Honest) {cs : ConstraintSystem}
    {pk : ProvingKey P Q} {vk : VerificationKey P Q}
    (hkeys : (Backend.groth16.generate cs).run session = (.ok (pk, vk), session')) :
    ∃ s polys, KeyPair M cs s polys pk vk := by
  have hgenerate := Backend.generate_of_run_groth16 hkeys
  obtain ⟨hgamma, hdelta⟩ :=
    Secrets.sample_divisors session.source (Polynomial.domainSize cs.numConstraints)
  rw [generate] at hgenerate
  generalize ((Secrets.sample (Polynomial.domainSize cs.numConstraints)).run session.source).1 = s
    at hgamma hdelta hgenerate
  refine ⟨s, KeyPair.of_keysOf? M ?_ ?_ ?_ hgenerate⟩
  · rw [(h.sound.fetch _).1]
    exact multiply_ofWindow M (one_le_tableWindow cs)
  · rw [hgamma]
    exact h.positive.rest.rest.ne_zero
  · rw [hdelta]
    exact h.positive.rest.rest.rest.ne_zero

end MerkleSnark
