import Mathlib
import MerkleSnark.Proofs.Groth16.Drawing
import MerkleSnark.Proofs.Groth16.Prove

/-!
# Honest runs of the proof system

Keys are made, a proof is made from wire values, and the proof is verified.  For satisfying wire
values the proof is accepted whatever scalars are drawn.  For other wire values the quotient of the
prover is none, and only at few evaluation points does nobody notice.

## Main definitions

* `answer?` — what the verifier says at the end of a run with given scalars.

## Main results

* `exists_run_eq` — a run decides whether the defect vanishes at the evaluation point.
* `exists_exponents_of_prove` — proofs from satisfying wire values are accepted in any coordinates.
* `verify_prove_of_satisfied` — **completeness**: proofs from satisfying wire values are accepted.
* `answer?_of_not_satisfied` — when a proof from other wire values is accepted, and how rarely.
-/

namespace MerkleSnark.Groth16

open MerkleSnark.Polynomial

variable {P Q T : Type} [PointGroup P] [PointGroup Q] [Pairing P Q T]
variable {A B U : Type} [AddCommGroup A] [AddCommGroup B] [CommGroup U]
variable {σ ρ : Type} [ScalarSource σ] [ScalarSource ρ]
variable {cs : ConstraintSystem} {primary auxiliary : List Fr} {h : List Fr}

theorem assignment?_eq (hprimary : primary.length = cs.primarySize)
    (hauxiliary : auxiliary.length = cs.auxiliarySize) :
    cs.assignment? primary auxiliary = .ok (1 :: (primary ++ auxiliary)).toArray := by
  rw [ConstraintSystem.assignment?, if_neg (not_not.mpr hprimary), if_neg (not_not.mpr hauxiliary)]

/-- Every run finds a quotient; it is exact for satisfying wire values only. -/
theorem exists_quotient?_assignment (hcs : cs.WellFormed) (hcount : cs.numConstraints ≤ 2 ^ 28)
    (hprimary : primary.length = cs.primarySize) (hauxiliary : auxiliary.length = cs.auxiliarySize) :
    ∃ h, quotient? cs (1 :: (primary ++ auxiliary)).toArray (domainSize cs.numConstraints) = .ok h
      ∧ h.length = domainSize cs.numConstraints - 1
      ∧ (defect cs (1 :: (primary ++ auxiliary)) (domainSize cs.numConstraints) h).natDegree
        ≤ 2 * domainSize cs.numConstraints - 2
      ∧ (defect cs (1 :: (primary ++ auxiliary)) (domainSize cs.numConstraints) h = 0
        ↔ cs.Satisfied (wireValues (1 :: (primary ++ auxiliary)))) := by
  obtain ⟨k, hsize, -, hle, hk⟩ := exists_domainSize_eq cs.numConstraints
  have hws : (1 :: (primary ++ auxiliary)).length = cs.numVariables := by
    rw [List.length_cons, List.length_append, hprimary, hauxiliary, ConstraintSystem.numVariables]
    omega
  obtain ⟨h, hok, hlen, hiff⟩ := exists_quotient?_eq (hk hcount) hcs hws hle
  rw [hsize]
  exact ⟨h, hok, hlen, natDegree_defect_le (hk hcount) hlen, hiff⟩

section Keys

variable {M : Pairing.Model P Q T A B U} {pk : ProvingKey P Q} {s : Secrets}
  {polys : Sides (List Fr)} (hpk : pk.IsFor M cs s polys)
  (hpolys : IsWirePolynomials cs (domainSize cs.numConstraints) s.tau polys)
  (hgamma : s.gamma ≠ 0) (hdelta : s.delta ≠ 0) (hprimary : primary.length = cs.primarySize)
  (hauxiliary : auxiliary.length = cs.auxiliarySize)

include hpk hpolys hgamma hdelta hprimary hauxiliary

/-- **What is proved from wire values**, on exponents. -/
theorem exists_run_prove_eq
    (hh : quotient? cs (1 :: (primary ++ auxiliary)).toArray (domainSize cs.numConstraints) = .ok h)
    (hlen : h.length = domainSize cs.numConstraints - 1) (source : σ) :
    ∃ proof a b c, ((prove pk primary auxiliary).run.run source).1 = .ok proof
      ∧ proof.Exponents M a b c
      ∧ a = s.alpha + dot polys.a (1 :: (primary ++ auxiliary))
        + (ScalarSource.next source).1 * s.delta
      ∧ b = s.beta + dot polys.b (1 :: (primary ++ auxiliary))
        + (ScalarSource.next (ScalarSource.next source).2).1 * s.delta
      ∧ a * b - s.alpha * s.beta
          - s.gamma * dot ((combinedValues s s.gamma polys).take (cs.primarySize + 1)) (1 :: primary)
          - s.delta * c
        = (defect cs (1 :: (primary ++ auxiliary)) (domainSize cs.numConstraints) h).eval s.tau := by
  obtain ⟨proof, a, b, c, hproof, hexponents⟩ := exists_proofOf?_defect hpk hpolys hgamma hdelta
    hprimary hauxiliary hlen (ScalarSource.next source).1
    (ScalarSource.next (ScalarSource.next source).2).1
  have hassignment : pk.system.assignment? primary auxiliary
      = .ok (1 :: (primary ++ auxiliary)).toArray := by
    rw [hpk.system]
    exact assignment?_eq hprimary hauxiliary
  have hquotient : quotient? pk.system (1 :: (primary ++ auxiliary)).toArray pk.domainSize
      = .ok h := by
    rw [hpk.system, hpk.domainSize]
    exact hh
  refine ⟨proof, a, b, c, ?_, hexponents⟩
  rw [run_prove hassignment hquotient, hproof]
  rfl

/-- From satisfying wire values there is no defect. -/
theorem exists_run_prove_of_satisfied (hcs : cs.WellFormed) (hcount : cs.numConstraints ≤ 2 ^ 28)
    (hsatisfied : cs.Satisfied (wireValues (1 :: (primary ++ auxiliary)))) (source : σ) :
    ∃ proof a b c, ((prove pk primary auxiliary).run.run source).1 = .ok proof
      ∧ proof.Exponents M a b c
      ∧ a = s.alpha + dot polys.a (1 :: (primary ++ auxiliary))
        + (ScalarSource.next source).1 * s.delta
      ∧ b = s.beta + dot polys.b (1 :: (primary ++ auxiliary))
        + (ScalarSource.next (ScalarSource.next source).2).1 * s.delta
      ∧ a * b - s.alpha * s.beta
          - s.gamma * dot ((combinedValues s s.gamma polys).take (cs.primarySize + 1)) (1 :: primary)
          - s.delta * c = 0 := by
  obtain ⟨h, hh, hlen, -, hdefect⟩ := exists_quotient?_assignment hcs hcount hprimary hauxiliary
  have hrun := exists_run_prove_eq hpk hpolys hgamma hdelta hprimary hauxiliary hh hlen source
  rwa [hdefect.mpr hsatisfied, Polynomial.eval_zero] at hrun

/-- A proof from satisfying wire values has exponents with which every proof is accepted, by any key
for the same secrets. -/
theorem exists_exponents_of_prove (hcs : cs.WellFormed) (hcount : cs.numConstraints ≤ 2 ^ 28)
    (hsatisfied : cs.Satisfied (wireValues (1 :: (primary ++ auxiliary)))) {source : σ}
    {proof : Proof P Q} (h : ((prove pk primary auxiliary).run.run source).1 = .ok proof) :
    ∃ a b c, proof.Exponents M a b c ∧ ∀ (vk : VerificationKey P Q) (proof' : Proof P Q),
      vk.IsFor M cs s polys → proof'.Exponents M a b c → verify vk primary proof' = .ok true := by
  obtain ⟨made, a, b, c, hmade, hexponents, -, -, hvalue⟩ := exists_run_prove_of_satisfied hpk hpolys
    hgamma hdelta hprimary hauxiliary hcs hcount hsatisfied source
  obtain rfl : made = proof := Except.ok.inj (hmade.symm.trans h)
  refine ⟨a, b, c, hexponents, fun vk proof' hvk hproof' => ?_⟩
  obtain ⟨accepted, haccepted, hiff⟩ :=
    exists_verify_eq hvk hpolys.primarySize_lt hprimary hproof'
  have hzero : M.root ^ (0 : Fr).val = 1 := pow_zero _
  rw [hvalue] at hiff
  rw [haccepted, hiff.mpr hzero]

end Keys

/-- **A run decides whether the defect vanishes at the evaluation point.** -/
theorem exists_run_eq (M : Pairing.Model P Q T A B U) (hcs : cs.WellFormed)
    (hcount : cs.numConstraints ≤ 2 ^ 28) (hprimary : primary.length = cs.primarySize)
    (hauxiliary : auxiliary.length = cs.auxiliarySize)
    (hh : quotient? cs (1 :: (primary ++ auxiliary)).toArray (domainSize cs.numConstraints) = .ok h)
    (hlen : h.length = domainSize cs.numConstraints - 1) (earlier : List ConstraintSystem)
    (source : σ) {s : Secrets}
    (hs : ((Secrets.sample (domainSize cs.numConstraints)).run source).1 = s)
    (hgamma : s.gamma ≠ 0) (hdelta : s.delta ≠ 0)
    (htau : vanishing (domainSize cs.numConstraints) s.tau ≠ 0) :
    ∃ pk vk, (generate cs (source, TableCache.after P Q earlier)).1 = .ok (pk, vk)
      ∧ ∀ blinding : ρ, ∃ proof accepted,
        ((prove pk primary auxiliary).run.run blinding).1 = .ok proof
          ∧ verify vk primary proof = .ok accepted
          ∧ (accepted = true ↔ M.root ^ ((defect cs (1 :: (primary ++ auxiliary))
              (domainSize cs.numConstraints) h).eval s.tau).val = 1) := by
  obtain ⟨polys, pk, vk, hkeys, hpolys, hpk, hvk⟩ :=
    exists_keysOf?_eq M hcs hcount htau (multiply_ofWindow M (one_le_tableWindow cs))
  refine ⟨pk, vk, ?_, fun blinding => ?_⟩
  · rw [generate_after, hs]
    exact hkeys
  · obtain ⟨proof, a, b, c, hproof, hexponents, -, -, hvalue⟩ := exists_run_prove_eq hpk hpolys hgamma
      hdelta hprimary hauxiliary hh hlen blinding
    obtain ⟨accepted, haccepted, hiff⟩ :=
      exists_verify_eq hvk hpolys.primarySize_lt hprimary hexponents
    rw [hvalue] at hiff
    exact ⟨proof, accepted, hproof, haccepted, hiff⟩

/-- **Completeness**: a proof made from satisfying wire values is accepted, whatever scalars are
drawn for the keys and for the blinding, and whatever keys were made before. -/
theorem verify_prove_of_satisfied (M : Pairing.Model P Q T A B U) (hcs : cs.WellFormed)
    (hcount : cs.numConstraints ≤ 2 ^ 28) (hprimary : primary.length = cs.primarySize)
    (hauxiliary : auxiliary.length = cs.auxiliarySize)
    (hsatisfied : cs.Satisfied (wireValues (1 :: (primary ++ auxiliary))))
    (earlier : List ConstraintSystem) (source : σ) {s : Secrets}
    (hs : ((Secrets.sample (domainSize cs.numConstraints)).run source).1 = s)
    (hgamma : s.gamma ≠ 0) (hdelta : s.delta ≠ 0)
    (htau : vanishing (domainSize cs.numConstraints) s.tau ≠ 0) :
    ∃ pk vk, (generate cs (source, TableCache.after P Q earlier)).1 = .ok (pk, vk)
      ∧ ∀ blinding : ρ, ∃ proof, ((prove pk primary auxiliary).run.run blinding).1 = .ok proof
        ∧ verify vk primary proof = .ok true := by
  obtain ⟨h, hh, hlen, -, hdefect⟩ := exists_quotient?_assignment hcs hcount hprimary hauxiliary
  obtain ⟨pk, vk, hkeys, hrun⟩ := exists_run_eq (ρ := ρ) M hcs hcount hprimary hauxiliary hh hlen
    earlier source hs hgamma hdelta htau
  refine ⟨pk, vk, hkeys, fun blinding => ?_⟩
  obtain ⟨proof, accepted, hproof, haccepted, hiff⟩ := hrun blinding
  have hzero : M.root ^ (0 : Fr).val = 1 := pow_zero _
  rw [hdefect.mpr hsatisfied, Polynomial.eval_zero] at hiff
  exact ⟨proof, hproof, by rw [haccepted, hiff.mpr hzero]⟩

/-! ### Scalars from a list -/

/-- Five scalars from a list become the secrets. -/
theorem sample_ofList {n : ℕ} {alpha beta gamma delta tau : Fr} (h : vanishing n tau ≠ 0) :
    ((Secrets.sample n).run (Cycle.ofList [alpha, beta, gamma, delta, tau])).1
      = ⟨alpha, beta, gamma, delta, tau⟩ := by
  have hdrawn : Secrets.Drawn n (Cycle.ofList [alpha, beta, gamma, delta, tau]) 0
      ⟨alpha, beta, gamma, delta, tau⟩ :=
    ⟨rfl, rfl, rfl, rfl, fun j hj => absurd hj (Nat.not_lt_zero j), rfl, h⟩
  rw [hdrawn.run_sample]

/-- One constraint: the square of the private input is the public one. -/
def squareSystem : ConstraintSystem where
  primarySize := 1
  auxiliarySize := 1
  constraints := [⟨.var 2, .var 2, .var 1, "square"⟩]

theorem vanishing_squareSystem :
    vanishing (domainSize squareSystem.numConstraints) 11 ≠ 0 := by
  have hsize : domainSize squareSystem.numConstraints = 2 := by decide
  rw [hsize, vanishing, pow_two]
  decide

theorem verify_prove_square : ∃ pk vk,
    (generate squareSystem (Cycle.ofList [2, 3, 5, 7, 11],
        TableCache.after ExponentPoint ExponentPoint [squareSystem])).1 = .ok (pk, vk)
      ∧ ∀ blinding : Cycle, ∃ proof, ((prove pk [9] [3]).run.run blinding).1 = .ok proof
        ∧ verify vk [9] proof = .ok true :=
  verify_prove_of_satisfied ExponentPoint.pairingModel (by decide) (by decide) rfl rfl (by decide)
    [squareSystem] _ (sample_ofList vanishing_squareSystem) (by decide) (by decide)
    vanishing_squareSystem

/-! ### Wire values that do not satisfy the system -/

/-- What the verifier says at the end of a run: keys for the given secrets, a proof with the given
blinding scalars, and the check.  There is no answer when one of the three fails. -/
def answer? (P Q : Type) {T : Type} [PointGroup P] [PointGroup Q] [Pairing P Q T]
    (earlier : List ConstraintSystem) (cs : ConstraintSystem) (s : Secrets) (r t : Fr)
    (primary auxiliary : List Fr) : Option Bool := do
  let secrets := Cycle.ofList [s.alpha, s.beta, s.gamma, s.delta, s.tau]
  let keys ← (generate cs (secrets, TableCache.after P Q earlier)).1.toOption
  let proof ← ((prove keys.1 primary auxiliary).run.run (Cycle.ofList [r, t])).1.toOption
  (verify keys.2 primary proof).toOption

/-- A polynomial other than zero has no more roots of any kind than its degree. -/
theorem encard_setOf_root_le {f : Polynomial Fr} (hf : f ≠ 0) {n : ℕ} (hn : f.natDegree ≤ n)
    (p : Fr → Prop) : {x | p x ∧ f.eval x = 0}.encard ≤ n := by
  have hsubset : {x | p x ∧ f.eval x = 0} ⊆ (f.roots.toFinset : Set Fr) := by
    intro x hx
    rw [Finset.mem_coe, Multiset.mem_toFinset, Polynomial.mem_roots hf]
    exact hx.2
  calc {x | p x ∧ f.eval x = 0}.encard ≤ (f.roots.toFinset : Set Fr).encard :=
        Set.encard_le_encard hsubset
    _ = (f.roots.toFinset.card : ℕ∞) := Set.encard_coe_eq_coe_finsetCard _
    _ ≤ n := by
        exact_mod_cast (Multiset.toFinset_card_le _).trans ((Polynomial.card_roots' f).trans hn)

/-- **When a proof from wire values that violate a constraint is accepted.**  With all other scalars
fixed, it is accepted exactly at the evaluation points where the quotient of the prover passes for
one, and there are at most `2 * n - 2` of these. -/
theorem answer?_of_not_satisfied (M : Pairing.Model P Q T A B U) (hroot : M.root ≠ 1)
    (hcs : cs.WellFormed) (hcount : cs.numConstraints ≤ 2 ^ 28)
    (hprimary : primary.length = cs.primarySize) (hauxiliary : auxiliary.length = cs.auxiliarySize)
    (hviolated : ¬ cs.Satisfied (wireValues (1 :: (primary ++ auxiliary))))
    (earlier : List ConstraintSystem) {alpha beta gamma delta : Fr} (hgamma : gamma ≠ 0)
    (hdelta : delta ≠ 0) (r t : Fr) {n : ℕ} (hn : domainSize cs.numConstraints = n) :
    ∃ h, quotient? cs (1 :: (primary ++ auxiliary)).toArray n = .ok h
      ∧ (∀ tau, vanishing n tau ≠ 0 →
        answer? P Q earlier cs ⟨alpha, beta, gamma, delta, tau⟩ r t primary auxiliary
          = some (decide ((sidePolynomial cs (1 :: (primary ++ auxiliary)) n Constraint.a).eval tau
                * (sidePolynomial cs (1 :: (primary ++ auxiliary)) n Constraint.b).eval tau
              - (sidePolynomial cs (1 :: (primary ++ auxiliary)) n Constraint.c).eval tau
            = (ofCoefficients h).eval tau * (tau ^ n - 1))))
      ∧ {tau | vanishing n tau ≠ 0
          ∧ answer? P Q earlier cs ⟨alpha, beta, gamma, delta, tau⟩ r t primary auxiliary
            = some true}.encard ≤ (2 * n - 2 : ℕ) := by
  subst hn
  set n := domainSize cs.numConstraints with hn
  obtain ⟨h, hh, hlen, hdegree, hdefect⟩ :=
    exists_quotient?_assignment hcs hcount hprimary hauxiliary
  set ws := 1 :: (primary ++ auxiliary) with hws
  have hanswer (tau : Fr) (htau : vanishing n tau ≠ 0) :
      answer? P Q earlier cs ⟨alpha, beta, gamma, delta, tau⟩ r t primary auxiliary
        = some (decide ((defect cs ws n h).eval tau = 0)) := by
    obtain ⟨pk, vk, hkeys, hrun⟩ := exists_run_eq (ρ := Cycle) M hcs hcount hprimary hauxiliary hh
      hlen earlier _ (sample_ofList htau) hgamma hdelta htau
    obtain ⟨proof, accepted, hproof, haccepted, hiff⟩ := hrun (Cycle.ofList [r, t])
    have hdecide : accepted = decide ((defect cs ws n h).eval tau = 0) := by
      rw [Pairing.Model.root_pow_eq_one_iff hroot] at hiff
      exact Bool.eq_iff_iff.mpr (hiff.trans decide_eq_true_iff.symm)
    rw [answer?, hkeys]
    change (((prove pk primary auxiliary).run.run (Cycle.ofList [r, t])).1.toOption >>= _) = _
    rw [hproof]
    change (verify vk primary proof).toOption = _
    rw [haccepted, hdecide]
    rfl
  refine ⟨h, hh, fun tau htau => ?_, ?_⟩
  · rw [hanswer tau htau]
    refine congrArg some (decide_eq_decide.mpr ?_)
    rw [eval_defect, sub_eq_zero, vanishing]
  · have hset : {tau | vanishing n tau ≠ 0
          ∧ answer? P Q earlier cs ⟨alpha, beta, gamma, delta, tau⟩ r t primary auxiliary
            = some true}
        = {tau | vanishing n tau ≠ 0 ∧ (defect cs ws n h).eval tau = 0} := by
      ext tau
      refine and_congr_right fun htau => ?_
      rw [hanswer tau htau, Option.some_inj, decide_eq_true_iff]
    rw [hset]
    exact encard_setOf_root_le (fun hzero => hviolated (hdefect.mp hzero)) hdegree _

theorem answer?_square : ∃ h,
    quotient? squareSystem (1 :: ([8] ++ [3])).toArray 2 = .ok h
      ∧ (∀ tau, vanishing 2 tau ≠ 0 →
        answer? ExponentPoint ExponentPoint [] squareSystem ⟨2, 3, 5, 7, tau⟩ 13 17 [8] [3]
          = some (decide ((sidePolynomial squareSystem (1 :: ([8] ++ [3])) 2 Constraint.a).eval tau
                * (sidePolynomial squareSystem (1 :: ([8] ++ [3])) 2 Constraint.b).eval tau
              - (sidePolynomial squareSystem (1 :: ([8] ++ [3])) 2 Constraint.c).eval tau
            = (ofCoefficients h).eval tau * (tau ^ 2 - 1))))
      ∧ {tau | vanishing 2 tau ≠ 0
          ∧ answer? ExponentPoint ExponentPoint [] squareSystem ⟨2, 3, 5, 7, tau⟩ 13 17 [8] [3]
            = some true}.encard ≤ (2 * 2 - 2 : ℕ) :=
  answer?_of_not_satisfied ExponentPoint.pairingModel ExponentPoint.root_pairingModel_ne_one
    (by decide) (by decide) rfl rfl (by decide) [] (by decide) (by decide) 13 17 (by decide)

end MerkleSnark.Groth16
