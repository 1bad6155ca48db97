import Mathlib
import MerkleSnark.Proofs.Groth16.Completeness
import MerkleSnark.Proofs.Groth16.Validity

/-!
# Proofs are bound to their public inputs

For one proof the public inputs count in the equation of a verifier through a single pairing, so two
inputs with which it is accepted have commitments that agree.  When every public wire occurs in one
constraint of its own, the commitments differ by an interpolant of the difference of the inputs, and
this polynomial has few roots.

## Main definitions

* `Pinned` — every public wire occurs in one constraint of its own.
* `keysFor` — the keys for given secrets.
* `Ambiguous` — keys accept one proof for two public inputs.

## Main results

* `exists_verify_iff` — how public inputs count for a given proof.
* `gamma_mul_dot_of_pinned` — how the commitments of a pinned system differ.
* `encard_ambiguous_le` — keys of a pinned system are ambiguous at few evaluation points.
-/

open Polynomial

namespace MerkleSnark.Groth16

open MerkleSnark.Polynomial PointGroup

variable {P Q T : Type} [PointGroup P] [PointGroup Q] [Pairing P Q T]
variable {A B U : Type} [AddCommGroup A] [AddCommGroup B] [CommGroup U]
variable {M : Pairing.Model P Q T A B U}

/-! ### One proof, many inputs -/

theorem mul_mul_inv_mul_eq_one_iff {x y z t : U} : x * (y * (z⁻¹ * t)) = 1 ↔ z = x * y * t := by
  rw [mul_left_comm y, mul_left_comm x, inv_mul_eq_one, ← mul_assoc]

/-- **How public inputs count for a given proof**: through a power of the root, which has to be one
that the proof fixes. -/
theorem exists_verify_iff {vk : VerificationKey P Q} {cs : ConstraintSystem} {s : Secrets}
    {polys : Sides (List Fr)} (hvk : vk.IsFor M cs s polys)
    (hpublic : cs.primarySize + 1 ≤ (combinedValues s s.gamma polys).length) {proof : Proof P Q}
    (hproof : proof.Valid M.first M.second) :
    ∃ u : U, ∀ inputs : List Fr, inputs.length = cs.primarySize →
      ∃ accepted, verify vk inputs proof = .ok accepted
        ∧ (accepted = true ↔ M.root ^ (s.gamma * dot ((combinedValues s s.gamma polys).take
            (cs.primarySize + 1)) (1 :: inputs)).val = u) := by
  set b := M.second.value proof.b
  set a := M.first.value proof.a
  set c := M.first.value proof.c
  refine ⟨M.pair b a * M.root ^ (s.beta * -s.alpha).val
    * M.pair (s.delta.val • M.second.base) (-c), fun inputs hinputs => ?_⟩
  obtain ⟨committed, hcommitted, hexponent⟩ := exists_commitment?_eq hvk hpublic hinputs
  set e := dot ((combinedValues s s.gamma polys).take (cs.primarySize + 1)) (1 :: inputs)
  have hpairs : List.Forall₂
      (fun (pair : Q × P) (e : B × A) => M.second.Denotes pair.1 e.1 ∧ M.first.Denotes pair.2 e.2)
      [(proof.b, proof.a), (vk.beta, neg vk.alpha), (vk.gamma, neg committed),
        (vk.delta, neg proof.c)]
      [(b, a), (s.beta.val • M.second.base, (-s.alpha).val • M.first.base),
        (s.gamma.val • M.second.base, (-e).val • M.first.base),
        (s.delta.val • M.second.base, -c)] :=
    .cons ⟨.of_valid hproof.b, .of_valid hproof.a⟩
      (.cons ⟨hvk.beta, hvk.alpha.neg M.addOrderOf_first⟩
        (.cons ⟨hvk.gamma, hexponent.neg M.addOrderOf_first⟩
          (.cons ⟨hvk.delta, (Model.Denotes.of_valid hproof.c).neg⟩ .nil)))
  obtain ⟨accepted, hok, hiff⟩ := M.exists_pairingProductIsOne_eq_of_denotes hpairs
  refine ⟨accepted, ?_, ?_⟩
  · rw [verify, hcommitted]
    change (pairingProductIsOne _).mapError _ = _
    rw [hok]
    rfl
  · rw [hiff]
    simp only [List.map_cons, List.map_nil, List.prod_cons, List.prod_nil, mul_one,
      M.pair_exponents, mul_neg, M.root_pow_val_neg]
    exact mul_mul_inv_mul_eq_one_iff

/-- A proof is accepted for two public inputs only when their commitments agree. -/
theorem gamma_mul_dot_eq_of_verify (hroot : M.root ≠ 1) {vk : VerificationKey P Q}
    {cs : ConstraintSystem} {s : Secrets} {polys : Sides (List Fr)} (hvk : vk.IsFor M cs s polys)
    (hpublic : cs.primarySize + 1 ≤ (combinedValues s s.gamma polys).length) {proof : Proof P Q}
    (hproof : proof.Valid M.first M.second) {x x' : List Fr} (hx : x.length = cs.primarySize)
    (hx' : x'.length = cs.primarySize) (haccepted : verify vk x proof = .ok true)
    (haccepted' : verify vk x' proof = .ok true) :
    s.gamma * dot ((combinedValues s s.gamma polys).take (cs.primarySize + 1)) (1 :: x)
      = s.gamma * dot ((combinedValues s s.gamma polys).take (cs.primarySize + 1)) (1 :: x') := by
  obtain ⟨u, hu⟩ := exists_verify_iff hvk hpublic hproof
  have hpower {inputs : List Fr} (hlen : inputs.length = cs.primarySize)
      (hok : verify vk inputs proof = .ok true) :
      M.root ^ (s.gamma * dot ((combinedValues s s.gamma polys).take (cs.primarySize + 1))
        (1 :: inputs)).val = u := by
    obtain ⟨accepted, haccepted, hiff⟩ := hu inputs hlen
    rw [hok] at haccepted
    exact hiff.mp (Except.ok.inj haccepted).symm
  rw [← sub_eq_zero, ← Pairing.Model.root_pow_eq_one_iff hroot, sub_eq_add_neg, M.root_pow_val_add,
    M.root_pow_val_neg, hpower hx haccepted, hpower hx' haccepted', mul_inv_cancel]

/-! ### Pinned systems -/

/-- Every public wire occurs in one constraint of its own, as a summand of the left side: this is
what the sides of the constraints are when all other wires carry zero. -/
structure Pinned (cs : ConstraintSystem) : Prop where
  primarySize_le : cs.primarySize ≤ cs.numConstraints
  side_a : ∀ d : List Fr, d.length = cs.primarySize →
    sideValue cs (0 :: d) Constraint.a = fun j => d.getD j 0
  side_b : ∀ d : List Fr, d.length = cs.primarySize → sideValue cs (0 :: d) Constraint.b = fun _ => 0
  side_c : ∀ d : List Fr, d.length = cs.primarySize → sideValue cs (0 :: d) Constraint.c = fun _ => 0

theorem dot_sub_dot (ps : List Fr) {xs ys : List Fr} (hlen : xs.length = ys.length) :
    dot ps xs - dot ps ys = dot ps (List.zipWith (· - ·) xs ys) := by
  induction ps generalizing xs ys with
  | nil => simp
  | cons p ps ih =>
    match xs, ys, hlen with
    | [], [], _ => simp
    | x :: xs, y :: ys, hlen =>
      rw [List.zipWith_cons_cons, dot_cons, dot_cons, dot_cons, ← ih (Nat.succ.inj hlen)]
      ring

theorem eval_interpolant_zero (omega : Fr) (n : ℕ) (x : Fr) :
    (interpolant omega n fun _ => 0).eval x = 0 := by
  rw [← sum_mul_eval_basis]
  simp

variable {cs : ConstraintSystem} {n : ℕ}

/-- **How the commitments of a pinned system differ**: by the interpolant of the difference of the
inputs, at the evaluation point. -/
theorem gamma_mul_dot_of_pinned (hcs : Pinned cs) {s : Secrets} (hgamma : s.gamma ≠ 0)
    {polys : Sides (List Fr)} (hpolys : IsWirePolynomials cs n s.tau polys) {d : List Fr}
    (hd : d.length = cs.primarySize) :
    s.gamma * dot ((combinedValues s s.gamma polys).take (cs.primarySize + 1)) (0 :: d)
      = s.beta * (interpolant (Fr.root n) n fun j => d.getD j 0).eval s.tau := by
  have htake : dot ((combinedValues s s.gamma polys).take (cs.primarySize + 1)) (0 :: d)
      = dot (combinedValues s s.gamma polys) (0 :: d) := by
    have hlen : (0 :: d).length = cs.primarySize + 1 := by rw [List.length_cons, hd]
    rw [← dot_take_add_dot_drop (cs.primarySize + 1) (combinedValues s s.gamma polys) (0 :: d),
      List.take_of_length_le hlen.le, List.drop_of_length_le hlen.le, dot_nil_right, add_zero]
  rw [htake, combinedValues_eq_map, mul_dot_map_mul_inv hgamma,
    dot_undividedValues s (hpolys.length_b.trans hpolys.length_a.symm)
      (hpolys.length_c.trans hpolys.length_a.symm),
    hpolys.dot_a, hpolys.dot_b, hpolys.dot_c, sidePolynomial, sidePolynomial, sidePolynomial,
    hcs.side_a d hd, hcs.side_b d hd, hcs.side_c d hd, eval_interpolant_zero, mul_zero, add_zero,
    add_zero]

/-- An interpolant with a value other than zero has at most `n - 1` roots. -/
theorem encard_roots_interpolant_le {k : ℕ} (hk : k ≤ 28) {v : ℕ → Fr} {j : ℕ} (hj : j < 2 ^ k)
    (hv : v j ≠ 0) (p : Fr → Prop) :
    {tau | p tau ∧ (interpolant (Fr.root (2 ^ k)) (2 ^ k) v).eval tau = 0}.encard
      ≤ (2 ^ k - 1 : ℕ) := by
  have homega := Fr.isPrimitiveRoot_root hk
  have hne : interpolant (Fr.root (2 ^ k)) (2 ^ k) v ≠ 0 := by
    intro hzero
    have heval := eval_interpolant homega v hj
    rw [hzero, eval_zero] at heval
    exact hv heval.symm
  refine encard_setOf_root_le hne ?_ p
  have hlt := (natDegree_lt_iff_degree_lt hne).mpr (degree_interpolant_lt homega v)
  omega

/-! ### Ambiguous keys -/

/-- Keys are made only for systems that have a domain. -/
theorem numConstraints_le_of_keysOf? {tables : Tables P Q} {s : Secrets} {pk : ProvingKey P Q}
    {vk : VerificationKey P Q} (h : keysOf? tables cs s = .ok (pk, vk)) :
    cs.numConstraints ≤ 2 ^ 28 := by
  obtain ⟨basis, polys, hbasis, -⟩ := exists_of_keysOf?_eq h
  obtain ⟨k, hsize, -, hle, -⟩ := exists_domainSize_eq cs.numConstraints
  exact (hle.trans_eq hsize.symm).trans (le_of_lagrangeBasis? hbasis)

/-- The keys that are made for the given secrets. -/
def keysFor (P Q : Type) [PointGroup P] [PointGroup Q] (earlier : List ConstraintSystem)
    (cs : ConstraintSystem) (s : Secrets) :
    Except ProgramError (ProvingKey P Q × VerificationKey P Q) :=
  (generate cs (Cycle.ofList [s.alpha, s.beta, s.gamma, s.delta, s.tau],
    TableCache.after P Q earlier)).1

theorem keysFor_eq (earlier : List ConstraintSystem) {s : Secrets}
    (htau : vanishing (domainSize cs.numConstraints) s.tau ≠ 0) :
    keysFor P Q earlier cs s = keysOf? (Tables.ofWindow P Q (tableWindow cs)) cs s := by
  rw [keysFor, generate_after, sample_ofList htau]

/-- The keys that are made for the given secrets accept one proof, of valid points, for two public
inputs. -/
def Ambiguous (M : Pairing.Model P Q T A B U) (earlier : List ConstraintSystem)
    (cs : ConstraintSystem) (s : Secrets) (x x' : List Fr) : Prop :=
  ∃ pk vk, keysFor P Q earlier cs s = .ok (pk, vk)
    ∧ ∃ proof, proof.Valid M.first M.second ∧ verify vk x proof = .ok true
      ∧ verify vk x' proof = .ok true

/-- Off the domain there are keys. -/
theorem exists_keysFor_eq (M : Pairing.Model P Q T A B U) (hwell : cs.WellFormed)
    (hcount : cs.numConstraints ≤ 2 ^ 28) (earlier : List ConstraintSystem) {s : Secrets}
    (htau : vanishing (domainSize cs.numConstraints) s.tau ≠ 0) :
    ∃ pk vk, keysFor P Q earlier cs s = .ok (pk, vk) := by
  obtain ⟨-, pk, vk, hkeys, -⟩ :=
    exists_keysOf?_eq M hwell hcount htau (multiply_ofWindow M (one_le_tableWindow cs))
  exact ⟨pk, vk, (keysFor_eq earlier htau).trans hkeys⟩

/-- The evaluation point of ambiguous keys is a root of the interpolant of the difference of the
inputs. -/
theorem Ambiguous.eval_interpolant_eq_zero (hroot : M.root ≠ 1) (hwell : cs.WellFormed)
    (hcount : cs.numConstraints ≤ 2 ^ 28) (hcs : Pinned cs) {earlier : List ConstraintSystem}
    {s : Secrets} (hbeta : s.beta ≠ 0) (hgamma : s.gamma ≠ 0)
    (htau : vanishing (domainSize cs.numConstraints) s.tau ≠ 0) {x x' : List Fr}
    (hx : x.length = cs.primarySize) (hx' : x'.length = cs.primarySize)
    (h : Ambiguous M earlier cs s x x') :
    (interpolant (Fr.root (domainSize cs.numConstraints)) (domainSize cs.numConstraints) fun j =>
      (List.zipWith (· - ·) x x').getD j 0).eval s.tau = 0 := by
  obtain ⟨pk, vk, hkeys, proof, hproof, haccepted, haccepted'⟩ := h
  obtain ⟨polys, pk', vk', hkeys', hpolys, -, hvk⟩ :=
    exists_keysOf?_eq M hwell hcount htau (multiply_ofWindow M (one_le_tableWindow cs))
  rw [keysFor_eq earlier htau, hkeys'] at hkeys
  obtain ⟨-, rfl⟩ := Prod.mk.inj (Except.ok.inj hkeys)
  have hagree := gamma_mul_dot_eq_of_verify hroot hvk hpolys.primarySize_lt hproof hx hx' haccepted
    haccepted'
  have hdlen : (List.zipWith (· - ·) x x').length = cs.primarySize := by
    rw [List.length_zipWith, hx, hx', min_self]
  have hdiff := dot_sub_dot ((combinedValues s s.gamma polys).take (cs.primarySize + 1))
    (show (1 :: x).length = (1 :: x').length by rw [List.length_cons, List.length_cons, hx, hx'])
  rw [List.zipWith_cons_cons, sub_self] at hdiff
  rw [← sub_eq_zero, ← mul_sub, hdiff, gamma_mul_dot_of_pinned hcs hgamma hpolys hdlen] at hagree
  exact (mul_eq_zero.mp hagree).resolve_left hbeta

/-- Different lists of one length differ in an entry. -/
theorem exists_getD_sub_ne_zero {x x' : List Fr} {size : ℕ} (hx : x.length = size)
    (hx' : x'.length = size) (hne : x ≠ x') :
    ∃ j < size, (List.zipWith (· - ·) x x').getD j 0 ≠ 0 := by
  by_contra! hall
  refine hne (List.ext_getElem (hx.trans hx'.symm) fun j hj hj' => ?_)
  have hzero := hall j (hx ▸ hj)
  have hlt : j < (List.zipWith (· - ·) x x').length := by
    rw [List.length_zipWith]
    exact lt_min hj hj'
  rw [List.getD_eq_getElem _ _ hlt, List.getElem_zipWith] at hzero
  exact sub_eq_zero.mp hzero

/-- **Keys of a pinned system are ambiguous at few evaluation points**: for two different public
inputs and all other scalars fixed, at most `n - 1` of them. -/
theorem encard_ambiguous_le (hroot : M.root ≠ 1) (hwell : cs.WellFormed) (hcs : Pinned cs)
    (earlier : List ConstraintSystem) {x x' : List Fr} (hx : x.length = cs.primarySize)
    (hx' : x'.length = cs.primarySize)
    (hne : x ≠ x') (alpha : Fr) {beta gamma : Fr} (hbeta : beta ≠ 0) (hgamma : gamma ≠ 0)
    (delta : Fr) :
    {tau | vanishing (domainSize cs.numConstraints) tau ≠ 0
        ∧ Ambiguous M earlier cs ⟨alpha, beta, gamma, delta, tau⟩ x x'}.encard
      ≤ (domainSize cs.numConstraints - 1 : ℕ) := by
  obtain ⟨k, hsize, -, hle, hk⟩ := exists_domainSize_eq cs.numConstraints
  set d := List.zipWith (· - ·) x x' with hd
  obtain ⟨j, hj, hdj⟩ := exists_getD_sub_ne_zero hx hx' hne
  have hlt : j < 2 ^ k := (hj.trans_le hcs.primarySize_le).trans_le hle
  by_cases hcount : cs.numConstraints ≤ 2 ^ 28
  swap
  · -- then there are no keys
    rw [Set.encard_eq_zero.mpr]
    · exact bot_le
    · refine Set.eq_empty_of_forall_notMem fun tau h => ?_
      obtain ⟨htau, pk, vk, hkeys, -⟩ := h
      rw [keysFor_eq (s := ⟨alpha, beta, gamma, delta, tau⟩) earlier htau] at hkeys
      exact hcount (numConstraints_le_of_keysOf? hkeys)
  -- an ambiguous point is a root of the polynomial through the differences, which is not zero
  have hbound := encard_roots_interpolant_le (hk hcount) (v := fun j => d.getD j 0) hlt hdj
    (fun tau => vanishing (2 ^ k) tau ≠ 0)
  rw [← hsize] at hbound
  refine (Set.encard_le_encard ?_).trans hbound
  rintro tau ⟨htau, hambiguous⟩
  exact ⟨htau, Ambiguous.eval_interpolant_eq_zero (s := ⟨alpha, beta, gamma, delta, tau⟩) hroot hwell
    hcount hcs hbeta hgamma htau hx hx' hambiguous⟩

end MerkleSnark.Groth16
