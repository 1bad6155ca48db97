import Mathlib
import MerkleSnark.Proofs.Codec.RoundTrip

/-!
# Proofs hide the wire values

The first two points of a proof are shifted by multiples of one secret, and the third is fixed by
them and the public inputs once the wire values satisfy the system.  Two satisfying assignments with
the same public inputs can therefore not be told apart: a shift of the blinding turns the proofs of
one into those of the other.  This takes the laws of the two groups only, so no pairing is involved.

## Main definitions

* `Pairing.degenerate`, `Pairing.Model.ofGroups` — two groups with the pairing that is always one.
* `PointGroup.Model.Same` — two points for one element.
* `blinding` — the two scalars that a proof draws.
* `shift` — the change of blinding.

## Main results

* `exists_same_exponents`, `exists_same_points` — after the shift, both proofs have the same exponents
  and so the same points.
* `exists_bijective_blinding` — **the blinding hides which satisfying values were used**.
-/

namespace MerkleSnark

open PointGroup

/-- Two points represent the same element. -/
def PointGroup.Model.Same {P A : Type} [PointGroup P] [AddCommGroup A] (L : PointGroup.Model P A)
    (p q : P) : Prop := ∃ a, L.Denotes p a ∧ L.Denotes q a

/-! ### Groups without a pairing -/

/-- The pairing that is always one. -/
@[reducible] def Pairing.degenerate (P Q : Type) : Pairing P Q Unit where
  miller _ _ := .ok ()
  one := ()
  mul _ _ := ()
  isUnit _ := true

/-- Two groups whose generators have the order of the scalars, with the pairing that is always
one. -/
def Pairing.Model.ofGroups {P Q A B : Type} [PointGroup P] [PointGroup Q] [AddCommGroup A]
    [AddCommGroup B] (L : PointGroup.Model P A) (L' : PointGroup.Model Q B)
    (horder : addOrderOf L.base = scalarOrder) (horder' : addOrderOf L'.base = scalarOrder) :
    letI := Pairing.degenerate P Q
    Pairing.Model P Q Unit A B Unit :=
  letI := Pairing.degenerate P Q
  { first := L
    second := L'
    addOrderOf_first := horder
    addOrderOf_second := horder'
    Valid := fun _ => True
    value := id
    one := ⟨trivial, rfl⟩
    mul := fun _ _ => ⟨trivial, rfl⟩
    isUnit_iff := fun _ => iff_of_true rfl rfl
    pair := fun _ _ => ()
    pair_add_left := fun _ _ _ => rfl
    pair_add_right := fun _ _ _ => rfl
    miller := fun _ _ => ⟨(), rfl, trivial, rfl⟩ }

namespace Groth16

open MerkleSnark.Polynomial

/-! ### The shift -/

/-- The two scalars that a proof draws. -/
def blinding {ρ : Type} [ScalarSource ρ] (source : ρ) : Fr × Fr :=
  ((ScalarSource.next source).1, (ScalarSource.next (ScalarSource.next source).2).1)

/-- The blinding for wire values `ws'` that makes up for the difference to `ws`. -/
noncomputable def shift (s : Secrets) (polys : Sides (List Fr)) (ws ws' : List Fr) :
    Fr × Fr ≃ Fr × Fr :=
  Equiv.addRight ((dot polys.a ws - dot polys.a ws') / s.delta,
    (dot polys.b ws - dot polys.b ws') / s.delta)

section Exponents

variable {P Q T : Type} [PointGroup P] [PointGroup Q] [Pairing P Q T]
variable {A B U : Type} [AddCommGroup A] [AddCommGroup B] [CommGroup U]
variable {M : Pairing.Model P Q T A B U} {cs : ConstraintSystem} {pk : ProvingKey P Q} {s : Secrets}
  {polys : Sides (List Fr)} {primary auxiliary auxiliary' : List Fr}
variable {ρ ρ' : Type} [ScalarSource ρ] [ScalarSource ρ']

/-- **After the shift, both proofs have the same exponents.** -/
theorem exists_same_exponents (hpk : pk.IsFor M cs s polys)
    (hpolys : IsWirePolynomials cs (domainSize cs.numConstraints) s.tau polys)
    (hgamma : s.gamma ≠ 0) (hdelta : s.delta ≠ 0) (hcs : cs.WellFormed)
    (hcount : cs.numConstraints ≤ 2 ^ 28) (hprimary : primary.length = cs.primarySize)
    (hauxiliary : auxiliary.length = cs.auxiliarySize)
    (hauxiliary' : auxiliary'.length = cs.auxiliarySize)
    (hsatisfied : cs.Satisfied (wireValues (1 :: (primary ++ auxiliary))))
    (hsatisfied' : cs.Satisfied (wireValues (1 :: (primary ++ auxiliary')))) (b : ρ) (b' : ρ')
    (hblinding : blinding b'
      = shift s polys (1 :: (primary ++ auxiliary)) (1 :: (primary ++ auxiliary')) (blinding b)) :
    ∃ proof proof' x y z, ((prove pk primary auxiliary).run.run b).1 = .ok proof
      ∧ ((prove pk primary auxiliary').run.run b').1 = .ok proof'
      ∧ proof.Exponents M x y z ∧ proof'.Exponents M x y z := by
  obtain ⟨proof, x, y, z, hproof, hexponents, hx, hy, hz⟩ := exists_run_prove_of_satisfied hpk hpolys
    hgamma hdelta hprimary hauxiliary hcs hcount hsatisfied b
  obtain ⟨proof', x', y', z', hproof', hexponents', hx', hy', hz'⟩ := exists_run_prove_of_satisfied
    hpk hpolys hgamma hdelta hprimary hauxiliary' hcs hcount hsatisfied' b'
  have hfirst := congrArg Prod.fst hblinding
  have hsecond := congrArg Prod.snd hblinding
  simp only [blinding, shift, Equiv.coe_addRight, Prod.fst_add, Prod.snd_add] at hfirst hsecond
  have hsamex : x' = x := by
    rw [hx, hx', hfirst, add_mul, div_mul_cancel₀ _ hdelta]
    ring
  have hsamey : y' = y := by
    rw [hy, hy', hsecond, add_mul, div_mul_cancel₀ _ hdelta]
    ring
  -- the third exponent is what is left of one equation
  have hsamez : z' = z := by
    refine mul_left_cancel₀ hdelta ?_
    rw [hsamex, hsamey] at hz'
    linear_combination hz - hz'
  subst hsamex hsamey hsamez
  exact ⟨proof, proof', x', y', z', hproof, hproof', hexponents, hexponents'⟩

end Exponents

/-! ### The same points -/

section Groups

variable {P Q A B : Type} [PointGroup P] [PointGroup Q] [AddCommGroup A] [AddCommGroup B]
  {L : PointGroup.Model P A} {L' : PointGroup.Model Q B}

/-- Keys of a system for the same secrets, of which the divisors are not zero, hide in two groups
which of two satisfying assignments was used. -/
theorem exists_same_points (horder : addOrderOf L.base = scalarOrder)
    (horder' : addOrderOf L'.base = scalarOrder) {cs : ConstraintSystem} (hcs : cs.WellFormed)
    (hcount : cs.numConstraints ≤ 2 ^ 28) {s : Secrets}
    (htau : vanishing (domainSize cs.numConstraints) s.tau ≠ 0) (hgamma : s.gamma ≠ 0)
    (hdelta : s.delta ≠ 0) {primary auxiliary auxiliary' : List Fr}
    (hprimary : primary.length = cs.primarySize) (hauxiliary : auxiliary.length = cs.auxiliarySize)
    (hauxiliary' : auxiliary'.length = cs.auxiliarySize)
    (hsatisfied : cs.Satisfied (wireValues (1 :: (primary ++ auxiliary))))
    (hsatisfied' : cs.Satisfied (wireValues (1 :: (primary ++ auxiliary')))) {window : ℕ}
    (hwindow : 1 ≤ window) :
    ∃ pk vk, ∃ φ : Fr × Fr ≃ Fr × Fr, keysOf? (Tables.ofWindow P Q window) cs s = .ok (pk, vk)
      ∧ ∀ (ρ ρ' : Type) [ScalarSource ρ] [ScalarSource ρ'] (b : ρ) (b' : ρ'),
        blinding b' = φ (blinding b) →
        ∃ proof proof', ((prove pk primary auxiliary).run.run b).1 = .ok proof
          ∧ ((prove pk primary auxiliary').run.run b').1 = .ok proof'
          ∧ L.Same proof.a proof'.a ∧ L'.Same proof.b proof'.b ∧ L.Same proof.c proof'.c := by
  -- the points of a proof do not depend on a pairing, so any one will do
  let := Pairing.degenerate P Q
  let M := Pairing.Model.ofGroups L L' horder horder'
  obtain ⟨polys, pk, vk, hkeys, hpolys, hpk, -⟩ :=
    exists_keysOf?_eq M hcs hcount htau (multiply_ofWindow M hwindow)
  refine ⟨pk, vk, shift s polys (1 :: (primary ++ auxiliary)) (1 :: (primary ++ auxiliary')), hkeys,
    fun ρ ρ' _ _ b b' hblinding => ?_⟩
  obtain ⟨proof, proof', x, y, z, hproof, hproof', h, h'⟩ := exists_same_exponents hpk hpolys hgamma
    hdelta hcs hcount hprimary hauxiliary hauxiliary' hsatisfied hsatisfied' b b' hblinding
  exact ⟨proof, proof', hproof, hproof', ⟨_, h.a, h'.a⟩, ⟨_, h.b, h'.b⟩, _, h.c, h'.c⟩

end Groups

theorem normal_eq_of_same₁ {p q : G1} (h : G1.model.Same p q) : p.normal = q.normal := by
  obtain ⟨a, ⟨hp, hpa⟩, hq, hqa⟩ := h
  exact Point.normal_eq_of_element_eq G1.Δ_ne_zero hp hq (hpa.trans hqa.symm)

theorem normal_eq_of_same₂ {p q : G2} (h : G2.model.Same p q) : p.normal = q.normal := by
  obtain ⟨a, ⟨hp, hpa⟩, hq, hqa⟩ := h
  exact Point.normal_eq_of_element_eq G2.Δ_ne_zero hp hq (hpa.trans hqa.symm)

/-- **The blinding hides which satisfying values were used.**  For the keys that are made from any
scalars and two satisfying assignments with the same public inputs there is a bijection of the
blindings: a proof from the first assignment, and one from the second with the corresponding
blinding, consist of the same points and are written as the same bytes. -/
theorem exists_bijective_blinding {σ : Type} [ScalarSource σ] {cs : ConstraintSystem}
    (hcs : cs.WellFormed) (hcount : cs.numConstraints ≤ 2 ^ 28)
    {primary auxiliary auxiliary' : List Fr} (hprimary : primary.length = cs.primarySize)
    (hauxiliary : auxiliary.length = cs.auxiliarySize)
    (hauxiliary' : auxiliary'.length = cs.auxiliarySize)
    (hsatisfied : cs.Satisfied (wireValues (1 :: (primary ++ auxiliary))))
    (hsatisfied' : cs.Satisfied (wireValues (1 :: (primary ++ auxiliary'))))
    (earlier : List ConstraintSystem) (source : σ) {s : Secrets}
    (hs : ((Secrets.sample (domainSize cs.numConstraints)).run source).1 = s)
    (hgamma : s.gamma ≠ 0) (hdelta : s.delta ≠ 0)
    (htau : vanishing (domainSize cs.numConstraints) s.tau ≠ 0) :
    ∃ pk vk, (generate cs (source, TableCache.after G1 G2 earlier)).1 = .ok (pk, vk)
      ∧ ∃ φ : Fr × Fr → Fr × Fr, φ.Bijective
        ∧ ∀ (ρ ρ' : Type) [ScalarSource ρ] [ScalarSource ρ'] (b : ρ) (b' : ρ'),
          blinding b' = φ (blinding b) →
          ∃ proof proof' bytes, ((prove pk primary auxiliary).run.run b).1 = .ok proof
            ∧ ((prove pk primary auxiliary').run.run b').1 = .ok proof'
            ∧ proof.Same proof' ∧ proof.encode = .ok bytes ∧ proof'.encode = .ok bytes := by
  obtain ⟨pk, vk, φ, hkeys, hφ⟩ := exists_same_points G1.addOrderOf_base G2.addOrderOf_base hcs hcount
    htau hgamma hdelta hprimary hauxiliary hauxiliary' hsatisfied hsatisfied' (one_le_tableWindow cs)
  refine ⟨pk, vk, ?_, φ, φ.bijective, fun ρ ρ' _ _ b b' hblinding => ?_⟩
  · rw [generate_after, hs]
    exact hkeys
  · obtain ⟨proof, proof', hproof, hproof', ha, hb, hc⟩ := hφ ρ ρ' b b' hblinding
    have hsamea := normal_eq_of_same₁ ha
    have hsameb := normal_eq_of_same₂ hb
    have hsamec := normal_eq_of_same₁ hc
    have hnormal : proof.normal = proof'.normal := by
      rw [Proof.normal, Proof.normal, hsamea, hsameb, hsamec]
    refine ⟨proof, proof', _, hproof, hproof', ⟨Point.sameAffine_of_normal_eq hsamea,
      Point.sameAffine_of_normal_eq hsameb, Point.sameAffine_of_normal_eq hsamec⟩,
      proof.encode_eq, ?_⟩
    rw [← Proof.encode_normal, ← hnormal, Proof.encode_normal, proof.encode_eq]

/-- A number and its negative have the same square, so proofs do not tell which one was used. -/
theorem exists_bijective_blinding_square :
    squareSystem.Satisfied (wireValues (1 :: ([9] ++ [3])))
      ∧ squareSystem.Satisfied (wireValues (1 :: ([9] ++ [-3])))
      ∧ ∃ pk vk, (generate squareSystem (Cycle.ofList [2, 3, 5, 7, 11],
          TableCache.after G1 G2 [])).1 = .ok (pk, vk)
        ∧ ∃ φ : Fr × Fr → Fr × Fr, φ.Bijective
          ∧ ∀ (ρ ρ' : Type) [ScalarSource ρ] [ScalarSource ρ'] (b : ρ) (b' : ρ'),
            blinding b' = φ (blinding b) →
            ∃ proof proof' bytes, ((prove pk [9] [3]).run.run b).1 = .ok proof
              ∧ ((prove pk [9] [-3]).run.run b').1 = .ok proof'
              ∧ proof.Same proof' ∧ proof.encode = .ok bytes ∧ proof'.encode = .ok bytes :=
  have hthree : squareSystem.Satisfied (wireValues (1 :: ([9] ++ [3]))) := by decide
  have hnegative : squareSystem.Satisfied (wireValues (1 :: ([9] ++ [-3]))) := by decide
  ⟨hthree, hnegative, exists_bijective_blinding (by decide) (by decide) rfl rfl rfl hthree hnegative
    [] _ (sample_ofList vanishing_squareSystem) (by decide) (by decide) vanishing_squareSystem⟩

end Groth16

end MerkleSnark
