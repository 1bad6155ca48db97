import Mathlib
import MerkleSnark.Groth16.Setup
import MerkleSnark.Proofs.Curve.FixedBase
import MerkleSnark.Proofs.Curve.Pairing
import MerkleSnark.Proofs.Groth16.Program

/-!
# Keys and the exponents that they hide

Every point of a key is the multiple of a generator by an expression in the secrets.  Which tables
were made before makes no difference to them.

## Main definitions

* `TableCache.after` — the cache after the keys of a list of systems were made.
* `ProvingKey.IsFor`, `VerificationKey.IsFor` — the exponents of the points of a key.

## Main results

* `TableCache.fetch_after` — a cache gives the same tables as none.
* `exists_keysOf?_eq` — key generation gives keys with these exponents.
-/

namespace MerkleSnark.Groth16

open MerkleSnark.Polynomial PointGroup

variable {P Q T : Type} [PointGroup P] [PointGroup Q] [Pairing P Q T]
variable {A B U : Type} [AddCommGroup A] [AddCommGroup B] [CommGroup U]

theorem mapError_ok {ε ε' α : Type} (f : ε → ε') (a : α) :
    Except.mapError f (.ok a) = pure a := rfl

/-! ### Tables -/

namespace TableCache

/-- Every entry holds the tables of its width. -/
def Sound (cache : TableCache P Q) : Prop := ∀ e ∈ cache, e.2 = Tables.ofWindow P Q e.1

omit [Pairing P Q T] in
theorem Sound.fetch {cache : TableCache P Q} (h : Sound cache) (window : ℕ) :
    (cache.fetch window).1 = Tables.ofWindow P Q window ∧ Sound (cache.fetch window).2 := by
  rw [TableCache.fetch]
  split
  · next tables hlookup =>
    obtain ⟨front, back, heq, -⟩ := List.lookup_eq_some_iff.mp hlookup
    exact ⟨h (window, tables) (by rw [heq]; exact List.mem_append_right _ List.mem_cons_self), h⟩
  · refine ⟨rfl, fun e he => ?_⟩
    rcases List.mem_cons.mp he with rfl | he
    · rfl
    · exact h e he

/-- The cache after the keys of a list of systems were made, one after another. -/
def after (P Q : Type) [PointGroup P] [PointGroup Q] (systems : List ConstraintSystem) :
    TableCache P Q :=
  systems.foldl (fun cache cs => (cache.fetch (tableWindow cs)).2) []

theorem after_append (systems : List ConstraintSystem) (cs : ConstraintSystem) :
    after P Q (systems ++ [cs]) = ((after P Q systems).fetch (tableWindow cs)).2 := by
  rw [after, List.foldl_append]
  rfl

theorem sound_after (systems : List ConstraintSystem) : Sound (after P Q systems) := by
  have hfold : ∀ cache : TableCache P Q, Sound cache →
      Sound (systems.foldl (fun cache cs => (cache.fetch (tableWindow cs)).2) cache) := by
    induction systems with
    | nil => exact fun cache h => h
    | cons cs systems ih => exact fun cache h => ih _ (h.fetch (tableWindow cs)).2
  exact hfold [] fun e he => absurd he List.not_mem_nil

/-- **A cache gives the same tables as none.** -/
theorem fetch_after (systems : List ConstraintSystem) (window : ℕ) :
    ((after P Q systems).fetch window).1 = Tables.ofWindow P Q window :=
  ((sound_after systems).fetch window).1

end TableCache

/-- Making keys draws the secrets, and leaves the cache with the tables of the system. -/
theorem generate_after {σ : Type} [ScalarSource σ] (cs : ConstraintSystem) (source : σ)
    (systems : List ConstraintSystem) :
    generate cs (source, TableCache.after P Q systems)
      = (keysOf? (Tables.ofWindow P Q (tableWindow cs)) cs
            ((Secrets.sample (domainSize cs.numConstraints)).run source).1,
          ((Secrets.sample (domainSize cs.numConstraints)).run source).2,
          TableCache.after P Q (systems ++ [cs])) := by
  rw [generate, TableCache.fetch_after, TableCache.after_append]

theorem one_le_tableWindow (cs : ConstraintSystem) : 1 ≤ tableWindow cs := by
  rw [tableWindow, fixedBaseWindow]
  split
  · decide
  · split <;> decide

/-- The entries of a table of the generator have the scalars as exponents. -/
theorem exponent_mul {L : PointGroup.Model P A} {w : ℕ} (hw : 1 ≤ w) (k : Fr) :
    L.Exponent ((FixedBaseTable.ofBase PointGroup.generator w).mul k) k :=
  FixedBaseTable.denotes_mul Model.Denotes.generator hw k

theorem forall₂_exponent_map {L : PointGroup.Model P A} {f : Fr → P}
    (hf : ∀ k, L.Exponent (f k) k) (ks : List Fr) : List.Forall₂ L.Exponent (ks.map f) ks := by
  rw [List.forall₂_map_left_iff]
  exact List.forall₂_same.mpr fun k _ => hf k

/-! ### The exponents of a key -/

/-- A proving key holds the points of its system for the secrets. -/
structure ProvingKey.IsFor (M : Pairing.Model P Q T A B U) (pk : ProvingKey P Q)
    (cs : ConstraintSystem) (s : Secrets) (polys : Sides (List Fr)) : Prop where
  system : pk.system = cs
  domainSize : pk.domainSize = Polynomial.domainSize cs.numConstraints
  alpha : M.first.Exponent pk.alpha s.alpha
  beta : M.first.Exponent pk.beta s.beta
  betaTwist : M.second.Exponent pk.betaTwist s.beta
  delta : M.first.Exponent pk.delta s.delta
  deltaTwist : M.second.Exponent pk.deltaTwist s.delta
  aQuery : List.Forall₂ M.first.Exponent pk.aQuery polys.a
  bQuery : List.Forall₂ M.first.Exponent pk.bQuery polys.b
  bTwistQuery : List.Forall₂ M.second.Exponent pk.bTwistQuery polys.b
  hQuery : List.Forall₂ M.first.Exponent pk.hQuery
    (quotientBasis s (Polynomial.domainSize cs.numConstraints))
  lQuery : List.Forall₂ M.first.Exponent pk.lQuery
    ((combinedValues s s.delta polys).drop (cs.primarySize + 1))

/-- A verification key holds the points of its system for the secrets. -/
structure VerificationKey.IsFor (M : Pairing.Model P Q T A B U) (vk : VerificationKey P Q)
    (cs : ConstraintSystem) (s : Secrets) (polys : Sides (List Fr)) : Prop where
  alpha : M.first.Exponent vk.alpha s.alpha
  beta : M.second.Exponent vk.beta s.beta
  gamma : M.second.Exponent vk.gamma s.gamma
  delta : M.second.Exponent vk.delta s.delta
  ic : List.Forall₂ M.first.Exponent vk.ic
    ((combinedValues s s.gamma polys).take (cs.primarySize + 1))

/-- The proving key that is made from the values of the wire polynomials. -/
def provingKeyFrom (tables : Tables P Q) (cs : ConstraintSystem) (s : Secrets)
    (polys : Sides (List Fr)) : ProvingKey P Q where
  system := cs
  domainSize := domainSize cs.numConstraints
  alpha := tables.first.mul s.alpha
  beta := tables.first.mul s.beta
  betaTwist := tables.second.mul s.beta
  delta := tables.first.mul s.delta
  deltaTwist := tables.second.mul s.delta
  aQuery := polys.a.map tables.first.mul
  bQuery := polys.b.map tables.first.mul
  bTwistQuery := polys.b.map tables.second.mul
  hQuery := (quotientBasis s (domainSize cs.numConstraints)).map tables.first.mul
  lQuery := ((combinedValues s s.delta polys).drop (cs.primarySize + 1)).map tables.first.mul

/-- The verification key that is made from the values of the wire polynomials. -/
def verificationKeyFrom (tables : Tables P Q) (cs : ConstraintSystem) (s : Secrets)
    (polys : Sides (List Fr)) : VerificationKey P Q where
  alpha := tables.first.mul s.alpha
  beta := tables.second.mul s.beta
  gamma := tables.second.mul s.gamma
  delta := tables.second.mul s.delta
  ic := ((combinedValues s s.gamma polys).take (cs.primarySize + 1)).map tables.first.mul

/-- Both tables multiply the generator. -/
structure Tables.Multiply (M : Pairing.Model P Q T A B U) (tables : Tables P Q) : Prop where
  first : ∀ k, M.first.Exponent (tables.first.mul k) k
  second : ∀ k, M.second.Exponent (tables.second.mul k) k

theorem multiply_ofWindow (M : Pairing.Model P Q T A B U) {w : ℕ} (hw : 1 ≤ w) :
    (Tables.ofWindow P Q w).Multiply M :=
  ⟨exponent_mul hw, exponent_mul hw⟩

omit [Pairing P Q T] in
theorem keysOf?_eq {cs : ConstraintSystem} {s : Secrets} {basis : List Fr}
    (hbasis : lagrangeBasis? (domainSize cs.numConstraints) s.tau = .ok basis)
    {polys : Sides (List Fr)} (hpolys : wirePolynomials? cs basis = .ok polys)
    (tables : Tables P Q) :
    keysOf? tables cs s
      = .ok (provingKeyFrom tables cs s polys, verificationKeyFrom tables cs s polys) := by
  rw [keysOf?, hbasis, mapError_ok, pure_bind, hpolys]
  rfl

omit [Pairing P Q T] in
/-- The wire polynomials have values off the domain, and keys are made from them. -/
theorem exists_keysOf?_eq_from {cs : ConstraintSystem} (hcs : cs.WellFormed)
    (hcount : cs.numConstraints ≤ 2 ^ 28) {s : Secrets}
    (htau : vanishing (domainSize cs.numConstraints) s.tau ≠ 0) (tables : Tables P Q) :
    ∃ polys, keysOf? tables cs s
        = .ok (provingKeyFrom tables cs s polys, verificationKeyFrom tables cs s polys)
      ∧ IsWirePolynomials cs (domainSize cs.numConstraints) s.tau polys := by
  obtain ⟨k, hsize, -, hle, hk⟩ := exists_domainSize_eq cs.numConstraints
  rw [hsize] at htau
  have hbasis := lagrangeBasis?_eq (hk hcount) htau
  rw [← hsize] at hbasis hle
  obtain ⟨polys, hpolys, hspec⟩ := exists_wirePolynomials?_eq hcs hle s.tau
  exact ⟨polys, keysOf?_eq hbasis hpolys tables, hspec⟩

omit [Pairing P Q T] in
/-- Key generation succeeds, whatever the tables hold. -/
theorem exists_keysOf?_eq_ok {cs : ConstraintSystem} (hcs : cs.WellFormed)
    (hcount : cs.numConstraints ≤ 2 ^ 28) {s : Secrets}
    (htau : vanishing (domainSize cs.numConstraints) s.tau ≠ 0) (tables : Tables P Q) :
    ∃ pk vk, keysOf? tables cs s = .ok (pk, vk) := by
  obtain ⟨polys, hkeys, -⟩ := exists_keysOf?_eq_from hcs hcount htau tables
  exact ⟨_, _, hkeys⟩

section

variable {M : Pairing.Model P Q T A B U} {tables : Tables P Q} (htables : tables.Multiply M)

include htables

theorem isFor_provingKeyFrom (cs : ConstraintSystem) (s : Secrets) (polys : Sides (List Fr)) :
    (provingKeyFrom tables cs s polys).IsFor M cs s polys where
  system := rfl
  domainSize := rfl
  alpha := htables.first s.alpha
  beta := htables.first s.beta
  betaTwist := htables.second s.beta
  delta := htables.first s.delta
  deltaTwist := htables.second s.delta
  aQuery := forall₂_exponent_map htables.first polys.a
  bQuery := forall₂_exponent_map htables.first polys.b
  bTwistQuery := forall₂_exponent_map htables.second polys.b
  hQuery := forall₂_exponent_map htables.first _
  lQuery := forall₂_exponent_map htables.first _

theorem isFor_verificationKeyFrom (cs : ConstraintSystem) (s : Secrets) (polys : Sides (List Fr)) :
    (verificationKeyFrom tables cs s polys).IsFor M cs s polys where
  alpha := htables.first s.alpha
  beta := htables.second s.beta
  gamma := htables.second s.gamma
  delta := htables.second s.delta
  ic := forall₂_exponent_map htables.first _

end

/-- **Key generation gives keys with these exponents**, from an evaluation point off the domain. -/
theorem exists_keysOf?_eq (M : Pairing.Model P Q T A B U) {cs : ConstraintSystem}
    (hcs : cs.WellFormed) (hcount : cs.numConstraints ≤ 2 ^ 28) {s : Secrets}
    (htau : vanishing (domainSize cs.numConstraints) s.tau ≠ 0) {tables : Tables P Q}
    (htables : tables.Multiply M) :
    ∃ polys pk vk, keysOf? tables cs s = .ok (pk, vk)
      ∧ IsWirePolynomials cs (domainSize cs.numConstraints) s.tau polys
      ∧ pk.IsFor M cs s polys ∧ vk.IsFor M cs s polys := by
  obtain ⟨polys, hkeys, hspec⟩ := exists_keysOf?_eq_from hcs hcount htau tables
  exact ⟨polys, provingKeyFrom tables cs s polys, verificationKeyFrom tables cs s polys, hkeys, hspec,
    isFor_provingKeyFrom htables cs s polys, isFor_verificationKeyFrom htables cs s polys⟩

/-! ### Combined values -/

/-- The values `β · A + α · B + C` of the wires, without a divisor. -/
def undividedValues (s : Secrets) (polys : Sides (List Fr)) : List Fr :=
  List.zipWith (· + ·) (List.zipWith (fun a b => s.beta * a + s.alpha * b) polys.a polys.b) polys.c

theorem combinedValues_eq_map (s : Secrets) (divisor : Fr) (polys : Sides (List Fr)) :
    combinedValues s divisor polys = (undividedValues s polys).map (· * divisor⁻¹) := by
  rw [combinedValues, undividedValues, List.map_zipWith]

theorem length_combinedValues (s : Secrets) (divisor : Fr) {polys : Sides (List Fr)} {n : ℕ}
    (ha : polys.a.length = n) (hb : polys.b.length = n) (hc : polys.c.length = n) :
    (combinedValues s divisor polys).length = n := by
  rw [combinedValues, List.length_zipWith, List.length_zipWith, ha, hb, hc, min_self, min_self]

/-- A divisor cancels in an inner product. -/
theorem mul_dot_map_mul_inv {d : Fr} (hd : d ≠ 0) (xs ys : List Fr) :
    d * dot (xs.map (· * d⁻¹)) ys = dot xs ys := by
  induction xs generalizing ys with
  | nil => rw [List.map_nil, dot_nil_left, mul_zero]
  | cons x xs ih =>
    cases ys with
    | nil => rw [dot_nil_right, dot_nil_right, mul_zero]
    | cons y ys =>
      have hx : d * (x * d⁻¹ * y) = x * y := by
        rw [mul_right_comm, mul_comm d, inv_mul_cancel_right₀ hd]
      rw [List.map_cons, dot_cons, dot_cons, mul_add, ih, hx]

/-- The undivided values, weighed by the wires, combine the weighed sides. -/
theorem dot_undividedValues (s : Secrets) {polys : Sides (List Fr)}
    (hb : polys.b.length = polys.a.length) (hc : polys.c.length = polys.a.length) (ws : List Fr) :
    dot (undividedValues s polys) ws
      = s.beta * dot polys.a ws + s.alpha * dot polys.b ws + dot polys.c ws := by
  obtain ⟨as, bs, cs⟩ := polys
  change bs.length = as.length at hb
  change cs.length = as.length at hc
  rw [undividedValues]
  induction as generalizing bs cs ws with
  | nil =>
    obtain rfl := List.length_eq_zero_iff.mp hb
    obtain rfl := List.length_eq_zero_iff.mp hc
    simp
  | cons a as ih =>
    obtain ⟨b, bs, rfl⟩ := List.exists_of_length_succ bs hb
    obtain ⟨c, cs, rfl⟩ := List.exists_of_length_succ cs hc
    cases ws with
    | nil => simp
    | cons y ys =>
      have h := ih ys bs cs (Nat.succ.inj hb) (Nat.succ.inj hc)
      simp only [List.zipWith_cons_cons, dot_cons] at h ⊢
      rw [h]
      ring

/-- **The public and the private part, each with its divisor, make up all wires.** -/
theorem public_add_private {s : Secrets} (hgamma : s.gamma ≠ 0) (hdelta : s.delta ≠ 0)
    {cs : ConstraintSystem} {n : ℕ} {polys : Sides (List Fr)}
    (hpolys : IsWirePolynomials cs n s.tau polys) (count : ℕ) (ws : List Fr) :
    s.gamma * dot ((combinedValues s s.gamma polys).take count) (ws.take count)
        + s.delta * dot ((combinedValues s s.delta polys).drop count) (ws.drop count)
      = s.beta * dot polys.a ws + s.alpha * dot polys.b ws + dot polys.c ws := by
  rw [combinedValues_eq_map, combinedValues_eq_map, ← List.map_take, ← List.map_drop,
    mul_dot_map_mul_inv hgamma, mul_dot_map_mul_inv hdelta, dot_take_add_dot_drop,
    dot_undividedValues s (hpolys.length_b.trans hpolys.length_a.symm)
      (hpolys.length_c.trans hpolys.length_a.symm)]

end MerkleSnark.Groth16
