import Mathlib
import MerkleSnark.Proofs.Groth16.Columns
import MerkleSnark.Proofs.Groth16.Hiding
import MerkleSnark.Proofs.Groth16.Session

/-!
# The reference string

A session keeps the tables of the generators between its calls, by the width of their windows.  They
are the same tables that would be made afresh, so the keys of a system are its reference string for
the secrets drawn, whatever the session did before.

## Main definitions

* `IsReferenceString` — which points the keys of a system hold for given secrets.
* `Session.afterKeys` — the session after the keys of some systems were made.

## Main results

* `Session.sound_afterKeys` — the tables of a session are those of the generators.
* `generate_referenceString` — **key generation gives the reference string**, for every history.
-/

open Polynomial

namespace MerkleSnark

open PointGroup

/-! ### Points of the reference string -/

namespace Groth16

open MerkleSnark.Polynomial

variable {P Q A B : Type} [PointGroup P] [PointGroup Q] [AddCommGroup A] [AddCommGroup B]
variable {L : PointGroup.Model P A} {L' : PointGroup.Model Q B}

/-- The keys hold the points of the reference string of a system for the secrets, where `p` are the
polynomials of the wires.  Every list of points has its length and its order. -/
structure IsReferenceString (L : PointGroup.Model P A) (L' : PointGroup.Model Q B)
    (cs : ConstraintSystem) (s : Secrets) (p : Sides (ℕ → Fr[X])) (pk : ProvingKey P Q)
    (vk : VerificationKey P Q) : Prop where
  system : pk.system = cs
  domainSize : pk.domainSize = Polynomial.domainSize cs.numConstraints
  alpha : L.Exponent pk.alpha s.alpha
  beta : L.Exponent pk.beta s.beta
  betaTwist : L'.Exponent pk.betaTwist s.beta
  delta : L.Exponent pk.delta s.delta
  deltaTwist : L'.Exponent pk.deltaTwist s.delta
  aQuery : List.Forall₂ L.Exponent pk.aQuery
    ((List.range cs.numVariables).map fun i => (p.a i).eval s.tau)
  bQuery : List.Forall₂ L.Exponent pk.bQuery
    ((List.range cs.numVariables).map fun i => (p.b i).eval s.tau)
  bTwistQuery : List.Forall₂ L'.Exponent pk.bTwistQuery
    ((List.range cs.numVariables).map fun i => (p.b i).eval s.tau)
  hQuery : List.Forall₂ L.Exponent pk.hQuery
    ((List.range (pk.domainSize - 1)).map fun k =>
      s.tau ^ k * (s.tau ^ pk.domainSize - 1) / s.delta)
  lQuery : List.Forall₂ L.Exponent pk.lQuery
    ((List.range cs.auxiliarySize).map fun i =>
      combinedAt s p (cs.primarySize + 1 + i) / s.delta)
  verifierAlpha : L.Exponent vk.alpha s.alpha
  verifierBeta : L'.Exponent vk.beta s.beta
  verifierGamma : L'.Exponent vk.gamma s.gamma
  verifierDelta : L'.Exponent vk.delta s.delta
  ic : List.Forall₂ L.Exponent vk.ic
    ((List.range (cs.primarySize + 1)).map fun i => combinedAt s p i / s.gamma)

/-- The basis of the quotient as powers of the evaluation point. -/
theorem quotientBasis_eq (s : Secrets) (n : ℕ) :
    quotientBasis s n
      = (List.range (n - 1)).map fun k => s.tau ^ k * (s.tau ^ n - 1) / s.delta := by
  rw [quotientBasis, Fr.powersFrom_eq_map]
  refine List.map_congr_left fun k _ => ?_
  rw [vanishing]
  ring

variable {cs : ConstraintSystem} {s : Secrets} {polys : Sides (List Fr)}

theorem take_combinedValues
    (h : IsWirePolynomials cs (domainSize cs.numConstraints) s.tau polys) (divisor : Fr) :
    (combinedValues s divisor polys).take (cs.primarySize + 1)
      = (List.range (cs.primarySize + 1)).map fun i =>
          combinedAt s (columnPolynomials cs (domainSize cs.numConstraints)) i / divisor := by
  have hle : cs.primarySize + 1 ≤ cs.numVariables := by
    rw [ConstraintSystem.numVariables]
    omega
  rw [combinedValues_eq h, ← List.map_take, List.take_range, min_eq_left hle]

theorem drop_combinedValues
    (h : IsWirePolynomials cs (domainSize cs.numConstraints) s.tau polys) (divisor : Fr) :
    (combinedValues s divisor polys).drop (cs.primarySize + 1)
      = (List.range cs.auxiliarySize).map fun i =>
          combinedAt s (columnPolynomials cs (domainSize cs.numConstraints))
            (cs.primarySize + 1 + i) / divisor := by
  have hsize : cs.numVariables = cs.primarySize + 1 + cs.auxiliarySize := by
    rw [ConstraintSystem.numVariables]
    omega
  rw [combinedValues_eq h, ← List.map_drop, hsize, List.range_add,
    List.drop_left' List.length_range, List.map_map]
  rfl

/-- **The keys that are made from secrets are the reference string.** -/
theorem exists_keysOf?_referenceString (horder : addOrderOf L.base = scalarOrder)
    (horder' : addOrderOf L'.base = scalarOrder) (hcs : cs.WellFormed)
    (hcount : cs.numConstraints ≤ 2 ^ 28)
    (htau : vanishing (domainSize cs.numConstraints) s.tau ≠ 0) {window : ℕ}
    (hwindow : 1 ≤ window) :
    ∃ pk vk, keysOf? (Tables.ofWindow P Q window) cs s = .ok (pk, vk)
      ∧ IsReferenceString L L' cs s (columnPolynomials cs (domainSize cs.numConstraints)) pk vk := by
  -- keys do not depend on a pairing, so any one will do
  let := Pairing.degenerate P Q
  let M := Pairing.Model.ofGroups L L' horder horder'
  obtain ⟨polys, pk, vk, hkeys, hpolys, hpk, hvk⟩ :=
    exists_keysOf?_eq M hcs hcount htau (multiply_ofWindow M hwindow)
  refine ⟨pk, vk, hkeys, ?_⟩
  exact
    { system := hpk.system
      domainSize := hpk.domainSize
      alpha := hpk.alpha
      beta := hpk.beta
      betaTwist := hpk.betaTwist
      delta := hpk.delta
      deltaTwist := hpk.deltaTwist
      aQuery := hpolys.a_eq ▸ hpk.aQuery
      bQuery := hpolys.b_eq ▸ hpk.bQuery
      bTwistQuery := hpolys.b_eq ▸ hpk.bTwistQuery
      hQuery := by
        rw [hpk.domainSize, ← quotientBasis_eq]
        exact hpk.hQuery
      lQuery := by
        rw [← drop_combinedValues hpolys]
        exact hpk.lQuery
      verifierAlpha := hvk.alpha
      verifierBeta := hvk.beta
      verifierGamma := hvk.gamma
      verifierDelta := hvk.delta
      ic := by
        rw [← take_combinedValues hpolys]
        exact hvk.ic }

end Groth16

/-! ### Calls one after another -/

section Sessions

variable {σ P Q T : Type} [ScalarSource σ] [PointGroup P] [PointGroup Q] [Pairing P Q T]

/-- The session of a new backend after the keys of some systems were made, one after another. -/
def Session.afterKeys (P Q : Type) {T : Type} [PointGroup P] [PointGroup Q] [Pairing P Q T]
    (source : σ) (systems : List ConstraintSystem) : Session σ P Q :=
  systems.foldl (fun session cs => ((Backend.groth16.generate cs).run session).2) { source }

theorem Session.afterKeys_append (source : σ) (earlier : List ConstraintSystem)
    (cs : ConstraintSystem) :
    Session.afterKeys P Q source (earlier ++ [cs])
      = ((Backend.groth16.generate cs).run (Session.afterKeys P Q source earlier)).2 := by
  rw [Session.afterKeys, List.foldl_append]
  rfl

omit [Pairing P Q T] in
/-- A new backend has no tables. -/
theorem Groth16.TableCache.sound_nil : TableCache.Sound ([] : TableCache P Q) :=
  fun _ h => absurd h List.not_mem_nil

/-- Making keys keeps the tables sound. -/
theorem Session.sound_run_generate {session : Session σ P Q} (h : session.tables.Sound)
    (cs : ConstraintSystem) : ((Backend.groth16.generate cs).run session).2.tables.Sound := by
  rw [Backend.run_generate_groth16 rfl]
  exact (h.fetch (Groth16.tableWindow cs)).2

/-- **The tables of a session are those of the generators**, whatever keys were made. -/
theorem Session.sound_afterKeys (source : σ) (systems : List ConstraintSystem) :
    (Session.afterKeys P Q source systems).tables.Sound := by
  have hfold : ∀ session : Session σ P Q, session.tables.Sound →
      (systems.foldl (fun session cs => ((Backend.groth16.generate cs).run session).2)
        session).tables.Sound := by
    induction systems with
    | nil => exact fun _ h => h
    | cons cs systems ih =>
      intro session h
      rw [List.foldl_cons]
      exact ih _ (sound_run_generate h cs)
  exact hfold _ Groth16.TableCache.sound_nil

/-- The source goes on behind the scalars of the secrets. -/
theorem Session.source_afterKeys_append {source : σ} {earlier : List ConstraintSystem}
    {cs : ConstraintSystem} {s : Groth16.Secrets} {redraws : ℕ}
    (hs : s.Drawn (Polynomial.domainSize cs.numConstraints)
      (Session.afterKeys P Q source earlier).source redraws) :
    (Session.afterKeys P Q source (earlier ++ [cs])).source
      = ScalarSource.after (Session.afterKeys P Q source earlier).source (5 + redraws) := by
  rw [Session.afterKeys_append, Backend.run_generate_groth16 (hs.generate_eq _)]

end Sessions

open Groth16 MerkleSnark.Polynomial

/-- **Key generation gives the reference string**, whatever keys a backend made before.  The secrets
are the next scalars of the source, in their order, the evaluation point the first that lies off the
domain, and the source goes on behind it.  A backend without a history would have made the same
keys. -/
theorem generate_referenceString {σ : Type} [ScalarSource σ] (source : σ)
    (earlier : List ConstraintSystem) {cs : ConstraintSystem} (hcs : cs.WellFormed)
    (hcount : cs.numConstraints ≤ 2 ^ 28) {s : Secrets} {redraws : ℕ}
    (hs : s.Drawn (domainSize cs.numConstraints) (Session.afterKeys G1 G2 source earlier).source
      redraws) :
    ∃ pk vk p, AreColumnPolynomials cs (domainSize cs.numConstraints) p
      ∧ IsReferenceString G1.model G2.model cs s p pk vk
      ∧ ((Backend.groth16.generate cs).run (Session.afterKeys G1 G2 source earlier)).1 = .ok (pk, vk)
      ∧ (Session.afterKeys G1 G2 source (earlier ++ [cs])).source
        = ScalarSource.after (Session.afterKeys G1 G2 source earlier).source (5 + redraws)
      ∧ (generate cs ((Session.afterKeys G1 G2 source earlier).source, [])).1 = .ok (pk, vk) := by
  obtain ⟨pk, vk, hkeys, hreference⟩ := exists_keysOf?_referenceString G1.addOrderOf_base
    G2.addOrderOf_base hcs hcount hs.offDomain (one_le_tableWindow cs)
  refine ⟨pk, vk, _, areColumnPolynomials (isPrimitiveRoot_root_domainSize hcount) cs, hreference, ?_,
    Session.source_afterKeys_append hs, ?_⟩
  · rw [Backend.run_generate_groth16 (hs.generate_eq _),
      ((Session.sound_afterKeys source earlier).fetch _).1, hkeys]
    rfl
  · rw [hs.generate_eq, (TableCache.sound_nil.fetch _).1, hkeys]

/-- Keys are made twice.  The second time the point `1` of the domain is drawn and drawn again. -/
theorem generate_referenceString_square :
    Secrets.Drawn (domainSize squareSystem.numConstraints)
        (Session.afterKeys G1 G2 (Cycle.ofList [13, 17, 19, 23, 11, 2, 3, 5, 7, 1, 11])
          [squareSystem]).source 1 ⟨2, 3, 5, 7, 11⟩
      ∧ ∃ pk vk p, AreColumnPolynomials squareSystem (domainSize squareSystem.numConstraints) p
        ∧ IsReferenceString G1.model G2.model squareSystem ⟨2, 3, 5, 7, 11⟩ p pk vk
        ∧ ((Backend.groth16.generate squareSystem).run (Session.afterKeys G1 G2
            (Cycle.ofList [13, 17, 19, 23, 11, 2, 3, 5, 7, 1, 11]) [squareSystem])).1
          = .ok (pk, vk) := by
  have hfirst : Secrets.Drawn (domainSize squareSystem.numConstraints)
      (Session.afterKeys G1 G2 (Cycle.ofList [13, 17, 19, 23, 11, 2, 3, 5, 7, 1, 11]) []).source 0
      ⟨13, 17, 19, 23, 11⟩ :=
    ⟨rfl, rfl, rfl, rfl, fun j hj => absurd hj (Nat.not_lt_zero j), rfl, vanishing_squareSystem⟩
  have hdrawn : Secrets.Drawn (domainSize squareSystem.numConstraints)
      (Session.afterKeys G1 G2 (Cycle.ofList [13, 17, 19, 23, 11, 2, 3, 5, 7, 1, 11])
        [squareSystem]).source 1 ⟨2, 3, 5, 7, 11⟩ := by
    rw [← List.nil_append [squareSystem], Session.source_afterKeys_append hfirst]
    refine ⟨rfl, rfl, rfl, rfl, fun j hj => ?_, rfl, vanishing_squareSystem⟩
    obtain rfl := Nat.lt_one_iff.mp hj
    change vanishing _ (1 : Fr) = 0
    rw [vanishing, one_pow, sub_self]
  obtain ⟨pk, vk, p, hp, hreference, hkeys, -, -⟩ :=
    generate_referenceString _ [squareSystem] (by decide) (by decide) hdrawn
  exact ⟨hdrawn, pk, vk, p, hp, hreference, hkeys⟩

end MerkleSnark
