import Mathlib
import MerkleSnark.Codec.System
import MerkleSnark.Proofs.Codec.Decoder
import MerkleSnark.Proofs.Groth16.Program

/-!
# Constraint systems that are read back

A decoder sums up the terms that it reads, and does not know the names of the constraints.  What it
gives for an encoded system has the same values on its sides, whatever the wires carry, so it has
the same solutions and the same quadratic program.

## Main definitions

* `ConstraintSystem.reread` — the system that is read back.

## Main results

* `ConstraintSystem.reads_decode` — reading the encoding of a system.
* `ConstraintSystem.wellFormed_reread`, `ConstraintSystem.satisfied_reread_iff`,
  `Groth16.IsWirePolynomials.reread` — what reading back keeps.
-/

namespace MerkleSnark

open Decoder

/-! ### Linear combinations -/

namespace LinearCombination

/-- The combination that is read back. -/
def reread (x : LinearCombination) : LinearCombination := ofTerms x.terms

@[simp] theorem eval_reread (x : LinearCombination) (w : ℕ → Fr) : x.reread.eval w = x.eval w :=
  (eval_ofTerms x.terms w).trans (eval_eq_sum x w).symm

/-- Terms over existing wires sum up to a combination of existing wires. -/
theorem boundedBy_ofTerms {terms : List (ℕ × Fr)} {n : ℕ} (h : ∀ t ∈ terms, t.1 < n) :
    (ofTerms terms).boundedBy n = true :=
  boundedBy_iff.mpr (Within.foldl (fun _ t ht hz => hz.addTerm (h t ht) t.2) Within.zero)

theorem boundedBy_reread {x : LinearCombination} {n : ℕ} (h : x.boundedBy n = true) :
    x.reread.boundedBy n = true :=
  boundedBy_ofTerms (boundedBy_iff.mp h)

theorem reads_decodeTerm {n : ℕ} {t : ℕ × Fr} (hlt : t.1 < n) {front : Bytes}
    (h : Encode.count t.1 = .ok front) :
    Reads (decodeTerm n) (front ++ Encode.scalar t.2) t := by
  refine (reads_count h).bind ?_
  rw [if_neg (not_le.mpr hlt)]
  exact (reads_scalar t.2).map fun c => (t.1, c)

theorem reads_decode {x : LinearCombination} {n : ℕ} (hx : x.boundedBy n = true) {bs : Bytes}
    (h : x.encode = .ok bs) : Reads (decode n) bs x.reread := by
  unfold encode at h
  obtain ⟨items, hitems, h⟩ := exists_of_bind_eq_ok h
  obtain ⟨front, hcount, h⟩ := exists_of_bind_eq_ok h
  cases h
  have hterms : Reads (times (decodeTerm n) x.terms.length) items.flatten (x.terms.map id) := by
    refine reads_of_mapM (fun t ht bs hbs => ?_) hitems
    obtain ⟨wire, hwire, hbs⟩ := exists_of_bind_eq_ok hbs
    cases hbs
    exact reads_decodeTerm (boundedBy_iff.mp hx t ht) hwire
  rw [List.map_id] at hterms
  exact ((reads_count hcount).bind hterms).map ofTerms

end LinearCombination

/-! ### Constraints -/

namespace Constraint

/-- The constraint that is read back. -/
def reread (k : Constraint) : Constraint := ⟨k.a.reread, k.b.reread, k.c.reread, ""⟩

theorem boundedBy_reread {k : Constraint} {n : ℕ} (h : k.boundedBy n = true) :
    k.reread.boundedBy n = true := by
  simp only [boundedBy, Bool.and_eq_true] at h ⊢
  obtain ⟨⟨ha, hb⟩, hc⟩ := h
  exact ⟨⟨LinearCombination.boundedBy_reread ha, LinearCombination.boundedBy_reread hb⟩,
    LinearCombination.boundedBy_reread hc⟩

theorem holds_reread_iff (k : Constraint) (w : ℕ → Fr) : k.reread.Holds w ↔ k.Holds w := by
  simp only [Holds, reread, LinearCombination.eval_reread]

theorem reads_decode {k : Constraint} {n : ℕ} (hk : k.boundedBy n = true) {bs : Bytes}
    (h : k.encode = .ok bs) : Reads (decode n) bs k.reread := by
  simp only [boundedBy, Bool.and_eq_true] at hk
  obtain ⟨⟨ha, hb⟩, hc⟩ := hk
  unfold encode at h
  obtain ⟨a, haeq, h⟩ := exists_of_bind_eq_ok h
  obtain ⟨b, hbeq, h⟩ := exists_of_bind_eq_ok h
  obtain ⟨c, hceq, h⟩ := exists_of_bind_eq_ok h
  cases h
  rw [List.append_assoc]
  refine (LinearCombination.reads_decode ha haeq).bind ?_
  refine (LinearCombination.reads_decode hb hbeq).bind ?_
  exact (LinearCombination.reads_decode hc hceq).map _

end Constraint

/-! ### Systems -/

namespace ConstraintSystem

/-- The system that is read back. -/
def reread (cs : ConstraintSystem) : ConstraintSystem :=
  ⟨cs.primarySize, cs.auxiliarySize, cs.constraints.map Constraint.reread⟩

@[simp] theorem numConstraints_reread (cs : ConstraintSystem) :
    cs.reread.numConstraints = cs.numConstraints := List.length_map _

@[simp] theorem numVariables_reread (cs : ConstraintSystem) :
    cs.reread.numVariables = cs.numVariables := rfl

theorem wellFormed_reread {cs : ConstraintSystem} (h : cs.WellFormed) : cs.reread.WellFormed := by
  intro k hk
  obtain ⟨l, hl, rfl⟩ := List.mem_map.mp hk
  exact Constraint.boundedBy_reread (h l hl)

theorem satisfied_reread_iff (cs : ConstraintSystem) (w : ℕ → Fr) :
    cs.reread.Satisfied w ↔ cs.Satisfied w := by
  simp only [Satisfied, reread, List.forall_mem_map, Constraint.holds_reread_iff]

/-- **Reading the encoding of a system.** -/
theorem reads_decode {cs : ConstraintSystem} (hcs : cs.WellFormed) {bs : Bytes}
    (h : cs.encode = .ok bs) : Reads decode bs cs.reread := by
  unfold encode at h
  obtain ⟨primary, hprimary, h⟩ := exists_of_bind_eq_ok h
  obtain ⟨auxiliary, hauxiliary, h⟩ := exists_of_bind_eq_ok h
  obtain ⟨front, hcount, h⟩ := exists_of_bind_eq_ok h
  obtain ⟨items, hitems, h⟩ := exists_of_bind_eq_ok h
  cases h
  have hconstraints := reads_of_mapM (fun k hk _ => Constraint.reads_decode (hcs k hk)) hitems
  rw [List.append_assoc, List.append_assoc]
  refine (reads_count hprimary).bind ((reads_count hauxiliary).bind ?_)
  exact ((reads_count hcount).bind hconstraints).map _

end ConstraintSystem

/-! ### The quadratic program -/

namespace Groth16

theorem sidePolynomial_reread (cs : ConstraintSystem) (ws : List Fr) (n : ℕ)
    {side : Constraint → LinearCombination}
    (hside : ∀ k w, (side (Constraint.reread k)).eval w = (side k).eval w) :
    sidePolynomial cs.reread ws n side = sidePolynomial cs ws n side := by
  unfold sidePolynomial
  refine congrArg _ (funext fun j => ?_)
  unfold sideValue ConstraintSystem.reread
  rw [List.map_map]
  refine congrArg (List.getD · j 0) (List.map_congr_left fun k _ => ?_)
  exact hside k _

theorem IsWirePolynomials.reread {cs : ConstraintSystem} {n : ℕ} {tau : Fr}
    {polys : Sides (List Fr)} (h : IsWirePolynomials cs n tau polys) :
    IsWirePolynomials cs.reread n tau polys where
  length_a := h.length_a
  length_b := h.length_b
  length_c := h.length_c
  dot_a ws := by
    rw [h.dot_a, sidePolynomial_reread _ _ _ fun k w => LinearCombination.eval_reread k.a w]
  dot_b ws := by
    rw [h.dot_b, sidePolynomial_reread _ _ _ fun k w => LinearCombination.eval_reread k.b w]
  dot_c ws := by
    rw [h.dot_c, sidePolynomial_reread _ _ _ fun k w => LinearCombination.eval_reread k.c w]

end Groth16

end MerkleSnark
