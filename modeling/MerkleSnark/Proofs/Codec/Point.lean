import Mathlib
import MerkleSnark.Codec.Point
import MerkleSnark.Proofs.Codec.Decoder
import MerkleSnark.Proofs.Curve.Pairing

/-!
# Points that are read back

A point may be written in other coordinates than those it was computed in, so it is not the point
that is read back but one that stands for the same element of the group.

## Main definitions

* `PointGroup.Model.ReadsBack` — reading back keeps the element.

## Main results

* `reads_point`, `reads_points`, `reads_subgroupPoint` — the points of an artifact keep their
  exponents.
-/

namespace MerkleSnark.PointGroup.Model

open Decoder

variable {P A : Type} [PointGroup P] [PointCodec P] [AddCommGroup A] {L : Model P A}
  {p : P} {k : Fr}

/-- What is written for a point is read back as a point for the same element. -/
def ReadsBack (L : Model P A) : Prop :=
  ∀ p a, L.Denotes p a → ∃ q, Reads point (PointCodec.encode p) q ∧ L.Denotes q a

variable (h : L.ReadsBack)

include h

theorem ReadsBack.reads_point (hp : L.Exponent p k) :
    ∃ q, Reads point (PointCodec.encode p) q ∧ L.Exponent q k := h p _ hp

theorem ReadsBack.reads_points {ps : List P} {ks : List Fr} (hps : List.Forall₂ L.Exponent ps ks)
    {bs : Bytes} (hbs : Encode.counted PointCodec.encode ps = .ok bs) :
    ∃ qs, Reads (counted point) bs qs ∧ List.Forall₂ L.Exponent qs ks :=
  reads_counted (hps.imp fun _ _ => h.reads_point) hbs

/-- A point with an exponent is in the subgroup. -/
theorem ReadsBack.reads_subgroupPoint (horder : addOrderOf L.base = scalarOrder)
    (hp : L.Exponent p k) :
    ∃ q, Reads subgroupPoint (PointCodec.encode p) q ∧ L.Exponent q k := by
  obtain ⟨q, hq, hexponent⟩ := h.reads_point hp
  refine ⟨q, ?_, hexponent⟩
  have hzero : scalarOrder • k.val • L.base = 0 := by
    have hbase : scalarOrder • L.base = 0 := by rw [← horder, addOrderOf_nsmul_eq_zero]
    rw [smul_comm, hbase, smul_zero]
  have hmem : inSubgroup q = true := (hexponent.multiple scalarOrder).isInfinity_iff.mpr hzero
  refine hq.last ?_
  rw [if_pos hmem]
  exact .pure q

end MerkleSnark.PointGroup.Model

namespace MerkleSnark.ExponentPoint

open Decoder

/-- A point is written as its exponent. -/
instance : PointCodec ExponentPoint where
  encode p := Encode.scalar p.exponent
  decode := return ⟨← scalar⟩

theorem readsBack_groupModel : groupModel.ReadsBack := fun p _ hp =>
  ⟨p, (reads_scalar p.exponent).map ExponentPoint.mk, hp⟩

end MerkleSnark.ExponentPoint
