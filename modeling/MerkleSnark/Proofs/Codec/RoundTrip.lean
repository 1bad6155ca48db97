import Mathlib
import MerkleSnark.Proofs.Codec.Canonical
import MerkleSnark.Proofs.Codec.Point
import MerkleSnark.Proofs.Groth16.Completeness
import MerkleSnark.Proofs.Groth16.Validity

/-!
# Artifacts are read back

Whatever is well formed can be written, and what is read back from the bytes holds the same
constraints and the same affine points in the same places, so it is written as the same bytes.  The
keys of a system and the proofs that are made with them are well formed.

## Main definitions

* `ProvingKey.Same`, `VerificationKey.Same`, `Proof.Same` — the same constraints and affine points.
* `G2.subgroupModel` — triples read as points of the subgroup of the twist.

## Main results

* `G1.readsBack_model`, `G2.readsBack_subgroupModel` — points keep their elements.
* `artifacts_read_back` — all artifacts are read back.
-/

namespace MerkleSnark

open PointGroup

/-! ### The subgroup of the twist -/

namespace G2

/-- The points whose order divides that of the scalars. -/
noncomputable def subgroup : AddSubgroup (Point.curve coefficient).Point :=
  (nsmulAddMonoidHom scalarOrder).ker

theorem mem_subgroup {P : (Point.curve coefficient).Point} :
    P ∈ subgroup ↔ scalarOrder • P = 0 := AddMonoidHom.mem_ker

/-- Triples read as points of the subgroup. -/
noncomputable def subgroupModel : Model G2 (Point.curve coefficient).Point :=
  model.restrict subgroup (by rw [mem_subgroup, ← addOrderOf_base, addOrderOf_nsmul_eq_zero])

theorem valid_subgroupModel_iff {q : G2} : subgroupModel.Valid q
    ↔ q.OnCurve coefficient ∧ scalarOrder • q.element coefficient = 0 :=
  and_congr_right fun _ => mem_subgroup

/-- What is read back of a point of the subgroup is one. -/
theorem valid_normal {q : G2} (h : subgroupModel.Valid q) : subgroupModel.Valid q.normal := by
  rw [valid_subgroupModel_iff] at h ⊢
  rw [Point.element_normal Δ_ne_zero h.1]
  exact ⟨Point.onCurve_normal Δ_ne_zero h.1, h.2⟩

/-- Points of the subgroup keep their element when they are read back. -/
theorem readsBack_subgroupModel : subgroupModel.ReadsBack := by
  rintro q _ ⟨hq, rfl⟩
  exact ⟨q.normal, recognizes_decode.reads (spells_encode hq.1), valid_normal hq,
    Point.element_normal Δ_ne_zero hq.1⟩

end G2

namespace G1

theorem valid_normal {p : G1} (h : model.Valid p) : model.Valid p.normal :=
  Point.onCurve_normal Δ_ne_zero h

/-- Points of the first curve keep their element when they are read back. -/
theorem readsBack_model : model.ReadsBack := by
  rintro p _ ⟨hp, rfl⟩
  exact ⟨p.normal, recognizes_decode.reads (spells_encode hp), valid_normal hp,
    Point.element_normal Δ_ne_zero hp⟩

end G1

namespace Groth16

open Decoder

/-! ### The same values -/

/-- The same constraints and size, and the same affine points in the same places. -/
structure ProvingKey.Same (pk pk' : ProvingKey G1 G2) : Prop where
  system : pk.system.same pk'.system = true
  domainSize : pk.domainSize = pk'.domainSize
  alpha : pk.alpha.SameAffine pk'.alpha
  beta : pk.beta.SameAffine pk'.beta
  betaTwist : pk.betaTwist.SameAffine pk'.betaTwist
  delta : pk.delta.SameAffine pk'.delta
  deltaTwist : pk.deltaTwist.SameAffine pk'.deltaTwist
  aQuery : List.Forall₂ Point.SameAffine pk.aQuery pk'.aQuery
  bQuery : List.Forall₂ Point.SameAffine pk.bQuery pk'.bQuery
  bTwistQuery : List.Forall₂ Point.SameAffine pk.bTwistQuery pk'.bTwistQuery
  hQuery : List.Forall₂ Point.SameAffine pk.hQuery pk'.hQuery
  lQuery : List.Forall₂ Point.SameAffine pk.lQuery pk'.lQuery

/-- The same affine points in the same places. -/
structure VerificationKey.Same (vk vk' : VerificationKey G1 G2) : Prop where
  alpha : vk.alpha.SameAffine vk'.alpha
  beta : vk.beta.SameAffine vk'.beta
  gamma : vk.gamma.SameAffine vk'.gamma
  delta : vk.delta.SameAffine vk'.delta
  ic : List.Forall₂ Point.SameAffine vk.ic vk'.ic

/-- The same affine points in the same places. -/
structure Proof.Same (proof proof' : Proof G1 G2) : Prop where
  a : proof.a.SameAffine proof'.a
  b : proof.b.SameAffine proof'.b
  c : proof.c.SameAffine proof'.c

theorem sameAffine_map_normal {F : Type} [Field F] [DecidableEq F] (ps : List (Point F)) :
    List.Forall₂ Point.SameAffine ps (ps.map Point.normal) := by
  rw [List.forall₂_map_right_iff]
  exact List.forall₂_same.mpr fun p _ => p.sameAffine_normal

theorem ProvingKey.WellFormed.same_normal {pk : ProvingKey G1 G2} (h : pk.WellFormed) :
    pk.Same pk.normal where
  system := h.system.same_reread
  domainSize := rfl
  alpha := Point.sameAffine_normal _
  beta := Point.sameAffine_normal _
  betaTwist := Point.sameAffine_normal _
  delta := Point.sameAffine_normal _
  deltaTwist := Point.sameAffine_normal _
  aQuery := sameAffine_map_normal _
  bQuery := sameAffine_map_normal _
  bTwistQuery := sameAffine_map_normal _
  hQuery := sameAffine_map_normal _
  lQuery := sameAffine_map_normal _

theorem VerificationKey.same_normal (vk : VerificationKey G1 G2) : vk.Same vk.normal where
  alpha := Point.sameAffine_normal _
  beta := Point.sameAffine_normal _
  gamma := Point.sameAffine_normal _
  delta := Point.sameAffine_normal _
  ic := sameAffine_map_normal _

theorem Proof.same_normal (proof : Proof G1 G2) : proof.Same proof.normal :=
  ⟨Point.sameAffine_normal _, Point.sameAffine_normal _, Point.sameAffine_normal _⟩

/-! ### Reading back -/

/-- The artifact has an encoding that is read to its end, as a value with the same contents and the
same encoding. -/
def ReadsBack {V : Type} (encode : V → Except EncodeError Bytes) (decoder : Decoder V)
    (Same : V → V → Prop) (v : V) : Prop :=
  ∃ bs v', encode v = .ok bs ∧ Finishes decoder bs v' ∧ Same v v' ∧ encode v' = .ok bs

theorem ProvingKey.WellFormed.readsBack {pk : ProvingKey G1 G2} (h : pk.WellFormed) :
    ReadsBack ProvingKey.encode ProvingKey.decoder ProvingKey.Same pk := by
  obtain ⟨bs, hencode, hspells⟩ := h.exists_encode_eq
  exact ⟨bs, pk.normal, hencode, finishes_decoder hspells, h.same_normal,
    h.encode_normal.trans hencode⟩

theorem VerificationKey.WellFormed.readsBack {vk : VerificationKey G1 G2} (h : vk.WellFormed) :
    ReadsBack VerificationKey.encode VerificationKey.decoder VerificationKey.Same vk := by
  obtain ⟨bs, hencode, hspells⟩ := h.exists_encode_eq
  exact ⟨bs, vk.normal, hencode, finishes_decoder hspells, vk.same_normal,
    (encode_normal vk).trans hencode⟩

theorem Proof.WellFormed.readsBack {proof : Proof G1 G2} (h : proof.WellFormed) :
    ReadsBack Proof.encode Proof.decoder Proof.Same proof := by
  obtain ⟨bs, hencode, hspells⟩ := h.exists_encode_eq
  exact ⟨bs, proof.normal, hencode, finishes_decoder hspells, proof.same_normal,
    (encode_normal proof).trans hencode⟩

/-! ### Honest keys and proofs -/

/-- Points of the curve, and points of the subgroup of the twist. -/
abbrev ProvingKey.InSubgroup (pk : ProvingKey G1 G2) : Prop := pk.Valid G1.model G2.subgroupModel

theorem ProvingKey.InSubgroup.normal {pk : ProvingKey G1 G2} (h : pk.InSubgroup) :
    pk.normal.InSubgroup where
  alpha := G1.valid_normal h.alpha
  beta := G1.valid_normal h.beta
  betaTwist := G2.valid_normal h.betaTwist
  delta := G1.valid_normal h.delta
  deltaTwist := G2.valid_normal h.deltaTwist
  aQuery := List.forall_mem_map.mpr fun p hp => G1.valid_normal (h.aQuery p hp)
  bQuery := List.forall_mem_map.mpr fun p hp => G1.valid_normal (h.bQuery p hp)
  bTwistQuery := List.forall_mem_map.mpr fun q hq => G2.valid_normal (h.bTwistQuery q hq)
  hQuery := List.forall_mem_map.mpr fun p hp => G1.valid_normal (h.hQuery p hp)
  lQuery := List.forall_mem_map.mpr fun p hp => G1.valid_normal (h.lQuery p hp)

/-- A key that fits its system can be written. -/
theorem ProvingKey.Fits.wellFormed_of_valid {pk : ProvingKey G1 G2} (hfits : pk.Fits)
    (hvalid : pk.InSubgroup) (hbuilt : ∀ k ∈ pk.system.constraints, k.Built)
    (hlt : pk.system.numVariables < 2 ^ 32) : pk.WellFormed := by
  obtain ⟨k, hk, hsize⟩ := hfits.power
  have hmax : pk.domainSize < 2 ^ 32 := by
    rw [hsize]
    exact Nat.pow_lt_pow_right (by decide) (by omega)
  exact
    { system := ⟨hbuilt, hfits.wellFormed, hlt, hfits.numConstraints_le.trans_lt hmax⟩
      domainSize_lt := hmax
      power := ⟨k, hsize⟩
      numConstraints_le := hfits.numConstraints_le
      alpha := hvalid.alpha
      beta := hvalid.beta
      betaTwist := hvalid.betaTwist.1
      delta := hvalid.delta
      deltaTwist := hvalid.deltaTwist.1
      aQuery := hvalid.aQuery
      bQuery := hvalid.bQuery
      bTwistQuery := fun q hq => (hvalid.bTwistQuery q hq).1
      hQuery := hvalid.hQuery
      lQuery := hvalid.lQuery
      length_aQuery := hfits.aQuery
      length_bQuery := hfits.bQuery
      length_bTwistQuery := hfits.bTwistQuery
      length_hQuery := hfits.hQuery
      length_lQuery := hfits.lQuery }

/-- A proof that is made with a key of the subgroup can be written. -/
theorem Proof.wellFormed_of_prove {σ : Type} [ScalarSource σ] {pk : ProvingKey G1 G2}
    (hpk : pk.InSubgroup) {primary auxiliary : List Fr} {source : σ} {proof : Proof G1 G2}
    (h : ((prove pk primary auxiliary).run.run source).1 = .ok proof) : proof.WellFormed := by
  obtain ⟨ha, hb, hc⟩ := valid_of_prove hpk h
  obtain ⟨hcurve, horder⟩ := G2.valid_subgroupModel_iff.mp hb
  exact ⟨ha, hcurve, hc, horder⟩

/-- The keys of a system can be written, and the points of the proving key lie in the subgroups. -/
theorem wellFormed_of_generate {σ : Type} [ScalarSource σ] {cs : ConstraintSystem}
    (hbuilt : ∀ k ∈ cs.constraints, k.Built) (hlt : cs.numVariables < 2 ^ 32)
    {earlier : List ConstraintSystem} {source : σ} {pk : ProvingKey G1 G2}
    {vk : VerificationKey G1 G2}
    (h : (generate cs (source, TableCache.after G1 G2 earlier)).1 = .ok (pk, vk)) :
    pk.WellFormed ∧ pk.InSubgroup ∧ vk.WellFormed := by
  rw [generate_after] at h
  obtain ⟨hpk, hvk⟩ := valid_of_keysOf? G1.model G2.subgroupModel (one_le_tableWindow cs) h
  obtain ⟨rfl, hfits, hic⟩ := fits_of_keysOf? h
  refine ⟨hfits.wellFormed_of_valid hpk hbuilt hlt, hpk, ?_⟩
  exact
    { alpha := hvk.alpha
      beta := hvk.beta.1
      gamma := hvk.gamma.1
      delta := hvk.delta.1
      ic := hvk.ic
      ic_ne_nil := List.ne_nil_of_length_eq_add_one hic
      ic_lt := by
        unfold ConstraintSystem.numVariables at hlt
        omega }

/-- **All artifacts are read back**: every well-formed key or proof, and with it the keys of every
system and all proofs that are made with these keys or with what is read back of them. -/
theorem artifacts_read_back :
    (∀ pk : ProvingKey G1 G2, pk.WellFormed →
      ReadsBack ProvingKey.encode ProvingKey.decoder ProvingKey.Same pk)
    ∧ (∀ vk : VerificationKey G1 G2, vk.WellFormed →
      ReadsBack VerificationKey.encode VerificationKey.decoder VerificationKey.Same vk)
    ∧ (∀ proof : Proof G1 G2, proof.WellFormed →
      ReadsBack Proof.encode Proof.decoder Proof.Same proof)
    ∧ ∀ (σ ρ : Type) [ScalarSource σ] [ScalarSource ρ] (cs : ConstraintSystem),
      (∀ k ∈ cs.constraints, k.Built) → cs.numVariables < 2 ^ 32 →
      ∀ (earlier : List ConstraintSystem) (source : σ) (pk : ProvingKey G1 G2)
        (vk : VerificationKey G1 G2),
        (generate cs (source, TableCache.after G1 G2 earlier)).1 = .ok (pk, vk) →
        ReadsBack ProvingKey.encode ProvingKey.decoder ProvingKey.Same pk
        ∧ ReadsBack VerificationKey.encode VerificationKey.decoder VerificationKey.Same vk
        ∧ ∀ (pk' : ProvingKey G1 G2), pk' = pk ∨ (∃ bs, pk.encode = .ok bs
            ∧ ProvingKey.decode bs = .ok pk') →
          ∀ (primary auxiliary : List Fr) (blinding : ρ) (proof : Proof G1 G2),
            ((prove pk' primary auxiliary).run.run blinding).1 = .ok proof →
            ReadsBack Proof.encode Proof.decoder Proof.Same proof := by
  refine ⟨fun _ h => h.readsBack, fun _ h => h.readsBack, fun _ h => h.readsBack, ?_⟩
  intro σ ρ _ _ cs hbuilt hlt earlier source pk vk hgenerate
  obtain ⟨hpk, hsubgroup, hvk⟩ := wellFormed_of_generate hbuilt hlt hgenerate
  refine ⟨hpk.readsBack, hvk.readsBack, ?_⟩
  rintro pk' hpk' primary auxiliary blinding proof hprove
  have hsubgroup' : pk'.InSubgroup := by
    obtain rfl | ⟨bs, hencode, hdecode⟩ := hpk'
    · exact hsubgroup
    · obtain ⟨cs, hencode', hspells⟩ := hpk.exists_encode_eq
      rw [hencode] at hencode'
      obtain rfl := Except.ok.inj hencode'
      rw [ProvingKey.decode_eq_ok_iff.mpr hspells] at hdecode
      obtain rfl := Except.ok.inj hdecode
      exact hsubgroup.normal
  exact (Proof.wellFormed_of_prove hsubgroup' hprove).readsBack

theorem writable_squareSystem : squareSystem.Writable where
  built k hk := by
    obtain rfl := List.mem_singleton.mp hk
    exact ⟨.addTerm .zero 2 1, .addTerm .zero 2 1, .addTerm .zero 1 1⟩
  wellFormed := by decide
  numVariables_lt := by decide
  numConstraints_lt := by decide

theorem exists_generate_square : ∃ pk vk,
    (generate squareSystem (Cycle.ofList [2, 3, 5, 7, 11],
      TableCache.after G1 G2 [squareSystem])).1 = .ok (pk, vk) := by
  rw [generate_after, sample_ofList vanishing_squareSystem]
  apply exists_keysOf?_eq_ok
  · decide
  · decide
  · exact vanishing_squareSystem

theorem artifacts_read_back_square :
    (sparseProof.WellFormed ∧ ReadsBack Proof.encode Proof.decoder Proof.Same sparseProof)
    ∧ (∀ k ∈ squareSystem.constraints, k.Built) ∧ squareSystem.numVariables < 2 ^ 32
    ∧ ∃ pk vk, (generate squareSystem (Cycle.ofList [2, 3, 5, 7, 11],
        TableCache.after G1 G2 [squareSystem])).1 = .ok (pk, vk)
      ∧ (pk.WellFormed ∧ ReadsBack ProvingKey.encode ProvingKey.decoder ProvingKey.Same pk)
      ∧ (vk.WellFormed
        ∧ ReadsBack VerificationKey.encode VerificationKey.decoder VerificationKey.Same vk)
      ∧ ∃ proof, ((prove pk [9] [3]).run.run (Cycle.ofList [13, 17])).1 = .ok proof
        ∧ ReadsBack Proof.encode Proof.decoder Proof.Same proof := by
  obtain ⟨hpk, hvk, hproof, hmade⟩ := artifacts_read_back
  have hsparse := (spells_sparseBytes (show 2 + 0 * baseOrder < 256 ^ 32 by decide) 0).wellFormed
  obtain ⟨hbuilt, -, hlt, -⟩ := writable_squareSystem
  obtain ⟨pk, vk, hgenerate⟩ := exists_generate_square
  obtain ⟨hpkWell, -, hvkWell⟩ := wellFormed_of_generate hbuilt hlt hgenerate
  have hfits := hgenerate
  rw [generate_after] at hfits
  obtain ⟨hsystem, hfits, -⟩ := fits_of_keysOf? hfits
  have hprimary : [(9 : Fr)].length = pk.system.primarySize := by rw [hsystem]; rfl
  have hauxiliary : [(3 : Fr)].length = pk.system.auxiliarySize := by rw [hsystem]; rfl
  obtain ⟨proof, hprove⟩ := hfits.exists_prove_eq_ok hprimary hauxiliary (Cycle.ofList [13, 17])
  obtain ⟨-, -, hproofs⟩ :=
    hmade Cycle Cycle squareSystem hbuilt hlt [squareSystem] _ pk vk hgenerate
  exact ⟨⟨hsparse, hproof _ hsparse⟩, hbuilt, hlt, pk, vk, hgenerate, ⟨hpkWell, hpk pk hpkWell⟩,
    ⟨hvkWell, hvk vk hvkWell⟩, proof, hprove, hproofs pk (.inl rfl) [9] [3] _ proof hprove⟩

end Groth16

end MerkleSnark
