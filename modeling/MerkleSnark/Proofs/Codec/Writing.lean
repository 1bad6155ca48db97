import Mathlib
import MerkleSnark.Proofs.Codec.Decoder
import MerkleSnark.Proofs.Codec.Format
import MerkleSnark.Proofs.Codec.System
import MerkleSnark.Proofs.Constraint.Reduced
import MerkleSnark.Proofs.Curve.Affine

/-!
# Writing follows the format

What is written for a value stands for the value in normal form: points in affine coordinates,
constraints without their names.  Only counts and indices can fail to fit.

## Main definitions

* `ConstraintSystem.Writable` — the sizes and indices of a system fit four bytes.
* `ProvingKey.normal`, `VerificationKey.normal`, `Proof.normal` — the values that are read back.

## Main results

* `G1.spells_encode`, `G2.spells_encode` — points.
* `ConstraintSystem.exists_encode_eq` — systems.
* `ProvingKey.exists_encode_eq`, `VerificationKey.exists_encode_eq`, `Proof.exists_encode_eq` —
  artifacts.
-/

namespace MerkleSnark

/-! ### Numbers and lists -/

/-- A map all of whose values exist. -/
theorem exists_mapM_eq {ε α β γ : Type} {f : α → Except ε β} {R : β → γ → Prop} {g : α → γ}
    {l : List α} (h : ∀ a ∈ l, ∃ b, f a = .ok b ∧ R b (g a)) :
    ∃ bs, l.mapM f = .ok bs ∧ List.Forall₂ R bs (l.map g) := by
  induction l with
  | nil => exact ⟨[], rfl, .nil⟩
  | cons a l ih =>
    obtain ⟨b, hb, hR⟩ := h a List.mem_cons_self
    obtain ⟨bs, hbs, hRs⟩ := ih fun a' ha' => h a' (List.mem_cons_of_mem a ha')
    refine ⟨b :: bs, ?_, .cons hR hRs⟩
    rw [List.mapM_cons, hb, hbs]
    rfl

/-- What related values are, all values of a list are. -/
theorem forall_mem_of_forall₂ {α β : Type} {R : α → β → Prop} {p : α → Prop} {l : List α}
    {l' : List β} (h : List.Forall₂ R l l') (hR : ∀ a b, R a b → p a) : ∀ a ∈ l, p a := by
  induction h with
  | nil => exact fun a ha => absurd ha List.not_mem_nil
  | cons ha _ ih => exact List.forall_mem_cons.mpr ⟨hR _ _ ha, ih⟩

theorem mapM_congr {ε α β : Type} {f g : α → Except ε β} {l : List α}
    (h : ∀ a ∈ l, f a = g a) : l.mapM f = l.mapM g := by
  induction l with
  | nil => rfl
  | cons a l ih =>
    rw [List.mapM_cons, List.mapM_cons, h a List.mem_cons_self,
      ih fun b hb => h b (List.mem_cons_of_mem a hb)]

namespace Spells

variable {α β : Type} {F : Bytes → β → Prop} {g : α → β} {as : List α}

theorem uint_ofNat {size n : ℕ} (h : n < 256 ^ size) : uint size (Bytes.ofNat size n) n :=
  ⟨Bytes.length_ofNat size n, by rw [Bytes.toNat_ofNat, Nat.mod_eq_of_lt h]⟩

theorem scalar_encode (x : Fr) : scalar (Encode.scalar x) x :=
  uint_ofNat (x.val_lt.trans (by decide))

theorem count_eq {n : ℕ} (h : n < 2 ^ 32) : Encode.count n = .ok (Bytes.ofNat 4 n) :=
  if_pos h

theorem listOf_flatMap {item : α → Bytes} (h : ∀ a ∈ as, F (item a) (g a)) :
    listOf F (as.flatMap item) (as.map g) := by
  refine ⟨as.map item, List.flatMap_def, ?_⟩
  rw [List.forall₂_map_left_iff, List.forall₂_map_right_iff]
  exact List.forall₂_same.mpr h

theorem counted_flatMap {item : α → Bytes} (hlt : as.length < 2 ^ 32)
    (h : ∀ a ∈ as, F (item a) (g a)) :
    counted F (Bytes.ofNat 4 as.length ++ as.flatMap item) (as.map g) := by
  refine .mk ?_ (listOf_flatMap h)
  rw [List.length_map]
  exact uint_ofNat hlt

theorem counted.length_lt {bs : Bytes} {bs' : List β} (h : counted F bs bs') :
    bs'.length < 2 ^ 32 := by
  obtain @⟨count, _, _, ⟨hlength, hcount⟩, _⟩ := h
  have hlt := count.toNat_lt
  rwa [hlength, hcount] at hlt

/-- What the items of a list are, the list consists of. -/
theorem counted.forall_mem {bs : Bytes} {bs' : List β} {p : β → Prop} (h : counted F bs bs')
    (hF : ∀ bs b, F bs b → p b) : ∀ b ∈ bs', p b := by
  obtain ⟨-, bss, -, hitems⟩ := h
  exact forall_mem_of_forall₂ hitems.flip fun b bs => hF bs b

theorem encode_counted_map {item : α → Bytes} {f : α → α} (h : ∀ a, item (f a) = item a) :
    Encode.counted item (as.map f) = Encode.counted item as := by
  simp only [Encode.counted, List.length_map, List.flatMap_map, h]

theorem encode_counted_eq (item : α → Bytes) (hlt : as.length < 2 ^ 32) :
    Encode.counted item as = .ok (Bytes.ofNat 4 as.length ++ as.flatMap item) := by
  rw [Encode.counted, count_eq hlt]
  rfl

end Spells

/-! ### Points -/

theorem Encode.length_coordinate (x : Fq) : (Encode.coordinate x).length = 32 :=
  Bytes.length_ofNat 32 x.val

/-- The bytes of a coordinate are below the characteristic. -/
theorem Encode.toNat_coordinate (x : Fq) : (Encode.coordinate x).toNat = x.val := by
  rw [Encode.coordinate, Bytes.toNat_ofNat,
    Nat.mod_eq_of_lt (x.val_lt.trans (by decide : baseOrder < 256 ^ 32))]

@[simp] theorem Encode.natCast_coordinate (x : Fq) : ((Encode.coordinate x).toNat : Fq) = x := by
  rw [Encode.toNat_coordinate, Residue.natCast_val]

namespace G1

/-- Behind flag zero any bytes may stand. -/
theorem spells_infinity (b : UInt8) : Spells (infinityFlag :: List.replicate 64 b) .infinity := by
  have hsplit : List.replicate 64 b = List.replicate 32 b ++ List.replicate 32 b := rfl
  rw [hsplit]
  exact .atInfinity List.length_replicate List.length_replicate

theorem encode_infinity : encode .infinity = infinityFlag :: List.replicate 64 0 := by
  simp [encode]

theorem encode_ofAffine (x y : Fq) :
    encode (.ofAffine x y) = finiteFlag :: (Encode.coordinate x ++ Encode.coordinate y) := by
  simp [encode]

/-- The coordinates that a point is known by are all that is written. -/
theorem encode_normal (p : G1) : encode p.normal = encode p := by
  cases h : p.isInfinity with
  | true => rw [Point.normal_of_isInfinity h, encode_infinity, encode, if_pos h]
  | false => rw [Point.normal_of_finite h, encode_ofAffine, encode, h]; rfl

theorem spells_encode {p : G1} (hp : p.OnCurve coefficient) : Spells (encode p) p.normal := by
  have hcurve := Point.onCurve_normal Δ_ne_zero hp
  rw [← encode_normal]
  cases h : p.isInfinity with
  | true =>
    rw [Point.normal_of_isInfinity h, encode_infinity]
    exact spells_infinity 0
  | false =>
    rw [Point.normal_of_finite h] at hcurve ⊢
    rw [encode_ofAffine]
    have hfinite := Spells.finite (Encode.length_coordinate p.affine.1)
      (Encode.length_coordinate p.affine.2)
    simp only [Encode.natCast_coordinate] at hfinite
    exact hfinite hcurve

/-- A point that is read is in normal form. -/
theorem Spells.normal_eq {bs : Bytes} {p : G1} (h : Spells bs p) : p.normal = p := by
  cases h with
  | atInfinity => exact Point.normal_infinity
  | finite => exact Point.normal_ofAffine _ _

theorem Spells.onCurve {bs : Bytes} {p : G1} (h : Spells bs p) : p.OnCurve coefficient := by
  cases h with
  | atInfinity => exact Point.onCurve_infinity
  | finite _ _ hcurve => exact hcurve

end G1

namespace G2

/-- Behind flag zero any bytes may stand. -/
theorem spells_infinity (b : UInt8) : Spells (infinityFlag :: List.replicate 128 b) .infinity := by
  have hsplit : List.replicate 128 b = List.replicate 32 b ++ List.replicate 32 b
      ++ List.replicate 32 b ++ List.replicate 32 b := rfl
  rw [hsplit]
  exact .atInfinity List.length_replicate List.length_replicate List.length_replicate
    List.length_replicate

theorem encode_infinity : encode .infinity = infinityFlag :: List.replicate 128 0 := by
  simp [encode]

theorem encode_ofAffine (x y : Fq2) :
    encode (.ofAffine x y) = finiteFlag :: (Encode.coordinate x.re ++ Encode.coordinate x.im
      ++ Encode.coordinate y.re ++ Encode.coordinate y.im) := by
  simp [encode]

/-- The coordinates that a point is known by are all that is written. -/
theorem encode_normal (p : G2) : encode p.normal = encode p := by
  cases h : p.isInfinity with
  | true => rw [Point.normal_of_isInfinity h, encode_infinity, encode, if_pos h]
  | false => rw [Point.normal_of_finite h, encode_ofAffine, encode, h]; rfl

theorem spells_encode {p : G2} (hp : p.OnCurve coefficient) : Spells (encode p) p.normal := by
  have hcurve := Point.onCurve_normal Δ_ne_zero hp
  rw [← encode_normal]
  cases h : p.isInfinity with
  | true =>
    rw [Point.normal_of_isInfinity h, encode_infinity]
    exact spells_infinity 0
  | false =>
    rw [Point.normal_of_finite h] at hcurve ⊢
    rw [encode_ofAffine]
    have hfinite := Spells.finite (Encode.length_coordinate p.affine.1.re)
      (Encode.length_coordinate p.affine.1.im) (Encode.length_coordinate p.affine.2.re)
      (Encode.length_coordinate p.affine.2.im)
    simp only [Encode.natCast_coordinate] at hfinite
    exact hfinite hcurve

/-- A point that is read is in normal form. -/
theorem Spells.normal_eq {bs : Bytes} {p : G2} (h : Spells bs p) : p.normal = p := by
  cases h with
  | atInfinity => exact Point.normal_infinity
  | finite => exact Point.normal_ofAffine _ _

end G2

/-! ### Constraint systems -/

namespace LinearCombination

/-- A reduced combination is written, and read back as it was. -/
theorem Reduced.exists_encode_eq {x : LinearCombination} {n : ℕ} (hx : x.Reduced)
    (hbound : x.boundedBy n = true) (hn : n < 2 ^ 32) :
    ∃ bs, x.encode = .ok bs ∧ x.Spells n bs := by
  have hterm : ∀ t ∈ x.terms, ∃ bs, (do return (← Encode.count t.1) ++ Encode.scalar t.2)
      = (.ok bs : Except EncodeError Bytes) ∧ SpellsTerm n bs (id t) := by
    intro t ht
    have hlt : t.1 < n := boundedBy_iff.mp hbound t ht
    refine ⟨Bytes.ofNat 4 t.1 ++ Encode.scalar t.2, ?_,
      .mk (Spells.uint_ofNat (hlt.trans hn)) hlt (Spells.scalar_encode t.2)⟩
    rw [Spells.count_eq (hlt.trans hn)]
    rfl
  obtain ⟨items, hitems, hspells⟩ := exists_mapM_eq hterm
  have hlength : x.terms.length < 2 ^ 32 := (hx.length_terms_le hbound).trans_lt hn
  rw [List.map_id] at hspells
  refine ⟨Bytes.ofNat 4 x.terms.length ++ items.flatten, ?_, ?_⟩
  · rw [encode, hitems, Spells.count_eq hlength]
    rfl
  · have hsum : Spells n _ (LinearCombination.ofTerms x.terms) :=
      .mk (.mk (Spells.uint_ofNat hlength) ⟨items, rfl, hspells⟩)
    rwa [hx.ofTerms_terms] at hsum

end LinearCombination

/-- All three combinations come from the operations. -/
structure Constraint.Built (k : Constraint) : Prop where
  a : k.a.Built
  b : k.b.Built
  c : k.c.Built

namespace Constraint

open LinearCombination

/-- Only the name is lost. -/
theorem Built.reread_eq {k : Constraint} (hk : k.Built) : k.reread = ⟨k.a, k.b, k.c, ""⟩ := by
  rw [reread, LinearCombination.reread, LinearCombination.reread, LinearCombination.reread,
    (built_iff_reduced.mp hk.a).ofTerms_terms, (built_iff_reduced.mp hk.b).ofTerms_terms,
    (built_iff_reduced.mp hk.c).ofTerms_terms]

theorem Built.exists_encode_eq {k : Constraint} {n : ℕ} (hk : k.Built)
    (hbound : k.boundedBy n = true) (hn : n < 2 ^ 32) :
    ∃ bs, k.encode = .ok bs ∧ k.reread.Spells n bs := by
  simp only [boundedBy, Bool.and_eq_true] at hbound
  obtain ⟨⟨ha, hb⟩, hc⟩ := hbound
  obtain ⟨a, haeq, haspells⟩ := (built_iff_reduced.mp hk.a).exists_encode_eq ha hn
  obtain ⟨b, hbeq, hbspells⟩ := (built_iff_reduced.mp hk.b).exists_encode_eq hb hn
  obtain ⟨c, hceq, hcspells⟩ := (built_iff_reduced.mp hk.c).exists_encode_eq hc hn
  refine ⟨a ++ b ++ c, ?_, ?_⟩
  · rw [encode, haeq, hbeq, hceq]
    rfl
  · rw [hk.reread_eq]
    exact .mk haspells hbspells hcspells

end Constraint

namespace ConstraintSystem

variable {cs : ConstraintSystem}

/-- A system that fits the format. -/
structure Writable (cs : ConstraintSystem) : Prop where
  built : ∀ k ∈ cs.constraints, k.Built
  wellFormed : cs.WellFormed
  numVariables_lt : cs.numVariables < 2 ^ 32
  numConstraints_lt : cs.numConstraints < 2 ^ 32

/-- The system that is read back has the same constraints. -/
theorem Writable.same_reread (hcs : cs.Writable) : cs.same cs.reread = true := by
  have hzip : ∀ l : List Constraint,
      l.zip (l.map Constraint.reread) = l.map fun k => (k, k.reread) := by
    intro l
    induction l with
    | nil => rfl
    | cons k l ih => rw [List.map_cons, List.zip_cons_cons, ih, List.map_cons]
  simp only [same, reread, List.length_map, true_and, decide_eq_true_eq]
  rw [hzip, List.all_map, List.all_eq_true]
  intro k hk
  simp [(hcs.built k hk).reread_eq, Constraint.same]

theorem Writable.exists_encode_eq (hcs : cs.Writable) :
    ∃ bs, cs.encode = .ok bs ∧ cs.reread.Spells bs := by
  obtain ⟨items, hitems, hspells⟩ := exists_mapM_eq fun k hk =>
    (hcs.built k hk).exists_encode_eq (hcs.wellFormed k hk) hcs.numVariables_lt
  have hvariables := hcs.numVariables_lt
  unfold numVariables at hvariables
  have hprimary : cs.primarySize < 2 ^ 32 := by omega
  have hauxiliary : cs.auxiliarySize < 2 ^ 32 := by omega
  refine ⟨Bytes.ofNat 4 cs.primarySize ++ Bytes.ofNat 4 cs.auxiliarySize
    ++ (Bytes.ofNat 4 cs.numConstraints ++ items.flatten), ?_, ?_⟩
  · rw [encode, Spells.count_eq hprimary, Spells.count_eq hauxiliary,
      Spells.count_eq hcs.numConstraints_lt, hitems, ← List.append_assoc]
    rfl
  · refine .mk (Spells.uint_ofNat hprimary) (Spells.uint_ofNat hauxiliary) (.mk ?_ ?_)
    · rw [show cs.reread.constraints.length = cs.numConstraints from numConstraints_reread cs]
      exact Spells.uint_ofNat hcs.numConstraints_lt
    · exact ⟨items, rfl, hspells⟩

/-- Names are not written. -/
theorem Writable.encode_reread (hcs : cs.Writable) : cs.reread.encode = cs.encode := by
  have hconstraints : cs.reread.constraints.mapM Constraint.encode
      = cs.constraints.mapM Constraint.encode := by
    rw [reread, List.mapM_map]
    refine mapM_congr fun k hk => ?_
    rw [Function.comp_apply, (hcs.built k hk).reread_eq]
    rfl
  rw [encode, encode, numConstraints_reread, hconstraints]
  rfl

end ConstraintSystem

/-! ### Artifacts -/

namespace Groth16

open PointGroup

theorem encode_point₁_normal (p : G1) : PointCodec.encode p.normal = PointCodec.encode p :=
  G1.encode_normal p

theorem encode_point₂_normal (q : G2) : PointCodec.encode q.normal = PointCodec.encode q :=
  G2.encode_normal q

theorem counted_normal₁ (ps : List G1) :
    Encode.counted PointCodec.encode (ps.map Point.normal) = Encode.counted PointCodec.encode ps :=
  Spells.encode_counted_map encode_point₁_normal

theorem counted_normal₂ (qs : List G2) :
    Encode.counted PointCodec.encode (qs.map Point.normal) = Encode.counted PointCodec.encode qs :=
  Spells.encode_counted_map encode_point₂_normal

/-- Points of the first curve. -/
theorem spells_points₁ {ps : List G1} (hps : ∀ p ∈ ps, p.OnCurve G1.coefficient)
    (hlt : ps.length < 2 ^ 32) :
    Spells.counted G1.Spells (Bytes.ofNat 4 ps.length ++ ps.flatMap G1.encode)
      (ps.map Point.normal) := Spells.counted_flatMap hlt fun p hp => G1.spells_encode (hps p hp)

/-- Points of the twist. -/
theorem spells_points₂ {qs : List G2} (hqs : ∀ q ∈ qs, q.OnCurve G2.coefficient)
    (hlt : qs.length < 2 ^ 32) :
    Spells.counted G2.Spells (Bytes.ofNat 4 qs.length ++ qs.flatMap G2.encode)
      (qs.map Point.normal) := Spells.counted_flatMap hlt fun q hq => G2.spells_encode (hqs q hq)

namespace Proof

/-- Points of the curves, the one of the twist in the subgroup. -/
structure WellFormed (proof : Proof G1 G2) : Prop where
  a : proof.a.OnCurve G1.coefficient
  b : proof.b.OnCurve G2.coefficient
  c : proof.c.OnCurve G1.coefficient
  order : scalarOrder • proof.b.element G2.coefficient = 0

/-- The proof that is read back. -/
def normal (proof : Proof G1 G2) : Proof G1 G2 :=
  ⟨proof.a.normal, proof.b.normal, proof.c.normal⟩

theorem encode_eq (proof : Proof G1 G2) :
    proof.encode = .ok (Spells.header 3 ++ G1.encode proof.a ++ G2.encode proof.b
      ++ G1.encode proof.c) := rfl

theorem encode_normal (proof : Proof G1 G2) : proof.normal.encode = proof.encode := by
  simp only [encode_eq, normal, G1.encode_normal, G2.encode_normal]

theorem WellFormed.exists_encode_eq {proof : Proof G1 G2} (h : proof.WellFormed) :
    ∃ bs, proof.encode = .ok bs ∧ proof.normal.Spells bs := by
  refine ⟨_, proof.encode_eq, .mk (G1.spells_encode h.a) (G2.spells_encode h.b) ?_
    (G1.spells_encode h.c)⟩
  change scalarOrder • proof.b.normal.element G2.coefficient = 0
  rw [Point.element_normal G2.Δ_ne_zero h.b, h.order]

end Proof

namespace VerificationKey

/-- Points of the curves, and an entry for the constant wire. -/
structure WellFormed (vk : VerificationKey G1 G2) : Prop where
  alpha : vk.alpha.OnCurve G1.coefficient
  beta : vk.beta.OnCurve G2.coefficient
  gamma : vk.gamma.OnCurve G2.coefficient
  delta : vk.delta.OnCurve G2.coefficient
  ic : ∀ p ∈ vk.ic, p.OnCurve G1.coefficient
  ic_ne_nil : vk.ic ≠ []
  ic_lt : vk.ic.length < 2 ^ 32

/-- The key that is read back. -/
def normal (vk : VerificationKey G1 G2) : VerificationKey G1 G2 where
  alpha := vk.alpha.normal
  beta := vk.beta.normal
  gamma := vk.gamma.normal
  delta := vk.delta.normal
  ic := vk.ic.map Point.normal

theorem WellFormed.encode_eq {vk : VerificationKey G1 G2} (h : vk.WellFormed) :
    vk.encode = .ok (Spells.header 2 ++ G1.encode vk.alpha ++ G2.encode vk.beta
      ++ G2.encode vk.gamma ++ G2.encode vk.delta
      ++ (Bytes.ofNat 4 vk.ic.length ++ vk.ic.flatMap G1.encode)) := by
  unfold encode
  rw [Spells.encode_counted_eq _ h.ic_lt]
  rfl

/-- Only the affine coordinates are written. -/
theorem encode_normal (vk : VerificationKey G1 G2) : vk.normal.encode = vk.encode := by
  unfold encode
  simp only [normal, encode_point₁_normal, encode_point₂_normal, counted_normal₁]

theorem WellFormed.exists_encode_eq {vk : VerificationKey G1 G2} (h : vk.WellFormed) :
    ∃ bs, vk.encode = .ok bs ∧ vk.normal.Spells bs :=
  ⟨_, h.encode_eq, .mk (G1.spells_encode h.alpha) (G2.spells_encode h.beta)
    (G2.spells_encode h.gamma) (G2.spells_encode h.delta) (spells_points₁ h.ic h.ic_lt)
    (by simpa [normal] using h.ic_ne_nil)⟩

end VerificationKey

namespace ProvingKey

/-- A writable system with a domain that suffices for it, points of the curves, and lists of the
lengths that the system asks for. -/
structure WellFormed (pk : ProvingKey G1 G2) : Prop where
  system : pk.system.Writable
  domainSize_lt : pk.domainSize < 2 ^ 32
  power : ∃ k, pk.domainSize = 2 ^ k
  numConstraints_le : pk.system.numConstraints ≤ pk.domainSize
  alpha : pk.alpha.OnCurve G1.coefficient
  beta : pk.beta.OnCurve G1.coefficient
  betaTwist : pk.betaTwist.OnCurve G2.coefficient
  delta : pk.delta.OnCurve G1.coefficient
  deltaTwist : pk.deltaTwist.OnCurve G2.coefficient
  aQuery : ∀ p ∈ pk.aQuery, p.OnCurve G1.coefficient
  bQuery : ∀ p ∈ pk.bQuery, p.OnCurve G1.coefficient
  bTwistQuery : ∀ q ∈ pk.bTwistQuery, q.OnCurve G2.coefficient
  hQuery : ∀ p ∈ pk.hQuery, p.OnCurve G1.coefficient
  lQuery : ∀ p ∈ pk.lQuery, p.OnCurve G1.coefficient
  length_aQuery : pk.aQuery.length = pk.system.numVariables
  length_bQuery : pk.bQuery.length = pk.system.numVariables
  length_bTwistQuery : pk.bTwistQuery.length = pk.system.numVariables
  length_hQuery : pk.hQuery.length = pk.domainSize - 1
  length_lQuery : pk.lQuery.length = pk.system.auxiliarySize

/-- The key that is read back. -/
def normal (pk : ProvingKey G1 G2) : ProvingKey G1 G2 where
  system := pk.system.reread
  domainSize := pk.domainSize
  alpha := pk.alpha.normal
  beta := pk.beta.normal
  betaTwist := pk.betaTwist.normal
  delta := pk.delta.normal
  deltaTwist := pk.deltaTwist.normal
  aQuery := pk.aQuery.map Point.normal
  bQuery := pk.bQuery.map Point.normal
  bTwistQuery := pk.bTwistQuery.map Point.normal
  hQuery := pk.hQuery.map Point.normal
  lQuery := pk.lQuery.map Point.normal

/-- Neither names nor coordinates other than the affine ones are written. -/
theorem WellFormed.encode_normal {pk : ProvingKey G1 G2} (h : pk.WellFormed) :
    pk.normal.encode = pk.encode := by
  unfold encode
  simp only [normal, encode_point₁_normal, encode_point₂_normal, counted_normal₁,
    counted_normal₂, h.system.encode_reread]

theorem WellFormed.exists_encode_eq {pk : ProvingKey G1 G2} (h : pk.WellFormed) :
    ∃ bs, pk.encode = .ok bs ∧ pk.normal.Spells bs := by
  obtain ⟨system, hsystem, hspells⟩ := h.system.exists_encode_eq
  have hvariables := h.system.numVariables_lt
  have hdomain := h.domainSize_lt
  have hwires : pk.system.auxiliarySize ≤ pk.system.numVariables := Nat.le_add_left _ _
  have ha : pk.aQuery.length < 2 ^ 32 := h.length_aQuery.trans_lt hvariables
  have hb : pk.bQuery.length < 2 ^ 32 := h.length_bQuery.trans_lt hvariables
  have hbTwist : pk.bTwistQuery.length < 2 ^ 32 := h.length_bTwistQuery.trans_lt hvariables
  have hh : pk.hQuery.length < 2 ^ 32 := h.length_hQuery.trans_lt (by omega)
  have hl : pk.lQuery.length < 2 ^ 32 := h.length_lQuery.trans_lt (by omega)
  refine ⟨_, ?_, .mk hspells (Spells.uint_ofNat hdomain) h.power ?_
    (G1.spells_encode h.alpha) (G1.spells_encode h.beta) (G2.spells_encode h.betaTwist)
    (G1.spells_encode h.delta) (G2.spells_encode h.deltaTwist) (spells_points₁ h.aQuery ha)
    (spells_points₁ h.bQuery hb) (spells_points₂ h.bTwistQuery hbTwist)
    (spells_points₁ h.hQuery hh) (spells_points₁ h.lQuery hl) ?_ ?_ ?_ ?_ ?_⟩
  · unfold encode
    dsimp only
    rw [hsystem, Spells.count_eq hdomain, Spells.encode_counted_eq _ ha,
      Spells.encode_counted_eq _ hb, Spells.encode_counted_eq _ hbTwist,
      Spells.encode_counted_eq _ hh, Spells.encode_counted_eq _ hl]
    simp only [List.append_assoc]
    rfl
  · exact (ConstraintSystem.numConstraints_reread _).trans_le h.numConstraints_le
  · exact (List.length_map _).trans h.length_aQuery
  · exact (List.length_map _).trans h.length_bQuery
  · exact (List.length_map _).trans h.length_bTwistQuery
  · exact (List.length_map _).trans h.length_hQuery
  · exact (List.length_map _).trans h.length_lQuery

end ProvingKey

end Groth16

end MerkleSnark
