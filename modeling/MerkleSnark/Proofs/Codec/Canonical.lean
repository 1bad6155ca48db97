import Mathlib
import MerkleSnark.Proofs.Codec.Acceptance
import MerkleSnark.Proofs.Codec.Writing

/-!
# Canonical strings

A proof or a verification key may be read from several strings: the coordinates of a point at
infinity do not count, and other coordinates count modulo the characteristic.  Of the strings for
one value just one has zeros in the first case and reduced coordinates in the second.  It is the one
that is written.

## Main definitions

* `G1.Canonical`, `G2.Canonical` — the bytes of a point.
* `Proof.Canonical`, `VerificationKey.Canonical` — the bytes of an artifact.

## Main results

* `encode_eq_iff_canonical` — a string is what is written for its value just when it is canonical,
  and every value that was read has one canonical string.
* `decode_sparseBytes` — two strings for one proof.
-/

namespace MerkleSnark

/-! ### Points -/

/-- Four pieces in a row are found by their lengths. -/
theorem append_four_inj {a b c d a' b' c' d' : Bytes} (ha : a.length = a'.length)
    (hb : b.length = b'.length) (hc : c.length = c'.length)
    (h : a ++ b ++ c ++ d = a' ++ b' ++ c' ++ d') : a = a' ∧ b = b' ∧ c = c' ∧ d = d' := by
  simp only [List.append_assoc] at h
  obtain ⟨haeq, h⟩ := List.append_inj h ha
  obtain ⟨hbeq, h⟩ := List.append_inj h hb
  obtain ⟨hceq, hdeq⟩ := List.append_inj h hc
  exact ⟨haeq, hbeq, hceq, hdeq⟩

/-- What is written for a coordinate are the bytes that it was read from, if they spell a number
below the characteristic. -/
theorem Encode.coordinate_eq_iff {bs : Bytes} (hbs : bs.length = 32) :
    Encode.coordinate (bs.toNat : Fq) = bs ↔ bs.toNat < baseOrder := by
  have hval : (Encode.coordinate (bs.toNat : Fq)).toNat = bs.toNat % baseOrder := by
    rw [Encode.toNat_coordinate, Residue.val_natCast]
  constructor
  · intro h
    rw [h] at hval
    rw [hval]
    exact Nat.mod_lt _ (by decide)
  · intro h
    refine Bytes.eq_of_toNat_eq ((Encode.length_coordinate _).trans hbs.symm) ?_
    rw [hval, Nat.mod_eq_of_lt h]

namespace G1

/-- Flag zero and zeros, or flag one and two numbers below the characteristic. -/
inductive Canonical : Bytes → Prop
  | atInfinity : Canonical (infinityFlag :: List.replicate 64 0)
  | finite {x y : Bytes} (hx : x.length = 32) (hy : y.length = 32) (hxlt : x.toNat < baseOrder)
    (hylt : y.toNat < baseOrder) : Canonical (finiteFlag :: (x ++ y))

theorem Canonical.length_eq {bs : Bytes} (h : Canonical bs) : bs.length = 65 := by
  cases h with
  | atInfinity => rfl
  | finite hx hy => simp [hx, hy]

theorem Spells.length_eq {bs : Bytes} {p : G1} (h : Spells bs p) : bs.length = 65 := by
  cases h with
  | atInfinity hx hy => simp [hx, hy]
  | finite hx hy => simp [hx, hy]

theorem length_encode (p : G1) : (encode p).length = 65 := by
  rw [← encode_normal]
  cases h : p.isInfinity with
  | true =>
    rw [Point.normal_of_isInfinity h, encode_infinity]
    rfl
  | false =>
    rw [Point.normal_of_finite h, encode_ofAffine]
    simp [Encode.length_coordinate]

/-- **The bytes of a point are what is written for it just when they are canonical.** -/
theorem Spells.encode_eq_iff {bs : Bytes} {p : G1} (h : Spells bs p) :
    encode p = bs ↔ Canonical bs := by
  cases h with
  | @atInfinity x y hx hy =>
    rw [encode_infinity]
    constructor
    · intro heq
      rw [← heq]
      exact .atInfinity
    · intro hcanonical
      generalize hbs : infinityFlag :: (x ++ y) = bs at hcanonical
      cases hcanonical with
      | atInfinity => rfl
      | finite => exact absurd (List.cons.inj hbs).1 (by decide)
  | @finite x y hx hy hcurve =>
    rw [encode_ofAffine]
    constructor
    · intro heq
      obtain ⟨hxeq, hyeq⟩ := List.append_inj (List.cons.inj heq).2
        ((Encode.length_coordinate _).trans hx.symm)
      exact .finite hx hy ((Encode.coordinate_eq_iff hx).mp hxeq)
        ((Encode.coordinate_eq_iff hy).mp hyeq)
    · intro hcanonical
      generalize hbs : finiteFlag :: (x ++ y) = bs at hcanonical
      cases hcanonical with
      | atInfinity => exact absurd (List.cons.inj hbs).1 (by decide)
      | finite hx' hy' hxlt hylt =>
        obtain ⟨rfl, rfl⟩ := List.append_inj (List.cons.inj hbs).2 (hx.trans hx'.symm)
        rw [(Encode.coordinate_eq_iff hx).mpr hxlt, (Encode.coordinate_eq_iff hy).mpr hylt]

end G1

namespace G2

/-- Flag zero and zeros, or flag one and four numbers below the characteristic. -/
inductive Canonical : Bytes → Prop
  | atInfinity : Canonical (infinityFlag :: List.replicate 128 0)
  | finite {xRe xIm yRe yIm : Bytes} (hxRe : xRe.length = 32) (hxIm : xIm.length = 32)
    (hyRe : yRe.length = 32) (hyIm : yIm.length = 32) (hxRelt : xRe.toNat < baseOrder)
    (hxImlt : xIm.toNat < baseOrder) (hyRelt : yRe.toNat < baseOrder)
    (hyImlt : yIm.toNat < baseOrder) :
    Canonical (finiteFlag :: (xRe ++ xIm ++ yRe ++ yIm))

theorem Canonical.length_eq {bs : Bytes} (h : Canonical bs) : bs.length = 129 := by
  cases h with
  | atInfinity => rfl
  | finite hxRe hxIm hyRe hyIm => simp [hxRe, hxIm, hyRe, hyIm]

theorem Spells.length_eq {bs : Bytes} {p : G2} (h : Spells bs p) : bs.length = 129 := by
  cases h with
  | atInfinity hxRe hxIm hyRe hyIm => simp [hxRe, hxIm, hyRe, hyIm]
  | finite hxRe hxIm hyRe hyIm => simp [hxRe, hxIm, hyRe, hyIm]

theorem length_encode (p : G2) : (encode p).length = 129 := by
  rw [← encode_normal]
  cases h : p.isInfinity with
  | true =>
    rw [Point.normal_of_isInfinity h, encode_infinity]
    rfl
  | false =>
    rw [Point.normal_of_finite h, encode_ofAffine]
    simp [Encode.length_coordinate]

/-- **The bytes of a point are what is written for it just when they are canonical.** -/
theorem Spells.encode_eq_iff {bs : Bytes} {p : G2} (h : Spells bs p) :
    encode p = bs ↔ Canonical bs := by
  cases h with
  | @atInfinity xRe xIm yRe yIm hxRe hxIm hyRe hyIm =>
    rw [encode_infinity]
    constructor
    · intro heq
      rw [← heq]
      exact .atInfinity
    · intro hcanonical
      generalize hbs : infinityFlag :: (xRe ++ xIm ++ yRe ++ yIm) = bs at hcanonical
      cases hcanonical with
      | atInfinity => rfl
      | finite => exact absurd (List.cons.inj hbs).1 (by decide)
  | @finite xRe xIm yRe yIm hxRe hxIm hyRe hyIm hcurve =>
    rw [encode_ofAffine]
    constructor
    · intro heq
      obtain ⟨hxReeq, hxImeq, hyReeq, hyImeq⟩ := append_four_inj
        ((Encode.length_coordinate _).trans hxRe.symm) ((Encode.length_coordinate _).trans hxIm.symm)
        ((Encode.length_coordinate _).trans hyRe.symm) (List.cons.inj heq).2
      exact .finite hxRe hxIm hyRe hyIm ((Encode.coordinate_eq_iff hxRe).mp hxReeq)
        ((Encode.coordinate_eq_iff hxIm).mp hxImeq) ((Encode.coordinate_eq_iff hyRe).mp hyReeq)
        ((Encode.coordinate_eq_iff hyIm).mp hyImeq)
    · intro hcanonical
      generalize hbs : finiteFlag :: (xRe ++ xIm ++ yRe ++ yIm) = bs at hcanonical
      cases hcanonical with
      | atInfinity => exact absurd (List.cons.inj hbs).1 (by decide)
      | finite hxRe' hxIm' hyRe' hyIm' hxRelt hxImlt hyRelt hyImlt =>
        obtain ⟨rfl, rfl, rfl, rfl⟩ := append_four_inj (hxRe.trans hxRe'.symm)
          (hxIm.trans hxIm'.symm) (hyRe.trans hyRe'.symm) (List.cons.inj hbs).2
        rw [(Encode.coordinate_eq_iff hxRe).mpr hxRelt, (Encode.coordinate_eq_iff hxIm).mpr hxImlt,
          (Encode.coordinate_eq_iff hyRe).mpr hyRelt, (Encode.coordinate_eq_iff hyIm).mpr hyImlt]

end G2

/-! ### Lists of points -/

/-- Pieces of one length are found in the string that they make up. -/
theorem flatten_inj {n : ℕ} (hn : 0 < n) {bss css : List Bytes} (hbss : ∀ bs ∈ bss, bs.length = n)
    (hcss : ∀ cs ∈ css, cs.length = n) (h : bss.flatten = css.flatten) : bss = css := by
  induction bss generalizing css with
  | nil =>
    cases css with
    | nil => rfl
    | cons cs css =>
      have hlength := congrArg List.length h
      rw [List.flatten_cons, List.length_append, hcss cs List.mem_cons_self] at hlength
      simp at hlength
      omega
  | cons bs bss ih =>
    cases css with
    | nil =>
      have hlength := congrArg List.length h
      rw [List.flatten_cons, List.length_append, hbss bs List.mem_cons_self] at hlength
      simp at hlength
      omega
    | cons cs css =>
      rw [List.flatten_cons, List.flatten_cons] at h
      obtain ⟨rfl, hrest⟩ := List.append_inj h
        ((hbss bs List.mem_cons_self).trans (hcss cs List.mem_cons_self).symm)
      rw [ih (fun b hb => hbss b (List.mem_cons_of_mem _ hb))
        (fun c hc => hcss c (List.mem_cons_of_mem _ hc)) hrest]

/-- A list of points is what is written for it when every point is. -/
theorem G1.flatMap_encode_eq_iff {bss : List Bytes} {ps : List G1}
    (h : List.Forall₂ G1.Spells bss ps) :
    ps.flatMap G1.encode = bss.flatten ↔ ∀ bs ∈ bss, G1.Canonical bs := by
  induction h with
  | nil => simp
  | @cons bs p bss ps hp _ ih =>
    rw [List.flatMap_cons, List.flatten_cons, List.forall_mem_cons, ← hp.encode_eq_iff, ← ih]
    constructor
    · intro heq
      exact List.append_inj heq ((G1.length_encode p).trans hp.length_eq.symm)
    · rintro ⟨hhead, htail⟩
      rw [hhead, htail]

/-! ### Artifacts -/

namespace Groth16

/-- Three canonical points behind the header. -/
inductive Proof.Canonical : Bytes → Prop
  | mk {a b c : Bytes} (ha : G1.Canonical a) (hb : G2.Canonical b) (hc : G1.Canonical c) :
    Canonical (Spells.header 3 ++ a ++ b ++ c)

/-- Canonical points behind the header, the last of them counted. -/
inductive VerificationKey.Canonical : Bytes → Prop
  | mk {alpha beta gamma delta count : Bytes} {ic : List Bytes} (halpha : G1.Canonical alpha)
    (hbeta : G2.Canonical beta) (hgamma : G2.Canonical gamma) (hdelta : G2.Canonical delta)
    (hcount : count.length = 4) (hic : ∀ bs ∈ ic, G1.Canonical bs) :
    Canonical (Spells.header 2 ++ alpha ++ beta ++ gamma ++ delta ++ (count ++ ic.flatten))

namespace Proof

/-- A proof that was read can be written. -/
theorem Spells.wellFormed {bs : Bytes} {proof : Proof G1 G2} (h : proof.Spells bs) :
    proof.WellFormed := by
  obtain ⟨ha, hb, horder, hc⟩ := h
  exact ⟨ha.onCurve, hb.onCurve, hc.onCurve, horder⟩

theorem Spells.normal_eq {bs : Bytes} {proof : Proof G1 G2} (h : proof.Spells bs) :
    proof.normal = proof := by
  obtain ⟨ha, hb, -, hc⟩ := h
  rw [normal, ha.normal_eq, hb.normal_eq, hc.normal_eq]

theorem Spells.encode_eq_iff {bs : Bytes} {proof : Proof G1 G2} (h : proof.Spells bs) :
    proof.encode = .ok bs ↔ Canonical bs := by
  obtain ⟨ha, hb, -, hc⟩ := h
  rw [encode_eq, Except.ok.injEq]
  constructor
  · intro heq
    obtain ⟨-, haeq, hbeq, hceq⟩ := append_four_inj rfl
      ((G1.length_encode _).trans ha.length_eq.symm)
      ((G2.length_encode _).trans hb.length_eq.symm) heq
    exact .mk (ha.encode_eq_iff.mp haeq) (hb.encode_eq_iff.mp hbeq) (hc.encode_eq_iff.mp hceq)
  · intro hcanonical
    generalize hbs : Spells.header 3 ++ _ ++ _ ++ _ = bs at hcanonical
    obtain ⟨ha', hb', hc'⟩ := hcanonical
    obtain ⟨-, rfl, rfl, rfl⟩ := append_four_inj rfl (ha.length_eq.trans ha'.length_eq.symm)
      (hb.length_eq.trans hb'.length_eq.symm) hbs
    rw [ha.encode_eq_iff.mpr ha', hb.encode_eq_iff.mpr hb', hc.encode_eq_iff.mpr hc']

end Proof

namespace VerificationKey

/-- A key that was read can be written. -/
theorem Spells.wellFormed {bs : Bytes} {vk : VerificationKey G1 G2} (h : vk.Spells bs) :
    vk.WellFormed := by
  obtain ⟨halpha, hbeta, hgamma, hdelta, hic, hne⟩ := h
  exact ⟨halpha.onCurve, hbeta.onCurve, hgamma.onCurve, hdelta.onCurve,
    hic.forall_mem fun _ _ => G1.Spells.onCurve, hne, hic.length_lt⟩

theorem Spells.normal_eq {bs : Bytes} {vk : VerificationKey G1 G2} (h : vk.Spells bs) :
    vk.normal = vk := by
  obtain ⟨halpha, hbeta, hgamma, hdelta, hic, -⟩ := h
  have hmap : vk.ic.map Point.normal = vk.ic :=
    (List.map_congr_left (hic.forall_mem fun _ _ => G1.Spells.normal_eq)).trans (List.map_id _)
  rw [normal, halpha.normal_eq, hbeta.normal_eq, hgamma.normal_eq, hdelta.normal_eq, hmap]

/-- The pieces of a key are found by their lengths. -/
theorem pieces_inj {alpha beta gamma delta count items : Bytes}
    {alpha' beta' gamma' delta' count' items' : Bytes}
    (halpha : alpha.length = alpha'.length) (hbeta : beta.length = beta'.length)
    (hgamma : gamma.length = gamma'.length) (hdelta : delta.length = delta'.length)
    (hcount : count.length = count'.length)
    (h : Spells.header 2 ++ alpha ++ beta ++ gamma ++ delta ++ (count ++ items)
      = Spells.header 2 ++ alpha' ++ beta' ++ gamma' ++ delta' ++ (count' ++ items')) :
    alpha = alpha' ∧ beta = beta' ∧ gamma = gamma' ∧ delta = delta' ∧ count = count'
      ∧ items = items' := by
  rw [← List.append_assoc, ← List.append_assoc] at h
  obtain ⟨h, hdeltaeq, hcounteq, hitemseq⟩ :=
    append_four_inj (by simp [halpha, hbeta, hgamma]) hdelta hcount h
  obtain ⟨-, halphaeq, hbetaeq, hgammaeq⟩ := append_four_inj rfl halpha hbeta h
  exact ⟨halphaeq, hbetaeq, hgammaeq, hdeltaeq, hcounteq, hitemseq⟩

theorem Spells.encode_eq_iff {bs : Bytes} {vk : VerificationKey G1 G2} (h : vk.Spells bs) :
    vk.encode = .ok bs ↔ Canonical bs := by
  have hencode := h.wellFormed.encode_eq
  obtain ⟨halpha, hbeta, hgamma, hdelta, @⟨count, items, _, ⟨hcountlen, hcount⟩, bss, rfl, hitems⟩,
    -⟩ := h
  have hlengths : ∀ bs ∈ bss, bs.length = 65 :=
    forall_mem_of_forall₂ hitems fun _ _ => G1.Spells.length_eq
  have hcounteq : Bytes.ofNat 4 vk.ic.length = count := by
    rw [← hcountlen, ← hcount, Bytes.ofNat_toNat]
  rw [hencode, Except.ok.injEq]
  constructor
  · intro heq
    obtain ⟨halphaeq, hbetaeq, hgammaeq, hdeltaeq, -, hiceq⟩ := pieces_inj
      ((G1.length_encode _).trans halpha.length_eq.symm)
      ((G2.length_encode _).trans hbeta.length_eq.symm)
      ((G2.length_encode _).trans hgamma.length_eq.symm)
      ((G2.length_encode _).trans hdelta.length_eq.symm) (congrArg List.length hcounteq) heq
    exact .mk (halpha.encode_eq_iff.mp halphaeq) (hbeta.encode_eq_iff.mp hbetaeq)
      (hgamma.encode_eq_iff.mp hgammaeq) (hdelta.encode_eq_iff.mp hdeltaeq) hcountlen
      ((G1.flatMap_encode_eq_iff hitems).mp hiceq)
  · intro hcanonical
    generalize hbs : Spells.header 2 ++ _ ++ _ ++ _ ++ _ ++ _ = bs at hcanonical
    obtain ⟨halpha', hbeta', hgamma', hdelta', hcount', hic'⟩ := hcanonical
    obtain ⟨rfl, rfl, rfl, rfl, rfl, hflatten⟩ := pieces_inj
      (halpha.length_eq.trans halpha'.length_eq.symm) (hbeta.length_eq.trans hbeta'.length_eq.symm)
      (hgamma.length_eq.trans hgamma'.length_eq.symm)
      (hdelta.length_eq.trans hdelta'.length_eq.symm) (hcountlen.trans hcount'.symm) hbs
    obtain rfl := flatten_inj (by decide) hlengths (fun bs hbs => (hic' bs hbs).length_eq) hflatten
    rw [halpha.encode_eq_iff.mpr halpha', hbeta.encode_eq_iff.mpr hbeta',
      hgamma.encode_eq_iff.mpr hgamma', hdelta.encode_eq_iff.mpr hdelta', hcounteq,
      (G1.flatMap_encode_eq_iff hitems).mpr hic']

end VerificationKey

/-- Where a value that is read from what is written for it is written in just the canonical way, it
has one canonical string. -/
theorem existsUnique_canonical {α : Type} {S : Bytes → α → Prop} {C : Bytes → Prop}
    {encode : α → Except EncodeError Bytes} {v : α} {cs : Bytes} (hencode : encode v = .ok cs)
    (hcs : S cs v) (hiff : ∀ ds, S ds v → (encode v = .ok ds ↔ C ds)) : ∃! cs, C cs ∧ S cs v := by
  refine ⟨cs, ⟨(hiff cs hcs).mp hencode, hcs⟩, ?_⟩
  rintro ds ⟨hcanonical, hds⟩
  have hwritten := (hiff ds hds).mpr hcanonical
  rw [hencode] at hwritten
  exact (Except.ok.inj hwritten).symm

theorem Proof.Spells.existsUnique {bs : Bytes} {proof : Proof G1 G2} (h : proof.Spells bs) :
    ∃! cs, Canonical cs ∧ proof.Spells cs := by
  obtain ⟨cs, hencode, hspells⟩ := h.wellFormed.exists_encode_eq
  rw [h.normal_eq] at hspells
  exact existsUnique_canonical hencode hspells fun _ => Spells.encode_eq_iff

theorem VerificationKey.Spells.existsUnique {bs : Bytes} {vk : VerificationKey G1 G2}
    (h : vk.Spells bs) : ∃! cs, Canonical cs ∧ vk.Spells cs := by
  obtain ⟨cs, hencode, hspells⟩ := h.wellFormed.exists_encode_eq
  rw [h.normal_eq] at hspells
  exact existsUnique_canonical hencode hspells fun _ => Spells.encode_eq_iff

/-! ### Strings for one proof -/

/-- The bytes of a proof: the generator with `m` times the characteristic added to both coordinates,
and two points at infinity, with the byte `b` for the coordinates of the second. -/
def sparseBytes (m : ℕ) (b : UInt8) : Bytes :=
  Spells.header 3
    ++ finiteFlag :: (Bytes.ofNat 32 (1 + m * baseOrder) ++ Bytes.ofNat 32 (2 + m * baseOrder))
    ++ infinityFlag :: List.replicate 128 0
    ++ infinityFlag :: List.replicate 64 b

/-- The generator and two points at infinity. -/
def sparseProof : Proof G1 G2 := ⟨G1.base, .infinity, .infinity⟩

theorem spells_base {m : ℕ} (hm : 2 + m * baseOrder < 256 ^ 32) :
    G1.Spells (finiteFlag :: (Bytes.ofNat 32 (1 + m * baseOrder)
      ++ Bytes.ofNat 32 (2 + m * baseOrder))) G1.base := by
  have hx : ((Bytes.ofNat 32 (1 + m * baseOrder)).toNat : Fq) = (1 : ℕ) := by
    rw [Bytes.toNat_ofNat, Nat.mod_eq_of_lt (by omega), Residue.natCast_eq_natCast_iff,
      Nat.add_mul_mod_self_right]
  have hy : ((Bytes.ofNat 32 (2 + m * baseOrder)).toNat : Fq) = (2 : ℕ) := by
    rw [Bytes.toNat_ofNat, Nat.mod_eq_of_lt hm, Residue.natCast_eq_natCast_iff,
      Nat.add_mul_mod_self_right]
  have hspells := G1.Spells.finite (Bytes.length_ofNat 32 (1 + m * baseOrder))
    (Bytes.length_ofNat 32 (2 + m * baseOrder))
  rw [hx, hy] at hspells
  exact hspells G1.onCurve_base

/-- All of these strings are read as one proof. -/
theorem spells_sparseBytes {m : ℕ} (hm : 2 + m * baseOrder < 256 ^ 32) (b : UInt8) :
    sparseProof.Spells (sparseBytes m b) := by
  refine .mk (spells_base hm) (G2.spells_infinity 0) ?_ (G1.spells_infinity b)
  change scalarOrder • (Point.infinity : G2).element G2.coefficient = 0
  rw [Point.element_infinity, smul_zero]

/-- **Just the canonical strings are what is written for their values**, and every proof and every
verification key that was read has one canonical string. -/
theorem encode_eq_iff_canonical (bs : Bytes) :
    (∀ proof : Proof G1 G2, Proof.decode bs = .ok proof →
      (proof.encode = .ok bs ↔ Proof.Canonical bs)
        ∧ ∃! cs, Proof.Canonical cs ∧ Proof.decode cs = .ok proof)
    ∧ ∀ vk : VerificationKey G1 G2, VerificationKey.decode bs = .ok vk →
      (vk.encode = .ok bs ↔ VerificationKey.Canonical bs)
        ∧ ∃! cs, VerificationKey.Canonical cs ∧ VerificationKey.decode cs = .ok vk := by
  simp only [Proof.decode_eq_ok_iff, VerificationKey.decode_eq_ok_iff]
  exact ⟨fun _ h => ⟨h.encode_eq_iff, h.existsUnique⟩,
    fun _ h => ⟨h.encode_eq_iff, h.existsUnique⟩⟩

theorem encode_eq_iff_canonical_sparse :
    Proof.decode (sparseBytes 1 1) = .ok sparseProof
      ∧ (sparseProof.encode = .ok (sparseBytes 1 1) ↔ Proof.Canonical (sparseBytes 1 1))
      ∧ ∃! cs, Proof.Canonical cs ∧ Proof.decode cs = .ok sparseProof :=
  have hdecode := Proof.decode_eq_ok_iff.mpr
    (spells_sparseBytes (show 2 + 1 * baseOrder < 256 ^ 32 by decide) 1)
  ⟨hdecode, (encode_eq_iff_canonical (sparseBytes 1 1)).1 sparseProof hdecode⟩

/-- **Two strings for one proof.**  The first is not what is written for the proof that it is read
as; the second is. -/
theorem decode_sparseBytes : Proof.decode (sparseBytes 1 1) = .ok sparseProof
    ∧ sparseProof.encode ≠ .ok (sparseBytes 1 1)
    ∧ Proof.decode (sparseBytes 0 0) = .ok sparseProof ∧ sparseBytes 0 0 ≠ sparseBytes 1 1 := by
  have hlax := spells_sparseBytes (show 2 + 1 * baseOrder < 256 ^ 32 by decide) 1
  have hstrict := spells_sparseBytes (show 2 + 0 * baseOrder < 256 ^ 32 by decide) 0
  have hne : sparseBytes 0 0 ≠ sparseBytes 1 1 := by decide
  have hfirst := G1.Canonical.finite (Bytes.length_ofNat 32 (1 + 0 * baseOrder))
    (Bytes.length_ofNat 32 (2 + 0 * baseOrder)) (by decide) (by decide)
  have hencode : sparseProof.encode = .ok (sparseBytes 0 0) :=
    hstrict.encode_eq_iff.mpr (.mk hfirst .atInfinity .atInfinity)
  refine ⟨Proof.decode_eq_ok_iff.mpr hlax, ?_, Proof.decode_eq_ok_iff.mpr hstrict, hne⟩
  rw [hencode]
  exact fun h => hne (Except.ok.inj h)

end Groth16

end MerkleSnark
