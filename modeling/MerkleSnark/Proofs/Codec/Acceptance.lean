import Mathlib
import MerkleSnark.Proofs.Codec.Key
import MerkleSnark.Proofs.Codec.Recognizer

/-!
# The readers of the artifacts accept their formats

Every reader accepts just the bytes that its format allows, whatever the counts in them say, and
refuses all others with a failure that is about the bytes.

## Main results

* `G1.recognizes_decode`, `G2.recognizes_decode` — points.
* `ConstraintSystem.recognizes_decode` — systems.
* `ProvingKey.decode_eq_ok_iff`, `VerificationKey.decode_eq_ok_iff`, `Proof.decode_eq_ok_iff` — the
  artifacts.
-/

namespace MerkleSnark

open Decoder

/-! ### Points -/

namespace Decoder

variable {s s' : ByteReader}

theorem recognizes_flag : Recognizes flag (fun bs f => bs = [f]) where
  reads := by
    rintro _ f rfl
    exact (reads_bytes [f]).map fun bs => bs.getD 0 0
  spelled := by
    intro s s' f h
    obtain ⟨bs, chunk, t, ⟨hlength, rfl⟩, hrest, h⟩ := (recognizes_bytes 1).spelled_bind h
    obtain ⟨rfl, rfl⟩ := eq_of_run_pure h
    obtain ⟨f, rfl⟩ := List.length_eq_one_iff.mp hlength
    exact ⟨[f], rfl, hrest⟩

theorem recognizes_coordinate :
    Recognizes coordinate (fun bs x => bs.length = 32 ∧ (bs.toNat : Fq) = x) where
  reads := by
    rintro bs _ ⟨hlength, rfl⟩
    exact ((recognizes_uint 32).reads ⟨hlength, rfl⟩).map (Residue.ofNat baseOrder)
  spelled := by
    intro s s' x h
    obtain ⟨bs, n, t, ⟨hlength, rfl⟩, hrest, h⟩ := (recognizes_uint 32).spelled_bind h
    obtain ⟨rfl, rfl⟩ := eq_of_run_pure h
    exact ⟨bs, ⟨hlength, rfl⟩, hrest⟩

theorem reads_coordinate {bs : Bytes} (hbs : bs.length = 32) :
    Reads coordinate bs (bs.toNat : Fq) := recognizes_coordinate.reads ⟨hbs, rfl⟩

/-- What the two flags say; no other one is accepted. -/
theorem eq_of_run_finite {f : UInt8} {isFinite : Bool}
    (h : ExceptT.run (finite f) s = (.ok isFinite, s')) :
    s = s' ∧ (f = infinityFlag ∧ isFinite = false ∨ f = finiteFlag ∧ isFinite = true) := by
  unfold finite at h
  split at h
  · next hf =>
    obtain ⟨rfl, rfl⟩ := eq_of_run_pure h
    exact ⟨rfl, Or.inl ⟨hf, rfl⟩⟩
  · split at h
    · next hf =>
      obtain ⟨rfl, rfl⟩ := eq_of_run_pure h
      exact ⟨rfl, Or.inr ⟨hf, rfl⟩⟩
    · exact absurd h (run_throw_ne_ok _)

theorem proper_flag : Proper flag := (Proper.bytes 1).bind fun _ => .pure _

theorem proper_coordinate : Proper coordinate := (Proper.uint 32).bind fun _ => .pure _

theorem proper_finite (f : UInt8) : Proper (finite f) :=
  .ite (.pure _) (.ite (.pure _) (.throw nofun))

theorem reads_finite_infinityFlag : Reads (finite infinityFlag) [] false := .pure false

theorem reads_finite_finiteFlag : Reads (finite finiteFlag) [] true := .pure true

end Decoder

namespace G1

theorem recognizes_decode : Recognizes decode Spells where
  reads := by
    rintro _ _ (⟨hx, hy⟩ | ⟨hx, hy, hcurve⟩)
    · refine (recognizes_flag.reads rfl).bind ((reads_coordinate hx).bind ?_)
      exact (reads_coordinate hy).last (reads_finite_infinityFlag.last (.pure _))
    · refine (recognizes_flag.reads rfl).bind ((reads_coordinate hx).bind ?_)
      refine (reads_coordinate hy).last (reads_finite_finiteFlag.last ?_)
      rw [if_pos rfl, if_pos hcurve]
      exact .pure _
  spelled := by
    intro s s' p h
    obtain ⟨_, f, s₁, rfl, hrest₁, h⟩ := recognizes_flag.spelled_bind h
    obtain ⟨x, _, s₂, ⟨hx, rfl⟩, hrest₂, h⟩ := recognizes_coordinate.spelled_bind h
    obtain ⟨y, _, s₃, ⟨hy, rfl⟩, hrest₃, h⟩ := recognizes_coordinate.spelled_bind h
    have hrest : s.rest = f :: (x ++ y) ++ s₃.rest := by
      rw [hrest₁, hrest₂, hrest₃]
      simp only [List.cons_append, List.nil_append, List.append_assoc]
    obtain ⟨isFinite, s₄, hfinite, h⟩ := exists_of_run_bind_eq_ok h
    obtain ⟨rfl, ⟨rfl, rfl⟩ | ⟨rfl, rfl⟩⟩ := eq_of_run_finite hfinite
    · obtain ⟨rfl, rfl⟩ := eq_of_run_pure h
      exact ⟨_, .atInfinity hx hy, hrest⟩
    · rw [if_pos rfl] at h
      dsimp only at h
      split at h
      · next hcurve =>
        obtain ⟨rfl, rfl⟩ := eq_of_run_pure h
        exact ⟨_, .finite hx hy hcurve, hrest⟩
      · exact absurd h (run_throw_ne_ok _)

end G1

namespace G2

theorem recognizes_decode : Recognizes decode Spells where
  reads := by
    rintro _ _ (⟨hxRe, hxIm, hyRe, hyIm⟩ | ⟨hxRe, hxIm, hyRe, hyIm, hcurve⟩)
    · rw [List.append_assoc, List.append_assoc]
      refine (recognizes_flag.reads rfl).bind ((reads_coordinate hxRe).bind ?_)
      refine (reads_coordinate hxIm).bind ((reads_coordinate hyRe).bind ?_)
      exact (reads_coordinate hyIm).last (reads_finite_infinityFlag.last (.pure _))
    · rw [List.append_assoc, List.append_assoc]
      refine (recognizes_flag.reads rfl).bind ((reads_coordinate hxRe).bind ?_)
      refine (reads_coordinate hxIm).bind ((reads_coordinate hyRe).bind ?_)
      refine (reads_coordinate hyIm).last (reads_finite_finiteFlag.last ?_)
      rw [if_pos rfl, if_pos hcurve]
      exact .pure _
  spelled := by
    intro s s' p h
    obtain ⟨_, f, s₁, rfl, hrest₁, h⟩ := recognizes_flag.spelled_bind h
    obtain ⟨xRe, _, s₂, ⟨hxRe, rfl⟩, hrest₂, h⟩ := recognizes_coordinate.spelled_bind h
    obtain ⟨xIm, _, s₃, ⟨hxIm, rfl⟩, hrest₃, h⟩ := recognizes_coordinate.spelled_bind h
    obtain ⟨yRe, _, s₄, ⟨hyRe, rfl⟩, hrest₄, h⟩ := recognizes_coordinate.spelled_bind h
    obtain ⟨yIm, _, s₅, ⟨hyIm, rfl⟩, hrest₅, h⟩ := recognizes_coordinate.spelled_bind h
    have hrest : s.rest = f :: (xRe ++ xIm ++ yRe ++ yIm) ++ s₅.rest := by
      rw [hrest₁, hrest₂, hrest₃, hrest₄, hrest₅]
      simp only [List.cons_append, List.nil_append, List.append_assoc]
    obtain ⟨isFinite, s₆, hfinite, h⟩ := exists_of_run_bind_eq_ok h
    obtain ⟨rfl, ⟨rfl, rfl⟩ | ⟨rfl, rfl⟩⟩ := eq_of_run_finite hfinite
    · obtain ⟨rfl, rfl⟩ := eq_of_run_pure h
      exact ⟨_, .atInfinity hxRe hxIm hyRe hyIm, hrest⟩
    · rw [if_pos rfl] at h
      dsimp only at h
      split at h
      · next hcurve =>
        obtain ⟨rfl, rfl⟩ := eq_of_run_pure h
        exact ⟨_, .finite hxRe hxIm hyRe hyIm hcurve, hrest⟩
      · exact absurd h (run_throw_ne_ok _)

end G2

/-! ### Constraint systems -/

namespace LinearCombination

theorem recognizes_decodeTerm (n : ℕ) : Recognizes (decodeTerm n) (SpellsTerm n) where
  reads := by
    rintro _ ⟨wire, c⟩ ⟨hwire, hlt, hcoefficient⟩
    refine ((recognizes_uint 4).reads hwire).bind ?_
    rw [if_neg (not_le.mpr hlt)]
    exact (recognizes_scalar.reads hcoefficient).map fun c => (wire, c)
  spelled := by
    intro s s' t h
    obtain ⟨front, wire, s₁, hwire, hrest, h⟩ := (recognizes_uint 4).spelled_bind h
    dsimp only at h
    split at h
    · exact absurd h (run_throw_bind_ne_ok _)
    · next hlt =>
      obtain ⟨back, c, s₂, hc, hback, h⟩ := recognizes_scalar.spelled_bind h
      obtain ⟨rfl, rfl⟩ := eq_of_run_pure h
      refine ⟨front ++ back, .mk hwire (not_le.mp hlt) hc, ?_⟩
      rw [hrest, hback, List.append_assoc]

theorem recognizes_decode (n : ℕ) : Recognizes (decode n) (Spells n) where
  reads := by
    rintro _ _ ⟨h⟩
    exact ((recognizes_counted (recognizes_decodeTerm n)).reads h).map ofTerms
  spelled := by
    intro s s' x h
    obtain ⟨bs, terms, t, hterms, hrest, h⟩ :=
      (recognizes_counted (recognizes_decodeTerm n)).spelled_bind h
    obtain ⟨rfl, rfl⟩ := eq_of_run_pure h
    exact ⟨bs, .mk hterms, hrest⟩

end LinearCombination

theorem Constraint.recognizes_decode (n : ℕ) : Recognizes (Constraint.decode n) (Spells n) where
  reads := by
    rintro _ _ ⟨ha, hb, hc⟩
    rw [List.append_assoc]
    refine ((LinearCombination.recognizes_decode n).reads ha).bind ?_
    refine ((LinearCombination.recognizes_decode n).reads hb).bind ?_
    exact ((LinearCombination.recognizes_decode n).reads hc).map _
  spelled := by
    intro s s' k h
    obtain ⟨a, x, s₁, hx, hrest₁, h⟩ := (LinearCombination.recognizes_decode n).spelled_bind h
    obtain ⟨b, y, s₂, hy, hrest₂, h⟩ := (LinearCombination.recognizes_decode n).spelled_bind h
    obtain ⟨c, z, s₃, hz, hrest₃, h⟩ := (LinearCombination.recognizes_decode n).spelled_bind h
    obtain ⟨rfl, rfl⟩ := eq_of_run_pure h
    refine ⟨a ++ b ++ c, .mk hx hy hz, ?_⟩
    rw [hrest₁, hrest₂, hrest₃, List.append_assoc, List.append_assoc]

theorem ConstraintSystem.recognizes_decode : Recognizes ConstraintSystem.decode Spells where
  reads := by
    rintro _ ⟨primarySize, auxiliarySize, constraints⟩ ⟨hprimary, hauxiliary, hconstraints⟩
    rw [List.append_assoc]
    refine ((recognizes_uint 4).reads hprimary).bind ?_
    refine ((recognizes_uint 4).reads hauxiliary).bind ?_
    exact ((recognizes_counted (Constraint.recognizes_decode _)).reads hconstraints).map _
  spelled := by
    intro s s' cs h
    obtain ⟨primary, l, s₁, hprimary, hrest₁, h⟩ := (recognizes_uint 4).spelled_bind h
    obtain ⟨auxiliary, m, s₂, hauxiliary, hrest₂, h⟩ := (recognizes_uint 4).spelled_bind h
    obtain ⟨constraints, ks, s₃, hks, hrest₃, h⟩ :=
      (recognizes_counted (Constraint.recognizes_decode (1 + l + m))).spelled_bind h
    obtain ⟨rfl, rfl⟩ := eq_of_run_pure h
    refine ⟨primary ++ auxiliary ++ constraints, .mk hprimary hauxiliary hks, ?_⟩
    rw [hrest₁, hrest₂, hrest₃, List.append_assoc, List.append_assoc]

/-! ### Artifacts -/

namespace Groth16

theorem rest_eq_nil_of_run_atEnd {s s' : ByteReader} {u : Unit}
    (h : ExceptT.run atEnd s = (.ok u, s')) : s.rest = [] ∧ s = s' := by
  change ExceptT.run (if s.rest.isEmpty then _ else _ : Decoder Unit) s = _ at h
  split at h
  · next hempty =>
    obtain ⟨-, rfl⟩ := eq_of_run_pure h
    exact ⟨List.isEmpty_iff.mp hempty, rfl⟩
  · exact absurd h (run_throw_ne_ok _)

theorem recognizes_subgroupPoint : Recognizes (subgroupPoint : Decoder G2)
    (fun bs q => G2.Spells bs q ∧ scalarOrder • q.element G2.coefficient = 0) where
  reads := by
    rintro bs q ⟨hq, horder⟩
    refine (G2.recognizes_decode.reads hq).last ?_
    rw [if_pos ((G2.inSubgroup_iff hq.onCurve).mpr horder)]
    exact .pure q
  spelled := by
    intro s s' q h
    obtain ⟨bs, q, t, hq, hrest, h⟩ := G2.recognizes_decode.spelled_bind h
    dsimp only at h
    split at h
    · next hmem =>
      obtain ⟨rfl, rfl⟩ := eq_of_run_pure h
      exact ⟨bs, ⟨hq, (G2.inSubgroup_iff hq.onCurve).mp hmem⟩, hrest⟩
    · exact absurd h (run_throw_bind_ne_ok _)

/-- Counted points of both groups. -/
theorem recognizes_points₁ :
    Recognizes (counted (point : Decoder G1)) (Spells.counted G1.Spells) :=
  recognizes_counted G1.recognizes_decode

theorem recognizes_points₂ :
    Recognizes (counted (point : Decoder G2)) (Spells.counted G2.Spells) :=
  recognizes_counted G2.recognizes_decode

/-- A proof in its format is read to the last byte. -/
theorem Proof.finishes_decoder {bs : Bytes} {proof : Proof G1 G2} (hspells : proof.Spells bs) :
    Finishes decoder bs proof := by
  obtain ⟨ha, hb, horder, hc⟩ := hspells
  simp only [List.append_assoc]
  refine (reads_spells_header .proof 3 rfl).finish ?_
  refine (G1.recognizes_decode.reads ha).finish ?_
  refine (recognizes_subgroupPoint.reads ⟨hb, horder⟩).finish ?_
  exact (G1.recognizes_decode.reads hc).finishLast (Finishes.atEnd (.pure _))

/-- **The loader of proofs accepts its format.** -/
theorem Proof.decode_eq_ok_iff {bs : Bytes} {proof : Proof G1 G2} :
    Proof.decode bs = .ok proof ↔ proof.Spells bs := by
  refine run_eq_ok_iff finishes_decoder fun s' h => ?_
  obtain ⟨_, -, s₀, rfl, hrest₀, h⟩ := (recognizes_header .proof 3 rfl).spelled_bind h
  obtain ⟨a, pa, s₁, ha, hrest₁, h⟩ := G1.recognizes_decode.spelled_bind h
  obtain ⟨b, pb, s₂, ⟨hb, horder⟩, hrest₂, h⟩ := recognizes_subgroupPoint.spelled_bind h
  obtain ⟨c, pc, s₃, hc, hrest₃, h⟩ := G1.recognizes_decode.spelled_bind h
  obtain ⟨_, s₄, hend, h⟩ := exists_of_run_bind_eq_ok h
  obtain ⟨rfl, rfl⟩ := eq_of_run_pure h
  obtain ⟨hnil, rfl⟩ := rest_eq_nil_of_run_atEnd hend
  obtain rfl : bs = Spells.header 3 ++ a ++ b ++ c := by
    change bs = Spells.header 3 ++ s₀.rest at hrest₀
    rw [hrest₀, hrest₁, hrest₂, hrest₃, hnil]
    simp only [List.append_nil, List.append_assoc]
  exact .mk ha hb horder hc

/-- A verification key in its format is read to the last byte. -/
theorem VerificationKey.finishes_decoder {bs : Bytes} {vk : VerificationKey G1 G2}
    (hspells : vk.Spells bs) : Finishes decoder bs vk := by
  obtain ⟨halpha, hbeta, hgamma, hdelta, hic, hne⟩ := hspells
  simp only [List.append_assoc]
  refine (reads_spells_header .verificationKey 2 rfl).finish ?_
  refine (G1.recognizes_decode.reads halpha).finish ?_
  refine (G2.recognizes_decode.reads hbeta).finish ?_
  refine (G2.recognizes_decode.reads hgamma).finish ?_
  refine (G2.recognizes_decode.reads hdelta).finish ?_
  refine (recognizes_points₁.reads hic).finishLast (Finishes.atEnd ?_)
  rw [if_neg (by rwa [List.isEmpty_iff])]
  exact .pure _

/-- **The loader of verification keys accepts its format.** -/
theorem VerificationKey.decode_eq_ok_iff {bs : Bytes} {vk : VerificationKey G1 G2} :
    VerificationKey.decode bs = .ok vk ↔ vk.Spells bs := by
  refine run_eq_ok_iff finishes_decoder fun s' h => ?_
  obtain ⟨_, -, s₀, rfl, hrest₀, h⟩ := (recognizes_header .verificationKey 2 rfl).spelled_bind h
  obtain ⟨alpha, _, s₁, halpha, hrest₁, h⟩ := G1.recognizes_decode.spelled_bind h
  obtain ⟨beta, _, s₂, hbeta, hrest₂, h⟩ := G2.recognizes_decode.spelled_bind h
  obtain ⟨gamma, _, s₃, hgamma, hrest₃, h⟩ := G2.recognizes_decode.spelled_bind h
  obtain ⟨delta, _, s₄, hdelta, hrest₄, h⟩ := G2.recognizes_decode.spelled_bind h
  obtain ⟨ic, _, s₅, hic, hrest₅, h⟩ := recognizes_points₁.spelled_bind h
  obtain ⟨_, s₆, hend, h⟩ := exists_of_run_bind_eq_ok h
  obtain ⟨hnil, rfl⟩ := rest_eq_nil_of_run_atEnd hend
  dsimp only at h
  split at h
  · exact absurd h (run_throw_bind_ne_ok _)
  · next hne =>
    obtain ⟨rfl, rfl⟩ := eq_of_run_pure h
    obtain rfl : bs = Spells.header 2 ++ alpha ++ beta ++ gamma ++ delta ++ ic := by
      change bs = Spells.header 2 ++ s₀.rest at hrest₀
      rw [hrest₀, hrest₁, hrest₂, hrest₃, hrest₄, hrest₅, hnil]
      simp only [List.append_nil, List.append_assoc]
    exact .mk halpha hbeta hgamma hdelta hic (by rwa [List.isEmpty_iff] at hne)

/-- A proving key in its format is read to the last byte. -/
theorem ProvingKey.finishes_decoder {bs : Bytes} {pk : ProvingKey G1 G2} (hspells : pk.Spells bs) :
    Finishes decoder bs pk := by
  obtain ⟨hsystem, hsize, hpower, hle, halpha, hbeta, hbetaTwist, hdelta, hdeltaTwist, ha, hb,
    hbTwist, hh, hl, halen, hblen, hbTwistlen, hhlen, hllen⟩ := hspells
  simp only [List.append_assoc]
  refine (reads_spells_header .provingKey 1 rfl).finish ?_
  refine (ConstraintSystem.recognizes_decode.reads hsystem).finish ?_
  refine ((recognizes_uint 4).reads hsize).finish ?_
  rw [acceptedSize_iff.mpr ⟨hle, Or.inr hpower⟩]
  refine (G1.recognizes_decode.reads halpha).finish ?_
  refine (G1.recognizes_decode.reads hbeta).finish ?_
  refine (G2.recognizes_decode.reads hbetaTwist).finish ?_
  refine (G1.recognizes_decode.reads hdelta).finish ?_
  refine (G2.recognizes_decode.reads hdeltaTwist).finish ?_
  refine (recognizes_points₁.reads ha).finish ((recognizes_points₁.reads hb).finish ?_)
  refine (recognizes_points₂.reads hbTwist).finish ((recognizes_points₁.reads hh).finish ?_)
  refine (recognizes_points₁.reads hl).finishLast (Finishes.atEnd ?_)
  have hpositive : 0 < pk.domainSize := by
    obtain ⟨k, hk⟩ := hpower
    rw [hk]
    exact Nat.two_pow_pos k
  dsimp only
  rw [find?_lengths_eq_none_iff.mpr ⟨halen, hblen, hbTwistlen, by omega, hllen⟩]
  exact .pure _

/-- **The loader of proving keys accepts its format.**  A domain of size zero passes the check of
the size, and is refused as no list has a negative length. -/
theorem ProvingKey.decode_eq_ok_iff {bs : Bytes} {pk : ProvingKey G1 G2} :
    ProvingKey.decode bs = .ok pk ↔ pk.Spells bs := by
  refine run_eq_ok_iff finishes_decoder fun s' h => ?_
  obtain ⟨_, -, s₀, rfl, hrest₀, h⟩ := (recognizes_header .provingKey 1 rfl).spelled_bind h
  obtain ⟨system, cs, s₁, hsystem, hrest₁, h⟩ :=
    ConstraintSystem.recognizes_decode.spelled_bind h
  obtain ⟨size, n, s₂, hsize, hrest₂, h⟩ := (recognizes_uint 4).spelled_bind h
  dsimp only at h
  split at h
  · exact absurd h (run_throw_bind_ne_ok _)
  · next haccepted =>
    obtain ⟨alpha, _, s₃, halpha, hrest₃, h⟩ := G1.recognizes_decode.spelled_bind h
    obtain ⟨beta, _, s₄, hbeta, hrest₄, h⟩ := G1.recognizes_decode.spelled_bind h
    obtain ⟨betaTwist, _, s₅, hbetaTwist, hrest₅, h⟩ := G2.recognizes_decode.spelled_bind h
    obtain ⟨delta, _, s₆, hdelta, hrest₆, h⟩ := G1.recognizes_decode.spelled_bind h
    obtain ⟨deltaTwist, _, s₇, hdeltaTwist, hrest₇, h⟩ := G2.recognizes_decode.spelled_bind h
    obtain ⟨a, _, s₈, ha, hrest₈, h⟩ := recognizes_points₁.spelled_bind h
    obtain ⟨b, _, s₉, hb, hrest₉, h⟩ := recognizes_points₁.spelled_bind h
    obtain ⟨bTwist, _, s₁₀, hbTwist, hrest₁₀, h⟩ := recognizes_points₂.spelled_bind h
    obtain ⟨hBytes, _, s₁₁, hh, hrest₁₁, h⟩ := recognizes_points₁.spelled_bind h
    obtain ⟨l, _, s₁₂, hl, hrest₁₂, h⟩ := recognizes_points₁.spelled_bind h
    obtain ⟨_, s₁₃, hend, h⟩ := exists_of_run_bind_eq_ok h
    obtain ⟨hnil, rfl⟩ := rest_eq_nil_of_run_atEnd hend
    split at h
    · exact absurd h (run_throw_ne_ok _)
    · next hlengths =>
      obtain ⟨rfl, rfl⟩ := eq_of_run_pure h
      obtain ⟨halen, hblen, hbTwistlen, hhlen, hllen⟩ := find?_lengths_eq_none_iff.mp hlengths
      obtain ⟨hle, hzero | hpower⟩ := acceptedSize_iff.mp (Bool.eq_false_of_not_eq_true haccepted)
      · exact absurd (hhlen.trans hzero) (Nat.succ_ne_zero _)
      obtain rfl : bs = Spells.header 1 ++ system ++ size ++ alpha ++ beta ++ betaTwist ++ delta
          ++ deltaTwist ++ a ++ b ++ bTwist ++ hBytes ++ l := by
        change bs = Spells.header 1 ++ s₀.rest at hrest₀
        rw [hrest₀, hrest₁, hrest₂, hrest₃, hrest₄, hrest₅, hrest₆, hrest₇, hrest₈, hrest₉,
          hrest₁₀, hrest₁₁, hrest₁₂, hnil]
        simp only [List.append_nil, List.append_assoc]
      exact .mk hsystem hsize hpower hle halpha hbeta hbetaTwist hdelta hdeltaTwist ha hb hbTwist
        hh hl halen hblen hbTwistlen (Nat.eq_sub_of_add_eq hhlen) hllen

/-! ### Failures -/

theorem proper_point₁ : Proper (point : Decoder G1) :=
  (proper_flag).bind fun _ => proper_coordinate.bind fun _ => proper_coordinate.bind fun _ =>
    (proper_finite _).bind fun _ => .ite (.ite (.pure _) (.throw nofun)) (.pure _)

theorem proper_point₂ : Proper (point : Decoder G2) :=
  proper_flag.bind fun _ => proper_coordinate.bind fun _ => proper_coordinate.bind fun _ =>
    proper_coordinate.bind fun _ => proper_coordinate.bind fun _ =>
      (proper_finite _).bind fun _ => .ite (.ite (.pure _) (.throw nofun)) (.pure _)

theorem proper_subgroupPoint : Proper (subgroupPoint : Decoder G2) :=
  proper_point₂.bind fun _ => .ite (.pure _) (.throw_bind nofun)

theorem proper_system : Proper ConstraintSystem.decode := by
  have hterm (n : ℕ) : Proper (LinearCombination.decodeTerm n) :=
    (Proper.uint 4).bind fun _ => .ite (.throw_bind nofun) (Proper.scalar.bind fun _ => .pure _)
  have hcombination (n : ℕ) : Proper (LinearCombination.decode n) :=
    (hterm n).counted.bind fun _ => .pure _
  have hconstraint (n : ℕ) : Proper (Constraint.decode n) :=
    (hcombination n).bind fun _ => (hcombination n).bind fun _ => (hcombination n).bind fun _ =>
      .pure _
  exact (Proper.uint 4).bind fun _ => (Proper.uint 4).bind fun _ =>
    (hconstraint _).counted.bind fun _ => .pure _

theorem ProvingKey.proper_decoder : Proper (decoder : Decoder (ProvingKey G1 G2)) := by
  refine (Proper.header rfl).bind fun _ => proper_system.bind fun _ => ?_
  refine (Proper.uint 4).bind fun _ => .ite (.throw_bind nofun) ?_
  refine proper_point₁.bind fun _ => proper_point₁.bind fun _ => proper_point₂.bind fun _ => ?_
  refine proper_point₁.bind fun _ => proper_point₂.bind fun _ => ?_
  refine proper_point₁.counted.bind fun _ => proper_point₁.counted.bind fun _ => ?_
  refine proper_point₂.counted.bind fun _ => proper_point₁.counted.bind fun _ => ?_
  refine proper_point₁.counted.bind fun _ => Proper.atEnd.bind fun _ => ?_
  dsimp only
  split
  · exact .throw nofun
  · exact .pure _

theorem VerificationKey.proper_decoder : Proper (decoder : Decoder (VerificationKey G1 G2)) := by
  refine (Proper.header rfl).bind fun _ => proper_point₁.bind fun _ => ?_
  refine proper_point₂.bind fun _ => proper_point₂.bind fun _ => proper_point₂.bind fun _ => ?_
  refine proper_point₁.counted.bind fun _ => Proper.atEnd.bind fun _ => ?_
  exact .ite (.throw_bind nofun) (.pure _)

theorem Proof.proper_decoder : Proper (decoder : Decoder (Proof G1 G2)) :=
  (Proper.header rfl).bind fun _ => proper_point₁.bind fun _ => proper_subgroupPoint.bind fun _ =>
    proper_point₁.bind fun _ => Proper.atEnd.bind fun _ => .pure _

/-- **The loaders accept just their formats**, and whatever they refuse they refuse for the bytes:
a kind without a name is the one failure that would be no such refusal. -/
theorem loads_iff_spells (bs : Bytes) :
    (∀ pk : ProvingKey G1 G2, ProvingKey.decode bs = .ok pk ↔ pk.Spells bs)
      ∧ (∀ vk : VerificationKey G1 G2, VerificationKey.decode bs = .ok vk ↔ vk.Spells bs)
      ∧ (∀ proof : Proof G1 G2, Proof.decode bs = .ok proof ↔ proof.Spells bs)
      ∧ (ProvingKey.decode bs : Except DecodeError (ProvingKey G1 G2)) ≠ .error .unnamedKind
      ∧ (VerificationKey.decode bs : Except DecodeError (VerificationKey G1 G2))
        ≠ .error .unnamedKind
      ∧ (Proof.decode bs : Except DecodeError (Proof G1 G2)) ≠ .error .unnamedKind :=
  ⟨fun _ => ProvingKey.decode_eq_ok_iff, fun _ => VerificationKey.decode_eq_ok_iff,
    fun _ => Proof.decode_eq_ok_iff, ProvingKey.proper_decoder.run_ne,
    VerificationKey.proper_decoder.run_ne, Proof.proper_decoder.run_ne⟩

end Groth16

end MerkleSnark
