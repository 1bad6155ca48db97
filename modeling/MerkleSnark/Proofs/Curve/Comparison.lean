import Mathlib
import MerkleSnark.Proofs.Codec.Canonical
import MerkleSnark.Proofs.Codec.Writing
import MerkleSnark.Proofs.Curve.Affine
import MerkleSnark.Proofs.Curve.MultiExp

/-!
# Comparison of points

Points are compared by multiplying with the denominators of one another.  This tells finite points
apart, and a point at infinity from a finite one, unless all three numbers of its triple are zero:
this triple compares equal to every other.  Of the operations on points only a multiple of a point at
infinity can lead to it, as the tangent formula is applied there as well.

## Main definitions

* `Point.zeros` — the triple of zeros.
* `Point.Collapses` — the multiples of a point that are the triple of zeros.
* `PointGroup.Obtained` — the points that the operations lead to.
* `Point.Compares` — what comparison and encoding say about an obtained point and another triple.

## Main results

* `Point.same_iff` — the triples that compare equal.
* `Upright.multiple_eq_zeros_iff` — the multiples that are the triple of zeros.
* `Obtained.upright` — without such a multiple the triple of zeros is not obtained.
* `Point.obtained_compares` — comparison and encoding of the points of both groups.
* `Point.same_zeros_generator` — a multiple of the point at infinity that compares equal to the generator.
-/

namespace MerkleSnark

open PointGroup

/-! ### Triples -/

namespace Point

variable {F : Type} [Field F] [DecidableEq F] {p q : Point F}

/-- The triple of zeros. -/
def zeros : Point F := ⟨0, 0, 0⟩

omit [DecidableEq F] in
theorem eq_zeros_iff : p = zeros ↔ p.x = 0 ∧ p.y = 0 ∧ p.z = 0 := Point.ext_iff

omit [DecidableEq F] in
theorem ne_zeros_of_z_ne_zero (h : p.z ≠ 0) : p ≠ zeros := fun hzeros => h (eq_zeros_iff.mp hzeros).2.2

omit [DecidableEq F] in
theorem infinity_ne_zeros : (infinity : Point F) ≠ zeros := fun h => one_ne_zero (eq_zeros_iff.mp h).1

theorem same_eq_true_iff :
    p.same q = true ↔ p.x * q.z = q.x * p.z ∧ p.y * q.z = q.y * p.z := decide_eq_true_iff

theorem same_comm (p q : Point F) : p.same q = q.same p := by
  rw [Bool.eq_iff_iff, same_eq_true_iff, same_eq_true_iff]
  exact ⟨fun h => ⟨h.1.symm, h.2.symm⟩, fun h => ⟨h.1.symm, h.2.symm⟩⟩

/-- A point at infinity compares equal to a finite one only if its triple is the one of zeros. -/
theorem same_of_infinite_of_finite (hp : p.z = 0) (hq : q.z ≠ 0) :
    p.same q = true ↔ p = zeros := by
  rw [same_eq_true_iff, eq_zeros_iff, hp, mul_zero, mul_zero, mul_eq_zero, mul_eq_zero,
    or_iff_left hq, or_iff_left hq, and_iff_left rfl]

/-- Finite points compare equal when their affine coordinates are equal. -/
theorem same_of_finite (hp : p.z ≠ 0) (hq : q.z ≠ 0) :
    p.same q = true ↔ p.affine = q.affine := by
  have hcoordinate (a b : F) : a * q.z = b * p.z ↔ a * p.z⁻¹ = b * q.z⁻¹ := by
    rw [← div_eq_mul_inv, ← div_eq_mul_inv, div_eq_div_iff hp hq]
  rw [same_eq_true_iff, affine, affine, Prod.mk.injEq, hcoordinate, hcoordinate]

/-- **The triples that compare equal** stand for the same point, or one of them is the triple of
zeros. -/
theorem same_iff (p q : Point F) :
    p.same q = true ↔ p.SameAffine q ∨ p = zeros ∨ q = zeros := by
  have hmixed {r s : Point F} (hr : r.z = 0) (hs : s.z ≠ 0) :
      r.same s = true ↔ r.SameAffine s ∨ r = zeros ∨ s = zeros := by
    have hdiffer : ¬ r.SameAffine s := by
      intro h
      have hinf := h.1
      rw [isInfinity, isInfinity, decide_eq_true hr, decide_eq_false hs] at hinf
      cases hinf
    rw [same_of_infinite_of_finite hr hs, or_iff_right hdiffer,
      or_iff_left (ne_zeros_of_z_ne_zero hs)]
  by_cases hp : p.z = 0
  · by_cases hq : q.z = 0
    · refine iff_of_true (same_eq_true_iff.mpr ?_) (Or.inl ⟨?_, fun hfinite => ?_⟩)
      · rw [hp, hq, mul_zero, mul_zero, mul_zero, mul_zero]
        exact ⟨rfl, rfl⟩
      · rw [isInfinity, isInfinity, decide_eq_true hp, decide_eq_true hq]
      · exact absurd hp (of_decide_eq_false hfinite)
    · exact hmixed hp hq
  · by_cases hq : q.z = 0
    · rw [same_comm, hmixed hq hp, or_comm (a := q = zeros)]
      exact or_congr_left ⟨SameAffine.symm, SameAffine.symm⟩
    · have hne := not_or.mpr ⟨ne_zeros_of_z_ne_zero hp, ne_zeros_of_z_ne_zero hq⟩
      rw [same_of_finite hp hq, or_iff_left hne, SameAffine, isInfinity, isInfinity,
        decide_eq_false hp, decide_eq_false hq]
      exact ⟨fun h => ⟨rfl, fun _ => h⟩, fun h => h.2 rfl⟩

omit [DecidableEq F] in
/-- **The tangent formula at infinity** forgets the ordinate. -/
theorem double_of_infinite (hp : p.z = 0) : p.double = ⟨0, -27 * p.x ^ 6, 0⟩ := by
  simp only [double, twice, hp, mk.injEq]
  refine ⟨?_, ?_, ?_⟩ <;> ring

omit [DecidableEq F] in
theorem double_zeros : (zeros : Point F).double = zeros := by
  rw [double_of_infinite rfl, zeros]
  simp

/-- A multiple of a point at infinity is the triple of zeros: the tangent formula is applied twice, or
once where the abscissa is zero. -/
def Collapses (p : Point F) (n : ℕ) : Prop := p.z = 0 ∧ (4 ≤ n ∨ 2 ≤ n ∧ p.x = 0)

/-- The operations on triples are the projective formulas. -/
structure Formulas (F : Type) [Field F] [DecidableEq F] [PointGroup (Point F)] : Prop where
  infinity_eq : (PointGroup.infinity : Point F) = infinity
  add_eq : ∀ p q : Point F, PointGroup.add p q = p.add q
  double_eq : ∀ p : Point F, PointGroup.double p = p.double
  neg_eq : ∀ p : Point F, PointGroup.neg p = p.neg
  isInfinity_eq : ∀ p : Point F, PointGroup.isInfinity p = p.isInfinity
  three_ne_zero : (3 : F) ≠ 0

namespace Formulas

variable [PointGroup (Point F)] (hF : Formulas F)

include hF

/-- Behind the last digit of the factor a point at infinity is only doubled. -/
theorem multiple_of_infinite (hp : p.z = 0) {n : ℕ} (hn : 2 ≤ n) :
    multiple p n = multiple p.double (n / 2) := by
  have hadd (r : Point F) : PointGroup.add r p = r := by rw [hF.add_eq, Point.add, if_pos hp]
  rw [multiple, if_neg (by omega), if_neg (by omega), hadd, ite_self, hF.double_eq]

theorem multiple_zeros {n : ℕ} (hn : n ≠ 0) : multiple (zeros : Point F) n = zeros := by
  induction n using Nat.strong_induction_on with
  | _ n ih =>
    by_cases hone : n = 1
    · rw [hone, multiple, if_neg one_ne_zero, if_pos rfl]
    · rw [hF.multiple_of_infinite rfl (by omega), double_zeros]
      exact ih (n / 2) (by omega) (by omega)

/-- **The multiples of a point at infinity** that are the triple of zeros. -/
theorem multiple_eq_zeros_iff_of_infinite (hp : p.z = 0) (hne : p ≠ zeros) (n : ℕ) :
    multiple p n = zeros ↔ p.Collapses n := by
  have hdouble : p.double.z = 0 := by rw [double_of_infinite hp]
  rw [Collapses, and_iff_right hp]
  rcases lt_or_ge n 2 with hsmall | htwo
  · rw [iff_false_right (by omega)]
    rcases Nat.le_one_iff_eq_zero_or_eq_one.mp (Nat.le_of_lt_succ hsmall) with rfl | rfl
    · rw [multiple, if_pos rfl, hF.infinity_eq]
      exact infinity_ne_zeros
    · rwa [multiple, if_neg one_ne_zero, if_pos rfl]
  · rcases lt_or_ge n 4 with hlt | hge
    · have hhalf : n / 2 = 1 := by omega
      have hmultiple : multiple p n = ⟨0, -27 * p.x ^ 6, 0⟩ := by
        rw [hF.multiple_of_infinite hp htwo, hhalf, multiple, if_neg one_ne_zero, if_pos rfl,
          double_of_infinite hp]
      have hcube : (27 : F) ≠ 0 := by
        have h := pow_ne_zero 3 hF.three_ne_zero
        norm_num at h
        exact h
      rw [hmultiple, eq_zeros_iff, or_iff_right (by omega), and_iff_right htwo]
      simp [hcube]
    · rw [iff_true_right (Or.inl hge), hF.multiple_of_infinite hp htwo,
        hF.multiple_of_infinite hdouble (by omega), double_of_infinite hp]
      have hzeros : (⟨0, -27 * p.x ^ 6, 0⟩ : Point F).double = zeros := by
        rw [double_of_infinite rfl, zeros]
        simp
      rw [hzeros]
      exact hF.multiple_zeros (by omega)

end Formulas

end Point

/-! ### Points of the subgroup -/

theorem FixedBaseTable.ofBase?_eq_some_iff {P : Type} [PointGroup P] {base : P} {w : ℕ}
    {table : FixedBaseTable P} : ofBase? base w = some table ↔ w ≠ 0 ∧ table = ofBase base w := by
  by_cases hw : w = 0
  · rw [ofBase?, if_pos hw]
    exact iff_of_false (Option.some_ne_none table).symm fun h => h.1 hw
  · rw [ofBase?, if_neg hw, Option.some.injEq, and_iff_right hw, eq_comm]

namespace PointGroup.Model

section

variable {P : Type} [PointGroup P] {A : Type} [AddCommGroup A] {L : Model P A} {p q : P}

variable (L) in
/-- The point represents a multiple of the generator. -/
def Member (p : P) : Prop := L.Valid p ∧ L.value p ∈ AddSubgroup.zmultiples L.base

namespace Member

theorem generator : L.Member (PointGroup.generator : P) :=
  ⟨L.valid_generator, AddSubgroup.mem_zmultiples _⟩

theorem of_denotes {a : A} (h : L.Denotes p a) (ha : a ∈ AddSubgroup.zmultiples L.base) :
    L.Member p := ⟨h.1, h.2 ▸ ha⟩

theorem denotes (h : L.Member p) : L.Denotes p (L.value p) := Denotes.of_valid h.1

theorem infinity : L.Member (PointGroup.infinity : P) := of_denotes Denotes.infinity (zero_mem _)

theorem add (hp : L.Member p) (hq : L.Member q) : L.Member (PointGroup.add p q) :=
  of_denotes (hp.denotes.add hq.denotes) (add_mem hp.2 hq.2)

theorem neg (hp : L.Member p) : L.Member (PointGroup.neg p) :=
  of_denotes hp.denotes.neg (neg_mem hp.2)

theorem double (hp : L.Member p) : L.Member (PointGroup.double p) :=
  of_denotes hp.denotes.double (add_mem hp.2 hp.2)

theorem multiple (hp : L.Member p) (n : ℕ) : L.Member (PointGroup.multiple p n) :=
  of_denotes (hp.denotes.multiple n) (nsmul_mem hp.2 n)

theorem multiExp {points : List P} {scalars : List Fr} (hpoints : ∀ p ∈ points, L.Member p)
    (h : MerkleSnark.multiExp points scalars = .ok p) : L.Member p := by
  have hlen : points.length = scalars.length := by
    by_contra hne
    rw [MerkleSnark.multiExp, if_pos hne] at h
    cases h
  obtain ⟨r, hr, hdenotes⟩ := exists_multiExp_eq hlen fun p hp => (hpoints p hp).1
  obtain rfl : r = p := Except.ok.inj (hr.symm.trans h)
  refine of_denotes hdenotes (list_sum_mem fun a ha => ?_)
  obtain ⟨i, hi, rfl⟩ := List.getElem_of_mem ha
  rw [List.getElem_zipWith]
  exact nsmul_mem (hpoints _ (List.getElem_mem _)).2 _

theorem table {w : ℕ} {table : FixedBaseTable P} (hp : L.Member p)
    (h : FixedBaseTable.ofBase? p w = some table) (k : Fr) : L.Member (table.mul k) := by
  obtain ⟨hw, rfl⟩ := FixedBaseTable.ofBase?_eq_some_iff.mp h
  exact of_denotes (FixedBaseTable.denotes_mul hp.denotes (by omega) k) (nsmul_mem hp.2 _)

variable (horder : addOrderOf L.base = scalarOrder)

include horder

theorem isInfinity_generator : isInfinity (PointGroup.generator : P) = false := by
  rw [Bool.eq_false_iff, ne_eq, Denotes.generator.isInfinity_iff (L := L),
    ← AddMonoid.addOrderOf_eq_one_iff, horder]
  decide

/-- Below the order no multiple of a finite point is at infinity. -/
theorem isInfinity_multiple (hp : L.Member p) (hfinite : isInfinity p = false) {n : ℕ} (hn : n ≠ 0)
    (hlt : n < scalarOrder) : isInfinity (PointGroup.multiple p n) = false := by
  have hprime : Fact scalarOrder.Prime := ⟨prime_scalarOrder⟩
  have hne : L.value p ≠ 0 := fun h => by
    rw [(L.isInfinity_iff hp.1).mpr h] at hfinite
    cases hfinite
  have hzero : scalarOrder • L.value p = 0 := by
    obtain ⟨m, hm⟩ := AddSubgroup.mem_zmultiples_iff.mp hp.2
    rw [← hm, smul_comm, ← horder, addOrderOf_nsmul_eq_zero, smul_zero]
  rw [Bool.eq_false_iff, ne_eq, (hp.denotes.multiple n).isInfinity_iff]
  intro hmultiple
  have hdvd := addOrderOf_dvd_of_nsmul_eq_zero hmultiple
  rw [addOrderOf_eq_prime hzero hne] at hdvd
  exact absurd (Nat.le_of_dvd (Nat.pos_of_ne_zero hn) hdvd) (not_le.mpr hlt)

/-- No finite point has order two. -/
theorem isInfinity_double (hp : L.Member p) (hfinite : isInfinity p = false) :
    isInfinity (PointGroup.double p) = false := by
  have h := hp.isInfinity_multiple horder hfinite two_ne_zero (by decide)
  rwa [PointGroup.multiple, if_neg two_ne_zero, if_neg (by decide), if_pos rfl,
    PointGroup.multiple, if_neg (by decide), if_pos (by decide)] at h

end Member

end

/-! ### Points that do not collapse -/

section

open Point

variable {F : Type} [Field F] [DecidableEq F] [PointGroup (Point F)] {A : Type} [AddCommGroup A]
  {L : Model (Point F) A} {p q : Point F}

variable (L) in
/-- The point is in the subgroup and not the triple of zeros. -/
def Upright (p : Point F) : Prop := L.Member p ∧ p ≠ zeros

theorem isInfinity_eq_false_iff (hF : Formulas F) : PointGroup.isInfinity p = false ↔ p.z ≠ 0 := by
  rw [hF.isInfinity_eq, Point.isInfinity, decide_eq_false_iff_not]

theorem ne_zeros_of_finite (hF : Formulas F) (h : PointGroup.isInfinity p = false) : p ≠ zeros :=
  ne_zeros_of_z_ne_zero ((isInfinity_eq_false_iff hF).mp h)

namespace Upright

theorem infinity (hF : Formulas F) : L.Upright (PointGroup.infinity : Point F) := by
  refine ⟨Member.infinity, ?_⟩
  rw [hF.infinity_eq]
  exact infinity_ne_zeros

theorem neg (hF : Formulas F) (hp : L.Upright p) : L.Upright (PointGroup.neg p) := by
  refine ⟨hp.1.neg, fun h => hp.2 ?_⟩
  rw [hF.neg_eq, Point.neg, eq_zeros_iff, neg_eq_zero] at h
  exact eq_zeros_iff.mpr h

variable (hF : Formulas F) (horder : addOrderOf L.base = scalarOrder)

include hF horder

/-- A sum is the triple of zeros only if the first point is. -/
theorem add_ne_zeros (hp : L.Upright p) (q : Point F) : PointGroup.add p q ≠ zeros := by
  rw [hF.add_eq, Point.add]
  split
  · exact hp.2
  · next hq =>
    split
    · exact ne_zeros_of_z_ne_zero hq
    · next hpz =>
      have hpfinite := (isInfinity_eq_false_iff hF).mpr hpz
      dsimp only
      split
      · split
        · -- two equal finite points, and neither has order two
          rw [← hF.double_eq]
          exact ne_zeros_of_finite hF (hp.1.isInfinity_double horder hpfinite)
        · exact infinity_ne_zeros
      · next hv =>
        have hv := sub_ne_zero.mpr hv
        exact ne_zeros_of_z_ne_zero
          (mul_ne_zero (mul_ne_zero hv (mul_ne_zero hv hv)) (mul_ne_zero hpz hq))

theorem add (hp : L.Upright p) (hq : L.Member q) : L.Upright (PointGroup.add p q) :=
  ⟨hp.1.add hq, hp.add_ne_zeros hF horder q⟩

/-- **The multiples that are the triple of zeros.** -/
theorem multiple_eq_zeros_iff (hp : L.Upright p) {n : ℕ} (hn : n < scalarOrder) :
    multiple p n = zeros ↔ p.Collapses n := by
  by_cases hz : p.z = 0
  · exact hF.multiple_eq_zeros_iff_of_infinite hz hp.2 n
  · refine iff_of_false ?_ fun h => hz h.1
    by_cases hzero : n = 0
    · rw [hzero, multiple, if_pos rfl]
      exact (infinity (L := L) hF).2
    · have hfinite := (isInfinity_eq_false_iff hF).mpr hz
      exact ne_zeros_of_finite hF (hp.1.isInfinity_multiple horder hfinite hzero hn)

/-- Adding points of the subgroup one after another does not lead to the triple of zeros. -/
theorem foldl_add {β : Type} {f : β → Point F} {acc : Point F} {l : List β}
    (hacc : L.Upright acc) (hl : ∀ t ∈ l, L.Member (f t)) :
    L.Upright (l.foldl (fun acc t => PointGroup.add acc (f t)) acc) :=
  List.foldlRecOn l _ hacc fun _ hacc t ht => hacc.add hF horder (hl t ht)

/-- **A sum of multiples** is not the triple of zeros, whichever points it is of. -/
theorem multiExp_ne_zeros {points : List (Point F)} {scalars : List Fr}
    (hpoints : ∀ p ∈ points, L.Member p) (h : multiExp points scalars = .ok p) : p ≠ zeros := by
  have hterms : ∀ t ∈ MultiExp.nonzeroTerms (points.zip scalars), L.Member t.1 := fun t ht =>
    hpoints t.1 (List.of_mem_zip (List.mem_filter.mp ht).1).1
  rw [multiExp] at h
  split at h
  · cases h
  · obtain rfl := Except.ok.inj h
    have hunits : L.Upright (((MultiExp.nonzeroTerms (points.zip scalars)).filter
        (·.2.val == 1)).foldl (fun acc t => PointGroup.add acc t.1) PointGroup.infinity) :=
      foldl_add hF horder (infinity hF) fun t ht => hterms t (List.mem_filter.mp ht).1
    split
    · refine (foldl_add hF horder hunits fun t ht => ?_).2
      exact (hterms t (List.mem_filter.mp ht).1).multiple _
    · exact hunits.add_ne_zeros hF horder _

/-- The entries of a table are added one after another. -/
theorem sumDigits {w n k : ℕ} (hp : L.Member p) (hq : L.Upright q) :
    L.Upright (FixedBaseTable.sumDigits w (FixedBaseTable.rowsFrom w p n) k q) := by
  induction n generalizing p q k with
  | zero => exact hq
  | succ n ih =>
    rw [FixedBaseTable.rowsFrom, FixedBaseTable.sumDigits]
    split
    · exact hq
    · have hnext := FixedBaseTable.denotes_row_next hp.denotes w
      refine ih (.of_denotes hnext (nsmul_mem hp.2 _)) ?_
      split
      · exact hq
      · have hdigit : k % (1 <<< w) < 2 ^ w := by
          rw [Nat.one_shiftLeft]
          exact Nat.mod_lt _ (Nat.two_pow_pos w)
        have hentry := FixedBaseTable.denotes_row_entry hp.denotes hdigit
        exact hq.add hF horder (.of_denotes hentry (nsmul_mem hp.2 _))

/-- **A multiple by a table** is not the triple of zeros, whichever point the table is of. -/
theorem table_ne_zeros {w : ℕ} {table : FixedBaseTable (Point F)} (hp : L.Member p)
    (h : FixedBaseTable.ofBase? p w = some table) (k : Fr) : table.mul k ≠ zeros := by
  obtain ⟨-, rfl⟩ := FixedBaseTable.ofBase?_eq_some_iff.mp h
  exact (sumDigits hF horder hp (infinity hF)).2

end Upright

end

end PointGroup.Model

/-! ### Points that the operations lead to -/

namespace PointGroup

/-- The points that the operations lead to from the generator and the point at infinity, with
multiples of a point by double-and-add only where they are allowed. -/
inductive Obtained {P : Type} [PointGroup P] (allowed : P → ℕ → Prop) : P → Prop
  | generator : Obtained allowed generator
  | infinity : Obtained allowed infinity
  | add {p q : P} : Obtained allowed p → Obtained allowed q → Obtained allowed (add p q)
  | neg {p : P} : Obtained allowed p → Obtained allowed (neg p)
  | smul {p : P} (s : ScalarInput) :
      Obtained allowed p → allowed p s.factor → Obtained allowed (smul s.toFr p)
  | multiExp {points : List P} (scalars : List ScalarInput) {p : P} :
      (∀ q ∈ points, Obtained allowed q) →
        multiExp points (scalars.map ScalarInput.toFr) = .ok p → Obtained allowed p
  | table {base : P} {w : ℕ} {table : FixedBaseTable P} (s : ScalarInput) :
      Obtained allowed base → FixedBaseTable.ofBase? base w = some table →
        Obtained allowed (table.mul s.toFr)

namespace Obtained

open Model

/-- Where more multiples are allowed, more points are obtained. -/
theorem mono {P : Type} [PointGroup P] {allowed allowed' : P → ℕ → Prop}
    (hallowed : ∀ p n, allowed p n → allowed' p n) {p : P} (h : Obtained allowed p) :
    Obtained allowed' p := by
  induction h with
  | generator => exact .generator
  | infinity => exact .infinity
  | add _ _ hp hq => exact .add hp hq
  | neg _ hp => exact .neg hp
  | smul s _ hs hp => exact .smul s hp (hallowed _ _ hs)
  | multiExp scalars _ hok hpoints => exact .multiExp scalars hpoints hok
  | table s _ htable hbase => exact .table s hbase htable

theorem member {P : Type} [PointGroup P] {A : Type} [AddCommGroup A] (L : Model P A)
    {allowed : P → ℕ → Prop} {p : P} (h : Obtained allowed p) : L.Member p := by
  induction h with
  | generator => exact Member.generator
  | infinity => exact Member.infinity
  | add _ _ hp hq => exact hp.add hq
  | neg _ hp => exact hp.neg
  | smul s _ _ hp => exact hp.multiple _
  | multiExp scalars _ hok hpoints => exact Member.multiExp hpoints hok
  | table s _ htable hbase => exact hbase.table htable _

variable {F : Type} [Field F] [DecidableEq F] [PointGroup (Point F)] {A : Type} [AddCommGroup A]

/-- **Without a multiple that collapses** the triple of zeros is not obtained. -/
theorem upright (hF : Point.Formulas F) {L : Model (Point F) A}
    (horder : addOrderOf L.base = scalarOrder) {p : Point F}
    (h : Obtained (fun p n => ¬ p.Collapses n) p) : L.Upright p := by
  refine ⟨h.member L, ?_⟩
  induction h with
  | generator => exact ne_zeros_of_finite hF (Member.isInfinity_generator horder)
  | infinity => exact (Upright.infinity (L := L) hF).2
  | add hp _ hpne _ => exact Upright.add_ne_zeros hF horder ⟨hp.member L, hpne⟩ _
  | neg hp hpne => exact (Upright.neg (L := L) hF ⟨hp.member L, hpne⟩).2
  | smul s hp hallowed hpne =>
    have hlt : s.toFr.val < scalarOrder := s.toFr.val_lt
    rw [PointGroup.smul, ne_eq, Upright.multiple_eq_zeros_iff hF horder ⟨hp.member L, hpne⟩ hlt,
      ScalarInput.val_toFr]
    exact hallowed
  | multiExp scalars hpoints hok =>
    exact Upright.multiExp_ne_zeros hF horder (fun q hq => (hpoints q hq).member L) hok
  | table s hbase htable => exact Upright.table_ne_zeros hF horder (hbase.member L) htable _

end Obtained

end PointGroup

/-! ### The groups of bn128 -/

theorem G1.formulas : Point.Formulas Fq :=
  ⟨rfl, fun _ _ => rfl, fun _ => rfl, fun _ => rfl, fun _ => rfl, by decide⟩

theorem G2.formulas : Point.Formulas Fq2 :=
  ⟨rfl, fun _ _ => rfl, fun _ => rfl, fun _ => rfl, fun _ => rfl, by decide⟩

theorem Encode.coordinate_injective : Function.Injective Encode.coordinate := fun x y h => by
  rw [← natCast_coordinate x, h, natCast_coordinate]

/-- Triples are written alike when they stand for the same point. -/
theorem G1.encode_eq_iff {p q : G1} : encode p = encode q ↔ p.SameAffine q := by
  rw [Point.sameAffine_iff, ← encode_normal p, ← encode_normal q]
  refine ⟨fun h => ?_, fun h => by rw [h]⟩
  cases hp : p.isInfinity <;> cases hq : q.isInfinity <;>
    simp only [Point.normal_of_isInfinity, Point.normal_of_finite, hp, hq, encode_infinity,
      encode_ofAffine, List.cons.injEq] at h ⊢
  · obtain ⟨hx, hy⟩ := List.append_inj h.2
      ((Encode.length_coordinate _).trans (Encode.length_coordinate _).symm)
    rw [Encode.coordinate_injective hx, Encode.coordinate_injective hy]
  · exact absurd h.1 (by decide)
  · exact absurd h.1 (by decide)

/-- Triples are written alike when they stand for the same point. -/
theorem G2.encode_eq_iff {p q : G2} : encode p = encode q ↔ p.SameAffine q := by
  rw [Point.sameAffine_iff, ← encode_normal p, ← encode_normal q]
  refine ⟨fun h => ?_, fun h => by rw [h]⟩
  cases hp : p.isInfinity <;> cases hq : q.isInfinity <;>
    simp only [Point.normal_of_isInfinity, Point.normal_of_finite, hp, hq, encode_infinity,
      encode_ofAffine, List.cons.injEq] at h ⊢
  · have hlength (x y : Fq) : (Encode.coordinate x).length = (Encode.coordinate y).length :=
      (Encode.length_coordinate x).trans (Encode.length_coordinate y).symm
    obtain ⟨hxRe, hxIm, hyRe, hyIm⟩ :=
      append_four_inj (hlength _ _) (hlength _ _) (hlength _ _) h.2
    rw [Fq2.ext (Encode.coordinate_injective hxRe) (Encode.coordinate_injective hxIm),
      Fq2.ext (Encode.coordinate_injective hyRe) (Encode.coordinate_injective hyIm)]
  · exact absurd h.1 (by decide)
  · exact absurd h.1 (by decide)

/-! ### Comparison -/

namespace Point

variable {F : Type} [Field F] [DecidableEq F] [PointGroup (Point F)] [PointCodec (Point F)]

/-- What comparison and encoding say about a point that the operations lead to and another triple. -/
structure Compares (p q : Point F) : Prop where
  /-- They compare equal when they are both at infinity or have the same affine coordinates, and the
  triple of zeros compares equal to every point. -/
  same_iff : p.same q = true ↔ p.SameAffine q ∨ p = zeros ∨ q = zeros
  /-- They are written alike when they are both at infinity or have the same affine coordinates. -/
  encode_eq_iff : PointCodec.encode p = PointCodec.encode q ↔ p.SameAffine q
  /-- The triple of zeros is a multiple of a point at infinity. -/
  smul_eq_zeros_iff : p ≠ zeros → ∀ s : ScalarInput, smul s.toFr p = zeros ↔ p.Collapses s.factor
  /-- Without such a multiple, comparison decides equality. -/
  same_iff_sameAffine : Obtained (fun p n => ¬ p.Collapses n) p →
    Obtained (fun p n => ¬ p.Collapses n) q → (p.same q = true ↔ p.SameAffine q)

theorem Formulas.compares {A : Type} [AddCommGroup A] (hF : Formulas F) {L : Model (Point F) A}
    (horder : addOrderOf L.base = scalarOrder) {p q : Point F} (hp : Obtained (fun _ _ => True) p)
    (hencode : PointCodec.encode p = PointCodec.encode q ↔ p.SameAffine q) : Compares p q where
  same_iff := same_iff p q
  encode_eq_iff := hencode
  smul_eq_zeros_iff hne s := by
    rw [smul, Model.Upright.multiple_eq_zeros_iff hF horder ⟨hp.member L, hne⟩ s.toFr.val_lt,
      ScalarInput.val_toFr]
  same_iff_sameAffine hp hq := by
    rw [same_iff, or_iff_left]
    exact not_or.mpr ⟨(hp.upright hF horder).2, (hq.upright hF horder).2⟩

/-- **Comparison of points.**  A point that the operations lead to, in either group, compares equal to
another just when both are at infinity or have the same affine coordinates, which is when they are
written alike, as long as no point at infinity was multiplied by a number from four on, or by two or
three with its abscissa zero; such a multiple is the triple of zeros, which compares equal to every
point. -/
theorem obtained_compares {p : G1} {r : G2} (hp : Obtained (fun _ _ => True) p)
    (hr : Obtained (fun _ _ => True) r) (q : G1) (s : G2) : Compares p q ∧ Compares r s :=
  ⟨G1.formulas.compares G1.addOrderOf_base hp G1.encode_eq_iff,
    G2.formulas.compares G2.addOrderOf_base hr G2.encode_eq_iff⟩

/-- Three times the generator as a multiple and as a sum, by different triples, and in the other group
the doubled point at infinity, which is told from the generator. -/
theorem obtained_compares_threeTimes :
    let three : G1 := smul (ScalarInput.integer 3).toFr generator
    let sum : G1 := PointGroup.add generator (smul (ScalarInput.integer 2).toFr generator)
    let twice : G2 := smul (ScalarInput.integer 2).toFr PointGroup.infinity
    three ≠ sum ∧ three.same sum = true ∧ three.SameAffine sum
      ∧ twice ≠ infinity ∧ twice.SameAffine infinity ∧ twice.same infinity = true
      ∧ twice.same generator = false := by
  intro three sum twice
  have hgenerator (n : ℕ) : ¬ (generator : G1).Collapses n := fun h => absurd h.1 (by decide)
  have hinfinity : ¬ (PointGroup.infinity : G2).Collapses 2 := by
    rintro ⟨-, hfour | ⟨-, hx⟩⟩
    · exact absurd hfour (by decide)
    · exact absurd hx (by decide)
  have hthree : Obtained (fun p n => ¬ p.Collapses n) three :=
    .smul (.integer 3) .generator (hgenerator _)
  have hsum : Obtained (fun p n => ¬ p.Collapses n) sum :=
    .add .generator (.smul (.integer 2) .generator (hgenerator _))
  have htwice : Obtained (fun p n => ¬ p.Collapses n) twice := .smul (.integer 2) .infinity hinfinity
  -- multiples are evaluated by their binary digits
  have hthreeEq : three = multipleWithin generator 2 3 := multiple_eq_multipleWithin (by decide) _
  have hsumEq : sum = PointGroup.add generator (multipleWithin generator 2 2) :=
    congrArg (PointGroup.add generator) (multiple_eq_multipleWithin (by decide) _)
  have htwiceEq : twice = multipleWithin PointGroup.infinity 2 2 :=
    multiple_eq_multipleWithin (by decide) _
  have hsame : three.same sum = true := by
    rw [hthreeEq, hsumEq]
    decide
  have haffine : twice.SameAffine infinity := by
    rw [htwiceEq]
    exact ⟨by decide, nofun⟩
  have hdiffer : ¬ twice.SameAffine generator := by
    rw [htwiceEq]
    exact fun h => absurd h.1 (by decide)
  obtain ⟨hsums, hzero⟩ := obtained_compares (hthree.mono fun _ _ _ => trivial)
    (htwice.mono fun _ _ _ => trivial) sum infinity
  obtain ⟨-, hdistinct⟩ := obtained_compares (hthree.mono fun _ _ _ => trivial)
    (htwice.mono fun _ _ _ => trivial) sum generator
  refine ⟨?_, hsame, (hsums.same_iff_sameAffine hthree hsum).mp hsame, ?_, haffine,
    (hzero.same_iff_sameAffine htwice .infinity).mpr haffine, ?_⟩
  · rw [hthreeEq, hsumEq]
    decide
  · rw [htwiceEq]
    decide
  · rw [Bool.eq_false_iff, ne_eq, hdistinct.same_iff_sameAffine htwice .generator]
    exact hdiffer

/-- Four times the point at infinity compares equal to the generator. -/
theorem same_zeros_generator :
    let p : G1 := smul (ScalarInput.integer 4).toFr PointGroup.infinity
    Obtained (fun _ _ => True) p ∧ Obtained (fun _ _ => True) (generator : G1)
      ∧ p.same generator = true ∧ ¬ p.SameAffine generator
      ∧ PointCodec.encode p ≠ PointCodec.encode (generator : G1) := by
  intro p
  have hzeros : p = zeros :=
    (G1.formulas.multiple_eq_zeros_iff_of_infinite rfl (by decide) 4).mpr ⟨rfl, Or.inl le_rfl⟩
  have hdiffer : ¬ p.SameAffine generator := by
    rw [hzeros]
    exact fun h => absurd h.1 (by decide)
  refine ⟨.smul _ .infinity trivial, .generator, ?_, hdiffer, mt G1.encode_eq_iff.mp hdiffer⟩
  rw [hzeros]
  decide

end Point

end MerkleSnark
