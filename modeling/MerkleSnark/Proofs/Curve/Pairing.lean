import Mathlib
import MerkleSnark.Curve.Pairing
import MerkleSnark.Proofs.Curve.Group

/-!
# Products of pairings

A bilinear pairing turns a product of pairings into one power of the pairing of the generators, so
whether the product is one is a question about a sum of products of exponents.

## Main definitions

* `Pairing.Model` — the value of a pairing after the final power, and its bilinearity.
* `Pairing.Model.root` — the pairing of the two generators.
* `ExponentPoint` — a pairing of groups in which a point is its own exponent.

## Main results

* `Pairing.Model.exists_pairingProductIsOne_eq_of_denotes` — a product of pairings of points is one
  when the product of the pairings of their elements is.
* `Pairing.Model.exists_pairingProductIsOne_eq` — the same for points with known exponents, where it
  is a power of the root.
* `Pairing.Model.root_pow_eq_one_iff` — for a pairing that is not degenerate, when the sum is zero.
-/

namespace MerkleSnark.Pairing

open PointGroup

/-- A reading of the values of a pairing as elements of a group, with the final power taken, under
which pairing is bilinear. -/
structure Model (P Q T : Type) [PointGroup P] [PointGroup Q] [Pairing P Q T] (A B U : Type)
    [AddCommGroup A] [AddCommGroup B] [CommGroup U] where
  /-- The model of the first group. -/
  first : PointGroup.Model P A
  /-- The model of the second group. -/
  second : PointGroup.Model Q B
  addOrderOf_first : addOrderOf first.base = scalarOrder
  addOrderOf_second : addOrderOf second.base = scalarOrder
  /-- The value is one of a product of pairings. -/
  Valid : T → Prop
  /-- The final power of a valid value. -/
  value : T → U
  one : Valid (one P Q) ∧ value (one P Q) = 1
  mul : ∀ {s t : T}, Valid s → Valid t →
    Valid (mul P Q s t) ∧ value (mul P Q s t) = value s * value t
  isUnit_iff : ∀ {t : T}, Valid t → (isUnit P Q t = true ↔ value t = 1)
  /-- The pairing of two elements. -/
  pair : B → A → U
  pair_add_left : ∀ b b' a, pair (b + b') a = pair b a * pair b' a
  pair_add_right : ∀ b a a', pair b (a + a') = pair b a * pair b a'
  miller : ∀ {q : Q} {p : P}, second.Valid q → first.Valid p →
    ∃ t, miller q p = .ok t ∧ Valid t ∧ value t = pair (second.value q) (first.value p)

namespace Model

variable {P Q T : Type} [PointGroup P] [PointGroup Q] [Pairing P Q T]
variable {A B U : Type} [AddCommGroup A] [AddCommGroup B] [CommGroup U]
variable (M : Model P Q T A B U)

/-- The pairing of the two generators. -/
def root : U := M.pair M.second.base M.first.base

theorem pair_nsmul_left (n : ℕ) (b : B) (a : A) : M.pair (n • b) a = M.pair b a ^ n := by
  induction n with
  | zero =>
    have h := M.pair_add_left 0 0 a
    rw [add_zero, left_eq_mul] at h
    rw [zero_nsmul, pow_zero, h]
  | succ n ih => rw [succ_nsmul, M.pair_add_left, ih, pow_succ]

theorem pair_nsmul_right (n : ℕ) (b : B) (a : A) : M.pair b (n • a) = M.pair b a ^ n := by
  induction n with
  | zero =>
    have h := M.pair_add_right b 0 0
    rw [add_zero, left_eq_mul] at h
    rw [zero_nsmul, pow_zero, h]
  | succ n ih => rw [succ_nsmul, M.pair_add_right, ih, pow_succ]

theorem root_pow_scalarOrder : M.root ^ scalarOrder = 1 := by
  have hbase : scalarOrder • M.first.base = 0 := by
    rw [← M.addOrderOf_first, addOrderOf_nsmul_eq_zero]
  have hzero := M.pair_nsmul_right 0 M.second.base M.first.base
  rw [root, ← M.pair_nsmul_right, hbase]
  rwa [zero_nsmul, pow_zero] at hzero

theorem root_pow_val_natCast (n : ℕ) : M.root ^ (n : Fr).val = M.root ^ n := by
  rw [Residue.val_natCast, ← pow_mod_orderOf _ n,
    ← pow_mod_orderOf _ (n % scalarOrder),
    Nat.mod_mod_of_dvd _ (orderOf_dvd_of_pow_eq_one M.root_pow_scalarOrder)]

theorem root_pow_val_add (k l : Fr) :
    M.root ^ (k + l).val = M.root ^ k.val * M.root ^ l.val := by
  rw [← pow_add, ← M.root_pow_val_natCast (k.val + l.val), Nat.cast_add, Residue.natCast_val,
    Residue.natCast_val]

/-- The pairing of two points with known exponents. -/
theorem pair_exponents (k l : Fr) :
    M.pair (k.val • M.second.base) (l.val • M.first.base) = M.root ^ (k * l).val := by
  rw [M.pair_nsmul_left, M.pair_nsmul_right, ← root, ← pow_mul,
    ← M.root_pow_val_natCast (l.val * k.val), Nat.cast_mul, Residue.natCast_val,
    Residue.natCast_val, mul_comm]

theorem root_pow_val_neg (k : Fr) : M.root ^ (-k).val = (M.root ^ k.val)⁻¹ := by
  have hzero : M.root ^ (0 : Fr).val = 1 := pow_zero _
  rw [eq_inv_iff_mul_eq_one, ← M.root_pow_val_add, neg_add_cancel, hzero]

/-- **A product of pairings is one when the product of the pairings of the elements is.** -/
theorem exists_pairingProductIsOne_eq_of_denotes {pairs : List (Q × P)} {elements : List (B × A)}
    (h : List.Forall₂ (fun pair e => M.second.Denotes pair.1 e.1 ∧ M.first.Denotes pair.2 e.2)
      pairs elements) :
    ∃ accepted, pairingProductIsOne pairs = .ok accepted
      ∧ (accepted = true ↔ (elements.map fun e => M.pair e.1 e.2).prod = 1) := by
  have hfold : ∀ acc, M.Valid acc →
      ∃ t, pairs.foldlM (fun acc pair => do
            return Pairing.mul P Q acc (← Pairing.miller pair.1 pair.2)) acc = .ok t
        ∧ M.Valid t
        ∧ M.value t = M.value acc * (elements.map fun e => M.pair e.1 e.2).prod := by
    induction h with
    | nil => exact fun acc hacc => ⟨acc, rfl, hacc, by rw [List.map_nil, List.prod_nil, mul_one]⟩
    | @cons pair e pairs elements hhead htail ih =>
      intro acc hacc
      obtain ⟨⟨hq, hqvalue⟩, hp, hpvalue⟩ := hhead
      obtain ⟨t, hmiller, ht, hvalue⟩ := M.miller hq hp
      obtain ⟨hmul, hmulvalue⟩ := M.mul hacc ht
      obtain ⟨u, hrest, hu, huvalue⟩ := ih (Pairing.mul P Q acc t) hmul
      refine ⟨u, ?_, hu, ?_⟩
      · rw [List.foldlM_cons, hmiller]
        exact hrest
      · rw [huvalue, hmulvalue, hvalue, hqvalue, hpvalue, List.map_cons, List.prod_cons, mul_assoc]
  obtain ⟨t, hok, ht, hvalue⟩ := hfold (Pairing.one P Q) M.one.1
  refine ⟨Pairing.isUnit P Q t, ?_, ?_⟩
  · rw [pairingProductIsOne, hok]
    rfl
  · rw [M.isUnit_iff ht, hvalue, M.one.2, one_mul]

/-- For points with known exponents, this is a power of the root to the sum of the products of the
exponents. -/
theorem exists_pairingProductIsOne_eq {pairs : List (Q × P)} {exponents : List (Fr × Fr)}
    (h : List.Forall₂ (fun pair e => M.second.Exponent pair.1 e.1 ∧ M.first.Exponent pair.2 e.2)
      pairs exponents) :
    ∃ accepted, pairingProductIsOne pairs = .ok accepted
      ∧ (accepted = true ↔ M.root ^ (exponents.map fun e : Fr × Fr => e.1 * e.2).sum.val = 1) := by
  have hprod : ((exponents.map fun e : Fr × Fr =>
        (e.1.val • M.second.base, e.2.val • M.first.base)).map fun e => M.pair e.1 e.2).prod
      = M.root ^ (exponents.map fun e : Fr × Fr => e.1 * e.2).sum.val := by
    clear h
    induction exponents with
    | nil => exact (pow_zero _).symm
    | cons e exponents ih =>
      rw [List.map_cons, List.map_cons, List.prod_cons, ih, M.pair_exponents, List.map_cons,
        List.sum_cons, M.root_pow_val_add]
  rw [← hprod]
  exact M.exists_pairingProductIsOne_eq_of_denotes (List.forall₂_map_right_iff.mpr h)

variable {M}

/-- For a pairing that is not degenerate, a power of the root is one only for the exponent zero. -/
theorem root_pow_eq_one_iff (hroot : M.root ≠ 1) (k : Fr) : M.root ^ k.val = 1 ↔ k = 0 := by
  have hprime : Fact scalarOrder.Prime := ⟨prime_scalarOrder⟩
  rw [← orderOf_dvd_iff_pow_eq_one, orderOf_eq_prime M.root_pow_scalarOrder hroot]
  constructor
  · intro h
    exact Residue.ext (Nat.eq_zero_of_dvd_of_lt h k.val_lt)
  · rintro rfl
    exact dvd_zero _

end Model

end MerkleSnark.Pairing

namespace MerkleSnark

/-! ### Points as exponents -/

/-- A point that is given by its exponent. -/
structure ExponentPoint where
  /-- The exponent. -/
  exponent : Fr
  deriving DecidableEq

namespace ExponentPoint

instance : PointGroup ExponentPoint where
  generator := ⟨1⟩
  infinity := ⟨0⟩
  add p q := ⟨p.exponent + q.exponent⟩
  double p := ⟨p.exponent + p.exponent⟩
  neg p := ⟨-p.exponent⟩
  isInfinity p := p.exponent = 0

/-- The values of the pairing are exponents of its root. -/
instance : Pairing ExponentPoint ExponentPoint Fr where
  miller q p := .ok (q.exponent * p.exponent)
  one := 0
  mul := (· + ·)
  isUnit t := t = 0

/-- Points are read as their exponents. -/
def groupModel : PointGroup.Model ExponentPoint Fr where
  Valid _ := True
  value := exponent
  valid_generator := trivial
  infinity := ⟨trivial, rfl⟩
  add _ _ := ⟨trivial, rfl⟩
  double _ := ⟨trivial, rfl⟩
  neg _ := ⟨trivial, rfl⟩
  isInfinity_iff _ := decide_eq_true_iff

theorem addOrderOf_base : addOrderOf groupModel.base = scalarOrder := by
  have hprime : Fact scalarOrder.Prime := ⟨prime_scalarOrder⟩
  refine addOrderOf_eq_prime ?_ (by decide)
  have hone : groupModel.base = 1 := rfl
  rw [hone, nsmul_one, Fr.natCast_scalarOrder]

/-- The product of exponents is a bilinear pairing. -/
def pairingModel :
    Pairing.Model ExponentPoint ExponentPoint Fr Fr Fr (Multiplicative Fr) where
  first := groupModel
  second := groupModel
  addOrderOf_first := addOrderOf_base
  addOrderOf_second := addOrderOf_base
  Valid _ := True
  value := Multiplicative.ofAdd
  one := ⟨trivial, rfl⟩
  mul _ _ := ⟨trivial, rfl⟩
  isUnit_iff _ := decide_eq_true_iff
  pair b a := Multiplicative.ofAdd (b * a)
  pair_add_left b b' a := congrArg Multiplicative.ofAdd (add_mul b b' a)
  pair_add_right b a a' := congrArg Multiplicative.ofAdd (mul_add b a a')
  miller _ _ := ⟨_, rfl, trivial, rfl⟩

/-- The pairing of exponents is not degenerate. -/
theorem root_pairingModel_ne_one : pairingModel.root ≠ 1 := by
  have hroot : pairingModel.root = Multiplicative.ofAdd (1 * 1 : Fr) := rfl
  rw [hroot, mul_one]
  exact fun h => one_ne_zero (Multiplicative.ofAdd.injective h)

end ExponentPoint

end MerkleSnark
