import Mathlib
import MerkleSnark.Proofs.Circuit.Draft

/-!
# Wires that carry bits

A boolean constraint leaves a wire no other values than zero and one.  A digits step makes a whole
list of wires spell a number, the lowest digit first, and fixes the class of that number modulo the
order of the field.

## Main definitions

* `bitScalar` — a bit as a scalar.
* `IsBit` — a combination has a bit as its value.

## Main results

* `Constraint.holds_boolean_iff`, `Step.holds_digits_iff` — what the constraints ask for.
* `Step.exists_digits` — the number that the wires of a digits step spell.
-/

namespace MerkleSnark

open LinearCombination

variable {w : ℕ → Fr}

/-- The scalar of a bit. -/
def bitScalar (b : Bool) : Fr := if b then 1 else 0

theorem bitScalar_injective : Function.Injective bitScalar := by
  intro a b h
  cases a <;> cases b <;> first | rfl | exact absurd h (by decide)

theorem exists_bitScalar_eq {x : Fr} (h : x = 0 ∨ x = 1) : ∃ b, x = bitScalar b := by
  rcases h with rfl | rfl
  · exact ⟨false, rfl⟩
  · exact ⟨true, rfl⟩

theorem bitScalar_eq_zero_or_one (b : Bool) : bitScalar b = 0 ∨ bitScalar b = 1 := by
  cases b
  · exact Or.inl rfl
  · exact Or.inr rfl

theorem natCast_toNat (b : Bool) : ((b.toNat : ℕ) : Fr) = bitScalar b := by
  cases b <;> rfl

/-- The combination has the bit as its value. -/
def IsBit (w : ℕ → Fr) (x : LinearCombination) (b : Bool) : Prop :=
  x.Sorted ∧ x.eval w = bitScalar b

/-- Wires whose values are bits have a list of bits. -/
theorem exists_map_bitScalar {wires : List ℕ} (h : ∀ i ∈ wires, w i = 0 ∨ w i = 1) :
    ∃ bs : List Bool, wires.map w = bs.map bitScalar := by
  induction wires with
  | nil => exact ⟨[], rfl⟩
  | cons i wires ih =>
    obtain ⟨b, hb⟩ := exists_bitScalar_eq (h i List.mem_cons_self)
    obtain ⟨bs, hbs⟩ := ih fun j hj => h j (List.mem_cons_of_mem i hj)
    refine ⟨b :: bs, ?_⟩
    rw [List.map_cons, List.map_cons, hb, hbs]

/-- The weight of a place. -/
theorem ofNat_shiftLeft (k : ℕ) : (Residue.ofNat scalarOrder (1 <<< k) : Fr) = 2 ^ k := by
  rw [Nat.one_shiftLeft, Residue.ofNat_eq_natCast, Nat.cast_pow, Nat.cast_ofNat]

/-- The value of wires that spell a number, from place `k` on. -/
theorem sum_weighted (wires : List ℕ) (bs : List Bool) (k : ℕ)
    (h : wires.map w = bs.map bitScalar) :
    ((wires.zipIdx k).map fun p => Residue.ofNat scalarOrder (1 <<< p.2) * w p.1).sum
      = 2 ^ k * ((Nat.ofBits bs.get : ℕ) : Fr) := by
  induction wires generalizing bs k with
  | nil =>
    have hbs : bs = [] := List.map_eq_nil_iff.mp h.symm
    subst hbs
    exact (mul_zero _).symm
  | cons i wires ih =>
    cases bs with
    | nil => exact absurd h (List.cons_ne_nil _ _)
    | cons b bs =>
      obtain ⟨hi, hrest⟩ := List.cons.inj h
      have hnumber : Nat.ofBits (b :: bs).get = 2 * Nat.ofBits bs.get + b.toNat :=
        Nat.ofBits_succ _
      rw [List.zipIdx_cons, List.map_cons, List.sum_cons, ih bs (k + 1) hrest, ofNat_shiftLeft, hi,
        hnumber, Nat.cast_add, Nat.cast_mul, Nat.cast_ofNat, natCast_toNat, pow_succ]
      ring

variable (hw : w oneWire = 1)

include hw

theorem Constraint.holds_boolean_iff {x : LinearCombination} {label : String} :
    (Constraint.boolean x label).Holds w ↔ x.eval w = 0 ∨ x.eval w = 1 := by
  unfold Constraint.Holds Constraint.boolean
  rw [eval_sub, eval_const, hw, mul_one, eval_zero, mul_eq_zero, sub_eq_zero]
  exact or_congr Iff.rfl eq_comm

/-- A digits step asks for bits that spell the total. -/
theorem Step.holds_digits_iff {total : LinearCombination} {wires : List ℕ} {label : String} :
    (Step.digits total wires label).Holds w ↔
      total.eval w
          = (wires.zipIdx.map fun p => Residue.ofNat scalarOrder (1 <<< p.2) * w p.1).sum ∧
        ∀ i ∈ wires, w i = 0 ∨ w i = 1 := by
  have hpacked : (⟨total, .const 1, Step.weighted wires, label⟩ : Constraint).Holds w ↔
      total.eval w
        = (wires.zipIdx.map fun p => Residue.ofNat scalarOrder (1 <<< p.2) * w p.1).sum := by
    unfold Constraint.Holds Step.weighted
    rw [eval_const, hw, mul_one, mul_one, eval_foldl_addTerm, eval_zero, zero_add]
  constructor
  · intro h
    refine ⟨hpacked.mp (h _ List.mem_cons_self), fun wire hwire => ?_⟩
    obtain ⟨i, hi, hget⟩ := List.getElem_of_mem hwire
    have hmem : (wire, i) ∈ wires.zipIdx := by
      rw [List.mem_zipIdx_iff_getElem?]
      exact List.getElem?_eq_some_iff.mpr ⟨hi, hget⟩
    have hholds := h _ (List.mem_cons_of_mem _ (List.mem_map_of_mem hmem))
    rwa [Constraint.holds_boolean_iff hw, eval_var] at hholds
  · rintro ⟨hsum, hboolean⟩ k hk
    rcases List.mem_cons.mp hk with rfl | hk
    · exact hpacked.mpr hsum
    · obtain ⟨p, hp, rfl⟩ := List.mem_map.mp hk
      rw [Constraint.holds_boolean_iff hw, eval_var]
      exact hboolean p.1 (List.fst_mem_of_mem_zipIdx hp)

/-- **The number of a digits step.**  Its digits are the values of the wires, and its class is the
value of the total. -/
theorem Step.exists_digits {total : LinearCombination} {wires : List ℕ} {label : String}
    (h : (Step.digits total wires label).Holds w) :
    ∃ n < 2 ^ wires.length, total.eval w = ((n : ℕ) : Fr) ∧
      ∀ i wire, wires[i]? = some wire → w wire = bitScalar (n.testBit i) := by
  obtain ⟨hsum, hboolean⟩ := (Step.holds_digits_iff hw).mp h
  obtain ⟨bs, hbs⟩ := exists_map_bitScalar hboolean
  have hlength : wires.length = bs.length := by
    rw [← List.length_map (f := w), hbs, List.length_map]
  refine ⟨Nat.ofBits bs.get, ?_, ?_, ?_⟩
  · rw [hlength]
    exact Nat.ofBits_lt_two_pow _
  · rw [hsum, sum_weighted wires bs 0 hbs, pow_zero, one_mul]
  · intro i wire hwire
    obtain ⟨hi, hget⟩ := List.getElem?_eq_some_iff.mp hwire
    have hi' : i < bs.length := hlength ▸ hi
    have hvalue : (wires.map w)[i]? = (bs.map bitScalar)[i]? := by rw [hbs]
    rw [List.getElem?_map, List.getElem?_map, hwire, List.getElem?_eq_getElem hi'] at hvalue
    rw [Nat.testBit_ofBits_lt _ i hi']
    exact Option.some.inj hvalue

/-- The digits of a number meet a step that has enough of them. -/
theorem Step.holds_digits {total : LinearCombination} {wires : List ℕ} {label : String} {n : ℕ}
    (hn : n < 2 ^ wires.length) (htotal : total.eval w = ((n : ℕ) : Fr))
    (hdigits : wires.map w = ((List.range wires.length).map n.testBit).map bitScalar) :
    (Step.digits total wires label).Holds w := by
  refine (Step.holds_digits_iff hw).mpr ⟨?_, fun i hi => ?_⟩
  · have hnumber : Nat.ofBits ((List.range wires.length).map n.testBit).get = n := by
      refine Nat.eq_of_testBit_eq fun i => ?_
      rw [Nat.testBit_ofBits]
      split
      · next hi => simp
      · next hi =>
        rw [List.length_map, List.length_range, not_lt] at hi
        exact (Nat.testBit_lt_two_pow (hn.trans_le (Nat.pow_le_pow_right (by decide) hi))).symm
    rw [sum_weighted wires _ 0 hdigits, hnumber, pow_zero, one_mul, htotal]
  · have hmem : w i ∈ ((List.range wires.length).map n.testBit).map bitScalar :=
      hdigits ▸ List.mem_map_of_mem hi
    obtain ⟨b, -, hb⟩ := List.mem_map.mp hmem
    rw [← hb]
    exact bitScalar_eq_zero_or_one b

end MerkleSnark
