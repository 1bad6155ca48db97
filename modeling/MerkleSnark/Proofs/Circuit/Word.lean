import Mathlib
import MerkleSnark.Circuit.Word
import MerkleSnark.Proofs.Circuit.Bit
import MerkleSnark.Proofs.Sha256.Compress

/-!
# Words that carry numbers

A word carries a number when its combinations have the binary digits of the number as values.  The
bitwise functions and the packed sum are followed from the numbers that their arguments carry to the
number that the result has to carry, for every assignment that meets the recorded steps.

## Main definitions

* `Word.Carries` — a word has the digits of a number as values.

## Main results

* `Word.Carries.rotateRight`, `Word.Carries.shiftRight` — rearranged words.
* `Word.ensures_xor3`, `Word.ensures_choice`, `Word.ensures_majority` — bitwise functions.
* `Word.eval_pack` — a packed sum has the sum of the numbers as its value.
* `Word.ensures_sumInto`, `Word.ensures_sum` — the sum modulo `2 ^ 32`.
-/

namespace MerkleSnark

open LinearCombination

namespace Word

open DraftM Sha256

variable {w : ℕ → Fr}

/-- The word has the binary digits of the number as values, the highest first. -/
def Carries (w : ℕ → Fr) (x : Word) (n : ℕ) : Prop :=
  n < 2 ^ 32 ∧ ∀ j, (hj : j < 32) → IsBit w x[j] (n.testBit (31 - j))

/-- Nothing but the values of the wires that occur counts. -/
theorem Carries.congr {x : Word} {n : ℕ} {S : Set ℕ} {v : ℕ → Fr} (h : Carries w x n)
    (hx : ∀ a ∈ x, a.Within S) (hwv : ∀ i ∈ S, v i = w i) : Carries v x n := by
  refine ⟨h.1, fun j hj => ⟨(h.2 j hj).1, ?_⟩⟩
  rw [(hx _ (Vector.getElem_mem hj)).eval_eq hwv, (h.2 j hj).2]

/-! ### Words without steps -/

theorem carries_default : Carries w default 0 := by
  refine ⟨by decide, fun j hj => ?_⟩
  have hentry : (default : Word)[j] = 0 := Vector.getElem_replicate hj
  rw [hentry, Nat.zero_testBit]
  exact ⟨Sorted.zero, rfl⟩

theorem carries_const (hw : w oneWire = 1) (n : ℕ) : Carries w (const n) (n % 2 ^ 32) := by
  refine ⟨Nat.mod_lt _ (Nat.two_pow_pos 32), fun j hj => ?_⟩
  have hentry : (const n)[j] = .const (.ofNat scalarOrder ((n >>> (31 - j)) % 2)) :=
    Vector.getElem_ofFn hj
  have hbit : (n % 2 ^ 32).testBit (31 - j) = decide (n >>> (31 - j) % 2 = 1) := by
    rw [Nat.testBit_mod_two_pow, decide_eq_true (by omega), Bool.true_and,
      Nat.testBit_eq_decide_div_mod_eq, Nat.shiftRight_eq_div_pow]
  rw [hentry]
  refine ⟨Sorted.const _, ?_⟩
  rw [eval_const, hw, mul_one, hbit]
  rcases Nat.mod_two_eq_zero_or_one (n >>> (31 - j)) with h | h <;> rw [h] <;> rfl

/-- Consecutive wires carry a number when their values are its digits. -/
theorem carries_ofWires {first n : ℕ} (hn : n < 2 ^ 32)
    (h : ∀ j < 32, w (first + j) = bitScalar (n.testBit (31 - j))) :
    Carries w (ofWires first) n := by
  refine ⟨hn, fun j hj => ?_⟩
  have hentry : (ofWires first)[j] = .var (first + j) := Vector.getElem_ofFn hj
  rw [hentry]
  exact ⟨Sorted.var _, by rw [eval_var, h j hj]⟩

theorem Carries.ofWires {first n : ℕ} (h : Carries w (ofWires first) n) {j : ℕ} (hj : j < 32) :
    w (first + j) = bitScalar (n.testBit (31 - j)) := by
  have hentry : (Word.ofWires first)[j] = .var (first + j) := Vector.getElem_ofFn hj
  have heval := (h.2 j hj).2
  rwa [hentry, eval_var] at heval

/-- Consecutive wires whose values are bits carry a number. -/
theorem exists_carries_ofWires {first : ℕ} (h : ∀ j < 32, w (first + j) = 0 ∨ w (first + j) = 1) :
    ∃ n, Carries w (ofWires first) n := by
  have hbit : ∀ j, ∃ b, j < 32 → w (first + j) = bitScalar b := by
    intro j
    by_cases hj : j < 32
    · obtain ⟨b, hb⟩ := exists_bitScalar_eq (h j hj)
      exact ⟨b, fun _ => hb⟩
    · exact ⟨false, fun hlt => absurd hlt hj⟩
  choose b hb using hbit
  refine ⟨Nat.ofBits fun i : Fin 32 => b (31 - i), carries_ofWires (Nat.ofBits_lt_two_pow _) ?_⟩
  intro j hj
  have hplace : 31 - (31 - j) = j := by omega
  rw [Nat.testBit_ofBits_lt _ _ (by omega), hplace]
  exact hb j hj

theorem Carries.rotateRight {x : Word} {n : ℕ} (h : Carries w x n) {k : ℕ} (hk : k ≤ 32) :
    Carries w (x.rotateRight k) (Sha256.rotateRight (n : ℤ) k) := by
  refine ⟨rotateRight_lt n k, fun j hj => ?_⟩
  have hplace : (j + (32 - k)) % 32 < 32 := Nat.mod_lt _ (by decide)
  have hentry : (x.rotateRight k)[j] = x[(j + (32 - k)) % 32] := Vector.getElem_ofFn hj
  have hbit := h.2 _ hplace
  rw [hentry, testBit_rotateRight h.1 hk (by omega)]
  -- the place wraps around exactly when the bit does not
  by_cases hlow : 31 - j + k < 32
  · rw [if_pos hlow]
    have hindex : 31 - (j + (32 - k)) % 32 = 31 - j + k := by omega
    rwa [hindex] at hbit
  · rw [if_neg hlow]
    have hindex : 31 - (j + (32 - k)) % 32 = 31 - j + k - 32 := by omega
    rwa [hindex] at hbit

theorem Carries.shiftRight {x : Word} {n : ℕ} (h : Carries w x n) (k : ℕ) :
    Carries w (x.shiftRight k) (n >>> k) := by
  refine ⟨(Nat.shiftRight_le n k).trans_lt h.1, fun j hj => ?_⟩
  have hentry : (x.shiftRight k)[j] = if k ≤ j then x[j - k] else 0 := Vector.getElem_ofFn hj
  rw [hentry, Nat.testBit_shiftRight]
  by_cases hk : k ≤ j
  · rw [if_pos hk]
    have hindex : k + (31 - j) = 31 - (j - k) := by omega
    rw [hindex]
    exact h.2 (j - k) (by omega)
  · rw [if_neg hk]
    have hzero : n.testBit (k + (31 - j)) = false :=
      Nat.testBit_lt_two_pow (h.1.trans_le (Nat.pow_le_pow_right (by decide) (by omega)))
    rw [hzero]
    exact ⟨Sorted.zero, rfl⟩

/-! ### Bitwise functions -/

section Bitwise

variable (hw : w oneWire = 1)

include hw

theorem ensures_xor (x y : LinearCombination) (label : String) :
    Ensures w (DraftM.xor x y label) fun z => ∀ a b, IsBit w x a → IsBit w y b →
      IsBit w z (a ^^ b) := by
  refine (DraftM.ensures_xor hw x y label).mono fun z h a b hx hy => ?_
  obtain ⟨hz, heval⟩ := h hx.1 hy.1
  refine ⟨hz, ?_⟩
  rw [heval, hx.2, hy.2]
  cases a <;> cases b <;> decide

theorem ensures_xor3Bit (label : String) (j : ℕ) (x y z : LinearCombination) :
    Ensures w (xor3Bit label j x y z) fun r => ∀ a b c, IsBit w x a → IsBit w y b → IsBit w z c →
      IsBit w r (a ^^ b ^^ c) := by
  unfold xor3Bit
  refine (ensures_xor hw x y _).bind fun t => ?_
  refine (ensures_xor hw t z _).mono fun r hr ht a b c hx hy hz => ?_
  exact hr _ c (ht a b hx hy) hz

theorem ensures_choiceBit (label : String) (j : ℕ) (e f g : LinearCombination) :
    Ensures w (choiceBit label j e f g) fun r => ∀ a b c, IsBit w e a → IsBit w f b → IsBit w g c →
      IsBit w r (if a then b else c) := by
  unfold choiceBit
  refine (ensures_product hw _ _ _ _).mono fun r h a b c he hf hg => ?_
  obtain ⟨hr, heval⟩ := h hg.1 he.1 (hf.1.sub g)
  refine ⟨hr, ?_⟩
  rw [heval, eval_sub, he.2, hf.2, hg.2]
  cases a <;> cases b <;> cases c <;> decide

theorem ensures_majorityBit (label : String) (j : ℕ) (x y z : LinearCombination) :
    Ensures w (majorityBit label j x y z) fun r => ∀ a b c, IsBit w x a → IsBit w y b →
      IsBit w z c → IsBit w r (if b = c then b else a) := by
  unfold majorityBit
  refine (ensures_product hw _ _ _ _).bind fun t => ?_
  refine (ensures_product hw _ _ _ _).mono fun r hr ht a b c hx hy hz => ?_
  obtain ⟨htsorted, hteval⟩ := ht Sorted.zero hy.1 hz.1
  obtain ⟨hrsorted, hreval⟩ := hr htsorted hx.1 ((hy.1.add z).sub _)
  refine ⟨hrsorted, ?_⟩
  rw [hreval, eval_sub, eval_add, eval_scale, hteval, eval_zero, hx.2, hy.2, hz.2]
  cases a <;> cases b <;> cases c <;> decide

/-- The exclusive or of three words. -/
theorem ensures_xor3 (x y z : Word) (label : String) :
    Ensures w (xor3 x y z label) fun r => ∀ a b c, Carries w x a → Carries w y b →
      Carries w z c → Carries w r (a ^^^ b ^^^ c) := by
  unfold xor3
  refine (Ensures.ofFnM fun j => ensures_xor3Bit hw label j x[j] y[j] z[j]).mono ?_
  intro r h a b c hx hy hz
  refine ⟨Nat.xor_lt_two_pow (Nat.xor_lt_two_pow hx.1 hy.1) hz.1, fun j hj => ?_⟩
  rw [Nat.testBit_xor, Nat.testBit_xor]
  exact h ⟨j, hj⟩ _ _ _ (hx.2 j hj) (hy.2 j hj) (hz.2 j hj)

/-- The choice between the bits of two words. -/
theorem ensures_choice (e f g : Word) (label : String) :
    Ensures w (choice e f g label) fun r => ∀ a b c, Carries w e a → Carries w f b →
      Carries w g c → Carries w r ((a &&& b) ^^^ ((wordMask ^^^ a) &&& c)) := by
  unfold choice
  refine (Ensures.ofFnM fun j => ensures_choiceBit hw label j e[j] f[j] g[j]).mono ?_
  intro r h a b c he hf hg
  refine ⟨choice_lt hf.1 hg.1, fun j hj => ?_⟩
  rw [testBit_choice a b c (by omega)]
  exact h ⟨j, hj⟩ _ _ _ (he.2 j hj) (hf.2 j hj) (hg.2 j hj)

/-- The majority of three words. -/
theorem ensures_majority (x y z : Word) (label : String) :
    Ensures w (majority x y z label) fun r => ∀ a b c, Carries w x a → Carries w y b →
      Carries w z c → Carries w r ((a &&& b) ^^^ (a &&& c) ^^^ (b &&& c)) := by
  unfold majority
  refine (Ensures.ofFnM fun j => ensures_majorityBit hw label j x[j] y[j] z[j]).mono ?_
  intro r h a b c hx hy hz
  refine ⟨majority_lt hy.1 hz.1, fun j hj => ?_⟩
  rw [testBit_majority]
  exact h ⟨j, hj⟩ _ _ _ (hx.2 j hj) (hy.2 j hj) (hz.2 j hj)

end Bitwise

/-! ### Sums -/

theorem eval_addMultiple (total x : LinearCombination) (c : Fr) :
    (addMultiple total x c).eval w = total.eval w + x.eval w * c := by
  unfold addMultiple
  rw [eval_foldl_addTerm, eval_eq_sum x, ← List.sum_map_mul_right]
  refine congrArg (total.eval w + List.sum ·) (List.map_congr_left fun t _ => ?_)
  rw [mul_right_comm]

/-- The bits of a number from place `k` on spell what is left of it below their weight. -/
theorem sum_weightedBits {n : ℕ} (bits : List LinearCombination) (k : ℕ)
    (hlength : k + bits.length = 32)
    (h : ∀ i, (hi : i < bits.length) → IsBit w bits[i] (n.testBit (31 - (k + i)))) :
    ((bits.zipIdx k).map fun p =>
        p.1.eval w * Residue.ofNat scalarOrder (1 <<< (31 - p.2))).sum
      = ((n % 2 ^ bits.length : ℕ) : Fr) := by
  induction bits generalizing k with
  | nil =>
    rw [List.length_nil, pow_zero, Nat.mod_one, Nat.cast_zero]
    rfl
  | cons x bits ih =>
    rw [List.length_cons] at hlength
    have hx := (h 0 (Nat.succ_pos _)).2
    have hrest := ih (k + 1) (by omega) fun i hi => by
      have hplace : 31 - (k + 1 + i) = 31 - (k + (i + 1)) := by omega
      rw [hplace]
      exact h (i + 1) (Nat.succ_lt_succ hi)
    have hweight : 31 - k = bits.length := by omega
    rw [List.getElem_cons_zero, add_zero, hweight] at hx
    rw [List.zipIdx_cons, List.map_cons, List.sum_cons, hrest, hx, ofNat_shiftLeft, hweight,
      List.length_cons, Nat.mod_pow_succ, ← Nat.toNat_testBit, Nat.cast_add, Nat.cast_mul,
      Nat.cast_pow, Nat.cast_ofNat, natCast_toNat]
    ring

/-- **A packed sum has the sum of the numbers as its value.** -/
theorem eval_pack {words : List Word} {ns : List ℕ} (h : List.Forall₂ (Carries w) words ns) :
    (pack (words.map Vector.toList)).eval w = ((ns.sum : ℕ) : Fr) := by
  unfold pack
  rw [eval_foldl (fun x word => eval_foldl (fun x p => eval_addMultiple x p.1 _) word.zipIdx x),
    eval_zero, zero_add]
  induction h with
  | nil => exact Nat.cast_zero.symm
  | @cons word n words ns hword hrest ih =>
    rw [List.map_cons, List.map_cons, List.sum_cons, List.sum_cons, ih, Nat.cast_add]
    congr 1
    have hlength : word.toList.length = 32 := word.length_toList
    rw [sum_weightedBits (n := n) word.toList 0 (by rw [hlength]) ?_, hlength,
      Nat.mod_eq_of_lt hword.1]
    intro i hi
    rw [Vector.getElem_toList, zero_add]
    exact hword.2 i _

/-- The digits that a sum is given are enough for it. -/
theorem sum_lt {ns : List ℕ} (h : ∀ n ∈ ns, n < 2 ^ 32) :
    ns.sum < 2 ^ (32 + carryBits ns.length) := by
  have hmost : ns.sum ≤ ns.length * (1 <<< 32 - 1) := by
    refine List.sum_le_card_nsmul _ _ fun n hn => ?_
    have hlt := h n hn
    rw [Nat.one_shiftLeft]
    omega
  refine hmost.trans_lt ?_
  rw [carryBits]
  by_cases hzero : ns.length * (1 <<< 32 - 1) = 0
  · rw [hzero]
    exact Nat.two_pow_pos _
  · rw [if_neg hzero]
    exact Nat.lt_log2_self.trans_le (Nat.pow_le_pow_right (by decide) (by omega))

theorem sum_lt_of_carries {words : List Word} {ns : List ℕ}
    (h : List.Forall₂ (Carries w) words ns) : ns.sum < 2 ^ (32 + carryBits words.length) := by
  rw [h.length_eq]
  refine sum_lt fun n hn => ?_
  obtain ⟨i, hi, rfl⟩ := List.getElem_of_mem hn
  exact (List.forall₂_iff_get.mp h |>.2 i (h.length_eq ▸ hi) hi).1

/-- A sum that could not reach `2 ^ 253` has digits for numbers below the order of the field only. -/
theorem two_pow_le_scalarOrder {count : ℕ} (h : count * (2 ^ 32 - 1) < 2 ^ 253) :
    2 ^ (32 + carryBits count) ≤ scalarOrder := by
  have hbits : 32 + carryBits count ≤ 253 := by
    rw [carryBits, Nat.one_shiftLeft]
    split
    · decide
    · next hne =>
      have hlog := (Nat.log2_lt hne).mpr h
      omega
  exact (Nat.pow_le_pow_right (by decide) hbits).trans (by decide)

/-! ### The digits of a sum -/

/-- The digits of a number stand on wires: the thirty-two low ones on those of the result, the highest
first, and all others on those of the carry, the lowest first. -/
structure DigitsOn (w : ℕ → Fr) (result : Vector ℕ 32) (carry : List ℕ) (n : ℕ) : Prop where
  /-- The digits of the remainder. -/
  low : ∀ j, (hj : j < 32) → w result[j] = bitScalar ((n % 2 ^ 32).testBit (31 - j))
  /-- The digits of the quotient. -/
  high : ∀ k, (hk : k < carry.length) → w carry[k] = bitScalar ((n / 2 ^ 32).testBit k)
  /-- The quotient has no others. -/
  quotient_lt : n / 2 ^ 32 < 2 ^ carry.length

variable {result : Vector ℕ 32} {carry count : ℕ}

theorem toList_range' (first : ℕ) : (Vector.range' first 32).toList = List.range' first 32 :=
  Array.toList_range'

theorem length_digitWires (wires : List ℕ) (carry count : ℕ) :
    (digitWires wires carry count).length = wires.length + count := by
  rw [digitWires, List.length_append, List.length_reverse, List.length_range']

theorem getElem?_digitWires_low {j : ℕ} (hj : j < 32) :
    (digitWires result.toList carry count)[31 - j]? = some result[j] := by
  have hlength : result.toList.length = 32 := result.length_toList
  have hplace : 32 - 1 - (31 - j) = j := by omega
  rw [digitWires, List.getElem?_append_left (by rw [List.length_reverse]; omega),
    List.getElem?_reverse (by omega), hlength, hplace, List.getElem?_eq_getElem (by omega),
    Vector.getElem_toList]

theorem getElem?_digitWires_high {k : ℕ} (hk : k < count) :
    (digitWires result.toList carry count)[32 + k]? = some (carry + k) := by
  have hlength : result.toList.reverse.length = 32 := by
    rw [List.length_reverse, Vector.length_toList]
  rw [digitWires, List.getElem?_append_right (by omega), hlength, Nat.add_sub_cancel_left,
    List.getElem?_range' hk, one_mul]

section Sum

variable (hw : w oneWire = 1)

include hw

/-- **The digits of a sum are forced.**  The packed equation holds modulo the order of the field only;
the words are few enough that both sides lie below it. -/
theorem digitsOn_of_holds {words : List Word} {label : String}
    (hmany : words.length * (2 ^ 32 - 1) < 2 ^ 253)
    (hholds : (Step.digits (pack (words.map Vector.toList))
      (digitWires result.toList carry (carryBits words.length)) label).Holds w)
    {ns : List ℕ} (hns : List.Forall₂ (Carries w) words ns) :
    DigitsOn w result (List.range' carry (carryBits words.length)) ns.sum := by
  obtain ⟨m, hm, htotal, hdigits⟩ := Step.exists_digits hw hholds
  -- the number of the digits and the sum are of the same class, and both are below the order
  have hsum := sum_lt_of_carries hns
  have horder := two_pow_le_scalarOrder hmany
  rw [length_digitWires, Vector.length_toList] at hm
  rw [eval_pack hns, Residue.natCast_eq_natCast_iff, Nat.mod_eq_of_lt (hsum.trans_le horder),
    Nat.mod_eq_of_lt (hm.trans_le horder)] at htotal
  subst htotal
  refine ⟨fun j hj => ?_, fun k hk => ?_, ?_⟩
  · rw [hdigits _ _ (getElem?_digitWires_low hj), Nat.testBit_mod_two_pow,
      decide_eq_true (by omega), Bool.true_and]
  · rw [List.length_range'] at hk
    rw [List.getElem_range', one_mul, hdigits _ _ (getElem?_digitWires_high hk),
      Nat.testBit_div_two_pow, Nat.add_comm]
  · rw [List.length_range']
    exact Nat.div_lt_of_lt_mul (by rwa [← pow_add])

/-- The sum on consecutive wires. -/
theorem ensures_sumInto (words : List Word) (label : String) (result : ℕ)
    (hmany : words.length * (2 ^ 32 - 1) < 2 ^ 253) :
    Ensures w (sumInto words label result) fun _ => ∀ ns, List.Forall₂ (Carries w) words ns →
      Carries w (ofWires result) (ns.sum % 2 ^ 32) := by
  unfold sumInto sumOn
  refine (ensures_allocateBlock _ _).bind fun carry => ?_
  refine (ensures_record _).mono fun _ hholds _ ns hns => ?_
  have hdigits := digitsOn_of_holds hw hmany hholds hns
  refine carries_ofWires (Nat.mod_lt _ (Nat.two_pow_pos 32)) fun j hj => ?_
  have hlow := hdigits.low j hj
  rwa [Vector.getElem_range', one_mul] at hlow

/-- The sum on fresh wires. -/
theorem ensures_sum (words : List Word) (label : String)
    (hmany : words.length * (2 ^ 32 - 1) < 2 ^ 253) :
    Ensures w (sum words label) fun z => ∀ ns, List.Forall₂ (Carries w) words ns →
      Carries w z (ns.sum % 2 ^ 32) := by
  unfold sum
  refine (ensures_allocateBlock _ _).bind fun result => ?_
  refine (ensures_sumInto hw words label result hmany).bind fun _ => ?_
  exact Ensures.pure fun h _ => h

end Sum

end Word

end MerkleSnark
