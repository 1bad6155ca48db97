import Mathlib
import MerkleSnark.Sha256.Compress

/-!
# Words as natural numbers

The bits of the functions on words that the compression function is made of, for words that are
natural numbers below `2 ^ 32`.

## Main results

* `lowBits_natCast`, `and_wordMask` — the two ways to take low bits.
* `testBit_rotateRight` — the bits of a rotated word.
* `testBit_choice`, `testBit_majority` — the bits of the two bitwise functions.
* `scheduleWord_eq`, `round_natCast`, `feedForward_natCast` — the three parts of the compression
  function, with every sum reduced once.
* `size_schedule`, `rounds_eq` — the message schedule in the rounds.
* `twoToOne?_eq` — the hash of two digests.
-/

namespace MerkleSnark.Sha256

theorem lowBits_natCast (n : ℕ) : lowBits (n : ℤ) = n % 2 ^ 32 := by
  unfold lowBits
  rw [Nat.one_shiftLeft, ← Int.natCast_emod, Int.toNat_natCast]

theorem lowBits_of_lt {n : ℕ} (h : n < 2 ^ 32) : lowBits (n : ℤ) = n := by
  rw [lowBits_natCast, Nat.mod_eq_of_lt h]

theorem wordMask_eq : wordMask = 2 ^ 32 - 1 := by decide

theorem and_wordMask (n : ℕ) : n &&& wordMask = n % 2 ^ 32 := by
  rw [wordMask_eq, Nat.and_two_pow_sub_one_eq_mod]

theorem rotateRight_natCast (n k : ℕ) :
    rotateRight (n : ℤ) k = (n >>> k) % 2 ^ 32 ||| (n * 2 ^ (32 - k)) % 2 ^ 32 := by
  unfold rotateRight
  rw [Nat.one_shiftLeft, ← Int.natCast_mul, lowBits_natCast]
  have hshift : ((n : ℤ) >>> k) = ((n >>> k : ℕ) : ℤ) := rfl
  rw [hshift, lowBits_natCast]

theorem rotateRight_lt (n k : ℕ) : rotateRight (n : ℤ) k < 2 ^ 32 := by
  rw [rotateRight_natCast]
  exact Nat.or_lt_two_pow (Nat.mod_lt _ (Nat.two_pow_pos 32)) (Nat.mod_lt _ (Nat.two_pow_pos 32))

/-- The bits of a rotated word: the low ones come from `k` places above, the others from below. -/
theorem testBit_rotateRight {n k i : ℕ} (hn : n < 2 ^ 32) (hk : k ≤ 32) (hi : i < 32) :
    (rotateRight (n : ℤ) k).testBit i
      = if i + k < 32 then n.testBit (i + k) else n.testBit (i + k - 32) := by
  rw [rotateRight_natCast, Nat.testBit_or, Nat.testBit_mod_two_pow, Nat.testBit_mod_two_pow,
    Nat.testBit_shiftRight, Nat.testBit_mul_two_pow, decide_eq_true hi, Bool.true_and,
    Bool.true_and, Nat.add_comm k i]
  by_cases hlow : i + k < 32
  · rw [if_pos hlow, decide_eq_false (by omega), Bool.false_and, Bool.or_false]
  · have hhigh : n.testBit (i + k) = false :=
      Nat.testBit_lt_two_pow (hn.trans_le (Nat.pow_le_pow_right (by decide) (not_lt.mp hlow)))
    rw [if_neg hlow, hhigh, Bool.false_or, decide_eq_true (by omega), Bool.true_and]
    congr 1
    omega

/-! ### The bitwise functions -/

theorem testBit_wordMask {i : ℕ} (hi : i < 32) : wordMask.testBit i = true := by
  rw [wordMask_eq, Nat.testBit_two_pow_sub_one, decide_eq_true hi]

theorem testBit_choice (e f g : ℕ) {i : ℕ} (hi : i < 32) :
    ((e &&& f) ^^^ ((wordMask ^^^ e) &&& g)).testBit i
      = if e.testBit i then f.testBit i else g.testBit i := by
  rw [Nat.testBit_xor, Nat.testBit_and, Nat.testBit_and, Nat.testBit_xor, testBit_wordMask hi]
  cases e.testBit i <;> simp

theorem choice_lt {e f g : ℕ} (hf : f < 2 ^ 32) (hg : g < 2 ^ 32) :
    (e &&& f) ^^^ ((wordMask ^^^ e) &&& g) < 2 ^ 32 :=
  Nat.xor_lt_two_pow (Nat.and_lt_two_pow _ hf) (Nat.and_lt_two_pow _ hg)

theorem testBit_majority (a b c i : ℕ) :
    ((a &&& b) ^^^ (a &&& c) ^^^ (b &&& c)).testBit i
      = if b.testBit i = c.testBit i then b.testBit i else a.testBit i := by
  rw [Nat.testBit_xor, Nat.testBit_xor, Nat.testBit_and, Nat.testBit_and, Nat.testBit_and]
  cases a.testBit i <;> cases b.testBit i <;> cases c.testBit i <;> rfl

theorem majority_lt {a b c : ℕ} (hb : b < 2 ^ 32) (hc : c < 2 ^ 32) :
    (a &&& b) ^^^ (a &&& c) ^^^ (b &&& c) < 2 ^ 32 :=
  Nat.xor_lt_two_pow (Nat.xor_lt_two_pow (Nat.and_lt_two_pow _ hb) (Nat.and_lt_two_pow _ hc))
    (Nat.and_lt_two_pow _ hc)

/-! ### The parts of the compression function -/

theorem scheduleWord_eq (v : Array ℕ) (t : ℕ) :
    scheduleWord v t
      = [v.getD (t - 16) 0,
          rotateRight (v.getD (t - 15) 0 : ℕ) 7 ^^^ rotateRight (v.getD (t - 15) 0 : ℕ) 18
            ^^^ (v.getD (t - 15) 0 >>> 3),
          v.getD (t - 7) 0,
          rotateRight (v.getD (t - 2) 0 : ℕ) 17 ^^^ rotateRight (v.getD (t - 2) 0 : ℕ) 19
            ^^^ (v.getD (t - 2) 0 >>> 10)].sum % 2 ^ 32 := by
  unfold scheduleWord
  rw [and_wordMask]
  congr 1
  simp only [List.sum_cons, List.sum_nil]
  ring

/-- The words of a state are below `2 ^ 32`. -/
def State.Bounded (n : State ℕ) : Prop := ∀ x ∈ n.toList, x < 2 ^ 32

theorem State.Bounded.map_lowBits {n : State ℕ} (h : n.Bounded) :
    (n.map Nat.cast).map lowBits = n := by
  have hword : ∀ x ∈ n.toList, lowBits (x : ℤ) = x := fun x hx => lowBits_of_lt (h x hx)
  simp only [State.toList, List.forall_mem_cons] at hword
  obtain ⟨ha, hb, hc, hd, he, hf, hg, hh, -⟩ := hword
  cases n
  simp only [State.map, ha, hb, hc, hd, he, hf, hg, hh]

/-- A round of a state of words. -/
theorem round_natCast {n : State ℕ} (hn : n.Bounded) (k m : ℕ) :
    round (n.map Nat.cast) k m
      = State.map Nat.cast
        ⟨[n.h, rotateRight (n.e : ℤ) 6 ^^^ rotateRight (n.e : ℤ) 11 ^^^ rotateRight (n.e : ℤ) 25,
            (n.e &&& n.f) ^^^ ((wordMask ^^^ n.e) &&& n.g), k % 2 ^ 32, m,
            rotateRight (n.a : ℤ) 2 ^^^ rotateRight (n.a : ℤ) 13 ^^^ rotateRight (n.a : ℤ) 22,
            (n.a &&& n.b) ^^^ (n.a &&& n.c) ^^^ (n.b &&& n.c)].sum % 2 ^ 32,
          n.a, n.b, n.c,
          [n.d, n.h,
            rotateRight (n.e : ℤ) 6 ^^^ rotateRight (n.e : ℤ) 11 ^^^ rotateRight (n.e : ℤ) 25,
            (n.e &&& n.f) ^^^ ((wordMask ^^^ n.e) &&& n.g), k % 2 ^ 32, m].sum % 2 ^ 32,
          n.e, n.f, n.g⟩ := by
  unfold round
  rw [hn.map_lowBits]
  simp only [State.map, and_wordMask, List.sum_cons, List.sum_nil]
  congr 2 <;> omega

theorem feedForward_natCast (n m : State ℕ) :
    feedForward (n.map Nat.cast) (m.map Nat.cast)
      = ⟨(n.a + m.a) % 2 ^ 32, (n.b + m.b) % 2 ^ 32, (n.c + m.c) % 2 ^ 32, (n.d + m.d) % 2 ^ 32,
        (n.e + m.e) % 2 ^ 32, (n.f + m.f) % 2 ^ 32, (n.g + m.g) % 2 ^ 32,
        (n.h + m.h) % 2 ^ 32⟩ := by
  unfold feedForward
  simp only [State.map, ← Nat.cast_add, lowBits_natCast]

/-! ### The message schedule -/

theorem size_foldl_push (f : Array ℕ → ℕ → ℕ) (l : List ℕ) (v : Array ℕ) :
    (l.foldl (fun w i => w.push (f w i)) v).size = v.size + l.length := by
  induction l generalizing v with
  | nil => rfl
  | cons i l ih =>
    rw [List.foldl_cons, ih, Array.size_push, List.length_cons]
    omega

theorem size_schedule (block : Bytes) : (schedule block).size = (blockWords block).length + 48 := by
  unfold schedule
  rw [size_foldl_push, List.size_toArray, List.length_range]

/-- The rounds read the message schedule by the number of the round. -/
theorem rounds_eq {v : Array ℕ} (hv : roundConstants.length ≤ v.size) (s : State ℤ) :
    (roundConstants.zip v.toList).foldl (fun s p => round s p.1 p.2) s
      = roundConstants.zipIdx.foldl (fun s p => round s p.1 (v.getD p.2 0)) s := by
  have hzip : roundConstants.zip v.toList
      = roundConstants.zipIdx.map fun p => (p.1, v.getD p.2 0) := by
    refine List.ext_getElem (by simpa using hv) fun i hi _ => ?_
    have hi : i < v.size := by simp at hi; omega
    simp [Array.getD, hi]
  rw [hzip, List.foldl_map]

/-! ### The hash of two digests -/

/-- The initial state is made of eight words. -/
theorem exists_initialState : ∃ iv : State ℕ, iv.toList = initialState ∧ iv.Bounded :=
  ⟨⟨_, _, _, _, _, _, _, _⟩, rfl, by unfold State.Bounded; decide⟩

theorem twoToOne?_eq {iv : State ℕ} (hiv : iv.toList = initialState) {left right : Bytes}
    (hleft : left.length = 32) (hright : right.length = 32) :
    twoToOne? left right
      = .ok ((compressState (iv.map Nat.cast) (left ++ right)).toList.flatMap
          (Bytes.ofNat 4)) := by
  have hcompress : compress? (initialState.map Int.ofNat) (left ++ right)
      = .ok (compressState (iv.map Nat.cast) (left ++ right)).toList := by
    unfold compress?
    rw [if_neg (by simp [hleft, hright]), ← hiv]
    rfl
  unfold twoToOne?
  rw [if_neg (by simp [hleft, hright]), hcompress]
  rfl

end MerkleSnark.Sha256
