import Mathlib
import MerkleSnark.Sha256.Digest
import MerkleSnark.Proofs.Codec.Bits
import MerkleSnark.Proofs.Sha256.Compress
import MerkleSnark.Proofs.Sha256.Standard

/-!
# The compression functions and the standard

The compression is computed twice, on integers that are masked and on machine words.  Both follow
the standard: their schedules hold its schedule words, and their rounds keep its state.

## Main definitions

* `Standard.numbers` — a state of words as integers.
* `Follows` — the first entries of an array are those of a sequence.

## Main results

* `follows_foldl_push` — an array that is filled by a recurrence.
* `compressState_numbers` — the compression of integers follows the standard.
* `Word.compress_toBitVec` — the compression of machine words follows the standard.
-/

namespace MerkleSnark.Sha256

open Standard (choice majority upperSigma0 upperSigma1 lowerSigma0 lowerSigma1 roundWord)

/-! ### Arrays and rounds -/

/-- The entries of an array are the first ones of a sequence. -/
def Follows {α : Type} (v : Array α) (d : α) (seq : ℕ → α) (n : ℕ) : Prop :=
  v.size = n ∧ ∀ t < n, v.getD t d = seq t

/-- An array that is filled by a recurrence follows the sequence of this recurrence. -/
theorem follows_foldl_push {α : Type} {d : α} {seq : ℕ → α} {f : Array α → ℕ → α} {v : Array α}
    {m : ℕ} (hv : Follows v d seq m)
    (hstep : ∀ u t, m ≤ t → Follows u d seq t → f u t = seq t) (n : ℕ) :
    Follows ((List.range n).foldl (fun u i => u.push (f u (i + m))) v) d seq (n + m) := by
  induction n with
  | zero => rwa [List.range_zero, List.foldl_nil, Nat.zero_add]
  | succ n ih =>
    rw [List.range_succ, List.foldl_append, List.foldl_cons, List.foldl_nil,
      hstep _ _ (Nat.le_add_left m n) ih]
    obtain ⟨hsize, hentries⟩ := ih
    refine ⟨by rw [Array.size_push, hsize]; omega, fun t ht => ?_⟩
    rw [Array.getD_eq_getD_getElem?, Array.getElem?_push, hsize]
    by_cases hlast : t = n + m
    · rw [if_pos hlast, hlast, Option.getD_some]
    · rw [if_neg hlast, ← Array.getD_eq_getD_getElem?]
      exact hentries t (by omega)

/-- Rounds that are numbered, in place of rounds that go through two lists. -/
theorem foldl_zip {α β σ : Type} {c : α} {d : β} {seq : ℕ → β} {constants : List α} {v : Array β}
    {n : ℕ} (hlength : constants.length = n) (hv : Follows v d seq n) (f : σ → α → β → σ) (s : σ) :
    (constants.zip v.toList).foldl (fun s p => f s p.1 p.2) s
      = (List.range n).foldl (fun s t => f s (constants.getD t c) (seq t)) s := by
  have hzip : constants.zip v.toList
      = (List.range n).map fun t => (constants.getD t c, seq t) := by
    refine List.ext_getElem (by simp [hv.1, hlength]) fun t _ ht => ?_
    have ht : t < n := by simpa using ht
    have hentry := hv.2 t ht
    rw [Array.getD_eq_getD_getElem?, Array.getElem?_eq_getElem (ht.trans_eq hv.1.symm)] at hentry
    rw [List.getElem_zip, List.getElem_map, List.getElem_range,
      List.getD_eq_getElem _ _ (ht.trans_eq hlength.symm), ← hentry]
    rfl
  rw [hzip, List.foldl_map]

/-- Steps on images are images of steps. -/
theorem foldl_simulates {α β ι : Type} {image : α → β} {f : α → ι → α} {g : β → ι → β} {l : List ι}
    (h : ∀ a, ∀ i ∈ l, g (image a) i = image (f a i)) (a : α) :
    l.foldl g (image a) = image (l.foldl f a) := by
  induction l generalizing a with
  | nil => rfl
  | cons i l ih =>
    rw [List.foldl_cons, List.foldl_cons, h a i List.mem_cons_self]
    exact ih (fun a j hj => h a j (List.mem_cons_of_mem i hj)) (f a i)

/-! ### Integers -/

/-- The words of a state as integers. -/
def Standard.numbers (v : State Standard.Word) : State ℤ := v.map fun x => (x.toNat : ℤ)

theorem rotateRight_toNat (x : Standard.Word) {k : ℕ} (hk : k < 32) :
    rotateRight (x.toNat : ℤ) k = (x.rotateRight k).toNat := by
  refine Nat.eq_of_testBit_eq fun i => ?_
  by_cases hi : i < 32
  · rw [testBit_rotateRight x.isLt hk.le hi, BitVec.testBit_toNat, BitVec.testBit_toNat,
      BitVec.testBit_toNat, BitVec.getLsbD_rotateRight, Nat.mod_eq_of_lt hk]
    by_cases hlow : i + k < 32
    · rw [if_pos hlow, decide_eq_true (by omega), cond_true, Nat.add_comm]
    · rw [if_neg hlow, decide_eq_false (by omega), cond_false, decide_eq_true hi, Bool.true_and]
      congr 1
      omega
  · have hpow : 2 ^ 32 ≤ 2 ^ i := Nat.pow_le_pow_right (by decide) (not_lt.mp hi)
    rw [Nat.testBit_lt_two_pow ((rotateRight_lt _ _).trans_le hpow),
      Nat.testBit_lt_two_pow ((x.rotateRight k).isLt.trans_le hpow)]

theorem choice_toNat (e f g : Standard.Word) :
    (e.toNat &&& f.toNat) ^^^ ((wordMask ^^^ e.toNat) &&& g.toNat) = (choice e f g).toNat := by
  have hnot : wordMask ^^^ e.toNat = (~~~e).toNat := by
    rw [← BitVec.allOnes_xor, BitVec.toNat_xor, BitVec.toNat_allOnes, wordMask_eq]
  rw [hnot, choice, BitVec.toNat_xor, BitVec.toNat_and, BitVec.toNat_and]

theorem majority_toNat (a b c : Standard.Word) :
    (a.toNat &&& b.toNat) ^^^ (a.toNat &&& c.toNat) ^^^ (b.toNat &&& c.toNat)
      = (majority a b c).toNat := by
  rw [majority, BitVec.toNat_xor, BitVec.toNat_xor, BitVec.toNat_and, BitVec.toNat_and,
    BitVec.toNat_and]

theorem bounded_toNat (v : State Standard.Word) : (v.map BitVec.toNat).Bounded := by
  simp only [State.Bounded, State.map, State.toList, List.forall_mem_cons, List.not_mem_nil,
    false_implies, implies_true, and_true]
  exact ⟨v.a.isLt, v.b.isLt, v.c.isLt, v.d.isLt, v.e.isLt, v.f.isLt, v.g.isLt, v.h.isLt⟩

/-- **A round of integers** is a round of the words that they stand for. -/
theorem round_numbers (v : State Standard.Word) (k w : Standard.Word) :
    round (Standard.numbers v) k.toNat w.toNat = Standard.numbers (Standard.round v k w) := by
  have hround := round_natCast (bounded_toNat v) k.toNat w.toNat
  simp only [State.map, rotateRight_toNat _ (show 2 < 32 by decide),
    rotateRight_toNat _ (show 6 < 32 by decide), rotateRight_toNat _ (show 11 < 32 by decide),
    rotateRight_toNat _ (show 13 < 32 by decide), rotateRight_toNat _ (show 22 < 32 by decide),
    rotateRight_toNat _ (show 25 < 32 by decide), ← BitVec.toNat_xor, choice_toNat,
    majority_toNat] at hround
  rw [Standard.numbers, State.map, hround, Standard.numbers, State.map, Standard.round]
  have hk := k.isLt
  simp only [List.sum_cons, List.sum_nil, BitVec.toNat_add, upperSigma0, upperSigma1,
    State.mk.injEq, true_and, and_true, Nat.cast_inj]
  omega

theorem lowerSigma0_toNat (x : Standard.Word) :
    rotateRight (x.toNat : ℤ) 7 ^^^ rotateRight (x.toNat : ℤ) 18 ^^^ (x.toNat >>> 3)
      = (lowerSigma0 x).toNat := by
  rw [rotateRight_toNat x (by decide), rotateRight_toNat x (by decide), lowerSigma0,
    BitVec.toNat_xor, BitVec.toNat_xor, BitVec.toNat_ushiftRight]

theorem lowerSigma1_toNat (x : Standard.Word) :
    rotateRight (x.toNat : ℤ) 17 ^^^ rotateRight (x.toNat : ℤ) 19 ^^^ (x.toNat >>> 10)
      = (lowerSigma1 x).toNat := by
  rw [rotateRight_toNat x (by decide), rotateRight_toNat x (by decide), lowerSigma1,
    BitVec.toNat_xor, BitVec.toNat_xor, BitVec.toNat_ushiftRight]

/-- **The schedule of integers** holds the schedule words. -/
theorem follows_schedule {block : Bytes} {m : ℕ → Standard.Word}
    (hm : Follows (blockWords block).toArray 0 (fun t => (m t).toNat) 16) :
    Follows (schedule block) 0 (fun t => (Standard.schedule m t).toNat) 64 := by
  refine follows_foldl_push (m := 16) ⟨hm.1, fun t ht => ?_⟩ (fun u t ht hu => ?_) 48
  · rw [hm.2 t ht, Standard.schedule_of_lt m ht]
  · have hentry : ∀ i < t, u.getD i 0 = (Standard.schedule m i).toNat := hu.2
    rw [scheduleWord_eq, hentry (t - 16) (by omega), hentry (t - 15) (by omega),
      hentry (t - 7) (by omega), hentry (t - 2) (by omega), lowerSigma0_toNat, lowerSigma1_toNat,
      Standard.schedule_of_le m ht]
    simp only [List.sum_cons, List.sum_nil, BitVec.toNat_add]
    omega

/-- **The compression of integers** follows the standard. -/
theorem compressState_numbers (v : State Standard.Word) {block : Bytes} {m : ℕ → Standard.Word}
    (hm : Follows (blockWords block).toArray 0 (fun t => (m t).toNat) 16) :
    compressState (Standard.numbers v) block = (Standard.compress v m).map BitVec.toNat := by
  have hrounds : (roundConstants.zip (schedule block).toList).foldl (fun s p => round s p.1 p.2)
        (Standard.numbers v)
      = (List.range 64).foldl (fun s t => round s (roundConstants.getD t 0)
        (Standard.schedule m t).toNat) (Standard.numbers v) :=
    foldl_zip rfl (follows_schedule hm) (fun s k w => round s k w) _
  have hstep : (List.range 64).foldl (fun s t => round s (roundConstants.getD t 0)
        (Standard.schedule m t).toNat) (Standard.numbers v)
      = Standard.numbers ((List.range 64).foldl
          (fun u t => Standard.round u (roundWord t) (Standard.schedule m t)) v) := by
    refine foldl_simulates (fun u t ht => ?_) v
    rw [← Standard.toNat_roundWord (List.mem_range.mp ht), round_numbers]
  have hsum (u : State Standard.Word) : feedForward (Standard.numbers v) (Standard.numbers u)
      = (Standard.feedForward v u).map BitVec.toNat :=
    feedForward_natCast (v.map BitVec.toNat) (u.map BitVec.toNat)
  rw [compressState, hrounds, hstep, hsum]
  rfl

/-! ### Machine words -/

namespace Word

/-- A round of machine words is one of the standard. -/
theorem round_toBitVec (s : State UInt32) (k w : UInt32) :
    (round s k w).map UInt32.toBitVec
      = Standard.round (s.map UInt32.toBitVec) k.toBitVec w.toBitVec := rfl

theorem scheduleWord_toBitVec (u : Array UInt32) (t : ℕ) :
    (scheduleWord u t).toBitVec
      = (u.getD (t - 16) 0).toBitVec + lowerSigma0 (u.getD (t - 15) 0).toBitVec
        + (u.getD (t - 7) 0).toBitVec + lowerSigma1 (u.getD (t - 2) 0).toBitVec := rfl

/-- **The schedule of machine words** holds the schedule words. -/
theorem follows_schedule {block : Bytes} {m : ℕ → Standard.Word}
    (hm : Follows (ofBytes block).toArray 0 (fun t => .ofBitVec (m t)) 16) :
    Follows (schedule block) 0 (fun t => .ofBitVec (Standard.schedule m t)) 64 := by
  refine follows_foldl_push (m := 16) ⟨hm.1, fun t ht => ?_⟩ (fun u t ht hu => ?_) 48
  · rw [hm.2 t ht, Standard.schedule_of_lt m ht]
  · have hentry : ∀ i < t, (u.getD i 0).toBitVec = Standard.schedule m i := fun i hi =>
      congrArg UInt32.toBitVec (hu.2 i hi)
    refine UInt32.toBitVec_inj.mp ?_
    rw [scheduleWord_toBitVec, hentry (t - 16) (by omega), hentry (t - 15) (by omega),
      hentry (t - 7) (by omega), hentry (t - 2) (by omega), Standard.schedule_of_le m ht]
    ac_rfl

theorem toBitVec_toUInt32 (x : Standard.Word) : x.toNat.toUInt32.toBitVec = x :=
  BitVec.eq_of_toNat_eq (Nat.mod_eq_of_lt x.isLt)

/-- The table of round constants holds them as machine words. -/
theorem toBitVec_constants {t : ℕ} (ht : t < 64) : (constants.getD t 0).toBitVec = roundWord t := by
  have hlt : t < roundConstants.length := ht
  have hentry : constants.getD t 0 = (roundConstants.getD t 0).toUInt32 := by
    rw [constants, List.getD_eq_getElem?_getD, List.getElem?_map, List.getElem?_eq_getElem hlt,
      List.getD_eq_getElem _ _ hlt]
    rfl
  rw [hentry, ← Standard.toNat_roundWord ht, toBitVec_toUInt32]

/-- **The compression of machine words** follows the standard. -/
theorem compress_toBitVec (s : State UInt32) {block : Bytes} {m : ℕ → Standard.Word}
    (hm : Follows (ofBytes block).toArray 0 (fun t => .ofBitVec (m t)) 16) :
    (compress s block).map UInt32.toBitVec = Standard.compress (s.map UInt32.toBitVec) m := by
  have hrounds : (constants.zip (schedule block).toList).foldl (fun s p => round s p.1 p.2) s
      = (List.range 64).foldl (fun s t => round s (constants.getD t 0)
        (.ofBitVec (Standard.schedule m t))) s :=
    foldl_zip rfl (follows_schedule hm) (fun s k w => round s k w) _
  have hstep : (List.range 64).foldl
        (fun u t => Standard.round u (roundWord t) (Standard.schedule m t)) (s.map UInt32.toBitVec)
      = ((List.range 64).foldl (fun s t => round s (constants.getD t 0)
        (.ofBitVec (Standard.schedule m t))) s).map UInt32.toBitVec := by
    refine foldl_simulates (fun u t ht => ?_) s
    rw [← toBitVec_constants (List.mem_range.mp ht)]
    exact (round_toBitVec u _ (.ofBitVec _)).symm
  rw [Standard.compress, hstep, compress, hrounds]
  rfl

end Word

end MerkleSnark.Sha256
