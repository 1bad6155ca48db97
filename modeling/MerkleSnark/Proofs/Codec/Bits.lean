import Mathlib
import MerkleSnark.Codec.Bits
import MerkleSnark.Sha256.Compress

/-!
# Bytes and bits of numbers

The bytes of a number give the number back, word by word also from a whole block, and their bits
are the binary digits of the number, the highest first.

## Main results

* `Bytes.toNat_ofNat` — the number that the bytes of a number spell.
* `Bytes.ofNat_toNat` — the bytes of the number that bytes spell.
* `bytesToBits_ofNat` — the bits of the bytes of a number.
* `Sha256.blockWords_flatMap` — the words of the bytes of words.
-/

namespace MerkleSnark

namespace Bytes

theorem toNat_toUInt8 (n : ℕ) : n.toUInt8.toNat = n % 256 := UInt8.toNat_ofNat'

theorem toNat_ofNat (width n : ℕ) : toNat (ofNat width n) = n % 256 ^ width := by
  -- the bytes before the ones that are read move up by the width
  have hfold : ∀ acc, (ofNat width n).foldl (fun acc b => acc * 256 + b.toNat) acc
      = acc * 256 ^ width + n % 256 ^ width := by
    induction width with
    | zero =>
      intro acc
      rw [pow_zero, mul_one, Nat.mod_one]
      rfl
    | succ width ih =>
      intro acc
      have hshift : n >>> (8 * width) = n / 256 ^ width := by
        rw [Nat.shiftRight_eq_div_pow, pow_mul]
        rfl
      rw [ofNat, List.foldl_cons, ih, toNat_toUInt8, hshift, Nat.mod_pow_succ, pow_succ]
      ring
  unfold toNat
  rw [hfold, zero_mul, zero_add]

theorem toNat_cons (b : UInt8) (bs : Bytes) :
    toNat (b :: bs) = b.toNat * 256 ^ bs.length + toNat bs := by
  have hfold : ∀ acc, bs.foldl (fun acc b => acc * 256 + b.toNat) acc
      = acc * 256 ^ bs.length + toNat bs := by
    unfold toNat
    induction bs with
    | nil => simp
    | cons c bs ih =>
      intro acc
      rw [List.foldl_cons, List.foldl_cons, ih, ih (0 * 256 + c.toNat), List.length_cons, pow_succ]
      ring
  rw [toNat, List.foldl_cons, hfold, zero_mul, zero_add]

theorem toNat_lt (bs : Bytes) : bs.toNat < 256 ^ bs.length := by
  induction bs with
  | nil => exact Nat.one_pos
  | cons b bs ih =>
    have hb : b.toNat < 256 := b.toNat_lt
    rw [toNat_cons, List.length_cons, pow_succ]
    nlinarith

/-- Bytes of one length that spell one number are the same. -/
theorem eq_of_toNat_eq {bs cs : Bytes} (hlength : bs.length = cs.length)
    (h : bs.toNat = cs.toNat) : bs = cs := by
  induction bs generalizing cs with
  | nil => exact (List.length_eq_zero_iff.mp hlength.symm).symm
  | cons b bs ih =>
    cases cs with
    | nil => cases hlength
    | cons c cs =>
      have hrest : bs.length = cs.length := Nat.succ.inj hlength
      have hbs := toNat_lt bs
      have hcs := toNat_lt cs
      rw [toNat_cons, toNat_cons, hrest] at h
      rw [hrest] at hbs
      -- the first bytes are the quotients by the same power, the rests the remainders
      have hpos : 0 < 256 ^ cs.length := by positivity
      have hhead : b.toNat = c.toNat := by
        have hdiv := congrArg (· / 256 ^ cs.length) h
        rwa [Nat.mul_comm, Nat.mul_add_div hpos, Nat.div_eq_of_lt hbs, Nat.mul_comm c.toNat,
          Nat.mul_add_div hpos, Nat.div_eq_of_lt hcs, Nat.add_zero, Nat.add_zero] at hdiv
      rw [UInt8.toNat_inj.mp hhead, ih hrest (by rw [hhead] at h; exact Nat.add_left_cancel h)]

theorem ofNat_toNat (bs : Bytes) : ofNat bs.length bs.toNat = bs := by
  refine eq_of_toNat_eq (length_ofNat _ _) ?_
  rw [toNat_ofNat, Nat.mod_eq_of_lt (toNat_lt bs)]

end Bytes

theorem bitAt_eq (n place : ℕ) : bitAt n place = ((n.testBit place).toNat : ℤ) := by
  unfold bitAt
  rw [Nat.toNat_testBit, Nat.shiftRight_eq_div_pow]

theorem bytesToBits_cons (b : UInt8) (bytes : Bytes) :
    bytesToBits (b :: bytes) = byteBits b ++ bytesToBits bytes := List.flatMap_cons

theorem bytesToBits_append (a b : Bytes) : bytesToBits (a ++ b) = bytesToBits a ++ bytesToBits b :=
  List.flatMap_append

@[simp] theorem length_bytesToBits (bytes : Bytes) :
    (bytesToBits bytes).length = 8 * bytes.length := by
  induction bytes with
  | nil => rfl
  | cons b bytes ih =>
    rw [bytesToBits_cons, List.length_append, ih, List.length_cons]
    show 8 + 8 * bytes.length = 8 * (bytes.length + 1)
    ring

/-- The bits of a byte of a number. -/
theorem byteBits_toUInt8 (n k : ℕ) :
    byteBits (n >>> (8 * k)).toUInt8
      = (List.range 8).map fun j => bitAt n (8 * k + (7 - j)) := by
  have hbit : ∀ i < 8, bitAt (n >>> (8 * k)).toUInt8.toNat i = bitAt n (8 * k + i) := by
    intro i hi
    rw [bitAt_eq, bitAt_eq, Bytes.toNat_toUInt8, show 256 = 2 ^ 8 from rfl, Nat.testBit_mod_two_pow,
      decide_eq_true hi, Bool.true_and, Nat.testBit_shiftRight]
  have hplaces : [7, 6, 5, 4, 3, 2, 1, 0] = (List.range 8).map fun j => 7 - j := rfl
  unfold byteBits
  rw [hplaces, List.map_map]
  refine List.map_congr_left fun j hj => hbit (7 - j) ?_
  have hj := List.mem_range.mp hj
  omega

/-- The bits of the bytes of a number are its binary digits. -/
theorem bytesToBits_ofNat (width n : ℕ) :
    bytesToBits (Bytes.ofNat width n)
      = (List.range (8 * width)).map fun j => bitAt n (8 * width - 1 - j) := by
  induction width with
  | zero => rfl
  | succ width ih =>
    rw [Bytes.ofNat, bytesToBits_cons, byteBits_toUInt8, ih,
      show 8 * (width + 1) = 8 + 8 * width by ring, List.range_add, List.map_append, List.map_map]
    congr 1
    · refine List.map_congr_left fun j hj => congrArg (bitAt n) ?_
      have hj := List.mem_range.mp hj
      omega
    · refine List.map_congr_left fun j hj => congrArg (bitAt n) ?_
      show 8 * width - 1 - j = 8 + 8 * width - 1 - (8 + j)
      omega

/-- The words of a block are the numbers whose bytes it is made of. -/
theorem Sha256.blockWords_flatMap {ns : List ℕ} (h : ∀ n ∈ ns, n < 2 ^ 32) :
    blockWords (ns.flatMap (Bytes.ofNat 4)) = ns := by
  induction ns with
  | nil => rfl
  | cons n ns ih =>
    have hn : Bytes.toNat (Bytes.ofNat 4 n) = n := by
      rw [Bytes.toNat_ofNat]
      exact Nat.mod_eq_of_lt (h n List.mem_cons_self)
    have hstep : blockWords ((n :: ns).flatMap (Bytes.ofNat 4))
        = Bytes.toNat (Bytes.ofNat 4 n) :: blockWords (ns.flatMap (Bytes.ofNat 4)) := rfl
    rw [hstep, hn, ih fun m hm => h m (List.mem_cons_of_mem n hm)]

theorem length_flatMap_ofNat (ns : List ℕ) :
    (ns.flatMap (Bytes.ofNat 4)).length = 4 * ns.length := by
  induction ns with
  | nil => rfl
  | cons n ns ih =>
    rw [List.flatMap_cons, List.length_append, Bytes.length_ofNat, ih, List.length_cons]
    ring

end MerkleSnark
