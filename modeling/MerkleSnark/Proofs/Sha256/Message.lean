import Mathlib
import MerkleSnark.Merkle.Leaf
import MerkleSnark.Proofs.Codec.Hex
import MerkleSnark.Proofs.Sha256.Refinement

/-!
# The hash of a message

A message of bytes is a string of bits.  The bytes that are added to it are the padding of the
standard, its blocks of sixty-four bytes hold the words of the standard, and so the compression of
one block after another gives the hash of the standard.

## Main definitions

* `Bytes.bits` — the bits of bytes.
* `Bytes.quad`, `Bytes.block` — four bytes, and the blocks of a message.
* `compressMessage?` — the compression folded over the blocks of a message.

## Main results

* `wordAt_bits` — a word of a string of bits is spelled by four bytes.
* `compress?_numbers` — the compression of a block.
* `bits_pad` — the padding of a message.
* `compress?_follows_standard` — blocks, messages and leaves are hashed as the standard has it.
-/

namespace MerkleSnark

open Sha256

/-! ### Bits of bytes -/

namespace Bytes

/-- The bits of a byte, the highest first. -/
def bitsOfByte (b : UInt8) : List Bool := (List.range 8).map fun j => b.toNat.testBit (7 - j)

/-- The bits of bytes, eight a byte. -/
def bits (bytes : Bytes) : List Bool := bytes.flatMap bitsOfByte

theorem bits_cons (b : UInt8) (bs : Bytes) : bits (b :: bs) = bitsOfByte b ++ bits bs :=
  List.flatMap_cons

theorem bits_append (as bs : Bytes) : bits (as ++ bs) = bits as ++ bits bs := List.flatMap_append

@[simp] theorem length_bits (bs : Bytes) : (bits bs).length = 8 * bs.length := by
  induction bs with
  | nil => rfl
  | cons b bs ih =>
    have hbyte : (bitsOfByte b).length = 8 := rfl
    rw [bits_cons, List.length_append, ih, hbyte, List.length_cons]
    ring

/-- The bits of bytes as the entries of a digest. -/
theorem bytesToBits_eq (bs : Bytes) : bytesToBits bs = bitEntries bs.bits := by
  have hbyte (b : UInt8) : byteBits b = bitEntries (bitsOfByte b) := by
    simp [byteBits, bitEntries, bitsOfByte, bitAt_eq, List.range_succ]
  induction bs with
  | nil => rfl
  | cons b bs ih =>
    rw [bytesToBits_cons, bits_cons, ih, hbyte, bitEntries, bitEntries, bitEntries, List.map_append]

/-- A bit of bytes is one of the byte at its place. -/
theorem getD_bits (bs : Bytes) (q : ℕ) {r : ℕ} (hr : r < 8) :
    bs.bits.getD (8 * q + r) false = (bs.getD q 0).toNat.testBit (7 - r) := by
  induction bs generalizing q with
  | nil => simp [bits]
  | cons b bs ih =>
    have hbyte : (bitsOfByte b).length = 8 := rfl
    rw [bits_cons]
    cases q with
    | zero =>
      rw [List.getD_append _ _ _ _ (by omega), List.getD_cons_zero, bitsOfByte, mul_zero, zero_add,
        List.getD_eq_getElem _ _ (by simpa using hr), List.getElem_map, List.getElem_range]
    | succ q =>
      rw [List.getD_append_right _ _ _ _ (by omega), List.getD_cons_succ, ← ih q, hbyte]
      congr 1
      omega

/-- A binary digit of the number that bytes spell is one of the byte at its place, counted from the
last one. -/
theorem testBit_toNat (bs : Bytes) {j : ℕ} (hj : j < 8 * bs.length) :
    bs.toNat.testBit j = (bs.getD (bs.length - 1 - j / 8) 0).toNat.testBit (j % 8) := by
  induction bs with
  | nil => exact absurd hj (Nat.not_lt_zero j)
  | cons b bs ih =>
    have hpow : 256 ^ bs.length = 2 ^ (8 * bs.length) := by
      rw [pow_mul]
      rfl
    have hlt : toNat bs < 2 ^ (8 * bs.length) := hpow ▸ toNat_lt bs
    rw [toNat_cons, hpow, mul_comm, Nat.testBit_two_pow_mul_add _ hlt, List.length_cons]
    rw [List.length_cons] at hj
    split
    · next hlow =>
      have hplace : bs.length + 1 - 1 - j / 8 = bs.length - 1 - j / 8 + 1 := by omega
      rw [ih hlow, hplace, List.getD_cons_succ]
    · next hhigh =>
      have hplace : bs.length + 1 - 1 - j / 8 = 0 := by omega
      have hbit : j - 8 * bs.length = j % 8 := by omega
      rw [hplace, hbit, List.getD_cons_zero]

/-- Four bytes, in place `t` of the groups of four. -/
def quad (bs : Bytes) (t : ℕ) : Bytes := (List.range 4).map fun k => bs.getD (4 * t + k) 0

theorem length_quad (bs : Bytes) (t : ℕ) : (bs.quad t).length = 4 := by
  rw [quad, List.length_map, List.length_range]

theorem getD_quad (bs : Bytes) (t : ℕ) {k : ℕ} (hk : k < 4) :
    (bs.quad t).getD k 0 = bs.getD (4 * t + k) 0 := by
  rw [quad, List.getD_eq_getElem?_getD, List.getElem?_map, List.getElem?_range hk, Option.map_some,
    Option.getD_some]

theorem quad_cons_zero (a b c d : UInt8) (bs : Bytes) :
    quad (a :: b :: c :: d :: bs) 0 = [a, b, c, d] := rfl

theorem quad_cons_succ (a b c d : UInt8) (bs : Bytes) (t : ℕ) :
    quad (a :: b :: c :: d :: bs) (t + 1) = bs.quad t := by
  refine List.map_congr_left fun k _ => ?_
  have hplace : 4 * (t + 1) + k = 4 * t + k + 1 + 1 + 1 + 1 := by ring
  rw [hplace, List.getD_cons_succ, List.getD_cons_succ, List.getD_cons_succ, List.getD_cons_succ]

/-- Four bytes spell a number of thirty-two bits. -/
theorem toNat_lt_word {bs : Bytes} (h : bs.length = 4) : bs.toNat < 2 ^ 32 := by
  have hlt := toNat_lt bs
  rw [h] at hlt
  exact hlt.trans_eq (by norm_num)

/-- Block `i` of a message. -/
def block (message : Bytes) (i : ℕ) : Bytes := (message.drop (64 * i)).take 64

theorem length_block {message : Bytes} {i : ℕ} (hi : i < message.length / 64) :
    (message.block i).length = 64 := by
  rw [block, List.length_take, List.length_drop]
  omega

theorem getD_block (message : Bytes) (i : ℕ) {q : ℕ} (hq : q < 64) :
    (message.block i).getD q 0 = message.getD (64 * i + q) 0 := by
  rw [block, List.getD_eq_getElem?_getD, List.getElem?_take_of_lt hq, List.getElem?_drop,
    List.getD_eq_getElem?_getD]

theorem quad_block (message : Bytes) (i : ℕ) {t : ℕ} (ht : t < 16) :
    (message.block i).quad t = message.quad (16 * i + t) := by
  refine List.map_congr_left fun k hk => ?_
  have hk : k < 4 := List.mem_range.mp hk
  have hplace : 64 * i + (4 * t + k) = 4 * (16 * i + t) + k := by ring
  rw [getD_block message i (by omega), hplace]

end Bytes

namespace Sha256

/-! ### Words -/

/-- **A word of a string of bits** is spelled by four bytes. -/
theorem wordAt_bits (bs : Bytes) (t : ℕ) :
    Standard.wordAt bs.bits t = BitVec.ofNat 32 (bs.quad t).toNat := by
  refine BitVec.eq_of_getLsbD_eq fun j hj => ?_
  have hplace : 32 * t + (32 - (j + 1)) = 8 * (4 * t + (3 - j / 8)) + (7 - j % 8) := by omega
  have hlength := Bytes.length_quad bs t
  rw [Standard.wordAt, BitVec.getLsbD_ofFnBE, dif_pos hj, BitVec.getLsbD_ofNat, decide_eq_true hj,
    Bool.true_and, Bytes.testBit_toNat _ (by omega), hlength, Bytes.getD_quad bs t (by omega),
    Fin.val_rev, hplace, Bytes.getD_bits _ _ (by omega)]
  congr 1
  omega

/-- The words of a block are those of the message. -/
theorem wordAt_block (message : Bytes) (i : ℕ) {t : ℕ} (ht : t < 16) :
    Standard.wordAt (message.block i).bits t = Standard.wordAt message.bits (16 * i + t) := by
  rw [wordAt_bits, wordAt_bits, Bytes.quad_block message i ht]

/-- The words of a block are spelled by four bytes each. -/
theorem blockWords_eq (bs : Bytes) :
    blockWords bs = (List.range (bs.length / 4)).map fun t => (bs.quad t).toNat := by
  induction bs using blockWords.induct with
  | case1 a b c d rest ih =>
    have hlength : (a :: b :: c :: d :: rest).length / 4 = rest.length / 4 + 1 := by
      simp only [List.length_cons]
      omega
    rw [blockWords, ih, hlength, List.range_succ_eq_map, List.map_cons, List.map_map,
      Bytes.quad_cons_zero]
    refine congrArg _ (List.map_congr_left fun t _ => ?_)
    rw [Function.comp_apply, Bytes.quad_cons_succ]
  | case2 bs h =>
    have hlength : bs.length / 4 = 0 := by
      match bs, h with
      | [], _ | [_], _ | [_, _], _ | [_, _, _], _ => exact Nat.div_eq_of_lt (by simp)
      | a :: b :: c :: d :: rest, h => exact absurd rfl (h a b c d rest)
    rw [hlength, blockWords]
    · rfl
    · exact h

/-- The bytes of a machine word, put together. -/
theorem Word.shifts_eq (a b c d : UInt8) :
    (a.toUInt32 <<< 24 ||| b.toUInt32 <<< 16 ||| c.toUInt32 <<< 8 ||| d.toUInt32)
      = (Bytes.toNat [a, b, c, d]).toUInt32 := by
  have hb : b.toNat < 2 ^ 8 := b.toNat_lt
  have hc : c.toNat < 2 ^ 8 := c.toNat_lt
  have hd : d.toNat < 2 ^ 8 := d.toNat_lt
  have hnumber : Bytes.toNat [a, b, c, d]
      = a.toNat <<< 24 + (b.toNat <<< 16 + (c.toNat <<< 8 + d.toNat)) := by
    simp only [Bytes.toNat, List.foldl_cons, List.foldl_nil, Nat.shiftLeft_eq]
    ring
  have hlow : c.toNat <<< 8 + d.toNat < 2 ^ 16 := by rw [Nat.shiftLeft_eq]; omega
  have hrest : b.toNat <<< 16 + (c.toNat <<< 8 + d.toNat) < 2 ^ 24 := by
    rw [Nat.shiftLeft_eq b.toNat]
    omega
  have hshift : ∀ x : UInt8, ∀ k ≤ 24, x.toNat <<< k % 2 ^ 32 = x.toNat <<< k := by
    intro x k hk
    have hx : x.toNat < 2 ^ 8 := x.toNat_lt
    refine Nat.mod_eq_of_lt ?_
    calc x.toNat <<< k < 2 ^ 8 * 2 ^ k := by
          rw [Nat.shiftLeft_eq]
          exact Nat.mul_lt_mul_of_pos_right hx (Nat.two_pow_pos k)
      _ ≤ 2 ^ 8 * 2 ^ 24 := Nat.mul_le_mul_left _ (Nat.pow_le_pow_right (by decide) hk)
  -- nothing is lost in a shift, and the bytes do not overlap
  refine UInt32.toNat_inj.mp ?_
  have hvalue : (a.toUInt32 <<< 24 ||| b.toUInt32 <<< 16 ||| c.toUInt32 <<< 8
      ||| d.toUInt32).toNat = a.toNat <<< 24 % 2 ^ 32 ||| b.toNat <<< 16 % 2 ^ 32
        ||| c.toNat <<< 8 % 2 ^ 32 ||| d.toNat := by
    simp only [UInt32.toNat_or, UInt32.toNat_shiftLeft, UInt8.toNat_toUInt32]
    rfl
  rw [hvalue, hshift a 24 le_rfl, hshift b 16 (by decide), hshift c 8 (by decide), Nat.or_assoc,
    Nat.or_assoc, ← Nat.shiftLeft_add_eq_or_of_lt hd, ← Nat.shiftLeft_add_eq_or_of_lt hlow,
    ← Nat.shiftLeft_add_eq_or_of_lt hrest, ← hnumber]
  exact (Nat.mod_eq_of_lt (Bytes.toNat_lt_word rfl)).symm

theorem Word.ofBytes_eq (bs : Bytes) : Word.ofBytes bs = (blockWords bs).map Nat.toUInt32 := by
  induction bs using blockWords.induct with
  | case1 a b c d rest ih => rw [blockWords, Word.ofBytes, ih, List.map_cons, Word.shifts_eq]
  | case2 bs h =>
    rw [blockWords, Word.ofBytes]
    · rfl
    · exact h
    · exact h

/-- The words of a block are those of its bits. -/
theorem getD_blockWords {bs : Bytes} (hlength : bs.length = 64) {t : ℕ} (ht : t < 16) :
    (blockWords bs)[t]? = some (Standard.wordAt bs.bits t).toNat := by
  have hcount : t < bs.length / 4 := by omega
  rw [blockWords_eq, List.getElem?_map, List.getElem?_range hcount, wordAt_bits, Option.map_some,
    BitVec.toNat_ofNat, Nat.mod_eq_of_lt (Bytes.toNat_lt_word (Bytes.length_quad bs t))]

theorem length_blockWords {bs : Bytes} (hlength : bs.length = 64) : (blockWords bs).length = 16 := by
  rw [blockWords_eq, List.length_map, List.length_range, hlength]

theorem follows_blockWords {bs : Bytes} (hlength : bs.length = 64) :
    Follows (blockWords bs).toArray 0 (fun t => (Standard.wordAt bs.bits t).toNat) 16 := by
  refine ⟨length_blockWords hlength, fun t ht => ?_⟩
  rw [Array.getD_eq_getD_getElem?, List.getElem?_toArray, getD_blockWords hlength ht,
    Option.getD_some]

theorem Word.follows_ofBytes {bs : Bytes} (hlength : bs.length = 64) :
    Follows (Word.ofBytes bs).toArray 0 (fun t => .ofBitVec (Standard.wordAt bs.bits t)) 16 := by
  rw [Word.ofBytes_eq]
  refine ⟨by rw [List.size_toArray, List.length_map, length_blockWords hlength], fun t ht => ?_⟩
  rw [Array.getD_eq_getD_getElem?, List.getElem?_toArray, List.getElem?_map,
    getD_blockWords hlength ht, Option.map_some, Option.getD_some]
  exact UInt32.toBitVec_inj.mp (Word.toBitVec_toUInt32 _)

/-! ### Blocks -/

/-- **The compression of a block** is that of the standard. -/
theorem compress?_numbers (v : State Standard.Word) {block : Bytes} (hlength : block.length = 64) :
    compress? (Standard.numbers v).toList block
      = .ok ((Standard.compress v (Standard.wordAt block.bits)).map BitVec.toNat).toList := by
  have hstate : State.ofList? (Standard.numbers v).toList = some (Standard.numbers v) := rfl
  rw [compress?, if_neg (not_not.mpr hlength), hstate,
    ← compressState_numbers v (follows_blockWords hlength)]

/-- The compression folded over the blocks of a message, from the initial state. -/
def compressMessage? (message : Bytes) : Except BlockError (List ℕ) :=
  (List.range (message.length / 64)).foldlM
    (fun words i => compress? (words.map Int.ofNat) (message.block i)) initialState

theorem Standard.compressBlocks_bits (message : Bytes) :
    compressBlocks message.bits = (List.range (message.length / 64)).foldl
      (fun v i => compress v (wordAt (message.block i).bits)) initial := by
  have hcount : message.bits.length / 512 = message.length / 64 := by
    rw [Bytes.length_bits]
    omega
  rw [compressBlocks, hcount]
  refine List.foldl_ext _ _ _ fun v i _ => compress_congr v fun t ht => ?_
  exact (wordAt_block message i ht).symm

/-- **The compression of a message**, one block after another. -/
theorem compressMessage?_eq (message : Bytes) :
    compressMessage? message
      = .ok ((Standard.compressBlocks message.bits).map BitVec.toNat).toList := by
  have hblocks : ∀ n ≤ message.length / 64, (List.range n).foldlM
        (fun words i => compress? (words.map Int.ofNat) (message.block i)) initialState
      = .ok (((List.range n).foldl
          (fun v i => Standard.compress v (Standard.wordAt (message.block i).bits))
            Standard.initial).map BitVec.toNat).toList := by
    intro n
    induction n with
    | zero => exact fun _ => congrArg Except.ok Standard.toList_initial.symm
    | succ n ih =>
      intro hn
      have hlength : (message.block n).length = 64 := Bytes.length_block hn
      rw [List.range_succ, List.foldlM_append, ih (by omega), List.foldl_append]
      exact (bind_pure _).trans (compress?_numbers _ hlength)
  rw [compressMessage?, hblocks _ le_rfl, Standard.compressBlocks_bits]

theorem Word.compressBlocks_eq (s : State UInt32) (message : Bytes) :
    Word.compressBlocks s message = (List.range (message.length / 64)).foldl
      (fun s i => Word.compress s (message.block i)) s := by
  induction s, message using Word.compressBlocks.induct with
  | case1 s message block hshort =>
    have hcount : message.length / 64 = 0 := by
      rw [List.length_take] at hshort
      omega
    rw [Word.compressBlocks, if_pos hshort, hcount]
    rfl
  | case2 s message block hlong ih =>
    have hcount : message.length / 64 = (message.drop 64).length / 64 + 1 := by
      rw [List.length_take] at hlong
      rw [List.length_drop]
      omega
    -- the blocks of the rest are those of the message behind the first one
    have hrest (i : ℕ) : Bytes.block (message.drop 64) i = Bytes.block message (i + 1) := by
      rw [Bytes.block, Bytes.block, List.drop_drop]
      congr 2
      ring
    rw [Word.compressBlocks, if_neg hlong, ih, hcount, List.range_succ_eq_map, List.foldl_cons,
      List.foldl_map]
    simp only [hrest]
    rfl

theorem Word.toBitVec_compressBlocks (message : Bytes) :
    (Word.compressBlocks Word.initial message).map UInt32.toBitVec
      = Standard.compressBlocks message.bits := by
  have hinitial : Word.initial.map UInt32.toBitVec = Standard.initial := by
    have hword {i : ℕ} (hi : i < 8) :
        (initialState.getD i 0).toUInt32.toBitVec = Standard.initialWord i := by
      rw [← Standard.toNat_initialWord hi, Word.toBitVec_toUInt32]
    simp only [Standard.initial, ← hword (show 0 < 8 by decide), ← hword (show 1 < 8 by decide),
      ← hword (show 2 < 8 by decide), ← hword (show 3 < 8 by decide),
      ← hword (show 4 < 8 by decide), ← hword (show 5 < 8 by decide),
      ← hword (show 6 < 8 by decide), ← hword (show 7 < 8 by decide)]
    rfl
  rw [Word.compressBlocks_eq, Standard.compressBlocks_bits, ← hinitial]
  refine (foldl_simulates (fun s i hi => ?_) _).symm
  have hlength := Bytes.length_block (List.mem_range.mp hi)
  exact (Word.compress_toBitVec s (Word.follows_ofBytes hlength)).symm

/-! ### Padding -/

theorem Standard.zeroCount_eq (n : ℕ) : zeroCount (8 * n) = 7 + 8 * padZeros n := by
  refine IsLeast.csInf_eq ⟨?_, fun k hk => ?_⟩
  · show (8 * n + 1 + (7 + 8 * padZeros n)) % 512 = 448
    rw [padZeros]
    omega
  · have hk : (8 * n + 1 + k) % 512 = 448 := hk
    rw [padZeros]
    omega

theorem bits_ofNat (width n : ℕ) :
    (Bytes.ofNat width n).bits
      = (List.range (8 * width)).map fun j => n.testBit (8 * width - 1 - j) := by
  refine bitEntries_injective ?_
  rw [← Bytes.bytesToBits_eq, bytesToBits_ofNat, bitEntries, List.map_map]
  exact List.map_congr_left fun j _ => bitAt_eq n _

/-- **The padding of a message** is that of the standard. -/
theorem bits_pad (message : Bytes) : (pad message).bits = Standard.pad message.bits := by
  have hmark : Bytes.bitsOfByte 0x80 = true :: List.replicate 7 false := by decide
  have hzeros (n : ℕ) : Bytes.bits (List.replicate n 0) = List.replicate (8 * n) false := by
    induction n with
    | zero => rfl
    | succ n ih =>
      have hzero : Bytes.bitsOfByte 0 = List.replicate 8 false := by decide
      rw [List.replicate_succ, Bytes.bits_cons, ih, hzero, List.replicate_append_replicate,
        Nat.mul_succ, Nat.add_comm]
  rw [pad, Bytes.bits_append, Bytes.bits_cons, Bytes.bits_append, hmark, hzeros, bits_ofNat,
    Standard.pad, Bytes.length_bits, Standard.zeroCount_eq, List.replicate_add]
  simp only [List.cons_append, List.append_assoc]

/-! ### Hashes -/

theorem wordBits_eq (x : Standard.Word) : (Bytes.ofNat 4 x.toNat).bits = Standard.wordBits x := by
  rw [bits_ofNat, Standard.wordBits]
  refine List.map_congr_left fun j hj => ?_
  have hj : j < 32 := List.mem_range.mp hj
  rw [BitVec.getMsbD_eq_getLsbD, decide_eq_true hj, Bool.true_and, BitVec.testBit_toNat]

theorem Word.toBytes_eq (x : UInt32) : Word.toBytes x = Bytes.ofNat 4 x.toBitVec.toNat := rfl

/-- The bytes of the hash are those of the words that the compression of integers gives. -/
theorem digest_eq (message : Bytes) :
    digest message = ((Standard.compressBlocks (pad message).bits).map BitVec.toNat).toList.flatMap
      (Bytes.ofNat 4) := by
  rw [digest, ← Word.toBitVec_compressBlocks, funext Word.toBytes_eq]
  rfl

/-- The bits of the hash are those of the standard. -/
theorem bits_digest (message : Bytes) : (digest message).bits = Standard.hash message.bits := by
  have hwords (v : State Standard.Word) :
      Bytes.bits ((v.map BitVec.toNat).toList.flatMap (Bytes.ofNat 4))
        = v.toList.flatMap Standard.wordBits := by
    have hmap : (v.map BitVec.toNat).toList = v.toList.map BitVec.toNat := rfl
    rw [Bytes.bits, List.flatMap_assoc, hmap, List.flatMap_map]
    exact congrArg (v.toList.flatMap ·) (funext wordBits_eq)
  rw [digest_eq, bits_pad, hwords, Standard.hash]

end Sha256

/-- **The hash of a leaf** is made of the first bits of the hash of the standard. -/
theorem Leaf.digest?_eq {leaf : Leaf} {raw : Bytes} (h : leaf.bytes? = .ok raw) (size : ℤ) :
    leaf.digest? size = if size > 256 then .error (.digestTooLong size)
      else .ok (firstEntries size (bitEntries (Standard.hash raw.bits))) := by
  have hlength : (bytesToBits (digest raw)).length = 256 := by
    rw [length_bytesToBits]
    rfl
  have hdigest : leaf.digest? size = if size > (bytesToBits (digest raw)).length then
        .error (.digestTooLong size) else .ok (firstEntries size (bytesToBits (digest raw))) := by
    rw [Leaf.digest?, h]
    show (if size > (bytesToBits (digest raw)).length then _ else _ : Except LeafError (List ℤ)) = _
    split <;> rfl
  rw [hdigest, hlength, Bytes.bytesToBits_eq, bits_digest]
  rfl

namespace Sha256

/-- **The compression function is that of SHA-256.**  From every state of eight words, a block of
sixty-four bytes is compressed as the standard has it, to eight words below `2 ^ 32`.  Folded over the
padded blocks of a message of any length, the compression gives the hash of the standard, and a leaf
is hashed by the first bits of it. -/
theorem compress?_follows_standard :
    (∀ (v : State Standard.Word) (block : Bytes), block.length = 64 →
      ∃ words, compress? (v.toList.map fun x => (x.toNat : ℤ)) block = .ok words
        ∧ words.length = 8 ∧ (∀ x ∈ words, x < 2 ^ 32)
        ∧ words.map (BitVec.ofNat 32)
          = (Standard.compress v (Standard.wordAt block.bits)).toList)
    ∧ (∀ message : Bytes, (pad message).bits = Standard.pad message.bits
      ∧ ∃ words, compressMessage? (pad message) = .ok words
        ∧ Bytes.bits (words.flatMap (Bytes.ofNat 4)) = Standard.hash message.bits
        ∧ words.flatMap (Bytes.ofNat 4) = digest message)
    ∧ ∀ (leaf : Leaf) (raw : Bytes), leaf.bytes? = .ok raw → ∀ size : ℤ,
      leaf.digest? size = if size > 256 then .error (.digestTooLong size)
        else .ok (firstEntries size (bitEntries (Standard.hash raw.bits))) := by
  refine ⟨fun v block hlength => ?_, fun message => ⟨bits_pad message, ?_⟩,
    fun leaf raw hraw size => Leaf.digest?_eq hraw size⟩
  · refine ⟨_, compress?_numbers v hlength, rfl, bounded_toNat _, ?_⟩
    generalize Standard.compress v (Standard.wordAt block.bits) = u
    have hword : (BitVec.ofNat 32 ∘ BitVec.toNat) = (id : Standard.Word → Standard.Word) :=
      funext fun x => BitVec.eq_of_toNat_eq (Nat.mod_eq_of_lt x.isLt)
    have hmap : (u.map BitVec.toNat).toList = u.toList.map BitVec.toNat := rfl
    rw [hmap, List.map_map, hword, List.map_id]
  · refine ⟨_, compressMessage?_eq (pad message), ?_, (digest_eq message).symm⟩
    rw [← digest_eq, bits_digest]

/-- The hash of the three letters `abc`, which fill one block with their padding, and a leaf that takes
its first six bits. -/
theorem compress?_follows_standard_threeLetters :
    let message : Bytes := [0x61, 0x62, 0x63]
    let words := [0xBA7816BF, 0x8F01CFEA, 0x414140DE, 0x5DAE2223, 0xB00361A3, 0x96177A9C,
      0xB410FF61, 0xF20015AD]
    (pad message).length = 64
      ∧ compress? (Standard.initial.toList.map fun x => (x.toNat : ℤ)) (pad message) = .ok words
      ∧ words.map (BitVec.ofNat 32)
        = (Standard.compress Standard.initial (Standard.wordAt (pad message).bits)).toList
      ∧ Bytes.bits (words.flatMap (Bytes.ofNat 4)) = Standard.hash message.bits
      ∧ (Leaf.bytes message).bytes? = .ok message
      ∧ (Leaf.bytes message).digest? 6 = .ok [1, 0, 1, 1, 1, 0] := by
  intro message words
  obtain ⟨hblock, hmessage, hleaf⟩ := compress?_follows_standard
  have hlength : (pad message).length = 64 := by decide
  have hbytes : (Leaf.bytes message).bytes? = .ok message := rfl
  have hinitial : (Standard.initial.toList.map fun x => (x.toNat : ℤ)) = initialState.map Int.ofNat :=
    congrArg (List.map Int.ofNat) Standard.toList_initial
  have heval : compress? (initialState.map Int.ofNat) (pad message) = .ok words := by decide +kernel
  have hfold : compressMessage? (pad message) = .ok words := by decide +kernel
  obtain ⟨words', hrun, -, -, hwords⟩ := hblock Standard.initial (pad message) hlength
  obtain rfl : words' = words :=
    Except.ok.inj (hrun.symm.trans ((congrArg (compress? · _) hinitial).trans heval))
  obtain ⟨-, words', hrun', hbits, -⟩ := hmessage message
  obtain rfl : words' = words := Except.ok.inj (hrun'.symm.trans hfold)
  refine ⟨hlength, hrun, hwords, hbits, hbytes, ?_⟩
  rw [hleaf _ _ hbytes, ← hbits]
  decide

end Sha256

end MerkleSnark
