import Mathlib
import MerkleSnark.Merkle.Leaf
import MerkleSnark.Proofs.Circuit.Digest
import MerkleSnark.Proofs.Codec.Decoder
import MerkleSnark.Proofs.Codec.Hex

/-!
# Bits that are packed into bytes

A list of bits whose length is a multiple of eight and the bytes that it spells determine each
other.  So a digest can be said to carry bits or bytes, and the hash of a leaf gives bits.

## Main definitions

* `bitsOfBytes`, `bytesOfBits` — from bytes to bits and back.

## Main results

* `bytesOfBits_bitsOfBytes`, `bytesToBits_bytesOfBits` — nothing is lost on the way.
* `Digest.CarriesBytes.carries`, `Digest.Carries.bytes` — what a digest carries.
* `Leaf.exists_of_digest?_eq` — the digest of a leaf consists of bits.
-/

namespace MerkleSnark

/-- The bits of bytes, the highest bit of every byte first. -/
def bitsOfBytes (bytes : Bytes) : List Bool := (bytesToBits bytes).map fun entry => entry = 1

/-- The bytes that bits spell, the highest bit of every byte first. -/
def bytesOfBits (bits : List Bool) : Bytes :=
  .ofNat (bits.length / 8) (BitVec.ofBoolListBE bits).toNat

theorem bitEntries_bitsOfBytes (bytes : Bytes) :
    bitEntries (bitsOfBytes bytes) = bytesToBits bytes := by
  rw [bitEntries, bitsOfBytes, List.map_map]
  conv_rhs => rw [← List.map_id (bytesToBits bytes)]
  apply List.map_congr_left
  intro entry hentry
  obtain ⟨b, -, hb⟩ := List.mem_flatMap.mp hentry
  obtain ⟨place, -, rfl⟩ := List.mem_map.mp hb
  rw [Function.comp_apply, bitAt_eq]
  cases b.toNat.testBit place <;> rfl

/-- The bits of bytes are the digits of the number that the bytes spell. -/
theorem bytesToBits_eq (bytes : Bytes) : bytesToBits bytes
    = (List.range (8 * bytes.length)).map fun j => bitAt bytes.toNat (8 * bytes.length - 1 - j) := by
  conv_lhs => rw [← Bytes.ofNat_toNat bytes]
  exact bytesToBits_ofNat _ _

/-- Bits that fill whole bytes are read back from these. -/
theorem bytesToBits_bytesOfBits {bits : List Bool} (h : 8 ∣ bits.length) :
    bytesToBits (bytesOfBits bits) = bitEntries bits := by
  rw [bytesOfBits, bytesToBits_ofNat, Nat.mul_div_cancel' h]
  apply List.ext_getElem
  · simp [bitEntries]
  · intro j hj hj'
    have hlt : j < bits.length := by simpa using hj
    have hbit : (BitVec.ofBoolListBE bits).toNat.testBit (bits.length - 1 - j) = bits[j] := by
      have hmsb : (BitVec.ofBoolListBE bits).getMsbD j = bits.getD j false :=
        BitVec.getMsbD_ofBoolListBE
      rw [BitVec.getMsbD, decide_eq_true hlt, Bool.true_and, BitVec.getLsbD] at hmsb
      rw [hmsb, List.getD_eq_getElem _ _ hlt]
    rw [List.getElem_map, List.getElem_range, bitAt_eq, hbit]
    simp [bitEntries]

/-- Different bytes have different bits. -/
theorem bytesToBits_injective : Function.Injective bytesToBits := by
  intro a b h
  have hlength : a.length = b.length := by
    have := congrArg List.length h
    simp only [length_bytesToBits] at this
    omega
  apply Bytes.eq_of_toNat_eq hlength
  apply Nat.eq_of_testBit_eq
  intro i
  by_cases hi : i < 8 * a.length
  · rw [bytesToBits_eq, bytesToBits_eq, hlength] at h
    have hj : 8 * b.length - 1 - i ∈ List.range (8 * b.length) := List.mem_range.mpr (by omega)
    have hbit := List.map_inj_left.mp h _ hj
    rw [bitAt_eq, bitAt_eq, Nat.sub_sub_self (by omega), Nat.cast_inj] at hbit
    cases ha : a.toNat.testBit i <;> cases hb : b.toNat.testBit i <;> simp [ha, hb] at hbit ⊢
  · have hpow : ∀ c : Bytes, c.length = a.length → c.toNat < 2 ^ i := by
      intro c hc
      apply c.toNat_lt.trans_le
      rw [hc, show 256 = 2 ^ 8 from rfl, ← pow_mul]
      exact Nat.pow_le_pow_right (by decide) (not_lt.mp hi)
    rw [Nat.testBit_lt_two_pow (hpow a rfl), Nat.testBit_lt_two_pow (hpow b hlength.symm)]

/-- Bytes are read back from their bits. -/
theorem bytesOfBits_bitsOfBytes (bytes : Bytes) : bytesOfBits (bitsOfBytes bytes) = bytes := by
  apply bytesToBits_injective
  rw [bytesToBits_bytesOfBits, bitEntries_bitsOfBytes]
  rw [bitsOfBytes, List.length_map, length_bytesToBits]
  exact Nat.dvd_mul_right 8 bytes.length

/-! ### Digests -/

namespace Digest

variable {d : Digest} {w : ℕ → Fr} {bits : List Bool} {bytes : Bytes}

theorem map_ofInt_bitEntries (bits : List Bool) :
    (bitEntries bits).map (Residue.ofInt scalarOrder) = bits.map bitScalar := by
  rw [bitEntries, List.map_map]
  apply List.map_congr_left
  intro b _
  cases b <;> decide

theorem CarriesBytes.carries (h : d.CarriesBytes w bytes) : d.Carries w (bitsOfBytes bytes) := by
  unfold CarriesBytes at h
  rwa [← bitEntries_bitsOfBytes, map_ofInt_bitEntries] at h

/-- The bytes that a digest carries are those that its bits spell. -/
theorem CarriesBytes.eq_bytesOfBits (h : d.CarriesBytes w bytes) (hbits : d.Carries w bits) :
    bytes = bytesOfBits bits := by
  rw [hbits.unique h.carries, bytesOfBits_bitsOfBytes]

end Digest

/-! ### Leaves -/

/-- The digest of a leaf consists of as many bits as it is asked for. -/
theorem Leaf.exists_of_digest?_eq {leaf : Leaf} {size : ℕ} {entries : List ℤ}
    (h : leaf.digest? size = .ok entries) :
    ∃ bits : List Bool, bits.length = size ∧ entries = bitEntries bits := by
  unfold digest? at h
  obtain ⟨bytes, -, h⟩ := exists_of_bind_eq_ok h
  dsimp only at h
  split at h
  · cases h
  · next hle =>
    rw [gt_iff_lt, Nat.cast_lt, not_lt] at hle
    obtain rfl := Except.ok.inj h
    have hsize : ¬(size : ℤ) < 0 := not_lt.mpr (Int.natCast_nonneg size)
    refine ⟨(bitsOfBytes (Sha256.digest bytes)).take size, ?_, ?_⟩
    · rw [List.length_take, bitsOfBytes, List.length_map, min_eq_left hle]
    · unfold firstEntries
      rw [if_neg hsize, ← bitEntries_bitsOfBytes, bitEntries, bitEntries, List.map_take]
      rfl

/-- The digests of leaves are as many and consist of as many bits each. -/
theorem Leaf.exists_of_mapM_digest?_eq {leaves : List Leaf} {size : ℕ} {entries : List (List ℤ)}
    (h : (leaves.mapM fun leaf => leaf.digest? size) = .ok entries) :
    ∃ digests : List (List Bool), digests.length = leaves.length
      ∧ (∀ bits ∈ digests, bits.length = size) ∧ entries = digests.map bitEntries := by
  induction leaves generalizing entries with
  | nil => exact ⟨[], rfl, by simp, (Except.ok.inj h).symm⟩
  | cons leaf leaves ih =>
    rw [List.mapM_cons] at h
    obtain ⟨first, hfirst, h⟩ := exists_of_bind_eq_ok h
    obtain ⟨others, hothers, h⟩ := exists_of_bind_eq_ok h
    obtain rfl := Except.ok.inj h
    obtain ⟨bits, hbits, rfl⟩ := exists_of_digest?_eq hfirst
    obtain ⟨digests, hlength, hall, rfl⟩ := ih hothers
    exact ⟨bits :: digests, congrArg (· + 1) hlength, List.forall_mem_cons.mpr ⟨hbits, hall⟩, rfl⟩

end MerkleSnark
