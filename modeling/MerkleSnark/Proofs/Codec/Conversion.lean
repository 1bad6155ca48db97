import Mathlib
import MerkleSnark.Proofs.Codec.Bits
import MerkleSnark.Proofs.Codec.Hex

/-!
# Bits, bytes and hexadecimal text

The two conversions between bits and text undo one another.  Bits have a text when their number is a
multiple of four; a text has bits when it consists of lowercase digits of the right number, up to
blanks at its ends.

## Main results

* `bitsToHex?_flatMap_nibbleBits` — the text of the bits of digits.
* `bytesToBits_eq_flatMap` — the bits of bytes are those of their digits.
* `hexToBits?_inverts` — the conversions are inverse to one another, and where they are defined.
-/

namespace MerkleSnark

/-! ### Digits of bits -/

/-- Digits are looked for among the first characters. -/
theorem forall_isLowerHex (P : Char → Prop)
    (h : ∀ n < 128, isLowerHex (Char.ofNat n) = true → P (Char.ofNat n)) {c : Char}
    (hc : isLowerHex c = true) : P c := by
  have hrange := toNat_of_isLowerHex hc
  rw [← Char.ofNat_toNat c]
  exact h c.toNat (by omega) (by rwa [Char.ofNat_toNat])

theorem isLowerHex_iff {c : Char} : isLowerHex c = true ↔ c ∈ "0123456789abcdef".toList :=
  ⟨forall_isLowerHex (· ∈ "0123456789abcdef".toList) (by decide +kernel),
    fun h => List.all_eq_true.mp rfl c h⟩

theorem nibbleHex?_nibbleBits {c : Char} (h : isLowerHex c = true) :
    nibbleHex? (nibbleBits c) = .ok (String.ofList [c]) :=
  forall_isLowerHex (fun c => nibbleHex? (nibbleBits c) = .ok (String.ofList [c])) (by decide) h

theorem nibblesHex?_flatMap_nibbleBits {digits : List Char}
    (h : ∀ c ∈ digits, isLowerHex c = true) :
    nibblesHex? (digits.flatMap nibbleBits) = .ok (digits.map fun c => String.ofList [c]) := by
  induction digits with
  | nil => rfl
  | cons c digits ih =>
    rw [List.forall_mem_cons] at h
    have hstep : nibblesHex? ((c :: digits).flatMap nibbleBits)
        = nibbleHex? (nibbleBits c) >>= fun front =>
          nibblesHex? (digits.flatMap nibbleBits) >>= fun back => pure (front :: back) := rfl
    rw [hstep, nibbleHex?_nibbleBits h.1, ih h.2]
    rfl

/-- **The text of the bits of digits** is made of the digits. -/
theorem bitsToHex?_flatMap_nibbleBits {digits : List Char}
    (h : ∀ c ∈ digits, isLowerHex c = true) :
    bitsToHex? (digits.flatMap nibbleBits) = .ok (String.ofList digits) := by
  have hlength : (digits.flatMap nibbleBits).length % 4 = 0 := by
    rw [length_flatMap_nibbleBits, Nat.mul_mod_left]
  rw [bitsToHex?, if_neg (not_not.mpr hlength), nibblesHex?_flatMap_nibbleBits h, Except.map,
    join_map_ofList]

/-! ### Digits of bytes -/

theorem Bytes.hexDigit_spec {n : ℕ} (h : n < 16) :
    isLowerHex (hexDigit n) = true ∧ digitValue (hexDigit n) = n := by
  have hall : ∀ n < 16, isLowerHex (hexDigit n) = true ∧ digitValue (hexDigit n) = n := by decide
  exact hall n h

/-- The bits of a byte are those of its two digits. -/
theorem byteBits_eq (b : UInt8) :
    byteBits b = nibbleBits (Bytes.hexDigit (b.toNat / 16))
      ++ nibbleBits (Bytes.hexDigit (b.toNat % 16)) := by
  have hb : b.toNat < 256 := b.toNat_lt
  have hhigh (place : ℕ) : bitAt (b.toNat / 16) place = bitAt b.toNat (place + 4) := by
    rw [bitAt_eq, bitAt_eq, show 16 = 2 ^ 4 from rfl, Nat.testBit_div_two_pow]
  have hlow {place : ℕ} (h : place < 4) : bitAt (b.toNat % 16) place = bitAt b.toNat place := by
    rw [bitAt_eq, bitAt_eq, show 16 = 2 ^ 4 from rfl, Nat.testBit_mod_two_pow, decide_eq_true h,
      Bool.true_and]
  rw [nibbleBits, nibbleBits, (Bytes.hexDigit_spec (by omega)).2, (Bytes.hexDigit_spec (by omega)).2]
  simp only [List.map_cons, List.map_nil, hhigh, hlow (show 3 < 4 by decide),
    hlow (show 2 < 4 by decide), hlow (show 1 < 4 by decide), hlow (show 0 < 4 by decide)]
  rfl

/-- **The bits of bytes** are those of their digits. -/
theorem bytesToBits_eq_flatMap (bs : Bytes) :
    bytesToBits bs = bs.toHex.toList.flatMap nibbleBits := by
  rw [Bytes.toHex, String.toList_ofList, List.flatMap_assoc, bytesToBits, funext byteBits_eq]
  refine congrArg (bs.flatMap ·) (funext fun b => ?_)
  rw [List.flatMap_cons, List.flatMap_cons, List.flatMap_nil, List.append_nil]

theorem isLowerHex_of_mem_toHex {bs : Bytes} {c : Char} (h : c ∈ bs.toHex.toList) :
    isLowerHex c = true := by
  rw [Bytes.toHex, String.toList_ofList, List.mem_flatMap] at h
  obtain ⟨b, -, hc⟩ := h
  have hb : b.toNat < 256 := b.toNat_lt
  rw [List.mem_pair] at hc
  rcases hc with rfl | rfl
  · exact (Bytes.hexDigit_spec (by omega)).1
  · exact (Bytes.hexDigit_spec (by omega)).1

/-! ### Conversions -/

/-- The text of bits is read back as the bits. -/
theorem hexToBits?_of_bitsToHex? {bits : List Bool} {hex : String}
    (h : bitsToHex? (bitEntries bits) = .ok hex) :
    hexToBits? hex (bitEntries bits).length = .ok (bitEntries bits) := by
  obtain ⟨hall, hflat⟩ := flatMap_nibbleBits_of_bitsToHex? h
  rw [← hflat]
  exact hexToBits?_eq hall rfl

/-- **The bits of a text**, by what is left of it without the blanks at its ends. -/
theorem hexToBits?_eq_ok_iff {text : String} {digits : List Char}
    (h : Text.Strips Text.isBlank text.toList digits) {size : ℤ} {bits : List ℤ} :
    hexToBits? text size = .ok bits ↔ ((digits.length : ℤ) * 4 = size
      ∧ ∀ c ∈ digits, isLowerHex c = true) ∧ bits = digits.flatMap nibbleBits := by
  rw [hexToBits?, Text.strips_iff.mp h, ← List.all_eq_true]
  split
  · next hsize =>
    refine iff_of_false (fun hbits => ?_) fun hbits => hsize hbits.1.1
    cases hbits
  · next hsize =>
    split
    · next hall =>
      rw [Except.ok.injEq]
      exact ⟨fun hbits => ⟨⟨not_not.mp hsize, hall⟩, hbits.symm⟩, fun hbits => hbits.2.symm⟩
    · next hall =>
      refine iff_of_false (fun hbits => ?_) fun hbits => hall hbits.1.2
      cases hbits

/-- **The conversions are inverse to one another**, and this is where they are defined.  Zeros and ones
have a text when their number is a multiple of four, and the text has these bits.  A text has bits when
without the blanks at its ends it consists of a quarter as many lowercase digits as bits are asked for,
and the bits have what is left as their text.  The text of the bits of bytes is made of the digits of
the bytes. -/
theorem hexToBits?_inverts :
    (∀ bits : List ℤ, (∀ b ∈ bits, b = 0 ∨ b = 1) →
      ((∃ hex, bitsToHex? bits = .ok hex) ↔ 4 ∣ bits.length)
        ∧ ∀ hex, bitsToHex? bits = .ok hex → hexToBits? hex bits.length = .ok bits)
    ∧ (∀ (text : String) (size : ℤ), ∃ digits, Text.Strips Text.isBlank text.toList digits
      ∧ ((∃ bits, hexToBits? text size = .ok bits) ↔
        (digits.length : ℤ) * 4 = size ∧ ∀ c ∈ digits, c ∈ "0123456789abcdef".toList)
      ∧ ∀ bits, hexToBits? text size = .ok bits → bitsToHex? bits = .ok (String.ofList digits))
    ∧ ∀ bytes : Bytes, bitsToHex? (bytesToBits bytes) = .ok bytes.toHex
      ∧ hexToBits? bytes.toHex (8 * bytes.length) = .ok (bytesToBits bytes) := by
  refine ⟨fun bits hbits => ?_, fun text size => ?_, fun bytes => ?_⟩
  · obtain ⟨bits, rfl⟩ : ∃ bits' : List Bool, bits = bitEntries bits' :=
      ⟨_, (bitEntries_map_beq hbits).symm⟩
    refine ⟨⟨fun ⟨hex, hhex⟩ => ?_, fun hfour => ?_⟩, fun hex => hexToBits?_of_bitsToHex?⟩
    · by_contra hfour
      rw [bitsToHex?, if_pos fun h => hfour (Nat.dvd_of_mod_eq_zero h)] at hhex
      cases hhex
    · rw [bitEntries, List.length_map] at hfour
      exact exists_bitsToHex?_eq hfour
  · have hstrips := Text.strips_trim Text.isBlank text.toList
    refine ⟨_, hstrips, ?_, fun bits hbits => ?_⟩
    · simp only [hexToBits?_eq_ok_iff hstrips, ← isLowerHex_iff, exists_and_left, exists_eq, and_true]
    · obtain ⟨⟨-, hall⟩, rfl⟩ := (hexToBits?_eq_ok_iff hstrips).mp hbits
      exact bitsToHex?_flatMap_nibbleBits hall
  · have hall : ∀ c ∈ bytes.toHex.toList, isLowerHex c = true := fun c => isLowerHex_of_mem_toHex
    refine ⟨?_, ?_⟩
    · rw [bytesToBits_eq_flatMap, bitsToHex?_flatMap_nibbleBits hall, String.ofList_toList]
    · have hlength : ((bytes.toHex.toList.flatMap nibbleBits).length : ℤ) = 8 * bytes.length := by
        rw [← bytesToBits_eq_flatMap, length_bytesToBits]
        push_cast
        rfl
      rw [bytesToBits_eq_flatMap]
      exact hexToBits?_eq hall hlength

/-- Twelve bits, a text with blanks around its digits, and two bytes. -/
theorem hexToBits?_inverts_threeDigits :
    (∀ b ∈ [0, 0, 0, 0, 1, 1, 1, 1, 1, 0, 1, 0], b = 0 ∨ b = (1 : ℤ))
      ∧ bitsToHex? [0, 0, 0, 0, 1, 1, 1, 1, 1, 0, 1, 0] = .ok "0fa"
      ∧ hexToBits? "0fa" 12 = .ok [0, 0, 0, 0, 1, 1, 1, 1, 1, 0, 1, 0]
      ∧ hexToBits? " 0fa\n" 12 = .ok [0, 0, 0, 0, 1, 1, 1, 1, 1, 0, 1, 0]
      ∧ bitsToHex? (bytesToBits [0x0f, 0xa0]) = .ok "0fa0" := by
  have hbits : ∀ b ∈ [0, 0, 0, 0, 1, 1, 1, 1, 1, 0, 1, 0], b = 0 ∨ b = (1 : ℤ) := by decide
  obtain ⟨hinverse, -, hbytes⟩ := hexToBits?_inverts
  have hhex : bitsToHex? [0, 0, 0, 0, 1, 1, 1, 1, 1, 0, 1, 0] = .ok "0fa" := by decide
  exact ⟨hbits, hhex, (hinverse _ hbits).2 _ hhex, by decide, (hbytes [0x0f, 0xa0]).1⟩

end MerkleSnark
