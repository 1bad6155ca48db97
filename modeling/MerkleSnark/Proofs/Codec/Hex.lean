import Mathlib
import MerkleSnark.Codec.Bits
import MerkleSnark.Workflow.Artifact

/-!
# The text of a root

A root is written as hexadecimal digits and a line break.  Read back as ASCII characters, without
the blanks at its ends, the text is the same, and it spells the same bits.

## Main definitions

* `Text.Strips` — what is left of a text without the blanks at its ends.
* `bitEntries` — bits as the entries of a digest.
* `SpellsRoot` — the bytes from which a root can be read.

## Main results

* `Text.strips_iff` — what is left is found by `Text.trim`.
* `flatMap_nibbleBits_of_bitsToHex?` — the digits of bits.
* `hexToBits?_eq` — the bits of digits.
* `asciiText?_map` — the characters of a text that is written.
* `asciiText?_eq_ok_iff` — the bytes that are ASCII text.
-/

namespace MerkleSnark

/-! ### Blanks -/

/-- A text consists of some characters and of blanks around them, and neither the first nor the last
of the characters is blank. -/
structure Text.Strips (blank : Char → Bool) (text rest : List Char) : Prop where
  /-- There are only blanks around the characters. -/
  around : ∃ front back, text = front ++ rest ++ back ∧ ∀ c ∈ front ++ back, blank c = true
  /-- The first of them is not blank. -/
  head : ∀ c ∈ rest.head?, blank c = false
  /-- The last of them is not blank. -/
  last : ∀ c ∈ rest.getLast?, blank c = false

/-- Without the blanks at the ends of a text there are no blanks at its ends. -/
theorem Text.strips_trim (blank : Char → Bool) (text : List Char) :
    Strips blank text (trim blank text) := by
  have htrim : trim blank text = (text.dropWhile blank).rdropWhile blank := rfl
  have hhead : ∀ c ∈ (text.dropWhile blank).head?, blank c = false := by
    intro c hc
    have hnot := List.head?_dropWhile_not blank text
    rw [Option.mem_def.mp hc] at hnot
    exact hnot
  refine ⟨⟨text.takeWhile blank, (text.dropWhile blank).rtakeWhile blank, ?_, ?_⟩, ?_, ?_⟩
  · rw [htrim, List.append_assoc, List.rdropWhile_append_rtakeWhile, List.takeWhile_append_dropWhile]
  · intro c hc
    rcases List.mem_append.mp hc with hc | hc
    · exact List.mem_takeWhile_imp hc
    · exact List.mem_rtakeWhile_imp hc
  · intro c hc
    obtain ⟨back, hback⟩ := List.rdropWhile_prefix blank (text.dropWhile blank)
    refine hhead c ?_
    rw [← hback, List.head?_append, ← htrim, Option.mem_def.mp hc]
    rfl
  · intro c hc
    rw [htrim, Option.mem_def, List.getLast?_eq_some_iff] at hc
    obtain ⟨front, hfront⟩ := hc
    have hne : (text.dropWhile blank).rdropWhile blank ≠ [] := by simp [hfront]
    have hlast := List.rdropWhile_last_not blank (text.dropWhile blank) hne
    simpa [hfront] using hlast

/-- **What is left of a text** without the blanks at its ends. -/
theorem Text.strips_iff {blank : Char → Bool} {text rest : List Char} :
    Strips blank text rest ↔ trim blank text = rest := by
  refine ⟨fun ⟨⟨front, back, htext, hblank⟩, hhead, hlast⟩ => ?_, fun h => h ▸ strips_trim blank text⟩
  have hdrop : ∀ {blanks l : List Char}, (∀ c ∈ blanks, blank c = true) →
      (∀ c ∈ l.head?, blank c = false) → (blanks ++ l).dropWhile blank = l := by
    intro blanks l hblanks hl
    rw [List.dropWhile_append_of_pos hblanks]
    cases l with
    | nil => rfl
    | cons c l => rw [List.dropWhile_cons_of_neg (by simp [hl c rfl])]
  rw [List.forall_mem_append] at hblank
  have hback : (back.reverse ++ rest.reverse).dropWhile blank = rest.reverse :=
    hdrop (fun c hc => hblank.2 c (List.mem_reverse.mp hc)) (by rwa [List.head?_reverse])
  rw [htext, trim, List.append_assoc]
  cases rest with
  | nil =>
    rw [List.nil_append, List.dropWhile_eq_nil_iff.mpr (List.forall_mem_append.mpr hblank)]
    rfl
  | cons c rest =>
    rw [hdrop hblank.1 (by simpa using hhead), List.reverse_append, hback, List.reverse_reverse]

/-- Blanks at the end of a text without other blanks are all that is removed. -/
theorem Text.trim_append {blank : Char → Bool} {cs bs : List Char}
    (hcs : ∀ c ∈ cs, blank c = false) (hbs : ∀ c ∈ bs, blank c = true) :
    trim blank (cs ++ bs) = cs :=
  strips_iff.mp ⟨⟨[], bs, rfl, hbs⟩, fun c hc => hcs c (List.mem_of_mem_head? hc),
    fun c hc => hcs c (List.mem_of_getLast? hc)⟩

/-- Without its blanks a text has no blanks at its ends. -/
theorem Text.trim_trim (blank : Char → Bool) (cs : List Char) :
    trim blank (trim blank cs) = trim blank cs :=
  have hstrips := strips_trim blank cs
  strips_iff.mp ⟨⟨[], [], by simp, nofun⟩, hstrips.head, hstrips.last⟩

/-! ### Entries -/

/-- Bits as the entries of a digest. -/
def bitEntries (bits : List Bool) : List ℤ := bits.map fun b => (b.toNat : ℤ)

theorem bitEntries_injective : Function.Injective bitEntries :=
  List.map_injective_iff.mpr fun a b h => by cases a <;> cases b <;> simp_all

/-- Zeros and ones are the entries of the bits that tell which of them are ones. -/
theorem bitEntries_map_beq {l : List ℤ} (h : ∀ n ∈ l, n = 0 ∨ n = 1) :
    bitEntries (l.map (· == 1)) = l := by
  rw [bitEntries, List.map_map]
  refine (List.map_congr_left fun n hn => ?_).trans l.map_id
  rcases h n hn with rfl | rfl <;> rfl

/-- Lists of zeros and ones are the entries of bits. -/
theorem exists_map_bitEntries {ls : List (List ℤ)} (h : ∀ l ∈ ls, ∀ n ∈ l, n = 0 ∨ n = 1) :
    ∃ bits : List (List Bool), ls = bits.map bitEntries := by
  refine ⟨ls.map fun l => l.map (· == 1), ?_⟩
  rw [List.map_map]
  exact ((List.map_congr_left fun l hl => bitEntries_map_beq (h l hl)).trans ls.map_id).symm

/-! ### Hexadecimal digits -/

theorem exists_nibbleHex?_eq (a b c d : Bool) :
    ∃ digit : Char, nibbleHex? (bitEntries [a, b, c, d]) = .ok (String.ofList [digit])
      ∧ isLowerHex digit = true ∧ nibbleBits digit = bitEntries [a, b, c, d] := by
  cases a <;> cases b <;> cases c <;> cases d <;> exact ⟨_, rfl, rfl, rfl⟩

theorem join_map_ofList (cs : List Char) :
    String.join (cs.map fun c => String.ofList [c]) = String.ofList cs := by
  refine String.toList_injective ?_
  rw [String.toList_join, List.flatMap_map, String.toList_ofList]
  simp only [String.toList_ofList]
  exact List.flatMap_singleton' cs

theorem exists_nibblesHex?_eq {k : ℕ} {bits : List Bool} (h : bits.length = 4 * k) :
    ∃ digits : List Char,
      nibblesHex? (bitEntries bits) = .ok (digits.map fun c => String.ofList [c])
        ∧ (∀ c ∈ digits, isLowerHex c = true) ∧ digits.flatMap nibbleBits = bitEntries bits := by
  induction k generalizing bits with
  | zero =>
    obtain rfl := List.length_eq_zero_iff.mp h
    exact ⟨[], rfl, by simp, rfl⟩
  | succ k ih =>
    match bits, h with
    | a :: b :: c :: d :: rest, h =>
      obtain ⟨digit, hdigit, hlower, hbits⟩ := exists_nibbleHex?_eq a b c d
      obtain ⟨digits, hdigits, hall, hflat⟩ := @ih rest (by
        simp only [List.length_cons] at h
        omega)
      refine ⟨digit :: digits, ?_, List.forall_mem_cons.mpr ⟨hlower, hall⟩, ?_⟩
      · change nibbleHex? (bitEntries [a, b, c, d]) >>= (fun front =>
          nibblesHex? (bitEntries rest) >>= fun back => pure (front :: back)) = _
        rw [hdigit, hdigits]
        rfl
      · rw [List.flatMap_cons, hbits, hflat]
        rfl

/-- Bits have digits when their number is a multiple of four. -/
theorem exists_bitsToHex?_eq {bits : List Bool} (h : 4 ∣ bits.length) :
    ∃ hex, bitsToHex? (bitEntries bits) = .ok hex := by
  obtain ⟨k, hk⟩ := h
  obtain ⟨digits, hdigits, -, -⟩ := exists_nibblesHex?_eq hk
  have hlength : (bitEntries bits).length % 4 = 0 := by
    rw [bitEntries, List.length_map, hk, Nat.mul_mod_right]
  refine ⟨String.join (digits.map fun c => String.ofList [c]), ?_⟩
  rw [bitsToHex?, if_neg (not_not.mpr hlength), hdigits]
  rfl

/-- **The digits of bits**, and the bits of the digits. -/
theorem flatMap_nibbleBits_of_bitsToHex? {bits : List Bool} {hex : String}
    (h : bitsToHex? (bitEntries bits) = .ok hex) :
    (∀ c ∈ hex.toList, isLowerHex c = true) ∧ hex.toList.flatMap nibbleBits = bitEntries bits := by
  unfold bitsToHex? at h
  split at h
  · cases h
  · next hlength =>
    rw [not_not, bitEntries, List.length_map] at hlength
    obtain ⟨digits, hdigits, hall, hflat⟩ :=
      exists_nibblesHex?_eq (Nat.mul_div_cancel' (Nat.dvd_of_mod_eq_zero hlength)).symm
    rw [hdigits] at h
    obtain rfl := Except.ok.inj h
    rw [join_map_ofList, String.toList_ofList]
    exact ⟨hall, hflat⟩

theorem toNat_of_isLowerHex {c : Char} (h : isLowerHex c = true) :
    48 ≤ c.toNat ∧ c.toNat ≤ 57 ∨ 97 ≤ c.toNat ∧ c.toNat ≤ 102 := by
  simp only [isLowerHex, Bool.or_eq_true, Bool.and_eq_true, decide_eq_true_eq, Char.le_def,
    UInt32.le_iff_toNat_le] at h
  exact h

theorem isBlank_of_isLowerHex {c : Char} (h : isLowerHex c = true) : Text.isBlank c = false := by
  have hrange := toNat_of_isLowerHex h
  simp only [Text.isBlank, Bool.or_eq_false_iff, Bool.and_eq_false_iff, decide_eq_false_iff_not,
    beq_eq_false_iff_ne]
  omega

theorem length_flatMap_nibbleBits (digits : List Char) :
    (digits.flatMap nibbleBits).length = digits.length * 4 := by
  induction digits with
  | nil => rfl
  | cons c digits ih =>
    have hfour : (nibbleBits c).length = 4 := rfl
    rw [List.flatMap_cons, List.length_append, hfour, ih, List.length_cons]
    omega

/-- **The bits of a text** of lowercase hexadecimal digits. -/
theorem hexToBits?_eq {hex : String} {size : ℤ} (hall : ∀ c ∈ hex.toList, isLowerHex c = true)
    (hsize : (hex.toList.flatMap nibbleBits).length = size) :
    hexToBits? hex size = .ok (hex.toList.flatMap nibbleBits) := by
  have hlength := length_flatMap_nibbleBits hex.toList
  have htrim : Text.trim Text.isBlank hex.toList = hex.toList := by
    have happend : Text.trim Text.isBlank (hex.toList ++ []) = hex.toList :=
      Text.trim_append (fun c hc => isBlank_of_isLowerHex (hall c hc))
        fun c hc => absurd hc List.not_mem_nil
    rwa [List.append_nil] at happend
  unfold hexToBits?
  rw [htrim, if_neg (by omega), if_pos (List.all_eq_true.mpr hall)]

/-! ### ASCII text -/

theorem toList_byteArray (bs : ByteArray) : bs.toList = bs.data.toList := by
  have hloop : ∀ n i r, bs.size - i = n →
      ByteArray.toList.loop bs i r = r.reverse ++ bs.data.toList.drop i := by
    intro n
    induction n with
    | zero =>
      intro i r hn
      have hdone : ¬ i < bs.size := by omega
      have hdrop : bs.data.toList.drop i = [] :=
        List.drop_eq_nil_of_le (by rw [Array.length_toList]; exact not_lt.mp hdone)
      rw [ByteArray.toList.loop, if_neg hdone, hdrop, List.append_nil]
    | succ n ih =>
      intro i r hn
      have hlt : i < bs.size := by omega
      have hlt' : i < bs.data.toList.length := by
        rw [Array.length_toList]
        exact hlt
      have hget : bs.get! i = bs.data.toList[i] := by
        have hdata : bs.get! i = bs.data[i]! := rfl
        rw [hdata, getElem!_pos bs.data i hlt]
        rfl
      rw [ByteArray.toList.loop, if_pos hlt, ih (i + 1) _ (by omega), List.reverse_cons, hget,
        List.append_assoc, List.drop_eq_getElem_cons hlt']
      rfl
  exact hloop _ 0 [] rfl

/-- ASCII characters are written in one byte each. -/
theorem toUTF8_eq {text : String} (h : ∀ c ∈ text.toList, c.toNat < 128) :
    text.toUTF8.toList = text.toList.map fun c => UInt8.ofNat c.toNat := by
  have hchar : ∀ cs : List Char, (∀ c ∈ cs, c.toNat < 128) →
      cs.flatMap String.utf8EncodeChar = cs.map fun c => UInt8.ofNat c.toNat := by
    intro cs
    induction cs with
    | nil => exact fun _ => rfl
    | cons c cs ih =>
      intro hcs
      have hc : c.val.toNat ≤ 127 := Nat.le_of_lt_succ (hcs c List.mem_cons_self)
      have hone : String.utf8EncodeChar c = [UInt8.ofNat c.toNat] := by
        unfold String.utf8EncodeChar
        exact if_pos hc
      rw [List.flatMap_cons, hone, ih fun d hd => hcs d (List.mem_cons_of_mem c hd)]
      rfl
  have hbytes : text.toUTF8 = text.toList.utf8Encode := by
    conv_lhs => rw [← String.ofList_toList (s := text)]
    exact String.toByteArray_ofList
  rw [toList_byteArray, hbytes, List.utf8Encode, List.data_toByteArray]
  exact hchar _ h

/-- The characters of a text without other characters than ASCII ones are read back. -/
theorem asciiText?_map {cs : List Char} (h : ∀ c ∈ cs, c.toNat < 128) (i : ℕ) :
    asciiText? i (cs.map fun c => UInt8.ofNat c.toNat) = .ok cs := by
  induction cs generalizing i with
  | nil => rfl
  | cons c cs ih =>
    have hc := h c List.mem_cons_self
    have hbyte : (UInt8.ofNat c.toNat).toNat = c.toNat := by
      rw [UInt8.toNat_ofNat', Nat.mod_eq_of_lt (by omega)]
    rw [List.map_cons, asciiText?, if_pos, ih fun d hd => h d (List.mem_cons_of_mem c hd), hbyte,
      Char.ofNat_toNat]
    · rfl
    · rw [UInt8.lt_iff_toNat_lt, hbyte]
      exact hc

/-- **The bytes that are ASCII text**, and their characters. -/
theorem asciiText?_eq_ok_iff {bs : Bytes} {i : ℕ} {cs : List Char} :
    asciiText? i bs = .ok cs
      ↔ (∀ b ∈ bs, b < 128) ∧ cs = bs.map fun b => Char.ofNat b.toNat := by
  induction bs generalizing i cs with
  | nil =>
    rw [asciiText?, Except.ok.injEq]
    exact ⟨fun h => ⟨fun b hb => absurd hb List.not_mem_nil, h.symm⟩, fun h => h.2.symm⟩
  | cons b bs ih =>
    rw [asciiText?]
    split
    · next hb =>
      cases htail : asciiText? (i + 1) bs with
      | error e =>
        refine iff_of_false nofun fun h => ?_
        have hok : asciiText? (i + 1) bs = .ok _ :=
          ih.mpr ⟨fun c hc => h.1 c (List.mem_cons_of_mem b hc), rfl⟩
        cases htail.symm.trans hok
      | ok tail =>
        obtain ⟨hall, rfl⟩ := ih.mp htail
        rw [List.forall_mem_cons, List.map_cons]
        exact ⟨fun h => ⟨⟨hb, hall⟩, (Except.ok.inj h).symm⟩, fun h => congrArg _ h.2.symm⟩
    · next hb => exact iff_of_false nofun fun h => hb (h.1 b List.mem_cons_self)

/-- The bytes are ASCII text that, without the blanks at its ends, consists of lowercase hexadecimal
digits, one for four bits of a size. -/
def SpellsRoot (size : ℕ) (bs : Bytes) : Prop :=
  (∀ b ∈ bs, b < 128)
    ∧ (Text.trim Text.isBlank (bs.map fun b => Char.ofNat b.toNat)).length * 4 = size
    ∧ ∀ c ∈ Text.trim Text.isBlank (bs.map fun b => Char.ofNat b.toNat), isLowerHex c = true

instance (size : ℕ) (bs : Bytes) : Decidable (SpellsRoot size bs) :=
  decidable_of_iff ((bs.all fun b => b < 128) = true
      ∧ (Text.trim Text.isBlank (bs.map fun b => Char.ofNat b.toNat)).length * 4 = size
      ∧ (Text.trim Text.isBlank (bs.map fun b => Char.ofNat b.toNat)).all isLowerHex = true)
    (by simp only [SpellsRoot, List.all_eq_true, decide_eq_true_eq])

/-- The bits of a text that was trimmed before. -/
theorem hexToBits?_ofList_trim (cs : List Char) (size : ℤ) :
    hexToBits? (String.ofList (Text.trim Text.isBlank cs)) size
      = if ((Text.trim Text.isBlank cs).length : ℤ) * 4 ≠ size then
          .error (.digitCount size (Text.trim Text.isBlank cs).length)
        else if (Text.trim Text.isBlank cs).all isLowerHex then
          .ok ((Text.trim Text.isBlank cs).flatMap nibbleBits)
        else .error .notHex := by
  rw [hexToBits?, String.toList_ofList, Text.trim_trim]

end MerkleSnark
