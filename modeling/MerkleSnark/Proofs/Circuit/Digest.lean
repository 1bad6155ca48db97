import Mathlib
import MerkleSnark.Circuit.Digest
import MerkleSnark.Proofs.Circuit.Board
import MerkleSnark.Proofs.Circuit.Word
import MerkleSnark.Proofs.Codec.Bits

/-!
# Digests that carry bits, words and bytes

The wires of a digest carry a list of bits, the highest first.  A digest of a whole number of words
can be read word by word, and the bytes of these words are then the bytes of the digest.

## Main definitions

* `Digest.Carries` — the values of the wires are bits.
* `Digest.CarriesBytes`, `Digest.CarriesWords` — the wires spell bytes, or words.

## Main results

* `Digest.exists_carries_of_holds` — the boolean constraints force a list of bits.
* `Digest.exists_carriesWords`, `Digest.CarriesWords.bytes` — from bits to words and to bytes.
-/

namespace MerkleSnark.Digest

variable {d : Digest} {w : ℕ → Fr}

/-- The values of the wires are the bits. -/
def Carries (d : Digest) (w : ℕ → Fr) (bits : List Bool) : Prop :=
  d.wires.map w = bits.map bitScalar

/-- The values of the wires are the bits of the bytes. -/
def CarriesBytes (d : Digest) (w : ℕ → Fr) (bytes : Bytes) : Prop :=
  d.wires.map w = (bytesToBits bytes).map (Residue.ofInt scalarOrder)

/-- Every block of thirty-two wires carries a word. -/
def CarriesWords (d : Digest) (w : ℕ → Fr) (ns : List ℕ) : Prop :=
  d.size = 32 * ns.length ∧
    ∀ t < ns.length, Word.Carries w (Word.ofWires (d.first + 32 * t)) (ns.getD t 0)

/-! ### Bits -/

theorem Carries.length_eq {bits : List Bool} (h : d.Carries w bits) : bits.length = d.size := by
  have hlength := congrArg List.length h
  unfold wires at hlength
  rw [List.length_map, List.length_map, List.length_range'] at hlength
  exact hlength.symm

/-- The wires carry no other bits. -/
theorem Carries.unique {bits bits' : List Bool} (h : d.Carries w bits) (h' : d.Carries w bits') :
    bits = bits' :=
  bitScalar_injective.list_map (h.symm.trans h')

theorem Carries.eq_zero_or_one {bits : List Bool} (h : d.Carries w bits) :
    ∀ i ∈ d.wires, w i = 0 ∨ w i = 1 := by
  intro i hi
  have hmem : w i ∈ bits.map bitScalar := h ▸ List.mem_map_of_mem hi
  obtain ⟨b, -, hb⟩ := List.mem_map.mp hmem
  rw [← hb]
  exact bitScalar_eq_zero_or_one b

theorem carries_iff {bits : List Bool} :
    d.Carries w bits ↔
      bits.length = d.size ∧ ∀ i < d.size, w (d.first + i) = bitScalar (bits.getD i false) := by
  constructor
  · intro h
    refine ⟨h.length_eq, fun i hi => ?_⟩
    have hi' : i < bits.length := by rwa [h.length_eq]
    have hentry : (d.wires.map w)[i]? = (bits.map bitScalar)[i]? := by rw [h]
    unfold wires at hentry
    rw [List.getElem?_map, List.getElem?_map, List.getElem?_range' hi, one_mul,
      List.getElem?_eq_getElem hi'] at hentry
    rw [List.getD_eq_getElem _ _ hi']
    exact Option.some.inj hentry
  · rintro ⟨hlength, h⟩
    unfold Carries wires
    refine List.ext_getElem (by simp [hlength]) fun i hi _ => ?_
    have hi : i < d.size := by simpa using hi
    rw [List.getElem_map, List.getElem_map, List.getElem_range', one_mul, h i hi,
      List.getD_eq_getElem]

theorem emits_constrain (d : Digest) : BoardM.Emits d.constrain d.booleanConstraints :=
  BoardM.emits_forM_addConstraint d.booleanConstraints

/-- The boolean constraints leave the wires no other values than bits. -/
theorem exists_carries_of_holds (hw : w oneWire = 1) (h : ∀ k ∈ d.booleanConstraints, k.Holds w) :
    ∃ bits, d.Carries w bits := by
  refine exists_map_bitScalar fun i hi => ?_
  obtain ⟨hfirst, hlast⟩ := List.mem_range'_1.mp hi
  have hmem : Constraint.boolean (.var (d.first + (i - d.first)))
      s!"{d.label}[{i - d.first}] is boolean" ∈ d.booleanConstraints :=
    List.mem_map_of_mem (List.mem_range.mpr (by omega))
  have hholds := h _ hmem
  rwa [Constraint.holds_boolean_iff hw, LinearCombination.eval_var,
    Nat.add_sub_cancel' hfirst] at hholds

/-! ### Words and bytes -/

theorem ofInt_bitAt (n place : ℕ) :
    Residue.ofInt scalarOrder (bitAt n place) = bitScalar (n.testBit place) := by
  rw [bitAt_eq]
  cases n.testBit place <;> decide

theorem CarriesBytes.congr {v : ℕ → Fr} {bytes : Bytes} (h : d.CarriesBytes w bytes)
    (hwv : ∀ i ∈ d.wires, v i = w i) : d.CarriesBytes v bytes :=
  (List.map_congr_left hwv).trans h

theorem CarriesBytes.eq_zero_or_one {bytes : Bytes} (h : d.CarriesBytes w bytes) :
    ∀ i ∈ d.wires, w i = 0 ∨ w i = 1 := by
  intro i hi
  have hmem : w i ∈ (bytesToBits bytes).map (Residue.ofInt scalarOrder) :=
    h ▸ List.mem_map_of_mem hi
  obtain ⟨bit, hbit, heq⟩ := List.mem_map.mp hmem
  obtain ⟨b, -, hb⟩ := List.mem_flatMap.mp hbit
  obtain ⟨place, -, rfl⟩ := List.mem_map.mp hb
  rw [← heq, ofInt_bitAt]
  exact bitScalar_eq_zero_or_one _

/-- Wires that carry bits can be read as words. -/
theorem exists_carriesWords (count : ℕ) (hsize : d.size = 32 * count)
    (h : ∀ i ∈ d.wires, w i = 0 ∨ w i = 1) :
    ∃ ns, ns.length = count ∧ d.CarriesWords w ns := by
  have hword : ∀ t, ∃ n, t < count → Word.Carries w (Word.ofWires (d.first + 32 * t)) n := by
    intro t
    by_cases ht : t < count
    · have hblock : ∀ j < 32, w (d.first + 32 * t + j) = 0 ∨ w (d.first + 32 * t + j) = 1 := by
        intro j hj
        exact h _ (List.mem_range'_1.mpr (by omega))
      obtain ⟨n, hn⟩ := Word.exists_carries_ofWires hblock
      exact ⟨n, fun _ => hn⟩
    · exact ⟨0, fun hlt => absurd hlt ht⟩
  choose f hf using hword
  have hlength : ((List.range count).map f).length = count := by
    rw [List.length_map, List.length_range]
  refine ⟨(List.range count).map f, hlength, ?_, fun t ht => ?_⟩
  · rw [hlength, hsize]
  · rw [hlength] at ht
    have hget : ((List.range count).map f).getD t 0 = f t := by
      rw [List.getD_eq_getElem?_getD, List.getElem?_map, List.getElem?_range ht]
      rfl
    rw [hget]
    exact hf t ht

/-- Consecutive words spell the bits of their bytes. -/
theorem map_range'_of_words (ns : List ℕ) (first : ℕ)
    (h : ∀ t < ns.length, Word.Carries w (Word.ofWires (first + 32 * t)) (ns.getD t 0)) :
    (List.range' first (32 * ns.length)).map w
      = (bytesToBits (ns.flatMap (Bytes.ofNat 4))).map (Residue.ofInt scalarOrder) := by
  induction ns generalizing first with
  | nil => rfl
  | cons n ns ih =>
    have hword : (List.range' first 32).map w
        = (bytesToBits (Bytes.ofNat 4 n)).map (Residue.ofInt scalarOrder) := by
      rw [bytesToBits_ofNat, List.range'_eq_map_range, List.map_map, List.map_map]
      refine List.map_congr_left fun j hj => ?_
      have hbit := (h 0 (Nat.succ_pos _)).ofWires (List.mem_range.mp hj)
      rw [mul_zero, add_zero] at hbit
      exact hbit.trans (ofInt_bitAt n (31 - j)).symm
    have hrest := ih (first + 32) fun t ht => by
      have hnext := h (t + 1) (Nat.succ_lt_succ ht)
      have hplace : first + 32 * (t + 1) = first + 32 + 32 * t := by ring
      rwa [hplace] at hnext
    have hsplit : 32 * (n :: ns).length = 32 + 32 * ns.length := by
      rw [List.length_cons]
      ring
    rw [hsplit, ← List.range'_append_1, List.map_append, hword, hrest, List.flatMap_cons,
      bytesToBits_append, List.map_append]

/-- A digest that carries words carries their bytes. -/
theorem CarriesWords.bytes {ns : List ℕ} (h : d.CarriesWords w ns) :
    d.CarriesBytes w (ns.flatMap (Bytes.ofNat 4)) := by
  unfold CarriesBytes wires
  rw [h.1]
  exact map_range'_of_words ns d.first h.2

theorem CarriesWords.lt {ns : List ℕ} (h : d.CarriesWords w ns) : ∀ n ∈ ns, n < 2 ^ 32 := by
  intro n hn
  obtain ⟨t, ht, rfl⟩ := List.getElem_of_mem hn
  have hword := h.2 t ht
  rw [List.getD_eq_getElem _ _ ht] at hword
  exact hword.1

end MerkleSnark.Digest
