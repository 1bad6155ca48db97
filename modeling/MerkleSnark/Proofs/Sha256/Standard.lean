import Mathlib
import MerkleSnark.Sha256.Constants

/-!
# SHA-256 as the standard has it

The hash of a string of bits, written down as the standard defines it: the words are vectors of
thirty-two bits, the message schedule is a recurrence, and the constants are fractional bits of roots
of primes.  Nothing in it is taken from the functions that compute the hash, except for the type of
the eight words of a state.

## Main definitions

* `Standard.compress` — the compression of sixteen words from a state.
* `Standard.pad` — a message followed by a one bit, zeros and its length.
* `Standard.hash` — the hash of a message.

## Main results

* `Standard.toNat_roundWord`, `Standard.toNat_initialWord` — the tables hold the constants.
-/

namespace MerkleSnark.Sha256.Standard

/-- Words of thirty-two bits. -/
abbrev Word := BitVec 32

/-! ### Functions on words -/

/-- The bits of the second word where the first has ones, of the third where it has zeros. -/
def choice (x y z : Word) : Word := (x &&& y) ^^^ (~~~x &&& z)

/-- The bits that at least two of three words have. -/
def majority (x y z : Word) : Word := (x &&& y) ^^^ (x &&& z) ^^^ (y &&& z)

/-- The rotations of the first word of a state. -/
def upperSigma0 (x : Word) : Word := x.rotateRight 2 ^^^ x.rotateRight 13 ^^^ x.rotateRight 22

/-- The rotations of the fifth word of a state. -/
def upperSigma1 (x : Word) : Word := x.rotateRight 6 ^^^ x.rotateRight 11 ^^^ x.rotateRight 25

/-- The rotations and the shift of the schedule word fifteen places before. -/
def lowerSigma0 (x : Word) : Word := x.rotateRight 7 ^^^ x.rotateRight 18 ^^^ (x >>> 3)

/-- The rotations and the shift of the schedule word two places before. -/
def lowerSigma1 (x : Word) : Word := x.rotateRight 17 ^^^ x.rotateRight 19 ^^^ (x >>> 10)

/-! ### Constants -/

/-- The first thirty-two bits of the fractional part of a number. -/
noncomputable def fractionalBits (x : ℝ) : Word := BitVec.ofNat 32 ⌊Int.fract x * (2 ^ 32 : ℕ)⌋₊

/-- The words of the state before the first block come from square roots of primes. -/
noncomputable def initialWord (i : ℕ) : Word := fractionalBits √(Nat.nth Nat.Prime i)

/-- The constants of the rounds come from cube roots of primes. -/
noncomputable def roundWord (t : ℕ) : Word :=
  fractionalBits ((Nat.nth Nat.Prime t : ℝ) ^ ((3 : ℕ) : ℝ)⁻¹)

/-- The state before the first block. -/
noncomputable def initial : State Word :=
  ⟨initialWord 0, initialWord 1, initialWord 2, initialWord 3, initialWord 4, initialWord 5,
    initialWord 6, initialWord 7⟩

/-! ### The compression function -/

/-- The message schedule: sixteen words of the message, and each word after them from four before
it. -/
def schedule (m : ℕ → Word) (t : ℕ) : Word :=
  if t < 16 then m t
  else lowerSigma1 (schedule m (t - 2)) + schedule m (t - 7) + lowerSigma0 (schedule m (t - 15))
    + schedule m (t - 16)
termination_by t

/-- One round with the round constant `k` and the schedule word `w`. -/
def round (v : State Word) (k w : Word) : State Word :=
  let temp1 := v.h + upperSigma1 v.e + choice v.e v.f v.g + k + w
  let temp2 := upperSigma0 v.a + majority v.a v.b v.c
  ⟨temp1 + temp2, v.a, v.b, v.c, v.d + temp1, v.e, v.f, v.g⟩

/-- The words of two states, added in pairs. -/
def feedForward (v u : State Word) : State Word :=
  ⟨v.a + u.a, v.b + u.b, v.c + u.c, v.d + u.d, v.e + u.e, v.f + u.f, v.g + u.g, v.h + u.h⟩

/-- The compression of sixteen words: sixty-four rounds, and the state before them added. -/
noncomputable def compress (v : State Word) (m : ℕ → Word) : State Word :=
  feedForward v ((List.range 64).foldl (fun u t => round u (roundWord t) (schedule m t)) v)

theorem schedule_of_lt (m : ℕ → Word) {t : ℕ} (ht : t < 16) : schedule m t = m t := by
  rw [schedule, if_pos ht]

theorem schedule_of_le (m : ℕ → Word) {t : ℕ} (ht : 16 ≤ t) :
    schedule m t = lowerSigma1 (schedule m (t - 2)) + schedule m (t - 7)
      + lowerSigma0 (schedule m (t - 15)) + schedule m (t - 16) := by
  rw [schedule, if_neg (not_lt.mpr ht)]

theorem schedule_congr {m m' : ℕ → Word} (h : ∀ t < 16, m t = m' t) (t : ℕ) :
    schedule m t = schedule m' t := by
  induction t using Nat.strongRecOn with
  | ind t ih =>
    rcases Nat.lt_or_ge t 16 with ht | ht
    · rw [schedule_of_lt m ht, schedule_of_lt m' ht, h t ht]
    · rw [schedule_of_le m ht, schedule_of_le m' ht, ih (t - 2) (by omega), ih (t - 7) (by omega),
        ih (t - 15) (by omega), ih (t - 16) (by omega)]

/-- No other words than the first sixteen count. -/
theorem compress_congr (v : State Word) {m m' : ℕ → Word} (h : ∀ t < 16, m t = m' t) :
    compress v m = compress v m' := by
  rw [compress, compress, funext (schedule_congr h)]

/-! ### Messages -/

/-- The number of zeros behind the one bit: as few as leave sixty-four bits of the last block. -/
noncomputable def zeroCount (length : ℕ) : ℕ := sInf {k | (length + 1 + k) % 512 = 448}

/-- The message, a one bit, zeros and the length of the message in sixty-four bits. -/
noncomputable def pad (bits : List Bool) : List Bool :=
  bits ++ true :: (List.replicate (zeroCount bits.length) false
    ++ (List.range 64).map fun i => bits.length.testBit (63 - i))

/-- Word `t` of a string of bits, the highest bit first. -/
def wordAt (bits : List Bool) (t : ℕ) : Word :=
  BitVec.ofFnBE fun i : Fin 32 => bits.getD (32 * t + i) false

/-- The bits of a word, the highest first. -/
def wordBits (x : Word) : List Bool := (List.range 32).map x.getMsbD

/-- The state behind all blocks of a padded message. -/
noncomputable def compressBlocks (bits : List Bool) : State Word :=
  (List.range (bits.length / 512)).foldl
    (fun v i => compress v fun t => wordAt bits (16 * i + t)) initial

/-- **The hash of a message.** -/
noncomputable def hash (bits : List Bool) : List Bool :=
  (compressBlocks (pad bits)).toList.flatMap wordBits

/-! ### The tables -/

/-- The first sixty-four primes. -/
def primes : List ℕ :=
  [2, 3, 5, 7, 11, 13, 17, 19, 23, 29, 31, 37, 41, 43, 47, 53, 59, 61, 67, 71, 73, 79, 83, 89, 97,
    101, 103, 107, 109, 113, 127, 131, 137, 139, 149, 151, 157, 163, 167, 173, 179, 181, 191, 193,
    197, 199, 211, 223, 227, 229, 233, 239, 241, 251, 257, 263, 269, 271, 277, 281, 283, 293, 307,
    311]

theorem nth_prime {t : ℕ} (ht : t < 64) : Nat.nth Nat.Prime t = primes.getD t 0 := by
  have hprimes : ∀ t < 64, (primes.getD t 0).Prime ∧ Nat.count Nat.Prime (primes.getD t 0) = t := by
    decide +kernel
  obtain ⟨hprime, hcount⟩ := hprimes t ht
  exact (congrArg _ hcount).symm.trans (Nat.nth_count hprime)

/-- The fractional bits of a number between two neighbours with thirty-two binary places. -/
theorem fractionalBits_eq {x : ℝ} (hx : 0 ≤ x) {c : ℕ} (hle : (c : ℝ) ≤ x * (2 ^ 32 : ℕ))
    (hlt : x * (2 ^ 32 : ℕ) < c + 1) : fractionalBits x = BitVec.ofNat 32 c := by
  have hfloor : ⌊x * (2 ^ 32 : ℕ)⌋₊ = c := (Nat.floor_eq_iff (by positivity)).mpr ⟨hle, hlt⟩
  -- the whole part is a multiple of `2 ^ 32` once it is scaled
  have hsplit : x * (2 ^ 32 : ℕ) = Int.fract x * (2 ^ 32 : ℕ) + ((⌊x⌋₊ * 2 ^ 32 : ℕ) : ℝ) := by
    have hwhole : (⌊x⌋₊ : ℝ) = x - Int.fract x := by
      rw [natCast_floor_eq_intCast_floor hx, Int.self_sub_fract]
    rw [Nat.cast_mul, hwhole]
    ring
  rw [hsplit, Nat.floor_add_natCast (mul_nonneg (Int.fract_nonneg x) (by positivity))] at hfloor
  refine BitVec.eq_of_toNat_eq ?_
  rw [fractionalBits, BitVec.toNat_ofNat, BitVec.toNat_ofNat, ← hfloor, Nat.add_mul_mod_self_right]

theorem fractionalBits_sqrt {p c : ℕ} (hle : c ^ 2 ≤ p * 2 ^ 64) (hlt : p * 2 ^ 64 < (c + 1) ^ 2) :
    fractionalBits √p = BitVec.ofNat 32 c := by
  have hsq : (√p * (2 ^ 32 : ℕ)) ^ 2 = ((p * 2 ^ 64 : ℕ) : ℝ) := by
    rw [mul_pow, Real.sq_sqrt (Nat.cast_nonneg p)]
    push_cast
    ring
  refine fractionalBits_eq (Real.sqrt_nonneg _) ?_ ?_
  · refine le_of_sq_le_sq ?_ (by positivity)
    rw [hsq]
    exact_mod_cast hle
  · refine lt_of_pow_lt_pow_left₀ 2 (by positivity) ?_
    rw [hsq]
    exact_mod_cast hlt

theorem fractionalBits_cbrt {p c : ℕ} (hle : c ^ 3 ≤ p * 2 ^ 96) (hlt : p * 2 ^ 96 < (c + 1) ^ 3) :
    fractionalBits ((p : ℝ) ^ ((3 : ℕ) : ℝ)⁻¹) = BitVec.ofNat 32 c := by
  have hcube : ((p : ℝ) ^ ((3 : ℕ) : ℝ)⁻¹ * (2 ^ 32 : ℕ)) ^ 3 = ((p * 2 ^ 96 : ℕ) : ℝ) := by
    rw [mul_pow, Real.rpow_inv_natCast_pow (Nat.cast_nonneg p) three_ne_zero]
    push_cast
    ring
  refine fractionalBits_eq (by positivity) ?_ ?_
  · refine le_of_pow_le_pow_left₀ three_ne_zero (by positivity) ?_
    rw [hcube]
    exact_mod_cast hle
  · refine lt_of_pow_lt_pow_left₀ 3 (by positivity) ?_
    rw [hcube]
    exact_mod_cast hlt

/-- The round constants are words of cube roots. -/
theorem toNat_roundWord {t : ℕ} (ht : t < 64) : (roundWord t).toNat = roundConstants.getD t 0 := by
  have htable : ∀ t < 64, roundConstants.getD t 0 < 2 ^ 32 ∧ ∃ q < 7,
      (q * 2 ^ 32 + roundConstants.getD t 0) ^ 3 ≤ primes.getD t 0 * 2 ^ 96
        ∧ primes.getD t 0 * 2 ^ 96 < (q * 2 ^ 32 + roundConstants.getD t 0 + 1) ^ 3 := by
    decide +kernel
  obtain ⟨hword, q, -, hle, hlt⟩ := htable t ht
  rw [roundWord, nth_prime ht, fractionalBits_cbrt hle hlt, BitVec.toNat_ofNat,
    Nat.mul_add_mod_self_right, Nat.mod_eq_of_lt hword]

/-- The words of the first state are those of square roots. -/
theorem toNat_initialWord {i : ℕ} (hi : i < 8) : (initialWord i).toNat = initialState.getD i 0 := by
  have htable : ∀ i < 8, initialState.getD i 0 < 2 ^ 32 ∧ ∃ q < 5,
      (q * 2 ^ 32 + initialState.getD i 0) ^ 2 ≤ primes.getD i 0 * 2 ^ 64
        ∧ primes.getD i 0 * 2 ^ 64 < (q * 2 ^ 32 + initialState.getD i 0 + 1) ^ 2 := by
    decide +kernel
  obtain ⟨hword, q, -, hle, hlt⟩ := htable i hi
  rw [initialWord, nth_prime (hi.trans (by decide)), fractionalBits_sqrt hle hlt,
    BitVec.toNat_ofNat, Nat.mul_add_mod_self_right, Nat.mod_eq_of_lt hword]

theorem toList_initial : (initial.map BitVec.toNat).toList = initialState := by
  have htable : initialState = (List.range 8).map fun i => initialState.getD i 0 := by decide
  have hwords : (initial.map BitVec.toNat).toList
      = (List.range 8).map fun i => (initialWord i).toNat := rfl
  rw [htable, hwords]
  exact List.map_congr_left fun i hi => toNat_initialWord (List.mem_range.mp hi)

end MerkleSnark.Sha256.Standard
