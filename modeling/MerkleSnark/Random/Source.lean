import MerkleSnark.Field.Scalar

/-!
# Sources of random scalars

Key generation and proving draw their secrets from a source with a state.  A source that is read
twice from the same state gives the same scalars, which makes runs reproducible.

For reproducible runs there is the generator MT19937 with seeding from an array of words, and uniform
scalars by rejection.  Whoever knows the seed knows every secret drawn from it.

## Main definitions

* `ScalarSource` — states from which scalars are drawn.
* `draw` — one scalar, as a computation on the state.
* `Cycle` — the source that repeats a list.
* `Twister` — 624 words and the position of the next one.
* `Twister.ofSeed` — the state for an integer seed.
* `Twister.next`, `Twister.bits` — the next word, and a number of random bits.
* `Twister.scalar` — a scalar other than zero.
-/

namespace MerkleSnark

/-! ### Sources -/

/-- States from which scalars are drawn. -/
class ScalarSource (σ : Type) where
  /-- The next scalar and the state after it. -/
  next : σ → Fr × σ

/-- Draws one scalar. -/
def draw {σ : Type} [ScalarSource σ] : StateM σ Fr := fun s => ScalarSource.next s

/-- The source that gives the scalars of a list in order and starts again when they are used up. -/
structure Cycle where
  /-- The whole list. -/
  scalars : List Fr
  /-- What is left of the current round. -/
  left : List Fr
  deriving DecidableEq, Repr

namespace Cycle

/-- A source at the beginning of its list. -/
def ofList (scalars : List Fr) : Cycle := ⟨scalars, scalars⟩

/-- The next scalar; an empty list gives zeros. -/
def next (s : Cycle) : Fr × Cycle :=
  match s.left with
  | x :: rest => (x, { s with left := rest })
  | [] =>
    match s.scalars with
    | x :: rest => (x, { s with left := rest })
    | [] => (0, s)

instance : ScalarSource Cycle := ⟨next⟩

end Cycle

/-! ### The Mersenne Twister -/

/-- A state of the generator. -/
structure Twister where
  /-- The current block of words, before tempering. -/
  words : Array UInt32
  /-- How many words of the block were used. -/
  position : Nat

namespace Twister

/-- The number of words in a block. -/
def blockSize : Nat := 624

/-- The distance of the word that is mixed in. -/
def middle : Nat := 397

/-- The word at a place of a block. -/
@[inline] def wordAt (words : Array UInt32) (i : Nat) : UInt32 := words.getD i 0

/-- A word folded over its two highest bits, as both seedings use it. -/
@[inline] def folded (x : UInt32) : UInt32 := x ^^^ (x >>> 30)

/-- The block that a single word seeds. -/
def ofWord (seed : UInt32) : Array UInt32 :=
  (List.range (blockSize - 1)).foldl
    (fun words i => words.push (1812433253 * folded (wordAt words i) + (i + 1).toUInt32)) #[seed]

/-- The index after `i`; past the end of the block the last word becomes the first. -/
def advance (words : Array UInt32) (i : Nat) : Array UInt32 × Nat :=
  if i + 1 ≥ blockSize then (words.set! 0 (wordAt words (blockSize - 1)), 1) else (words, i + 1)

/-- The block that an array of words seeds. -/
def ofKey (key : Array UInt32) : Array UInt32 :=
  let mixKey (state : Array UInt32 × Nat × Nat) (_ : Nat) : Array UInt32 × Nat × Nat :=
    let (words, i, j) := state
    let word := (wordAt words i ^^^ (folded (wordAt words (i - 1)) * 1664525))
      + wordAt key j + j.toUInt32
    let (words, i) := advance (words.set! i word) i
    (words, i, if j + 1 ≥ key.size then 0 else j + 1)
  let mixIndex (state : Array UInt32 × Nat) (_ : Nat) : Array UInt32 × Nat :=
    let (words, i) := state
    let word := (wordAt words i ^^^ (folded (wordAt words (i - 1)) * 1566083941)) - i.toUInt32
    advance (words.set! i word) i
  let (words, i, _) := (List.range (max blockSize key.size)).foldl mixKey (ofWord 19650218, 1, 0)
  let (words, _) := (List.range (blockSize - 1)).foldl mixIndex (words, i)
  words.set! 0 0x80000000

/-- The digits of a number in base `2 ^ 32`, the lowest first; zero has none. -/
def digits (n : Nat) : List UInt32 :=
  if n = 0 then [] else n.toUInt32 :: digits (n >>> 32)
termination_by n
decreasing_by
  rw [Nat.shiftRight_eq_div_pow]
  exact Nat.div_lt_self (by omega) (by decide)

/-- The state for an integer seed: the words of its absolute value are the key. -/
def ofSeed (seed : Int) : Twister :=
  let key := digits seed.natAbs
  ⟨ofKey (if key.isEmpty then #[0] else key.toArray), blockSize⟩

/-- The next block. -/
def twist (words : Array UInt32) : Array UInt32 :=
  (List.range blockSize).foldl (fun words i =>
      let y := (wordAt words i &&& 0x80000000)
        ||| (wordAt words ((i + 1) % blockSize) &&& 0x7fffffff)
      let mixed := wordAt words ((i + middle) % blockSize) ^^^ (y >>> 1)
      words.set! i (if y &&& 1 = 0 then mixed else mixed ^^^ 0x9908b0df))
    words

/-- Spreads the bits of a word of the block over the output. -/
def temper (y : UInt32) : UInt32 :=
  let y := y ^^^ (y >>> 11)
  let y := y ^^^ ((y <<< 7) &&& 0x9d2c5680)
  let y := y ^^^ ((y <<< 15) &&& 0xefc60000)
  y ^^^ (y >>> 18)

/-- The next word. -/
def next (s : Twister) : UInt32 × Twister :=
  let s : Twister := if s.position ≥ blockSize then ⟨twist s.words, 0⟩ else s
  (temper (wordAt s.words s.position), { s with position := s.position + 1 })

/-- A number of random bits, the lowest word drawn first; the highest word gives its top bits. -/
def bits (s : Twister) (count : Nat) : Nat × Twister :=
  if count = 0 then (0, s)
  else
    let (word, s) := s.next
    if count ≤ 32 then (word.toNat >>> (32 - count), s)
    else
      let (high, s) := s.bits (count - 32)
      (word.toNat + high <<< 32, s)
termination_by count
decreasing_by omega

/-- How often a draw is repeated.  A draw succeeds three times in four, so a source that needs more
is not one. -/
def maxDraws : Nat := 4096

/-- A number below `n` from draws of as many bits as `n` has: draws that are too large are
repeated. -/
def below (n : Nat) : Nat → Twister → Nat × Twister
  | 0, s => (0, s)
  | fuel + 1, s =>
    let (k, s) := s.bits (n.log2 + 1)
    if k < n then (k, s) else below n fuel s

/-- A scalar other than zero. -/
def scalar (s : Twister) : Fr × Twister :=
  let (k, s) := below (scalarOrder - 1) maxDraws s
  (.ofNat scalarOrder (1 + k), s)

instance : ScalarSource Twister := ⟨scalar⟩

end Twister

end MerkleSnark
