import MerkleSnark.Random.Source
import MerkleSnark.Sha256.Digest

/-!
# Scalars from a secret key

A source for keys that matter: the hashes of a secret key followed by a counter.  The key comes from
the system's randomness.

## Main definitions

* `HashStream` — the key and the counter.
* `Randomness` — a source of any kind.
-/

namespace MerkleSnark

/-- A secret key and the number of hashes taken so far. -/
structure HashStream where
  /-- The key. -/
  key : Bytes
  /-- The counter. -/
  count : Nat := 0
  deriving DecidableEq, Repr

namespace HashStream

/-- The next hash, as a number of 256 bits. -/
def next (s : HashStream) : Nat × HashStream :=
  ((Sha256.digest (s.key ++ Bytes.ofNat 8 s.count)).toNat, { s with count := s.count + 1 })

/-- A number below `n` from the top bits of hashes, as many as `n` has: numbers that are too large
are drawn again. -/
def below (n : Nat) : Nat → HashStream → Nat × HashStream
  | 0, s => (0, s)
  | fuel + 1, s =>
    let (h, s) := s.next
    let k := h >>> (256 - (n.log2 + 1))
    if k < n then (k, s) else below n fuel s

/-- A scalar other than zero. -/
def scalar (s : HashStream) : Fr × HashStream :=
  let (k, s) := below (scalarOrder - 1) Twister.maxDraws s
  (.ofNat scalarOrder (1 + k), s)

instance : ScalarSource HashStream := ⟨scalar⟩

end HashStream

/-- A source of scalars. -/
inductive Randomness
  /-- A reproducible one. -/
  | seeded (s : Twister)
  /-- A secret one. -/
  | secret (s : HashStream)
  /-- A list of scalars that is repeated. -/
  | cycle (s : Cycle)

namespace Randomness

/-- The next scalar. -/
def next : Randomness → Fr × Randomness
  | .seeded s =>
    let (x, s) := s.scalar
    (x, .seeded s)
  | .secret s =>
    let (x, s) := s.scalar
    (x, .secret s)
  | .cycle s =>
    let (x, s) := s.next
    (x, .cycle s)

instance : ScalarSource Randomness := ⟨next⟩

/-- The source for a seed, or for a secret key when there is no seed. -/
def ofSeed (key : Bytes) : Option Int → Randomness
  | some seed => .seeded (.ofSeed seed)
  | none => .secret ⟨key, 0⟩

end Randomness

end MerkleSnark
