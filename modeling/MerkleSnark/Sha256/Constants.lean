/-!
# The constants of SHA-256

The initial state is made of the first thirty-two fractional bits of the square roots of the first
eight primes, the round constants likewise of the cube roots of the first sixty-four.

## Main definitions

* `initialState` — eight words.
* `roundConstants` — sixty-four words.
-/

namespace MerkleSnark.Sha256

/-- The state before the first block. -/
def initialState : List Nat :=
  [0x6A09E667, 0xBB67AE85, 0x3C6EF372, 0xA54FF53A, 0x510E527F, 0x9B05688C, 0x1F83D9AB, 0x5BE0CD19]

/-- The constant of each round. -/
def roundConstants : List Nat :=
  [0x428A2F98, 0x71374491, 0xB5C0FBCF, 0xE9B5DBA5, 0x3956C25B, 0x59F111F1, 0x923F82A4, 0xAB1C5ED5,
    0xD807AA98, 0x12835B01, 0x243185BE, 0x550C7DC3, 0x72BE5D74, 0x80DEB1FE, 0x9BDC06A7, 0xC19BF174,
    0xE49B69C1, 0xEFBE4786, 0x0FC19DC6, 0x240CA1CC, 0x2DE92C6F, 0x4A7484AA, 0x5CB0A9DC, 0x76F988DA,
    0x983E5152, 0xA831C66D, 0xB00327C8, 0xBF597FC7, 0xC6E00BF3, 0xD5A79147, 0x06CA6351, 0x14292967,
    0x27B70A85, 0x2E1B2138, 0x4D2C6DFC, 0x53380D13, 0x650A7354, 0x766A0ABB, 0x81C2C92E, 0x92722C85,
    0xA2BFE8A1, 0xA81A664B, 0xC24B8B70, 0xC76C51A3, 0xD192E819, 0xD6990624, 0xF40E3585, 0x106AA070,
    0x19A4C116, 0x1E376C08, 0x2748774C, 0x34B0BCB5, 0x391C0CB3, 0x4ED8AA4A, 0x5B9CCA4F, 0x682E6FF3,
    0x748F82EE, 0x78A5636F, 0x84C87814, 0x8CC70208, 0x90BEFFFA, 0xA4506CEB, 0xBEF9A3F7, 0xC67178F2]

/-- The eight words of a state. -/
structure State (α : Type) where
  /-- The first word. -/
  a : α
  /-- The second word. -/
  b : α
  /-- The third word. -/
  c : α
  /-- The fourth word. -/
  d : α
  /-- The fifth word. -/
  e : α
  /-- The sixth word. -/
  f : α
  /-- The seventh word. -/
  g : α
  /-- The eighth word. -/
  h : α
  deriving DecidableEq, Repr

/-- The words of a state in order. -/
def State.toList {α : Type} (s : State α) : List α := [s.a, s.b, s.c, s.d, s.e, s.f, s.g, s.h]

/-- The state of eight words. -/
def State.ofList? {α : Type} : List α → Option (State α)
  | [a, b, c, d, e, f, g, h] => some ⟨a, b, c, d, e, f, g, h⟩
  | _ => none

/-- The state whose words are images. -/
def State.map {α β : Type} (fn : α → β) (s : State α) : State β :=
  ⟨fn s.a, fn s.b, fn s.c, fn s.d, fn s.e, fn s.f, fn s.g, fn s.h⟩

end MerkleSnark.Sha256
