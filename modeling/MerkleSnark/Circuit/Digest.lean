import MerkleSnark.Circuit.Board
import MerkleSnark.Text.Terminal

/-!
# Digests on a board

A digest is a block of consecutive wires that are meant to carry bits, the highest first.

## Main definitions

* `Digest` — the block.
* `Digest.allocate` — allocates a block.
* `Digest.constrain` — asks that every wire carries a bit.
* `Digest.assign`, `Digest.values` — writes and reads the bits.
-/

namespace MerkleSnark

/-- A block of wires for bits. -/
structure Digest where
  /-- The first wire. -/
  first : Nat
  /-- The number of wires. -/
  size : Nat
  /-- The name. -/
  label : String
  deriving DecidableEq, Repr, Inhabited

namespace Digest

/-- The wires of a digest in order. -/
def wires (d : Digest) : List Nat := List.range' d.first d.size

/-- The wire of a bit. -/
def wire? (d : Digest) (i : Nat) : Option Nat := if i < d.size then some (d.first + i) else none

/-- The bits as linear combinations. -/
def combinations (d : Digest) : List LinearCombination := d.wires.map .var

/-- Allocates the wires of a digest. -/
def allocate (size : Nat) (label : String) : BoardM Digest :=
  return ⟨← BoardM.allocateBlock label size, size, label⟩

/-- The constraints that every wire carries zero or one. -/
def booleanConstraints (d : Digest) : List Constraint :=
  (List.range d.size).map fun i =>
    .boolean (.var (d.first + i)) s!"{d.label}[{i}] is boolean"

/-- Adds the boolean constraints. -/
def constrain (d : Digest) : BoardM Unit := d.booleanConstraints.forM BoardM.addConstraint

/-- Writes bits one after another to the wires from `first` on, up to the first entry that is no
bit. -/
def assignFrom (label : String) : Nat → List Int → BoardM Unit
  | _, [] => return ()
  | first, bit :: rest => do
    if bit ≠ 0 ∧ bit ≠ 1 then throw (.notABit label bit)
    BoardM.setWire first (Residue.ofInt scalarOrder bit)
    assignFrom label (first + 1) rest

/-- Writes the bits of a digest. -/
def assign (d : Digest) (bits : List Int) : BoardM Unit := do
  if bits.length ≠ d.size then throw (.bitCount d.label d.size bits.length)
  assignFrom d.label d.first bits

/-- The values of the wires, as integers. -/
def values (d : Digest) : BoardM (List Int) :=
  d.wires.mapM fun i => return ((← BoardM.wire i).val : Int)

/-- A description for messages. -/
def describe (d : Digest) : String := s!"DigestVariable({Text.quote d.label}, {d.size} bits)"

end Digest

end MerkleSnark
