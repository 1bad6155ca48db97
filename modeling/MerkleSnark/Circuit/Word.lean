import MerkleSnark.Circuit.Draft
import MerkleSnark.Circuit.Digest

/-!
# Words of bits

A word is thirty-two linear combinations that carry bits, the highest first.  Rotations and shifts
only rearrange it; the bitwise functions and the addition modulo `2 ^ 32` record steps.

## Main definitions

* `Word` — thirty-two bits.
* `Word.const`, `Word.ofWires` — the bits of a number, and of consecutive wires.
* `Word.rotateRight`, `Word.shiftRight`.
* `Word.xor3`, `Word.choice`, `Word.majority` — the bitwise functions.
* `Word.pack` — the number that bits spell.
* `Word.sum`, `Word.sumOn`, `Word.sumInto` — the sum modulo `2 ^ 32`, on fresh and on given wires.
-/

namespace MerkleSnark

/-- Thirty-two bits, the highest first. -/
abbrev Word := Vector LinearCombination 32

namespace Word

instance : Inhabited Word := ⟨Vector.replicate 32 0⟩

/-- The bits of a number. -/
def const (n : Nat) : Word :=
  Vector.ofFn fun j => .const (.ofNat scalarOrder ((n >>> (31 - j.val)) % 2))

/-- The bits that consecutive wires carry. -/
def ofWires (first : Nat) : Word := Vector.ofFn fun j => .var (first + j.val)

/-- The rotation to the right by at most thirty-two places. -/
def rotateRight (w : Word) (n : Nat) : Word :=
  Vector.ofFn fun j => w[(j.val + (32 - n)) % 32]

/-- The shift to the right, with zeros from the left. -/
def shiftRight (w : Word) (n : Nat) : Word :=
  Vector.ofFn fun j => if n ≤ j.val then w[j.val - n] else 0

/-! ### Bitwise functions

The functions on one bit come first; place `j` of a word takes the number `j` into its name. -/

/-- The exclusive or of three bits. -/
def xor3Bit (label : String) (j : Nat) (x y z : LinearCombination) : DraftM LinearCombination := do
  DraftM.xor (← DraftM.xor x y s!"{label}[{j}].0") z s!"{label}[{j}]"

/-- The bit `f` where `e` is one and `g` where it is zero, as `g + e · (f - g)`. -/
def choiceBit (label : String) (j : Nat) (e f g : LinearCombination) :
    DraftM LinearCombination :=
  DraftM.product g e (f - g) s!"{label}[{j}]"

/-- The bit that at least two of three bits are, as `t + a · (b + c - 2 · t)` with `t = b · c`. -/
def majorityBit (label : String) (j : Nat) (a b c : LinearCombination) :
    DraftM LinearCombination := do
  let bc ← DraftM.product 0 b c s!"{label}[{j}].bc"
  DraftM.product bc a (b + c - bc.scale (1 + 1)) s!"{label}[{j}]"

/-- The exclusive or of three words. -/
def xor3 (x y z : Word) (label : String) : DraftM Word :=
  Vector.ofFnM fun j => xor3Bit label j x[j] y[j] z[j]

/-- The choice between the bits of two words. -/
def choice (e f g : Word) (label : String) : DraftM Word :=
  Vector.ofFnM fun j => choiceBit label j e[j] f[j] g[j]

/-- The majority of three words. -/
def majority (x y z : Word) (label : String) : DraftM Word :=
  Vector.ofFnM fun j => majorityBit label j x[j] y[j] z[j]

/-! ### Addition -/

/-- Adds a multiple of a combination. -/
def addMultiple (total x : LinearCombination) (c : Fr) : LinearCombination :=
  x.terms.foldl (fun acc t => acc.addTerm t.1 (t.2 * c)) total

/-- The sum of the numbers that words spell; place `j` weighs `2 ^ (31 - j)`. -/
def pack (words : List (List LinearCombination)) : LinearCombination :=
  words.foldl (fun total word =>
      word.zipIdx.foldl (fun total p =>
          addMultiple total p.1 (.ofNat scalarOrder (1 <<< (31 - p.2))))
        total)
    0

/-- How many bits the sum of `count` words has beyond thirty-two. -/
def carryBits (count : Nat) : Nat :=
  let most := count * (1 <<< 32 - 1)
  (if most = 0 then 0 else most.log2 + 1) - 32

/-- The wires of a sum with the lowest digit first: those of the result, which has its highest digit
first, and then wires `carry, …` for the carry. -/
def digitWires (result : List Nat) (carry count : Nat) : List Nat :=
  result.reverse ++ List.range' carry count

/-- The wires of a sum whose result stands on wires `first, …, first + size - 1`. -/
def sumWires (first size carry count : Nat) : List Nat :=
  digitWires (List.range' first size) carry count

/-- Records that the sum of words stands, modulo `2 ^ 32`, on given wires, the highest digit
first. -/
def sumOn (words : List Word) (label : String) (result : Vector Nat 32) : DraftM Unit := do
  let count := carryBits words.length
  let carry ← DraftM.allocateBlock (label ++ ".carry") count
  DraftM.record
    (.digits (pack (words.map Vector.toList)) (digitWires result.toList carry count) label)

/-- Records that the sum of words stands, modulo `2 ^ 32`, on the wires from `result` on. -/
def sumInto (words : List Word) (label : String) (result : Nat) : DraftM Unit :=
  sumOn words label (Vector.range' result 32)

/-- The sum of words modulo `2 ^ 32`, on fresh wires. -/
def sum (words : List Word) (label : String) : DraftM Word := do
  let result ← DraftM.allocateBlock label 32
  sumInto words label result
  return ofWires result

end Word

end MerkleSnark
