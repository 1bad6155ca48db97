import MerkleSnark.Circuit.Word

/-!
# Words of any length

The operations on words, for lists of bits whose length is not known to be thirty-two.  They are the
functions of `Word` where the lists have thirty-two entries.  A bit that is missing, or a place
that has no weight, is a failure; the bits before it are drafted all the same.

## Main definitions

* `RaggedWord` — a list of bits, the highest first.
* `RaggedWord.rotateRight`, `RaggedWord.shiftRight`.
* `RaggedWord.xor3?`, `RaggedWord.choice?`, `RaggedWord.majority?`.
* `RaggedWord.pack?`, `RaggedWord.sum?`.
-/

namespace MerkleSnark

/-- A list of bits, the highest first. -/
abbrev RaggedWord := List LinearCombination

namespace RaggedWord

/-- Drafts that can fail. -/
abbrev M := ExceptT BoardError DraftM

/-- Cuts a word into the bits before and after its last `n`, or for a negative `n` after its first
`-n`. -/
def splitLast (w : RaggedWord) (n : Int) : RaggedWord × RaggedWord :=
  w.splitAt (if n < 0 then (-n).toNat else w.length - n.toNat)

/-- Moves the last `n` bits to the front; a negative rotation moves bits from the front to the
back. -/
def rotateRight (w : RaggedWord) (n : Int) : RaggedWord :=
  (w.splitLast n).2 ++ (w.splitLast n).1

/-- Puts `n` zeros in front and drops the last `n` bits.  No shift at all leaves no bits, a negative
one only the first `-n`. -/
def shiftRight (w : RaggedWord) (n : Int) : RaggedWord :=
  List.replicate n.toNat 0 ++ if n = 0 then [] else (w.splitLast n).1

/-- The bit at a place. -/
def bit (w : RaggedWord) (j : Nat) : M LinearCombination :=
  match w[j]? with
  | some x => return x
  | none => throw .missingWire

/-- Computes the thirty-two bits of a word from the highest on. -/
def ofBits (f : Nat → M LinearCombination) : M RaggedWord := (List.range 32).mapM f

/-- The exclusive or of three words. -/
def xor3? (x y z : RaggedWord) (label : String) : M RaggedWord := ofBits fun j => do
  let t ← DraftM.xor (← bit x j) (← bit y j) s!"{label}[{j}].0"
  DraftM.xor t (← bit z j) s!"{label}[{j}]"

/-- The choice between the bits of two words. -/
def choice? (e f g : RaggedWord) (label : String) : M RaggedWord := ofBits fun j => do
  Word.choiceBit label j (← bit e j) (← bit f j) (← bit g j)

/-- The majority of three words.  The product of the last two bits is drafted before the first bit
is looked at. -/
def majority? (a b c : RaggedWord) (label : String) : M RaggedWord := ofBits fun j => do
  let y ← bit b j
  let z ← bit c j
  let yz ← DraftM.product 0 y z s!"{label}[{j}].bc"
  DraftM.product yz (← bit a j) (y + z - yz.scale (1 + 1)) s!"{label}[{j}]"

/-- The sum of the numbers that words spell.  Only thirty-two places have a weight. -/
def pack? (words : List RaggedWord) : Except BoardError LinearCombination :=
  if words.any fun w => 32 < w.length then .error .wordTooLong else .ok (Word.pack words)

/-- The sum of words, on the wires of a block or on thirty-two fresh ones.  All wires are allocated
before the words are looked at. -/
def sum? (words : List RaggedWord) (label : String) (result : Option Digest) : M RaggedWord := do
  let (first, size) ← match result with
    | some d => pure (d.first, d.size)
    | none => do pure (← DraftM.allocateBlock label 32, 32)
  let count := Word.carryBits words.length
  let carry ← DraftM.allocateBlock (label ++ ".carry") count
  let total ← (pack? words : Except BoardError _)
  DraftM.record (.digits total (Word.sumWires first size carry count) label)
  return (List.range' first size).map .var

end RaggedWord

end MerkleSnark
