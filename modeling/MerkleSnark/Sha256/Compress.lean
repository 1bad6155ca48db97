import MerkleSnark.Codec.Bytes
import MerkleSnark.Sha256.Constants

/-!
# The compression function on integers

The words of the state are integers of any size and sign, read in two's complement.  Only their
thirty-two low bits count, with one exception: a rotation of an integer that is no word brings its
higher bits in.  The words of the result are below `2 ^ 32`.  This is the function that the hash
gadget is checked against.

## Main definitions

* `compress?` — one application to a state and a block of sixty-four bytes.
* `twoToOne?` — the hash of two digests: the compression of their concatenation from the initial
  state, without padding.
-/

namespace MerkleSnark.Sha256

/-- Why bytes or words cannot be compressed. -/
inductive BlockError
  /-- The block does not have sixty-four bytes. -/
  | blockLength (found : Nat)
  /-- The state has fewer than eight words. -/
  | stateTooShort (found : Nat)
  /-- The state has more than eight words. -/
  | stateTooLong
  /-- One of two digests does not have thirty-two bytes. -/
  | digestLength
  /-- A rotation to the left or by more than a whole word. -/
  | rotation
  deriving DecidableEq, Repr

/-- The wording of a failure. -/
def BlockError.message : BlockError → String
  | .blockLength found => s!"block must be 64 bytes, got {found}"
  | .stateTooShort found => s!"not enough values to unpack (expected 8, got {found})"
  | .stateTooLong => "too many values to unpack (expected 8)"
  | .digestLength => "two_to_one expects two 32-byte digests"
  | .rotation => "negative shift count"

/-- Thirty-two bits that are set. -/
def wordMask : Nat := 0xFFFFFFFF

/-- The thirty-two low bits of an integer. -/
def lowBits (x : Int) : Nat := (x % (1 <<< 32 : Nat)).toNat

/-- The rotation to the right, by at most thirty-two places.  Of a word it is the rotation of its
bits; the higher bits of an integer that is no word come in from the left. -/
def rotateRight (x : Int) (n : Nat) : Nat :=
  lowBits (x >>> n) ||| lowBits (x * (1 <<< (32 - n) : Nat))

/-- The rotation by at most thirty-two places; there is no other. -/
def rotateRight? (x n : Int) : Except BlockError Nat :=
  if 0 ≤ n ∧ n ≤ 32 then .ok (rotateRight x n.toNat) else .error .rotation

/-- The big-endian words of bytes, four bytes each. -/
def blockWords : Bytes → List Nat
  | a :: b :: c :: d :: rest => Bytes.toNat [a, b, c, d] :: blockWords rest
  | _ => []

/-- The next word of the message schedule, from the sixteen words before it. -/
def scheduleWord (w : Array Nat) (t : Nat) : Nat :=
  let x := w.getD (t - 15) 0
  let y := w.getD (t - 2) 0
  let s0 := rotateRight x 7 ^^^ rotateRight x 18 ^^^ (x >>> 3)
  let s1 := rotateRight y 17 ^^^ rotateRight y 19 ^^^ (y >>> 10)
  (w.getD (t - 16) 0 + s0 + w.getD (t - 7) 0 + s1) &&& wordMask

/-- The sixty-four words of the message schedule. -/
def schedule (block : Bytes) : Array Nat :=
  (List.range 48).foldl (fun w i => w.push (scheduleWord w (i + 16))) (blockWords block).toArray

/-- One round with the round constant `k` and the message word `w`. -/
def round (s : State Int) (k w : Nat) : State Int :=
  let low := s.map lowBits
  let s1 := rotateRight s.e 6 ^^^ rotateRight s.e 11 ^^^ rotateRight s.e 25
  let ch := (low.e &&& low.f) ^^^ ((wordMask ^^^ low.e) &&& low.g)
  let temp1 := low.h + s1 + ch + k + w
  let s0 := rotateRight s.a 2 ^^^ rotateRight s.a 13 ^^^ rotateRight s.a 22
  let maj := (low.a &&& low.b) ^^^ (low.a &&& low.c) ^^^ (low.b &&& low.c)
  ⟨((temp1 + (s0 + maj)) &&& wordMask : Nat), s.a, s.b, s.c,
    ((low.d + temp1) &&& wordMask : Nat), s.e, s.f, s.g⟩

/-- The words of two states, added in pairs. -/
def feedForward (s t : State Int) : State Nat :=
  ⟨lowBits (s.a + t.a), lowBits (s.b + t.b), lowBits (s.c + t.c), lowBits (s.d + t.d),
    lowBits (s.e + t.e), lowBits (s.f + t.f), lowBits (s.g + t.g), lowBits (s.h + t.h)⟩

/-- The sixty-four rounds and the feed-forward. -/
def compressState (s : State Int) (block : Bytes) : State Nat :=
  let rounds := (roundConstants.zip (schedule block).toList).foldl (fun s p => round s p.1 p.2) s
  feedForward s rounds

/-- The compression of a block from a state.  The length of the block is judged before the state. -/
def compress? (state : List Int) (block : Bytes) : Except BlockError (List Nat) :=
  if block.length ≠ 64 then .error (.blockLength block.length)
  else
    match State.ofList? state with
    | some s => .ok (compressState s block).toList
    | none =>
      .error (if state.length < 8 then .stateTooShort state.length else .stateTooLong)

/-- The hash of two digests of thirty-two bytes. -/
def twoToOne? (left right : Bytes) : Except BlockError Bytes := do
  if left.length ≠ 32 ∨ right.length ≠ 32 then throw .digestLength
  return (← compress? (initialState.map Int.ofNat) (left ++ right)).flatMap (Bytes.ofNat 4)

end MerkleSnark.Sha256
