import MerkleSnark.Codec.Bytes
import MerkleSnark.Sha256.Constants

/-!
# SHA-256 of a message

The hash function of the standard, on machine words: a message is padded to whole blocks, and the
compression function is folded over them.

## Main definitions

* `padZeros`, `pad` — the message followed by a one bit, zeros and its length.
* `Word.compress` — the compression function on words of thirty-two bits.
* `digest` — the thirty-two bytes of the hash.
-/

namespace MerkleSnark.Sha256

namespace Word

/-- The rotation of a word to the right. -/
@[inline] def rotateRight (x n : UInt32) : UInt32 := (x >>> n) ||| (x <<< (32 - n))

/-- The big-endian words of bytes, four bytes each. -/
def ofBytes : Bytes → List UInt32
  | a :: b :: c :: d :: rest =>
    ((a.toUInt32 <<< 24) ||| (b.toUInt32 <<< 16) ||| (c.toUInt32 <<< 8) ||| d.toUInt32)
      :: ofBytes rest
  | _ => []

/-- The big-endian bytes of a word. -/
def toBytes (x : UInt32) : Bytes :=
  [(x >>> 24).toUInt8, (x >>> 16).toUInt8, (x >>> 8).toUInt8, x.toUInt8]

/-- The next word of the message schedule, from the sixteen words before it. -/
def scheduleWord (w : Array UInt32) (t : Nat) : UInt32 :=
  let x := w.getD (t - 15) 0
  let y := w.getD (t - 2) 0
  let s0 := rotateRight x 7 ^^^ rotateRight x 18 ^^^ (x >>> 3)
  let s1 := rotateRight y 17 ^^^ rotateRight y 19 ^^^ (y >>> 10)
  w.getD (t - 16) 0 + s0 + w.getD (t - 7) 0 + s1

/-- The sixty-four words of the message schedule. -/
def schedule (block : Bytes) : Array UInt32 :=
  (List.range 48).foldl (fun w i => w.push (scheduleWord w (i + 16))) (ofBytes block).toArray

/-- One round with the round constant `k` and the message word `w`. -/
def round (s : State UInt32) (k w : UInt32) : State UInt32 :=
  let s1 := rotateRight s.e 6 ^^^ rotateRight s.e 11 ^^^ rotateRight s.e 25
  let ch := (s.e &&& s.f) ^^^ (~~~s.e &&& s.g)
  let temp1 := s.h + s1 + ch + k + w
  let s0 := rotateRight s.a 2 ^^^ rotateRight s.a 13 ^^^ rotateRight s.a 22
  let maj := (s.a &&& s.b) ^^^ (s.a &&& s.c) ^^^ (s.b &&& s.c)
  ⟨temp1 + (s0 + maj), s.a, s.b, s.c, s.d + temp1, s.e, s.f, s.g⟩

/-- The round constants as words. -/
def constants : List UInt32 := roundConstants.map Nat.toUInt32

/-- The compression of a block of sixty-four bytes from a state. -/
def compress (s : State UInt32) (block : Bytes) : State UInt32 :=
  let t := (constants.zip (schedule block).toList).foldl (fun s p => round s p.1 p.2) s
  ⟨s.a + t.a, s.b + t.b, s.c + t.c, s.d + t.d, s.e + t.e, s.f + t.f, s.g + t.g, s.h + t.h⟩

/-- The state before the first block. -/
def initial : State UInt32 :=
  ((State.ofList? (initialState.map Nat.toUInt32)).getD ⟨0, 0, 0, 0, 0, 0, 0, 0⟩)

/-- Folds the compression over the whole blocks of a message. -/
def compressBlocks (s : State UInt32) (message : Bytes) : State UInt32 :=
  let block := message.take 64
  if block.length < 64 then s else compressBlocks (compress s block) (message.drop 64)
termination_by message.length
decreasing_by simp only [block, List.length_take, List.length_drop] at *; omega

end Word

/-- The number of zero bytes between the one bit and the length. -/
def padZeros (length : Nat) : Nat := (119 - length % 64) % 64

/-- The message, the byte `0x80`, zeros and the length in bits as eight bytes. -/
def pad (message : Bytes) : Bytes :=
  message ++ 0x80 :: (List.replicate (padZeros message.length) 0
    ++ Bytes.ofNat 8 (8 * message.length))

/-- The hash of a message. -/
def digest (message : Bytes) : Bytes :=
  (Word.compressBlocks Word.initial (pad message)).toList.flatMap Word.toBytes

end MerkleSnark.Sha256
