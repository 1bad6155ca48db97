import MerkleSnark.Circuit.HashGadget
import MerkleSnark.Circuit.Word
import MerkleSnark.Sha256.Constants

/-!
# The known gadgets

The gadget that keys should be made with is one application of the compression function of SHA-256
to two digests, from the initial state and without padding.  The last additions write to the wires
of the output digest, so their digits are the ones that make the output boolean.

The toy gadget is the exclusive or of the left digest with the right digest rotated by some places.
It is no hash function, but a circuit with one constraint a bit, on which the proof system can be
tried out.

## Main definitions

* `Sha256Gadget.schedule`, `Sha256Gadget.round`, `Sha256Gadget.finish` — the three parts of the
  compression function.
* `Sha256Gadget.draft` — the whole circuit.
* `Sha256Gadget.gadget` — the gadget, for digests of 256 bits.
* `XorGadget.gadget` — the toy gadget for a size and a rotation.
* `XorGadget.broken` — a gadget whose witness does not satisfy its constraints.
* `GadgetRegistry.standard`, `GadgetRegistry.trial` — the gadgets that keys should be made with, and
  these together with the toys.
-/

/-! ### The compression function -/

namespace MerkleSnark.Sha256Gadget

open Sha256

/-- The number of bits of a digest. -/
def digestSize : Nat := 256

/-- The sixteen words of the block that two digests form. -/
def blockWords (left right : Digest) : Array Word :=
  ((List.range 8).map fun t => Word.ofWires (left.first + 32 * t)).toArray
    ++ ((List.range 8).map fun t => Word.ofWires (right.first + 32 * t)).toArray

/-- The next word of the message schedule. -/
def scheduleWord (label : String) (w : Array Word) (t : Nat) : DraftM Word := do
  let name := s!"{label}.W[{t}]"
  let x := w.getD (t - 15) default
  let y := w.getD (t - 2) default
  let s0 ← Word.xor3 (x.rotateRight 7) (x.rotateRight 18) (x.shiftRight 3) (name ++ ".s0")
  let s1 ← Word.xor3 (y.rotateRight 17) (y.rotateRight 19) (y.shiftRight 10) (name ++ ".s1")
  Word.sum [w.getD (t - 16) default, s0, w.getD (t - 7) default, s1] name

/-- The sixty-four words of the message schedule. -/
def schedule (label : String) (block : Array Word) : DraftM (Array Word) :=
  (List.range 48).foldlM (fun w i => return w.push (← scheduleWord label w (i + 16))) block

/-- Round `t` with the round constant `k` and the message word `w`. -/
def round (label : String) (t : Nat) (s : State Word) (k : Nat) (w : Word) :
    DraftM (State Word) := do
  let name := s!"{label}.round[{t}]"
  let s1 ← Word.xor3 (s.e.rotateRight 6) (s.e.rotateRight 11) (s.e.rotateRight 25) (name ++ ".S1")
  let ch ← Word.choice s.e s.f s.g (name ++ ".ch")
  let s0 ← Word.xor3 (s.a.rotateRight 2) (s.a.rotateRight 13) (s.a.rotateRight 22) (name ++ ".S0")
  let maj ← Word.majority s.a s.b s.c (name ++ ".maj")
  let k := Word.const k
  let e ← Word.sum [s.d, s.h, s1, ch, k, w] (name ++ ".e")
  let a ← Word.sum [s.h, s1, ch, k, w, s0, maj] (name ++ ".a")
  return ⟨a, s.a, s.b, s.c, e, s.e, s.f, s.g⟩

/-- The sixty-four rounds. -/
def rounds (label : String) (w : Array Word) (s : State Word) : DraftM (State Word) :=
  roundConstants.zipIdx.foldlM (fun s p => round label p.2 s p.1 (w.getD p.2 default)) s

/-- Adds the words of the state to those of the initial state, on the wires of the output. -/
def finish (label : String) (s : State Word) (output : Digest) : DraftM Unit :=
  (initialState.zip s.toList).zipIdx.forM fun ((iv, word), i) =>
    Word.sumInto [Word.const iv, word] s!"{label}.out[{i}]" (output.first + 32 * i)

/-- The words of the initial state. -/
def initial : State Word :=
  ((State.ofList? (initialState.map Word.const)).getD
    ⟨default, default, default, default, default, default, default, default⟩)

/-- The whole circuit. -/
def draft (left right output : Digest) (label : String) : DraftM Unit := do
  let w ← schedule label (blockWords left right)
  finish label (← rounds label w initial) output

/-- The gadget that runs recorded steps. -/
def ofSteps (label : String) (steps : List Step) : PlacedGadget where
  label := label
  constrain := (steps.flatMap Step.constraints).forM BoardM.addConstraint
  assign := steps.forM Step.assign

/-- Checks that a digest has the size of the gadget. -/
def checkSize (label : String) (d : Digest) : BoardM Unit := do
  if d.size ≠ digestSize then throw (.digestSize label d.describe digestSize)

/-- Places the circuit between three digests of 256 bits. -/
def place (left right output : Digest) (label : String) : BoardM PlacedGadget := do
  checkSize label left
  checkSize label right
  checkSize label output
  let (_, steps) ← BoardM.draft (draft left right output label)
  return ofSteps label steps

/-- The gadget. -/
def gadget : HashGadget where
  digestSize := digestSize
  defaultLabel := "sha256"
  place := place

end MerkleSnark.Sha256Gadget

/-! ### The exclusive or -/

namespace MerkleSnark.XorGadget

/-- The left, right and output wire of bit `i`. -/
def wires (size rotation : Nat) (left right output : Digest) (i : Nat) :
    BoardM (Nat × Nat × Nat) :=
  match left.wire? i, right.wire? ((i + rotation) % size), output.wire? i with
  | some l, some r, some o => return (l, r, o)
  | _, _, _ => throw .missingWire

/-- The constraint `(-2 · l) · r = o - l - r`, which for bits says that `o` is the exclusive or. -/
def bitConstraint (label : String) (i l r o : Nat) : Constraint :=
  ⟨(LinearCombination.var l).scale (-(1 + 1)), .var r, .var o - .var l - .var r, s!"{label}[{i}]"⟩

/-- The gadget between three digests. -/
def placed (size rotation : Nat) (left right output : Digest) (label : String) : PlacedGadget where
  label := label
  constrain := (List.range size).forM fun i => do
    let (l, r, o) ← wires size rotation left right output i
    BoardM.addConstraint (bitConstraint label i l r o)
  assign := (List.range size).forM fun i => do
    let (l, r, o) ← wires size rotation left right output i
    let x ← BoardM.wire l
    let y ← BoardM.wire r
    BoardM.setWire o (.ofNat scalarOrder (x.val ^^^ y.val))

/-- The gadget for a size and a rotation.  It does not look at the sizes of the digests when it is
placed. -/
def gadget (size rotation : Nat) : HashGadget where
  digestSize := size
  defaultLabel := "xor"
  place left right output label := return placed size rotation left right output label

/-- The gadget of four bits whose witness ends by flipping the first output bit. -/
def broken : HashGadget where
  digestSize := 4
  defaultLabel := "xor"
  place left right output label :=
    let whole := placed 4 1 left right output label
    return { whole with
      assign := do
        whole.assign
        BoardM.setWire output.first (1 - (← BoardM.wire output.first)) }

end MerkleSnark.XorGadget

/-! ### Registries -/

namespace MerkleSnark.GadgetRegistry

/-- The gadgets that compute a hash function. -/
def standard : GadgetRegistry := [("sha256", Sha256Gadget.gadget)]

/-- The standard gadgets, and toys of several sizes for trying out circuits of any depth. -/
def trial : GadgetRegistry :=
  standard ++
    [("xor1", XorGadget.gadget 1 1), ("xor4", XorGadget.gadget 4 1),
      ("xor6", XorGadget.gadget 6 1), ("xor8", XorGadget.gadget 8 1),
      ("broken4", XorGadget.broken), ("rewired4", XorGadget.gadget 4 2)]

end MerkleSnark.GadgetRegistry
