import MerkleSnark.Codec.Key
import MerkleSnark.Merkle.Circuit
import MerkleSnark.Workflow.Artifact
import MerkleSnark.Workflow.Backend

/-!
# The three phases

Setup makes the keys for a circuit, proving makes a proof of the root of given leaves, and verifying
judges a proof.  The phases share nothing but the artifacts in the work directory.  Setup and
proving lay out the same circuit from the configuration; verifying needs no circuit.

## Main definitions

* `Workflow` — what all phases need.
* `Workflow.layOut` — the circuit of a configuration.
* `Workflow.setup`, `Workflow.prove`, `Workflow.verify` — the phases.
-/

namespace MerkleSnark

open Groth16

/-- What setup tells. -/
structure SetupReport where
  /-- The number of constraints. -/
  numConstraints : Nat
  /-- The number of wires, the constant one included. -/
  numVariables : Nat
  /-- Where the proving key was written. -/
  provingKeyPath : Path
  /-- Where the verification key was written. -/
  verificationKeyPath : Path
  deriving DecidableEq, Repr

/-- What proving tells. -/
structure ProofReport where
  /-- The public root as text. -/
  rootHex : String
  /-- Where the proof was written. -/
  proofPath : Path
  /-- Where the root was written. -/
  rootPath : Path
  deriving DecidableEq, Repr

/-- What verifying tells. -/
structure Verdict where
  /-- Whether the proof is accepted. -/
  verified : Bool
  /-- The public root as text. -/
  rootHex : String
  /-- The leaf that was named, which plays no part. -/
  leaf : Option String
  deriving DecidableEq, Repr

/-- What the phases need: the gadgets there are, a proof system, and a configuration. -/
structure Workflow (σ P Q : Type) where
  /-- The known hash gadgets. -/
  gadgets : GadgetRegistry
  /-- The proof system. -/
  backend : Backend σ P Q
  /-- The configuration. -/
  config : Config

namespace Workflow

variable {σ P Q : Type} {m : Type → Type} [Monad m] [PointCodec P] [PointCodec Q]

/-- The gadget of the configuration. -/
def gadget (w : Workflow σ P Q) : WorkflowM σ m HashGadget :=
  .ofExcept (fun e => .usage (.gadget e)) (w.gadgets.find w.config.hashGadget)

/-- The circuit of a depth and a gadget with all constraints, on a board of its own. -/
def circuitOf (gadget : HashGadget) (depth : Nat) : Except BoardError (MerkleCircuit × Board) :=
  match BoardM.run (do (← MerkleCircuit.build gadget depth).constrain) Board.empty with
  | (.ok circuit, board) => .ok (circuit, board)
  | (.error e, _) => .error e

/-- The circuit of the configuration. -/
def layOut (w : Workflow σ P Q) : WorkflowM σ m (MerkleCircuit × Board) := do
  let gadget ← w.gadget
  if Config.depthLimit ≤ w.config.treeDepth then throw .tooManyLeaves
  .ofExcept .circuit (circuitOf gadget w.config.treeDepth)

/-- What is said about a number of leaves that does not fit the tree. -/
def leafCountError (config : Config) (found : Nat) : WorkflowError :=
  if Config.depthLimit ≤ config.treeDepth then .tooManyLeaves
  else if Config.maxWritableDepth < config.treeDepth then .leafCountTooLong
  else .usage (.leafCount config.numLeaves config.treeDepth found)

/-- The board after the leaves are written to it, and the text of the root, which may fail to
exist. -/
def witness (circuit : MerkleCircuit) (board : Board) (digests : List (List Int)) :
    Except BoardError (Except BitsError String × Board) :=
  match BoardM.run (do circuit.assign digests; circuit.rootBits) board with
  | (.ok bits, board) => .ok (bitsToHex? bits, board)
  | (.error e, _) => .error e

variable [Disk m]

/-- Makes the keys of the circuit and writes them. -/
def setup (w : Workflow σ P Q) : WorkflowM σ m SetupReport := do
  let (_, board) ← w.layOut
  let system := board.system
  let (pk, vk) ← .onState (.backend .generate) (w.backend.generate system)
  let pkBytes ← .ofExcept (fun e => .backend .generate e.message) pk.encode
  let vkBytes ← .ofExcept (fun e => .backend .generate e.message) vk.encode
  let pkPath ← .located w.config.provingKeyPath?
  let vkPath ← .located w.config.verificationKeyPath?
  .writeFiles [(pkPath, pkBytes), (vkPath, vkBytes)]
  return ⟨system.numConstraints, system.numVariables, pkPath, vkPath⟩

/-- Proves the root of leaves, and writes the proof and the root.  The witness is checked before the
proof system is asked. -/
def prove (w : Workflow σ P Q) (leaves : List Leaf) : WorkflowM σ m ProofReport := do
  let config := w.config
  unless config.hasLeaves leaves.length do throw (leafCountError config leaves.length)
  let gadget ← w.gadget
  let pkPath ← .located config.provingKeyPath?
  let pk : ProvingKey P Q ← .readArtifact pkPath ProvingKey.decode
  let digests ← .ofExcept .leaf (leaves.mapM fun leaf => leaf.digest? gadget.digestSize)
  let (circuit, board) ← w.layOut
  unless pk.system.same board.system do
    throw (.artifact pkPath .otherCircuit)
  let (rootHex, board) ← .ofExcept .circuit (witness circuit board digests)
  if let some label ← .ofExcept (fun _ => .circuit .missingWire) board.firstUnsatisfied? then
    throw (.violation label)
  let proof ← .onState (.backend .prove)
    (w.backend.prove pk board.primaryInput board.auxiliaryInput)
  let proofBytes ← .ofExcept (fun e => .backend .prove e.message) proof.encode
  let rootHex ← .ofExcept .root rootHex
  let proofPath ← .located config.proofPath?
  let rootPath ← .located config.rootPath?
  .writeFiles [(proofPath, proofBytes), (rootPath, (rootHex ++ "\n").toUTF8.toList)]
  return ⟨rootHex, proofPath, rootPath⟩

/-- The text of a root and its bits. -/
def readRoot (path : Path) (size : Nat) (bytes : Bytes) :
    Except WorkflowError (String × List Int) := do
  let chars ← (asciiText? 0 bytes).mapError (.artifact path)
  let text := String.ofList (Text.trim Text.isBlank chars)
  let bits ← (hexToBits? text size).mapError fun e => .artifact path (.notRoot e)
  return (text, bits)

/-- Judges the proof in the work directory for the root there. -/
def verify [PointGroup Q] (w : Workflow σ P Q) (leaf : Option String) :
    WorkflowM σ m Verdict := do
  let config := w.config
  let vkPath ← .located config.verificationKeyPath?
  let vk : VerificationKey P Q ← .readArtifact vkPath VerificationKey.decode
  let proofPath ← .located config.proofPath?
  let proof : Proof P Q ← .readArtifact proofPath Proof.decode
  let rootPath ← .located config.rootPath?
  let rootBytes ← .readBytes rootPath
  let (rootHex, bits) ← .ofExcept id (readRoot rootPath vk.numPublicInputs rootBytes)
  let inputs := bits.map (Residue.ofInt scalarOrder)
  let verified ← .onState (.backend .verify) (w.backend.verify vk inputs proof)
  return ⟨verified, rootHex, leaf⟩

end Workflow

end MerkleSnark
