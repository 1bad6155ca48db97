import MerkleSnark.Circuit.HashGadget
import MerkleSnark.Codec.Bits
import MerkleSnark.Codec.Decoder
import MerkleSnark.Config
import MerkleSnark.Disk.Operation
import MerkleSnark.Merkle.Leaf

/-!
# Failures of the workflow

A phase fails for a reason that is *reported* to whoever runs it, or, rarely, for one that no phase
is prepared for.

## Main definitions

* `UsageError`, `ArtifactError`, `BackendTask` — the parts of a reported reason.
* `WorkflowError`, `WorkflowError.isReported` — all reasons.
-/

namespace MerkleSnark

/-- Why a request is refused before anything is read or written. -/
inductive UsageError
  /-- The settings are not usable. -/
  | config (cause : ConfigError)
  /-- The number of leaves does not fit the tree. -/
  | leafCount (expected treeDepth found : Nat)
  /-- The hash gadget is not known. -/
  | gadget (cause : UnknownGadget)
  deriving DecidableEq, Repr

/-- The wording of a refusal. -/
def UsageError.message : UsageError → String
  | .config cause => cause.message
  | .leafCount expected treeDepth found =>
    s!"prove needs exactly {expected} leaves for depth {treeDepth}, got {found}"
  | .gadget cause => cause.message

/-- What is wrong with an artifact. -/
inductive ArtifactError
  /-- There is no file to read. -/
  | absent
  /-- The disk refuses an operation. -/
  | refused (cause : OsError)
  /-- The bytes are no artifact of the expected kind. -/
  | malformed (cause : DecodeError)
  /-- A text holds a byte that is no ASCII character. -/
  | notAscii (byte : UInt8) (position : Nat)
  /-- A text is no public root. -/
  | notRoot (cause : BitsError)
  /-- A proving key belongs to another circuit. -/
  | otherCircuit
  deriving DecidableEq, Repr

/-- The wording of what is wrong. -/
def ArtifactError.message : ArtifactError → String
  | .absent => "file not found"
  | .refused cause => cause.message
  | .malformed cause => cause.message
  | .notAscii byte position =>
    s!"'ascii' codec can't decode byte 0x{Bytes.toHex [byte]} in position {position}: " ++
      "ordinal not in range(128)"
  | .notRoot cause => cause.message
  | .otherCircuit =>
    "proving key was generated for a different circuit (check depth and hash gadget)"

/-- What a proof system is asked to do. -/
inductive BackendTask
  /-- To make keys. -/
  | generate
  /-- To make a proof. -/
  | prove
  /-- To judge a proof. -/
  | verify
  deriving DecidableEq, Repr

/-- The wording of the failure of a task. -/
def BackendTask.failure : BackendTask → String
  | .generate => "key generation failed"
  | .prove => "proof generation failed"
  | .verify => "verification failed to run"

/-- Why a phase fails. -/
inductive WorkflowError
  /-- The request is refused. -/
  | usage (cause : UsageError)
  /-- An artifact cannot be read or written. -/
  | artifact (path : Path) (cause : ArtifactError)
  /-- The witness breaks a constraint. -/
  | violation (label : String)
  /-- The proof system fails. -/
  | backend (task : BackendTask) (reason : String)
  /-- A leaf has no digest. -/
  | leaf (cause : LeafError)
  /-- The circuit cannot be laid out or assigned. -/
  | circuit (cause : BoardError)
  /-- The bits of the root have no text. -/
  | root (cause : BitsError)
  /-- A file to be replaced has no name. -/
  | nameless (path : Path)
  /-- An artifact that is needed has no name. -/
  | unnamedArtifact
  /-- A path is none that a system takes. -/
  | badPath (cause : PathError)
  /-- The number of leaves has too many digits to be told. -/
  | leafCountTooLong
  /-- The number of leaves is too large for any machine. -/
  | tooManyLeaves
  /-- The disk refuses an operation after all files are in place, or while they are put back. -/
  | disk (cause : OsError)
  deriving DecidableEq, Repr

namespace WorkflowError

/-- The wording of a reason. -/
def message : WorkflowError → String
  | .usage cause => cause.message
  | .artifact path cause => s!"{path.text}: {cause.message}"
  | .violation label => s!"Constraints not satisfied! First failing constraint: {label}"
  | .backend task reason => s!"{task.failure}: {reason}"
  | .leaf cause => cause.message
  | .circuit cause => cause.message
  | .root cause => cause.message
  | .nameless path => s!"PosixPath({Text.quote path.text}) has an empty name"
  | .disk cause => cause.message
  | .unnamedArtifact => "an artifact has no name"
  | .badPath cause => cause.message
  | .leafCountTooLong =>
    s!"Exceeds the limit ({Text.maxDigits} digits) for integer string conversion; " ++
      "use sys.set_int_max_str_digits() to increase the limit"
  | .tooManyLeaves => "too many digits in integer"

/-- Whether a reason is one that phases report. -/
def isReported : WorkflowError → Bool
  | .usage _ | .artifact _ _ | .violation _ | .backend _ _ => true
  | _ => false

/-- Whether a reason is a fault of the request. -/
def isUsage : WorkflowError → Bool
  | .usage _ => true
  | _ => false

end WorkflowError

end MerkleSnark
