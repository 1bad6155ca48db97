import MerkleSnark.Disk.Replacement
import MerkleSnark.Workflow.Error

/-!
# Artifacts on disk

Reading and writing in the monad of the workflow.  A refusal of the disk becomes a failure that
names the path.

## Main definitions

* `WorkflowM` — computations with a disk and the state of a backend.
* `WorkflowM.located` — the place of an artifact.
* `WorkflowM.readBytes`, `WorkflowM.readArtifact`, `WorkflowM.writeFiles` — files.
* `asciiText?` — bytes as ASCII text.
-/

namespace MerkleSnark

/-- Computations with a disk and a state of type `σ` that fail for the reasons of the workflow. -/
abbrev WorkflowM (σ : Type) (m : Type → Type) := ExceptT WorkflowError (StateT σ m)

/-- The characters of ASCII bytes, or the first byte that is none with its position, counted from
`i`. -/
def asciiText? (i : Nat) : Bytes → Except ArtifactError (List Char)
  | [] => .ok []
  | b :: rest =>
    if b < 128 then (asciiText? (i + 1) rest).map (Char.ofNat b.toNat :: ·)
    else .error (.notAscii b i)

namespace WorkflowM

variable {σ : Type} {m : Type → Type} [Monad m]

/-- A result with its failure put in the terms of the workflow. -/
def ofExcept {ε α : Type} (f : ε → WorkflowError) (result : Except ε α) : WorkflowM σ m α :=
  ExceptT.mk (pure (result.mapError f))

/-- A computation with the state alone. -/
def onState {ε α : Type} (f : ε → WorkflowError) (x : StateM σ (Except ε α)) : WorkflowM σ m α :=
  ExceptT.mk fun s =>
    let (result, s) := x.run s
    pure (result.mapError f, s)

/-- A computation with the disk alone. -/
def onDisk {ε α : Type} (f : ε → WorkflowError) (x : ExceptT ε m α) : WorkflowM σ m α :=
  ExceptT.mk fun s => do return ((← x.run).mapError f, s)

/-- What a refused read says about an artifact. -/
def readFailure (path : Path) : OsError → WorkflowError
  | .noEntry => .artifact path .absent
  | e => .artifact path (.refused e)

/-- What a failed replacement says about artifacts. -/
def writeFailure : ReplacementError → WorkflowError
  | .refused path cause => .artifact path (.refused cause)
  | .nameless path => .nameless path
  | .stuck cause => .disk cause
  | .badPath cause => .badPath cause

/-- The place of an artifact, which has to have a name. -/
def located (path : Option Path) : WorkflowM σ m Path :=
  path.elim (throw .unnamedArtifact) pure

variable [Disk m]

/-- The bytes of a file. -/
def readBytes (path : Path) : WorkflowM σ m Bytes := do
  onDisk (readFailure path) (Disk.read (← ofExcept .badPath path.checked?))

/-- The value that a file encodes. -/
def readArtifact {α : Type} (path : Path) (decode : Bytes → Except DecodeError α) :
    WorkflowM σ m α := do
  ofExcept (fun e => .artifact path (.malformed e)) (decode (← readBytes path))

/-- Replaces files, all or none. -/
def writeFiles (files : List (Path × Bytes)) : WorkflowM σ m Unit :=
  onDisk writeFailure (replaceFiles files)

end WorkflowM

end MerkleSnark
