import MerkleSnark.Disk.Operation

/-!
# Replacing several files at once

All files are first written under temporary names beside their targets.  Then one target after
another is set aside under a backup name and the temporary file takes its place.  When an operation
is refused before the end, the temporary files are removed and the backups put back, so that no
target has changed; the backups are removed only after the last target is in place.

## Main definitions

* `Replacement` — how far a run has come.
* `Replacement.stage`, `Replacement.install` — the two passes.
* `Replacement.undo`, `Replacement.finish` — what ends a run.
* `replaceFiles` — the whole.
-/

namespace MerkleSnark

/-- How far the replacement of files has come. -/
structure Replacement where
  /-- The temporary files, each with the target it is for. -/
  pending : List (Path × Path) := []
  /-- The targets that were set aside, each with its backup; a target that did not exist has
  none. -/
  replaced : List (Path × Option Path) := []
  deriving DecidableEq, Repr

/-- Why files are not replaced. -/
inductive ReplacementError
  /-- An operation for a target was refused, and everything is as before. -/
  | refused (target : Path) (cause : OsError)
  /-- A target that exists has no name to derive that of a backup from. -/
  | nameless (target : Path)
  /-- An operation was refused while the traces of the run were being removed. -/
  | stuck (cause : OsError)
  /-- A target has a path that no system takes, and the run ends where it is. -/
  | badPath (cause : PathError)
  deriving DecidableEq, Repr

namespace Replacement

/-- Computations in the course of a replacement. -/
abbrev M (m : Type → Type) := ExceptT ReplacementError (StateT Replacement m)

variable {m : Type → Type} [Monad m] [Disk m]

/-- An operation for a target. -/
def attempt {α : Type} (target : Path) (x : ExceptT OsError m α) : M m α :=
  ExceptT.mk do
    match ← (x.run : m _) with
    | .ok a => return .ok a
    | .error e => return .error (.refused target e)

/-- A path that a system takes. -/
def usable (p : Path) : M m Path := ExceptT.mk (pure (p.checked?.mapError .badPath))

/-- The beginning of the name of a temporary file. -/
def temporaryBeginning (target : Path) : String := "." ++ target.name ++ "."

/-- The backup of a target. -/
def backupOf (target : Path) : Path := target.withName ("." ++ target.name ++ ".bak")

/-- Writes the bytes for a target to a temporary file beside it. -/
def stage (target : Path) (data : Bytes) : M m Unit := do
  let directory ← usable target.parent
  attempt target (Disk.ensureDirectory directory)
  let target ← usable target
  let temporary ←
    attempt target (Disk.makeTemporary directory (temporaryBeginning target) ".tmp")
  modify fun r => { r with pending := r.pending ++ [(temporary, target)] }
  attempt target (Disk.write temporary data)

/-- Sets a target aside, if there is one. -/
def setAside (target : Path) : M m (Option Path) := do
  if ← attempt target (Disk.exists? target) then
    if target.name.isEmpty then throw (.nameless target)
    attempt target (Disk.rename target (backupOf target))
    return some (backupOf target)
  else return none

/-- Puts a temporary file in the place of its target. -/
def install (temporary target : Path) : M m Unit := do
  let backup ← setAside target
  modify fun r => { r with replaced := r.replaced ++ [(target, backup)] }
  attempt target (Disk.rename temporary target)

/-- Both passes over the files. -/
def passes (files : List (Path × Bytes)) : M m Unit := do
  files.forM fun f => stage f.1 f.2
  (← get).pending.forM fun p => install p.1 p.2

/-- Puts a target back as it was. -/
def restore (entry : Path × Option Path) : ExceptT OsError m Unit :=
  match entry.2 with
  | some backup => Disk.rename backup entry.1
  | none => Disk.removeIfPresent entry.1

/-- Removes the temporary files and puts the targets back, the last one first. -/
def undo (r : Replacement) : ExceptT OsError m Unit := do
  r.pending.forM fun p => Disk.removeIfPresent p.1
  r.replaced.reverse.forM restore

/-- Removes the backups.  Every target is there in the end. -/
def finish (r : Replacement) : ExceptT OsError m Unit :=
  r.replaced.forM fun entry => do
    if let some backup := entry.2 then Disk.unlink backup
    discard (Disk.kind entry.1)

end Replacement

/-- Makes every target hold its bytes, or leaves all of them as they are. -/
def replaceFiles {m : Type → Type} [Monad m] [Disk m] (files : List (Path × Bytes)) :
    ExceptT ReplacementError m Unit := do
  let (result, progress) ← ((Replacement.passes files).run.run {} : m _)
  match result with
  | .ok () => progress.finish.adapt .stuck
  | .error (.refused target cause) => do
    progress.undo.adapt .stuck
    throw (.refused target cause)
  | .error e => throw e

end MerkleSnark
