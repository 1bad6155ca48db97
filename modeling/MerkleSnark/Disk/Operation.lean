import MerkleSnark.Codec.Bytes
import MerkleSnark.Disk.Path

/-!
# Operations on a disk

What a program asks of a file system, as a class: the same program runs on a real disk and on a
volume in memory.

## Main definitions

* `OsError` — why the system refuses an operation.
* `Disk` — the operations.
* `Disk.exists?`, `Disk.isDirectory`, `Disk.removeIfPresent`, `Disk.ensureDirectory` — derived ones.
-/

namespace MerkleSnark

/-- Why an operation is refused. -/
inductive OsError
  /-- There is nothing at a path. -/
  | noEntry
  /-- A path leads through a file. -/
  | notDirectory
  /-- A file is asked for and there is a directory. -/
  | isDirectory
  /-- There is something at a path already. -/
  | entryExists
  /-- A name or a path is too long. -/
  | nameTooLong
  /-- A directory in the way is not empty. -/
  | notEmpty
  /-- The last name of a path names no entry of its own. -/
  | busy
  /-- A directory would be moved into itself. -/
  | invalid
  /-- Anything else. -/
  | other (reason : String)
  deriving DecidableEq, Repr

/-- The wording of a refusal. -/
def OsError.message : OsError → String
  | .noEntry => "No such file or directory"
  | .notDirectory => "Not a directory"
  | .isDirectory => "Is a directory"
  | .entryExists => "File exists"
  | .nameTooLong => "File name too long"
  | .notEmpty => "Directory not empty"
  | .busy => "Device or resource busy"
  | .invalid => "Invalid argument"
  | .other reason => reason

/-- What there can be at a path. -/
inductive EntryKind
  /-- Bytes. -/
  | file
  /-- Further entries. -/
  | directory
  deriving DecidableEq, Repr

/-- A monad with a disk. -/
class Disk (m : Type → Type) where
  /-- What there is at a path. -/
  kind : Path → ExceptT OsError m EntryKind
  /-- The bytes of a file. -/
  read : Path → ExceptT OsError m Bytes
  /-- Makes a file hold bytes; the file need not exist before. -/
  write : Path → Bytes → ExceptT OsError m Unit
  /-- Makes one directory. -/
  makeDirectory : Path → ExceptT OsError m Unit
  /-- Makes an empty file in a directory.  Its name is new there, and has the given beginning and
  end. -/
  makeTemporary : Path → String → String → ExceptT OsError m Path
  /-- Moves an entry to another path; a file that is there is replaced. -/
  rename : Path → Path → ExceptT OsError m Unit
  /-- Removes a file. -/
  unlink : Path → ExceptT OsError m Unit

namespace Disk

variable {m : Type → Type} [Monad m] [Disk m]

/-- What there is at a path, if anything. -/
def kind? (p : Path) : ExceptT OsError m (Option EntryKind) :=
  tryCatch (some <$> kind p) fun
    | .noEntry | .notDirectory => pure none
    | e => throw e

/-- Whether there is something at a path. -/
def exists? (p : Path) : ExceptT OsError m Bool := return (← kind? p).isSome

/-- Whether there is a directory at a path. -/
def isDirectory (p : Path) : ExceptT OsError m Bool := return (← kind? p) = some .directory

/-- Removes a file unless there is none. -/
def removeIfPresent (p : Path) : ExceptT OsError m Unit :=
  tryCatch (unlink p) fun
    | .noEntry => pure ()
    | e => throw e

/-- A refusal to make a directory does not matter when there is one. -/
def unlessDirectory (p : Path) (e : OsError) : ExceptT OsError m Unit := do
  unless ← isDirectory p do throw e

/-- Makes the directory at the end of a list of names, the last name first, and the directories on
the way to it. -/
def ensureNames (start : PathStart) : List String → ExceptT OsError m Unit
  | [] =>
    let p : Path := ⟨start, []⟩
    tryCatch (makeDirectory p) fun
      | .noEntry => throw .noEntry
      | e => unlessDirectory p e
  | last :: outer =>
    let p : Path := ⟨start, (last :: outer).reverse⟩
    tryCatch (makeDirectory p) fun
      | .noEntry => do
        ensureNames start outer
        tryCatch (makeDirectory p) fun
          | .noEntry => throw .noEntry
          | e => unlessDirectory p e
      | e => unlessDirectory p e

/-- Makes a directory and those on the way to it, where there is none. -/
def ensureDirectory (p : Path) : ExceptT OsError m Unit := ensureNames p.start p.names.reverse

/-- Makes a directory, which must be new, and those on the way to it. -/
def newDirectory (p : Path) : ExceptT OsError m Unit :=
  tryCatch (makeDirectory p) fun
    | .noEntry => do
      ensureDirectory p.parent
      makeDirectory p
    | e => throw e

/-- Writes a file and makes the directories on the way to it. -/
def newFile (p : Path) (data : Bytes) : ExceptT OsError m Unit := do
  ensureDirectory p.parent
  write p data

end Disk

end MerkleSnark
