import MerkleSnark.Disk.Operation

/-!
# Disks that fail

A disk on which one operation, counted from now on, is refused although it could be done.  Only
operations that need room or touch a directory fail: making a directory or a temporary file,
writing, and renaming.  A program that keeps its promises on every such disk keeps them through a
fault.

## Main definitions

* `Fault` — when and why an operation fails.
* `Faulty` — a monad with a disk and a fault to come.
-/

namespace MerkleSnark

/-- A fault to come. -/
structure Fault where
  /-- The number of operations that still succeed. -/
  delay : Nat
  /-- The refusal after them. -/
  cause : OsError
  deriving DecidableEq, Repr

/-- Computations with a disk and at most one fault to come. -/
def Faulty (m : Type → Type) : Type → Type := StateT (Option Fault) m

namespace Faulty

variable {m : Type → Type} [Monad m]

instance : Monad (Faulty m) := inferInstanceAs (Monad (StateT (Option Fault) m))

/-- Runs a computation. -/
def run {α : Type} (x : Faulty m α) (fault : Option Fault) : m (α × Option Fault) :=
  StateT.run x fault

/-- An operation that does not fail on its own. -/
def steady {α : Type} (x : ExceptT OsError m α) : ExceptT OsError (Faulty m) α :=
  ExceptT.mk (StateT.lift x.run : StateT (Option Fault) m (Except OsError α))

/-- An operation that fails when its turn has come. -/
def fragile {α : Type} (x : ExceptT OsError m α) : ExceptT OsError (Faulty m) α :=
  ExceptT.mk fun
    | none => return (← x.run, none)
    | some ⟨0, cause⟩ => return (.error cause, none)
    | some ⟨delay + 1, cause⟩ => return (← x.run, some ⟨delay, cause⟩)

instance [Disk m] : Disk (Faulty m) where
  kind p := steady (Disk.kind p)
  read p := steady (Disk.read p)
  write p data := fragile (Disk.write p data)
  makeDirectory p := fragile (Disk.makeDirectory p)
  makeTemporary p beginning ending := fragile (Disk.makeTemporary p beginning ending)
  rename p q := fragile (Disk.rename p q)
  unlink p := steady (Disk.unlink p)

end Faulty

end MerkleSnark
