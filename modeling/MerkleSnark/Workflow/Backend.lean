import MerkleSnark.Groth16.Prove
import MerkleSnark.Groth16.Setup

/-!
# Backends

The phases reach the proof system through a record of three operations on a state that lives as long
as the backend.  A failure is a text, because a phase only passes it on.

## Main definitions

* `Backend` — the operations.
* `Backend.groth16` — the proof system of this library.
* `Backend.failing` — a backend some of whose operations fail.
-/

namespace MerkleSnark

open Groth16

/-- A proof system with a state. -/
structure Backend (σ P Q : Type) where
  /-- Makes the keys of a system. -/
  generate : ConstraintSystem → StateM σ (Except String (ProvingKey P Q × VerificationKey P Q))
  /-- Makes a proof from primary and auxiliary inputs. -/
  prove : ProvingKey P Q → List Fr → List Fr → StateM σ (Except String (Proof P Q))
  /-- Judges a proof for public inputs. -/
  verify : VerificationKey P Q → List Fr → Proof P Q → StateM σ (Except String Bool)

/-- The state of the proof system: where its scalars come from, and the tables it keeps. -/
structure Session (σ P Q : Type) where
  /-- The source of scalars. -/
  source : σ
  /-- The tables made so far. -/
  tables : TableCache P Q := []

namespace Backend

variable {σ P Q T : Type}

/-- The backend whose operations fail where there is a reason to, before they do anything. -/
def failing (b : Backend σ P Q) (generating proving verifying : Option String) :
    Backend σ P Q where
  generate cs := generating.elim (b.generate cs) fun reason => pure (.error reason)
  prove pk primary auxiliary :=
    proving.elim (b.prove pk primary auxiliary) fun reason => pure (.error reason)
  verify vk inputs proof :=
    verifying.elim (b.verify vk inputs proof) fun reason => pure (.error reason)

variable [ScalarSource σ] [PointGroup P] [PointGroup Q] [Pairing P Q T]

/-- Key generation, proving and verifying with one source and one set of tables. -/
def groth16 : Backend (Session σ P Q) P Q where
  generate cs := fun session =>
    let (result, source, tables) := (Groth16.generate cs).run (session.source, session.tables)
    (result.mapError ProgramError.message, { source, tables })
  prove pk primary auxiliary := fun session =>
    let (result, source) := (Groth16.prove pk primary auxiliary).run.run session.source
    (result.mapError ProveError.message, { session with source })
  verify vk inputs proof := fun session =>
    ((Groth16.verify vk inputs proof).mapError VerifyError.message, session)

end Backend

end MerkleSnark
