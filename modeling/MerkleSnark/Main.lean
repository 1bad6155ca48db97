import MerkleSnark.Circuit.Registry
import MerkleSnark.Command.Run
import MerkleSnark.Text.Terminal

/-!
# The program

Gives the library the arguments, the environment, the disk and the randomness of the system.

## Main definitions

* `instance : Disk IO` — the operations of a disk on the real one.
* `main` — one call of the program.
-/

namespace MerkleSnark.Host

/-- The refusal behind an error of the system. -/
def refusalOf : IO.Error → OsError
  | .noFileOrDirectory .. => .noEntry
  | .alreadyExists .. => .entryExists
  | .unsatisfiedConstraints .. => .notEmpty
  | .resourceBusy .. => .busy
  | .inappropriateType _ code details =>
    if code = 20 then .notDirectory else if code = 21 then .isDirectory else .other details
  | .invalidArgument _ code details =>
    if code = 36 then .nameTooLong else if code = 22 then .invalid else .other details
  | .permissionDenied _ _ details => .other details
  | .resourceExhausted _ _ details => .other details
  | .hardwareFault _ details => .other details
  | e => .other e.toString

/-- An action whose errors are refusals. -/
def attempt {α : Type} (x : IO α) : ExceptT OsError IO α :=
  ExceptT.mk do
    match ← x.toBaseIO with
    | .ok a => return .ok a
    | .error e => return .error (refusalOf e)

/-- The characters of temporary names. -/
def nameCharacters : List Char := "abcdefghijklmnopqrstuvwxyz0123456789_".toList

/-- Eight random characters. -/
def randomMark : IO String := do
  let chars ← (List.replicate 8 ()).mapM fun _ => do
    return nameCharacters.getD (← IO.rand 0 (nameCharacters.length - 1)) '_'
  return String.ofList chars

/-- Makes an empty file under a random name that only its owner can open, and tries again as long as
the name is taken. -/
def makeTemporary (directory : Path) (beginning ending : String) :
    Nat → ExceptT OsError IO Path
  | 0 => throw .entryExists
  | tries + 1 => do
    let p := directory.child (beginning ++ (← attempt randomMark) ++ ending)
    let created : ExceptT OsError IO Unit := attempt do
      discard (IO.FS.Handle.mk p.text .writeNew)
      IO.setAccessRights p.text { user := { read := true, write := true } }
    tryCatch (do created; return p) fun
      | .entryExists => makeTemporary directory beginning ending tries
      | e => throw e

/-- What there is at a path: a directory can be opened, but not read. -/
def kindAt (p : Path) : ExceptT OsError IO EntryKind := do
  let handle ← attempt (IO.FS.Handle.mk p.text .read)
  tryCatch (do discard (attempt (handle.read 1)); return .file) fun
    | .isDirectory => return .directory
    | e => throw e

instance : Disk IO where
  kind := kindAt
  read p := attempt do return (← IO.FS.readBinFile p.text).toList
  write p data := attempt (IO.FS.writeBinFile p.text ⟨data.toArray⟩)
  makeDirectory p := attempt (IO.FS.createDir p.text)
  makeTemporary p beginning ending := makeTemporary p beginning ending 10000
  rename p q := attempt (IO.FS.rename p.text q.text)
  unlink p := attempt (IO.FS.removeFile p.text)

/-- The help text. -/
def helpLines : List String :=
  [Outcome.usageLine, "",
    "Zero-knowledge Merkle tree membership proofs (Groth16 over bn128).", "",
    "Options:",
    "  -w, --workdir PATH   Directory of the artifacts.",
    "  -d, --depth INTEGER  Merkle tree depth; prove takes 2^depth leaves.",
    "  --hash-gadget TEXT   Two-to-one hash gadget of the circuit.",
    "  --seed INTEGER       Seed of the random source (reproducible, insecure keys).",
    "  -v, --verbose        Report more.",
    "  -q, --quiet          Report less.",
    "  --help               Show this text.", "",
    "Commands:",
    "  setup                Make the keys of the circuit.",
    "  prove [LEAVES]...    Prove the root of 2^depth leaves.",
    "  verify LEAF          Judge the proof for the root."]

/-- Prints lines.  Only a terminal gets control sequences. -/
def printLines (stream : IO.FS.Stream) (lines : List String) : IO Unit := do
  let terminal ← stream.isTty
  lines.forM fun line => stream.putStrLn (if terminal then line else Text.withoutControls line)

/-- Prints an outcome and gives the exit status. -/
def report : Outcome → IO UInt32
  | .done status output errors => do
    printLines (← IO.getStdout) output
    printLines (← IO.getStderr) errors
    return status.toUInt32
  | .help => do
    helpLines.forM IO.println
    return 0
  | .misused cause => do
    IO.eprintln Outcome.usageLine
    IO.eprintln s!"Error: {cause.message}"
    return 1
  | .crashed cause => do
    IO.eprintln s!"Error: {cause.message}"
    return 1

/-- The variables that the program reads. -/
def variableNames : List String :=
  ["ZKMERKLE_TREE_DEPTH", "ZKMERKLE_HASH_GADGET", "ZKMERKLE_WORKDIR", "ZKMERKLE_SEED"]

/-- The variables that are set. -/
def readEnvironment : IO (List (String × String)) :=
  variableNames.filterMapM fun name => do return (← IO.getEnv name).map fun value => (name, value)

/-- The program with the standard gadgets and the proof system of this library. -/
def program (key : Bytes) (values : List (String × String)) :
    Program (Session Randomness G1 G2) G1 G2 where
  gadgets := .standard
  backend := .groth16
  start seed := { source := .ofSeed key seed }
  environment name := values.lookup name

end MerkleSnark.Host

/-- One call of the program. -/
def main (args : List String) : IO UInt32 := do
  let key := (← IO.getRandomBytes 32).toList
  let values ← MerkleSnark.Host.readEnvironment
  MerkleSnark.Host.report (← (MerkleSnark.Host.program key values).run args)
