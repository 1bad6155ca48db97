import MerkleSnark.Command.Arguments
import MerkleSnark.Random.HashStream
import MerkleSnark.Workflow.Phase

/-!
# Running a command

One call of the program: the arguments are read, the configuration is built from them and from the
environment, and one phase runs with a backend of its own.

## Main definitions

* `Request`, `Request.read` — what a command asks for.
* `Outcome`, `Outcome.readOptions` — how a call ends, and whether it ends before its command.
* `Program`, `Program.run` — a call of the program.
-/

namespace MerkleSnark

/-- What a command asks for. -/
inductive Request
  /-- New keys. -/
  | setup
  /-- A proof of the root of leaves. -/
  | prove (leaves : List String)
  /-- A verdict on the proof in the work directory. -/
  | verify (leaf : String)
  deriving DecidableEq, Repr

namespace Request

/-- The names of the commands. -/
def names : List String := ["setup", "prove", "verify"]

/-- The request of a command with its arguments. -/
def read (command : String) (words : List String) : Except ArgumentError Request :=
  match command, words with
  | "setup", [] => .ok .setup
  | "prove", leaves => .ok (.prove leaves)
  | "verify", [leaf] => .ok (.verify leaf)
  | "verify", [] => .error (.missingArgument "LEAF")
  | "verify", _ :: extra => .error (.extraArguments extra)
  | "setup", extra => .error (.extraArguments extra)
  | _, _ => .error (.unknownCommand command)

end Request

/-- How a call of the program ends. -/
inductive Outcome
  /-- With an exit status and lines for the standard output and the error output. -/
  | done (status : Nat) (output errors : List String)
  /-- The arguments are refused. -/
  | misused (cause : ArgumentError)
  /-- The help text is asked for. -/
  | help
  /-- A phase fails for a reason that it does not report. -/
  | crashed (cause : WorkflowError)
  deriving DecidableEq, Repr

namespace Outcome

/-- The line that shows how the program is called. -/
def usageLine : String := "Usage: zkmerkle [OPTIONS] [COMMAND] [ARGS]..."

/-- The line that shows the commands. -/
def commandsLine : String := "Usage: zkmerkle prove [leaf1] [leaf2] ... | setup | verify [leaf]"

/-- The line that says what an accepted proof does not show. -/
def caveatLine : String :=
  "Note: the leaf argument is not checked against the proof. Leaves are private " ++
    "inputs, so a passing result only shows the proof is valid for the committed root."

/-- The call names no command. -/
def noCommand : Outcome :=
  .done 1 [] ["Invalid command. Use setup, prove, or verify.", usageLine]

/-- A phase fails. -/
def ofError (e : WorkflowError) : Outcome :=
  if e.isReported then
    .done 1 [] (s!"Error: {e.message}" :: if e.isUsage then [commandsLine] else [])
  else .crashed e

/-- A phase succeeds. -/
def success (output : List String) : Outcome := .done 0 output []

/-- Arguments are refused, or make a path with which nothing can be done. -/
def ofArgumentError : ArgumentError → Outcome
  | .badPath cause => .crashed (.badPath cause)
  | e => .misused e

/-- What setup says. -/
def ofSetup (r : SetupReport) : Outcome :=
  success [s!"Number of R1CS constraints: {r.numConstraints}",
    s!"Wrote {r.provingKeyPath.text} and {r.verificationKeyPath.text}"]

/-- What proving says. -/
def ofProof (r : ProofReport) : Outcome :=
  success ["Proof and root generated.", s!"Root: {r.rootHex}"]

/-- What verifying says. -/
def ofVerdict (r : Verdict) : Outcome :=
  if r.verified then
    success ["Verification passed. The leaf may be part of the Merkle tree.", caveatLine]
  else success ["Verification failed!"]

/-- The settings of the options in front and what follows them, or how the call ends at once. -/
def readOptions (args : List String) : Except Outcome (Settings × List String) := do
  let given ← (Arguments.read args).mapError .misused
  if given.options.any fun o => o.option = .help then throw .help
  let settings ← (GivenOption.settings given.options).mapError ofArgumentError
  return (settings, given.rest)

/-- An unknown command is refused.  Two dashes let an option pass as a command; it is read as an
option before it is refused, and the call may end there. -/
def ofUnknownCommand (command : String) (args : List String) : Outcome :=
  match readOptions (command :: args) with
  | .error outcome => outcome
  | .ok _ => .misused (.unknownCommand command)

end Outcome

/-- What a call of the program depends on besides its arguments. -/
structure Program (σ P Q : Type) where
  /-- The known hash gadgets. -/
  gadgets : GadgetRegistry
  /-- The proof system. -/
  backend : Backend σ P Q
  /-- The state of a new backend, for a seed or without one. -/
  start : Option Int → σ
  /-- The values of the environment variables. -/
  environment : String → Option String

namespace Program

variable {σ P Q : Type} {m : Type → Type} [Monad m] [Disk m] [PointCodec P] [PointCodec Q]
variable [PointGroup Q]

/-- The configuration from the options and the environment. -/
def config? (program : Program σ P Q) (options : Settings) : Except WorkflowError Config := do
  let settings ← (Settings.ofEnvironment? program.environment).mapError fun e => .usage (.config e)
  (options.orElse settings).config?.mapError fun e => .usage (.config e)

/-- Runs the phase of a request with a new backend. -/
def perform (program : Program σ P Q) (config : Config) (request : Request) : m Outcome := do
  let w : Workflow σ P Q := ⟨program.gadgets, program.backend, config⟩
  let phase : WorkflowM σ m Outcome :=
    match request with
    | .setup => Outcome.ofSetup <$> w.setup
    | .prove leaves => Outcome.ofProof <$> w.prove (leaves.map Leaf.ofString)
    | .verify leaf => Outcome.ofVerdict <$> w.verify (some leaf)
  match (← phase.run.run (program.start config.seed)).1 with
  | .ok outcome => return outcome
  | .error e => return .ofError e

/-- Runs a command after the options in front of it. -/
def runCommand (program : Program σ P Q) (options : Settings) (command : String)
    (args : List String) : m Outcome := do
  unless Request.names.contains command do return .ofUnknownCommand command args
  match program.config? options with
  | .error e => return .ofError e
  | .ok config =>
    match positionals args with
    | .error e => return .misused e
    | .ok none => return .help
    | .ok (some words) =>
      match Request.read command words with
      | .error e => return .misused e
      | .ok request => program.perform config request

/-- Runs the program. -/
def run (program : Program σ P Q) (args : List String) : m Outcome := do
  match Outcome.readOptions args with
  | .error outcome => return outcome
  | .ok (_, []) => return .noCommand
  | .ok (options, command :: args) => program.runCommand options command args

end Program

end MerkleSnark
