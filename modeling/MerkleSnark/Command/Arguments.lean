import MerkleSnark.Config

/-!
# Command-line arguments

Options that hold for every command stand before the command, the arguments of the command after it.
A long option takes its value after an equals sign or as the next argument; short options can be
joined, and one that takes a value takes what is left of its argument, or else the next one.  Two
dashes end the options.

## Main definitions

* `GroupOption` — the options.
* `Arguments`, `Arguments.read` — the options in front and what follows them.
* `GivenOption.settings` — the settings that options make.
* `positionals` — the arguments of a command.
-/

namespace MerkleSnark

/-- Why arguments are refused. -/
inductive ArgumentError
  /-- There is no such option. -/
  | unknownOption (text : String)
  /-- An option stands without its value. -/
  | missingValue (text : String)
  /-- An option that takes no value has one. -/
  | unexpectedValue (text : String)
  /-- The value of an option is no integer. -/
  | notInteger (text : String)
  /-- The value of an option is no path that a system takes. -/
  | badPath (cause : PathError)
  /-- There is no such command. -/
  | unknownCommand (text : String)
  /-- An argument of the command is missing. -/
  | missingArgument (name : String)
  /-- The command has more arguments than it takes. -/
  | extraArguments (arguments : List String)
  deriving DecidableEq, Repr

/-- The wording of a refusal. -/
def ArgumentError.message : ArgumentError → String
  | .unknownOption text => s!"No such option: {text}"
  | .missingValue text => s!"Option {Text.quote text} requires an argument."
  | .unexpectedValue text => s!"Option {Text.quote text} does not take a value."
  | .notInteger text => s!"{Text.quote text} is not a valid integer."
  | .badPath cause => cause.message
  | .unknownCommand text => s!"No such command {Text.quote text}."
  | .missingArgument name => s!"Missing argument {Text.quote name}."
  | .extraArguments arguments =>
    let texts := " ".intercalate arguments
    s!"Got unexpected extra arguments ({texts})"

/-- The options in front of a command. -/
inductive GroupOption
  /-- The directory of the artifacts. -/
  | workDir
  /-- The number of levels of the tree. -/
  | depth
  /-- The name of the hash gadget. -/
  | hashGadget
  /-- The seed of the random source. -/
  | seed
  /-- Reports more. -/
  | verbose
  /-- Reports less. -/
  | quiet
  /-- Asks for the help text. -/
  | help
  deriving DecidableEq, Repr

namespace GroupOption

/-- Whether an option has a value. -/
def takesValue : GroupOption → Bool
  | .workDir | .depth | .hashGadget | .seed => true
  | .verbose | .quiet | .help => false

/-- The long names. -/
def longNames : List (String × GroupOption) :=
  [("--workdir", .workDir), ("--depth", .depth), ("--hash-gadget", .hashGadget),
    ("--seed", .seed), ("--verbose", .verbose), ("--quiet", .quiet), ("--help", .help)]

/-- The short names. -/
def shortNames : List (Char × GroupOption) :=
  [('w', .workDir), ('d', .depth), ('v', .verbose), ('q', .quiet)]

end GroupOption

/-- An option as it was given, with an empty value when it takes none. -/
structure GivenOption where
  /-- The option. -/
  option : GroupOption
  /-- Its value. -/
  value : String := ""
  deriving DecidableEq, Repr

/-- The options at the front of the arguments, and the rest. -/
structure Arguments where
  /-- The options in their order. -/
  options : List GivenOption := []
  /-- The command and its arguments. -/
  rest : List String := []
  deriving DecidableEq, Repr

namespace Arguments

/-- The same arguments with more options in front. -/
def after (given : List GivenOption) (a : Arguments) : Arguments :=
  { a with options := given ++ a.options }

/-- What one argument gives: options, and perhaps one that still waits for its value. -/
abbrev Piece := List GivenOption × Option GroupOption

/-- Short options joined in one argument. -/
def readShort : List Char → Except ArgumentError Piece
  | [] => .ok ([], none)
  | c :: rest =>
    match GroupOption.shortNames.lookup c with
    | none => .error (.unknownOption (String.ofList ['-', c]))
    | some option =>
      if !option.takesValue then
        (readShort rest).map fun piece => (⟨option, ""⟩ :: piece.1, piece.2)
      else if rest.isEmpty then .ok ([], some option)
      else .ok ([⟨option, String.ofList rest⟩], none)

/-- A long option by its name, with the value after the equals sign if there is one. -/
def readLong (option : GroupOption) (name : String) : Option String →
    Except ArgumentError Piece
  | none => .ok (if option.takesValue then ([], some option) else ([⟨option, ""⟩], none))
  | some value =>
    if option.takesValue then .ok ([⟨option, value⟩], none) else .error (.unexpectedValue name)

/-- The parts of an argument before and after its first equals sign. -/
def splitEquals (text : String) : String × Option String :=
  let chars := text.toList
  match chars.dropWhile (· ≠ '=') with
  | [] => (text, none)
  | _ :: value => (String.ofList (chars.takeWhile (· ≠ '=')), some (String.ofList value))

/-- One argument that begins with a dash. -/
def readOption (text : String) : Except ArgumentError Piece :=
  let (name, value) := splitEquals text
  match GroupOption.longNames.lookup name with
  | some option => readLong option name value
  | none =>
    match text.toList with
    | '-' :: '-' :: _ => .error (.unknownOption name)
    | chars => readShort (chars.drop 1)

/-- Whether an argument is an option rather than a word. -/
def isOption (text : String) : Bool :=
  match text.toList with
  | '-' :: _ :: _ => true
  | _ => false

/-- The options at the front, where an option may wait for its value. -/
def readFrom : Option GroupOption → List String → Except ArgumentError Arguments
  | some option, [] =>
    let name := ((GroupOption.longNames.find? fun e => e.2 = option).map Prod.fst).getD ""
    .error (.missingValue name)
  | none, [] => .ok {}
  | some option, value :: rest => do return (← readFrom none rest).after [⟨option, value⟩]
  | none, text :: rest =>
    if text = "--" then .ok { rest }
    else if isOption text then do
      let (given, waiting) ← readOption text
      return (← readFrom waiting rest).after given
    else .ok { rest := text :: rest }

/-- The options at the front of the arguments, and the rest. -/
def read (args : List String) : Except ArgumentError Arguments := readFrom none args

end Arguments

namespace GivenOption

/-- The value that an option was given last. -/
def last? (option : GroupOption) (given : List GivenOption) : Option String :=
  (given.reverse.find? fun g => g.option = option).map GivenOption.value

/-- Every option once, at its first place and with its last value. -/
def effective (given : List GivenOption) : List GivenOption :=
  (given.map GivenOption.option).eraseDups.filterMap fun option =>
    (last? option given).map (⟨option, ·⟩)

/-- The integer in the value of an option. -/
def integer? (text : String) : Except ArgumentError Int :=
  match Text.integer? text with
  | some n => .ok n
  | none => .error (.notInteger text)

/-- Settings with that of one more option. -/
def apply (s : Settings) (g : GivenOption) : Except ArgumentError Settings := do
  match g.option with
  | .workDir => return { s with workDir := ← (Path.parse g.value).checked?.mapError .badPath }
  | .depth => return { s with treeDepth := ← integer? g.value }
  | .hashGadget => return { s with hashGadget := some g.value }
  | .seed => return { s with seed := ← integer? g.value }
  | .verbose | .quiet | .help => return s

/-- The settings that options make.  Of an option that is repeated only the last value counts, and
the place of the first one decides which of two bad values is reported. -/
def settings (given : List GivenOption) : Except ArgumentError Settings :=
  (effective given).foldlM apply {}

end GivenOption

/-- The arguments of a command, or nothing when the help text is asked for. -/
def positionals : List String → Except ArgumentError (Option (List String))
  | [] => .ok (some [])
  | text :: rest =>
    if text = "--" then .ok (some rest)
    else if text = "--help" then (positionals rest).map fun _ => none
    else if Arguments.isOption text then .error (.unknownOption text)
    else (positionals rest).map fun words => words.map (text :: ·)

end MerkleSnark
