import MerkleSnark.Disk.Path
import MerkleSnark.Text.Terminal

/-!
# Configuration

What a run needs to know: the shape of the tree, the hash gadget, where the artifacts are, and the
seed of the random source.  Every setting can be left out and has a default then; settings from the
command line win over those from the environment.

## Main definitions

* `Settings` — settings that may be missing.
* `Settings.set?` — sets one by its name.
* `Settings.ofEnvironment?` — the settings that environment variables make.
* `Config`, `Settings.config?` — the complete configuration.
-/

namespace MerkleSnark

/-- Why settings are refused. -/
inductive ConfigError
  /-- A tree has no level below its root. -/
  | treeDepth (found : Int)
  /-- A variable does not hold an integer. -/
  | notInteger (name text : String)
  /-- There is no such setting, or it cannot have the value. -/
  | unusable (name : String)
  deriving DecidableEq, Repr

/-- The wording of a refusal. -/
def ConfigError.message : ConfigError → String
  | .treeDepth found => s!"tree depth must be at least 1, got {found}"
  | .notInteger name text => s!"{name} must be an integer, got {Text.quote text}"
  | .unusable name => s!"{name} cannot be set like this"

/-- A complete configuration. -/
structure Config where
  /-- The number of levels below the root. -/
  treeDepth : Nat := 3
  /-- The name of the hash gadget; without one there is no circuit. -/
  hashGadget : Option String := some "sha256"
  /-- The directory of the artifacts. -/
  workDir : Path := {}
  /-- The name of the proving key; without one it cannot be read or written. -/
  provingKeyFile : Option Path := some (.parse "proving_key.raw")
  /-- The name of the verification key. -/
  verificationKeyFile : Option Path := some (.parse "verification_key.raw")
  /-- The name of the proof. -/
  proofFile : Option Path := some (.parse "proof.raw")
  /-- The name of the public root. -/
  rootFile : Option Path := some (.parse "root.txt")
  /-- The seed of a reproducible random source. -/
  seed : Option Int := none
  /-- There is a level below the root. -/
  treeDepth_pos : 0 < treeDepth := by decide

namespace Config

/-- The number of leaves of a tree. -/
def numLeaves (c : Config) : Nat := 1 <<< c.treeDepth

/-- Whether a number is that of the leaves.  The latter is computed only when both have the same
length, so a deep tree takes no time. -/
def hasLeaves (c : Config) (count : Nat) : Bool :=
  count.log2 == c.treeDepth && count == c.numLeaves

theorem hasLeaves_iff (c : Config) (count : Nat) : c.hasLeaves count ↔ count = c.numLeaves := by
  simp only [hasLeaves, Bool.and_eq_true, beq_iff_eq, and_iff_right_iff_imp]
  rintro rfl
  rw [numLeaves, Nat.one_shiftLeft, Nat.log2_two_pow]

/-- The greatest depth at which the number of leaves has at most `Text.maxDigits` digits. -/
def maxWritableDepth : Nat := 14284

/-- The depth from which on no machine can count the leaves. -/
def depthLimit : Nat := 1 <<< 64

/-- Where the proving key is, if it has a name. -/
def provingKeyPath? (c : Config) : Option Path := c.provingKeyFile.map c.workDir.join

/-- Where the verification key is, if it has a name. -/
def verificationKeyPath? (c : Config) : Option Path := c.verificationKeyFile.map c.workDir.join

/-- Where the proof is, if it has a name. -/
def proofPath? (c : Config) : Option Path := c.proofFile.map c.workDir.join

/-- Where the public root is, if it has a name. -/
def rootPath? (c : Config) : Option Path := c.rootFile.map c.workDir.join

end Config

/-- Settings of which any may be missing. -/
structure Settings where
  /-- The number of levels below the root. -/
  treeDepth : Option Int := none
  /-- The name of the hash gadget, or that there is none. -/
  hashGadget : Option (Option String) := none
  /-- The directory of the artifacts. -/
  workDir : Option Path := none
  /-- The name of the proving key, or that there is none. -/
  provingKeyFile : Option (Option Path) := none
  /-- The name of the verification key, or that there is none. -/
  verificationKeyFile : Option (Option Path) := none
  /-- The name of the proof, or that there is none. -/
  proofFile : Option (Option Path) := none
  /-- The name of the public root, or that there is none. -/
  rootFile : Option (Option Path) := none
  /-- The seed of a reproducible random source. -/
  seed : Option Int := none
  deriving DecidableEq, Repr, Inhabited

/-- A value in a list of named settings. -/
inductive SettingValue
  /-- Nothing, said on purpose. -/
  | nothing
  /-- A number. -/
  | number (n : Int)
  /-- A text, which may spell a number. -/
  | text (value : String)
  deriving DecidableEq, Repr

namespace SettingValue

/-- The number in a value. -/
def toInteger? : SettingValue → Option Int
  | .nothing => none
  | .number n => some n
  | .text value => Text.integer? value

/-- The path in a value. -/
def toPath? : SettingValue → Option Path
  | .text value => some (.parse value)
  | _ => none

end SettingValue

namespace Settings

/-- The settings with one more, by its name.  Only the gadget, the seed and the names of the files
can be set to nothing; a number is no name of a file. -/
def set? (s : Settings) (name : String) (value : SettingValue) : Except ConfigError Settings :=
  let settings : Option Settings :=
    match name, value with
    | "hash_gadget", .nothing => some { s with hashGadget := some none }
    | "hash_gadget", .text gadget => some { s with hashGadget := some (some gadget) }
    | "seed", .nothing => some { s with seed := none }
    | "seed", v => v.toInteger?.map fun n => { s with seed := some n }
    | "tree_depth", v => v.toInteger?.map fun n => { s with treeDepth := some n }
    | "work_dir", v => v.toPath?.map fun p => { s with workDir := some p }
    | "proving_key_file", v => some { s with provingKeyFile := some v.toPath? }
    | "verification_key_file", v => some { s with verificationKeyFile := some v.toPath? }
    | "proof_file", v => some { s with proofFile := some v.toPath? }
    | "root_file", v => some { s with rootFile := some v.toPath? }
    | _, _ => none
  settings.elim (.error (.unusable name)) .ok

/-- The settings of both, the first ones where both have one. -/
def orElse (s t : Settings) : Settings where
  treeDepth := s.treeDepth <|> t.treeDepth
  hashGadget := s.hashGadget <|> t.hashGadget
  workDir := s.workDir <|> t.workDir
  provingKeyFile := s.provingKeyFile <|> t.provingKeyFile
  verificationKeyFile := s.verificationKeyFile <|> t.verificationKeyFile
  proofFile := s.proofFile <|> t.proofFile
  rootFile := s.rootFile <|> t.rootFile
  seed := s.seed <|> t.seed

/-- The value of a variable; an empty one counts as not set. -/
def setValue? (environment : String → Option String) (name : String) : Option String :=
  (environment name).filter fun text => !text.isEmpty

/-- The integer in a variable. -/
def setInteger? (environment : String → Option String) (name : String) :
    Except ConfigError (Option Int) :=
  match setValue? environment name with
  | none => .ok none
  | some text =>
    match Text.integer? text with
    | some n => .ok (some n)
    | none => .error (.notInteger name text)

/-- The settings that environment variables make. -/
def ofEnvironment? (environment : String → Option String) : Except ConfigError Settings := do
  let treeDepth ← setInteger? environment "ZKMERKLE_TREE_DEPTH"
  let hashGadget := (setValue? environment "ZKMERKLE_HASH_GADGET").map some
  let workDir := (setValue? environment "ZKMERKLE_WORKDIR").map Path.parse
  let seed ← setInteger? environment "ZKMERKLE_SEED"
  return { treeDepth, hashGadget, workDir, seed }

/-- The configuration with the defaults for what is missing. -/
def config? (s : Settings) : Except ConfigError Config :=
  let default : Config := {}
  let depth := s.treeDepth.getD default.treeDepth
  if h : 1 ≤ depth then
    .ok
      { treeDepth := depth.toNat
        hashGadget := s.hashGadget.getD default.hashGadget
        workDir := s.workDir.getD default.workDir
        provingKeyFile := s.provingKeyFile.getD default.provingKeyFile
        verificationKeyFile := s.verificationKeyFile.getD default.verificationKeyFile
        proofFile := s.proofFile.getD default.proofFile
        rootFile := s.rootFile.getD default.rootFile
        seed := s.seed
        treeDepth_pos := by omega }
  else .error (.treeDepth depth)

end Settings

end MerkleSnark
