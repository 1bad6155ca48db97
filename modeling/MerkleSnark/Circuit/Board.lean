import MerkleSnark.Constraint.System

/-!
# The board

Circuits are laid out on a board, which allocates wires, collects constraints and holds the value of
every wire.  Wire zero carries one; the other wires are numbered in the order of their allocation,
and the first of them can be declared to be public.

## Main definitions

* `Board`, `Board.empty` — the state of a layout.
* `BoardError` — the causes of failure of everything that works on a board.
* `BoardM` — computations on a board; what was done before a failure stays done.
* `BoardM.allocate`, `BoardM.setInputSize`, `BoardM.setWire`, `BoardM.addConstraint`.
* `Board.system`, `Board.primaryInput`, `Board.auxiliaryInput` — the views for the proof system.
* `Board.firstUnsatisfied?` — the name of the first constraint that fails.
-/

namespace MerkleSnark

/-- Wires, their values and the constraints on them. -/
structure Board where
  /-- The value of every wire. -/
  values : Array Fr
  /-- The name of every wire. -/
  labels : Array String
  /-- The constraints in the order of their addition. -/
  constraints : Array Constraint
  /-- The number of public wires. -/
  primarySize : Nat

/-- Why a step on a board fails. -/
inductive BoardError
  /-- More inputs are declared than there are wires. -/
  | tooManyInputs (declared allocated : Nat)
  /-- The constant wire cannot get another value. -/
  | constantWire
  /-- There is no such wire, bit or place. -/
  | missingWire
  /-- A digest gets the wrong number of bits. -/
  | bitCount (label : String) (expected found : Nat)
  /-- A digest gets a bit that is neither zero nor one. -/
  | notABit (label : String) (value : Int)
  /-- A gadget is placed on a digest of another size. -/
  | digestSize (label digest : String) (size : Nat)
  /-- A word is longer than thirty-two bits. -/
  | wordTooLong
  /-- A tree has no level below its root. -/
  | treeDepth (found : Int)
  /-- The constraints of a circuit are on the board already. -/
  | alreadyConstrained
  /-- A tree gets the wrong number of leaves. -/
  | leafCount (expected found : Nat)
  /-- A leaf of a tree gets the wrong number of bits. -/
  | leafSize (leaf expected found : Nat)
  deriving DecidableEq, Repr

/-- The wording of a failure. -/
def BoardError.message : BoardError → String
  | .tooManyInputs declared allocated =>
    s!"cannot declare {declared} primary inputs, only {allocated} variables allocated"
  | .constantWire => "the constant-one wire cannot be reassigned"
  | .missingWire => "there is no such wire"
  | .bitCount label expected found => s!"{label}: expected {expected} bits, got {found}"
  | .notABit label value => s!"{label}: digest bit must be 0 or 1, got {value}"
  | .digestSize label digest size => s!"{label}: {digest} does not hold a {size}-bit digest"
  | .wordTooLong => "negative shift count"
  | .treeDepth found => s!"tree depth must be at least 1, got {found}"
  | .alreadyConstrained => "constraints were already generated for this circuit"
  | .leafCount expected found => s!"expected {expected} leaf digests, got {found}"
  | .leafSize leaf expected found => s!"leaf {leaf}: expected {expected} bits, got {found}"

/-- Computations on a board. -/
abbrev BoardM := ExceptT BoardError (StateM Board)

namespace Board

/-- The board with nothing but the constant wire. -/
def empty : Board := ⟨#[1], #["ONE"], #[], 0⟩

instance : Inhabited Board := ⟨empty⟩

/-- The number of wires other than the constant one. -/
def numVariables (board : Board) : Nat := board.values.size - 1

/-- The number of constraints. -/
def numConstraints (board : Board) : Nat := board.constraints.size

/-- The constraint system of the layout. -/
def system (board : Board) : ConstraintSystem :=
  ⟨board.primarySize, board.numVariables - board.primarySize, board.constraints.toList⟩

/-- The values of the public wires. -/
def primaryInput (board : Board) : List Fr :=
  (board.values.extract 1 (board.primarySize + 1)).toList

/-- The values of the private wires. -/
def auxiliaryInput (board : Board) : List Fr :=
  (board.values.extract (board.primarySize + 1) board.values.size).toList

/-- The name of the first constraint that fails, or its number when it has no name. -/
def firstUnsatisfied? (board : Board) : Except AssignmentError (Option String) := do
  let cs := board.system
  match ← cs.firstUnsatisfied? board.primaryInput board.auxiliaryInput with
  | none => return none
  | some i =>
    let label := (board.constraints.getD i default).label
    return some (if label.isEmpty then s!"constraint #{i}" else label)

end Board

namespace BoardM

/-- Runs a computation on a board. -/
def run {α : Type} (m : BoardM α) (board : Board) : Except BoardError α × Board :=
  StateT.run (ExceptT.run m) board

/-- Allocates a wire with the value zero. -/
def allocate (label : String) : BoardM Nat := do
  let board ← get
  let wire := board.values.size
  set { board with values := board.values.push 0, labels := board.labels.push label }
  return wire

/-- Allocates consecutive wires, the names numbered from `i`, and gives the first of them. -/
def allocateBlock (label : String) (count : Nat) : BoardM Nat := do
  let first := (← get).values.size
  modify fun board =>
    { board with
      values := board.values ++ Array.replicate count (0 : Fr)
      labels := (List.range count).foldl (fun ls i => ls.push s!"{label}_{i}") board.labels }
  return first

/-- Declares that the first wires are public. -/
def setInputSize (size : Nat) : BoardM Unit := do
  let board ← get
  if size > board.numVariables then throw (.tooManyInputs size board.numVariables)
  set { board with primarySize := size }

/-- The value of a wire. -/
def wire (i : Nat) : BoardM Fr := do
  match (← get).values[i]? with
  | some x => return x
  | none => throw .missingWire

/-- Gives a wire a value. -/
def setWire (i : Nat) (x : Fr) : BoardM Unit := do
  if i = oneWire then throw .constantWire
  if (← get).values.size ≤ i then throw .missingWire
  modify fun board => { board with values := board.values.set! i x }

/-- The value of a linear combination. -/
def eval (x : LinearCombination) : BoardM Fr := do
  match x.evalAt? (← get).values with
  | some v => return v
  | none => throw .missingWire

/-- Adds a constraint. -/
def addConstraint (k : Constraint) : BoardM Unit :=
  modify fun board => { board with constraints := board.constraints.push k }

end BoardM

end MerkleSnark
