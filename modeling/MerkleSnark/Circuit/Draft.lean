import MerkleSnark.Circuit.Board

/-!
# Drafts of circuits

A circuit for a hash function is drafted before it is put on a board: the draft allocates wires and
records, for every one of them, the step that determines its value.  The same steps give the
constraints of the circuit and compute its witness, in the order in which they were recorded.

## Main definitions

* `Step` — determines a wire as a product, or a block of wires as the bits of a sum.
* `Step.constraints`, `Step.assign` — what a step asks for, and how it is met.
* `Draft`, `DraftM` — wires and steps recorded so far.
* `DraftM.product` — `offset + x · y`, folded when a factor is constant.
* `DraftM.xor` — the exclusive or of two bits.
-/

namespace MerkleSnark

/-- Determines the value of wires from the values of earlier ones. -/
inductive Step
  /-- The wire `out` carries `offset + x · y`. -/
  | product (out : Nat) (offset x y : LinearCombination) (label : String)
  /-- The wires `bits` carry the binary digits of `total`, the lowest first. -/
  | digits (total : LinearCombination) (bits : List Nat) (label : String)
  deriving DecidableEq, Repr

namespace Step

/-- The name of a step. -/
def label : Step → String
  | product _ _ _ _ label => label
  | digits _ _ label => label

/-- The number that bits spell, the lowest first, as a linear combination. -/
def weighted (bits : List Nat) : LinearCombination :=
  bits.zipIdx.foldl (fun x p => x.addTerm p.1 (.ofNat scalarOrder (1 <<< p.2))) 0

/-- The constraints of a step.  A product is one constraint; digits are one packed equation and a
boolean constraint for every digit. -/
def constraints : Step → List Constraint
  | product out offset x y label => [⟨x, y, .var out - offset, label⟩]
  | digits total bits label =>
    ⟨total, .const 1, weighted bits, label⟩ :: bits.zipIdx.map fun p =>
      .boolean (.var p.1) s!"{label}.bit[{p.2}]"

/-- Writes the lowest binary digits of a number to wires. -/
def assignDigits (n : Nat) : List Nat → BoardM Unit
  | [] => return ()
  | wire :: rest => do
    BoardM.setWire wire (.ofNat scalarOrder (n % 2))
    assignDigits (n / 2) rest

/-- Computes the wires that a step determines. -/
def assign : Step → BoardM Unit
  | product out offset x y _ => do
    BoardM.setWire out ((← BoardM.eval offset) + (← BoardM.eval x) * (← BoardM.eval y))
  | digits total bits _ => do assignDigits (← BoardM.eval total).val bits

end Step

/-- Wires and steps recorded so far. -/
structure Draft where
  /-- The number of the next wire. -/
  next : Nat
  /-- The names of the wires of the draft. -/
  labels : Array String := #[]
  /-- The steps. -/
  steps : Array Step := #[]
  deriving DecidableEq, Repr

/-- Computations that draft. -/
abbrev DraftM := StateM Draft

namespace DraftM

/-- Allocates a wire. -/
def allocate (label : String) : DraftM Nat := modifyGet fun d =>
  (d.next, { d with next := d.next + 1, labels := d.labels.push label })

/-- Allocates consecutive wires, the names numbered from zero, and gives the first of them. -/
def allocateBlock (label : String) (count : Nat) : DraftM Nat := modifyGet fun d =>
  (d.next,
    { d with
      next := d.next + count
      labels := (List.range count).foldl (fun ls i => ls.push s!"{label}_{i}") d.labels })

/-- Records a step. -/
def record (step : Step) : DraftM Unit := modify fun d => { d with steps := d.steps.push step }

/-- The value `offset + x · y`.  With a constant factor it is linear and needs no wire. -/
def product (offset x y : LinearCombination) (label : String) : DraftM LinearCombination :=
  if x.isConstant then return offset + y.scale x.constantValue
  else if y.isConstant then return offset + x.scale y.constantValue
  else do
    let out ← allocate label
    record (.product out offset x y label)
    return .var out

/-- The exclusive or `(x + y) + (-2 · x) · y` of two bits. -/
def xor (x y : LinearCombination) (label : String) : DraftM LinearCombination :=
  product (x + y) (x.scale (-(1 + 1))) y label

end DraftM

/-- Runs a draft that continues a board, and puts its wires on the board.  What was drafted before a
failure stays drafted. -/
def BoardM.draft {α : Type} (m : ExceptT BoardError DraftM α) :
    BoardM (Except BoardError α × List Step) := fun board =>
  let (result, d) := StateT.run (ExceptT.run m) { next := board.values.size }
  let fresh := Array.replicate d.labels.size (0 : Fr)
  (.ok (result, d.steps.toList),
    { board with values := board.values ++ fresh, labels := board.labels ++ d.labels })

end MerkleSnark
