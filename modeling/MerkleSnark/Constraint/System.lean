import MerkleSnark.Constraint.LinearCombination

/-!
# Rank-one constraint systems

A constraint asks `⟨a, w⟩ · ⟨b, w⟩ = ⟨c, w⟩` of the wire values `w`.  A system fixes which wires are
public: `w` is the constant one, then the primary inputs, then the auxiliary inputs.

## Main definitions

* `Constraint`, `ConstraintSystem` — one constraint, and a list with the two input sizes.
* `ConstraintSystem.assignment?` — the wire values from the two input lists.
* `ConstraintSystem.firstUnsatisfied?` — the index of the first constraint that fails.
* `ConstraintSystem.Satisfied` — all constraints hold.
-/

namespace MerkleSnark

/-- One constraint with a name for reports. -/
structure Constraint where
  /-- The left factor. -/
  a : LinearCombination
  /-- The right factor. -/
  b : LinearCombination
  /-- The product. -/
  c : LinearCombination
  /-- The name. -/
  label : String := ""
  deriving DecidableEq, Repr, Inhabited

namespace Constraint

/-- The constraint holds under an assignment of all wires. -/
def Holds (k : Constraint) (w : Nat → Fr) : Prop := k.a.eval w * k.b.eval w = k.c.eval w

instance (k : Constraint) (w : Nat → Fr) : Decidable (k.Holds w) :=
  inferInstanceAs (Decidable (_ = _))

/-- Whether all wires lie below `n`. -/
def boundedBy (k : Constraint) (n : Nat) : Bool :=
  k.a.boundedBy n && k.b.boundedBy n && k.c.boundedBy n

/-- Whether the constraint holds for a list of wire values, unless a wire lies past its end. -/
def holdsAt? (k : Constraint) (w : Array Fr) : Option Bool := do
  return (← k.a.evalAt? w) * (← k.b.evalAt? w) = (← k.c.evalAt? w)

/-- The same three combinations; the name does not count. -/
def same (k l : Constraint) : Bool := k.a = l.a ∧ k.b = l.b ∧ k.c = l.c

/-- The value `x` is zero or one, as `x · (1 - x) = 0`. -/
def boolean (x : LinearCombination) (label : String) : Constraint :=
  ⟨x, .const 1 - x, 0, label⟩

end Constraint

/-- Why wire values do not fit a system. -/
inductive AssignmentError
  /-- The number of primary inputs is wrong. -/
  | primaryCount (expected found : Nat)
  /-- The number of auxiliary inputs is wrong. -/
  | auxiliaryCount (expected found : Nat)
  /-- A constraint mentions a wire that does not exist. -/
  | missingWire
  deriving DecidableEq, Repr

/-- The wording of a misfit. -/
def AssignmentError.message : AssignmentError → String
  | .primaryCount expected found => s!"expected {expected} primary inputs, got {found}"
  | .auxiliaryCount expected found => s!"expected {expected} auxiliary inputs, got {found}"
  | .missingWire => "a constraint mentions a wire that does not exist"

/-- A list of constraints over a constant, primary and auxiliary wires. -/
structure ConstraintSystem where
  /-- The number of public inputs. -/
  primarySize : Nat
  /-- The number of private inputs. -/
  auxiliarySize : Nat
  /-- The constraints. -/
  constraints : List Constraint := []
  deriving DecidableEq, Repr, Inhabited

namespace ConstraintSystem

/-- The number of wires, the constant one included. -/
def numVariables (cs : ConstraintSystem) : Nat := 1 + cs.primarySize + cs.auxiliarySize

/-- The number of constraints. -/
def numConstraints (cs : ConstraintSystem) : Nat := cs.constraints.length

/-- The system with one more constraint at the end. -/
def add (cs : ConstraintSystem) (k : Constraint) : ConstraintSystem :=
  { cs with constraints := cs.constraints ++ [k] }

/-- The same input sizes and the same constraints in the same order, whatever their names. -/
def same (cs ds : ConstraintSystem) : Bool :=
  cs.primarySize = ds.primarySize ∧ cs.auxiliarySize = ds.auxiliarySize
    ∧ cs.constraints.length = ds.constraints.length
    ∧ (cs.constraints.zip ds.constraints).all fun p => p.1.same p.2

/-- Every constraint mentions existing wires only. -/
def WellFormed (cs : ConstraintSystem) : Prop :=
  ∀ k ∈ cs.constraints, k.boundedBy cs.numVariables = true

instance (cs : ConstraintSystem) : Decidable cs.WellFormed :=
  inferInstanceAs (Decidable (∀ k ∈ cs.constraints, k.boundedBy cs.numVariables = true))

/-- All constraints hold. -/
def Satisfied (cs : ConstraintSystem) (w : Nat → Fr) : Prop := ∀ k ∈ cs.constraints, k.Holds w

instance (cs : ConstraintSystem) (w : Nat → Fr) : Decidable (cs.Satisfied w) :=
  inferInstanceAs (Decidable (∀ k ∈ cs.constraints, k.Holds w))

/-- The wire values `1, primary, auxiliary`, unless a list has the wrong length. -/
def assignment? (cs : ConstraintSystem) (primary auxiliary : List Fr) :
    Except AssignmentError (Array Fr) :=
  if primary.length ≠ cs.primarySize then
    .error (.primaryCount cs.primarySize primary.length)
  else if auxiliary.length ≠ cs.auxiliarySize then
    .error (.auxiliaryCount cs.auxiliarySize auxiliary.length)
  else .ok (1 :: (primary ++ auxiliary)).toArray

/-- The index of the first constraint that fails for given wire values, counted from `i`. -/
def firstFailing? (w : Array Fr) : Nat → List Constraint → Except AssignmentError (Option Nat)
  | _, [] => .ok none
  | i, k :: rest =>
    match k.holdsAt? w with
    | none => .error .missingWire
    | some false => .ok (some i)
    | some true => firstFailing? w (i + 1) rest

/-- The index of the first constraint that fails for given inputs. -/
def firstUnsatisfied? (cs : ConstraintSystem) (primary auxiliary : List Fr) :
    Except AssignmentError (Option Nat) := do
  firstFailing? (← cs.assignment? primary auxiliary) 0 cs.constraints

end ConstraintSystem

end MerkleSnark
