import MerkleSnark.Circuit.Digest
import MerkleSnark.Text.Terminal

/-!
# Hash gadgets

A hash gadget places a two-to-one hash function between three digests of a board.  The placed gadget
can then be asked for its constraints and for its witness, as often as needed.

## Main definitions

* `PlacedGadget` — what a gadget does once it is placed.
* `HashGadget` — a way of placing gadgets.
* `GadgetRegistry`, `UnknownGadget` — gadgets by name.
-/

namespace MerkleSnark

/-- A gadget between digests of a board. -/
structure PlacedGadget where
  /-- The name. -/
  label : String
  /-- Adds the constraints. -/
  constrain : BoardM Unit
  /-- Computes the output digest and the inner wires from the input digests. -/
  assign : BoardM Unit

/-- A two-to-one hash function as a circuit. -/
structure HashGadget where
  /-- The number of bits of a digest. -/
  digestSize : Nat
  /-- The name of a placed gadget that is given none. -/
  defaultLabel : String
  /-- Places the function between the left, the right and the output digest, in this order. -/
  place : Digest → Digest → Digest → String → BoardM PlacedGadget

/-- Gadgets by name. -/
abbrev GadgetRegistry := List (String × HashGadget)

/-- A name that no gadget has, or no name at all. -/
structure UnknownGadget where
  /-- The name. -/
  name : Option String
  /-- The names that there are. -/
  known : List String
  deriving DecidableEq, Repr

/-- The wording of the failure to find a gadget. -/
def UnknownGadget.message (e : UnknownGadget) : String :=
  let choices := ", ".intercalate e.known
  let name := (e.name.map Text.quote).getD "None"
  s!"unknown hash gadget {name} (choose from: {choices})"

namespace GadgetRegistry

/-- The names in alphabetical order. -/
def names (registry : GadgetRegistry) : List String :=
  (registry.map Prod.fst).mergeSort fun a b => decide (a ≤ b)

/-- The gadget of a name. -/
def find (registry : GadgetRegistry) (name : Option String) : Except UnknownGadget HashGadget :=
  match name.bind fun name => registry.lookup name with
  | some gadget => .ok gadget
  | none => .error ⟨name, names registry⟩

end GadgetRegistry

end MerkleSnark
