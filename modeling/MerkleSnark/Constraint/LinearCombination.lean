import MerkleSnark.Field.Scalar

/-!
# Linear combinations of wires

A linear combination `Σ cᵢ · wᵢ` of wires is a finite table of coefficients.  It is kept as the list
of its terms, in increasing order of the wire and without zero coefficients.  In this form two
combinations are the same linear map exactly when they are equal, so constant folding, comparison and
encoding may look at the terms.

## Main definitions

* `LinearCombination` — the terms.
* `LinearCombination.addTerm` — adds one term in place, the operation the others are built from.
* `LinearCombination.ofTerms` — a sum of terms.
* `LinearCombination.ofTable` — a table of coefficients.
* `LinearCombination.eval` — the value under an assignment of all wires.
* `LinearCombination.evalAt?` — the value under a list of wire values, refused past its end.
-/

namespace MerkleSnark

/-- The wire that always carries one. -/
def oneWire : Nat := 0

/-- A linear combination of wires.  The sorted list stands for a table of coefficients up to the
order of its entries: in which order they came about cannot be told from it.  Tables are written to
bytes in the order of their wires, and it is this list that takes over the sorting. -/
@[ext] structure LinearCombination where
  /-- Wires and their coefficients. -/
  terms : List (Nat × Fr)
  deriving DecidableEq, Repr

namespace LinearCombination

/-- Adds `c` to the coefficient of wire `i` in a list of terms; a coefficient that becomes zero
leaves the list. -/
def insertTerm (i : Nat) (c : Fr) : List (Nat × Fr) → List (Nat × Fr)
  | [] => if c = 0 then [] else [(i, c)]
  | (j, d) :: rest =>
    if i < j then
      if c = 0 then (j, d) :: rest else (i, c) :: (j, d) :: rest
    else if i = j then
      if d + c = 0 then rest else (j, d + c) :: rest
    else (j, d) :: insertTerm i c rest

/-- The sum with the single term `c · wᵢ`. -/
def addTerm (x : LinearCombination) (i : Nat) (c : Fr) : LinearCombination :=
  ⟨insertTerm i c x.terms⟩

/-- The combination without terms. -/
instance : Zero LinearCombination := ⟨⟨[]⟩⟩
instance : Inhabited LinearCombination := ⟨0⟩

/-- The sum of a list of terms, in which a wire may occur several times. -/
def ofTerms (terms : List (Nat × Fr)) : LinearCombination :=
  terms.foldl (fun x t => x.addTerm t.1 t.2) 0

/-- The entries of a table that count: of several for one wire, the last. -/
def lastEntries : List (Nat × Fr) → List (Nat × Fr)
  | [] => []
  | t :: rest => if rest.any (·.1 == t.1) then lastEntries rest else t :: lastEntries rest

/-- The combination with the coefficients of a table, in which a later entry for a wire replaces an
earlier one. -/
def ofTable (entries : List (Nat × Fr)) : LinearCombination := ofTerms (lastEntries entries)

/-- A single wire with a coefficient. -/
def term (i : Nat) (c : Fr) : LinearCombination := addTerm 0 i c

/-- A single wire. -/
def var (i : Nat) : LinearCombination := term i 1

/-- A constant, carried by the constant wire. -/
def const (c : Fr) : LinearCombination := term oneWire c

/-- The sum, term by term. -/
instance : Add LinearCombination :=
  ⟨fun x y => y.terms.foldl (fun acc t => acc.addTerm t.1 t.2) x⟩

/-- The multiple by a scalar.  A non-zero multiple of a non-zero coefficient is not zero, so only
the zero scalar removes terms. -/
def scale (x : LinearCombination) (c : Fr) : LinearCombination :=
  if c = 0 then 0 else ⟨x.terms.map fun t => (t.1, t.2 * c)⟩

instance : Neg LinearCombination := ⟨fun x => x.scale (-1)⟩
instance : Sub LinearCombination := ⟨fun x y => x + -y⟩

/-- Whether the constant wire is the only one that occurs. -/
def isConstant (x : LinearCombination) : Bool := x.terms.all (·.1 == oneWire)

/-- The coefficient of the constant wire. -/
def constantValue (x : LinearCombination) : Fr :=
  ((x.terms.find? (·.1 == oneWire)).map Prod.snd).getD 0

/-- The value under an assignment of all wires. -/
def eval (x : LinearCombination) (w : Nat → Fr) : Fr :=
  x.terms.foldl (fun acc t => acc + t.2 * w t.1) 0

/-- Whether all wires lie below `n`. -/
def boundedBy (x : LinearCombination) (n : Nat) : Bool := x.terms.all (·.1 < n)

/-- The value under a list of wire values, unless a wire lies past its end. -/
def evalAt? (x : LinearCombination) (w : Array Fr) : Option Fr :=
  if x.boundedBy w.size then some (x.eval fun i => w.getD i 0) else none

/-- A readable sum such as `5*w0 + 1*w3`, with `0` for the empty sum. -/
def describe (x : LinearCombination) : String :=
  let text := " + ".intercalate (x.terms.map fun t => s!"{t.2.val}*w{t.1}")
  "LinearCombination(" ++ (if text.isEmpty then "0" else text) ++ ")"

@[simp] theorem terms_zero : (0 : LinearCombination).terms = [] := rfl
@[simp] theorem eval_zero (w : Nat → Fr) : (0 : LinearCombination).eval w = 0 := rfl

end LinearCombination

end MerkleSnark
