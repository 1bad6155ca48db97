import MerkleSnark.Curve.Group

/-!
# Multiples of one fixed point

Key generation multiplies the two generators by thousands of scalars.  A table of
`d · 2 ^ (k · w) · B` for every window `k` and digit `d` turns each of these products into one
addition per window.

## Main definitions

* `FixedBaseTable` — the rows of one table, one row a window.
* `FixedBaseTable.ofBase` — the table of a point.
* `FixedBaseTable.mul` — the multiple by a scalar.
* `fixedBaseWindow` — the window width for a number of products.
-/

namespace MerkleSnark

/-- The window width for a number of products: a narrow table is cheaper to build. -/
def fixedBaseWindow (count : Nat) : Nat :=
  if count < 64 then 4 else if count < 1024 then 6 else 8

/-- A table of multiples of one point by digits of `windowBits` bits. -/
structure FixedBaseTable (P : Type) where
  /-- The width of a window. -/
  windowBits : Nat
  /-- Row `k` holds `d · 2 ^ (k · windowBits) · B` at place `d`. -/
  rows : List (Array P)

namespace FixedBaseTable

variable {P : Type} [PointGroup P]

open PointGroup

/-- The list `[p, p + b, p + 2b, …]` of `n` points. -/
@[specialize] def progression (b : P) : P → Nat → List P
  | _, 0 => []
  | p, n + 1 => p :: progression b (add p b) n

/-- The row of the digits below `2 ^ w` and, behind it, the base of the next row. -/
@[specialize] def row (w : Nat) (base : P) : Array P × P :=
  let multiples := progression base base (1 <<< w)
  ((infinity :: multiples.dropLast).toArray, multiples.getLast?.getD base)

/-- A number of rows, each from the base that the row before it leaves. -/
@[specialize] def rowsFrom (w : Nat) : P → Nat → List (Array P)
  | _, 0 => []
  | base, n + 1 =>
    let (here, next) := row w base
    here :: rowsFrom w next n

/-- The number of windows that cover a scalar. -/
def windowCount (w : Nat) : Nat := (Fr.bitLength + w - 1) / w

/-- The table of a point, with windows of at least one bit. -/
@[specialize] def ofBase (base : P) (w : Nat) : FixedBaseTable P :=
  ⟨w, rowsFrom w base (windowCount w)⟩

/-- The table of a point, unless the window is empty: no number of windows of no bits covers a
scalar. -/
def ofBase? (base : P) (w : Nat) : Option (FixedBaseTable P) :=
  if w = 0 then none else some (ofBase base w)

/-- The entry of a digit in a row, if there is one. -/
def entry? (table : FixedBaseTable P) (row digit : Nat) : Option P := do
  (← table.rows[row]?)[digit]?

/-- Adds the row entry of each digit of `k`, from the lowest digit up, until the rest is zero. -/
@[specialize] def sumDigits (w : Nat) : List (Array P) → Nat → P → P
  | [], _, acc => acc
  | row :: rows, k, acc =>
    if k = 0 then acc
    else
      let digit := k % (1 <<< w)
      sumDigits w rows (k >>> w) (if digit = 0 then acc else add acc (row.getD digit infinity))

/-- The multiple of the base by a scalar. -/
@[specialize] def mul (table : FixedBaseTable P) (k : Fr) : P :=
  sumDigits table.windowBits table.rows k.val infinity

end FixedBaseTable

end MerkleSnark
