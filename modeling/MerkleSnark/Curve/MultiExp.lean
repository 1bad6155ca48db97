import MerkleSnark.Curve.Group

/-!
# Sums of multiples

The sum `Σ kᵢ · Pᵢ` over points that are not known in advance.  Zero terms are dropped, terms with
the scalar one are added as they stand, and a large rest is summed window by window: within a
window the points of equal digit are collected in a bucket, and `Σ d · bucket d` is a sum of suffix
sums.

## Main definitions

* `multiExp` — the sum, refused when the lists differ in length.
* `MultiExp.bucketSum` — the sum of the terms whose scalar is neither zero nor one.
-/

namespace MerkleSnark

/-- The lengths of two lists that should have been equal. -/
structure LengthMismatch where
  /-- The number of points. -/
  points : Nat
  /-- The number of scalars. -/
  scalars : Nat
  deriving DecidableEq, Repr

/-- The wording of a mismatch. -/
def LengthMismatch.message (e : LengthMismatch) : String :=
  s!"multiexp length mismatch: {e.points} points, {e.scalars} scalars"

namespace MultiExp

variable {P : Type} [PointGroup P]

open PointGroup

/-- Below this number of terms, single multiples are cheaper than buckets. -/
def bucketThreshold : Nat := 16

/-- The number of binary digits. -/
def bitLength (n : Nat) : Nat := if n = 0 then 0 else n.log2 + 1

/-- The window width for a number of terms. -/
def bucketWindow (count : Nat) : Nat := max 2 (bitLength count - 2)

/-- The terms that contribute: a zero scalar or a point at infinity adds nothing. -/
def nonzeroTerms (terms : List (P × Fr)) : List (P × Fr) :=
  terms.filter fun t => !(t.2.val == 0 || isInfinity t.1)

/-- The points of digit `d` in window `window` of their scalar are added into bucket `d`, for every
`d` but zero. -/
@[specialize] def fillBuckets (c window : Nat) (terms : List (P × Fr)) : Array P :=
  terms.foldl (fun buckets t =>
      let digit := (t.2.val >>> (window * c)) % (1 <<< c)
      if digit = 0 then buckets else buckets.modify digit (add · t.1))
    (Array.replicate (1 <<< c) infinity)

/-- The sum `Σ d · bucket d` as a sum of suffix sums, from the highest bucket down. -/
@[specialize] def weightedSum (buckets : List P) : P :=
  (buckets.reverse.foldl (fun (acc : P × P) bucket =>
      let running := add acc.1 bucket
      (running, add acc.2 running))
    (infinity, infinity)).2

/-- A number of doublings. -/
@[specialize] def doubleTimes : Nat → P → P
  | 0, p => p
  | n + 1, p => doubleTimes n (double p)

/-- The sum of many terms, from the highest window down. -/
@[specialize] def bucketSum (terms : List (P × Fr)) : P :=
  let c := bucketWindow terms.length
  let windows := (Fr.bitLength + c - 1) / c
  (List.range windows).reverse.foldl (fun acc window =>
      add (doubleTimes c acc) (weightedSum (fillBuckets c window terms).toList.tail))
    infinity

/-- The sum of few terms, one multiple after another, added to `acc`. -/
@[specialize] def plainSum (acc : P) (terms : List (P × Fr)) : P :=
  terms.foldl (fun acc t => add acc (smul t.2 t.1)) acc

end MultiExp

open PointGroup MultiExp in
/-- The sum `Σ kᵢ · Pᵢ`. -/
@[specialize] def multiExp {P : Type} [PointGroup P] (points : List P) (scalars : List Fr) :
    Except LengthMismatch P :=
  if points.length ≠ scalars.length then .error ⟨points.length, scalars.length⟩
  else
    let terms := nonzeroTerms (points.zip scalars)
    let units := (terms.filter (·.2.val == 1)).foldl (fun acc t => add acc t.1) infinity
    let rest := terms.filter (·.2.val != 1)
    .ok (if rest.length < bucketThreshold then plainSum units rest
      else add units (bucketSum rest))

end MerkleSnark
