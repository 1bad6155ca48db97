import MerkleSnark.Field.Scalar

/-!
# Polynomials on evaluation domains

Constraint number `j` of a system belongs to the point `ωʲ` of a domain.  The Lagrange basis at a
point `τ` off the domain turns a sum over constraints into the value at `τ` of the interpolating
polynomial.

The Fourier transforms evaluate a polynomial on a domain of roots of unity and on a coset of it, and
the inverse transforms interpolate.  The recursion splits the coefficients into those of even and of
odd degree, so that one transform of size `n` is two of size `n / 2` joined by `n / 2` butterflies.

## Main definitions

* `domainSize` — the smallest domain for a number of constraints.
* `vanishing` — the polynomial `xⁿ - 1`, which is zero exactly on the domain.
* `lagrangeBasis?` — all `Lⱼ(τ)`, refused for `τ` on the domain.
* `evens`, `odds` — the entries at even and at odd positions.
* `butterflies` — the two halves of a transform from the transforms of its parts.
* `fft`, `ifft`, `cosetFft`, `cosetIfft` — the four transforms.
* `onValues?` — a transform that refuses the empty list, which no domain matches.
-/

namespace MerkleSnark.Polynomial

/-! ### The Lagrange basis -/

/-- Doubles `size` until it reaches `count`, at most `fuel` times. -/
def doubleUntil (count : Nat) : Nat → Nat → Nat
  | 0, size => size
  | fuel + 1, size => if size < count then doubleUntil count fuel (size * 2) else size

/-- The least power of two that is at least two and at least the number of constraints.  Doubling
as often as `count` has binary digits always suffices. -/
def domainSize (count : Nat) : Nat := doubleUntil count (count.log2 + 1) 2

/-- The value at `x` of the polynomial `xⁿ - 1`, which vanishes exactly on the domain of size
`n`. -/
def vanishing (n : Nat) (x : Fr) : Fr := x ^ n - 1

/-- The Lagrange basis of the domain of size `n` at `tau`:
`Lⱼ(τ) = (τⁿ - 1) / n · ωʲ / (τ - ωʲ)`. -/
def lagrangeBasis? (n : Nat) (tau : Fr) : Except DomainError (List Fr) :=
  let z := vanishing n tau
  if z = 0 then .error .pointOnDomain
  else do
    let factor := z / (n : Fr)
    return (← Fr.rootsOfUnity? n).map fun root => factor * root / (tau - root)

/-! ### Fourier transforms -/

mutual

/-- The entries at even positions. -/
def evens {α : Type} : List α → List α
  | [] => []
  | x :: xs => x :: odds xs

/-- The entries at odd positions. -/
def odds {α : Type} : List α → List α
  | [] => []
  | _ :: xs => evens xs

end

@[simp] theorem evens_nil {α : Type} : evens ([] : List α) = [] := by simp [evens]
@[simp] theorem odds_nil {α : Type} : odds ([] : List α) = [] := by simp [odds]
@[simp] theorem evens_cons {α : Type} (x : α) (xs : List α) : evens (x :: xs) = x :: odds xs := by
  simp [evens]
@[simp] theorem odds_cons {α : Type} (x : α) (xs : List α) : odds (x :: xs) = evens xs := by
  simp [odds]

/-- The even positions number half of the length, rounded up; the odd ones the rest. -/
theorem length_evens_odds {α : Type} (xs : List α) :
    (evens xs).length = (xs.length + 1) / 2 ∧ (odds xs).length = xs.length / 2 := by
  induction xs with
  | nil => simp
  | cons x xs ih => simp only [evens_cons, odds_cons, List.length_cons]; omega

@[simp] theorem length_evens {α : Type} (xs : List α) :
    (evens xs).length = (xs.length + 1) / 2 := (length_evens_odds xs).1

@[simp] theorem length_odds {α : Type} (xs : List α) :
    (odds xs).length = xs.length / 2 := (length_evens_odds xs).2

/-- Each entry times its power of `x`, starting from the factor `c`. -/
def scaleByPowers (c x : Fr) : List Fr → List Fr
  | [] => []
  | v :: vs => v * c :: scaleByPowers (c * x) x vs

@[simp] theorem length_scaleByPowers (c x : Fr) (vs : List Fr) :
    (scaleByPowers c x vs).length = vs.length := by
  induction vs generalizing c with
  | nil => rfl
  | cons v vs ih => simp [scaleByPowers, ih]

/-- The sums `eₖ + ωᵏ · oₖ` followed by the differences `eₖ - ωᵏ · oₖ`.  When there is one even
entry more than odd ones, the last place has no partner and holds zero. -/
def butterflies (omega : Fr) (es os : List Fr) : List Fr :=
  let twiddled := scaleByPowers 1 omega os
  List.zipWith (· + ·) es twiddled ++ List.zipWith (· - ·) es twiddled
    ++ List.replicate (es.length - os.length) 0

/-- The values at `1, ω, ω², …` of the polynomial with the given coefficients, where `ω` has the
order of their number, a power of two. -/
def fft (omega : Fr) (coeffs : List Fr) : List Fr :=
  match _h : coeffs with
  | [] => []
  | [c] => [c]
  | _ :: _ :: _ =>
    butterflies omega (fft (omega * omega) (evens coeffs)) (fft (omega * omega) (odds coeffs))
termination_by coeffs.length
decreasing_by
  all_goals simp only [_h, length_evens, length_odds, List.length_cons]; omega

/-- The coefficients from the values: the transform at `ω⁻¹`, divided by the number of values. -/
def ifft (omega : Fr) (evals : List Fr) : List Fr :=
  let scale := (evals.length : Fr)⁻¹
  (fft omega⁻¹ evals).map (· * scale)

/-- The values at `s, s·ω, s·ω², …`. -/
def cosetFft (omega shift : Fr) (coeffs : List Fr) : List Fr :=
  fft omega (scaleByPowers 1 shift coeffs)

/-- The coefficients from the values on the coset of `s`. -/
def cosetIfft (omega shift : Fr) (evals : List Fr) : List Fr :=
  scaleByPowers 1 shift⁻¹ (ifft omega evals)

/-- Runs a transform on at least one value. -/
def onValues? (transform : List Fr → List Fr) (values : List Fr) : Except DomainError (List Fr) :=
  if values.isEmpty then .error .noValues else .ok (transform values)

end MerkleSnark.Polynomial
