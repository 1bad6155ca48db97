import Mathlib
import MerkleSnark.Proofs.Groth16.Evaluation
import MerkleSnark.Proofs.Groth16.Session

/-!
# No division by zero

The inverse of zero is zero, so a division by zero would go unnoticed.  Everything that divides is
carried out here once more with a record of its divisions, and without the record it is what it was.
Key generation divides by numbers that are not zero because the evaluation point lies off the domain,
and proving because the coset does.

## Main definitions

* `Division`, `Division.Exact` — a division, and that it gives a quotient.
* `Dividing` — a value with the divisions that were carried out for it.
* `Dividing.generate`, `Dividing.prove` — key generation and proving with their divisions.
* `keyDivisors`, `proofDivisors` — what the two divide by.

## Main results

* `Dividing.value_generate`, `Dividing.value_prove` — the record changes nothing.
* `Dividing.divisors_keysOf?`, `Dividing.divisors_quotient?` — what is divided by.
* `Dividing.divisions_exact` — **nothing is ever divided by zero**.
-/

namespace MerkleSnark

/-! ### Divisions -/

/-- A division that is carried out. -/
structure Division where
  /-- What is divided. -/
  dividend : Fr
  /-- What it is divided by. -/
  divisor : Fr
  deriving DecidableEq, Repr

namespace Division

/-- What the division gives, whatever the divisor is. -/
def quotient (d : Division) : Fr := d.dividend / d.divisor

/-- The divisor is not zero, and its product with the quotient is what was divided. -/
structure Exact (d : Division) : Prop where
  divisor_ne_zero : d.divisor ≠ 0
  quotient_mul : d.quotient * d.divisor = d.dividend

theorem exact_of_ne_zero {d : Division} (h : d.divisor ≠ 0) : d.Exact :=
  ⟨h, div_mul_cancel₀ d.dividend h⟩

end Division

/-- A value with the divisions that were carried out for it, in their order. -/
structure Dividing (α : Type) where
  /-- The value. -/
  value : α
  /-- The divisions. -/
  divisions : List Division

namespace Dividing

variable {α β ε : Type}

instance : Monad Dividing where
  pure a := ⟨a, []⟩
  bind m f := ⟨(f m.value).value, m.divisions ++ (f m.value).divisions⟩

instance : LawfulMonad Dividing := .mk' _
  (fun m => congrArg (Dividing.mk m.value) (List.append_nil m.divisions))
  (fun _ _ => rfl)
  (fun _ _ _ => congrArg (Dividing.mk _) (List.append_assoc _ _ _))

/-- Divides, and records it. -/
def divide (x y : Fr) : Dividing Fr := ⟨Division.quotient ⟨x, y⟩, [⟨x, y⟩]⟩

/-- Everything that was divided by. -/
def divisors (m : Dividing α) : List Fr := m.divisions.map Division.divisor

/-- All divisions have divisors other than zero. -/
def Exact (m : Dividing α) : Prop := ∀ d ∈ m.divisions, d.Exact

section

variable {m : Dividing α} {f : α → Dividing β} {x y : Fr}

@[simp] theorem value_pure (a : α) : (pure a : Dividing α).value = a := rfl
@[simp] theorem value_bind (m : Dividing α) (f : α → Dividing β) :
    (m >>= f).value = (f m.value).value := rfl
@[simp] theorem value_map (g : α → β) (m : Dividing α) : (g <$> m).value = g m.value := rfl
@[simp] theorem value_divide (x y : Fr) : (divide x y).value = x / y := rfl

@[simp] theorem divisors_pure (a : α) : (pure a : Dividing α).divisors = [] := rfl
@[simp] theorem divisors_bind (m : Dividing α) (f : α → Dividing β) :
    (m >>= f).divisors = m.divisors ++ (f m.value).divisors := List.map_append
@[simp] theorem divisors_map (g : α → β) (m : Dividing α) : (g <$> m).divisors = m.divisors :=
  congrArg (List.map Division.divisor) (List.append_nil m.divisions)
@[simp] theorem divisors_divide (x y : Fr) : (divide x y).divisors = [y] := rfl

theorem exact_iff : m.Exact ↔ ∀ x ∈ m.divisors, x ≠ 0 := by
  rw [Exact, divisors, List.forall_mem_map]
  exact forall₂_congr fun d _ => ⟨Division.Exact.divisor_ne_zero, Division.exact_of_ne_zero⟩

theorem exact_of_prefix {xs : List Fr} (h : m.divisors <+: xs) (hxs : ∀ x ∈ xs, x ≠ 0) : m.Exact :=
  exact_iff.mpr fun x hx => hxs x (h.subset hx)

theorem value_mapM (f : α → Dividing β) (l : List α) :
    (l.mapM f).value = l.map fun a => (f a).value := by
  induction l with
  | nil => rfl
  | cons a l ih => simp [ih]

theorem divisors_mapM (f : α → Dividing β) (l : List α) :
    (l.mapM f).divisors = l.flatMap fun a => (f a).divisors := by
  induction l with
  | nil => rfl
  | cons a l ih => simp [ih]

end

/-! ### Divisions up to a failure -/

section

variable {m : ExceptT ε Dividing α} {f : α → ExceptT ε Dividing β}

theorem value_run_bind (m : ExceptT ε Dividing α) (f : α → ExceptT ε Dividing β) :
    (m >>= f).run.value = m.run.value >>= fun a => (f a).run.value := by
  rw [ExceptT.run_bind, value_bind]
  cases m.run.value <;> rfl

theorem value_run_adapt {ε' : Type} (g : ε → ε') (m : ExceptT ε Dividing α) :
    (m.adapt g).run.value = m.run.value.mapError g := rfl

theorem divisors_run_adapt {ε' : Type} (g : ε → ε') (m : ExceptT ε Dividing α) :
    (m.adapt g).run.divisors = m.run.divisors := divisors_map _ _

theorem divisors_run_bind {a : α} (h : m.run.value = .ok a) :
    (m >>= f).run.divisors = m.run.divisors ++ (f a).run.divisors := by
  rw [ExceptT.run_bind, divisors_bind, h]

end

end Dividing

/-! ### Computations that divide

Each has the name of the function that it carries out. -/

namespace Dividing

open MerkleSnark.Polynomial MerkleSnark.Groth16

/-- The coefficients from the values. -/
def ifft (omega : Fr) (evals : List Fr) : Dividing (List Fr) := do
  let inverse ← divide 1 omega
  let scale ← divide 1 (evals.length : Fr)
  return (fft inverse evals).map (· * scale)

/-- The coefficients from the values on a coset. -/
def cosetIfft (omega shift : Fr) (evals : List Fr) : Dividing (List Fr) := do
  let coeffs ← ifft omega evals
  let inverse ← divide 1 shift
  return scaleByPowers 1 inverse coeffs

/-- The Lagrange basis at a point. -/
def lagrangeBasis? (n : ℕ) (tau : Fr) : ExceptT DomainError Dividing (List Fr) :=
  let z := vanishing n tau
  if z = 0 then throw .pointOnDomain
  else do
    let factor ← (divide z (n : Fr) : Dividing Fr)
    let roots ← (Fr.rootsOfUnity? n : Except DomainError (List Fr))
    (roots.mapM fun root => divide (factor * root) (tau - root) : Dividing (List Fr))

/-- The values of the wires for one of the two divisors. -/
def combinedValues (s : Secrets) (divisor : Fr) (polys : Sides (List Fr)) : Dividing (List Fr) := do
  let inverse ← divide 1 divisor
  return List.zipWith (fun ab c => (ab + c) * inverse)
    (List.zipWith (fun a b => s.beta * a + s.alpha * b) polys.a polys.b) polys.c

/-- The values for the quotient. -/
def quotientBasis (s : Secrets) (n : ℕ) : Dividing (List Fr) := do
  let factor ← divide (vanishing n s.tau) s.delta
  return Fr.powersFrom factor s.tau (n - 1)

/-- The values on the coset from those on the domain. -/
def onCoset (omega : Fr) (values : List Fr) : Dividing (List Fr) := do
  return cosetFft omega Fr.generator (← ifft omega values)

/-- The coefficients of the quotient. -/
def quotientOf (omega : Fr) (size : ℕ) (values : Sides (List Fr)) : Dividing (List Fr) := do
  let a ← onCoset omega values.a
  let b ← onCoset omega values.b
  let c ← onCoset omega values.c
  let scale ← divide 1 (vanishing size Fr.generator)
  let quotients := List.zipWith (fun p c => (p - c) * scale) (List.zipWith (· * ·) a b) c
  return (← cosetIfft omega Fr.generator quotients).take (size - 1)

/-- The quotient for the wire values of a system. -/
def quotient? (cs : ConstraintSystem) (w : Array Fr) (size : ℕ) :
    ExceptT ProgramError Dividing (List Fr) := do
  let omega ← ((Fr.rootOfUnity? size).mapError .domain : Except ProgramError Fr)
  let values ← (constraintValues? cs w size : Except ProgramError (Sides (List Fr)))
  (quotientOf omega size values : Dividing (List Fr))

variable {σ P Q : Type} [ScalarSource σ] [PointGroup P] [PointGroup Q]

/-- The keys of a system for given secrets. -/
def keysOf? (tables : Tables P Q) (cs : ConstraintSystem) (s : Secrets) :
    ExceptT ProgramError Dividing (ProvingKey P Q × VerificationKey P Q) := do
  let n := domainSize cs.numConstraints
  let basis ← (lagrangeBasis? n s.tau).adapt .domain
  let polys ← (wirePolynomials? cs basis : Except ProgramError (Sides (List Fr)))
  let ic ← (combinedValues s s.gamma polys : Dividing (List Fr))
  let l ← (combinedValues s s.delta polys : Dividing (List Fr))
  let h ← (quotientBasis s n : Dividing (List Fr))
  let mul₁ := tables.first.mul
  let mul₂ := tables.second.mul
  let publicCount := cs.primarySize + 1
  let pk : ProvingKey P Q :=
    { system := cs
      domainSize := n
      alpha := mul₁ s.alpha
      beta := mul₁ s.beta
      betaTwist := mul₂ s.beta
      delta := mul₁ s.delta
      deltaTwist := mul₂ s.delta
      aQuery := polys.a.map mul₁
      bQuery := polys.b.map mul₁
      bTwistQuery := polys.b.map mul₂
      hQuery := h.map mul₁
      lQuery := (l.drop publicCount).map mul₁ }
  let vk : VerificationKey P Q :=
    { alpha := pk.alpha
      beta := pk.betaTwist
      gamma := mul₂ s.gamma
      delta := pk.deltaTwist
      ic := (ic.take publicCount).map mul₁ }
  return (pk, vk)

/-- Draws the secrets of a system and makes its keys. -/
def generate (cs : ConstraintSystem) (state : σ × TableCache P Q) :
    Dividing (Except ProgramError (ProvingKey P Q × VerificationKey P Q) × σ × TableCache P Q) := do
  let drawn := (Secrets.sample (domainSize cs.numConstraints)).run state.1
  let fetched := state.2.fetch (tableWindow cs)
  let keys ← (keysOf? fetched.1 cs drawn.1).run
  return (keys, drawn.2, fetched.2)

/-- Draws the blinding scalars and makes the proof. -/
def prove (pk : ProvingKey P Q) (primary auxiliary : List Fr) (source : σ) :
    Dividing (Except ProveError (Proof P Q) × σ) :=
  match pk.system.assignment? primary auxiliary with
  | .error e => return (.error (.program (.assignment e)), source)
  | .ok w => do
    match ← (quotient? pk.system w pk.domainSize).run with
    | .error e => return (.error (.program e), source)
    | .ok h =>
      let (r, source) := ScalarSource.next source
      let (s, source) := ScalarSource.next source
      return ((proofOf? pk w.toList h r s).mapError .lengths, source)

/-! ### The record changes nothing -/

@[simp] theorem value_ifft (omega : Fr) (evals : List Fr) :
    (ifft omega evals).value = Polynomial.ifft omega evals := by
  rw [ifft, Polynomial.ifft, value_bind, value_divide, value_bind, value_divide, value_pure,
    one_div, one_div]

@[simp] theorem value_cosetIfft (omega shift : Fr) (evals : List Fr) :
    (cosetIfft omega shift evals).value = Polynomial.cosetIfft omega shift evals := by
  rw [cosetIfft, Polynomial.cosetIfft, value_bind, value_ifft, value_bind, value_divide, value_pure,
    one_div]

@[simp] theorem value_onCoset (omega : Fr) (values : List Fr) :
    (onCoset omega values).value
      = cosetFft omega Fr.generator (Polynomial.ifft omega values) := by
  rw [onCoset, value_bind, value_ifft, value_pure]

theorem value_quotientOf (omega : Fr) (size : ℕ) (values : Sides (List Fr)) :
    (quotientOf omega size values).value = Groth16.quotientOf omega size values := by
  unfold quotientOf Groth16.quotientOf
  rw [value_bind, value_onCoset, value_bind, value_onCoset, value_bind, value_onCoset, value_bind,
    value_divide, value_bind, value_cosetIfft, value_pure, one_div]

theorem value_combinedValues (s : Secrets) (divisor : Fr) (polys : Sides (List Fr)) :
    (combinedValues s divisor polys).value = Groth16.combinedValues s divisor polys := by
  rw [combinedValues, Groth16.combinedValues, value_bind, value_divide, value_pure, one_div]

theorem value_quotientBasis (s : Secrets) (n : ℕ) :
    (quotientBasis s n).value = Groth16.quotientBasis s n := by
  rw [quotientBasis, Groth16.quotientBasis, value_bind, value_divide, value_pure]

theorem value_lagrangeBasis? (n : ℕ) (tau : Fr) :
    (lagrangeBasis? n tau).run.value = Polynomial.lagrangeBasis? n tau := by
  unfold lagrangeBasis? Polynomial.lagrangeBasis?
  dsimp only
  split
  · rfl
  · cases Fr.rootsOfUnity? n with
    | error e => rfl
    | ok roots => exact congrArg Except.ok (value_mapM _ _)

theorem value_quotient? (cs : ConstraintSystem) (w : Array Fr) (size : ℕ) :
    (quotient? cs w size).run.value = Groth16.quotient? cs w size := by
  unfold quotient? Groth16.quotient?
  cases Fr.rootOfUnity? size with
  | error e => rfl
  | ok omega =>
    cases constraintValues? cs w size with
    | error e => rfl
    | ok values => exact congrArg Except.ok (value_quotientOf omega size values)

theorem value_keysOf? (tables : Tables P Q) (cs : ConstraintSystem) (s : Secrets) :
    (keysOf? tables cs s).run.value = Groth16.keysOf? tables cs s := by
  unfold keysOf? Groth16.keysOf?
  refine (value_run_bind _ _).trans ?_
  rw [value_run_adapt, value_lagrangeBasis?]
  refine bind_congr fun basis => ?_
  cases wirePolynomials? cs basis with
  | error e => rfl
  | ok polys =>
    change _ = Except.ok (provingKeyFrom tables cs s polys, verificationKeyFrom tables cs s polys)
    rw [provingKeyFrom, verificationKeyFrom, ← value_combinedValues, ← value_combinedValues,
      ← value_quotientBasis]
    rfl

theorem value_generate (cs : ConstraintSystem) (state : σ × TableCache P Q) :
    (generate cs state).value = Groth16.generate cs state := by
  rw [generate, Groth16.generate, value_bind, value_keysOf?, value_pure]

theorem value_prove (pk : ProvingKey P Q) (primary auxiliary : List Fr) (source : σ) :
    (prove pk primary auxiliary source).value
      = (Groth16.prove pk primary auxiliary).run.run source := by
  rw [prove, run_prove_eq]
  cases pk.system.assignment? primary auxiliary with
  | error e => rfl
  | ok w =>
    dsimp only
    rw [value_bind, value_quotient?]
    cases Groth16.quotient? pk.system w pk.domainSize <;> rfl

/-! ### What is divided by -/

/-- What key generation divides by, on a domain of size `n`: the size, the distances of the evaluation
point from the domain, and two of the secrets. -/
def keyDivisors (s : Secrets) (n : ℕ) : List Fr :=
  (n : Fr) :: (Fr.powersFrom 1 (Fr.root n) n).map (s.tau - ·) ++ [s.gamma, s.delta, s.delta]

/-- What proving divides by, on a domain of size `n`: the root and the size for every transform back,
the divisor on the coset, and the shift of the coset. -/
def proofDivisors (n : ℕ) : List Fr :=
  [Fr.root n, n, Fr.root n, n, Fr.root n, n, vanishing n Fr.generator, Fr.root n, n, Fr.generator]

theorem ne_zero_of_mem_keyDivisors {s : Secrets} {k : ℕ} (hk : k ≤ 28)
    (htau : vanishing (2 ^ k) s.tau ≠ 0) (hgamma : s.gamma ≠ 0) (hdelta : s.delta ≠ 0) :
    ∀ x ∈ keyDivisors s (2 ^ k), x ≠ 0 := by
  intro x hx
  rw [keyDivisors, List.cons_append, List.mem_cons, List.mem_append] at hx
  rcases hx with rfl | hx | hx
  · exact natCast_two_pow_ne_zero k
  · -- the point is off the domain, so it is none of the powers of the root
    obtain ⟨y, hy, rfl⟩ := List.mem_map.mp hx
    obtain ⟨j, -, rfl⟩ := mem_powersFrom_iff.mp hy
    exact sub_ne_zero.mpr (ne_pow_of_vanishing_ne_zero (Fr.isPrimitiveRoot_root hk) htau j)
  · simp only [List.mem_cons, List.not_mem_nil, or_false] at hx
    rcases hx with rfl | rfl | rfl
    · exact hgamma
    · exact hdelta
    · exact hdelta

theorem ne_zero_of_mem_proofDivisors {k : ℕ} (hk : k ≤ 28) : ∀ x ∈ proofDivisors (2 ^ k), x ≠ 0 := by
  have hroot : Fr.root (2 ^ k) ≠ 0 := (Fr.isPrimitiveRoot_root hk).ne_zero (by positivity)
  have hsize : ((2 ^ k : ℕ) : Fr) ≠ 0 := natCast_two_pow_ne_zero k
  have hcoset : vanishing (2 ^ k) Fr.generator ≠ 0 := sub_ne_zero.mpr (Fr.generator_pow_ne_one hk)
  have hshift : Fr.generator ≠ 0 := by decide
  simp only [proofDivisors, List.forall_mem_cons, hroot, hsize, hcoset, hshift, ne_eq,
    not_false_eq_true, true_and]
  exact List.forall_mem_nil _

theorem divisors_onCoset (omega : Fr) (values : List Fr) :
    (onCoset omega values).divisors = [omega, (values.length : Fr)] := rfl

theorem divisors_cosetIfft (omega shift : Fr) (evals : List Fr) :
    (cosetIfft omega shift evals).divisors = [omega, (evals.length : Fr), shift] := rfl

theorem divisors_quotientOf {k : ℕ} (hk : k ≤ 28) {values : Sides (List Fr)}
    (ha : values.a.length = 2 ^ k) (hb : values.b.length = 2 ^ k) (hc : values.c.length = 2 ^ k) :
    (quotientOf (Fr.root (2 ^ k)) (2 ^ k) values).divisors = proofDivisors (2 ^ k) := by
  have hroot := Fr.isPrimitiveRoot_root hk
  have hcoset {v : List Fr} (hv : v.length = 2 ^ k) : (cosetFft (Fr.root (2 ^ k)) Fr.generator
      (Polynomial.ifft (Fr.root (2 ^ k)) v)).length = 2 ^ k :=
    length_cosetFft hroot _ (length_ifft hroot hv)
  rw [quotientOf, divisors_bind, divisors_bind, divisors_bind, divisors_bind, divisors_bind,
    divisors_onCoset, divisors_onCoset, divisors_onCoset, divisors_divide, divisors_cosetIfft,
    value_onCoset, value_onCoset, value_onCoset, List.length_zipWith, List.length_zipWith,
    hcoset ha, hcoset hb, hcoset hc, min_self, min_self, ha, hb, hc]
  rfl

/-- **What the quotient divides by**: nothing when it is refused. -/
theorem divisors_quotient? {cs : ConstraintSystem} {n : ℕ} (hn : cs.numConstraints ≤ n)
    (w : Array Fr) :
    ((∃ e, Groth16.quotient? cs w n = .error e) ∧ (quotient? cs w n).run.divisors = [])
      ∨ ∃ k ≤ 28, n = 2 ^ k ∧ (quotient? cs w n).run.divisors = proofDivisors n := by
  unfold quotient? Groth16.quotient?
  cases homega : Fr.rootOfUnity? n with
  | error e => exact Or.inl ⟨⟨_, rfl⟩, rfl⟩
  | ok omega =>
    obtain ⟨k, hk, rfl, rfl⟩ := Fr.exists_of_rootOfUnity? homega
    cases hvalues : constraintValues? cs w (2 ^ k) with
    | error e => exact Or.inl ⟨⟨_, rfl⟩, rfl⟩
    | ok values =>
      obtain ⟨ha, hb, hc⟩ := lengths_of_constraintValues? hn hvalues
      refine Or.inr ⟨k, hk, rfl, ?_⟩
      rw [← divisors_quotientOf hk ha hb hc]
      exact divisors_map Except.ok _

theorem divisors_lagrangeBasis? {k : ℕ} (hk : k ≤ 28) {tau : Fr}
    (htau : vanishing (2 ^ k) tau ≠ 0) :
    (lagrangeBasis? (2 ^ k) tau).run.divisors
      = ((2 ^ k : ℕ) : Fr) :: (Fr.powersFrom 1 (Fr.root (2 ^ k)) (2 ^ k)).map (tau - ·) := by
  rw [lagrangeBasis?, if_neg htau, Fr.rootsOfUnity?_eq hk]
  refine congrArg (List.cons _) ?_
  refine (divisors_map Except.ok _).trans ((divisors_mapM _ _).trans ?_)
  exact List.map_eq_flatMap.symm

/-- No key is made at a point on the domain, and nothing is divided. -/
theorem divisors_keysOf?_of_vanishing (tables : Tables P Q) {cs : ConstraintSystem} {s : Secrets}
    (htau : vanishing (domainSize cs.numConstraints) s.tau = 0) :
    (keysOf? tables cs s).run.divisors = [] := by
  unfold keysOf? lagrangeBasis?
  dsimp only
  rw [if_pos htau]
  rfl

/-- **What key generation divides by**: nothing else, when a system is refused for its wires. -/
theorem divisors_keysOf? (tables : Tables P Q) {cs : ConstraintSystem} {s : Secrets}
    (hcount : cs.numConstraints ≤ 2 ^ 28)
    (htau : vanishing (domainSize cs.numConstraints) s.tau ≠ 0) :
    (keysOf? tables cs s).run.divisors <+: keyDivisors s (domainSize cs.numConstraints)
      ∧ (cs.WellFormed → (keysOf? tables cs s).run.divisors
        = keyDivisors s (domainSize cs.numConstraints)) := by
  obtain ⟨k, hsize, -, hle, hk⟩ := exists_domainSize_eq cs.numConstraints
  have hdivisors := divisors_lagrangeBasis? (hk hcount) (hsize ▸ htau)
  obtain ⟨basis, hbasis, hlength⟩ : ∃ basis, Polynomial.lagrangeBasis? (2 ^ k) s.tau = .ok basis
      ∧ cs.numConstraints ≤ basis.length :=
    ⟨_, lagrangeBasis?_eq (hk hcount) (hsize ▸ htau), by simpa using hle⟩
  rw [← hsize] at hbasis hdivisors
  unfold keysOf?
  dsimp only
  rw [divisors_run_bind (by rw [value_run_adapt, value_lagrangeBasis?, hbasis]; rfl),
    divisors_run_adapt, hdivisors]
  cases hpolys : wirePolynomials? cs basis with
  | error e =>
    refine ⟨(List.prefix_append_right_inj _).mpr List.nil_prefix, fun hcs => ?_⟩
    obtain ⟨polys, h⟩ := (wirePolynomials?_ok_iff hlength).mpr hcs
    rw [hpolys] at h
    cases h
  | ok polys => exact ⟨List.prefix_rfl, fun _ => rfl⟩

/-- **Keys are made without a division by zero** when two of the secrets are not zero. -/
theorem exact_keysOf? (tables : Tables P Q) {cs : ConstraintSystem} {s : Secrets}
    (hcount : cs.numConstraints ≤ 2 ^ 28) (hgamma : s.gamma ≠ 0) (hdelta : s.delta ≠ 0) :
    (keysOf? tables cs s).run.Exact := by
  by_cases htau : vanishing (domainSize cs.numConstraints) s.tau = 0
  · rw [exact_iff, divisors_keysOf?_of_vanishing tables htau]
    exact List.forall_mem_nil _
  · obtain ⟨k, hsize, -, -, hk⟩ := exists_domainSize_eq cs.numConstraints
    refine exact_of_prefix (divisors_keysOf? tables hcount htau).1 ?_
    rw [hsize] at htau ⊢
    exact ne_zero_of_mem_keyDivisors (hk hcount) htau hgamma hdelta

/-- **A quotient is found without a division by zero**, or refused before anything is divided. -/
theorem exact_quotient? {cs : ConstraintSystem} {n : ℕ} (hn : cs.numConstraints ≤ n) (w : Array Fr) :
    (quotient? cs w n).run.Exact := by
  rw [exact_iff]
  rcases divisors_quotient? hn w with ⟨-, h⟩ | ⟨k, hk, rfl, h⟩
  · rw [h]
    exact List.forall_mem_nil _
  · rw [h]
    exact ne_zero_of_mem_proofDivisors hk

theorem divisors_generate (cs : ConstraintSystem) (state : σ × TableCache P Q) :
    (generate cs state).divisors
      = (keysOf? (state.2.fetch (tableWindow cs)).1 cs
          ((Secrets.sample (domainSize cs.numConstraints)).run state.1).1).run.divisors := by
  rw [generate, divisors_bind, divisors_pure, List.append_nil]

/-- Proving divides for the quotient only. -/
theorem divisors_prove (pk : ProvingKey P Q) (primary auxiliary : List Fr) (source : σ) :
    ((∃ e, pk.system.assignment? primary auxiliary = .error e)
        ∧ (prove pk primary auxiliary source).divisors = [])
      ∨ ∃ w, pk.system.assignment? primary auxiliary = .ok w
        ∧ (prove pk primary auxiliary source).divisors
          = (quotient? pk.system w pk.domainSize).run.divisors := by
  unfold prove
  cases pk.system.assignment? primary auxiliary with
  | error e => exact Or.inl ⟨⟨e, rfl⟩, rfl⟩
  | ok w =>
    refine Or.inr ⟨w, rfl, ?_⟩
    dsimp only
    rw [divisors_bind]
    cases (quotient? pk.system w pk.domainSize).run.value <;> exact List.append_nil _

/-- Keys are made on the domain of their system. -/
theorem domain_of_generate {cs : ConstraintSystem} {state : σ × TableCache P Q}
    {pk : ProvingKey P Q} {vk : VerificationKey P Q}
    (h : (Groth16.generate cs state).1 = .ok (pk, vk)) :
    pk.system = cs ∧ pk.domainSize = domainSize cs.numConstraints
      ∧ cs.numConstraints ≤ pk.domainSize := by
  rw [Groth16.generate] at h
  obtain ⟨basis, polys, -, -, rfl, rfl⟩ := exists_of_keysOf?_eq h
  obtain ⟨k, hsize, -, hle, -⟩ := exists_domainSize_eq cs.numConstraints
  exact ⟨rfl, rfl, hle.trans_eq hsize.symm⟩

/-- **Nothing is ever divided by zero.**  The record of the divisions changes neither key generation
nor proving.  For a system with a domain and a source without zeros every division of key generation
is exact; when the point that is drawn is off the domain and all wires exist, its divisors are the size
of the domain, the distances of the point from it, and the two secrets.  For a key whose domain has a
point for every constraint, as the keys that are made have, every division of proving is exact,
whatever the inputs are; when there is a quotient its divisors are the root, the size, the divisor on
the coset, and the shift. -/
theorem divisions_exact {cs : ConstraintSystem} (hcount : cs.numConstraints ≤ 2 ^ 28) {source : σ}
    (hsource : ScalarSource.Positive source) (tables : TableCache P Q) :
    ((generate cs (source, tables)).value = Groth16.generate cs (source, tables)
        ∧ (generate cs (source, tables)).Exact
        ∧ (∀ redraws s, s.Drawn (domainSize cs.numConstraints) source redraws → cs.WellFormed →
          (generate cs (source, tables)).divisors = keyDivisors s (domainSize cs.numConstraints))
        ∧ ∀ pk vk, (Groth16.generate cs (source, tables)).1 = .ok (pk, vk) →
          pk.system = cs ∧ pk.domainSize = domainSize cs.numConstraints
            ∧ cs.numConstraints ≤ pk.domainSize)
      ∧ ∀ pk : ProvingKey P Q, pk.system = cs → cs.numConstraints ≤ pk.domainSize →
        ∀ (primary auxiliary : List Fr) (blinding : σ),
          (prove pk primary auxiliary blinding).value
              = (Groth16.prove pk primary auxiliary).run.run blinding
            ∧ (prove pk primary auxiliary blinding).Exact
            ∧ ∀ w h, cs.assignment? primary auxiliary = .ok w →
              Groth16.quotient? cs w pk.domainSize = .ok h →
              (prove pk primary auxiliary blinding).divisors = proofDivisors pk.domainSize := by
  refine ⟨⟨value_generate _ _, ?_, ?_, fun _ _ h => domain_of_generate h⟩, ?_⟩
  · obtain ⟨hgamma, hdelta⟩ := Secrets.sample_divisors source (domainSize cs.numConstraints)
    rw [exact_iff, divisors_generate, ← exact_iff]
    apply exact_keysOf? _ hcount
    · rw [hgamma]
      exact hsource.rest.rest.ne_zero
    · rw [hdelta]
      exact hsource.rest.rest.rest.ne_zero
  · intro redraws s hs hcs
    rw [divisors_generate, hs.run_sample]
    exact (divisors_keysOf? _ hcount hs.offDomain).2 hcs
  · rintro pk rfl hdomain primary auxiliary blinding
    refine ⟨value_prove _ _ _ _, ?_, fun w h hw hquotient => ?_⟩
    · rw [exact_iff]
      rcases divisors_prove pk primary auxiliary blinding with ⟨-, h⟩ | ⟨w, -, h⟩
      · rw [h]
        exact List.forall_mem_nil _
      · rw [h, ← exact_iff]
        exact exact_quotient? hdomain w
    · rcases divisors_prove pk primary auxiliary blinding with ⟨⟨e, he⟩, -⟩ | ⟨w', hw', hdivisors⟩
      · rw [he] at hw
        cases hw
      · rw [hw, Except.ok.injEq] at hw'
        subst hw'
        rw [hdivisors]
        rcases divisors_quotient? hdomain w with ⟨⟨e, he⟩, -⟩ | ⟨k, -, -, h⟩
        · rw [he] at hquotient
          cases hquotient
        · exact h

/-- The square of three, with keys whose evaluation point was on the domain at first. -/
theorem divisions_exact_square :
    squareSystem.numConstraints ≤ 2 ^ 28
      ∧ ScalarSource.Positive (Cycle.ofList [2, 3, 5, 7, 1, 11])
      ∧ (generate squareSystem (Cycle.ofList [2, 3, 5, 7, 1, 11],
          ([] : TableCache ExponentPoint ExponentPoint))).divisors = [2, 10, 12, 5, 7, 7]
      ∧ ∃ pk vk, (Groth16.generate squareSystem (Cycle.ofList [2, 3, 5, 7, 1, 11],
            ([] : TableCache ExponentPoint ExponentPoint))).1 = .ok (pk, vk)
        ∧ (prove pk [9] [3] (Cycle.ofList [13, 17])).divisors
          = [-1, 2, -1, 2, -1, 2, 24, -1, 2, 5] := by
  have hcount : squareSystem.numConstraints ≤ 2 ^ 28 := by decide
  have hpositive : ScalarSource.Positive (Cycle.ofList [2, 3, 5, 7, 1, 11]) :=
    Cycle.positive_ofList (by decide) (by decide)
  have hdrawn : Secrets.Drawn (domainSize squareSystem.numConstraints)
      (Cycle.ofList [2, 3, 5, 7, 1, 11]) 1 ⟨2, 3, 5, 7, 11⟩ := by
    refine ⟨rfl, rfl, rfl, rfl, fun j hj => ?_, rfl, vanishing_squareSystem⟩
    obtain rfl := Nat.lt_one_iff.mp hj
    change vanishing _ (1 : Fr) = 0
    rw [vanishing, one_pow, sub_self]
  have hroot : Fr.root 2 = -1 := Fr.generator_pow_half
  have hcoset : vanishing 2 Fr.generator = 24 := by
    rw [vanishing, pow_two]
    decide
  have hsize : domainSize squareSystem.numConstraints = 2 := by decide
  obtain ⟨⟨-, -, hkeys, hdomain⟩, hproofs⟩ := divisions_exact hcount hpositive
    ([] : TableCache ExponentPoint ExponentPoint)
  refine ⟨hcount, hpositive, ?_, ?_⟩
  · rw [hkeys 1 _ hdrawn (by decide), hsize, keyDivisors, hroot]
    decide
  · obtain ⟨pk, vk, hmade⟩ := exists_keysOf?_eq_ok (by decide) hcount hdrawn.offDomain
      (TableCache.fetch (tableWindow squareSystem)
        ([] : TableCache ExponentPoint ExponentPoint)).1
    have hgenerate : (Groth16.generate squareSystem (Cycle.ofList [2, 3, 5, 7, 1, 11],
        ([] : TableCache ExponentPoint ExponentPoint))).1 = .ok (pk, vk) := by
      rw [hdrawn.generate_eq]
      exact hmade
    obtain ⟨hsystem, hsize', hle⟩ := hdomain pk vk hgenerate
    obtain ⟨h, hquotient, -, -⟩ := exists_quotient?_eq (show 1 ≤ 28 by decide)
      (show squareSystem.WellFormed by decide)
      (show ([1, 9, 3] : List Fr).length = squareSystem.numVariables from rfl) (by decide)
    rw [hsize] at hsize'
    have hdivisors := (hproofs pk hsystem hle [9] [3] (Cycle.ofList [13, 17])).2.2 _ h rfl
      (by rw [hsize']; exact hquotient)
    refine ⟨pk, vk, hgenerate, hdivisors.trans ?_⟩
    rw [hsize', proofDivisors, hroot, hcoset]
    decide

end Dividing

end MerkleSnark
