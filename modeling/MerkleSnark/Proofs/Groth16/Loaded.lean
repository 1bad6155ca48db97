import Mathlib
import MerkleSnark.Proofs.Codec.Acceptance
import MerkleSnark.Proofs.Codec.RoundTrip

/-!
# Proving with a key that was loaded

A loader checks the lengths of the lists of a proving key and the wires of its system, and nothing
about how the key was made.  These checks suffice for every step of the prover: also with points
that no key generation makes, on a domain of one point, and without constraints or private inputs,
only inputs of the wrong number are refused.

## Main definitions

* `runProve` — a run of the prover on inputs as a caller gives them.

## Main results

* `ProvingKey.Spells.fits` — a key that is spelled fits its system.
* `ProvingKey.Fits.refuses_or_passes` — what a key that fits its system does with inputs.
* `prove_of_decode` — **a loaded key refuses nothing but inputs of the wrong number**.
-/

namespace MerkleSnark

/-! ### Systems that are spelled -/

theorem LinearCombination.Spells.boundedBy {n : ℕ} {bs : Bytes} {x : LinearCombination}
    (h : x.Spells n bs) : x.boundedBy n = true := by
  obtain ⟨hterms⟩ := h
  refine boundedBy_ofTerms (hterms.forall_mem fun bs t ht => ?_)
  obtain ⟨-, hlt, -⟩ := ht
  exact hlt

theorem Constraint.Spells.boundedBy {n : ℕ} {bs : Bytes} {k : Constraint} (h : k.Spells n bs) :
    k.boundedBy n = true := by
  obtain ⟨ha, hb, hc⟩ := h
  rw [Constraint.boundedBy, ha.boundedBy, hb.boundedBy, hc.boundedBy]
  rfl

/-- A system that is spelled mentions existing wires only. -/
theorem ConstraintSystem.Spells.wellFormed {bs : Bytes} {cs : ConstraintSystem}
    (h : cs.Spells bs) : cs.WellFormed := by
  obtain ⟨-, -, hconstraints⟩ := h
  exact hconstraints.forall_mem fun bs k hk => hk.boundedBy

namespace Groth16

open PointGroup

/-- **A key that is spelled fits its system**, unless its domain is too large to have a root of
unity. -/
theorem ProvingKey.Spells.fits {bs : Bytes} {pk : ProvingKey G1 G2} (h : pk.Spells bs)
    (hmax : pk.domainSize ≤ 2 ^ 28) : pk.Fits := by
  obtain ⟨hsystem, -, ⟨k, hk⟩, hle, -, -, -, -, -, -, -, -, -, -, halen, hblen, hbTwistlen, hhlen,
    hllen⟩ := h
  exact
    { wellFormed := hsystem.wellFormed
      power := ⟨k, (Nat.pow_le_pow_iff_right (by decide)).mp (hk ▸ hmax), hk⟩
      numConstraints_le := hle
      aQuery := halen
      bQuery := hblen
      bTwistQuery := hbTwistlen
      hQuery := hhlen
      lQuery := hllen }

/-! ### The prover -/

variable {σ : Type} [ScalarSource σ]

/-- A run of the prover on inputs as a caller gives them. -/
def runProve (pk : ProvingKey G1 G2) (primary auxiliary : List ScalarInput) (source : σ) :
    Except ProveError (Proof G1 G2) × σ :=
  (prove pk (primary.map ScalarInput.toFr) (auxiliary.map ScalarInput.toFr)).run.run source

/-- Inputs of the wrong number are refused, and the error names the list that is to blame. -/
theorem exists_assignment?_eq_error {cs : ConstraintSystem} {primary auxiliary : List Fr}
    (h : primary.length ≠ cs.primarySize ∨ auxiliary.length ≠ cs.auxiliarySize) :
    ∃ cause, cs.assignment? primary auxiliary = .error cause
      ∧ (cause = .primaryCount cs.primarySize primary.length
        ∨ cause = .auxiliaryCount cs.auxiliarySize auxiliary.length) := by
  rw [ConstraintSystem.assignment?]
  by_cases hprimary : primary.length = cs.primarySize
  · rw [if_neg (not_not.mpr hprimary), if_pos (h.resolve_left (not_not.mpr hprimary))]
    exact ⟨_, rfl, .inr rfl⟩
  · rw [if_pos hprimary]
    exact ⟨_, rfl, .inl rfl⟩

/-- With a key that fits its system, inputs of the wrong number are refused before anything is
drawn, and all others pass. -/
theorem ProvingKey.Fits.refuses_or_passes {pk : ProvingKey G1 G2} (hpk : pk.Fits)
    (primary auxiliary : List ScalarInput) (source : σ) :
    (∃ cause, runProve pk primary auxiliary source = (.error (.program (.assignment cause)), source)
      ∧ (primary.length ≠ pk.system.primarySize ∨ auxiliary.length ≠ pk.system.auxiliarySize)
      ∧ (cause = .primaryCount pk.system.primarySize primary.length
        ∨ cause = .auxiliaryCount pk.system.auxiliarySize auxiliary.length))
    ∨ primary.length = pk.system.primarySize ∧ auxiliary.length = pk.system.auxiliarySize
      ∧ ∃ w values h proof, pk.Passes (primary.map ScalarInput.toFr)
        (auxiliary.map ScalarInput.toFr) source w values h proof := by
  have hprimaryLen : (primary.map ScalarInput.toFr).length = primary.length := List.length_map _
  have hauxiliaryLen : (auxiliary.map ScalarInput.toFr).length = auxiliary.length :=
    List.length_map _
  by_cases hlen : primary.length ≠ pk.system.primarySize
    ∨ auxiliary.length ≠ pk.system.auxiliarySize
  · left
    have hmapped := hlen
    rw [← hprimaryLen, ← hauxiliaryLen] at hmapped
    obtain ⟨cause, hassignment, hcause⟩ := exists_assignment?_eq_error hmapped
    rw [hprimaryLen, hauxiliaryLen] at hcause
    exact ⟨cause, run_prove_of_misfit hassignment source, hlen, hcause⟩
  · right
    obtain ⟨hprimary, hauxiliary⟩ := not_or.mp hlen
    rw [not_not] at hprimary hauxiliary
    exact ⟨hprimary, hauxiliary, hpk.exists_passes (hprimaryLen.trans hprimary)
      (hauxiliaryLen.trans hauxiliary) source⟩

/-- **A loaded key refuses nothing but inputs of the wrong number.**  Then nothing is drawn, and the
error names the list; otherwise two scalars are drawn, the first one for the first point of the
proof, and there is a proof. -/
theorem prove_of_decode {bytes : Bytes} {pk : ProvingKey G1 G2}
    (hdecode : ProvingKey.decode bytes = .ok pk) (hmax : pk.domainSize ≤ 2 ^ 28)
    (primary auxiliary : List ScalarInput) (source : σ) :
    ((∃ e, (runProve pk primary auxiliary source).1 = .error e)
        ↔ primary.length ≠ pk.system.primarySize ∨ auxiliary.length ≠ pk.system.auxiliarySize)
      ∧ (∀ e, (runProve pk primary auxiliary source).1 = .error e →
          (runProve pk primary auxiliary source).2 = source
            ∧ (e = .program (.assignment (.primaryCount pk.system.primarySize primary.length))
              ∨ e = .program (.assignment
                  (.auxiliaryCount pk.system.auxiliarySize auxiliary.length))))
      ∧ (primary.length = pk.system.primarySize → auxiliary.length = pk.system.auxiliarySize →
          ∃ w values h proof, pk.Passes (primary.map ScalarInput.toFr)
            (auxiliary.map ScalarInput.toFr) source w values h proof) := by
  have hfits : pk.Fits := (ProvingKey.decode_eq_ok_iff.mp hdecode).fits hmax
  rcases hfits.refuses_or_passes primary auxiliary source with
    ⟨cause, hrun, hlen, hcause⟩ | ⟨hprimary, hauxiliary, hpasses⟩
  · rw [hrun]
    refine ⟨iff_of_true ⟨_, rfl⟩ hlen, fun e he => ?_, fun hprimary hauxiliary => ?_⟩
    · obtain rfl : ProveError.program (.assignment cause) = e := Except.error.inj he
      refine ⟨rfl, hcause.imp (fun h => ?_) fun h => ?_⟩ <;> rw [h]
    · exact absurd hlen (not_or.mpr ⟨not_not.mpr hprimary, not_not.mpr hauxiliary⟩)
  · have ⟨_, _, _, proof, h⟩ := hpasses
    have hrun : (runProve pk primary auxiliary source).1 = .ok proof := congrArg Prod.fst h.run
    rw [hrun]
    refine ⟨iff_of_false (fun ⟨e, he⟩ => nomatch he) ?_, nofun, fun _ _ => hpasses⟩
    exact not_or.mpr ⟨not_not.mpr hprimary, not_not.mpr hauxiliary⟩

/-- A key for one public input and no private one, without constraints, on a domain of one point. -/
def emptyKey : ProvingKey G1 G2 where
  system := { primarySize := 1, auxiliarySize := 0 }
  domainSize := 1
  alpha := .infinity
  beta := .infinity
  betaTwist := .infinity
  delta := .infinity
  deltaTwist := .infinity
  aQuery := [.infinity, .infinity]
  bQuery := [.infinity, .infinity]
  bTwistQuery := [.infinity, .infinity]
  hQuery := []
  lQuery := []

/-- A point at infinity whose coordinates are filled with threes. -/
def filledInfinity (count : ℕ) : Bytes := infinityFlag :: List.replicate count 3

/-- Two such points, counted. -/
def filledPair (count : ℕ) : Bytes :=
  [0, 0, 0, 2] ++ [filledInfinity count, filledInfinity count].flatten

/-- Bytes of the key. -/
def emptyKeyBytes : Bytes :=
  Spells.header 1 ++ ([0, 0, 0, 1] ++ [0, 0, 0, 0] ++ ([0, 0, 0, 0] ++ [])) ++ [0, 0, 0, 1]
    ++ filledInfinity 64 ++ filledInfinity 64 ++ filledInfinity 128 ++ filledInfinity 64
    ++ filledInfinity 128 ++ filledPair 64 ++ filledPair 64 ++ filledPair 128
    ++ ([0, 0, 0, 0] ++ []) ++ ([0, 0, 0, 0] ++ [])

theorem decode_emptyKeyBytes : ProvingKey.decode emptyKeyBytes = .ok emptyKey := by
  have hfirst : G1.Spells (filledInfinity 64) .infinity := G1.spells_infinity 3
  have hsecond : G2.Spells (filledInfinity 128) .infinity := G2.spells_infinity 3
  have hnone {α : Type} {item : Bytes → α → Prop} :
      Spells.counted item ([0, 0, 0, 0] ++ []) ([] : List α) :=
    .mk ⟨rfl, rfl⟩ ⟨[], rfl, .nil⟩
  have hfirsts : Spells.counted G1.Spells (filledPair 64) [.infinity, .infinity] :=
    .mk ⟨rfl, rfl⟩ ⟨_, rfl, .cons hfirst (.cons hfirst .nil)⟩
  have hseconds : Spells.counted G2.Spells (filledPair 128) [.infinity, .infinity] :=
    .mk ⟨rfl, rfl⟩ ⟨_, rfl, .cons hsecond (.cons hsecond .nil)⟩
  have hsystem : emptyKey.system.Spells
      ([0, 0, 0, 1] ++ [0, 0, 0, 0] ++ ([0, 0, 0, 0] ++ [])) := .mk ⟨rfl, rfl⟩ ⟨rfl, rfl⟩ hnone
  have hspells : emptyKey.Spells emptyKeyBytes :=
    .mk hsystem ⟨rfl, rfl⟩ ⟨0, rfl⟩ (Nat.zero_le _) hfirst hfirst hsecond hfirst hsecond hfirsts
      hfirsts hseconds hnone hnone rfl rfl rfl rfl rfl
  exact ProvingKey.decode_eq_ok_iff.mpr hspells

/-- A key whose one constraint says that the public input is the square of the private one.  No
point is at infinity. -/
def squareKey : ProvingKey G1 G2 where
  system := squareSystem
  domainSize := 2
  alpha := G1.base
  beta := G1.base
  betaTwist := G2.base
  delta := G1.base
  deltaTwist := G2.base
  aQuery := List.replicate 3 G1.base
  bQuery := List.replicate 3 G1.base
  bTwistQuery := List.replicate 3 G2.base
  hQuery := List.replicate 1 G1.base
  lQuery := List.replicate 1 G1.base

theorem wellFormed_squareKey : squareKey.WellFormed := by
  have hfirst {n : ℕ} : ∀ p ∈ List.replicate n G1.base, p.OnCurve G1.coefficient :=
    List.forall_mem_replicate.mpr (.inr G1.onCurve_base)
  have hsecond {n : ℕ} : ∀ q ∈ List.replicate n G2.base, q.OnCurve G2.coefficient :=
    List.forall_mem_replicate.mpr (.inr G2.onCurve_base)
  exact
    { system := writable_squareSystem
      domainSize_lt := by decide
      power := ⟨1, rfl⟩
      numConstraints_le := by decide
      alpha := G1.onCurve_base
      beta := G1.onCurve_base
      betaTwist := G2.onCurve_base
      delta := G1.onCurve_base
      deltaTwist := G2.onCurve_base
      aQuery := hfirst
      bQuery := hfirst
      bTwistQuery := hsecond
      hQuery := hfirst
      lQuery := hfirst
      length_aQuery := rfl
      length_bQuery := rfl
      length_bTwistQuery := rfl
      length_hQuery := rfl
      length_lQuery := rfl }

/-- Bytes of either key, and runs of the prover with it: one leaves the third scalar for others, one
is refused. -/
theorem prove_of_decode_smallKeys :
    (ProvingKey.decode emptyKeyBytes = .ok emptyKey ∧ emptyKey.domainSize ≤ 2 ^ 28
      ∧ (∃ proof, runProve emptyKey [.integer (-1)] [] (Cycle.ofList [13, 17, 19])
          = (.ok proof, ⟨[13, 17, 19], [19]⟩))
      ∧ (runProve emptyKey [.integer 1, .element 1] [] (Cycle.ofList [13, 17, 19])).2
          = Cycle.ofList [13, 17, 19]
      ∧ ∃ e, (runProve emptyKey [.integer 1, .element 1] [] (Cycle.ofList [13, 17, 19])).1
          = .error e)
    ∧ ∃ bytes, squareKey.encode = .ok bytes ∧ ProvingKey.decode bytes = .ok squareKey.normal
      ∧ squareKey.normal.domainSize ≤ 2 ^ 28 ∧ squareKey.normal.system.numConstraints = 1
      ∧ squareKey.normal.alpha = G1.base
      ∧ (∃ proof, runProve squareKey.normal [.integer 9] [.element 3] (Cycle.ofList [13, 17, 19])
          = (.ok proof, ⟨[13, 17, 19], [19]⟩))
      ∧ (runProve squareKey.normal [.integer 9] [] (Cycle.ofList [13, 17, 19])).2
          = Cycle.ofList [13, 17, 19]
      ∧ ∃ e, (runProve squareKey.normal [.integer 9] [] (Cycle.ofList [13, 17, 19])).1
          = .error e := by
  constructor
  · have hmax : emptyKey.domainSize ≤ 2 ^ 28 := by decide
    obtain ⟨-, -, hpasses⟩ := prove_of_decode decode_emptyKeyBytes hmax [.integer (-1)] []
      (Cycle.ofList [13, 17, 19])
    obtain ⟨_, _, _, proof, h⟩ := hpasses rfl rfl
    obtain ⟨hrefused, hundrawn, -⟩ := prove_of_decode decode_emptyKeyBytes hmax
      [.integer 1, .element 1] [] (Cycle.ofList [13, 17, 19])
    obtain ⟨e, he⟩ := hrefused.mpr (.inl (by decide))
    exact ⟨decode_emptyKeyBytes, hmax, ⟨proof, h.run⟩, (hundrawn e he).1, e, he⟩
  · obtain ⟨bytes, hencode, hspells⟩ := wellFormed_squareKey.exists_encode_eq
    have hdecode : ProvingKey.decode bytes = .ok squareKey.normal :=
      ProvingKey.decode_eq_ok_iff.mpr hspells
    have hfinite : squareKey.normal.alpha = G1.base := Point.normal_ofAffine (1 : Fq) 2
    have hmax : squareKey.normal.domainSize ≤ 2 ^ 28 := by decide
    obtain ⟨-, -, hpasses⟩ := prove_of_decode hdecode hmax [.integer 9] [.element 3]
      (Cycle.ofList [13, 17, 19])
    obtain ⟨_, _, _, proof, h⟩ := hpasses rfl rfl
    obtain ⟨hrefused, hundrawn, -⟩ := prove_of_decode hdecode hmax [.integer 9] []
      (Cycle.ofList [13, 17, 19])
    obtain ⟨e, he⟩ := hrefused.mpr (.inr (by decide))
    exact ⟨bytes, hencode, hdecode, hmax, rfl, hfinite, ⟨proof, h.run⟩, (hundrawn e he).1, e, he⟩

end Groth16

end MerkleSnark
