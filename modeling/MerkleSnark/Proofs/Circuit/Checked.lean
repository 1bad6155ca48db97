import Mathlib
import MerkleSnark.Proofs.Circuit.Board
import MerkleSnark.Proofs.Groth16.Program

/-!
# Boards that pass their own check

The inputs that a board offers to the proof system are its wire values without the constant one, and
the search for a constraint that fails finds none when all hold.

## Main definitions

* `Constraint.Within` — a constraint mentions wires of a set only.
* `Board.Ready` — the constant wire carries one, and the public wires are there.
* `Board.constraintName` — the name by which a constraint is reported.

## Main results

* `Board.Ready.wireValues_eq`, `Board.Ready.assignment?_eq` — the inputs of the proof system are the
  wire values of the board.
* `Board.Ready.firstUnsatisfied?_eq` — the first constraint that fails is reported.
-/

namespace MerkleSnark

namespace Constraint

variable {k : Constraint} {S T : Set ℕ} {w v : ℕ → Fr}

/-- The wires of the three combinations lie in the set. -/
def Within (k : Constraint) (S : Set ℕ) : Prop := k.a.Within S ∧ k.b.Within S ∧ k.c.Within S

theorem boundedBy_iff {n : ℕ} : k.boundedBy n = true ↔ k.Within {i | i < n} := by
  simp only [boundedBy, Bool.and_eq_true, LinearCombination.boundedBy_iff, Within, and_assoc]

theorem Within.mono (h : k.Within S) (hST : S ⊆ T) : k.Within T :=
  ⟨h.1.mono hST, h.2.1.mono hST, h.2.2.mono hST⟩

/-- Nothing but the wires that a constraint mentions counts for it. -/
theorem Within.holds_iff (h : k.Within S) (hwv : ∀ i ∈ S, w i = v i) : k.Holds w ↔ k.Holds v := by
  unfold Holds
  rw [h.1.eval_eq hwv, h.2.1.eval_eq hwv, h.2.2.eval_eq hwv]

theorem within_boolean {x : LinearCombination} {label : String} (hone : oneWire ∈ S)
    (hx : x.Within S) : (boolean x label).Within S :=
  ⟨hx, (LinearCombination.Within.const hone 1).sub hx, .zero⟩

theorem holdsAt?_eq {values : Array Fr} (h : k.boundedBy values.size = true) :
    k.holdsAt? values = some (decide (k.Holds fun i => values.getD i 0)) := by
  simp only [boundedBy, Bool.and_eq_true] at h
  obtain ⟨⟨ha, hb⟩, hc⟩ := h
  unfold holdsAt? LinearCombination.evalAt?
  rw [if_pos ha, if_pos hb, if_pos hc]
  rfl

end Constraint

/-- The search finds the first constraint that fails. -/
theorem ConstraintSystem.firstFailing?_eq {values : Array Fr} {ks : List Constraint} (i : ℕ)
    (hbounded : ∀ k ∈ ks, k.boundedBy values.size = true) :
    firstFailing? values i ks
      = .ok ((ks.findIdx? fun k => !decide (k.Holds fun i => values.getD i 0)).map (· + i)) := by
  induction ks generalizing i with
  | nil => rfl
  | cons k ks ih =>
    rw [List.forall_mem_cons] at hbounded
    rw [firstFailing?, Constraint.holdsAt?_eq hbounded.1, List.findIdx?_cons]
    by_cases hk : k.Holds fun i => values.getD i 0
    · have hshift : (fun j => j + 1 + i) = fun j => j + (i + 1) := funext fun j => by omega
      simp only [hk, decide_true, Bool.not_true, Bool.false_eq_true, if_false, Option.map_map,
        Function.comp_def, hshift]
      exact ih (i + 1) hbounded.2
    · simp only [hk, decide_false, Bool.not_false, if_true, Option.map_some, Nat.zero_add]

namespace Board

variable {board : Board}

/-- The constant wire carries one, and all wires that are declared to be public are there. -/
structure Ready (board : Board) : Prop where
  one_eq : board.valueAt oneWire = 1
  primarySize_lt : board.primarySize < board.values.size

theorem Ready.toList_values (h : board.Ready) :
    1 :: (board.primaryInput ++ board.auxiliaryInput) = board.values.toList := by
  obtain ⟨hone, hlt⟩ := h
  unfold primaryInput auxiliaryInput
  rw [Array.toList_extract, Array.toList_extract, ← Array.length_toList]
  rw [← Array.length_toList] at hlt
  rw [valueAt, Array.getD_eq_getD_getElem?, ← Array.getElem?_toList, oneWire] at hone
  cases hvalues : board.values.toList with
  | nil => simp [hvalues] at hlt
  | cons x rest =>
    rw [hvalues] at hone hlt
    have hx : x = 1 := hone
    have hall : (rest.drop board.primarySize).take (rest.length - board.primarySize)
        = rest.drop board.primarySize :=
      List.take_of_length_le (List.length_drop).le
    simp [List.extract_eq_take_drop, hx, hall]

/-- The inputs for the proof system are the wire values of the board. -/
theorem Ready.wireValues_eq (h : board.Ready) :
    Groth16.wireValues (1 :: (board.primaryInput ++ board.auxiliaryInput)) = board.valueAt := by
  funext i
  rw [h.toList_values]
  simp [Groth16.wireValues, valueAt, Array.getD_eq_getD_getElem?, List.getD_eq_getElem?_getD]

theorem Ready.length_primaryInput (h : board.Ready) :
    board.primaryInput.length = board.system.primarySize := by
  have hlt := h.primarySize_lt
  simp [primaryInput, system]
  omega

theorem Ready.length_auxiliaryInput (h : board.Ready) :
    board.auxiliaryInput.length = board.system.auxiliarySize := by
  have hlt := h.primarySize_lt
  simp [auxiliaryInput, system, numVariables]
  omega

/-- The public inputs are the values of the first wires behind the constant one. -/
theorem primaryInput_eq_map (h : board.primarySize < board.values.size) :
    board.primaryInput = (List.range' 1 board.primarySize).map board.valueAt := by
  refine List.ext_getElem ?_ fun i hi hi' => ?_
  · simp [primaryInput]
    omega
  · rw [List.length_map, List.length_range'] at hi'
    have hlt : 1 + i < board.values.size := by omega
    simp only [primaryInput, Array.getElem_toList, Array.getElem_extract, List.getElem_map,
      List.getElem_range', one_mul, valueAt, Array.getD_eq_getD_getElem?,
      Array.getElem?_eq_getElem hlt, Option.getD_some]

theorem numVariables_system (h : board.primarySize < board.values.size) :
    board.system.numVariables = board.values.size := by
  simp [system, numVariables, ConstraintSystem.numVariables]
  omega

theorem Ready.numVariables_eq (h : board.Ready) :
    board.system.numVariables = board.values.size :=
  numVariables_system h.primarySize_lt

/-- The wire values that a board offers to the proof system are its own. -/
theorem Ready.assignment?_eq (h : board.Ready) :
    board.system.assignment? board.primaryInput board.auxiliaryInput = .ok board.values := by
  rw [ConstraintSystem.assignment?, if_neg (not_not.mpr h.length_primaryInput),
    if_neg (not_not.mpr h.length_auxiliaryInput), h.toList_values]

/-- The name of the constraint with the number `i`. -/
def constraintName (board : Board) (i : ℕ) : String :=
  let label := (board.constraints.getD i default).label
  if label.isEmpty then s!"constraint #{i}" else label

/-- **The first constraint that fails is reported.** -/
theorem Ready.firstUnsatisfied?_eq (h : board.Ready) (hwell : board.system.WellFormed) :
    board.firstUnsatisfied? = .ok ((board.constraints.toList.findIdx? fun k =>
      !decide (k.Holds board.valueAt)).map board.constraintName) := by
  have hbounded : ∀ k ∈ board.system.constraints, k.boundedBy board.values.size = true := by
    intro k hk
    rw [← h.numVariables_eq]
    exact hwell k hk
  have hsearch : board.system.firstUnsatisfied? board.primaryInput board.auxiliaryInput
      = .ok (board.constraints.toList.findIdx? fun k => !decide (k.Holds board.valueAt)) := by
    rw [ConstraintSystem.firstUnsatisfied?, h.assignment?_eq]
    refine (ConstraintSystem.firstFailing?_eq 0 hbounded).trans ?_
    exact congrArg Except.ok Option.map_id'
  rw [firstUnsatisfied?, hsearch]
  cases board.constraints.toList.findIdx? fun k => !decide (k.Holds board.valueAt) <;> rfl

/-- **No constraint is reported** when all of them hold. -/
theorem Ready.firstUnsatisfied?_eq_none (h : board.Ready) (hwell : board.system.WellFormed)
    (hholds : ∀ k ∈ board.constraints, k.Holds board.valueAt) :
    board.firstUnsatisfied? = .ok none := by
  rw [h.firstUnsatisfied?_eq hwell, List.findIdx?_eq_none_iff.mpr fun k hk => by
    rw [decide_eq_true (hholds k (Array.mem_toList_iff.mp hk)), Bool.not_true]]
  rfl

end Board

end MerkleSnark
