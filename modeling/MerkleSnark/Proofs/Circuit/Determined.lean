import Mathlib
import MerkleSnark.Proofs.Circuit.Sha256Complete

/-!
# No wire of a gadget is left open

The witness of the SHA-256 gadget has no slack: every wire that the circuit allocates is written by
one of its steps, products and packed sums determine what they write, and the digits of a sum are too
few to spell two numbers of the same class.

## Main definitions

* `PlacedGadget.Determines` — the constraints of a gadget leave no choice for its wires.
* `HashGadget.Deterministic` — every gadget that is placed does.

## Main results

* `Sha256Gadget.deterministic` — the SHA-256 gadget.
-/

namespace MerkleSnark

/-- The constraints of the gadget leave no choice: when the inputs carry bits, so does the output, and
values that agree on the inputs agree on the output and on the inner wires. -/
def PlacedGadget.Determines (placed : PlacedGadget) (left right output : Digest) (inner : Set ℕ) :
    Prop :=
  ∃ ks, BoardM.Emits placed.constrain ks ∧ ∀ w v : ℕ → Fr, w oneWire = 1 → v oneWire = 1 →
    (∀ k ∈ ks, k.Holds w ∧ k.Holds v) → (∀ i ∈ left.span ∪ right.span, v i = w i) →
      ∀ l r, left.Carries w l → right.Carries w r →
        (∃ out, output.Carries w out) ∧ ∀ i ∈ output.span ∪ inner, v i = w i

/-- Wherever the gadget is placed, its constraints leave no choice for its wires. -/
def HashGadget.Deterministic (gadget : HashGadget) : Prop :=
  ∀ (left right output : Digest) (inner : Set ℕ) (placed : PlacedGadget),
    gadget.Places left right output inner placed → placed.Determines left right output inner

/-- Values with which a digest carries the same bits agree on its wires. -/
theorem Digest.Carries.eq_of_carries {d : Digest} {w v : ℕ → Fr} {bits : List Bool}
    (hw : d.Carries w bits) (hv : d.Carries v bits) : ∀ i ∈ d.span, v i = w i := fun i hi =>
  List.map_inj_left.mp (hv.trans hw.symm) i (mem_wires_iff.mpr hi)

namespace Sha256Gadget

variable {left right output : Digest} {label : String} {wires : ℕ} {d : Draft}

/-- The recorded steps leave no choice for the wires of the draft. -/
theorem determines_ofSteps (h : gadget.Layout left right output wires)
    (hd : ((draft left right output label).run { next := wires }).2 = d) :
    (ofSteps label d.steps.toList).Determines left right output
      (Set.Ico wires (wires + d.labels.size)) := by
  have hlayout := layout_of_layout h
  obtain ⟨hleft, hright, houtput⟩ := hlayout.size_eq
  have hready := hlayout.ready_inputs hd
  refine ⟨_, emits_ofSteps label d.steps.toList, fun w v hone hone' hks hwv l r hl hr => ?_⟩
  have hw : ∀ s ∈ d.steps.toList, s.Holds w := fun s hs k hk =>
    (hks k (List.mem_flatMap.mpr ⟨s, hs, hk⟩)).1
  have hv : ∀ s ∈ d.steps.toList, s.Holds v := fun s hs k hk =>
    (hks k (List.mem_flatMap.mpr ⟨s, hs, hk⟩)).2
  have hout := carries_hash hd hleft hright houtput hone hw hl hr
  have hout' := carries_hash hd hleft hright houtput hone' hv
    (hl.congr fun i hi => hwv i (Or.inl hi)) (hr.congr fun i hi => hwv i (Or.inr hi))
  refine ⟨⟨_, hout⟩, ?_⟩
  rintro i (hi | ⟨hge, hlt⟩)
  · exact hout.eq_of_carries hout' i hi
  · -- a wire of the draft is not one of the inputs, so one of the steps writes it
    have hknown := (hready.covered i hge (hlt.trans_eq hready.next_eq.symm)).resolve_left (by simp)
    apply hready.computable.eq_of_holds hone hw hv _ i hknown
    rintro j (rfl | hj | hj)
    · rw [hone, hone']
    · exact hwv j (Or.inl (Digest.mem_wires_iff.mp hj))
    · exact hwv j (Or.inr (Digest.mem_wires_iff.mp hj))

/-- **The gadget leaves no wire open.** -/
theorem deterministic : gadget.Deterministic := by
  rintro left right output inner placed ⟨label, board, board', h, hplace, rfl⟩
  obtain ⟨hleft, hright, houtput⟩ := (layout_of_layout h).size_eq
  obtain ⟨d, labels, hd, hrun⟩ := exists_run_place hleft hright houtput label board
  obtain ⟨hok, rfl⟩ := Prod.mk.inj (hrun.symm.trans hplace)
  obtain rfl := Except.ok.inj hok
  rw [Array.size_append, Array.size_replicate]
  exact determines_ofSteps h hd

end Sha256Gadget

end MerkleSnark
