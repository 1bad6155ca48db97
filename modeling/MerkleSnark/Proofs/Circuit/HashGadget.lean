import Mathlib
import MerkleSnark.Circuit.Registry
import MerkleSnark.Proofs.Circuit.Digest

/-!
# Sound hash gadgets

What a circuit that is built from hash gadgets may rely on: placing a gadget leaves the public
inputs alone, and its constraints force the output digest to carry the hash of the input digests
whenever these carry bits.  Nothing is said about the inner wires.

## Main definitions

* `PlacedGadget.Forces` — the constraints of a placed gadget compute a function on bits.
* `HashGadget.Sound` — every gadget that is placed does.

## Main results

* `XorGadget.sound` — the toy gadget is sound for the function it is named for.
-/

namespace MerkleSnark

/-- The gadget adds constraints only, and they force the output to carry the hash of the inputs. -/
def PlacedGadget.Forces (placed : PlacedGadget) (hash : List Bool → List Bool → List Bool)
    (left right output : Digest) : Prop :=
  ∃ ks, BoardM.Emits placed.constrain ks ∧
    ∀ w : ℕ → Fr, w oneWire = 1 → (∀ k ∈ ks, k.Holds w) →
      ∀ l r, left.Carries w l → right.Carries w r → output.Carries w (hash l r)

/-- Gadgets placed between digests of the right size compute the hash. -/
structure HashGadget.Sound (gadget : HashGadget) (hash : List Bool → List Bool → List Bool) :
    Prop where
  /-- The constraints force the hash. -/
  forces : ∀ {left right output : Digest} {label : String} {board board' : Board}
    {placed : PlacedGadget}, left.size = gadget.digestSize → right.size = gadget.digestSize →
      output.size = gadget.digestSize →
        (gadget.place left right output label).run board = (.ok placed, board') →
          placed.Forces hash left right output
  /-- The public inputs stay the same. -/
  primarySize_eq : ∀ {left right output : Digest} {label : String} {board board' : Board}
    {placed : PlacedGadget},
      (gadget.place left right output label).run board = (.ok placed, board') →
        board'.primarySize = board.primarySize

namespace XorGadget

open LinearCombination

/-- The exclusive or of bits with rotated bits. -/
def hash (size rotation : ℕ) (l r : List Bool) : List Bool :=
  (List.range size).map fun i => l.getD i false ^^ r.getD ((i + rotation) % size) false

theorem eq_of_holds_bitConstraint {w : ℕ → Fr} {label : String} {i l r o : ℕ} {a b : Bool}
    (h : (bitConstraint label i l r o).Holds w) (hl : w l = bitScalar a) (hr : w r = bitScalar b) :
    w o = bitScalar (a ^^ b) := by
  unfold bitConstraint Constraint.Holds at h
  rw [eval_scale, eval_sub, eval_sub, eval_var, eval_var, eval_var, hl, hr] at h
  have ho : w o = bitScalar a + bitScalar b - (1 + 1) * bitScalar a * bitScalar b := by
    linear_combination -h
  rw [ho]
  cases a <;> cases b <;> decide

theorem forces_placed {size rotation : ℕ} {left right output : Digest} (hleft : left.size = size)
    (hright : right.size = size) (houtput : output.size = size) (label : String) :
    (placed size rotation left right output label).Forces (hash size rotation) left right
      output := by
  have hemits : BoardM.Emits (placed size rotation left right output label).constrain
      ((List.range size).flatMap fun i => [bitConstraint label i (left.first + i)
        (right.first + (i + rotation) % size) (output.first + i)]) := by
    refine BoardM.Emits.forM fun i hi => ?_
    have hi := List.mem_range.mp hi
    have hmod : (i + rotation) % size < size := Nat.mod_lt _ (by omega)
    have hwires : wires size rotation left right output i
        = pure (left.first + i, right.first + (i + rotation) % size, output.first + i) := by
      unfold wires Digest.wire?
      rw [if_pos (by omega), if_pos (by omega), if_pos (by omega)]
    rw [hwires, pure_bind]
    exact BoardM.emits_addConstraint _
  refine ⟨_, hemits, fun w _ hks l r hl hr => Digest.carries_iff.mpr ⟨?_, fun i hi => ?_⟩⟩
  · unfold hash
    rw [List.length_map, List.length_range, houtput]
  · rw [houtput] at hi
    have hmod : (i + rotation) % size < size := Nat.mod_lt _ (by omega)
    have hholds := hks _ (List.mem_flatMap.mpr ⟨i, List.mem_range.mpr hi, List.mem_singleton_self _⟩)
    have hbit := eq_of_holds_bitConstraint hholds
      ((Digest.carries_iff.mp hl).2 i (by omega))
      ((Digest.carries_iff.mp hr).2 ((i + rotation) % size) (by omega))
    have hentry : (hash size rotation l r).getD i false
        = (l.getD i false ^^ r.getD ((i + rotation) % size) false) := by
      unfold hash
      rw [List.getD_eq_getElem?_getD, List.getElem?_map, List.getElem?_range hi]
      rfl
    rw [hbit, hentry]

/-- **The toy gadget is sound.** -/
theorem sound (size rotation : ℕ) : (gadget size rotation).Sound (hash size rotation) where
  forces := by
    intro left right output label board board' p hleft hright houtput hrun
    obtain ⟨hplaced, -⟩ := Prod.mk.inj hrun
    rw [← Except.ok.inj hplaced]
    exact forces_placed hleft hright houtput label
  primarySize_eq := by
    intro left right output label board board' p hrun
    obtain ⟨-, hboard⟩ := Prod.mk.inj hrun
    rw [← hboard]

end XorGadget

end MerkleSnark
