import Mathlib
import MerkleSnark.Proofs.Merkle.Witness
import MerkleSnark.Workflow.Phase

/-!
# What proving computes

The circuit of a complete gadget can be laid out at every depth, always the same one, and whatever
the leaf digests are, the wires that are computed on its board satisfy the constraint system that is
there.  The public inputs are the bits of the root, and these are read back from its text.

## Main definitions

* `Workflow.Assignable` — a circuit whose wires can be computed on a board.

## Main results

* `Workflow.exists_circuitOf_eq` — the circuit of a gadget and a depth.
* `Workflow.readRoot_eq` — the bits of a root are read back from the text.
-/

namespace MerkleSnark

open MerkleCircuit

namespace Board

/-- The wire values satisfy the constraint system of the board. -/
theorem Ready.satisfied {board : Board} (h : board.Ready)
    (hholds : ∀ k ∈ board.constraints, k.Holds board.valueAt) :
    board.system.Satisfied
      (Groth16.wireValues (1 :: (board.primaryInput ++ board.auxiliaryInput))) := by
  rw [h.wireValues_eq]
  exact fun k hk => hholds k (Array.mem_toList_iff.mp hk)

/-- What has other values on the same wires has the same constraint system. -/
theorem Rewrites.system_eq {board board' : Board} {S : Set ℕ} (h : board.Rewrites board' S) :
    board'.system = board.system := by
  unfold system numVariables
  rw [h.size_eq, h.rest]

end Board

namespace Workflow

variable {gadget : HashGadget} {hash : List Bool → List Bool → List Bool} {depth : ℕ}

/-- From digests for all leaves, the wires of a circuit are computed on the board, which keeps its
constraint system, and the public digest becomes that of the root. -/
def Assignable (gadget : HashGadget) (hash : List Bool → List Bool → List Bool) (depth : ℕ)
    (circuit : MerkleCircuit) (board : Board) : Prop :=
  ∀ digests : List (List Bool), digests.length = 2 ^ depth →
    (∀ bits ∈ digests, bits.length = gadget.digestSize) →
    ∃ final : Board, witness circuit board (digests.map bitEntries)
        = .ok (bitsToHex? (bitEntries (treeRoot hash depth digests)), final)
      ∧ final.system = board.system
      ∧ circuit.Witnessed gadget (treeRoot hash depth digests) final

/-- **The circuit of a gadget and a depth** is laid out, and its wires can be computed. -/
theorem exists_circuitOf_eq (hgadget : gadget.Complete hash) (hdepth : 0 < depth) :
    ∃ circuit board, circuitOf gadget depth = .ok (circuit, board)
      ∧ Assignable gadget hash depth circuit board := by
  obtain ⟨c, board, hbuild, hc⟩ := exists_build hgadget (show (1 : ℤ) ≤ depth by omega)
  rw [Int.toNat_natCast] at hc
  obtain ⟨ks, hconstrain, hasks⟩ := hc.exists_constrain
  refine ⟨{ c with constrained := true },
    { board with constraints := board.constraints ++ ks.toArray }, ?_, ?_⟩
  · have hrun := (BoardM.run_bind_ok hbuild fun c => c.constrain).trans (hconstrain board)
    unfold circuitOf
    rw [hrun]
  · intro digests hcount hbits
    have hsize : ({ board with constraints := board.constraints ++ ks.toArray } : Board).values.size
        = board.values.size := rfl
    obtain ⟨final, hassign, hrewrites, -, hroot, hpublic, hholds⟩ :=
      hc.exists_assign hsize hc.one_eq hcount hbits
    have hwitnessed : c.Witnessed gadget (treeRoot hash depth digests) final := by
      apply hc.witnessed _ _ hrewrites.size_eq hroot hpublic _ hholds
      · rw [hrewrites.valueAt_eq oneWire fun hne => hne rfl]
        exact hc.one_eq
      · rw [hrewrites.rest]
      · rw [hrewrites.rest]
        simpa [hc.constraints_eq] using fun k hk => (hasks k).mp hk
    refine ⟨final, ?_, hrewrites.system_eq, hwitnessed.markConstrained⟩
    -- neither computation looks at whether the constraints are there
    have hrun : (do ({ c with constrained := true } : MerkleCircuit).assign (digests.map bitEntries)
                    ({ c with constrained := true } : MerkleCircuit).rootBits : BoardM (List ℤ)).run
          { board with constraints := board.constraints ++ ks.toArray }
        = (.ok (bitEntries (treeRoot hash depth digests)), final) :=
      (BoardM.run_bind_ok hassign fun _ => c.rootBits).trans hwitnessed.run_rootBits
    unfold witness
    rw [hrun]

/-- The bits of a root are read back from its text, which may have a line end after it. -/
theorem readRoot_eq {bits : List Bool} {hex : String} (h : bitsToHex? (bitEntries bits) = .ok hex)
    (path : Path) :
    readRoot path bits.length (hex ++ "\n").toUTF8.toList = .ok (hex, bitEntries bits) := by
  obtain ⟨hlower, hbits⟩ := flatMap_nibbleBits_of_bitsToHex? h
  have hend : (hex ++ "\n").toList = hex.toList ++ ['\n'] := by rw [String.toList_append]; rfl
  have hascii : ∀ c ∈ (hex ++ "\n").toList, c.toNat < 128 := by
    intro c hc
    rw [hend, List.mem_append, List.mem_singleton] at hc
    rcases hc with hc | rfl
    · have hrange := toNat_of_isLowerHex (hlower c hc)
      omega
    · decide
  have hblank : ∀ c ∈ ['\n'], Text.isBlank c = true := by simp [Text.isBlank]
  have htrim : String.ofList (Text.trim Text.isBlank (hex ++ "\n").toList) = hex := by
    rw [hend, Text.trim_append (fun c hc => isBlank_of_isLowerHex (hlower c hc)) hblank,
      String.ofList_toList]
  have hlength : ((hex.toList.flatMap nibbleBits).length : ℤ) = bits.length := by
    rw [hbits, bitEntries, List.length_map]
  have hread := hexToBits?_eq hlower hlength
  rw [readRoot, toUTF8_eq hascii, asciiText?_map hascii]
  generalize (hex ++ "\n").toList = chars at htrim
  simp only [Except.mapError, bind, Except.bind, htrim, hread, hbits]
  rfl

end Workflow

end MerkleSnark
