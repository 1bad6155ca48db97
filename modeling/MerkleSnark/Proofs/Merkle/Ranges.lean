import Mathlib
import MerkleSnark.Proofs.Merkle.Layout

/-!
# The wires of a layout

The wires of a layout are handed out one range after another: every digest takes the next ones, and
every gadget takes the next ones for its inner wires.  So the ranges of all digests and all gadgets
tile the wires, whatever is laid out and in whatever order.

## Main definitions

* `Tiles` — sets that are apart and make up a range.
* `Arena.Made` — how an arena and a board were made, with the inner wires of every gadget.
* `Arena.ranges` — the wires of all digests and the inner wires of all gadgets.

## Main results

* `Arena.Made.tiles` — **the ranges tile the wires**.
-/

namespace MerkleSnark

/-! ### Tilings -/

/-- The sets are apart from one another and make up the range from `lo` up to `hi`. -/
structure Tiles (sets : List (Set ℕ)) (lo hi : ℕ) : Prop where
  apart : sets.Pairwise Disjoint
  covers : ∀ i, (∃ S ∈ sets, i ∈ S) ↔ lo ≤ i ∧ i < hi

namespace Tiles

variable {sets sets' : List (Set ℕ)} {lo hi hi' : ℕ}

theorem nil (n : ℕ) : Tiles [] n n := ⟨.nil, fun i => by simp⟩

theorem perm (h : Tiles sets lo hi) (hperm : sets.Perm sets') : Tiles sets' lo hi := by
  refine ⟨(hperm.pairwise_iff fun hST => hST.symm).mp h.apart, fun i => ?_⟩
  rw [← h.covers i]
  simp only [hperm.mem_iff]

/-- The next range is put behind the others. -/
theorem snoc (h : Tiles sets lo hi) (hlo : lo ≤ hi) (hhi : hi ≤ hi') :
    Tiles (sets ++ [Set.Ico hi hi']) lo hi' := by
  refine ⟨List.pairwise_append.mpr ⟨h.apart, List.pairwise_singleton _ _, ?_⟩, fun i => ?_⟩
  · intro S hS T hT
    rw [List.mem_singleton.mp hT, Set.disjoint_left]
    intro i hi hnew
    exact absurd ((h.covers i).mp ⟨S, hS, hi⟩).2 (not_lt.mpr hnew.1)
  · have hold := h.covers i
    simp only [List.mem_append, List.mem_singleton, or_and_right, exists_or, exists_eq_left, hold,
      Set.mem_Ico]
    omega

end Tiles

namespace Arena

variable {gadget : HashGadget} {a : Arena} {board : Board} {inners : List (Set ℕ)}

/-! ### How an arena was made -/

/-- The arena and the board come from an empty arena and an empty board by allocating digests,
adding nodes, placing gadgets and declaring wires to be public.  The inner wires of a gadget are
those that were allocated while it was placed. -/
inductive Made (gadget : HashGadget) : Arena → Board → List (Set ℕ) → Prop
  | empty : Made gadget {} Board.empty []
  | digest {a a' : Arena} {board board' : Board} {inners : List (Set ℕ)} {label : String} {i : ℕ}
    (before : Made gadget a board inners)
    (run : Runs (newDigest gadget.digestSize label) a board i a' board') :
    Made gadget a' board' inners
  | node {a : Arena} {board : Board} {inners : List (Set ℕ)} (before : Made gadget a board inners)
    (n : TreeNode) : Made gadget { a with nodes := a.nodes.push n } board inners
  | binding {a : Arena} {board board' : Board} {inners : List (Set ℕ)} {l r o : ℕ} {label : String}
    {placed : PlacedGadget} (before : Made gadget a board inners)
    (run : (gadget.place (a.digests.getD l default) (a.digests.getD r default)
      (a.digests.getD o default) label).run board = (.ok placed, board'))
    (allocates : board.Allocates board') :
    Made gadget { a with bindings := a.bindings.push ⟨l, r, o, placed⟩ } board'
      (inners ++ [Set.Ico board.values.size board'.values.size])
  | inputs {a : Arena} {board : Board} {inners : List (Set ℕ)} (before : Made gadget a board inners)
    (size : ℕ) : Made gadget a { board with primarySize := size } inners

/-- The wires of all digests, and the inner wires of all gadgets. -/
def ranges (a : Arena) (inners : List (Set ℕ)) : List (Set ℕ) :=
  a.digests.toList.map Digest.span ++ inners

namespace Made

/-- There is the constant wire, and all digests are on the board. -/
theorem placed (h : Made gadget a board inners) :
    0 < board.values.size ∧ Placed gadget a board := by
  induction h with
  | empty => exact ⟨Nat.zero_lt_one, fun i hi => absurd hi (Nat.not_lt_zero i)⟩
  | @digest a a' board board' inners label i before run ih =>
    obtain ⟨hpos, hplaced⟩ := ih
    obtain ⟨board'', hnew, hsize, hplaced'⟩ := exists_newDigest hplaced hpos label
    obtain ⟨-, rfl, rfl⟩ := eq_of_runs hnew.runs run
    exact ⟨by omega, hplaced'⟩
  | node before n ih => exact ih
  | binding before run allocates ih =>
    exact ⟨ih.1.trans_le allocates.size_le, ih.2.mono allocates.size_le⟩
  | inputs before size ih => exact ih

/-- There are inner wires for every gadget. -/
theorem length_inners (h : Made gadget a board inners) : inners.length = a.bindings.size := by
  induction h with
  | empty => rfl
  | digest before run ih =>
    obtain ⟨values, labels, hrun⟩ := run_newDigest gadget.digestSize _ _ _
    obtain ⟨-, rfl, -⟩ := eq_of_runs hrun run
    exact ih
  | node before n ih => exact ih
  | binding before run allocates ih =>
    rw [List.length_append, List.length_singleton, Array.size_push, ih]
  | inputs before size ih => exact ih

/-- **The ranges of a layout tile its wires**, except for the constant one. -/
theorem tiles (h : Made gadget a board inners) : Tiles (a.ranges inners) 1 board.values.size := by
  induction h with
  | empty => exact .nil 1
  | @digest a a' board board' inners label i before run ih =>
    obtain ⟨hpos, hplaced⟩ := before.placed
    obtain ⟨board'', hnew, hsize, -⟩ := exists_newDigest hplaced hpos label
    obtain ⟨-, rfl, rfl⟩ := eq_of_runs hnew.runs run
    have hrange : Tiles (a.ranges inners ++ [Set.Ico board.values.size board'.values.size]) 1
        board'.values.size := ih.snoc hpos (by omega)
    rw [hsize] at hrange ⊢
    refine hrange.perm ?_
    -- the digest stands before the inner wires
    rw [ranges, ranges, Array.toList_push, List.map_append, List.append_assoc, List.append_assoc]
    exact (List.perm_append_comm).append_left _
  | node before n ih => exact ih
  | @binding a board board' inners l r o label placed before run allocates ih =>
    have hrange := ih.snoc before.placed.1 allocates.size_le
    rwa [ranges, List.append_assoc] at hrange
  | inputs before size ih => exact ih

/-- Different digests have different wires. -/
theorem disjoint_span (h : Made gadget a board inners) {i j : ℕ} (hi : i < a.digests.size)
    (hj : j < a.digests.size) (hne : i ≠ j) :
    Disjoint (a.digests.getD i default).span (a.digests.getD j default).span := by
  have hpairwise := List.pairwise_map.mp (List.pairwise_append.mp h.tiles.apart).1
  have hapart {i j : ℕ} (hj : j < a.digests.size) (hlt : i < j) :
      Disjoint (a.digests.getD i default).span (a.digests.getD j default).span := by
    have hentry := List.pairwise_iff_getElem.mp hpairwise i j (hlt.trans hj) hj hlt
    rw [Array.getD_eq_getD_getElem?, Array.getD_eq_getD_getElem?, Array.getElem?_eq_getElem hj,
      Array.getElem?_eq_getElem (hlt.trans hj)]
    exact hentry
  rcases Nat.lt_or_gt_of_ne hne with hlt | hgt
  · exact hapart hj hlt
  · exact (hapart hi hgt).symm

/-- A gadget can stand between any digests when its output is not one of its inputs. -/
theorem layout (h : Made gadget a board inners) {l r o : ℕ} (hl : l < a.digests.size)
    (hr : r < a.digests.size) (ho : o < a.digests.size) (hol : o ≠ l) (hor : o ≠ r) :
    gadget.Layout (a.digests.getD l default) (a.digests.getD r default)
      (a.digests.getD o default) board.values.size := by
  apply h.placed.2.layout hl hr ho
  exact Set.disjoint_union_right.mpr ⟨h.disjoint_span ho hl hol, h.disjoint_span ho hr hor⟩

end Made

end Arena

end MerkleSnark
