import Mathlib
import MerkleSnark.Proofs.Circuit.Checked
import MerkleSnark.Proofs.Circuit.HashGadget
import MerkleSnark.Proofs.Codec.Hex

/-!
# Complete hash gadgets

What a circuit that is built from hash gadgets may rely on when its wires are computed: a gadget can
be placed between any digests of its size, it allocates its inner wires and nothing else, and once
the inputs carry bits, computing the gadget meets its constraints, gives the output the hash of the
inputs and changes no wire but the inner ones and those of the output.

## Main definitions

* `Digest.span` — the wires of a digest as a set.
* `Board.Allocates` — wires are added and nothing else.
* `PlacedGadget.Fulfills` — computing a placed gadget meets its constraints.
* `HashGadget.Layout`, `HashGadget.Complete` — every gadget that is placed does.
* `HashGadget.Computes` — every gadget that is placed computes, whatever its constraints are.
* `HashGadget.Meets` — what both have in common.
* `HashGadget.Places` — a gadget that was placed.

## Main results

* `Digest.run_assign` — bits that are written to a digest are carried by it.
* `XorGadget.complete` — the toy gadget is complete for the function it is named for.
-/

namespace MerkleSnark

/-! ### Writing and reading digests -/

namespace BoardM

theorem run_wire {board : Board} (hi : i < board.values.size) :
    (wire i).run board = (.ok (board.valueAt i), board) := by
  unfold wire
  rw [run_bind_ok (run_get board), Array.getElem?_eq_getElem hi]
  simp only [Board.valueAt, Array.getD_eq_getD_getElem?, Array.getElem?_eq_getElem hi]
  rfl

theorem run_forM_cons {ι : Type} {f : ι → BoardM PUnit} {i : ι} {is : List ι} {board board' : Board}
    (h : (f i).run board = (.ok PUnit.unit, board')) :
    ((i :: is).forM f).run board = (is.forM f).run board' :=
  run_bind_ok h fun _ => is.forM f

theorem run_mapM_wire {board : Board} {is : List ℕ} (h : ∀ i ∈ is, i < board.values.size) :
    (is.mapM fun i => return ((← wire i).val : ℤ) : BoardM (List ℤ)).run board
      = (.ok (is.map fun i => ((board.valueAt i).val : ℤ)), board) := by
  induction is with
  | nil => rfl
  | cons i is ih =>
    rw [List.forall_mem_cons] at h
    rw [List.mapM_cons, bind_assoc, run_bind_ok (run_wire h.1), pure_bind, run_bind_ok (ih h.2)]
    rfl

end BoardM

/-- The wires of a digest. -/
def Digest.span (d : Digest) : Set ℕ := Set.Ico d.first (d.first + d.size)

namespace Digest

variable {d : Digest} {w v : ℕ → Fr} {bits : List Bool} {i : ℕ}

theorem mem_wires_iff : i ∈ d.wires ↔ i ∈ d.span := List.mem_range'_1

/-- A digest looks at its own wires only. -/
theorem Carries.congr (h : d.Carries w bits) (hwv : ∀ i ∈ d.span, v i = w i) :
    d.Carries v bits :=
  (List.map_congr_left fun i hi => hwv i (mem_wires_iff.mp hi)).trans h

theorem run_assignFrom (label : String) {first : ℕ} {bits : List Bool} {board : Board}
    (hfirst : 0 < first) (hlast : first + bits.length ≤ board.values.size) :
    ∃ board', (assignFrom label first (bitEntries bits)).run board = (.ok (), board')
      ∧ board.Rewrites board' (Set.Ico first (first + bits.length))
      ∧ (List.range' first bits.length).map board'.valueAt = bits.map bitScalar := by
  induction bits generalizing first board with
  | nil => exact ⟨board, rfl, .refl _ _, rfl⟩
  | cons b bits ih =>
    rw [List.length_cons] at hlast
    have hentry : ¬(((b.toNat : ℕ) : ℤ) ≠ 0 ∧ ((b.toNat : ℕ) : ℤ) ≠ 1) := by cases b <;> simp
    have hlt : first < board.values.size := by omega
    obtain ⟨middle, hset, hmiddle, hvalue⟩ :=
      BoardM.run_setWire hfirst.ne' hlt (Residue.ofInt scalarOrder (b.toNat : ℤ))
    obtain ⟨last, hrun, hlast', hvalues⟩ := @ih (first + 1) middle (by omega) (by
      rw [hmiddle.size_eq]
      omega)
    refine ⟨last, ?_, (hmiddle.trans hlast').mono ?_, ?_⟩
    · have hcons : bitEntries (b :: bits) = (b.toNat : ℤ) :: bitEntries bits := rfl
      rw [hcons, assignFrom, if_neg hentry]
      exact (BoardM.run_bind_ok hset _).trans hrun
    · rintro i (hi | ⟨hge, hlt⟩)
      · rw [Set.mem_singleton_iff.mp hi, List.length_cons]
        exact ⟨le_refl _, by omega⟩
      · rw [List.length_cons]
        exact ⟨by omega, by omega⟩
    · -- the other bits come later and leave the first wire alone
      have hfirst' : last.valueAt first = bitScalar b := by
        rw [hlast'.valueAt_eq first fun hmem => absurd hmem.1 (by omega), hvalue]
        cases b <;> rfl
      rw [List.length_cons, List.range'_succ, List.map_cons, List.map_cons, hfirst', hvalues]

/-- **Bits that are written are carried**, and no other wire changes. -/
theorem run_assign {board : Board} (hsize : bits.length = d.size) (hfirst : 0 < d.first)
    (hlast : d.first + d.size ≤ board.values.size) :
    ∃ board', (d.assign (bitEntries bits)).run board = (.ok (), board')
      ∧ board.Rewrites board' d.span ∧ d.Carries board'.valueAt bits := by
  rw [← hsize] at hlast
  obtain ⟨board', hrun, hrewrites, hvalues⟩ := run_assignFrom d.label hfirst hlast
  have hlength : (bitEntries bits).length = d.size := by rw [bitEntries, List.length_map, hsize]
  refine ⟨board', ?_, ?_, ?_⟩
  · unfold assign
    rw [if_neg (not_not.mpr hlength)]
    exact hrun
  · rwa [hsize] at hrewrites
  · unfold Carries wires
    rw [← hsize]
    exact hvalues

theorem within_booleanConstraints {S : Set ℕ} (hone : oneWire ∈ S) (h : d.span ⊆ S) :
    ∀ k ∈ d.booleanConstraints, k.Within S := by
  intro k hk
  obtain ⟨i, hi, rfl⟩ := List.mem_map.mp hk
  have hi := List.mem_range.mp hi
  apply Constraint.within_boolean hone
  exact .var (h ⟨Nat.le_add_right _ _, Nat.add_lt_add_left hi _⟩)

/-- Bits meet the boolean constraints. -/
theorem Carries.holds_booleanConstraints (h : d.Carries w bits) (hone : w oneWire = 1) :
    ∀ k ∈ d.booleanConstraints, k.Holds w := by
  intro k hk
  obtain ⟨i, hi, rfl⟩ := List.mem_map.mp hk
  have hi := List.mem_range.mp hi
  rw [Constraint.holds_boolean_iff hone, LinearCombination.eval_var]
  apply h.eq_zero_or_one
  exact mem_wires_iff.mpr ⟨Nat.le_add_right _ _, Nat.add_lt_add_left hi _⟩

/-- The bits that a digest carries are read back. -/
theorem run_values {board : Board} (hlast : d.first + d.size ≤ board.values.size)
    (h : d.Carries board.valueAt bits) :
    d.values.run board = (.ok (bitEntries bits), board) := by
  have hvalues : d.wires.map (fun i => ((board.valueAt i).val : ℤ)) = bitEntries bits := by
    have hmap : (d.wires.map board.valueAt).map (fun x => (x.val : ℤ))
        = (bits.map bitScalar).map fun x => (x.val : ℤ) := by rw [h]
    rw [List.map_map, List.map_map] at hmap
    refine hmap.trans (List.map_congr_left fun b _ => ?_)
    cases b <;> rfl
  unfold values
  rw [BoardM.run_mapM_wire, hvalues]
  intro i hi
  exact (mem_wires_iff.mp hi).2.trans_le hlast

end Digest

/-! ### Boards that grow -/

/-- Wires are added, with their names, and nothing else changes. -/
structure Board.Allocates (board board' : Board) : Prop where
  /-- The constraints and the public wires stay the same. -/
  rest : board' = { board with values := board'.values, labels := board'.labels }
  /-- No wire goes. -/
  size_le : board.values.size ≤ board'.values.size
  /-- The wires that there are keep their values. -/
  valueAt_eq : ∀ i < board.values.size, board'.valueAt i = board.valueAt i

namespace Board.Allocates

variable {board board₁ board₂ : Board}

theorem refl (board : Board) : board.Allocates board := ⟨rfl, le_refl _, fun _ _ => rfl⟩

theorem trans (h₁ : board.Allocates board₁) (h₂ : board₁.Allocates board₂) :
    board.Allocates board₂ := by
  refine ⟨?_, h₁.size_le.trans h₂.size_le, fun i hi => ?_⟩
  · rw [h₂.rest, h₁.rest]
  · rw [h₂.valueAt_eq i (hi.trans_le h₁.size_le), h₁.valueAt_eq i hi]

/-- Wires that are put behind the others. -/
theorem of_append (board : Board) (values : Array Fr) (labels : Array String) :
    board.Allocates { board with values := board.values ++ values, labels := labels } := by
  refine ⟨rfl, ?_, fun i hi => ?_⟩
  · rw [Array.size_append]
    exact Nat.le_add_right _ _
  · simp only [Board.valueAt, Array.getD_eq_getD_getElem?, Array.getElem?_append_left hi]

end Board.Allocates

/-! ### Gadgets -/

/-- Computing the gadget meets its constraints and gives the output the hash of the inputs.  Nothing
else than the wires of the output and some inner wires changes, and the constraints mention these
wires, the inputs and the constant wire only. -/
def PlacedGadget.Fulfills (placed : PlacedGadget) (hash : List Bool → List Bool → List Bool)
    (left right output : Digest) (inner : Set ℕ) : Prop :=
  ∃ ks, BoardM.Emits placed.constrain ks
    ∧ (∀ k ∈ ks, k.Within ({oneWire} ∪ left.span ∪ right.span ∪ (output.span ∪ inner)))
    ∧ ∀ state : Board, (∀ i ∈ left.span ∪ right.span ∪ (output.span ∪ inner),
        i < state.values.size) → state.valueAt oneWire = 1 →
      ∀ l r, left.Carries state.valueAt l → right.Carries state.valueAt r →
        ∃ state', placed.assign.run state = (.ok (), state')
          ∧ state.Rewrites state' (output.span ∪ inner)
          ∧ (∀ k ∈ ks, k.Holds state'.valueAt) ∧ output.Carries state'.valueAt (hash l r)

/-- Three digests of the size of a gadget among the first wires of a board, the output apart from
the inputs. -/
structure HashGadget.Layout (gadget : HashGadget) (left right output : Digest) (wires : ℕ) :
    Prop where
  /-- The digests have the size of the gadget. -/
  size_eq : ∀ d ∈ [left, right, output], d.size = gadget.digestSize
  /-- Their wires are there, and the constant one is none of them. -/
  within : ∀ d ∈ [left, right, output], 0 < d.first ∧ d.first + d.size ≤ wires
  /-- No wire is one of the output and of an input. -/
  disjoint : Disjoint output.span (left.span ∪ right.span)

/-- Gadgets can be placed between digests of the right size, and computing them gives the hash. -/
def HashGadget.Complete (gadget : HashGadget) (hash : List Bool → List Bool → List Bool) : Prop :=
  ∀ (left right output : Digest) (label : String) (board : Board),
    gadget.Layout left right output board.values.size →
      ∃ placed board', (gadget.place left right output label).run board = (.ok placed, board')
        ∧ board.Allocates board'
        ∧ placed.Fulfills hash left right output (Set.Ico board.values.size board'.values.size)

/-- Computing the gadget gives the output the hash of the inputs and meets the constraints `ks`.
Nothing else than the wires of the output and some inner wires changes, and the constraints mention
these wires, the inputs and the constant wire only. -/
def PlacedGadget.Evaluates (placed : PlacedGadget) (ks : List Constraint)
    (hash : List Bool → List Bool → List Bool) (left right output : Digest) (inner : Set ℕ) :
    Prop :=
  (∀ k ∈ ks, k.Within ({oneWire} ∪ left.span ∪ right.span ∪ (output.span ∪ inner)))
    ∧ ∀ state : Board, (∀ i ∈ left.span ∪ right.span ∪ (output.span ∪ inner),
        i < state.values.size) → state.valueAt oneWire = 1 →
      ∀ l r, left.Carries state.valueAt l → right.Carries state.valueAt r →
        ∃ state', placed.assign.run state = (.ok (), state')
          ∧ state.Rewrites state' (output.span ∪ inner)
          ∧ (∀ k ∈ ks, k.Holds state'.valueAt) ∧ output.Carries state'.valueAt (hash l r)

/-- Gadgets can be placed between digests of the right size, which allocates wires only. -/
def HashGadget.Placeable (gadget : HashGadget) : Prop :=
  ∀ (left right output : Digest) (label : String) (board : Board),
    gadget.Layout left right output board.values.size →
      ∃ placed board', (gadget.place left right output label).run board = (.ok placed, board')
        ∧ board.Allocates board'

/-- Gadgets can be placed between digests of the right size, and computing them gives the hash and
meets the constraints that `asks` relates to them. -/
def HashGadget.Meets (gadget : HashGadget) (asks : PlacedGadget → List Constraint → Prop)
    (hash : List Bool → List Bool → List Bool) : Prop :=
  ∀ (left right output : Digest) (label : String) (board : Board),
    gadget.Layout left right output board.values.size →
      ∃ placed board', (gadget.place left right output label).run board = (.ok placed, board')
        ∧ board.Allocates board'
        ∧ ∃ ks, asks placed ks ∧ placed.Evaluates ks hash left right output
          (Set.Ico board.values.size board'.values.size)

/-- Gadgets can be placed between digests of the right size, and computing them gives the hash.
Whether that meets any constraints is left open. -/
def HashGadget.Computes (gadget : HashGadget) (hash : List Bool → List Bool → List Bool) : Prop :=
  ∀ (left right output : Digest) (label : String) (board : Board),
    gadget.Layout left right output board.values.size →
      ∃ placed board', (gadget.place left right output label).run board = (.ok placed, board')
        ∧ board.Allocates board'
        ∧ placed.Evaluates [] hash left right output
          (Set.Ico board.values.size board'.values.size)

/-- The gadget was placed between digests of the right size, and allocated the inner wires then. -/
def HashGadget.Places (gadget : HashGadget) (left right output : Digest) (inner : Set ℕ)
    (placed : PlacedGadget) : Prop :=
  ∃ (label : String) (board board' : Board), gadget.Layout left right output board.values.size
    ∧ (gadget.place left right output label).run board = (.ok placed, board')
    ∧ inner = Set.Ico board.values.size board'.values.size

namespace HashGadget

variable {gadget : HashGadget} {asks : PlacedGadget → List Constraint → Prop}
  {hash : List Bool → List Bool → List Bool}

theorem Meets.placeable (h : gadget.Meets asks hash) : gadget.Placeable := by
  intro left right output label board hlayout
  obtain ⟨placed, board', hplace, hallocates, -⟩ := h left right output label board hlayout
  exact ⟨placed, board', hplace, hallocates⟩

theorem Meets.evaluates (h : gadget.Meets asks hash) {left right output : Digest} {inner : Set ℕ}
    {placed : PlacedGadget} (hplaces : gadget.Places left right output inner placed) :
    ∃ ks, asks placed ks ∧ placed.Evaluates ks hash left right output inner := by
  obtain ⟨label, board, board', hlayout, hplace, rfl⟩ := hplaces
  obtain ⟨placed', board'', hplace', -, hevaluates⟩ := h left right output label board hlayout
  obtain ⟨hok, rfl⟩ := Prod.mk.inj (hplace'.symm.trans hplace)
  obtain rfl := Except.ok.inj hok
  exact hevaluates

/-- A complete gadget meets the constraints that it adds. -/
theorem Complete.meets (h : gadget.Complete hash) :
    gadget.Meets (fun placed => BoardM.Emits placed.constrain) hash := h

theorem Complete.computes (h : gadget.Complete hash) : gadget.Computes hash := by
  intro left right output label board hlayout
  obtain ⟨placed, board', hplace, hallocates, ks, -, -, hassign⟩ :=
    h left right output label board hlayout
  refine ⟨placed, board', hplace, hallocates, by simp, ?_⟩
  intro state hstate hone l r hl hr
  obtain ⟨state', hrun, hrewrites, -, hout⟩ := hassign state hstate hone l r hl hr
  exact ⟨state', hrun, hrewrites, by simp, hout⟩

/-- A gadget that computes meets no constraints in particular. -/
theorem Computes.meets (h : gadget.Computes hash) : gadget.Meets (fun _ ks => ks = []) hash := by
  intro left right output label board hlayout
  obtain ⟨placed, board', hplace, hallocates, hevaluates⟩ :=
    h left right output label board hlayout
  exact ⟨placed, board', hplace, hallocates, [], rfl, hevaluates⟩

theorem Complete.fulfills (h : gadget.Complete hash) {left right output : Digest} {inner : Set ℕ}
    {placed : PlacedGadget} (hplaces : gadget.Places left right output inner placed) :
    placed.Fulfills hash left right output inner := h.meets.evaluates hplaces

end HashGadget

/-! ### The toy gadget -/

namespace XorGadget

open LinearCombination

variable {size rotation : ℕ} {left right output : Digest} {label : String} {w : ℕ → Fr}
  {l r : List Bool}

/-- The wires of a bit are there. -/
theorem wires_eq (hleft : left.size = size) (hright : right.size = size)
    (houtput : output.size = size) {i : ℕ} (hi : i < size) :
    wires size rotation left right output i
      = pure (left.first + i, right.first + (i + rotation) % size, output.first + i) := by
  have hmod : (i + rotation) % size < size := Nat.mod_lt _ (by omega)
  unfold wires Digest.wire?
  rw [if_pos (by omega), if_pos (by omega), if_pos (by omega)]

theorem size_eq {n : ℕ} (h : (gadget size rotation).Layout left right output n) :
    left.size = size ∧ right.size = size ∧ output.size = size :=
  ⟨h.size_eq left (by simp), h.size_eq right (by simp), h.size_eq output (by simp)⟩

/-- The bit of the output at a place. -/
def outputBit (size rotation : ℕ) (l r : List Bool) (i : ℕ) : Bool :=
  l.getD i false ^^ r.getD ((i + rotation) % size) false

theorem holds_bitConstraint {i j k o : ℕ} {a b : Bool} (hj : w j = bitScalar a)
    (hk : w k = bitScalar b) (ho : w o = bitScalar (a ^^ b)) :
    (bitConstraint label i j k o).Holds w := by
  unfold bitConstraint Constraint.Holds
  rw [eval_scale, eval_sub, eval_sub, eval_var, eval_var, eval_var, hj, hk, ho]
  cases a <;> cases b <;> decide

theorem within_bitConstraint {S : Set ℕ} {i j k o : ℕ} (hj : j ∈ S) (hk : k ∈ S) (ho : o ∈ S) :
    (bitConstraint label i j k o).Within S :=
  ⟨(Within.var hj).scale _, .var hk, ((Within.var ho).sub (.var hj)).sub (.var hk)⟩

/-- One bit is computed from bits. -/
theorem run_setBit {state : Board} {j k o : ℕ} {a b : Bool} (hj : j < state.values.size)
    (hk : k < state.values.size) (ho : o < state.values.size) (hone : o ≠ oneWire)
    (ha : state.valueAt j = bitScalar a) (hb : state.valueAt k = bitScalar b) :
    ∃ state', (do
        let x ← BoardM.wire j
        let y ← BoardM.wire k
        BoardM.setWire o (.ofNat scalarOrder (x.val ^^^ y.val))).run state = (.ok (), state')
      ∧ state.Rewrites state' {o} ∧ state'.valueAt o = bitScalar (a ^^ b) := by
  obtain ⟨state', hset, hrewrites, hvalue⟩ :=
    BoardM.run_setWire hone ho (.ofNat scalarOrder ((bitScalar a).val ^^^ (bitScalar b).val))
  refine ⟨state', ?_, hrewrites, ?_⟩
  · rw [BoardM.run_bind_ok (BoardM.run_wire hj), BoardM.run_bind_ok (BoardM.run_wire hk), ha, hb,
      hset]
  · rw [hvalue]
    cases a <;> cases b <;> rfl

/-- The bits at the given places are computed one after another. -/
theorem run_assignBits {n : ℕ} (h : (gadget size rotation).Layout left right output n)
    {is : List ℕ} (his : ∀ i ∈ is, i < size) {state : Board}
    (hstate : ∀ i ∈ left.span ∪ right.span ∪ output.span, i < state.values.size)
    (hl : left.Carries state.valueAt l) (hr : right.Carries state.valueAt r) :
    ∃ state', (is.forM fun i => do
        let (j, k, o) ← wires size rotation left right output i
        let x ← BoardM.wire j
        let y ← BoardM.wire k
        BoardM.setWire o (.ofNat scalarOrder (x.val ^^^ y.val))).run state = (.ok (), state')
      ∧ state.Rewrites state' {o | ∃ i ∈ is, o = output.first + i}
      ∧ ∀ i ∈ is, state'.valueAt (output.first + i) = bitScalar (outputBit size rotation l r i) := by
  obtain ⟨hleft, hright, houtput⟩ := size_eq h
  have hpos := (h.within output (by simp)).1
  induction is generalizing state with
  | nil => exact ⟨state, rfl, .refl _ _, fun i hi => absurd hi List.not_mem_nil⟩
  | cons i is ih =>
    rw [List.forall_mem_cons] at his
    obtain ⟨hi, his⟩ := his
    have hmod : (i + rotation) % size < size := Nat.mod_lt _ (by omega)
    have hj : left.first + i ∈ left.span := ⟨by omega, by omega⟩
    have hk : right.first + (i + rotation) % size ∈ right.span := ⟨by omega, by omega⟩
    have ho : output.first + i ∈ output.span := ⟨by omega, by omega⟩
    obtain ⟨middle, hset, hmiddle, hvalue⟩ := run_setBit (hstate _ (Or.inl (Or.inl hj)))
      (hstate _ (Or.inl (Or.inr hk))) (hstate _ (Or.inr ho)) (by rw [oneWire]; omega)
      ((Digest.carries_iff.mp hl).2 i (by omega)) ((Digest.carries_iff.mp hr).2 _ (by omega))
    -- the inputs are not written, so the other bits are computed from the same ones
    have hapart := Set.disjoint_left.mp h.disjoint ho
    have hkeep : ∀ d : Digest, d.span ⊆ left.span ∪ right.span →
        ∀ o ∈ d.span, middle.valueAt o = state.valueAt o := fun d hd o ho =>
      hmiddle.valueAt_eq o fun heq => hapart (Set.mem_singleton_iff.mp heq ▸ hd ho)
    obtain ⟨last, hrun, hlast, hvalues⟩ := ih his
      (fun o ho => (hstate o ho).trans_eq hmiddle.size_eq.symm)
      (hl.congr (hkeep left Set.subset_union_left)) (hr.congr (hkeep right Set.subset_union_right))
    refine ⟨last, ?_, (hmiddle.trans hlast).mono ?_, List.forall_mem_cons.mpr ⟨?_, hvalues⟩⟩
    · refine (BoardM.run_forM_cons ?_).trans hrun
      rw [wires_eq hleft hright houtput hi, pure_bind, hset]
    · rintro o (ho | ⟨j, hj, rfl⟩)
      · exact ⟨i, List.mem_cons_self, ho⟩
      · exact ⟨j, List.mem_cons_of_mem i hj, rfl⟩
    · by_cases hagain : i ∈ is
      · exact hvalues i hagain
      · rw [hlast.valueAt_eq, hvalue, outputBit]
        rintro ⟨j, hj, heq⟩
        rw [Nat.add_left_cancel heq] at hagain
        exact hagain hj

/-- **The toy gadget is complete.** -/
theorem complete (size rotation : ℕ) : (gadget size rotation).Complete (hash size rotation) := by
  intro left right output label board h
  obtain ⟨hleft, hright, houtput⟩ := size_eq h
  have hemits : BoardM.Emits (placed size rotation left right output label).constrain
      ((List.range size).flatMap fun i => [bitConstraint label i (left.first + i)
        (right.first + (i + rotation) % size) (output.first + i)]) := by
    apply BoardM.Emits.forM
    intro i hi
    rw [wires_eq hleft hright houtput (List.mem_range.mp hi), pure_bind]
    exact BoardM.emits_addConstraint _
  have hmod : ∀ i < size, (i + rotation) % size < size := fun i hi => Nat.mod_lt _ (by omega)
  refine ⟨_, board, rfl, .refl _, _, hemits, fun k hk => ?_, fun state hstate hone l r hl hr => ?_⟩
  · obtain ⟨i, hi, hk⟩ := List.mem_flatMap.mp hk
    have hi := List.mem_range.mp hi
    have hrotated := hmod i hi
    rw [List.mem_singleton.mp hk]
    apply within_bitConstraint
    · exact Or.inl (Or.inl (Or.inr ⟨by omega, by omega⟩))
    · exact Or.inl (Or.inr ⟨by omega, by omega⟩)
    · exact Or.inr (Or.inl ⟨by omega, by omega⟩)
  · obtain ⟨state', hrun, hrewrites, hvalues⟩ := run_assignBits h
      (fun i (hi : i ∈ List.range size) => List.mem_range.mp hi)
      (fun o ho => hstate o (ho.imp_right Or.inl)) hl hr
    have hwritten : {o | ∃ i ∈ List.range size, o = output.first + i} ⊆ output.span := by
      rintro o ⟨i, hi, rfl⟩
      have hi := List.mem_range.mp hi
      exact ⟨by omega, by omega⟩
    -- the output is apart from the inputs, so they still carry what was hashed
    have hkeep : ∀ d : Digest, d.span ⊆ left.span ∪ right.span →
        ∀ o ∈ d.span, state'.valueAt o = state.valueAt o := fun d hd o ho =>
      hrewrites.valueAt_eq o fun hmem => Set.disjoint_left.mp h.disjoint (hwritten hmem) (hd ho)
    have hl' := hl.congr (hkeep left Set.subset_union_left)
    have hr' := hr.congr (hkeep right Set.subset_union_right)
    refine ⟨state', hrun, hrewrites.mono (hwritten.trans Set.subset_union_left), fun k hk => ?_, ?_⟩
    · obtain ⟨i, hi, hk⟩ := List.mem_flatMap.mp hk
      have hvalue := hvalues i hi
      have hi := List.mem_range.mp hi
      have hrotated := hmod i hi
      rw [List.mem_singleton.mp hk]
      exact holds_bitConstraint ((Digest.carries_iff.mp hl').2 i (by omega))
        ((Digest.carries_iff.mp hr').2 _ (by omega)) hvalue
    · refine Digest.carries_iff.mpr ⟨?_, fun i hi => ?_⟩
      · rw [hash, List.length_map, List.length_range, houtput]
      · rw [houtput] at hi
        rw [hvalues i (List.mem_range.mpr hi), hash, List.getD_eq_getElem?_getD, List.getElem?_map,
          List.getElem?_range hi]
        rfl

end XorGadget

end MerkleSnark
