import Mathlib
import MerkleSnark.Proofs.Merkle.Prepared

/-!
# The witness of a tree

Whatever the depth of a tree of complete gadgets, computing its wires from leaf digests meets all
its constraints: the root digest and the public digest carry the root above the leaves.  It does not
matter whether the constraints are added before or after.

## Main definitions

* `MerkleCircuit.Asks` — the constraints of a circuit.
* `MerkleCircuit.Computed` — what is so once the wires are computed.
* `MerkleCircuit.Witnessed` — the wires carry the root above the leaves, and all constraints hold.
* `MerkleCircuit.constrainThenAssign`, `MerkleCircuit.assignThenConstrain` — the two orders.

## Main results

* `MerkleCircuit.Standing.exists_computed`, `MerkleCircuit.Prepared.exists_assign` — the wires can
  be computed from leaf digests.
* `MerkleCircuit.witness_complete` — both orders give a board that passes its own check.
-/

namespace MerkleSnark

namespace MerkleCircuit

variable {gadget : HashGadget} {hash : List Bool → List Bool → List Bool} {depth : ℕ}
  {c : MerkleCircuit} {board : Board}

/-! ### Constraints -/

/-- The constraint is one that the circuit adds. -/
inductive Asks (c : MerkleCircuit) (k : Constraint) : Prop
  | root (h : k ∈ c.rootConstraints)
  | leaf (d : Digest) (hd : d ∈ c.leafDigests) (h : k ∈ d.booleanConstraints)
  | gadget (x : Binding) (hx : x ∈ c.arena.bindings.toList) (ks : List Constraint)
    (hks : BoardM.Emits x.gadget.constrain ks) (h : k ∈ ks)

/-- Constraints that are added by several computations one after another. -/
theorem exists_emits_forM {ι : Type} {f : ι → BoardM PUnit} {l : List ι}
    (h : ∀ i ∈ l, ∃ ks, BoardM.Emits (f i) ks) :
    ∃ ks, BoardM.Emits (l.forM f) ks
      ∧ ∀ k, k ∈ ks ↔ ∃ i ∈ l, ∃ ls, BoardM.Emits (f i) ls ∧ k ∈ ls := by
  induction l with
  | nil => exact ⟨[], BoardM.emits_pure, by simp⟩
  | cons i l ih =>
    rw [List.forall_mem_cons] at h
    obtain ⟨ks, hks⟩ := h.1
    obtain ⟨ls, hls, hmem⟩ := ih h.2
    have hfirst {k : Constraint} : (∃ ms, BoardM.Emits (f i) ms ∧ k ∈ ms) ↔ k ∈ ks :=
      ⟨fun ⟨ms, hms, hk⟩ => hms.unique hks ▸ hk, fun hk => ⟨ks, hks, hk⟩⟩
    refine ⟨ks ++ ls, hks.bind hls, fun k => ?_⟩
    rw [List.mem_append, hmem, List.exists_mem_cons_iff, hfirst]

namespace Prepared

/-- The constraints can be added to any board. -/
theorem exists_constrain (h : c.Prepared gadget hash depth board) :
    ∃ ks : List Constraint,
      (∀ state : Board, c.constrain.run state = (.ok { c with constrained := true },
        { state with constraints := state.constraints ++ ks.toArray }))
      ∧ ∀ k, k ∈ ks ↔ c.Asks k := by
  obtain ⟨K, hlaid, -⟩ := h.laid
  obtain ⟨gadgetKs, hgadgetEmits, hgadget⟩ :=
    exists_emits_forM (l := c.arena.bindings.toList) (hlaid.chain.exists_emits h.complete)
  refine ⟨_, run_constrain h.constrained hgadgetEmits, fun k => ?_⟩
  rw [List.mem_append, List.mem_append, List.mem_flatMap, hgadget]
  constructor
  · rintro (hk | ⟨d, hd, hk⟩ | ⟨x, hx, ks, hks, hk⟩)
    exacts [.root hk, .leaf d hd hk, .gadget x hx ks hks hk]
  · rintro (hk | ⟨d, hd, hk⟩ | ⟨x, hx, ks, hks, hk⟩)
    exacts [Or.inl hk, Or.inr (Or.inl ⟨d, hd, hk⟩), Or.inr (Or.inr ⟨x, hx, ks, hks, hk⟩)]

end Prepared

/-! ### Computing the wires -/

theorem run_checkSizes {size i : ℕ} {leaves : List (List ℤ)}
    (h : ∀ bits ∈ leaves, bits.length = size) (state : Board) :
    (checkSizes size i leaves).run state = (.ok (), state) := by
  induction leaves generalizing i with
  | nil => rfl
  | cons bits leaves ih =>
    rw [List.forall_mem_cons] at h
    rw [checkSizes, if_neg (not_not.mpr h.1)]
    exact ih h.2

/-- Digests that do not overlap are written one after another. -/
theorem run_assignLeaves {ds : List Digest} {leaves : List (List Bool)} {state : Board}
    (hapart : ds.Pairwise fun d e => Disjoint d.span e.span)
    (hds : ∀ d ∈ ds, 0 < d.first ∧ d.first + d.size ≤ state.values.size)
    (hleaves : List.Forall₂ (fun d bits => bits.length = d.size) ds leaves) :
    ∃ state', ((ds.zip (leaves.map bitEntries)).forM fun p => p.1.assign p.2).run state
        = (.ok PUnit.unit, state')
      ∧ state.Rewrites state' {i | ∃ d ∈ ds, i ∈ d.span}
      ∧ List.Forall₂ (fun d bits => d.Carries state'.valueAt bits) ds leaves := by
  induction hleaves generalizing state with
  | nil => exact ⟨state, rfl, .refl _ _, .nil⟩
  | @cons d bits ds leaves hlength hleaves ih =>
    rw [List.pairwise_cons] at hapart
    rw [List.forall_mem_cons] at hds
    obtain ⟨middle, hassign, hmiddle, hcarries⟩ := Digest.run_assign hlength hds.1.1 hds.1.2
    obtain ⟨last, hrest, hlast, hall⟩ := @ih middle hapart.2 fun e he => by
      rw [hmiddle.size_eq]
      exact hds.2 e he
    refine ⟨last, ?_, (hmiddle.trans hlast).mono ?_, .cons (hcarries.congr fun i hi => ?_) hall⟩
    · rw [List.map_cons, List.zip_cons_cons]
      exact (BoardM.run_forM_cons (i := (d, bitEntries bits)) hassign).trans hrest
    · rintro i (hi | ⟨e, he, hi⟩)
      · exact ⟨d, List.mem_cons_self, hi⟩
      · exact ⟨e, List.mem_cons_of_mem d he, hi⟩
    · apply hlast.valueAt_eq i
      rintro ⟨e, he, hi'⟩
      exact Set.disjoint_left.mp (hapart.1 e he) hi hi'

theorem exists_carries_of_mem {w : ℕ → Fr} {ds : List Digest} {leaves : List (List Bool)}
    (h : List.Forall₂ (fun d bits => Digest.Carries d w bits) ds leaves) {d : Digest}
    (hd : d ∈ ds) : ∃ bits, d.Carries w bits := by
  induction h with
  | nil => exact absurd hd List.not_mem_nil
  | cons hbits _ ih =>
    rcases List.mem_cons.mp hd with rfl | hd
    · exact ⟨_, hbits⟩
    · exact ih hd

/-- Digests look at their own wires only. -/
theorem forall₂_carries_congr {w v : ℕ → Fr} {ds : List Digest} {leaves : List (List Bool)}
    (h : List.Forall₂ (fun d bits => Digest.Carries d w bits) ds leaves)
    (hwv : ∀ d ∈ ds, ∀ i ∈ d.span, v i = w i) :
    List.Forall₂ (fun d bits => Digest.Carries d v bits) ds leaves :=
  ((List.forall₂_and_left _ _).mpr ⟨hwv, h⟩).imp fun _ _ hd => hd.2.congr hd.1

theorem exists_of_mem_rootConstraints {k : Constraint} (hk : k ∈ c.rootConstraints) :
    ∃ i, i < (c.digestAt c.rootPublic).size ∧ i < (c.digestAt c.rootDigest).size
      ∧ k = equalBit i ((c.digestAt c.rootPublic).first + i)
        ((c.digestAt c.rootDigest).first + i) := by
  obtain ⟨⟨⟨j, l⟩, i⟩, hp, rfl⟩ := List.mem_map.mp hk
  have hget := List.mem_zipIdx_iff_getElem?.mp hp
  rw [List.getElem?_zip_eq_some] at hget
  unfold Digest.wires at hget
  obtain ⟨hj, hl⟩ := hget
  obtain ⟨hi, hj⟩ := List.getElem?_eq_some_iff.mp hj
  obtain ⟨hi', hl⟩ := List.getElem?_eq_some_iff.mp hl
  rw [List.length_range'] at hi hi'
  rw [List.getElem_range', one_mul] at hj hl
  exact ⟨i, hi, hi', by rw [← hj, ← hl]⟩

theorem holds_equalBit {w : ℕ → Fr} {i j k : ℕ} (h : w j = w k) :
    (equalBit i j k).Holds w := by
  unfold equalBit Constraint.Holds
  rw [LinearCombination.eval_sub, LinearCombination.eval_var, LinearCombination.eval_var, h,
    sub_self, zero_mul, LinearCombination.eval_zero]

theorem within_equalBit {S : Set ℕ} (hone : oneWire ∈ S) {i j k : ℕ} (hj : j ∈ S) (hk : k ∈ S) :
    (equalBit i j k).Within S :=
  ⟨(LinearCombination.Within.var hj).sub (.var hk), .const hone 1, .zero⟩

/-- What is so once the wires are computed from leaf digests: the known digests carry bits, those of
the leaves the given ones, every gadget has given its output the hash of its inputs, and the root
digest and the public digest carry the root above the leaves. -/
structure Computed (asks : PlacedGadget → List Constraint → Prop)
    (hash : List Bool → List Bool → List Bool) (c : MerkleCircuit) (K : Set ℕ)
    (leaves : List (List Bool)) (root : List Bool) (w : ℕ → Fr) : Prop where
  leaf : List.Forall₂ (fun d bits => d.Carries w bits) c.leafDigests leaves
  known : ∀ i, Arena.Known c.givenDigests c.arena.bindings.toList i →
    ∃ bits, (c.digestAt i).Carries w bits
  done : ∀ x ∈ c.arena.bindings.toList, Arena.Chain.Done asks hash c.arena.digests K w x
  rootDigest : (c.digestAt c.rootDigest).Carries w root
  rootPublic : (c.digestAt c.rootPublic).Carries w root

namespace Standing

variable {asks : PlacedGadget → List Constraint → Prop}

theorem leafDigest_placed (h : c.Standing gadget depth board) :
    ∀ d ∈ c.leafDigests, d.size = gadget.digestSize ∧ 0 < d.first
      ∧ d.first + d.size ≤ board.values.size := by
  obtain ⟨K, hlaid, -⟩ := h.laid
  intro d hd
  obtain ⟨n, hn, rfl⟩ := List.mem_map.mp hd
  have hmem : c.arena.digestIndex n ∈ c.givenDigests := List.mem_map_of_mem hn
  exact hlaid.placed _ (hlaid.given_lt _ hmem)

/-- **The leaves are written and the gadgets computed.**  Then the root digest carries the root. -/
theorem exists_compute (h : c.Standing gadget depth board) (hgadget : gadget.Meets asks hash)
    {K : Set ℕ} (hlaid : c.arena.Laid gadget c.givenDigests c.givenWires K
      (c.digestAt c.rootPublic).span board) {state : Board}
    (hsize : state.values.size = board.values.size) (hone : state.valueAt oneWire = 1)
    {leaves : List (List Bool)} (hcount : leaves.length = 2 ^ depth)
    (hbits : ∀ bits ∈ leaves, bits.length = gadget.digestSize) :
    ∃ middle last, ((c.leafDigests.zip (leaves.map bitEntries)).forM fun p =>
          p.1.assign p.2).run state = (.ok PUnit.unit, middle)
      ∧ (c.arena.bindings.toList.forM fun x => x.gadget.assign).run middle = (.ok PUnit.unit, last)
      ∧ state.Rewrites last {i | i ≠ oneWire}
      ∧ List.Forall₂ (fun d bits => d.Carries last.valueAt bits) c.leafDigests leaves
      ∧ (∀ i, Arena.Known c.givenDigests c.arena.bindings.toList i →
        ∃ bits, (c.digestAt i).Carries last.valueAt bits)
      ∧ (∀ x ∈ c.arena.bindings.toList,
        Arena.Chain.Done asks hash c.arena.digests K last.valueAt x)
      ∧ (c.digestAt c.rootDigest).Carries last.valueAt (treeRoot hash depth leaves) := by
  have hplaced := h.leafDigest_placed
  rw [← hsize] at hplaced
  have hlengths : List.Forall₂ (fun (d : Digest) (bits : List Bool) => bits.length = d.size)
      c.leafDigests leaves := by
    apply List.forall₂_iff_get.mpr
    refine ⟨h.length_leafDigests.trans hcount.symm, fun i hi hi' => ?_⟩
    rw [List.get_eq_getElem, List.get_eq_getElem, hbits _ (List.getElem_mem _),
      (hplaced _ (List.getElem_mem _)).1]
  obtain ⟨middle, hleaves, hmiddle, hcarries⟩ :=
    run_assignLeaves h.apart (fun d hd => (hplaced d hd).2) hlengths
  have hone' : middle.valueAt oneWire = 1 := by
    rw [hmiddle.valueAt_eq, hone]
    rintro ⟨d, hd, hi⟩
    exact absurd hi.1 (not_le.mpr (hplaced d hd).2.1)
  -- the gadgets start from the leaves
  have hgiven : ∀ i ∈ c.givenDigests, (c.digestAt i).span ⊆ c.givenWires
      ∧ ∃ bits, (c.digestAt i).Carries middle.valueAt bits := by
    intro i hi
    refine ⟨hlaid.span_subset i hi, ?_⟩
    obtain ⟨n, hn, rfl⟩ := List.mem_map.mp hi
    have hmem : c.digestAt (c.arena.digestIndex n) ∈ c.leafDigests := List.mem_map_of_mem hn
    exact exists_carries_of_mem hcarries hmem
  obtain ⟨last, hgadgets, hlast, hknown, hdone⟩ := hlaid.chain.run hgadget hone' (Or.inl rfl)
    (fun i hi => by
      rw [hmiddle.size_eq, hsize]
      exact hlaid.final_lt i hi) hgiven
  have hcarries' := forall₂_carries_congr hcarries fun d hd i hi =>
    hlast.valueAt_eq i fun hmem => hmem.2 (Or.inr ⟨d, hd, hi⟩)
  refine ⟨middle, last, hleaves, hgadgets, ?_, hcarries', hknown, hdone, ?_⟩
  · have hrewrites := hmiddle.trans hlast
    refine ⟨hrewrites.rest, hrewrites.size_eq, fun i hi => ?_⟩
    rw [not_not.mp hi, hlast.valueAt_eq oneWire fun hmem => hmem.2 (Or.inl rfl), hone', hone]
  · apply h.root (fun i bits => (c.digestAt i).Carries last.valueAt bits) _ leaves hcount
    · exact List.forall₂_map_left_iff.mpr (List.forall₂_map_left_iff.mp hcarries')
    · exact fun x hx => (hdone x (Array.mem_toList_iff.mpr hx)).hashes

/-- Leaf digests of the right number and width pass the checks of an assignment. -/
theorem run_assign_bits (h : c.Standing gadget depth board) {leaves : List (List Bool)}
    (hcount : leaves.length = 2 ^ depth)
    (hbits : ∀ bits ∈ leaves, bits.length = gadget.digestSize) (state : Board) :
    (c.assign (leaves.map bitEntries)).run state = BoardM.run (do
      (c.leafDigests.zip (leaves.map bitEntries)).forM fun p => p.1.assign p.2
      c.arena.bindings.toList.forM fun x => x.gadget.assign
      (c.digestAt c.rootPublic).assign (← (c.digestAt c.rootDigest).values)) state := by
  have hleafCount : (leaves.map bitEntries).length = c.numLeaves := by
    rw [List.length_map, hcount, numLeaves, h.depth_eq, Nat.one_shiftLeft]
  have hleafSizes : ∀ bits ∈ leaves.map bitEntries, bits.length = c.digestSize := by
    rw [h.digestSize_eq, List.forall_mem_map]
    intro bits hmem
    rw [bitEntries, List.length_map, hbits bits hmem]
  unfold assign
  rw [if_neg (not_not.mpr hleafCount)]
  exact BoardM.run_bind_ok (run_checkSizes hleafSizes state) _

/-- **The wires are computed** from leaf digests, on any board with as many wires. -/
theorem exists_computed (h : c.Standing gadget depth board) (hgadget : gadget.Meets asks hash)
    {K : Set ℕ} (hlaid : c.arena.Laid gadget c.givenDigests c.givenWires K
      (c.digestAt c.rootPublic).span board) {state : Board}
    (hsize : state.values.size = board.values.size) (hone : state.valueAt oneWire = 1)
    {leaves : List (List Bool)} (hcount : leaves.length = 2 ^ depth)
    (hbits : ∀ bits ∈ leaves, bits.length = gadget.digestSize) :
    ∃ state', (c.assign (leaves.map bitEntries)).run state = (.ok (), state')
      ∧ state.Rewrites state' {i | i ≠ oneWire}
      ∧ c.Computed asks hash K leaves (treeRoot hash depth leaves) state'.valueAt := by
  obtain ⟨middle, last, hleaves, hgadgets, hlast, hleaf, hknown, hdone, hroot⟩ :=
    h.exists_compute hgadget hlaid hsize hone hcount hbits
  have hrootPlaced := hlaid.placed _ (hlaid.lt_of_known h.known_root)
  have hsize' : last.values.size = board.values.size := hlast.size_eq.trans hsize
  have hlength : (treeRoot hash depth leaves).length = (c.digestAt c.rootPublic).size := by
    rw [hroot.length_eq, h.rootPublic_eq]
    exact hrootPlaced.1
  have hpublicPlaced : 0 < (c.digestAt c.rootPublic).first ∧
      (c.digestAt c.rootPublic).first + (c.digestAt c.rootPublic).size ≤ last.values.size := by
    rw [h.rootPublic_eq, hsize']
    exact ⟨Nat.zero_lt_one, h.public_le⟩
  obtain ⟨final, hcopy, hfinal, hpublic⟩ :=
    Digest.run_assign hlength hpublicPlaced.1 hpublicPlaced.2
  -- copying the root touches nothing that was computed before
  have hkeep : ∀ i ∈ K, final.valueAt i = last.valueAt i := fun i hi =>
    hfinal.valueAt_eq i (Set.disjoint_left.mp hlaid.reserved hi)
  have hgiven : c.givenWires ⊆ K := hlaid.chain.subset
  have hspan := fun i => hlaid.chain.span_subset hlaid.span_subset (i := i)
  have hone' : final.valueAt oneWire = 1 := by
    rw [hkeep oneWire (hgiven (Or.inl rfl)), hlast.valueAt_eq oneWire fun hne => hne rfl, hone]
  have hrewrites := hlast.trans hfinal
  refine ⟨final, ?_, ⟨hrewrites.rest, hrewrites.size_eq, fun i hi => ?_⟩, ?_⟩
  · have hvalues := Digest.run_values (hrootPlaced.2.2.trans_eq hsize'.symm) hroot
    rw [h.run_assign_bits hcount hbits]
    refine (BoardM.run_bind_ok hleaves _).trans ?_
    refine (BoardM.run_bind_ok hgadgets _).trans ?_
    exact (BoardM.run_bind_ok hvalues _).trans hcopy
  · rw [not_not.mp hi, hone, hone']
  · exact
      { leaf := forall₂_carries_congr hleaf fun d hd i hi => hkeep i (hgiven (Or.inr ⟨d, hd, hi⟩))
        known := fun i hi => by
          obtain ⟨bits, hbits⟩ := hknown i hi
          exact ⟨bits, hbits.congr fun j hj => hkeep j (hspan i hi hj)⟩
        done := fun x hx => by
          obtain ⟨hl, hr⟩ := hlaid.chain.known_inputs x hx
          exact (hdone x hx).keep hkeep subset_rfl (hspan _ hl) (hspan _ hr)
            (hspan _ (Or.inr ⟨x, hx, rfl⟩))
        rootDigest := hroot.congr fun i hi => hkeep i (hspan _ h.known_root hi)
        rootPublic := hpublic }

end Standing

namespace Prepared

/-- The constraints of the circuit hold when those of the gadgets do, the leaves carry bits and the
public digest carries the same bits as the root digest. -/
theorem asks_hold (h : c.Prepared gadget hash depth board) {K : Set ℕ}
    (hlaid : c.arena.Laid gadget c.givenDigests c.givenWires K
      (c.digestAt c.rootPublic).span board) {w : ℕ → Fr} (hone : w oneWire = 1) {root : List Bool}
    (hleaf : ∀ d ∈ c.leafDigests, ∃ bits, d.Carries w bits)
    (hroot : (c.digestAt c.rootDigest).Carries w root)
    (hpublic : (c.digestAt c.rootPublic).Carries w root)
    (hgadget : ∀ x ∈ c.arena.bindings.toList, ∃ ks, BoardM.Emits x.gadget.constrain ks
      ∧ ∀ k ∈ ks, k.Within K ∧ k.Holds w) :
    ∀ k, c.Asks k → k.Within {i | i < board.values.size} ∧ k.Holds w := by
  have hone' : oneWire ∈ {i | i < board.values.size} :=
    hlaid.final_lt _ (hlaid.chain.subset (Or.inl rfl))
  intro k hk
  cases hk with
  | root hk =>
    obtain ⟨i, hi, hi', rfl⟩ := exists_of_mem_rootConstraints hk
    refine ⟨within_equalBit hone' ?_ ?_, holds_equalBit ?_⟩
    · have hle := h.public_le
      rw [h.rootPublic_eq] at hi ⊢
      simp only [Set.mem_ofPred_eq] at hi ⊢
      omega
    · have hspan := hlaid.chain.span_subset hlaid.span_subset h.known_root
      exact hlaid.final_lt _ (hspan ⟨Nat.le_add_right _ _, Nat.add_lt_add_left hi' _⟩)
    · rw [(Digest.carries_iff.mp hpublic).2 i hi, (Digest.carries_iff.mp hroot).2 i hi']
  | leaf d hd hk =>
    have hspan : d.span ⊆ {i | i < board.values.size} := fun i hi =>
      hlaid.final_lt i (hlaid.chain.subset (Or.inr ⟨d, hd, hi⟩))
    obtain ⟨bits, hbits⟩ := hleaf d hd
    exact ⟨Digest.within_booleanConstraints hone' hspan k hk,
      hbits.holds_booleanConstraints hone k hk⟩
  | gadget x hx ks hks hk =>
    obtain ⟨ls, hls, hheld⟩ := hgadget x hx
    rw [hks.unique hls] at hk
    exact ⟨(hheld k hk).1.mono hlaid.final_lt, (hheld k hk).2⟩

/-- **The wires are computed** from leaf digests, on any board with as many wires.  Then the root
digest and the public digest carry the root above the leaves, and all constraints of the circuit
hold. -/
theorem exists_assign (h : c.Prepared gadget hash depth board) {state : Board}
    (hsize : state.values.size = board.values.size) (hone : state.valueAt oneWire = 1)
    {leaves : List (List Bool)} (hcount : leaves.length = 2 ^ depth)
    (hbits : ∀ bits ∈ leaves, bits.length = gadget.digestSize) :
    ∃ state', (c.assign (leaves.map bitEntries)).run state = (.ok (), state')
      ∧ state.Rewrites state' {i | i ≠ oneWire}
      ∧ List.Forall₂ (fun d bits => d.Carries state'.valueAt bits) c.leafDigests leaves
      ∧ (c.digestAt c.rootDigest).Carries state'.valueAt (treeRoot hash depth leaves)
      ∧ (c.digestAt c.rootPublic).Carries state'.valueAt (treeRoot hash depth leaves)
      ∧ ∀ k, c.Asks k → k.Within {i | i < state'.values.size} ∧ k.Holds state'.valueAt := by
  obtain ⟨K, hlaid, -⟩ := h.laid
  obtain ⟨state', hrun, hrewrites, hcomputed⟩ :=
    h.exists_computed h.complete.meets hlaid hsize hone hcount hbits
  have hone' : state'.valueAt oneWire = 1 :=
    (hrewrites.valueAt_eq oneWire fun hne => hne rfl).trans hone
  refine ⟨state', hrun, hrewrites, hcomputed.leaf, hcomputed.rootDigest, hcomputed.rootPublic, ?_⟩
  rw [hrewrites.size_eq, hsize]
  exact h.asks_hold hlaid hone' (fun d => exists_carries_of_mem hcomputed.leaf)
    hcomputed.rootDigest hcomputed.rootPublic fun x hx => (hcomputed.done x hx).holds

end Prepared

/-! ### Adding the constraints before or after -/

/-- Lays a tree out, adds its constraints and computes its wires. -/
def constrainThenAssign (gadget : HashGadget) (depth : ℤ) (leaves : List (List ℤ)) :
    BoardM MerkleCircuit := do
  let c ← (← build gadget depth).constrain
  c.assign leaves
  return c

/-- Lays a tree out, computes its wires and adds its constraints. -/
def assignThenConstrain (gadget : HashGadget) (depth : ℤ) (leaves : List (List ℤ)) :
    BoardM MerkleCircuit := do
  let c ← build gadget depth
  c.assign leaves
  c.constrain

/-- The text of the public root. -/
def rootHex (c : MerkleCircuit) : BoardM (Except BitsError String) :=
  return bitsToHex? (← c.rootBits)

/-- The board holds nothing but the constraints of the circuit, all of which hold, and the root and
public digests carry the root. -/
structure Witnessed (gadget : HashGadget) (c : MerkleCircuit) (root : List Bool) (board : Board) :
    Prop where
  one_eq : board.valueAt oneWire = 1
  primarySize_eq : board.primarySize = gadget.digestSize
  public_le : 1 + gadget.digestSize ≤ board.values.size
  rootPublic_eq : c.digestAt c.rootPublic = ⟨1, gadget.digestSize, "root_digest_bits"⟩
  carries_rootDigest : (c.digestAt c.rootDigest).Carries board.valueAt root
  carries_rootPublic : (c.digestAt c.rootPublic).Carries board.valueAt root
  within : ∀ k ∈ board.constraints, k.Within {i | i < board.values.size}
  holds : ∀ k ∈ board.constraints, k.Holds board.valueAt

namespace Witnessed

variable {root : List Bool}

theorem ready (h : c.Witnessed gadget root board) : board.Ready := by
  refine ⟨h.one_eq, ?_⟩
  rw [h.primarySize_eq, Nat.lt_iff_add_one_le, Nat.add_comm]
  exact h.public_le

theorem wellFormed (h : c.Witnessed gadget root board) : board.system.WellFormed := by
  intro k hk
  rw [h.ready.numVariables_eq]
  exact Constraint.boundedBy_iff.mpr (h.within k (Array.mem_toList_iff.mp hk))

theorem firstUnsatisfied?_eq (h : c.Witnessed gadget root board) :
    board.firstUnsatisfied? = .ok none :=
  h.ready.firstUnsatisfied?_eq_none h.wellFormed h.holds

/-- The public inputs are the bits of the root. -/
theorem primaryInput_eq (h : c.Witnessed gadget root board) :
    board.primaryInput = root.map bitScalar := by
  have hprimary : board.primaryInput.length = gadget.digestSize := by
    rw [h.ready.length_primaryInput]
    exact h.primarySize_eq
  have hcarries := h.carries_rootPublic
  unfold Digest.Carries Digest.wires at hcarries
  rw [h.rootPublic_eq, ← h.ready.wireValues_eq, map_wireValues_range' hprimary] at hcarries
  exact hcarries

theorem run_rootBits (h : c.Witnessed gadget root board) :
    c.rootBits.run board = (.ok (bitEntries root), board) := by
  apply Digest.run_values _ h.carries_rootPublic
  rw [h.rootPublic_eq]
  exact h.public_le

theorem length_root (h : c.Witnessed gadget root board) : root.length = gadget.digestSize := by
  rw [h.carries_rootPublic.length_eq, h.rootPublic_eq]

/-- The text of the root spells its bits. -/
theorem exists_run_rootHex (h : c.Witnessed gadget root board) (hfour : 4 ∣ gadget.digestSize) :
    ∃ hex, c.rootHex.run board = (.ok (.ok hex), board) ∧ (∀ x ∈ hex.toList, isLowerHex x = true)
      ∧ hex.toList.flatMap nibbleBits = bitEntries root := by
  obtain ⟨hex, hhex⟩ := exists_bitsToHex?_eq (h.length_root ▸ hfour)
  obtain ⟨hlower, hbits⟩ := flatMap_nibbleBits_of_bitsToHex? hhex
  refine ⟨hex, ?_, hlower, hbits⟩
  unfold rootHex
  rw [BoardM.run_bind_ok h.run_rootBits, hhex]
  rfl

end Witnessed

/-- What holds on a board with the constraints of a circuit and the wires computed. -/
theorem Prepared.witnessed (h : c.Prepared gadget hash depth board) {root : List Bool}
    {final : Board} (hone : final.valueAt oneWire = 1)
    (hprimary : final.primarySize = board.primarySize)
    (hsize : final.values.size = board.values.size)
    (hroot : (c.digestAt c.rootDigest).Carries final.valueAt root)
    (hpublic : (c.digestAt c.rootPublic).Carries final.valueAt root)
    (hconstraints : ∀ k ∈ final.constraints, c.Asks k)
    (hholds : ∀ k, c.Asks k → k.Within {i | i < final.values.size} ∧ k.Holds final.valueAt) :
    c.Witnessed gadget root final where
  one_eq := hone
  primarySize_eq := hprimary.trans h.primarySize_eq
  public_le := h.public_le.trans_eq hsize.symm
  rootPublic_eq := h.rootPublic_eq
  carries_rootDigest := hroot
  carries_rootPublic := hpublic
  within := fun k hk => (hholds k (hconstraints k hk)).1
  holds := fun k hk => (hholds k (hconstraints k hk)).2

/-- Whether the constraints are on the board does not matter to the digests. -/
theorem Witnessed.markConstrained {root : List Bool} (h : c.Witnessed gadget root board) :
    ({ c with constrained := true } : MerkleCircuit).Witnessed gadget root board :=
  ⟨h.one_eq, h.primarySize_eq, h.public_le, h.rootPublic_eq, h.carries_rootDigest,
    h.carries_rootPublic, h.within, h.holds⟩

section Orders

variable (hgadget : gadget.Complete hash) {depth : ℤ} (hdepth : 1 ≤ depth)
  {leaves : List (List Bool)} (hcount : leaves.length = 2 ^ depth.toNat)
  (hbits : ∀ bits ∈ leaves, bits.length = gadget.digestSize)

include hgadget hdepth hcount hbits

theorem exists_constrainThenAssign :
    ∃ c board, (constrainThenAssign gadget depth (leaves.map bitEntries)).run Board.empty
        = (.ok c, board)
      ∧ c.Witnessed gadget (treeRoot hash depth.toNat leaves) board := by
  obtain ⟨c, board, hbuild, hc⟩ := exists_build hgadget hdepth
  obtain ⟨ks, hconstrain, hasks⟩ := hc.exists_constrain
  have hsize : ({ board with constraints := board.constraints ++ ks.toArray } : Board).values.size
      = board.values.size := rfl
  obtain ⟨last, hassign, hlast, -, hroot, hpublic, hholds⟩ :=
    hc.exists_assign hsize hc.one_eq hcount hbits
  refine ⟨{ c with constrained := true }, last, ?_, Witnessed.markConstrained ?_⟩
  · unfold constrainThenAssign
    refine (BoardM.run_bind_ok hbuild _).trans ?_
    refine (BoardM.run_bind_ok (hconstrain board) _).trans ?_
    exact (BoardM.run_bind_ok hassign _).trans rfl
  · apply hc.witnessed _ _ hlast.size_eq hroot hpublic _ hholds
    · rw [hlast.valueAt_eq oneWire fun hne => hne rfl]
      exact hc.one_eq
    · rw [hlast.rest]
    · rw [hlast.rest]
      simpa [hc.constraints_eq] using fun k hk => (hasks k).mp hk

theorem exists_assignThenConstrain :
    ∃ c board, (assignThenConstrain gadget depth (leaves.map bitEntries)).run Board.empty
        = (.ok c, board)
      ∧ c.Witnessed gadget (treeRoot hash depth.toNat leaves) board := by
  obtain ⟨c, board, hbuild, hc⟩ := exists_build hgadget hdepth
  obtain ⟨ks, hconstrain, hasks⟩ := hc.exists_constrain
  obtain ⟨last, hassign, hlast, -, hroot, hpublic, hholds⟩ :=
    hc.exists_assign rfl hc.one_eq hcount hbits
  refine ⟨{ c with constrained := true },
    { last with constraints := last.constraints ++ ks.toArray }, ?_, Witnessed.markConstrained ?_⟩
  · unfold assignThenConstrain
    refine (BoardM.run_bind_ok hbuild _).trans ?_
    exact (BoardM.run_bind_ok hassign _).trans (hconstrain last)
  · refine hc.witnessed ?_ ?_ hlast.size_eq hroot hpublic ?_ hholds
    · show last.valueAt oneWire = 1
      rw [hlast.valueAt_eq oneWire fun hne => hne rfl]
      exact hc.one_eq
    · show last.primarySize = board.primarySize
      rw [hlast.rest]
    · show ∀ k ∈ last.constraints ++ ks.toArray, c.Asks k
      rw [hlast.rest]
      simpa [hc.constraints_eq] using fun k hk => (hasks k).mp hk

/-- **The witness is complete.**  Whatever the depth, the gadget and the leaf digests are, a tree
whose wires are computed before or after its constraints are added passes its own check: the root
and public digests carry the root above the leaves, bit for bit the public inputs, and the text of
the root spells these bits. -/
theorem witness_complete :
    ∀ m ∈ [constrainThenAssign gadget depth (leaves.map bitEntries),
        assignThenConstrain gadget depth (leaves.map bitEntries)],
      ∃ c board, m.run Board.empty = (.ok c, board) ∧ board.firstUnsatisfied? = .ok none
        ∧ (c.digestAt c.rootPublic).Carries board.valueAt (treeRoot hash depth.toNat leaves)
        ∧ (c.digestAt c.rootDigest).Carries board.valueAt (treeRoot hash depth.toNat leaves)
        ∧ board.primaryInput = (treeRoot hash depth.toNat leaves).map bitScalar
        ∧ (4 ∣ gadget.digestSize → ∃ hex, c.rootHex.run board = (.ok (.ok hex), board)
          ∧ (∀ x ∈ hex.toList, isLowerHex x = true)
          ∧ hex.toList.flatMap nibbleBits = bitEntries (treeRoot hash depth.toNat leaves)) := by
  intro m hm
  have hruns : ∃ c board, m.run Board.empty = (.ok c, board)
      ∧ c.Witnessed gadget (treeRoot hash depth.toNat leaves) board := by
    simp only [List.mem_cons, List.not_mem_nil, or_false] at hm
    rcases hm with rfl | rfl
    · exact exists_constrainThenAssign hgadget hdepth hcount hbits
    · exact exists_assignThenConstrain hgadget hdepth hcount hbits
  obtain ⟨c, board, hrun, h⟩ := hruns
  exact ⟨c, board, hrun, h.firstUnsatisfied?_eq, h.carries_rootPublic, h.carries_rootDigest,
    h.primaryInput_eq, h.exists_run_rootHex⟩

end Orders

/-- Four digests of four bits. -/
def fourLeaves : List (List Bool) :=
  [[true, false, true, true], [false, false, true, false], [true, true, true, false],
    [false, true, false, true]]

/-- A tree of depth two over the exclusive or of four bits. -/
theorem witness_complete_fourLeaves :
    (XorGadget.gadget 4 1).Complete (XorGadget.hash 4 1)
      ∧ fourLeaves.length = 2 ^ (2 : ℤ).toNat ∧ (∀ bits ∈ fourLeaves, bits.length = 4)
      ∧ ∀ m ∈ [constrainThenAssign (XorGadget.gadget 4 1) 2 (fourLeaves.map bitEntries),
          assignThenConstrain (XorGadget.gadget 4 1) 2 (fourLeaves.map bitEntries)],
        ∃ c board, m.run Board.empty = (.ok c, board) ∧ board.firstUnsatisfied? = .ok none
          ∧ board.primaryInput = [0, 1, 1, 1]
          ∧ ∃ hex, c.rootHex.run board = (.ok (.ok hex), board)
            ∧ hex.toList.flatMap nibbleBits = [0, 1, 1, 1] := by
  have hcomplete := XorGadget.complete 4 1
  have hcount : fourLeaves.length = 2 ^ (2 : ℤ).toNat := rfl
  have hbits : ∀ bits ∈ fourLeaves, bits.length = 4 := by decide
  refine ⟨hcomplete, hcount, hbits, fun m hm => ?_⟩
  have hroot : treeRoot (XorGadget.hash 4 1) (2 : ℤ).toNat fourLeaves
      = [false, true, true, true] := by decide
  obtain ⟨c, board, hrun, hnone, -, -, hprimary, hhex⟩ :=
    witness_complete hcomplete (show (1 : ℤ) ≤ 2 by decide) hcount hbits m hm
  obtain ⟨hex, hrunHex, -, hspells⟩ := hhex ⟨1, rfl⟩
  rw [hroot] at hprimary hspells
  exact ⟨c, board, hrun, hnone, hprimary, hex, hrunHex, hspells⟩

end MerkleCircuit

end MerkleSnark
