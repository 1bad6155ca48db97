import Mathlib
import MerkleSnark.Proofs.Groth16.Program
import MerkleSnark.Proofs.Merkle.Arena

/-!
# The public input is the root

With a sound hash gadget the constraints of a tree leave no choice: the leaf digests carry bits, and
the public input is the root above them.  The bits of the inner digests are not constrained on their
own; every one of them is the output of a gadget.

## Main definitions

* `MerkleCircuit.LaidOut` — what a layout leaves behind.

## Main results

* `MerkleCircuit.laidOut_of_build` — every layout on an empty board.
* `MerkleCircuit.exists_constraints` — the constraints, and what they force.
* `MerkleCircuit.primary_eq_treeRoot` — the public input of a system that is satisfied.
-/

namespace MerkleSnark

namespace Arena

variable {gadget : HashGadget} {hash : List Bool → List Bool → List Bool} {a a' : Arena}
  {board board' : Board}

/-- The digest of a leaf. -/
def newLeaf (gadget : HashGadget) (i : ℕ) : Arena.M ℕ := do
  newNode ⟨.leaf, ← newDigest gadget.digestSize s!"leaf_{i}", none⟩

theorem newLeaf_spec {i node : ℕ} (hvalid : a.Valid gadget hash)
    (h : Runs (newLeaf gadget i) a board node a' board') :
    Grows gadget hash a board a' board' ∧ node < a'.nodes.size
      ∧ (a'.digests.getD (a'.digestIndex node) default).label = s!"leaf_{i}" := by
  unfold newLeaf at h
  obtain ⟨digest, b, middle, hnew, h⟩ := exists_of_runs_bind h
  obtain ⟨hgrows, hlt, hlabel⟩ := newDigest_spec hvalid hnew
  obtain ⟨rfl, rfl, rfl⟩ := eq_of_runs (run_newNode _ _ _) h
  refine ⟨⟨hgrows.keeps.trans (extends_pushNode _ _), hgrows.valid.pushNode hlt,
    hgrows.primarySize_eq⟩, ?_, ?_⟩
  · rw [Array.size_push]
    exact Nat.lt_succ_self _
  · rw [digestIndex_pushNode]
    exact hlabel

theorem newLeaves_spec {l nodes : List ℕ} (hvalid : a.Valid gadget hash)
    (h : Runs (l.mapM (newLeaf gadget)) a board nodes a' board') :
    Grows gadget hash a board a' board' ∧ (∀ n ∈ nodes, n < a'.nodes.size)
      ∧ nodes.map (fun n => (a'.digests.getD (a'.digestIndex n) default).label)
        = l.map fun i => s!"leaf_{i}" := by
  induction l generalizing a board nodes with
  | nil =>
    obtain ⟨rfl, rfl, rfl⟩ := eq_of_runs rfl h
    exact ⟨Grows.refl hvalid _, by simp, rfl⟩
  | cons i l ih =>
    rw [List.mapM_cons] at h
    obtain ⟨node, b, middle, hleaf, h⟩ := exists_of_runs_bind h
    obtain ⟨rest, b', middle', hrest, h⟩ := exists_of_runs_bind h
    obtain ⟨rfl, rfl, rfl⟩ := eq_of_runs rfl h
    obtain ⟨hfirst, hnode, hlabel⟩ := newLeaf_spec hvalid hleaf
    obtain ⟨hgrows, hnodes, hlabels⟩ := ih hfirst.valid hrest
    refine ⟨hfirst.trans hgrows, ?_, ?_⟩
    · exact List.forall_mem_cons.mpr ⟨hnode.trans_le hgrows.keeps.size_nodes_le, hnodes⟩
    · rw [List.map_cons, List.map_cons, hlabels, hgrows.keeps.digestIndex_eq hnode,
        hgrows.keeps.digests_getD (hfirst.valid.digestIndex_lt node hnode), hlabel]

end Arena

namespace MerkleCircuit

variable {gadget : HashGadget} {hash : List Bool → List Bool → List Bool} {c : MerkleCircuit}
  {board : Board}

/-- A circuit of some depth as it stands on a board: the public digest holds the first wires, and
the root digest is tied to the leaves by the gadgets. -/
structure LaidOut (gadget : HashGadget) (hash : List Bool → List Bool → List Bool) (depth : ℕ)
    (c : MerkleCircuit) (board : Board) : Prop where
  constrained : c.constrained = false
  valid : c.arena.Valid gadget hash
  primarySize_eq : board.primarySize = gadget.digestSize
  rootPublic_eq : c.digestAt c.rootPublic = ⟨1, gadget.digestSize, "root_digest_bits"⟩
  rootDigest_lt : c.rootDigest < c.arena.digests.size
  leafNodes_lt : ∀ n ∈ c.leafNodes, n < c.arena.nodes.size
  labels : c.leafDigests.map Digest.label = (List.range (2 ^ depth)).map fun i => s!"leaf_{i}"
  root : ∀ V, c.arena.Closed hash V → ∀ xs, xs.length = 2 ^ depth →
    List.Forall₂ V (c.leafNodes.map c.arena.digestIndex) xs → V c.rootDigest (treeRoot hash depth xs)

theorem valid_empty : ({} : Arena).Valid gadget hash :=
  ⟨fun i hi => absurd hi (Nat.not_lt_zero i), fun n hn => absurd hn (Nat.not_lt_zero n),
    fun x hx => absurd hx (Array.not_mem_empty x)⟩

theorem laidOut_of_layOut (hgadget : gadget.Sound hash) {depth : ℕ} (hdepth : depth ≠ 0)
    {a : Arena} (h : Arena.Runs (layOut gadget depth) {} Board.empty c a board) :
    c.LaidOut gadget hash depth board := by
  unfold layOut at h
  obtain ⟨values, labels, hfirst⟩ :=
    Arena.run_newDigest gadget.digestSize "root_digest_bits" {} Board.empty
  replace h := Arena.runs_rest hfirst h
  obtain ⟨_, _, boardA, hinputs, h⟩ := Arena.exists_of_runs_bind h
  obtain ⟨hset, rfl⟩ := Arena.run_of_runs_lift hinputs
  have hprimary := BoardM.primarySize_of_run_setInputSize hset
  obtain ⟨leafNodes, b, boardB, hleaves, h⟩ := Arena.exists_of_runs_bind h
  obtain ⟨rootDigest, b', boardC, hroot, h⟩ := Arena.exists_of_runs_bind h
  obtain ⟨rootNode, b'', boardD, hlevels, h⟩ := Arena.exists_of_runs_bind h
  obtain ⟨rfl, rfl, rfl⟩ := Arena.eq_of_runs rfl h
  have hvalid : Arena.Valid gadget hash { digests := #[⟨1, gadget.digestSize, "root_digest_bits"⟩] } :=
    valid_empty.pushDigest rfl
  obtain ⟨hleafGrows, hleafNodes, hleafLabels⟩ := Arena.newLeaves_spec hvalid hleaves
  obtain ⟨hrootGrows, hrootLt, -⟩ := Arena.newDigest_spec hleafGrows.valid hroot
  have hleafNodes' : ∀ n ∈ leafNodes, n < b'.nodes.size := fun n hn =>
    (hleafNodes n hn).trans_le hrootGrows.keeps.size_nodes_le
  obtain ⟨htreeGrows, htree⟩ :=
    Arena.joinLevels_spec hgadget hrootGrows.valid hleafNodes' hrootLt hlevels
  have hgrows := hleafGrows.trans (hrootGrows.trans htreeGrows)
  -- the leaves and the public digest stay where they are while the tree grows above them
  have hkeeps := (hrootGrows.trans htreeGrows).keeps
  refine ⟨rfl, htreeGrows.valid, ?_, ?_, ?_, ?_, ?_, ?_⟩
  · rw [hgrows.primarySize_eq, hprimary]
  · exact (hgrows.keeps.digests_getD (i := 0) (Nat.succ_pos _)).trans rfl
  · exact hrootLt.trans_le htreeGrows.keeps.size_digests_le
  · exact fun n hn => (hleafNodes n hn).trans_le hkeeps.size_nodes_le
  · rw [Nat.one_shiftLeft] at hleafLabels
    rw [← hleafLabels]
    refine List.map_map.trans (List.map_congr_left fun n hn => ?_)
    have hn := hleafNodes n hn
    have hindex := hkeeps.digestIndex_eq hn
    have hdigest := hkeeps.digests_getD (hleafGrows.valid.digestIndex_lt n hn)
    rw [← hdigest, ← hindex]
    rfl
  · intro V hV xs hlength hxs
    refine htree hdepth V hV xs hlength ?_
    rwa [← htreeGrows.keeps.map_digestIndex hleafNodes']

/-- Every circuit that is built on an empty board is laid out as it should be. -/
theorem laidOut_of_build (hgadget : gadget.Sound hash) {depth : ℤ}
    (h : (build gadget depth).run Board.empty = (.ok c, board)) :
    1 ≤ depth ∧ c.LaidOut gadget hash depth.toNat board := by
  obtain ⟨hdepth, a, hruns⟩ := build_eq_ok_iff.mp h
  exact ⟨hdepth, laidOut_of_layOut hgadget (by omega) hruns⟩

/-! ### Constraints -/

variable {w : ℕ → Fr}

theorem eq_of_holds_equalBit (hw : w oneWire = 1) {i pub root : ℕ}
    (h : (equalBit i pub root).Holds w) : w pub = w root := by
  unfold equalBit Constraint.Holds at h
  rw [LinearCombination.eval_sub, LinearCombination.eval_var, LinearCombination.eval_var,
    LinearCombination.eval_const, hw, mul_one, mul_one, LinearCombination.eval_zero] at h
  exact sub_eq_zero.mp h

/-- There is an equation for every bit of the root. -/
theorem rootConstraints_eq (hsize : (c.digestAt c.rootPublic).size = (c.digestAt c.rootDigest).size) :
    c.rootConstraints = (List.range (c.digestAt c.rootPublic).size).map fun i =>
      equalBit i ((c.digestAt c.rootPublic).first + i) ((c.digestAt c.rootDigest).first + i) := by
  unfold rootConstraints Digest.wires
  refine List.ext_getElem (by simp [hsize]) fun i _ _ => ?_
  simp

/-- The equations of the root copy the bits of the computed root. -/
theorem carries_rootPublic (hw : w oneWire = 1) (h : ∀ k ∈ c.rootConstraints, k.Holds w)
    (hsize : (c.digestAt c.rootPublic).size = (c.digestAt c.rootDigest).size) {bits : List Bool}
    (hroot : (c.digestAt c.rootDigest).Carries w bits) :
    (c.digestAt c.rootPublic).Carries w bits := by
  obtain ⟨hlength, hbits⟩ := Digest.carries_iff.mp hroot
  refine Digest.carries_iff.mpr ⟨hlength.trans hsize.symm, fun i hi => ?_⟩
  rw [← hbits i (hsize ▸ hi)]
  rw [rootConstraints_eq hsize, List.forall_mem_map] at h
  exact eq_of_holds_equalBit hw (h i (List.mem_range.mpr hi))

/-- Digests each of which carries some bits carry a list of bits together. -/
theorem exists_forall₂_carries {ds : List Digest} (h : ∀ d ∈ ds, ∃ bits, d.Carries w bits) :
    ∃ leaves, List.Forall₂ (fun d bits => Digest.Carries d w bits) ds leaves := by
  have hsome : ∀ d : Digest, ∃ bits, d ∈ ds → d.Carries w bits := by
    intro d
    by_cases hd : d ∈ ds
    · obtain ⟨bits, hbits⟩ := h d hd
      exact ⟨bits, fun _ => hbits⟩
    · exact ⟨[], fun hmem => absurd hmem hd⟩
  choose f hf using hsome
  refine ⟨ds.map f, ?_⟩
  rw [List.forall₂_map_right_iff, List.forall₂_same]
  exact hf

/-- The constraints are added in the order root, leaves, gadgets. -/
theorem run_constrain (hconstrained : c.constrained = false) {ks : List Constraint}
    (hemits : BoardM.Emits (c.arena.bindings.toList.forM fun x => x.gadget.constrain) ks)
    (state : Board) :
    c.constrain.run state = (.ok { c with constrained := true },
      { state with constraints := state.constraints ++ (c.rootConstraints
        ++ (c.leafDigests.flatMap Digest.booleanConstraints ++ ks)).toArray }) := by
  have hall := (BoardM.emits_forM_addConstraint c.rootConstraints).bind
    ((BoardM.Emits.forM (l := c.leafDigests) fun d _ => Digest.emits_constrain d).bind hemits)
  have hrun := BoardM.run_bind_ok (hall state) fun _ =>
    (pure { c with constrained := true } : BoardM MerkleCircuit)
  rw [bind_assoc, bind_assoc] at hrun
  unfold constrain
  rw [if_neg (by rw [hconstrained]; exact Bool.false_ne_true)]
  exact hrun

/-- The constraints of a circuit, and what they force: leaf digests that carry bits, and the root
above these bits on the public digest. -/
theorem exists_constraints {depth : ℕ} (hc : c.LaidOut gadget hash depth board) :
    ∃ ks : List Constraint, c.constrain.run board = (.ok { c with constrained := true },
        { board with constraints := board.constraints ++ ks.toArray })
      ∧ ∀ w : ℕ → Fr, w oneWire = 1 → (∀ k ∈ ks, k.Holds w) →
        ∃ leaves, List.Forall₂ (fun d bits => d.Carries w bits) c.leafDigests leaves
          ∧ (c.digestAt c.rootPublic).Carries w (treeRoot hash depth leaves) := by
  have hgadget : ∀ x, ∃ ks, x ∈ c.arena.bindings.toList → BoardM.Emits x.gadget.constrain ks
      ∧ ∀ w : ℕ → Fr, w oneWire = 1 → (∀ k ∈ ks, k.Holds w) →
        ∀ l r, (c.digestAt x.left).Carries w l → (c.digestAt x.right).Carries w r →
          (c.digestAt x.output).Carries w (hash l r) := by
    intro x
    by_cases hx : x ∈ c.arena.bindings.toList
    · obtain ⟨ks, hks⟩ := (hc.valid.computes x (Array.mem_toList_iff.mp hx)).forces
      exact ⟨ks, fun _ => hks⟩
    · exact ⟨[], fun hmem => absurd hmem hx⟩
  choose emitted hemitted using hgadget
  refine ⟨_, run_constrain hc.constrained
    (BoardM.Emits.forM (l := c.arena.bindings.toList) fun x hx => (hemitted x hx).1) board,
    fun w hw hks => ?_⟩
  simp only [List.mem_append, or_imp, forall_and] at hks
  obtain ⟨hroot, hleaf, hinner⟩ := hks
  have hleaves := exists_forall₂_carries fun d hd =>
    Digest.exists_carries_of_holds hw fun k hk => hleaf k (List.mem_flatMap.mpr ⟨d, hd, hk⟩)
  obtain ⟨leaves, hleaves⟩ := hleaves
  -- carrying bits is a relation that every gadget of the tree carries on
  have hclosed : c.arena.Closed hash fun i bits => (c.digestAt i).Carries w bits := by
    intro x hx l r
    have hx := Array.mem_toList_iff.mpr hx
    exact (hemitted x hx).2 w hw (fun k hk => hinner k (List.mem_flatMap.mpr ⟨x, hx, hk⟩)) l r
  refine ⟨leaves, hleaves, carries_rootPublic hw hroot ?_ (hc.root _ hclosed leaves ?_ ?_)⟩
  · rw [hc.rootPublic_eq]
    exact (hc.valid.size_eq _ hc.rootDigest_lt).symm
  · have hlabels := congrArg List.length hc.labels
    rw [List.length_map, List.length_map, List.length_range] at hlabels
    rw [← hleaves.length_eq, hlabels]
  · unfold leafDigests at hleaves
    rw [List.forall₂_map_left_iff] at hleaves ⊢
    exact hleaves

/-- The first wires after the constant one are the primary inputs. -/
theorem map_wireValues_range' {size : ℕ} {primary auxiliary : List Fr}
    (hprimary : primary.length = size) :
    (List.range' 1 size).map (Groth16.wireValues (1 :: (primary ++ auxiliary))) = primary := by
  subst hprimary
  refine List.ext_getElem (by simp) fun i hi _ => ?_
  have hi : i < primary.length := by simpa using hi
  have hvalue : Groth16.wireValues (1 :: (primary ++ auxiliary)) (1 + 1 * i)
      = (primary ++ auxiliary).getD i 0 := by
    unfold Groth16.wireValues
    rw [one_mul, Nat.add_comm, List.getD_cons_succ]
  rw [List.getElem_map, List.getElem_range', hvalue, List.getD_append _ _ _ _ hi,
    List.getD_eq_getElem]

/-- **The public input is the root.**  Whatever the inputs are, if they satisfy the constraints of a
circuit on a board of its own, the leaf digests carry bits, and the primary input is the root above
these bits, bit for bit. -/
theorem primary_eq_treeRoot (hgadget : gadget.Sound hash) {depth : ℤ}
    (h : BoardM.run (do (← build gadget depth).constrain) Board.empty = (.ok c, board))
    {primary auxiliary : List Fr} (hprimary : primary.length = board.system.primarySize)
    (hsatisfied : board.system.Satisfied (Groth16.wireValues (1 :: (primary ++ auxiliary)))) :
    ∃ leaves : List (List Bool),
      c.leafDigests.map Digest.label = (List.range (2 ^ depth.toNat)).map (fun i => s!"leaf_{i}")
        ∧ List.Forall₂
          (fun d bits => d.Carries (Groth16.wireValues (1 :: (primary ++ auxiliary))) bits)
          c.leafDigests leaves
        ∧ primary = (treeRoot hash depth.toNat leaves).map bitScalar := by
  obtain ⟨c', middle, hbuild, hconstrain⟩ := BoardM.exists_of_run_bind h
  obtain ⟨-, hc⟩ := laidOut_of_build hgadget hbuild
  obtain ⟨ks, hrun, hforces⟩ := exists_constraints hc
  obtain ⟨hok, hboard⟩ := Prod.mk.inj (hrun.symm.trans hconstrain)
  obtain rfl := Except.ok.inj hok
  subst hboard
  obtain ⟨leaves, hleaves, hroot⟩ := hforces _ rfl fun k hk => hsatisfied k (by
    unfold Board.system
    rw [Array.toList_append]
    exact List.mem_append_right _ hk)
  refine ⟨leaves, hc.labels, hleaves, ?_⟩
  unfold Digest.Carries Digest.wires at hroot
  rw [hc.rootPublic_eq, map_wireValues_range' (hprimary.trans hc.primarySize_eq)] at hroot
  exact hroot

/-- A tree of depth one over the exclusive or of single bits. -/
theorem primary_eq_treeRoot_xor : ∃ c board,
    BoardM.run (do (← build (XorGadget.gadget 1 1) 1).constrain) Board.empty = (.ok c, board)
      ∧ [(1 : Fr)].length = board.system.primarySize
      ∧ board.system.Satisfied (Groth16.wireValues (1 :: ([1] ++ [1, 0, 1])))
      ∧ ∃ leaves : List (List Bool),
        c.leafDigests.map Digest.label = (List.range (2 ^ (1 : ℤ).toNat)).map (fun i => s!"leaf_{i}")
          ∧ List.Forall₂
            (fun d bits => d.Carries (Groth16.wireValues (1 :: ([1] ++ [1, 0, 1]))) bits)
            c.leafDigests leaves
          ∧ [1] = (treeRoot (XorGadget.hash 1 1) (1 : ℤ).toNat leaves).map bitScalar := by
  have hsome : (BoardM.run
      (do (← build (XorGadget.gadget 1 1) 1).constrain) Board.empty).1.toBool = true := by
    decide +kernel
  have hsize : [(1 : Fr)].length = (BoardM.run
      (do (← build (XorGadget.gadget 1 1) 1).constrain) Board.empty).2.system.primarySize := by
    decide +kernel
  have hsatisfied : (BoardM.run
      (do (← build (XorGadget.gadget 1 1) 1).constrain) Board.empty).2.system.Satisfied
        (Groth16.wireValues (1 :: ([1] ++ [1, 0, 1]))) := by
    decide +kernel
  rcases hrun : BoardM.run (do (← build (XorGadget.gadget 1 1) 1).constrain) Board.empty with
    ⟨result, board⟩
  rw [hrun] at hsome hsize hsatisfied
  obtain ⟨c, rfl⟩ := BoardM.exists_ok_of_toBool hsome
  exact ⟨c, board, rfl, hsize, hsatisfied, primary_eq_treeRoot (XorGadget.sound 1 1) hrun hsize hsatisfied⟩

end MerkleCircuit

end MerkleSnark
