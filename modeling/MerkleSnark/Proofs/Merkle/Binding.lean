import Mathlib
import MerkleSnark.Proofs.Circuit.Sha256Complete
import MerkleSnark.Proofs.Groth16.Binding
import MerkleSnark.Proofs.Merkle.Witness

/-!
# Public wires are tied once

The gadgets of a tree stand between digests that are apart from the public one, so when their
constraints mention no foreign wires, the only constraints on public wires are those of the root.
The system of a tree is pinned then, and no proof is accepted for two public inputs.

## Main definitions

* `HashGadget.Local` — the constraints of a gadget mention its digests and its own wires only.
* `Arena.Clear` — no gadget of a layout mentions the public wires.
* `MerkleCircuit.Fenced` — only the equations of the root mention the public wires.

## Main results

* `Arena.Clear.bind`, `Arena.Clear.joinPairs`, `Arena.Clear.joinLevels` — what a layout keeps.
* `MerkleCircuit.pinned_of_constrain` — the system of a tree is pinned.
* `MerkleCircuit.proof_bound_to_root` — a proof is bound to its public root.
-/

namespace MerkleSnark

/-! ### Local gadgets -/

/-- Placing a gadget between suitable digests does nothing but allocate wires, and its constraints
mention the constant wire, those of the digests and those that were allocated. -/
def HashGadget.Local (gadget : HashGadget) : Prop :=
  ∀ (left right output : Digest) (label : String) (board board' : Board) (placed : PlacedGadget),
    gadget.Layout left right output board.values.size →
      (gadget.place left right output label).run board = (.ok placed, board') →
        board.Allocates board' ∧ ∃ ks, BoardM.Emits placed.constrain ks ∧
          ∀ k ∈ ks, k.Within ({oneWire} ∪ left.span ∪ right.span
            ∪ (output.span ∪ Set.Ico board.values.size board'.values.size))

/-- Complete gadgets are local. -/
theorem HashGadget.Complete.isLocal {gadget : HashGadget}
    {hash : List Bool → List Bool → List Bool} (h : gadget.Complete hash) : gadget.Local := by
  intro left right output label board board' placed hlayout hplace
  obtain ⟨placed', board'', hplace', hallocates, ks, hemits, hwithin, -⟩ :=
    h left right output label board hlayout
  obtain ⟨hok, rfl⟩ := Prod.mk.inj (hplace'.symm.trans hplace)
  obtain rfl := Except.ok.inj hok
  exact ⟨hallocates, ks, hemits, hwithin⟩

/-! ### Layouts -/

namespace Arena

variable {gadget : HashGadget} {a a' : Arena} {board board' : Board} {pub out : Set ℕ}

/-- The constraints of a gadget mention wires that there are, and no public ones. -/
def Spares (pub : Set ℕ) (wires : ℕ) (x : Binding) : Prop :=
  ∃ ks, BoardM.Emits x.gadget.constrain ks ∧ ∀ k ∈ ks, k.Within {i | i ∉ pub ∧ i < wires}

/-- No gadget mentions the public wires. -/
structure Clear (gadget : HashGadget) (pub : Set ℕ) (a : Arena) (board : Board) : Prop where
  placed : Placed gadget a board
  pos : 0 < board.values.size
  public_pos : oneWire ∉ pub
  public_lt : ∀ i ∈ pub, i < board.values.size
  spares : ∀ x ∈ a.bindings, Spares pub board.values.size x

/-- The node has a digest whose wires are none of the given ones. -/
def Off (S : Set ℕ) (a : Arena) (n : ℕ) : Prop :=
  n < a.nodes.size ∧ a.digestIndex n < a.digests.size ∧ Disjoint (a.nodeDigest n).span S

theorem Off.mono {S : Set ℕ} {n : ℕ} (h : Off S a n) (hextends : a.Extends a') : Off S a' n := by
  refine ⟨h.1.trans_le hextends.size_nodes_le, ?_, ?_⟩
  · rw [hextends.digestIndex_eq h.1]
    exact h.2.1.trans_le hextends.size_digests_le
  · rw [nodeDigest_eq hextends h.1 h.2.1]
    exact h.2.2

theorem Spares.mono {wires wires' : ℕ} {x : Binding} (h : Spares pub wires x)
    (hle : wires ≤ wires') : Spares pub wires' x := by
  obtain ⟨ks, hemits, hwithin⟩ := h
  exact ⟨ks, hemits, fun k hk => (hwithin k hk).mono fun i hi => ⟨hi.1, hi.2.trans_le hle⟩⟩

namespace Clear

theorem newDigest (h : Clear gadget pub a board) {label : String} {i : ℕ}
    (hruns : Runs (Arena.newDigest gadget.digestSize label) a board i a' board') :
    Succeeds (Arena.newDigest gadget.digestSize label) a board i a' board'
      ∧ Clear gadget pub a' board' ∧ i < a'.digests.size
      ∧ a'.digests.getD i default = ⟨board.values.size, gadget.digestSize, label⟩ := by
  obtain ⟨middle, hnew, -, hplaced⟩ := exists_newDigest h.placed h.pos label
  obtain ⟨rfl, rfl, rfl⟩ := eq_of_runs hnew.runs hruns
  have hle := hnew.allocates.size_le
  refine ⟨hnew, ?_, ?_, getD_push_self _ _⟩
  · exact
      { placed := hplaced
        pos := h.pos.trans_le hle
        public_pos := h.public_pos
        public_lt := fun i hi => (h.public_lt i hi).trans_le hle
        spares := fun x hx => (h.spares x hx).mono hle }
  · rw [Array.size_push]
    exact Nat.lt_succ_self _

/-- **One gadget** between digests that are clear of the public wires. -/
theorem bind (hgadget : gadget.Local) (h : Clear gadget pub a board) {kind : NodeKind}
    {digest left right node : ℕ} (hleft : Off (pub ∪ (a.digests.getD digest default).span) a left)
    (hright : Off (pub ∪ (a.digests.getD digest default).span) a right)
    (hdigest : digest < a.digests.size)
    (hout : Disjoint (a.digests.getD digest default).span pub)
    (hruns : Runs (Arena.bind gadget kind digest left right) a board node a' board') :
    Succeeds (Arena.bind gadget kind digest left right) a board node a' board'
      ∧ Clear gadget pub a' board' ∧ node < a'.nodes.size ∧ a'.digestIndex node = digest := by
  obtain ⟨placed, label, hplace, rfl, rfl⟩ := runs_bind hruns
  have hl := h.placed _ hleft.2.1
  have hr := h.placed _ hright.2.1
  have ho := h.placed _ hdigest
  obtain ⟨hleftPublic, hleftOut⟩ := Set.disjoint_union_right.mp hleft.2.2
  obtain ⟨hrightPublic, hrightOut⟩ := Set.disjoint_union_right.mp hright.2.2
  have hlayout := h.placed.layout hleft.2.1 hright.2.1 hdigest
    (Set.disjoint_union_left.mpr ⟨hleftOut, hrightOut⟩).symm
  obtain ⟨hallocates, ks, hemits, hwithin⟩ := hgadget _ _ _ _ _ _ _ hlayout hplace
  have hle := hallocates.size_le
  -- its constraints mention the constant wire, its digests and wires that are new
  have hspares : Spares pub board'.values.size
      ⟨a.digestIndex left, a.digestIndex right, digest, placed⟩ := by
    refine ⟨ks, hemits, fun k hk => (hwithin k hk).mono ?_⟩
    have hclear {d : Digest} (hend : d.first + d.size ≤ board.values.size)
        (hd : Disjoint d.span pub) : ∀ i ∈ d.span, i ∉ pub ∧ i < board'.values.size :=
      fun i hi => ⟨Set.disjoint_left.mp hd hi, (hi.2.trans_le hend).trans_le hle⟩
    rintro i (((rfl | hi) | hi) | hi | hi)
    · exact ⟨h.public_pos, h.pos.trans_le hle⟩
    · exact hclear hl.2.2 hleftPublic i hi
    · exact hclear hr.2.2 hrightPublic i hi
    · exact hclear ho.2.2 hout i hi
    · exact ⟨fun hmem => absurd (h.public_lt i hmem) (not_lt.mpr hi.1), hi.2⟩
  refine ⟨⟨hruns, (extends_pushBinding _ _).trans (extends_pushNode _ _), hallocates⟩, ?_, ?_,
    digestIndex_pushNode { a with bindings := a.bindings.push _ } _⟩
  · exact
      { placed := h.placed.mono hle
        pos := h.pos.trans_le hle
        public_pos := h.public_pos
        public_lt := fun i hi => (h.public_lt i hi).trans_le hle
        spares := fun x hx => by
          rcases Array.mem_push.mp hx with hx | rfl
          · exact (h.spares x hx).mono hle
          · exact hspares }
  · rw [Array.size_push]
    exact Nat.lt_succ_self _

/-- Two nodes are joined, below the root by a digest that is clear of the root digest, too. -/
theorem joinPair (hgadget : gadget.Local) (h : Clear gadget pub a board)
    {root height i left right node : ℕ} (hroot : root < a.digests.size)
    (hout : Disjoint (a.digests.getD root default).span pub)
    (hleft : Off (pub ∪ (a.digests.getD root default).span) a left)
    (hright : Off (pub ∪ (a.digests.getD root default).span) a right)
    (hruns : Runs (Arena.joinPair gadget root height i left right) a board node a' board') :
    Succeeds (Arena.joinPair gadget root height i left right) a board node a' board'
      ∧ Clear gadget pub a' board'
      ∧ (height ≠ 0 → Off (pub ∪ (a.digests.getD root default).span) a' node) := by
  by_cases hheight : height = 0
  · unfold Arena.joinPair at hruns ⊢
    rw [if_pos hheight] at hruns ⊢
    obtain ⟨hbind, hclear, -, -⟩ := h.bind hgadget hleft hright hroot hout hruns
    exact ⟨hbind, hclear, fun hne => absurd hheight hne⟩
  · unfold Arena.joinPair at hruns ⊢
    rw [if_neg hheight] at hruns ⊢
    obtain ⟨digest, b, middle, hnew, hbind⟩ := exists_of_runs_bind hruns
    obtain ⟨hnew, hmiddle, hdigest, hdigestEq⟩ := h.newDigest hnew
    -- the wires of the new digest are new
    have hfresh {S : Set ℕ} (hS : ∀ i ∈ S, i < board.values.size) :
        Disjoint S (b.digests.getD digest default).span := by
      rw [hdigestEq]
      exact Set.disjoint_left.mpr fun i hi hmem => absurd (hS i hi) (not_lt.mpr hmem.1)
    have hnode {n : ℕ} (hn : Off (pub ∪ (a.digests.getD root default).span) a n) :
        Off (pub ∪ (b.digests.getD digest default).span) b n := by
      obtain ⟨hlt, hindex, hspan⟩ := hn.mono hnew.keeps
      refine ⟨hlt, hindex, Set.disjoint_union_right.mpr
        ⟨(Set.disjoint_union_right.mp hspan).1, hfresh fun i hi => ?_⟩⟩
      rw [nodeDigest_eq hnew.keeps hn.1 hn.2.1] at hi
      exact hi.2.trans_le (h.placed _ hn.2.1).2.2
    obtain ⟨hbind, hlast, hlt, hindex⟩ := hmiddle.bind hgadget (hnode hleft) (hnode hright) hdigest
      (hfresh h.public_lt).symm hbind
    refine ⟨hnew.bind hbind, hlast, fun _ => ⟨hlt, ?_, ?_⟩⟩
    · rw [hindex]
      exact hdigest.trans_le hbind.keeps.size_digests_le
    · rw [nodeDigest, hindex, hbind.keeps.digests_getD hdigest]
      refine (Set.disjoint_union_left.mpr ⟨hfresh h.public_lt, hfresh fun i hi => ?_⟩).symm
      exact hi.2.trans_le (h.placed _ hroot).2.2

/-- **One level.** -/
theorem joinPairs (hgadget : gadget.Local) (h : Clear gadget pub a board)
    {root height i : ℕ} {level parents : List ℕ} (hroot : root < a.digests.size)
    (hout : Disjoint (a.digests.getD root default).span pub)
    (hlevel : ∀ n ∈ level, Off (pub ∪ (a.digests.getD root default).span) a n)
    (hruns : Runs (Arena.joinPairs gadget root height i level) a board parents a' board') :
    Succeeds (Arena.joinPairs gadget root height i level) a board parents a' board'
      ∧ Clear gadget pub a' board'
      ∧ (height ≠ 0 → ∀ n ∈ parents, Off (pub ∪ (a.digests.getD root default).span) a' n) := by
  induction level using List.twoStepInduction generalizing i a board parents with
  | nil =>
    obtain ⟨rfl, rfl, rfl⟩ := eq_of_runs rfl hruns
    exact ⟨.pure _ _ _, h, by simp⟩
  | singleton n =>
    obtain ⟨rfl, rfl, rfl⟩ := eq_of_runs rfl hruns
    exact ⟨.pure _ _ _, h, by simp⟩
  | cons_cons left right rest ih _ =>
    rw [joinPairs_cons] at hruns ⊢
    obtain ⟨parent, b, middle, hjoin, hruns⟩ := exists_of_runs_bind hruns
    obtain ⟨others, b', middle', hrest, hruns⟩ := exists_of_runs_bind hruns
    obtain ⟨rfl, rfl, rfl⟩ := eq_of_runs rfl hruns
    simp only [List.forall_mem_cons] at hlevel
    obtain ⟨hleft, hright, hlevel⟩ := hlevel
    obtain ⟨hfirst, hmiddle, hparent⟩ := h.joinPair hgadget hroot hout hleft hright hjoin
    have hkept := hfirst.keeps.digests_getD hroot
    rw [← hkept] at hout hlevel hparent ⊢
    obtain ⟨hothers, hlast, hparents⟩ := ih hmiddle (hroot.trans_le hfirst.keeps.size_digests_le) hout
      (fun n hn => (hlevel n hn).mono hfirst.keeps) hrest
    refine ⟨hfirst.bind (hothers.bind (.pure _ _ _)), hlast, fun hheight => ?_⟩
    exact List.forall_mem_cons.mpr ⟨(hparent hheight).mono hothers.keeps, hparents hheight⟩

/-- **All levels.**  Nothing is joined above the gadget of the root. -/
theorem joinLevels (hgadget : gadget.Local) (h : Clear gadget pub a board)
    {root height node : ℕ} {level : List ℕ} (hroot : root < a.digests.size)
    (hout : Disjoint (a.digests.getD root default).span pub)
    (hlevel : height ≠ 0 → ∀ n ∈ level, Off (pub ∪ (a.digests.getD root default).span) a n)
    (hruns : Runs (Arena.joinLevels gadget root height level) a board node a' board') :
    Succeeds (Arena.joinLevels gadget root height level) a board node a' board'
      ∧ Clear gadget pub a' board' := by
  induction height generalizing a board level with
  | zero =>
    obtain ⟨rfl, rfl, rfl⟩ := eq_of_runs rfl hruns
    exact ⟨.pure _ _ _, h⟩
  | succ height ih =>
    unfold Arena.joinLevels at hruns ⊢
    obtain ⟨parents, b, middle, hpairs, hruns⟩ := exists_of_runs_bind hruns
    obtain ⟨hfirst, hmiddle, hparents⟩ :=
      h.joinPairs hgadget hroot hout (hlevel (Nat.succ_ne_zero height)) hpairs
    rw [← hfirst.keeps.digests_getD hroot] at hout hparents
    obtain ⟨hrest, hlast⟩ :=
      ih hmiddle (hroot.trans_le hfirst.keeps.size_digests_le) hout hparents hruns
    exact ⟨hfirst.bind hrest, hlast⟩

end Clear

end Arena

/-! ### Circuits -/

namespace MerkleCircuit

open Groth16 MerkleSnark.Polynomial

variable {gadget : HashGadget} {c : MerkleCircuit} {board : Board}

/-- A circuit without constraints, in which the public wires are those of the public digest only. -/
structure Fenced (gadget : HashGadget) (c : MerkleCircuit) (board : Board) : Prop where
  constrained : c.constrained = false
  constraints_eq : board.constraints = #[]
  primarySize_eq : board.primarySize = gadget.digestSize
  rootPublic_eq : c.digestAt c.rootPublic = ⟨1, gadget.digestSize, "root_digest_bits"⟩
  clear : c.arena.Clear gadget (c.digestAt c.rootPublic).span board
  rootDigest_lt : c.rootDigest < c.arena.digests.size
  root_apart : Disjoint (c.digestAt c.rootDigest).span (c.digestAt c.rootPublic).span
  leaf_apart : ∀ d ∈ c.leafDigests, d.span ⊆ {i | i ∉ (c.digestAt c.rootPublic).span
    ∧ i < board.values.size}

theorem fenced_of_layOut (hgadget : gadget.Local) {depth : ℕ} {a : Arena}
    (h : Arena.Runs (layOut gadget depth) {} Board.empty c a board) : c.Fenced gadget board := by
  obtain ⟨leafNodes, rootDigest, b, middle, hgivens, -, hb⟩ := exists_layOutGivens gadget depth
  rw [layOut_eq] at h
  obtain ⟨_, _, _, hgivens', h⟩ := Arena.exists_of_runs_bind h
  obtain ⟨heq, rfl, rfl⟩ := Arena.eq_of_runs hgivens' hgivens
  subst heq
  obtain ⟨rootNode, b', board', hlevels, h⟩ := Arena.exists_of_runs_bind h
  obtain ⟨rfl, rfl, rfl⟩ := Arena.eq_of_runs rfl h
  have hlaid := hb.laid
  -- the public digest is reserved, so none of the wires that the gadgets read or write is public
  have hleaf : ∀ n ∈ leafNodes, Disjoint (b.nodeDigest n).span
      ((b.digests.getD 0 default).span ∪ (b.digests.getD rootDigest default).span) :=
    fun n hn => hlaid.reserved.mono_left fun i hi => Or.inr ⟨_, List.mem_map_of_mem hn, hi⟩
  have hclear : Arena.Clear gadget (b.digests.getD 0 default).span b middle :=
    { placed := hlaid.placed
      pos := hlaid.pos
      public_pos := fun hmem => absurd (hlaid.placed 0 hb.public_lt).2.1 (not_lt.mpr hmem.1)
      public_lt := fun i hi => hlaid.reserved_lt i (Or.inl hi)
      spares := fun x hx => by
        rw [hb.bindings_eq] at hx
        exact absurd hx (Array.not_mem_empty x) }
  obtain ⟨hjoined, hlast⟩ := hclear.joinLevels hgadget hb.root_lt hb.root_apart.symm
    (fun _ n hn => ⟨(hb.leaf_lt n hn).1, (hb.leaf_lt n hn).2, hleaf n hn⟩) hlevels
  have hpublic := hjoined.keeps.digests_getD hb.public_lt
  have hroot := hjoined.keeps.digests_getD hb.root_lt
  rw [← hpublic] at hlast
  exact
    { constrained := rfl
      constraints_eq := by rw [hjoined.allocates.rest, ← hb.constraints_eq]
      primarySize_eq := by rw [hjoined.allocates.rest, ← hb.primarySize_eq]
      rootPublic_eq := hpublic.trans hb.public_eq
      clear := hlast
      rootDigest_lt := hb.root_lt.trans_le hjoined.keeps.size_digests_le
      root_apart := by
        unfold digestAt
        rw [hroot, hpublic]
        exact hb.root_apart.symm
      leaf_apart := by
        intro d hd i hi
        obtain ⟨n, hn, rfl⟩ := List.mem_map.mp hd
        change i ∈ (Arena.nodeDigest _ n).span at hi
        rw [Arena.nodeDigest_eq hjoined.keeps (hb.leaf_lt n hn).1 (hb.leaf_lt n hn).2] at hi
        refine ⟨fun hmem => ?_, ?_⟩
        · unfold digestAt at hmem
          rw [hpublic] at hmem
          exact Set.disjoint_left.mp (hleaf n hn) hi (Or.inl hmem)
        · exact (hi.2.trans_le (hlaid.placed _ (hb.leaf_lt n hn).2).2.2).trans_le
            hjoined.allocates.size_le }

/-- Trees of local gadgets fence the public wires. -/
theorem fenced_of_build (hgadget : gadget.Local) {depth : ℤ}
    (h : (build gadget depth).run Board.empty = (.ok c, board)) : c.Fenced gadget board := by
  obtain ⟨-, a, hruns⟩ := build_eq_ok_iff.mp h
  exact fenced_of_layOut hgadget hruns

namespace Fenced

theorem rootDigest_placed (h : c.Fenced gadget board) :
    (c.digestAt c.rootDigest).size = gadget.digestSize ∧ 0 < (c.digestAt c.rootDigest).first
      ∧ (c.digestAt c.rootDigest).first + gadget.digestSize ≤ board.values.size := by
  obtain ⟨hsize, hfirst, hend⟩ := h.clear.placed _ h.rootDigest_lt
  exact ⟨hsize, hfirst, by rwa [hsize] at hend⟩

theorem primarySize_lt (h : c.Fenced gadget board) : gadget.digestSize < board.values.size := by
  have hlt := h.clear.public_lt
  rw [h.rootPublic_eq] at hlt
  rcases Nat.eq_zero_or_pos gadget.digestSize with hzero | hpos
  · rw [hzero]
    exact h.clear.pos
  · exact hlt _ ⟨hpos, Nat.lt_add_of_pos_left Nat.one_pos⟩

theorem rootConstraints_eq (h : c.Fenced gadget board) :
    c.rootConstraints = (List.range gadget.digestSize).map fun i =>
      equalBit i (1 + i) ((c.digestAt c.rootDigest).first + i) := by
  have hsize : (c.digestAt c.rootPublic).size = (c.digestAt c.rootDigest).size := by
    rw [h.rootPublic_eq, h.rootDigest_placed.1]
  rw [MerkleCircuit.rootConstraints_eq hsize, h.rootPublic_eq]

/-- The constraints are the equations of the root and others that leave out the public wires. -/
theorem exists_constrain (h : c.Fenced gadget board) :
    ∃ ks : List Constraint, c.constrain.run board = (.ok { c with constrained := true },
        { board with constraints := ((List.range gadget.digestSize).map (fun i =>
          equalBit i (1 + i) ((c.digestAt c.rootDigest).first + i)) ++ ks).toArray })
      ∧ ∀ k ∈ ks, k.Within {i | i ∉ (c.digestAt c.rootPublic).span ∧ i < board.values.size} := by
  obtain ⟨gadgetKs, hemits, hmem⟩ := exists_emits_forM (l := c.arena.bindings.toList)
    fun x hx => (h.clear.spares x (Array.mem_toList_iff.mp hx)).imp fun _ hks => hks.1
  refine ⟨c.leafDigests.flatMap Digest.booleanConstraints ++ gadgetKs, ?_, fun k hk => ?_⟩
  · rw [run_constrain h.constrained hemits, h.constraints_eq, h.rootConstraints_eq,
      Array.empty_append]
  rcases List.mem_append.mp hk with hk | hk
  · obtain ⟨d, hd, hk⟩ := List.mem_flatMap.mp hk
    have hone : oneWire ∈ {i | i ∉ (c.digestAt c.rootPublic).span ∧ i < board.values.size} :=
      ⟨h.clear.public_pos, h.clear.pos⟩
    exact Digest.within_booleanConstraints hone (h.leaf_apart d hd) k hk
  · obtain ⟨x, hx, ls, hls, hk⟩ := (hmem k).mp hk
    obtain ⟨ks, hks, hwithin⟩ := h.clear.spares x (Array.mem_toList_iff.mp hx)
    rw [hls.unique hks] at hk
    exact hwithin k hk

end Fenced

/-- The sides of a system whose first constraints are known, for wire values with which all others
are zero. -/
theorem sideValue_of_append {cs : ConstraintSystem} {ws : List Fr}
    {side : Constraint → LinearCombination} {f : ℕ → Constraint} {size : ℕ} {ks : List Constraint}
    (hcs : cs.constraints = (List.range size).map f ++ ks)
    (hks : ∀ k ∈ ks, (side k).eval (wireValues ws) = 0) (j : ℕ) :
    sideValue cs ws side j = if j < size then (side (f j)).eval (wireValues ws) else 0 := by
  have hlen : ((List.range size).map f).length = size := by
    rw [List.length_map, List.length_range]
  split
  · next hj =>
    have hlt : j < cs.constraints.length := by
      rw [hcs, List.length_append, hlen]
      omega
    rw [sideValue_of_lt hlt]
    simp only [hcs, List.getElem_append_left (hj.trans_eq hlen.symm), List.getElem_map,
      List.getElem_range]
  · next hj =>
    by_cases hlt : j < cs.constraints.length
    · rw [sideValue_of_lt hlt]
      apply hks
      simp only [hcs, List.getElem_append_right (hlen.trans_le (not_lt.mp hj))]
      exact List.getElem_mem _
    · exact sideValue_of_le (not_lt.mp hlt)

namespace Fenced

variable {cs : ConstraintSystem} {ks : List Constraint}

/-- With a difference of public inputs, all wires that are not public carry zero. -/
theorem wireValues_eq_zero (h : c.Fenced gadget board) {d : List Fr}
    (hd : d.length = gadget.digestSize) {i : ℕ} (hi : i ∉ (c.digestAt c.rootPublic).span) :
    wireValues (0 :: d) i = 0 := by
  rw [h.rootPublic_eq] at hi
  have hi : ¬(1 ≤ i ∧ i < 1 + gadget.digestSize) := hi
  cases i with
  | zero => rfl
  | succ i =>
    rw [wireValues, List.getD_cons_succ, List.getD_eq_default]
    omega

theorem eval_eq_zero (h : c.Fenced gadget board) {d : List Fr} (hd : d.length = gadget.digestSize)
    {x : LinearCombination}
    (hx : x.Within {i | i ∉ (c.digestAt c.rootPublic).span ∧ i < board.values.size}) :
    x.eval (wireValues (0 :: d)) = 0 := by
  rw [hx.eval_eq (v := fun _ => 0) fun i hi => h.wireValues_eq_zero hd hi.1,
    LinearCombination.eval_eq_sum]
  simp

theorem pinned (h : c.Fenced gadget board) (hprimary : cs.primarySize = gadget.digestSize)
    (hconstraints : cs.constraints = (List.range gadget.digestSize).map (fun i =>
      equalBit i (1 + i) ((c.digestAt c.rootDigest).first + i)) ++ ks)
    (hks : ∀ k ∈ ks, k.Within {i | i ∉ (c.digestAt c.rootPublic).span ∧ i < board.values.size}) :
    Pinned cs := by
  constructor
  · rw [hprimary, ConstraintSystem.numConstraints, hconstraints, List.length_append,
      List.length_map, List.length_range]
    exact Nat.le_add_right _ _
  all_goals
    intro d hd
    have hd := hd.trans hprimary
    funext j
    rw [sideValue_of_append hconstraints]
  · split
    · next hj =>
      -- the wire of the root digest carries zero, as it is not public
      have hroot := h.wireValues_eq_zero hd (i := (c.digestAt c.rootDigest).first + j)
        (Set.disjoint_left.mp h.root_apart ⟨Nat.le_add_right _ _,
          Nat.add_lt_add_left (hj.trans_eq h.rootDigest_placed.1.symm) _⟩)
      rw [equalBit, LinearCombination.eval_sub, LinearCombination.eval_var,
        LinearCombination.eval_var, hroot, sub_zero, wireValues, Nat.add_comm, List.getD_cons_succ]
    · next hj => rw [List.getD_eq_default _ _ (hd.trans_le (not_lt.mp hj))]
  · exact fun k hk => h.eval_eq_zero hd (hks k hk).1
  · split
    · rw [equalBit, LinearCombination.eval_const]
      exact mul_zero 1
    · rfl
  · exact fun k hk => h.eval_eq_zero hd (hks k hk).2.1
  · split
    · rw [equalBit, LinearCombination.eval_zero]
    · rfl
  · exact fun k hk => h.eval_eq_zero hd (hks k hk).2.2

/-- All constraints mention wires that there are. -/
theorem within (h : c.Fenced gadget board)
    (hks : ∀ k ∈ ks, k.Within {i | i ∉ (c.digestAt c.rootPublic).span ∧ i < board.values.size}) :
    ∀ k ∈ (List.range gadget.digestSize).map (fun i =>
        equalBit i (1 + i) ((c.digestAt c.rootDigest).first + i)) ++ ks,
      k.Within {i | i < board.values.size} := by
  intro k hk
  rcases List.mem_append.mp hk with hk | hk
  · obtain ⟨i, hi, rfl⟩ := List.mem_map.mp hk
    have hi := List.mem_range.mp hi
    have hpublic := h.primarySize_lt
    have hroot := h.rootDigest_placed.2.2
    exact within_equalBit h.clear.pos (show 1 + i < board.values.size by omega)
      (show (c.digestAt c.rootDigest).first + i < board.values.size by omega)
  · exact (hks k hk).mono fun i hi => hi.2

end Fenced

/-- **The system of a tree is pinned**, and well formed. -/
theorem pinned_of_constrain (hgadget : gadget.Local) {depth : ℤ}
    (h : BoardM.run (do (← build gadget depth).constrain) Board.empty = (.ok c, board)) :
    Pinned board.system ∧ board.system.WellFormed
      ∧ board.system.primarySize = gadget.digestSize := by
  obtain ⟨c', middle, hbuild, hconstrain⟩ := BoardM.exists_of_run_bind h
  have hc := fenced_of_build hgadget hbuild
  obtain ⟨ks, hrun, hwithin⟩ := hc.exists_constrain
  obtain ⟨-, rfl⟩ := Prod.mk.inj (hrun.symm.trans hconstrain)
  refine ⟨hc.pinned hc.primarySize_eq rfl hwithin, fun k hk => ?_, hc.primarySize_eq⟩
  have hlt : middle.primarySize < middle.values.size :=
    hc.primarySize_eq.trans_lt hc.primarySize_lt
  rw [Board.numVariables_system (by exact hlt), Constraint.boundedBy_iff]
  exact hc.within hwithin k hk

/-! ### Binding -/

section Binding

variable {P Q T : Type} [PointGroup P] [PointGroup Q] [Pairing P Q T]
variable {A B U : Type} [AddCommGroup A] [AddCommGroup B] [CommGroup U]

/-- The constraints of a tree of complete gadgets can be added to the board it was built on. -/
theorem exists_constrained {hash : List Bool → List Bool → List Bool}
    (hgadget : gadget.Complete hash) {depth : ℤ} (hdepth : 1 ≤ depth) :
    ∃ c board, BoardM.run (do (← build gadget depth).constrain) Board.empty = (.ok c, board) := by
  obtain ⟨c, board, hbuild, hc⟩ := exists_build hgadget hdepth
  obtain ⟨ks, hconstrain, -⟩ := hc.exists_constrain
  exact ⟨_, _, (BoardM.run_bind_ok hbuild _).trans (hconstrain board)⟩

/-- **A proof is bound to its public root.**  This holds for the trees of the SHA-256 gadget, which
can be built at every depth, and for those of any other gadget whose constraints mention only its
digests and its own wires: for two public inputs that differ, at all evaluation points off the domain
but `n - 1`, the keys have no proof that is accepted for both.  The other secrets are fixed before. -/
theorem proof_bound_to_root (M : Pairing.Model P Q T A B U) (hroot : M.root ≠ 1) :
    (Sha256Gadget.gadget.Local ∧ ∀ depth : ℤ, 1 ≤ depth → ∃ c board,
      BoardM.run (do (← build Sha256Gadget.gadget depth).constrain) Board.empty = (.ok c, board))
    ∧ ∀ gadget : HashGadget, gadget.Local → ∀ (depth : ℤ) (c : MerkleCircuit) (board : Board),
      BoardM.run (do (← build gadget depth).constrain) Board.empty = (.ok c, board) →
      ∀ (earlier : List ConstraintSystem) (x x' : List Fr), x.length = gadget.digestSize →
        x'.length = gadget.digestSize → x ≠ x' → ∀ alpha beta gamma delta : Fr, beta ≠ 0 →
          gamma ≠ 0 →
          (board.system.numConstraints ≤ 2 ^ 28 → ∀ tau,
            vanishing (domainSize board.system.numConstraints) tau ≠ 0 →
              ∃ pk vk, keysFor P Q earlier board.system ⟨alpha, beta, gamma, delta, tau⟩
                = .ok (pk, vk))
          ∧ {tau | vanishing (domainSize board.system.numConstraints) tau ≠ 0
              ∧ Ambiguous M earlier board.system ⟨alpha, beta, gamma, delta, tau⟩ x x'}.encard
            ≤ (domainSize board.system.numConstraints - 1 : ℕ) := by
  refine ⟨⟨Sha256Gadget.complete.isLocal, fun depth => exists_constrained Sha256Gadget.complete⟩, ?_⟩
  intro gadget hgadget depth c board hrun earlier x x' hx hx' hne alpha beta gamma delta hbeta hgamma
  obtain ⟨hpinned, hwell, hprimary⟩ := pinned_of_constrain hgadget hrun
  refine ⟨fun hcount tau htau => exists_keysFor_eq M hwell hcount earlier htau, ?_⟩
  exact encard_ambiguous_le hroot hwell hpinned earlier (hx.trans hprimary.symm)
    (hx'.trans hprimary.symm) hne alpha hbeta hgamma delta

/-- A tree of depth one over the exclusive or of single bits: of the evaluation points, at most three
are bad for the public inputs zero and one. -/
theorem proof_bound_to_root_xor : ExponentPoint.pairingModel.root ≠ 1 ∧ ∃ c board,
    BoardM.run (do (← build (XorGadget.gadget 1 1) 1).constrain) Board.empty = (.ok c, board)
      ∧ (XorGadget.gadget 1 1).Local ∧ ([0] : List Fr) ≠ [1] ∧ (3 : Fr) ≠ 0 ∧ (5 : Fr) ≠ 0
      ∧ (∃ pk vk, keysFor ExponentPoint ExponentPoint [] board.system ⟨2, 3, 5, 7, 11⟩
          = .ok (pk, vk))
      ∧ {tau | vanishing 4 tau ≠ 0 ∧ Ambiguous ExponentPoint.pairingModel [] board.system
          ⟨2, 3, 5, 7, tau⟩ [0] [1]}.encard ≤ (3 : ℕ) := by
  have hroot := ExponentPoint.root_pairingModel_ne_one
  have hlocal := (XorGadget.complete 1 1).isLocal
  have hsome : (BoardM.run
      (do (← build (XorGadget.gadget 1 1) 1).constrain) Board.empty).1.toBool = true := by
    decide +kernel
  have hcount : (BoardM.run (do (← build (XorGadget.gadget 1 1) 1).constrain)
      Board.empty).2.system.numConstraints = 4 := by
    decide +kernel
  have htau : vanishing (domainSize 4) 11 ≠ 0 := by decide +kernel
  have hne : ([0] : List Fr) ≠ [1] := by decide
  rcases hrun : BoardM.run (do (← build (XorGadget.gadget 1 1) 1).constrain) Board.empty with
    ⟨result, board⟩
  rw [hrun] at hsome hcount
  obtain ⟨c, rfl⟩ := BoardM.exists_ok_of_toBool hsome
  obtain ⟨hkeys, hbound⟩ := (proof_bound_to_root ExponentPoint.pairingModel hroot).2 _ hlocal 1 c
    board hrun [] [0] [1] rfl rfl hne 2 3 5 7 (by decide) (by decide)
  rw [hcount] at hkeys hbound
  exact ⟨hroot, c, board, rfl, hlocal, hne, by decide, by decide,
    hkeys (by decide) 11 htau, hbound⟩

end Binding

end MerkleCircuit

end MerkleSnark
