import Mathlib
import MerkleSnark.Proofs.Merkle.Layout
import MerkleSnark.Proofs.Merkle.Soundness

/-!
# Trees are laid out

The public digest takes the first wires of the board, the leaves the next ones, and after these comes
the root digest.  The gadgets are placed behind them, from the leaves up.

## Main definitions

* `MerkleCircuit.layOutGivens` — the digests that are allocated before the first gadget.
* `MerkleCircuit.Standing` — a circuit whose gadgets were placed, on a board of its own.
* `MerkleCircuit.Prepared` — one of complete gadgets.

## Main results

* `MerkleCircuit.exists_standing`, `MerkleCircuit.exists_build` — trees of every depth can be laid
  out.
-/

namespace MerkleSnark

/-! ### Leaves -/

namespace Arena

variable {gadget : HashGadget} {a : Arena} {board : Board}

/-- The digest of a node. -/
def nodeDigest (a : Arena) (n : ℕ) : Digest := a.digests.getD (a.digestIndex n) default

/-- The digest of a leaf takes the next wires. -/
theorem exists_newLeaf (h : Placed gadget a board) (hpos : 0 < board.values.size) (i : ℕ) :
    ∃ a' board', Succeeds (newLeaf gadget i) a board a.nodes.size a' board'
      ∧ board'.values.size = board.values.size + gadget.digestSize
      ∧ Placed gadget a' board' ∧ a'.bindings = a.bindings ∧ a.nodes.size < a'.nodes.size
      ∧ a'.digestIndex a.nodes.size < a'.digests.size
      ∧ a'.nodeDigest a.nodes.size = ⟨board.values.size, gadget.digestSize, s!"leaf_{i}"⟩ := by
  obtain ⟨board', hnew, hsize, hplaced⟩ := exists_newDigest h hpos s!"leaf_{i}"
  have hindex := digestIndex_pushNode
    { a with digests := a.digests.push ⟨board.values.size, gadget.digestSize, s!"leaf_{i}"⟩ }
    ⟨.leaf, a.digests.size, none⟩
  refine ⟨_, board', hnew.bind ⟨run_newNode _ _ _, extends_pushNode _ _, .refl _⟩, hsize, hplaced,
    rfl, ?_, ?_, ?_⟩
  · simp
  · rw [hindex]
    simp
  · rw [nodeDigest, hindex]
    exact getD_push_self a.digests _

/-- The digests of the leaves take the next wires, one after another. -/
theorem exists_newLeaves (l : List ℕ) (h : Placed gadget a board) (hpos : 0 < board.values.size) :
    ∃ nodes a' board', Succeeds (l.mapM (newLeaf gadget)) a board nodes a' board'
      ∧ Placed gadget a' board' ∧ a'.bindings = a.bindings ∧ nodes.length = l.length
      ∧ (∀ n ∈ nodes, n < a'.nodes.size ∧ a'.digestIndex n < a'.digests.size
        ∧ board.values.size ≤ (a'.nodeDigest n).first)
      ∧ ((nodes.map a'.nodeDigest).Pairwise fun d e => Disjoint d.span e.span)
      ∧ ∀ i, board.values.size ≤ i → i < board'.values.size →
        ∃ d ∈ nodes.map a'.nodeDigest, i ∈ d.span := by
  induction l generalizing a board with
  | nil =>
    exact ⟨[], a, board, .pure _ _ _, h, rfl, rfl, by simp, .nil,
      fun j hge hlt => absurd hlt (not_lt.mpr hge)⟩
  | cons i l ih =>
    obtain ⟨b, middle, hfirst, hsize, hplaced, hbindings, hlt, hdigestLt, hdigest⟩ :=
      exists_newLeaf h hpos i
    obtain ⟨nodes, a', board', hrest, hlast, hbindings', hlength, hnodes, hapart, hcovers⟩ :=
      ih hplaced (hpos.trans_le hfirst.allocates.size_le)
    have hindex := hrest.keeps.digestIndex_eq hlt
    have hkept : a'.nodeDigest a.nodes.size
        = ⟨board.values.size, gadget.digestSize, s!"leaf_{i}"⟩ := by
      rw [nodeDigest, hindex, hrest.keeps.digests_getD hdigestLt, ← hdigest, nodeDigest]
    refine ⟨a.nodes.size :: nodes, a', board', ?_, hlast, hbindings'.trans hbindings, ?_, ?_, ?_,
      fun j hge hlt' => ?_⟩
    · rw [List.mapM_cons]
      exact hfirst.bind (hrest.bind (.pure _ _ _))
    · rw [List.length_cons, List.length_cons, hlength]
    · rw [List.forall_mem_cons, hkept, hindex]
      refine ⟨⟨hlt.trans_le hrest.keeps.size_nodes_le,
        hdigestLt.trans_le hrest.keeps.size_digests_le, le_refl _⟩, fun n hn => ?_⟩
      obtain ⟨hn, hn', hfirst'⟩ := hnodes n hn
      exact ⟨hn, hn', hfirst.allocates.size_le.trans hfirst'⟩
    · rw [List.map_cons, List.pairwise_cons, List.forall_mem_map]
      refine ⟨fun n hn => ?_, hapart⟩
      -- the wires of the first digest come before those of the others
      rw [hkept, Set.disjoint_left]
      intro j hj hj'
      exact absurd (hsize.ge.trans ((hnodes n hn).2.2.trans hj'.1)) (not_le.mpr hj.2)
    · rw [List.map_cons, hkept]
      by_cases hold : j < middle.values.size
      · exact ⟨_, List.mem_cons_self, hge, hold.trans_eq hsize⟩
      · obtain ⟨d, hd, hj⟩ := hcovers j (not_lt.mp hold) hlt'
        exact ⟨d, List.mem_cons_of_mem _ hd, hj⟩

theorem nodeDigest_eq {a' : Arena} {n : ℕ} (h : a.Extends a') (hn : n < a.nodes.size)
    (hdigest : a.digestIndex n < a.digests.size) : a'.nodeDigest n = a.nodeDigest n := by
  unfold nodeDigest
  rw [h.digestIndex_eq hn, h.digests_getD hdigest]

/-- Before the first gadget is placed, the wires of the leaves are all that is final. -/
theorem laid_of_leaves {R : Set ℕ} {nodes : List ℕ}
    (hplaced : Placed gadget a board) (hpos : 0 < board.values.size) (hbindings : a.bindings = #[])
    (hnodes : ∀ n ∈ nodes, a.digestIndex n < a.digests.size)
    (hreserved : ∀ i ∈ R, i ≠ oneWire ∧ i < board.values.size)
    (hapart : ∀ n ∈ nodes, Disjoint (a.nodeDigest n).span R) :
    Laid gadget {i | i ∈ nodes.map a.digestIndex}
      {i | i = oneWire ∨ ∃ d ∈ nodes.map a.nodeDigest, i ∈ d.span}
      {i | i = oneWire ∨ ∃ d ∈ nodes.map a.nodeDigest, i ∈ d.span} R a board where
  placed := hplaced
  chain := by
    rw [hbindings]
    exact .nil
  given_lt := List.forall_mem_map.mpr hnodes
  span_subset := by
    intro j hj i hi
    obtain ⟨n, hn, rfl⟩ := List.mem_map.mp hj
    exact Or.inr ⟨a.nodeDigest n, List.mem_map_of_mem hn, hi⟩
  pos := hpos
  final_lt := by
    rintro i (rfl | ⟨d, hd, hi⟩)
    · exact hpos
    · obtain ⟨n, hn, rfl⟩ := List.mem_map.mp hd
      exact hi.2.trans_le (hplaced _ (hnodes n hn)).2.2
  reserved_lt := fun i hi => (hreserved i hi).2
  reserved := by
    apply Set.disjoint_left.mpr
    rintro i (rfl | ⟨d, hd, hi⟩) hmem
    · exact (hreserved _ hmem).1 rfl
    · obtain ⟨n, hn, rfl⟩ := List.mem_map.mp hd
      exact Set.disjoint_left.mp (hapart n hn) hi hmem

end Arena

namespace MerkleCircuit

variable {gadget : HashGadget} {hash : List Bool → List Bool → List Bool} {depth : ℕ}
  {c : MerkleCircuit} {board : Board}

/-! ### Circuits that can be computed -/

/-- The wires that have their final values once the leaves are written. -/
def givenWires (c : MerkleCircuit) : Set ℕ :=
  {i | i = oneWire ∨ ∃ d ∈ c.leafDigests, i ∈ d.span}

/-- The places of the digests of the leaves. -/
def givenDigests (c : MerkleCircuit) : Set ℕ := {i | i ∈ c.leafNodes.map c.arena.digestIndex}

/-- A circuit of gadgets that were placed on a board of its own, without constraints and before its
wires are computed. -/
structure Standing (gadget : HashGadget) (depth : ℕ) (c : MerkleCircuit) (board : Board) :
    Prop where
  constrained : c.constrained = false
  depth_eq : c.depth = depth
  digestSize_eq : c.digestSize = gadget.digestSize
  constraints_eq : board.constraints = #[]
  primarySize_eq : board.primarySize = gadget.digestSize
  one_eq : board.valueAt oneWire = 1
  rootPublic_eq : c.digestAt c.rootPublic = ⟨1, gadget.digestSize, "root_digest_bits"⟩
  public_le : 1 + gadget.digestSize ≤ board.values.size
  length_leafDigests : c.leafDigests.length = 2 ^ depth
  apart : c.leafDigests.Pairwise fun d e => Disjoint d.span e.span
  laid : ∃ K, c.arena.Laid gadget c.givenDigests c.givenWires K
      (c.digestAt c.rootPublic).span board
    ∧ ∀ i < board.values.size, i ∈ (c.digestAt c.rootPublic).span ∨ i ∈ K
  known_root : Arena.Known c.givenDigests c.arena.bindings.toList c.rootDigest
  root : ∀ {α : Type} [Inhabited α] {op : α → α → α} (V : ℕ → α → Prop), c.arena.Closed op V →
    ∀ xs, xs.length = 2 ^ depth → List.Forall₂ V (c.leafNodes.map c.arena.digestIndex) xs →
      V c.rootDigest (treeRoot op depth xs)

/-- A standing circuit of complete gadgets. -/
structure Prepared (gadget : HashGadget) (hash : List Bool → List Bool → List Bool) (depth : ℕ)
    (c : MerkleCircuit) (board : Board) : Prop extends c.Standing gadget depth board where
  complete : gadget.Complete hash

/-- The digests that are allocated before the first gadget is placed: the public digest, those of the
leaves and the root digest. -/
def layOutGivens (gadget : HashGadget) (depth : ℕ) : Arena.M (ℕ × List ℕ × ℕ) := do
  let rootPublic ← Arena.newDigest gadget.digestSize "root_digest_bits"
  (BoardM.setInputSize gadget.digestSize : BoardM Unit)
  let leafNodes ← (List.range (1 <<< depth)).mapM (Arena.newLeaf gadget)
  let rootDigest ← Arena.newDigest gadget.digestSize "root_digest"
  return (rootPublic, leafNodes, rootDigest)

/-- The gadgets are placed after the digests of `layOutGivens`. -/
theorem layOut_eq (gadget : HashGadget) (depth : ℕ) :
    layOut gadget depth = do
      let (rootPublic, leafNodes, rootDigest) ← layOutGivens gadget depth
      let rootNode ← Arena.joinLevels gadget rootDigest depth leafNodes
      return { depth, digestSize := gadget.digestSize, arena := ← get, leafNodes, rootNode,
               rootDigest, rootPublic } := by
  unfold layOut layOutGivens
  simp only [bind_assoc, pure_bind]
  rfl

/-- What the gadgets are placed on: the public digest holds the first wires, and the digests do not
overlap. -/
structure Allocated (gadget : HashGadget) (leafNodes : List ℕ) (rootDigest : ℕ) (a : Arena)
    (board : Board) : Prop where
  constraints_eq : board.constraints = #[]
  primarySize_eq : board.primarySize = gadget.digestSize
  one_eq : board.valueAt oneWire = 1
  public_lt : 0 < a.digests.size
  public_eq : a.digests.getD 0 default = ⟨1, gadget.digestSize, "root_digest_bits"⟩
  root_lt : rootDigest < a.digests.size
  root_apart : Disjoint (a.digests.getD 0 default).span (a.digests.getD rootDigest default).span
  leaf_lt : ∀ n ∈ leafNodes, n < a.nodes.size ∧ a.digestIndex n < a.digests.size
  leaf_apart : (leafNodes.map a.nodeDigest).Pairwise fun d e => Disjoint d.span e.span
  bindings_eq : a.bindings = #[]
  laid : a.Laid gadget {i | i ∈ leafNodes.map a.digestIndex}
    {i | i = oneWire ∨ ∃ d ∈ leafNodes.map a.nodeDigest, i ∈ d.span}
    {i | i = oneWire ∨ ∃ d ∈ leafNodes.map a.nodeDigest, i ∈ d.span}
    ((a.digests.getD 0 default).span ∪ (a.digests.getD rootDigest default).span) board
  covered : ∀ i < board.values.size, i = oneWire ∨ (∃ d ∈ leafNodes.map a.nodeDigest, i ∈ d.span)
    ∨ i ∈ (a.digests.getD 0 default).span ∨ i ∈ (a.digests.getD rootDigest default).span

/-- The three regions of a board: the public digest up to the wire `1 + gadget.digestSize`, the
leaves up to the wire `m`, and the root digest. -/
structure Regions (gadget : HashGadget) (leafNodes : List ℕ) (rootDigest : ℕ) (a : Arena)
    (board : Board) (m : ℕ) : Prop where
  public_eq : a.digests.getD 0 default = ⟨1, gadget.digestSize, "root_digest_bits"⟩
  root_eq : a.digests.getD rootDigest default = ⟨m, gadget.digestSize, "root_digest"⟩
  le : 1 + gadget.digestSize ≤ m
  size_eq : board.values.size = m + gadget.digestSize
  leaf : ∀ n ∈ leafNodes, ∀ i ∈ (a.nodeDigest n).span, 1 + gadget.digestSize ≤ i ∧ i < m
  covers : ∀ i, 1 + gadget.digestSize ≤ i → i < m → ∃ d ∈ leafNodes.map a.nodeDigest, i ∈ d.span

namespace Regions

variable {leafNodes : List ℕ} {rootDigest : ℕ} {a : Arena} {m : ℕ}

theorem mem_public (h : Regions gadget leafNodes rootDigest a board m) {i : ℕ} :
    i ∈ (a.digests.getD 0 default).span ↔ 1 ≤ i ∧ i < 1 + gadget.digestSize := by
  rw [h.public_eq]
  rfl

theorem mem_root (h : Regions gadget leafNodes rootDigest a board m) {i : ℕ} :
    i ∈ (a.digests.getD rootDigest default).span ↔ m ≤ i ∧ i < board.values.size := by
  rw [h.root_eq, h.size_eq]
  rfl

theorem root_apart (h : Regions gadget leafNodes rootDigest a board m) :
    Disjoint (a.digests.getD 0 default).span (a.digests.getD rootDigest default).span := by
  apply Set.disjoint_left.mpr
  intro i hi hi'
  exact absurd (h.le.trans (h.mem_root.mp hi').1) (not_le.mpr (h.mem_public.mp hi).2)

/-- Neither the public digest nor the root digest holds the wire of the constant one. -/
theorem reserved (h : Regions gadget leafNodes rootDigest a board m) :
    ∀ i ∈ (a.digests.getD 0 default).span ∪ (a.digests.getD rootDigest default).span,
      i ≠ oneWire ∧ i < board.values.size := by
  have hle := h.le
  have hsize := h.size_eq
  rintro i (hi | hi)
  · obtain ⟨hge, hlt⟩ := h.mem_public.mp hi
    exact ⟨by rw [oneWire]; omega, by omega⟩
  · obtain ⟨hge, hlt⟩ := h.mem_root.mp hi
    exact ⟨by rw [oneWire]; omega, hlt⟩

theorem leaf_apart (h : Regions gadget leafNodes rootDigest a board m) :
    ∀ n ∈ leafNodes, Disjoint (a.nodeDigest n).span
      ((a.digests.getD 0 default).span ∪ (a.digests.getD rootDigest default).span) := by
  intro n hn
  apply Set.disjoint_left.mpr
  rintro i hi (hpublic | hroot)
  · exact absurd (h.leaf n hn i hi).1 (not_le.mpr (h.mem_public.mp hpublic).2)
  · exact absurd (h.leaf n hn i hi).2 (not_lt.mpr (h.mem_root.mp hroot).1)

theorem covered (h : Regions gadget leafNodes rootDigest a board m) :
    ∀ i < board.values.size, i = oneWire ∨ (∃ d ∈ leafNodes.map a.nodeDigest, i ∈ d.span)
      ∨ i ∈ (a.digests.getD 0 default).span ∨ i ∈ (a.digests.getD rootDigest default).span := by
  intro i hi
  by_cases hone : i = oneWire
  · exact Or.inl hone
  by_cases hfirst : i < 1 + gadget.digestSize
  · have hge : 1 ≤ i := Nat.one_le_iff_ne_zero.mpr hone
    exact Or.inr (Or.inr (Or.inl (h.mem_public.mpr ⟨hge, hfirst⟩)))
  by_cases hleaf : i < m
  · exact Or.inr (Or.inl (h.covers i (not_lt.mp hfirst) hleaf))
  · exact Or.inr (Or.inr (Or.inr (h.mem_root.mpr ⟨not_lt.mp hleaf, hi⟩)))

end Regions

theorem exists_layOutGivens (gadget : HashGadget) (depth : ℕ) :
    ∃ leafNodes rootDigest a board,
      Arena.Runs (layOutGivens gadget depth) {} Board.empty (0, leafNodes, rootDigest) a board
        ∧ leafNodes.length = 2 ^ depth ∧ Allocated gadget leafNodes rootDigest a board := by
  have hempty : Arena.Placed gadget {} Board.empty := fun i hi => absurd hi (Nat.not_lt_zero i)
  -- the public digest comes first, as its wires have to be those behind the constant one
  obtain ⟨board₁, hpublic, hsize, hplaced₁⟩ :=
    Arena.exists_newDigest hempty Nat.zero_lt_one "root_digest_bits"
  let a₁ : Arena := { digests := #[⟨1, gadget.digestSize, "root_digest_bits"⟩] }
  let board₂ : Board := { board₁ with primarySize := gadget.digestSize }
  have hsize₂ : board₂.values.size = 1 + gadget.digestSize := hsize
  have hpos : 0 < board₂.values.size := by omega
  have hinputs : (BoardM.setInputSize gadget.digestSize).run board₁ = (.ok (), board₂) :=
    BoardM.run_setInputSize_ok ((Nat.lt_add_of_pos_left Nat.zero_lt_one).trans_eq hsize₂.symm)
  obtain ⟨leafNodes, a₃, board₃, hleaves, hplaced₃, hbindings, hcount, hnodes, hapart, hcovers⟩ :=
    Arena.exists_newLeaves (List.range (1 <<< depth))
      (show Arena.Placed gadget a₁ board₂ from hplaced₁) hpos
  obtain ⟨board₄, hroot, hsize₄, hplaced₄⟩ :=
    Arena.exists_newDigest hplaced₃ (hpos.trans_le hleaves.allocates.size_le) "root_digest"
  let a₄ : Arena :=
    { a₃ with
      digests := a₃.digests.push ⟨board₃.values.size, gadget.digestSize, "root_digest"⟩ }
  have hallocates : board₂.Allocates board₄ := hleaves.allocates.trans hroot.allocates
  have hrootLt : a₃.digests.size < a₄.digests.size := by
    rw [Array.size_push]
    exact Nat.lt_succ_self _
  have hkept : ∀ n ∈ leafNodes, a₄.nodeDigest n = a₃.nodeDigest n := fun n hn =>
    Arena.nodeDigest_eq hroot.keeps (hnodes n hn).1 (hnodes n hn).2.1
  -- one range each for the public digest, all leaves and the root digest, in this order
  have hregions : Regions gadget leafNodes a₃.digests.size a₄ board₄ board₃.values.size :=
    { public_eq := ((hleaves.keeps.trans hroot.keeps).digests_getD (i := 0) (Nat.succ_pos _)).trans
        rfl
      root_eq := Arena.getD_push_self _ _
      le := hsize₂.ge.trans hleaves.allocates.size_le
      size_eq := hsize₄
      leaf := by
        intro n hn i hi
        rw [hkept n hn] at hi
        obtain ⟨-, hlt, hfirst⟩ := hnodes n hn
        exact ⟨hsize₂.ge.trans (hfirst.trans hi.1), hi.2.trans_le (hplaced₃ _ hlt).2.2⟩
      covers := by
        rw [List.map_congr_left hkept, ← hsize₂]
        exact hcovers }
  refine ⟨leafNodes, a₃.digests.size, a₄, board₄, ?_, ?_, ?_⟩
  · unfold layOutGivens
    apply hpublic.runs.step
    apply Arena.Runs.step (Arena.run_liftM hinputs a₁)
    apply hleaves.runs.step
    exact hroot.runs.step rfl
  · rw [hcount, List.length_range, Nat.one_shiftLeft]
  · exact
      { constraints_eq := by
          rw [hallocates.rest]
          show board₁.constraints = #[]
          rw [hpublic.allocates.rest]
          rfl
        primarySize_eq := by rw [hallocates.rest]
        one_eq := by
          rw [hallocates.valueAt_eq oneWire hpos]
          exact (hpublic.allocates.valueAt_eq oneWire Nat.zero_lt_one).trans rfl
        public_lt := (Nat.zero_le _).trans_lt hrootLt
        public_eq := hregions.public_eq
        root_lt := hrootLt
        root_apart := hregions.root_apart
        leaf_lt := fun n hn => ⟨(hnodes n hn).1, (hnodes n hn).2.1.trans hrootLt⟩
        leaf_apart := by
          rw [List.map_congr_left hkept]
          exact hapart
        bindings_eq := hbindings
        laid := Arena.laid_of_leaves hplaced₄ (hpos.trans_le hallocates.size_le) hbindings
          (fun n hn => (hnodes n hn).2.1.trans hrootLt) hregions.reserved hregions.leaf_apart
        covered := hregions.covered }

/-- **A tree of gadgets that can be placed can be laid out**, at every depth. -/
theorem exists_layOut (hgadget : gadget.Placeable) (hdepth : depth ≠ 0) :
    ∃ c a board, Arena.Runs (layOut gadget depth) {} Board.empty c a board
      ∧ c.Standing gadget depth board := by
  obtain ⟨leafNodes, rootDigest, a₄, board₄, hgivens, hpower, h⟩ := exists_layOutGivens gadget depth
  have hstands : ∀ n ∈ leafNodes, Arena.Stands {i | i ∈ leafNodes.map a₄.digestIndex} a₄ n :=
    fun n hn => ⟨(h.leaf_lt n hn).1, Or.inl (List.mem_map_of_mem hn)⟩
  obtain ⟨rootNode, a₅, board₅, K, hlevels, hlaid, hsettles, hknown, hlift⟩ :=
    h.laid.joinLevels hgadget hstands hpower hdepth h.root_lt h.root_apart
  let c : MerkleCircuit :=
    { depth, digestSize := gadget.digestSize, arena := a₅, leafNodes, rootNode, rootDigest,
      rootPublic := 0 }
  have hruns : Arena.Runs (layOut gadget depth) {} Board.empty c a₅ board₅ := by
    rw [layOut_eq]
    exact Arena.Runs.step hgivens (hlevels.runs.step rfl)
  -- the digests stay where they are while the gadgets are placed
  have hpublic : c.digestAt c.rootPublic = a₄.digests.getD 0 default :=
    hlevels.keeps.digests_getD h.public_lt
  have hindices : c.leafNodes.map c.arena.digestIndex = leafNodes.map a₄.digestIndex :=
    hlevels.keeps.map_digestIndex fun n hn => (h.leaf_lt n hn).1
  have hleafDigests : c.leafDigests = leafNodes.map a₄.nodeDigest :=
    List.map_congr_left fun n hn =>
      Arena.nodeDigest_eq hlevels.keeps (h.leaf_lt n hn).1 (h.leaf_lt n hn).2
  refine ⟨c, a₅, board₅, hruns, ?_⟩
  exact
    { constrained := rfl
      depth_eq := rfl
      digestSize_eq := rfl
      constraints_eq := by rw [hlevels.allocates.rest, ← h.constraints_eq]
      primarySize_eq := by rw [hlevels.allocates.rest, ← h.primarySize_eq]
      one_eq := by rw [hlevels.allocates.valueAt_eq oneWire h.laid.pos, h.one_eq]
      rootPublic_eq := hpublic.trans h.public_eq
      public_le := by
        have hplaced := h.laid.placed 0 h.public_lt
        rw [h.public_eq] at hplaced
        exact hplaced.2.2.trans hlevels.allocates.size_le
      length_leafDigests := by rw [hleafDigests, List.length_map, hpower]
      apart := by
        rw [hleafDigests]
        exact h.leaf_apart
      laid := by
        rw [givenDigests, givenWires, hpublic, hindices, hleafDigests]
        refine ⟨K, hlaid, fun i hi => ?_⟩
        by_cases hnew : board₄.values.size ≤ i
        · exact Or.inr (hsettles.covers i hnew hi)
        rcases h.covered i (not_le.mp hnew) with hone | hleaf | hpub | hroot
        · exact Or.inr (hsettles.keeps (Or.inl hone))
        · exact Or.inr (hsettles.keeps (Or.inr hleaf))
        · exact Or.inl hpub
        · have hspan := hlaid.chain.span_subset hlaid.span_subset hknown
          rw [hlevels.keeps.digests_getD h.root_lt] at hspan
          exact Or.inr (hspan hroot)
      known_root := by
        rw [givenDigests, hindices]
        exact hknown
      root := by
        intro α _ op V hV xs hlength hxs
        apply hlift V hV xs hlength
        rwa [← hindices] }

/-- Trees are built at every depth from one on. -/
theorem exists_standing (hgadget : gadget.Placeable) {depth : ℤ} (hdepth : 1 ≤ depth) :
    ∃ c board, (build gadget depth).run Board.empty = (.ok c, board)
      ∧ c.Standing gadget depth.toNat board := by
  obtain ⟨c, a, board, hruns, hstanding⟩ :=
    exists_layOut hgadget (show depth.toNat ≠ 0 by omega)
  exact ⟨c, board, build_eq_ok_iff.mpr ⟨hdepth, a, hruns⟩, hstanding⟩

/-- So are trees of complete gadgets. -/
theorem exists_build (hgadget : gadget.Complete hash) {depth : ℤ} (hdepth : 1 ≤ depth) :
    ∃ c board, (build gadget depth).run Board.empty = (.ok c, board)
      ∧ c.Prepared gadget hash depth.toNat board := by
  obtain ⟨c, board, hbuild, hstanding⟩ := exists_standing hgadget.meets.placeable hdepth
  exact ⟨c, board, hbuild, { hstanding with complete := hgadget }⟩

end MerkleCircuit

end MerkleSnark
