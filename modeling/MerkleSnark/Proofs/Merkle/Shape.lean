import Mathlib
import MerkleSnark.Proofs.Circuit.Sha256Complete
import MerkleSnark.Proofs.Merkle.Prepared
import MerkleSnark.Proofs.Merkle.Ranges

/-!
# The shape of a tree

Node `n` of a tree with `m` leaves is a leaf when `n < m`, and otherwise it stands above the nodes
`2 * (n - m)` and `2 * (n - m) + 1`; so gadget `t` joins the digests of the nodes `2 * t` and
`2 * t + 1` into that of node `m + t`.  The digests have the places of their nodes, shifted by the
public digest and, behind the leaves, by the root digest, which is allocated before the inner ones.
All counts come from these formulas.

## Main definitions

* `Arena.digestPlace`, `Arena.nodeAt`, `Arena.endsAt` — the formulas.
* `Arena.Grown` — an arena that was filled up to some node, gadget and digest.
* `Arena.Traverses` — the leaves below a node from left to right, with their depths.
* `MerkleCircuit.Shaped` — what a circuit of some depth looks like.

## Main results

* `Arena.Grown.bind`, `Arena.Grown.joinPairs`, `Arena.Grown.joinLevels` — one gadget, one level and
  all levels follow the formulas.
* `Arena.Grown.traverses` — the leaves below every node.
* `MerkleCircuit.exists_shaped` — **trees of every depth have their shape**.
-/

namespace MerkleSnark

namespace Arena

/-! ### Places -/

/-- The place of the digest of node `n` in a tree of `m` leaves. -/
def digestPlace (m n : ℕ) : ℕ :=
  if n < m then n + 1 else if n + 2 = 2 * m then m + 1 else n + 2

/-- Node `n` of a tree of `m` leaves. -/
def nodeAt (m n : ℕ) : TreeNode :=
  if n < m then ⟨.leaf, digestPlace m n, none⟩
  else
    ⟨if n + 2 = 2 * m then .root else .intermediate, digestPlace m n,
      some (2 * (n - m), 2 * (n - m) + 1)⟩

/-- The digests that gadget `t` connects in a tree of `m` leaves. -/
def endsAt (m t : ℕ) : ℕ × ℕ × ℕ :=
  (digestPlace m (2 * t), digestPlace m (2 * t + 1), digestPlace m (m + t))

/-- The digests that a gadget connects. -/
def ends (x : Binding) : ℕ × ℕ × ℕ := (x.left, x.right, x.output)

/-- The digests that gadgets read, gadget by gadget. -/
def reads (a : Arena) : List ℕ := a.bindings.toList.flatMap fun x => [x.left, x.right]

/-- The digests that gadgets write. -/
def outputs (a : Arena) : List ℕ := a.bindings.toList.map Binding.output

variable {m n t s : ℕ}

theorem digestPlace_leaf (h : n < m) : digestPlace m n = n + 1 := if_pos h

theorem digestPlace_root (hm : 2 ≤ m) (h : n + 2 = 2 * m) : digestPlace m n = m + 1 := by
  rw [digestPlace, if_neg (by omega), if_pos h]

theorem digestPlace_inner (hn : m ≤ n) (h : n + 2 ≠ 2 * m) : digestPlace m n = n + 2 := by
  rw [digestPlace, if_neg (by omega), if_neg h]

/-- Different nodes have different digests. -/
theorem digestPlace_injective (m : ℕ) : Function.Injective (digestPlace m) := by
  intro n n' h
  unfold digestPlace at h
  split_ifs at h <;> omega

/-- The digests of the nodes below the next one are allocated. -/
theorem digestPlace_lt (hn : n < m + t) : digestPlace m n < m + 2 + t := by
  unfold digestPlace
  split_ifs <;> omega

/-- Every digest but the public one is that of a node. -/
theorem exists_digestPlace_eq {i : ℕ} (hm : 2 ≤ m) (hi : i < 2 * m) (hne : i ≠ 0) :
    ∃ n, n + 1 < 2 * m ∧ digestPlace m n = i := by
  rcases Nat.lt_trichotomy i (m + 1) with hlt | heq | hgt
  · exact ⟨i - 1, by omega, by rw [digestPlace_leaf (by omega)]; omega⟩
  · exact ⟨2 * m - 2, by omega, by rw [digestPlace_root hm (by omega), heq]⟩
  · exact ⟨i - 2, by omega, by rw [digestPlace_inner (by omega) (by omega)]; omega⟩

theorem digestPlace_ne_zero (m n : ℕ) : digestPlace m n ≠ 0 := by
  unfold digestPlace
  split_ifs <;> omega

@[simp] theorem digest_nodeAt (m n : ℕ) : (nodeAt m n).digest = digestPlace m n := by
  unfold nodeAt
  split <;> rfl

/-! ### Arenas that follow the formulas -/

variable {gadget : HashGadget} {a : Arena} {board : Board} {inners : List (Set ℕ)}

/-- The first `n` nodes, `t` gadgets and `s` digests of a tree of `m` leaves were made. -/
structure Grown (gadget : HashGadget) (m n t s : ℕ) (a : Arena) (board : Board)
    (inners : List (Set ℕ)) : Prop where
  made : Made gadget a board inners
  nodes : a.nodes.toList = (List.range n).map (nodeAt m)
  bindings : a.bindings.toList.map ends = (List.range t).map (endsAt m)
  digests : a.digests.size = s
  labels : ∀ i < m, i + 1 < s → (a.digests.getD (i + 1) default).label = s!"leaf_{i}"

namespace Grown

theorem empty (gadget : HashGadget) (m : ℕ) : Grown gadget m 0 0 0 {} Board.empty [] :=
  ⟨.empty, rfl, rfl, rfl, fun _ _ hlt => absurd hlt (Nat.not_lt_zero _)⟩

theorem size_nodes (h : Grown gadget m n t s a board inners) : a.nodes.size = n := by
  rw [← Array.length_toList, h.nodes, List.length_map, List.length_range]

theorem size_bindings (h : Grown gadget m n t s a board inners) : a.bindings.size = t := by
  have hlength := congrArg List.length h.bindings
  rwa [List.length_map, List.length_map, List.length_range, Array.length_toList] at hlength

theorem getElem?_nodes (h : Grown gadget m n t s a board inners) {j : ℕ} (hj : j < n) :
    a.nodes[j]? = some (nodeAt m j) := by
  rw [← Array.getElem?_toList, h.nodes, List.getElem?_map, List.getElem?_range hj]
  rfl

theorem digestIndex_eq (h : Grown gadget m n t s a board inners) {j : ℕ} (hj : j < n) :
    a.digestIndex j = digestPlace m j := by
  rw [digestIndex, h.getElem?_nodes hj]
  exact digest_nodeAt m j

/-! ### One digest, one node and one gadget -/

/-- A new digest gets the next place. -/
theorem newDigest (h : Grown gadget m n t s a board inners) (label : String)
    (hlabel : ∀ i < m, i + 1 = s → label = s!"leaf_{i}") :
    ∃ a' board', Succeeds (Arena.newDigest gadget.digestSize label) a board s a' board'
      ∧ Grown gadget m n t (s + 1) a' board' inners := by
  obtain ⟨hpos, hplaced⟩ := h.made.placed
  obtain ⟨board', hnew, -, -⟩ := exists_newDigest hplaced hpos label
  refine ⟨_, board', h.digests ▸ hnew, h.made.digest hnew.runs, h.nodes, h.bindings, ?_,
    fun i hi hlt => ?_⟩
  · rw [Array.size_push, h.digests]
  · by_cases hold : i + 1 < a.digests.size
    · rw [hnew.keeps.digests_getD hold]
      exact h.labels i hi (hold.trans_eq h.digests)
    · have hlast : i + 1 = a.digests.size := by
        rw [h.digests] at hold ⊢
        omega
      rw [hlast, getD_push_self]
      exact hlabel i hi (hlast.trans h.digests)

/-- The next node. -/
theorem pushNode (h : Grown gadget m n t s a board inners) :
    Grown gadget m (n + 1) t s { a with nodes := a.nodes.push (nodeAt m n) } board inners where
  made := h.made.node _
  nodes := by
    rw [Array.toList_push, h.nodes, List.range_succ, List.map_append]
    rfl
  bindings := h.bindings
  digests := h.digests
  labels := h.labels

/-- **The next gadget** stands between the digests that the formulas name. -/
theorem bind (hgadget : gadget.Placeable) (h : Grown gadget m (m + t) t s a board inners)
    (ht : t + 1 < m) (hs : m + 2 + t ≤ s) (houtput : digestPlace m (m + t) < s) :
    ∃ a' board' inners', Succeeds (Arena.bind gadget (nodeAt m (m + t)).kind
        (digestPlace m (m + t)) (2 * t) (2 * t + 1)) a board (m + t) a' board'
      ∧ Grown gadget m (m + t + 1) (t + 1) s a' board' inners' := by
  have hleft := h.digestIndex_eq (show 2 * t < m + t by omega)
  have hright := h.digestIndex_eq (show 2 * t + 1 < m + t by omega)
  -- the output is not one of the inputs, as different nodes have different digests
  have hlayout := h.made.layout (l := digestPlace m (2 * t)) (r := digestPlace m (2 * t + 1))
    (o := digestPlace m (m + t))
    (by rw [h.digests]; exact (digestPlace_lt (by omega)).trans_le hs)
    (by rw [h.digests]; exact (digestPlace_lt (by omega)).trans_le hs) (by rwa [h.digests])
    (fun heq => absurd (digestPlace_injective m heq) (by omega))
    (fun heq => absurd (digestPlace_injective m heq) (by omega))
  rw [← hleft, ← hright] at hlayout
  obtain ⟨placed, board', hplace, hallocates⟩ := hgadget _ _ _
    s!"hash_{(a.digests.getD (digestPlace m (m + t)) default).label}" board hlayout
  have hruns : Runs (Arena.bind gadget (nodeAt m (m + t)).kind _ _ _) a board _ _ board' :=
    runs_bind_of_place hplace
  rw [h.size_nodes] at hruns
  rw [hleft, hright] at hplace hruns
  have hnode : nodeAt m (m + t)
      = ⟨(nodeAt m (m + t)).kind, digestPlace m (m + t), some (2 * t, 2 * t + 1)⟩ := by
    unfold nodeAt
    rw [if_neg (by omega), Nat.add_sub_cancel_left]
  have hbound : Grown gadget m (m + t) (t + 1) s
      { a with
        bindings := a.bindings.push ⟨digestPlace m (2 * t), digestPlace m (2 * t + 1),
          digestPlace m (m + t), placed⟩ } board'
      (inners ++ [Set.Ico board.values.size board'.values.size]) :=
    { made := h.made.binding hplace hallocates
      nodes := h.nodes
      bindings := by
        rw [Array.toList_push, List.map_append, h.bindings, List.range_succ, List.map_append]
        rfl
      digests := h.digests
      labels := h.labels }
  have hgrown := hbound.pushNode
  rw [hnode] at hgrown
  exact ⟨_, board', _, ⟨hruns, (extends_pushBinding a _).trans (extends_pushNode _ _), hallocates⟩,
    hgrown⟩

/-! ### Levels -/

/-- Below the root every gadget gets a digest of its own. -/
theorem joinPair (hgadget : gadget.Placeable)
    (h : Grown gadget m (m + t) t (m + 2 + t) a board inners) (ht : t + 2 < m) (root i : ℕ)
    {height : ℕ} (hheight : height ≠ 0) :
    ∃ a' board' inners',
      Succeeds (Arena.joinPair gadget root height i (2 * t) (2 * t + 1)) a board (m + t) a' board'
        ∧ Grown gadget m (m + (t + 1)) (t + 1) (m + 2 + (t + 1)) a' board' inners' := by
  obtain ⟨b, middle, hnew, hdigest⟩ := h.newDigest s!"intermediate_{height}_{i}"
    fun j hj heq => absurd heq (by omega)
  have hplace : digestPlace m (m + t) = m + 2 + t := by
    rw [digestPlace_inner (by omega) (by omega)]
    omega
  obtain ⟨a', board', inners', hbind, hlast⟩ := hdigest.bind hgadget (by omega) (by omega)
    (by omega)
  have hkind : (nodeAt m (m + t)).kind = .intermediate := by
    unfold nodeAt
    rw [if_neg (by omega), if_neg (by omega)]
  rw [hkind, hplace] at hbind
  refine ⟨a', board', inners', ?_, hlast⟩
  unfold Arena.joinPair
  rw [if_neg hheight]
  exact hnew.bind hbind

/-- **One level** below the root. -/
theorem joinPairs (hgadget : gadget.Placeable) {c : ℕ}
    (h : Grown gadget m (m + t) t (m + 2 + t) a board inners) (hc : t + c + 1 < m) (root i : ℕ)
    {height : ℕ} (hheight : height ≠ 0) :
    ∃ a' board' inners',
      Succeeds (Arena.joinPairs gadget root height i (List.range' (2 * t) (2 * c))) a board
          (List.range' (m + t) c) a' board'
        ∧ Grown gadget m (m + (t + c)) (t + c) (m + 2 + (t + c)) a' board' inners' := by
  induction c generalizing t i a board inners with
  | zero => exact ⟨a, board, inners, .pure _ _ _, h⟩
  | succ c ih =>
    obtain ⟨b, middle, inners₁, hfirst, hgrown⟩ :=
      h.joinPair hgadget (by omega) root i hheight
    obtain ⟨a', board', inners', hrest, hlast⟩ := ih hgrown (by omega) (i + 1)
    have hlevel : List.range' (2 * t) (2 * (c + 1))
        = 2 * t :: (2 * t + 1) :: List.range' (2 * (t + 1)) (2 * c) := by
      rw [Nat.mul_succ, List.range'_succ, List.range'_succ]
      rfl
    rw [hlevel, joinPairs_cons, List.range'_succ]
    rw [Nat.add_right_comm t 1 c] at hlast
    exact ⟨a', board', inners', hfirst.bind (hrest.bind (.pure _ _ _)), hlast⟩

/-- **All levels.**  A level of `2 ^ (height + 1)` nodes is joined up to the root. -/
theorem joinLevels (hgadget : gadget.Placeable) {height : ℕ}
    (h : Grown gadget m (m + t) t (m + 2 + t) a board inners) (ht : t + 2 ^ (height + 1) = m) :
    ∃ a' board' inners',
      Succeeds (Arena.joinLevels gadget (m + 1) (height + 1)
          (List.range' (2 * t) (2 ^ (height + 1)))) a board (2 * m - 2) a' board'
        ∧ Grown gadget m (2 * m - 1) (m - 1) (2 * m) a' board' inners' := by
  induction height generalizing t a board inners with
  | zero =>
    -- the two nodes that are left are joined on the root digest
    have hplace : digestPlace m (m + t) = m + 1 := digestPlace_root (by omega) (by omega)
    obtain ⟨a', board', inners', hbind, hlast⟩ := h.bind hgadget (by omega) (le_refl _) (by omega)
    have hkind : (nodeAt m (m + t)).kind = .root := by
      unfold nodeAt
      rw [if_neg (by omega), if_pos (by omega)]
    rw [hkind, hplace] at hbind
    have hpairs : Succeeds (Arena.joinPairs gadget (m + 1) 0 0 [2 * t, 2 * t + 1]) a board [m + t]
        a' board' := by
      rw [joinPairs_cons]
      exact hbind.bind ((Succeeds.pure [] a' board').bind (.pure _ _ _))
    have hend : Succeeds (Arena.joinLevels gadget (m + 1) 0 [m + t]) a' board' (2 * m - 2) a'
        board' := by
      rw [show 2 * m - 2 = m + t by omega]
      exact .pure _ _ _
    have hsizes : m + t + 1 = 2 * m - 1 ∧ t + 1 = m - 1 ∧ m + 2 + t = 2 * m := by omega
    rw [hsizes.1, hsizes.2.1, hsizes.2.2] at hlast
    exact ⟨a', board', inners', hpairs.bind hend, hlast⟩
  | succ height ih =>
    have hhalf : 2 ^ (height + 1 + 1) = 2 * 2 ^ (height + 1) := pow_succ' 2 (height + 1)
    have hwidth : 2 ≤ 2 ^ (height + 1) := Nat.le_self_pow (Nat.succ_ne_zero height) 2
    obtain ⟨b, middle, inners₁, hpairs, hgrown⟩ :=
      h.joinPairs hgadget (show t + 2 ^ (height + 1) + 1 < m by omega) (m + 1) 0
        (Nat.succ_ne_zero height)
    obtain ⟨a', board', inners', hlevels, hlast⟩ := ih hgrown (by omega)
    rw [show 2 * (t + 2 ^ (height + 1)) = m + t by omega] at hlevels
    rw [hhalf]
    exact ⟨a', board', inners', hpairs.bind hlevels, hlast⟩

/-! ### The digests before the first gadget -/

/-- The next leaf. -/
theorem newLeaf {k : ℕ} (h : Grown gadget m k 0 (k + 1) a board inners) (hk : k < m) :
    ∃ a' board', Succeeds (Arena.newLeaf gadget k) a board k a' board'
      ∧ Grown gadget m (k + 1) 0 (k + 2) a' board' inners := by
  obtain ⟨b, board', hnew, hdigest⟩ := h.newDigest s!"leaf_{k}" fun i _ heq => by
    rw [Nat.succ_injective heq]
  have hnode : nodeAt m k = ⟨.leaf, k + 1, none⟩ := by
    unfold nodeAt
    rw [if_pos hk, digestPlace_leaf hk]
  have hlast := hdigest.pushNode
  rw [hnode] at hlast
  refine ⟨_, board', hnew.bind ⟨?_, extends_pushNode _ _, .refl _⟩, hlast⟩
  rw [← hdigest.size_nodes]
  exact run_newNode _ _ _

/-- The other leaves. -/
theorem newLeaves {k c : ℕ} (h : Grown gadget m k 0 (k + 1) a board inners) (hc : k + c ≤ m) :
    ∃ a' board',
      Succeeds ((List.range' k c).mapM (Arena.newLeaf gadget)) a board (List.range' k c) a' board'
        ∧ Grown gadget m (k + c) 0 (k + c + 1) a' board' inners := by
  induction c generalizing k a board with
  | zero => exact ⟨a, board, .pure _ _ _, h⟩
  | succ c ih =>
    obtain ⟨b, middle, hfirst, hgrown⟩ := h.newLeaf (by omega)
    obtain ⟨a', board', hrest, hlast⟩ := ih hgrown (by omega)
    rw [List.range'_succ, List.mapM_cons]
    rw [Nat.add_right_comm k 1 c] at hlast
    exact ⟨a', board', hfirst.bind (hrest.bind (.pure _ _ _)), hlast⟩

end Grown

/-! ### The leaves below a node -/

/-- The leaves below a node of the given depth from left to right, each with the label of its digest
and its depth. -/
inductive Traverses (a : Arena) : ℕ → ℕ → List (String × ℕ) → Prop
  | leaf {depth n d : ℕ} (node : a.nodes[n]? = some ⟨.leaf, d, none⟩) :
    Traverses a depth n [((a.digests.getD d default).label, depth)]
  | fork {depth n d l r : ℕ} {kind : NodeKind} {xs ys : List (String × ℕ)}
    (node : a.nodes[n]? = some ⟨kind, d, some (l, r)⟩) (left : Traverses a (depth + 1) l xs)
    (right : Traverses a (depth + 1) r ys) : Traverses a depth n (xs ++ ys)

/-- There is one way to traverse a tree. -/
theorem Traverses.unique {depth : ℕ} {xs ys : List (String × ℕ)} (h : Traverses a depth n xs)
    (h' : Traverses a depth n ys) : xs = ys := by
  induction h generalizing ys with
  | leaf node =>
    cases h' with
    | leaf node' =>
      obtain ⟨-, rfl, -⟩ := TreeNode.mk.inj (Option.some.inj (node.symm.trans node'))
      rfl
    | fork node' _ _ => cases Option.some.inj (node.symm.trans node')
  | fork node _ _ ihl ihr =>
    cases h' with
    | leaf node' => cases Option.some.inj (node.symm.trans node')
    | fork node' left' right' =>
      obtain ⟨-, -, hchildren⟩ := TreeNode.mk.inj (Option.some.inj (node.symm.trans node'))
      obtain ⟨rfl, rfl⟩ := Prod.mk.inj (Option.some.inj hchildren)
      rw [ihl left', ihr right']

/-- **The leaves below every node.**  The nodes of a height are `w` in number and stand before the
last `2 * w`, and below the `i`-th of them are `2 ^ height` leaves. -/
theorem Grown.traverses (h : Grown gadget m (2 * m - 1) t s a board inners) (hs : m < s)
    {height w i : ℕ} (hm : 2 ^ height * w = m) (hi : i < w) (depth : ℕ) :
    Traverses a depth (2 * m - 2 * w + i) ((List.range' (i * 2 ^ height) (2 ^ height)).map
      fun k => (s!"leaf_{k}", depth + height)) := by
  induction height generalizing w i depth with
  | zero =>
    obtain rfl : w = m := by rw [← hm, pow_zero, one_mul]
    have hnode := h.getElem?_nodes (show i < 2 * w - 1 by omega)
    rw [nodeAt, if_pos hi, digestPlace_leaf hi] at hnode
    have hleaf : Traverses a depth i _ := .leaf hnode
    rw [h.labels i hi (by omega)] at hleaf
    rw [Nat.sub_self, Nat.zero_add, pow_zero, mul_one]
    exact hleaf
  | succ height ih =>
    have hwide : 2 ^ height * (2 * w) = m := by rw [← hm, pow_succ, mul_assoc]
    have hle : 2 * w ≤ m := by
      rw [← hwide]
      exact Nat.le_mul_of_pos_left _ (Nat.two_pow_pos height)
    -- the children stand on the level below, which has twice as many nodes
    have hleft := ih hwide (show 2 * i < 2 * w by omega) (depth + 1)
    have hright := ih hwide (show 2 * i + 1 < 2 * w by omega) (depth + 1)
    have hnode := h.getElem?_nodes (show 2 * m - 2 * w + i < 2 * m - 1 by omega)
    rw [nodeAt, if_neg (by omega)] at hnode
    rw [show 2 * m - 2 * (2 * w) + 2 * i = 2 * (2 * m - 2 * w + i - m) by omega] at hleft
    rw [show 2 * m - 2 * (2 * w) + (2 * i + 1) = 2 * (2 * m - 2 * w + i - m) + 1 by omega] at hright
    have hfork := Traverses.fork hnode hleft hright
    have hsplit : List.range' (i * 2 ^ (height + 1)) (2 ^ (height + 1))
        = List.range' (2 * i * 2 ^ height) (2 ^ height)
          ++ List.range' ((2 * i + 1) * 2 ^ height) (2 ^ height) := by
      rw [pow_succ', two_mul (2 ^ height), ← List.range'_append_1]
      congr 2 <;> ring
    rw [hsplit, List.map_append, show depth + (height + 1) = depth + 1 + height by omega]
    exact hfork

/-! ### Counts -/

namespace Grown

/-- The gadgets read the digests of the nodes in their order. -/
theorem reads_eq (h : Grown gadget m n t s a board inners) :
    a.reads = (List.range (2 * t)).map (digestPlace m) := by
  have hpairs : ∀ t, ((List.range t).map (endsAt m)).flatMap (fun e => [e.1, e.2.1])
      = (List.range (2 * t)).map (digestPlace m) := by
    intro t
    induction t with
    | zero => rfl
    | succ t ih =>
      rw [List.range_succ, List.map_append, List.flatMap_append, ih, Nat.mul_succ,
        List.range_succ, List.range_succ, List.map_append, List.map_append, List.append_assoc]
      rfl
  rw [← hpairs, ← h.bindings, List.flatMap_map]
  rfl

/-- The gadgets write the digests of the inner nodes in their order. -/
theorem outputs_eq (h : Grown gadget m n t s a board inners) :
    a.outputs = (List.range' m t).map (digestPlace m) := by
  have hmap : a.outputs = (a.bindings.toList.map ends).map fun e => e.2.2 := by
    rw [List.map_map]
    rfl
  rw [hmap, h.bindings, List.range'_eq_map_range, List.map_map, List.map_map]
  rfl

/-- A digest is counted once when its node is in the list. -/
theorem count_map_digestPlace {l : List ℕ} (hl : l.Nodup) (n : ℕ) :
    (l.map (digestPlace m)).count (digestPlace m n) = if n ∈ l then 1 else 0 := by
  rw [List.count_map_of_injective l _ (digestPlace_injective m), hl.count]

theorem count_zero_map_digestPlace (l : List ℕ) : (l.map (digestPlace m)).count 0 = 0 :=
  List.count_eq_zero_of_not_mem fun hmem => by
    obtain ⟨n, -, hn⟩ := List.mem_map.mp hmem
    exact digestPlace_ne_zero m n hn

/-- Every digest but the public one and the root digest is read once, and these two never. -/
theorem count_reads (h : Grown gadget m n (m - 1) s a board inners) (hm : 2 ≤ m) {i : ℕ}
    (hi : i < 2 * m) : a.reads.count i = if i = 0 ∨ i = m + 1 then 0 else 1 := by
  rw [h.reads_eq]
  by_cases hzero : i = 0
  · rw [hzero, count_zero_map_digestPlace, if_pos (Or.inl rfl)]
  · obtain ⟨j, hj, rfl⟩ := exists_digestPlace_eq hm hi hzero
    have hroot : digestPlace m j = m + 1 ↔ j + 2 = 2 * m := by
      rw [← digestPlace_root hm (show 2 * m - 2 + 2 = 2 * m by omega),
        (digestPlace_injective m).eq_iff]
      omega
    have hiff : j ∈ List.range (2 * (m - 1))
        ↔ ¬(digestPlace m j = 0 ∨ digestPlace m j = m + 1) := by
      rw [List.mem_range, or_iff_right hzero, hroot]
      omega
    rw [count_map_digestPlace List.nodup_range, if_congr hiff rfl rfl, ite_not]

/-- Every digest but the public one and the leaves is written once, and these never. -/
theorem count_outputs (h : Grown gadget m n (m - 1) s a board inners) (hm : 2 ≤ m) {i : ℕ}
    (hi : i < 2 * m) :
    a.outputs.count i = if i = 0 ∨ i ∈ (List.range m).map (digestPlace m) then 0 else 1 := by
  rw [h.outputs_eq]
  by_cases hzero : i = 0
  · rw [hzero, count_zero_map_digestPlace, if_pos (Or.inl rfl)]
  · obtain ⟨j, hj, rfl⟩ := exists_digestPlace_eq hm hi hzero
    have hiff : j ∈ List.range' m (m - 1)
        ↔ ¬(digestPlace m j = 0 ∨ digestPlace m j ∈ (List.range m).map (digestPlace m)) := by
      rw [List.mem_range'_1, or_iff_right hzero,
        List.mem_map_of_injective (digestPlace_injective m), List.mem_range]
      omega
    rw [count_map_digestPlace List.nodup_range', if_congr hiff rfl rfl, ite_not]

/-- The gadgets before gadget `k` write the inner nodes before node `m + k`. -/
theorem known (h : Grown gadget m n t s a board inners) {k : ℕ} (hk : k ≤ t) {j : ℕ}
    (hj : j < m + k) :
    Known {i | i ∈ (List.range m).map (digestPlace m)} (a.bindings.toList.take k)
      (digestPlace m j) := by
  by_cases hleaf : j < m
  · exact Or.inl (List.mem_map_of_mem (List.mem_range.mpr hleaf))
  · have hends : endsAt m (j - m) ∈ (a.bindings.toList.take k).map ends := by
      rw [List.map_take, h.bindings, ← List.map_take, List.take_range, min_eq_left hk]
      exact List.mem_map_of_mem (List.mem_range.mpr (by omega))
    obtain ⟨x, hx, heq⟩ := List.mem_map.mp hends
    have hout : x.output = digestPlace m (m + (j - m)) := congrArg (fun e => e.2.2) heq
    exact Or.inr ⟨x, hx, by rw [hout, Nat.add_sub_cancel' (not_lt.mp hleaf)]⟩

/-- The ends of gadget `k`. -/
theorem ends_eq (h : Grown gadget m n t s a board inners) {k : ℕ} {x : Binding}
    (hx : a.bindings[k]? = some x) : k < t ∧ ends x = endsAt m k := by
  have hk : k < t := by
    rw [← h.size_bindings]
    exact (Array.getElem?_eq_some_iff.mp hx).1
  have hentry : (a.bindings.toList.map ends)[k]? = some (ends x) := by
    rw [List.getElem?_map, Array.getElem?_toList, hx]
    rfl
  rw [h.bindings, List.getElem?_map, List.getElem?_range hk] at hentry
  exact ⟨hk, (Option.some.inj hentry).symm⟩

/-- A gadget reads two different digests, which are leaves or the outputs of earlier gadgets. -/
theorem inputs (h : Grown gadget m n t s a board inners) (ht : t < m) {k : ℕ} {x : Binding}
    (hx : a.bindings[k]? = some x) :
    x.left ≠ x.right
      ∧ Known {i | i ∈ (List.range m).map (digestPlace m)} (a.bindings.toList.take k) x.left
      ∧ Known {i | i ∈ (List.range m).map (digestPlace m)} (a.bindings.toList.take k) x.right := by
  obtain ⟨hk, hends⟩ := h.ends_eq hx
  have hleft : x.left = digestPlace m (2 * k) := congrArg (fun e => e.1) hends
  have hright : x.right = digestPlace m (2 * k + 1) := congrArg (fun e => e.2.1) hends
  rw [hleft, hright]
  refine ⟨fun heq => ?_, h.known hk.le (by omega), h.known hk.le (by omega)⟩
  exact absurd (digestPlace_injective m heq) (by omega)

end Grown

end Arena

/-! ### Circuits -/

namespace MerkleCircuit

variable {gadget : HashGadget} {depth : ℕ}

/-- What a circuit of some depth looks like. -/
structure Shaped (gadget : HashGadget) (depth : ℕ) (c : MerkleCircuit) (board : Board)
    (inners : List (Set ℕ)) : Prop where
  size_digests : c.arena.digests.size = 2 ^ (depth + 1)
  size_nodes : c.arena.nodes.size = 2 ^ (depth + 1) - 1
  size_bindings : c.arena.bindings.size = 2 ^ depth - 1
  labels_leafNodes : c.leafNodes.map (fun n => (c.digestAt (c.arena.digestIndex n)).label)
    = (List.range (2 ^ depth)).map fun i => s!"leaf_{i}"
  /-- A gadget reads two different digests, which are leaves or the outputs of earlier gadgets. -/
  inputs : ∀ k x, c.arena.bindings[k]? = some x → x.left ≠ x.right
    ∧ Arena.Known c.givenDigests (c.arena.bindings.toList.take k) x.left
    ∧ Arena.Known c.givenDigests (c.arena.bindings.toList.take k) x.right
  /-- Every digest but the public one and the root digest is read once, and these two never. -/
  reads : ∀ i < c.arena.digests.size, c.arena.reads.count i
    = if i = c.rootPublic ∨ i = c.rootDigest then 0 else 1
  /-- Every digest but the public one and the leaves is written once, and these never. -/
  outputs : ∀ i < c.arena.digests.size, c.arena.outputs.count i
    = if i = c.rootPublic ∨ i ∈ c.leafNodes.map c.arena.digestIndex then 0 else 1
  /-- The leaves stand in order at the bottom of the tree. -/
  traverses : ∀ leaves, c.arena.Traverses 0 c.rootNode leaves
    ↔ leaves = (List.range (2 ^ depth)).map fun i => (s!"leaf_{i}", depth)
  length_inners : inners.length = c.arena.bindings.size
  /-- The wires of the digests and the inner wires of the gadgets are apart, and are all wires. -/
  tiles : Tiles (c.arena.ranges inners) 1 (board.numVariables + 1)
  primarySize_eq : board.primarySize = gadget.digestSize
  wires_rootPublic : (c.digestAt c.rootPublic).wires = List.range' 1 gadget.digestSize
  /-- Whatever the values of the wires are, the public inputs are those of the public digest. -/
  primaryInput_eq : ∀ values : Array Fr, values.size = board.values.size →
    ({ board with values } : Board).primaryInput
      = (c.digestAt c.rootPublic).wires.map ({ board with values } : Board).valueAt

/-- A circuit of the given depth with the places that the formulas give. -/
def ofArena (gadget : HashGadget) (depth : ℕ) (a : Arena) : MerkleCircuit where
  depth := depth
  digestSize := gadget.digestSize
  arena := a
  leafNodes := List.range (2 ^ depth)
  rootNode := 2 * 2 ^ depth - 2
  rootDigest := 2 ^ depth + 1
  rootPublic := 0

/-- A layout follows the formulas. -/
theorem exists_layOut_grown (hgadget : gadget.Placeable) (hdepth : depth ≠ 0) :
    ∃ a board inners,
      Arena.Runs (layOut gadget depth) {} Board.empty (ofArena gadget depth a) a board
        ∧ Arena.Grown gadget (2 ^ depth) (2 * 2 ^ depth - 1) (2 ^ depth - 1) (2 * 2 ^ depth) a board
          inners := by
  obtain ⟨height, rfl⟩ := Nat.exists_eq_succ_of_ne_zero hdepth
  obtain ⟨a₁, board₁, hpublic, h₁⟩ := (Arena.Grown.empty gadget (2 ^ (height + 1))).newDigest
    "root_digest_bits" fun i _ hi => absurd hi (Nat.succ_ne_zero i)
  -- the public digest is on the board, so there are enough wires to be public
  have hwires : gadget.digestSize < board₁.values.size := by
    obtain ⟨hsize, hfirst, hle⟩ := h₁.made.placed.2 0 (by rw [h₁.digests]; exact Nat.zero_lt_one)
    omega
  have h₂ : Arena.Grown gadget (2 ^ (height + 1)) 0 0 1 a₁
      { board₁ with primarySize := gadget.digestSize } [] := { h₁ with made := h₁.made.inputs _ }
  obtain ⟨a₃, board₃, hleaves, h₃⟩ := h₂.newLeaves (c := 2 ^ (height + 1)) (by omega)
  rw [Nat.zero_add] at h₃
  obtain ⟨a₄, board₄, hroot, h₄⟩ := h₃.newDigest "root_digest" fun i hi heq =>
    absurd (Nat.succ_injective heq) hi.ne
  obtain ⟨a₅, board₅, inners, hlevels, h₅⟩ := Arena.Grown.joinLevels (t := 0) hgadget h₄
    (Nat.zero_add _)
  rw [Nat.mul_zero] at hlevels
  have hgivens : Arena.Runs (layOutGivens gadget (height + 1)) {} Board.empty
      (0, List.range (2 ^ (height + 1)), 2 ^ (height + 1) + 1) a₄ board₄ := by
    unfold layOutGivens
    apply hpublic.runs.step
    apply Arena.Runs.step (Arena.run_liftM (BoardM.run_setInputSize_ok hwires) a₁)
    rw [Nat.one_shiftLeft, List.range_eq_range']
    apply hleaves.runs.step
    exact hroot.runs.step rfl
  refine ⟨a₅, board₅, inners, ?_, h₅⟩
  rw [layOut_eq]
  rw [← List.range_eq_range'] at hlevels
  exact Arena.Runs.step hgivens (hlevels.runs.step rfl)

/-- **What follows the formulas has the shape of a tree.** -/
theorem shaped_of_grown {a : Arena} {board : Board} {inners : List (Set ℕ)} (hdepth : depth ≠ 0)
    (h : Arena.Grown gadget (2 ^ depth) (2 * 2 ^ depth - 1) (2 ^ depth - 1) (2 * 2 ^ depth) a board
      inners) (hstanding : (ofArena gadget depth a).Standing gadget depth board) :
    (ofArena gadget depth a).Shaped gadget depth board inners := by
  have hm : 2 ≤ 2 ^ depth := Nat.le_self_pow hdepth 2
  -- the first nodes are the leaves, and their digests are the given ones
  have hgivens : (ofArena gadget depth a).leafNodes.map (ofArena gadget depth a).arena.digestIndex
      = (List.range (2 ^ depth)).map (Arena.digestPlace (2 ^ depth)) :=
    List.map_congr_left fun n hn => h.digestIndex_eq (by have := List.mem_range.mp hn; omega)
  have hwires : board.numVariables + 1 = board.values.size := Nat.sub_add_cancel h.made.placed.1
  have hpublic : (ofArena gadget depth a).digestAt (ofArena gadget depth a).rootPublic
      = ⟨1, gadget.digestSize, "root_digest_bits"⟩ := hstanding.rootPublic_eq
  have hpublicWires : ((ofArena gadget depth a).digestAt (ofArena gadget depth a).rootPublic).wires
      = List.range' 1 gadget.digestSize := by rw [hpublic]; rfl
  exact
    { size_digests := by rw [pow_succ']; exact h.digests
      size_nodes := by rw [pow_succ']; exact h.size_nodes
      size_bindings := h.size_bindings
      labels_leafNodes := by
        refine List.map_congr_left fun i hi => ?_
        have hlt := List.mem_range.mp hi
        have hplace : a.digestIndex i = i + 1 :=
          (h.digestIndex_eq (by omega)).trans (Arena.digestPlace_leaf hlt)
        change (a.digests.getD (a.digestIndex i) default).label = _
        rw [hplace]
        exact h.labels i hlt (by omega)
      length_inners := h.made.length_inners
      inputs := fun k x hx => by
        rw [givenDigests, hgivens]
        exact h.inputs (by omega) hx
      reads := fun i hi => h.count_reads hm (hi.trans_eq h.digests)
      outputs := fun i hi => by
        rw [hgivens]
        exact h.count_outputs hm (hi.trans_eq h.digests)
      traverses := fun leaves => by
        have htree := h.traverses (by omega) (mul_one _) Nat.zero_lt_one 0
        rw [Nat.zero_mul, ← List.range_eq_range', Nat.add_zero, mul_one] at htree
        simp only [Nat.zero_add] at htree
        exact ⟨fun hleaves => hleaves.unique htree, fun hleaves => hleaves ▸ htree⟩
      tiles := by
        rw [hwires]
        exact h.made.tiles
      primarySize_eq := hstanding.primarySize_eq
      wires_rootPublic := hpublicWires
      primaryInput_eq := fun values hvalues => by
        have hlt : board.primarySize < values.size := by
          rw [hvalues, hstanding.primarySize_eq, Nat.lt_iff_add_one_le, Nat.add_comm]
          exact hstanding.public_le
        rw [Board.primaryInput_eq_map hlt, hpublicWires, hstanding.primarySize_eq] }

/-- **Trees of every depth have their shape**, with every gadget that only allocates wires when it
is placed. -/
theorem exists_shaped (hgadget : gadget.Placeable) {levels : ℤ} (hlevels : 1 ≤ levels) :
    ∃ c board inners, (build gadget levels).run Board.empty = (.ok c, board)
      ∧ c.arena.Made gadget board inners ∧ c.Shaped gadget levels.toNat board inners := by
  have hdepth : levels.toNat ≠ 0 := by omega
  obtain ⟨a, board, inners, hruns, hgrown⟩ := exists_layOut_grown hgadget hdepth
  have hbuild : (build gadget levels).run Board.empty
      = (.ok (ofArena gadget levels.toNat a), board) := build_eq_ok_iff.mpr ⟨hlevels, a, hruns⟩
  obtain ⟨c, board', hbuild', hstanding⟩ := exists_standing hgadget hlevels
  obtain ⟨hok, rfl⟩ := Prod.mk.inj (hbuild'.symm.trans hbuild)
  obtain rfl := Except.ok.inj hok
  exact ⟨_, board', inners, hbuild, hgrown.made, shaped_of_grown hdepth hgrown hstanding⟩

/-- Eight leaves under the compression function. -/
theorem exists_shaped_eightLeaves :
    Sha256Gadget.gadget.Placeable ∧ (1 : ℤ) ≤ 3
      ∧ ∃ c board inners, (build Sha256Gadget.gadget 3).run Board.empty = (.ok c, board)
        ∧ c.arena.Made Sha256Gadget.gadget board inners
        ∧ c.Shaped Sha256Gadget.gadget (3 : ℤ).toNat board inners
        ∧ c.arena.digests.size = 16 ∧ c.arena.nodes.size = 15 ∧ c.arena.bindings.size = 7 := by
  have hgadget : Sha256Gadget.gadget.Placeable := Sha256Gadget.complete.meets.placeable
  obtain ⟨c, board, inners, hbuild, hmade, hshaped⟩ :=
    exists_shaped hgadget (show (1 : ℤ) ≤ 3 by decide)
  exact ⟨hgadget, by decide, c, board, inners, hbuild, hmade, hshaped, hshaped.size_digests,
    hshaped.size_nodes, hshaped.size_bindings⟩

end MerkleCircuit

end MerkleSnark
