import Mathlib
import MerkleSnark.Merkle.Circuit
import MerkleSnark.Proofs.Circuit.HashGadget

/-!
# Laying out a tree

The lists of an arena only grow, so that the place of a digest or a node keeps its meaning.  Joining
levels is followed through a relation between places and values that every gadget carries on from
its inputs to its output: when such a relation holds of the nodes of a level and of some values, it
holds of the nodes above and of the hashes of these values, up to the root.

## Main definitions

* `pairUp`, `treeRoot` — the level above some values, and the root above them.
* `Arena.Runs` — a run of a layout that gives a result.
* `Arena.Extends` — one arena continues another.
* `Arena.Valid` — places exist, digests have the size of the gadget and gadgets force its hash.
* `Arena.Closed` — the relations that gadgets carry on.

## Main results

* `Arena.bind_spec`, `Arena.joinPairs_spec`, `Arena.joinLevels_spec` — one gadget, one level and all
  levels.
* `MerkleCircuit.build_eq_ok_iff` — when a tree is built.
-/

namespace MerkleSnark

/-- The values above a level, from neighbours joined in pairs. -/
def pairUp {α : Type} (hash : α → α → α) : List α → List α
  | left :: right :: rest => hash left right :: pairUp hash rest
  | _ => []

/-- The root above the values of a level, which are joined level by level. -/
def treeRoot {α : Type} [Inhabited α] (hash : α → α → α) : ℕ → List α → α
  | 0, level => level.headD default
  | depth + 1, level => treeRoot hash depth (pairUp hash level)

theorem length_pairUp {α : Type} (hash : α → α → α) (level : List α) :
    (pairUp hash level).length = level.length / 2 := by
  fun_induction pairUp hash level with
  | case1 left right rest ih =>
    rw [List.length_cons, ih, List.length_cons, List.length_cons]
    omega
  | case2 level h =>
    -- at most one value is left
    match level, h with
    | [], _ => simp
    | [_], _ => simp
    | left :: right :: rest, h => exact absurd rfl (h left right rest)

namespace Arena

variable {α β : Type} {gadget : HashGadget} {hash : List Bool → List Bool → List Bool}
  {a a' b : Arena} {board board' board'' : Board}

/-! ### Runs -/

/-- The run of a layout from an arena and a board gives a result, an arena and a board. -/
def Runs (m : Arena.M α) (a : Arena) (board : Board) (x : α) (a' : Arena) (board' : Board) : Prop :=
  BoardM.run (StateT.run m a) board = (.ok (x, a'), board')

theorem exists_of_runs_bind {m : Arena.M α} {f : α → Arena.M β} {y : β}
    (h : Runs (m >>= f) a board y a' board') :
    ∃ x b middle, Runs m a board x b middle ∧ Runs (f x) b middle y a' board' := by
  obtain ⟨⟨x, b⟩, middle, hm, hf⟩ := BoardM.exists_of_run_bind h
  exact ⟨x, b, middle, hm, hf⟩

/-- The rest of a run after a first step that is known. -/
theorem runs_rest {m : Arena.M α} {f : α → Arena.M β} {x : α} {y : β}
    (heq : BoardM.run (StateT.run m a) board = (.ok (x, b), board''))
    (h : Runs (m >>= f) a board y a' board') : Runs (f x) b board'' y a' board' := by
  obtain ⟨⟨z, c⟩, middle, hm, hf⟩ := BoardM.exists_of_run_bind h
  obtain ⟨hok, rfl⟩ := Prod.mk.inj (heq.symm.trans hm)
  obtain ⟨rfl, rfl⟩ := Prod.mk.inj (Except.ok.inj hok)
  exact hf

theorem eq_of_runs {m : Arena.M α} {x y : α}
    (heq : BoardM.run (StateT.run m a) board = (.ok (x, b), board''))
    (h : Runs m a board y a' board') : y = x ∧ a' = b ∧ board' = board'' := by
  unfold Runs at h
  rw [heq] at h
  obtain ⟨hok, hboard⟩ := Prod.mk.inj h
  obtain ⟨hx, ha⟩ := Prod.mk.inj (Except.ok.inj hok)
  exact ⟨hx.symm, ha.symm, hboard.symm⟩

theorem run_of_runs_lift {m : BoardM α} {x : α} (h : Runs (liftM m) a board x a' board') :
    m.run board = (.ok x, board') ∧ a' = a := by
  obtain ⟨y, middle, hm, hpure⟩ := BoardM.exists_of_run_bind h
  obtain ⟨hok, hboard⟩ := Prod.mk.inj hpure
  obtain ⟨hx, ha⟩ := Prod.mk.inj (Except.ok.inj hok)
  rw [hm, hx, hboard]
  exact ⟨rfl, ha.symm⟩

/-- The place of the digest of a node. -/
def digestIndex (a : Arena) (node : ℕ) : ℕ := (a.nodes[node]?.map TreeNode.digest).getD 0

theorem run_digestOf (node : ℕ) (a : Arena) (board : Board) :
    BoardM.run (StateT.run (digestOf node) a) board = (.ok (a.digestIndex node, a), board) := rfl

theorem run_digestAt (i : ℕ) (a : Arena) (board : Board) :
    BoardM.run (StateT.run (digestAt i) a) board = (.ok (a.digests.getD i default, a), board) := rfl

theorem run_newDigest (size : ℕ) (label : String) (a : Arena) (board : Board) :
    ∃ values labels, BoardM.run (StateT.run (newDigest size label) a) board
      = (.ok (a.digests.size,
          { a with digests := a.digests.push ⟨board.values.size, size, label⟩ }),
        { board with values := values, labels := labels }) :=
  ⟨_, _, rfl⟩

theorem run_newNode (node : TreeNode) (a : Arena) (board : Board) :
    BoardM.run (StateT.run (newNode node) a) board
      = (.ok (a.nodes.size, { a with nodes := a.nodes.push node }), board) := rfl

/-- Binding places one gadget between the digests of two nodes and a third digest. -/
theorem runs_bind {kind : NodeKind} {digest left right node : ℕ}
    (h : Runs (bind gadget kind digest left right) a board node a' board') :
    ∃ placed label, (gadget.place (a.digests.getD (a.digestIndex left) default)
          (a.digests.getD (a.digestIndex right) default) (a.digests.getD digest default) label).run
        board = (.ok placed, board')
      ∧ node = a.nodes.size
      ∧ a' = { a with
          bindings := a.bindings.push ⟨a.digestIndex left, a.digestIndex right, digest, placed⟩
          nodes := a.nodes.push ⟨kind, digest, some (left, right)⟩ } := by
  unfold bind at h
  replace h := runs_rest (run_digestOf left _ _) h
  replace h := runs_rest (run_digestOf right _ _) h
  replace h := runs_rest (run_digestAt digest _ _) h
  replace h := runs_rest (run_digestAt _ _ _) h
  replace h := runs_rest (run_digestAt _ _ _) h
  obtain ⟨placed, _, _, hplace, h⟩ := exists_of_runs_bind h
  obtain ⟨hplace, rfl⟩ := run_of_runs_lift hplace
  obtain ⟨hnode, harena, rfl⟩ := eq_of_runs rfl h
  exact ⟨placed, _, hplace, hnode, harena⟩

/-! ### Arenas that grow -/

/-- The other arena has the same entries at the places of this one. -/
structure Extends (a a' : Arena) : Prop where
  digests : a.digests.toList <+: a'.digests.toList
  nodes : a.nodes.toList <+: a'.nodes.toList
  bindings : a.bindings.toList <+: a'.bindings.toList

namespace Extends

theorem refl (a : Arena) : a.Extends a :=
  ⟨List.prefix_refl _, List.prefix_refl _, List.prefix_refl _⟩

theorem trans (h : a.Extends b) (h' : b.Extends a') : a.Extends a' :=
  ⟨h.digests.trans h'.digests, h.nodes.trans h'.nodes, h.bindings.trans h'.bindings⟩

theorem size_digests_le (h : a.Extends a') : a.digests.size ≤ a'.digests.size :=
  h.digests.length_le

theorem size_nodes_le (h : a.Extends a') : a.nodes.size ≤ a'.nodes.size := h.nodes.length_le

theorem mem_bindings (h : a.Extends a') {x : Binding} (hx : x ∈ a.bindings) : x ∈ a'.bindings :=
  Array.mem_toList_iff.mp (h.bindings.subset (Array.mem_toList_iff.mpr hx))

theorem getElem?_of_initialSegment {xs ys : Array α} (h : xs.toList <+: ys.toList) {i : ℕ}
    (hi : i < xs.size) : ys[i]? = xs[i]? := by
  obtain ⟨t, ht⟩ := h
  rw [← Array.getElem?_toList, ← ht, List.getElem?_append_left hi, Array.getElem?_toList]

theorem digests_getD (h : a.Extends a') {i : ℕ} (hi : i < a.digests.size) :
    a'.digests.getD i default = a.digests.getD i default := by
  rw [Array.getD_eq_getD_getElem?, Array.getD_eq_getD_getElem?,
    getElem?_of_initialSegment h.digests hi]

theorem digestIndex_eq (h : a.Extends a') {n : ℕ} (hn : n < a.nodes.size) :
    a'.digestIndex n = a.digestIndex n := by
  unfold digestIndex
  rw [getElem?_of_initialSegment h.nodes hn]

theorem map_digestIndex (h : a.Extends a') {level : List ℕ}
    (hlevel : ∀ n ∈ level, n < a.nodes.size) :
    level.map a'.digestIndex = level.map a.digestIndex :=
  List.map_congr_left fun n hn => h.digestIndex_eq (hlevel n hn)

end Extends

theorem extends_pushDigest (a : Arena) (d : Digest) :
    a.Extends { a with digests := a.digests.push d } :=
  ⟨⟨[d], Array.toList_push.symm⟩, List.prefix_refl _, List.prefix_refl _⟩

theorem extends_pushNode (a : Arena) (n : TreeNode) :
    a.Extends { a with nodes := a.nodes.push n } :=
  ⟨List.prefix_refl _, ⟨[n], Array.toList_push.symm⟩, List.prefix_refl _⟩

theorem extends_pushBinding (a : Arena) (x : Binding) :
    a.Extends { a with bindings := a.bindings.push x } :=
  ⟨List.prefix_refl _, List.prefix_refl _, ⟨[x], Array.toList_push.symm⟩⟩

theorem digestIndex_pushNode (a : Arena) (n : TreeNode) :
    ({ a with nodes := a.nodes.push n } : Arena).digestIndex a.nodes.size = n.digest := by
  unfold digestIndex
  rw [Array.getElem?_push, if_pos rfl]
  rfl

/-- The gadget stands between existing digests and forces the hash on them. -/
structure Computes (a : Arena) (hash : List Bool → List Bool → List Bool) (x : Binding) :
    Prop where
  left_lt : x.left < a.digests.size
  right_lt : x.right < a.digests.size
  output_lt : x.output < a.digests.size
  forces : x.gadget.Forces hash (a.digests.getD x.left default) (a.digests.getD x.right default)
    (a.digests.getD x.output default)

theorem Computes.extend {x : Binding} (hx : a.Computes hash x) (h : a.Extends a') :
    a'.Computes hash x := by
  refine ⟨hx.left_lt.trans_le h.size_digests_le, hx.right_lt.trans_le h.size_digests_le,
    hx.output_lt.trans_le h.size_digests_le, ?_⟩
  rw [h.digests_getD hx.left_lt, h.digests_getD hx.right_lt, h.digests_getD hx.output_lt]
  exact hx.forces

/-- Digests have the size of the gadget, nodes have digests and gadgets compute the hash. -/
structure Valid (gadget : HashGadget) (hash : List Bool → List Bool → List Bool) (a : Arena) :
    Prop where
  size_eq : ∀ i < a.digests.size, (a.digests.getD i default).size = gadget.digestSize
  digestIndex_lt : ∀ n < a.nodes.size, a.digestIndex n < a.digests.size
  computes : ∀ x ∈ a.bindings, a.Computes hash x

/-- A layout that succeeds keeps what was there and does not touch the public inputs. -/
structure Grows (gadget : HashGadget) (hash : List Bool → List Bool → List Bool) (a : Arena)
    (board : Board) (a' : Arena) (board' : Board) : Prop where
  keeps : a.Extends a'
  valid : a'.Valid gadget hash
  primarySize_eq : board'.primarySize = board.primarySize

namespace Grows

theorem refl (h : a.Valid gadget hash) (board : Board) : Grows gadget hash a board a board :=
  ⟨Extends.refl a, h, rfl⟩

theorem trans (h : Grows gadget hash a board b board') (h' : Grows gadget hash b board' a' board'') :
    Grows gadget hash a board a' board'' :=
  ⟨h.keeps.trans h'.keeps, h'.valid, h'.primarySize_eq.trans h.primarySize_eq⟩

end Grows

/-! ### Digests and nodes -/

theorem Valid.pushDigest (h : a.Valid gadget hash) {d : Digest} (hd : d.size = gadget.digestSize) :
    ({ a with digests := a.digests.push d } : Arena).Valid gadget hash := by
  have hextends := extends_pushDigest a d
  refine ⟨fun i hi => ?_, fun n hn => ?_, fun x hx => (h.computes x hx).extend hextends⟩
  · rw [Array.size_push] at hi
    by_cases hlast : i < a.digests.size
    · rw [hextends.digests_getD hlast]
      exact h.size_eq i hlast
    · have hi : i = a.digests.size := by omega
      rw [hi, Array.getD_eq_getD_getElem?, Array.getElem?_push, if_pos rfl]
      exact hd
  · exact (h.digestIndex_lt n hn).trans_le hextends.size_digests_le

theorem Valid.pushNode (h : a.Valid gadget hash) {n : TreeNode} (hn : n.digest < a.digests.size) :
    ({ a with nodes := a.nodes.push n } : Arena).Valid gadget hash := by
  have hextends := extends_pushNode a n
  refine ⟨h.size_eq, fun i hi => ?_, fun x hx => (h.computes x hx).extend hextends⟩
  rw [Array.size_push] at hi
  by_cases hlast : i < a.nodes.size
  · rw [hextends.digestIndex_eq hlast]
    exact h.digestIndex_lt i hlast
  · have hi : i = a.nodes.size := by omega
    rw [hi, digestIndex_pushNode]
    exact hn

theorem Valid.pushBinding (h : a.Valid gadget hash) {x : Binding} (hx : a.Computes hash x) :
    ({ a with bindings := a.bindings.push x } : Arena).Valid gadget hash := by
  have hextends := extends_pushBinding a x
  refine ⟨h.size_eq, h.digestIndex_lt, fun y hy => ?_⟩
  rcases Array.mem_push.mp hy with hmem | rfl
  · exact (h.computes y hmem).extend hextends
  · exact hx.extend hextends

/-- A new digest gets the next place. -/
theorem newDigest_spec {label : String} {i : ℕ} (hvalid : a.Valid gadget hash)
    (h : Runs (newDigest gadget.digestSize label) a board i a' board') :
    Grows gadget hash a board a' board' ∧ i < a'.digests.size
      ∧ (a'.digests.getD i default).label = label := by
  obtain ⟨values, labels, hrun⟩ := run_newDigest gadget.digestSize label a board
  obtain ⟨rfl, rfl, rfl⟩ := eq_of_runs hrun h
  refine ⟨⟨extends_pushDigest _ _, hvalid.pushDigest rfl, rfl⟩, ?_, ?_⟩
  · rw [Array.size_push]
    exact Nat.lt_succ_self _
  · rw [Array.getD_eq_getD_getElem?, Array.getElem?_push, if_pos rfl]
    rfl

/-! ### Joining levels -/

/-- The relation holds of the output of a gadget when it holds of the inputs. -/
def Closed (op : α → α → α) (a : Arena) (V : ℕ → α → Prop) : Prop :=
  ∀ x ∈ a.bindings, ∀ l r, V x.left l → V x.right r → V x.output (op l r)

theorem Closed.of_extends {op : α → α → α} {V : ℕ → α → Prop} (h : Closed op a' V)
    (hextends : a.Extends a') : Closed op a V :=
  fun x hx => h x (hextends.mem_bindings hx)

/-- A bound node has the given digest, and this one carries the hash of the digests below. -/
theorem bind_spec (hgadget : gadget.Sound hash) {kind : NodeKind} {digest left right node : ℕ}
    (hvalid : a.Valid gadget hash) (hleft : left < a.nodes.size) (hright : right < a.nodes.size)
    (hdigest : digest < a.digests.size)
    (h : Runs (bind gadget kind digest left right) a board node a' board') :
    Grows gadget hash a board a' board' ∧ node < a'.nodes.size ∧ a'.digestIndex node = digest
      ∧ ∀ V, Closed hash a' V → ∀ l r, V (a.digestIndex left) l → V (a.digestIndex right) r →
        V (a'.digestIndex node) (hash l r) := by
  obtain ⟨placed, label, hplace, rfl, rfl⟩ := runs_bind h
  have hl := hvalid.digestIndex_lt left hleft
  have hr := hvalid.digestIndex_lt right hright
  have hforces := hgadget.forces (hvalid.size_eq _ hl) (hvalid.size_eq _ hr)
    (hvalid.size_eq _ hdigest) hplace
  have hbound := hvalid.pushBinding (x := ⟨_, _, digest, placed⟩) ⟨hl, hr, hdigest, hforces⟩
  have hnode := digestIndex_pushNode
    { a with bindings := a.bindings.push ⟨a.digestIndex left, a.digestIndex right, digest, placed⟩ }
    ⟨kind, digest, some (left, right)⟩
  refine ⟨⟨?_, hbound.pushNode hdigest, hgadget.primarySize_eq hplace⟩, ?_, hnode, ?_⟩
  · exact (extends_pushBinding _ _).trans (extends_pushNode _ _)
  · rw [Array.size_push]
    exact Nat.lt_succ_self _
  · intro V hV l r hVl hVr
    rw [hnode]
    exact hV ⟨_, _, digest, placed⟩ Array.mem_push_self l r hVl hVr

/-- Puts a node above two others: at the root on the root digest, below it on a new one. -/
def joinPair (gadget : HashGadget) (root height i left right : ℕ) : Arena.M ℕ :=
  if height = 0 then bind gadget .root root left right
  else do
    let digest ← newDigest gadget.digestSize s!"intermediate_{height}_{i}"
    bind gadget .intermediate digest left right

theorem joinPairs_cons (gadget : HashGadget) (root height i left right : ℕ) (rest : List ℕ) :
    joinPairs gadget root height i (left :: right :: rest)
      = joinPair gadget root height i left right >>= fun parent =>
        joinPairs gadget root height (i + 1) rest >>= fun parents => pure (parent :: parents) := by
  rw [joinPairs, joinPair]
  by_cases hheight : height = 0
  · rw [if_pos hheight, if_pos hheight]
  · rw [if_neg hheight, if_neg hheight, bind_assoc]

theorem joinPair_spec (hgadget : gadget.Sound hash) {root height i left right node : ℕ}
    (hvalid : a.Valid gadget hash) (hleft : left < a.nodes.size) (hright : right < a.nodes.size)
    (hroot : root < a.digests.size)
    (h : Runs (joinPair gadget root height i left right) a board node a' board') :
    Grows gadget hash a board a' board' ∧ node < a'.nodes.size
      ∧ (height = 0 → a'.digestIndex node = root)
      ∧ ∀ V, Closed hash a' V → ∀ l r, V (a.digestIndex left) l → V (a.digestIndex right) r →
        V (a'.digestIndex node) (hash l r) := by
  unfold joinPair at h
  by_cases hheight : height = 0
  · rw [if_pos hheight] at h
    obtain ⟨hgrows, hnode, hdigest, hhash⟩ :=
      bind_spec hgadget hvalid hleft hright hroot h
    exact ⟨hgrows, hnode, fun _ => hdigest, hhash⟩
  · rw [if_neg hheight] at h
    obtain ⟨digest, b, middle, hnew, h⟩ := exists_of_runs_bind h
    obtain ⟨hfirst, hlt, -⟩ := newDigest_spec hvalid hnew
    have hleft' := hleft.trans_le hfirst.keeps.size_nodes_le
    have hright' := hright.trans_le hfirst.keeps.size_nodes_le
    obtain ⟨hgrows, hnode, -, hhash⟩ := bind_spec hgadget hfirst.valid hleft' hright' hlt h
    rw [hfirst.keeps.digestIndex_eq hleft, hfirst.keeps.digestIndex_eq hright] at hhash
    exact ⟨hfirst.trans hgrows, hnode, fun hzero => absurd hzero hheight, hhash⟩

/-- Relations that gadgets carry on lift from a level to the one above. -/
theorem joinPairs_spec (hgadget : gadget.Sound hash) {root height i : ℕ} {level parents : List ℕ}
    (hvalid : a.Valid gadget hash) (hlevel : ∀ n ∈ level, n < a.nodes.size)
    (hroot : root < a.digests.size)
    (h : Runs (joinPairs gadget root height i level) a board parents a' board') :
    Grows gadget hash a board a' board' ∧ (∀ n ∈ parents, n < a'.nodes.size)
      ∧ (height = 0 → ∀ n ∈ parents, a'.digestIndex n = root)
      ∧ ∀ V, Closed hash a' V → ∀ xs, List.Forall₂ V (level.map a.digestIndex) xs →
        List.Forall₂ V (parents.map a'.digestIndex) (pairUp hash xs) := by
  induction level using List.twoStepInduction generalizing i a board parents with
  | nil =>
    obtain ⟨rfl, rfl, rfl⟩ := eq_of_runs rfl h
    refine ⟨Grows.refl hvalid _, by simp, by simp, fun V _ xs hxs => ?_⟩
    cases hxs
    exact .nil
  | singleton n =>
    obtain ⟨rfl, rfl, rfl⟩ := eq_of_runs rfl h
    refine ⟨Grows.refl hvalid _, by simp, by simp, fun V _ xs hxs => ?_⟩
    cases hxs with
    | cons _ hrest =>
      cases hrest
      exact .nil
  | cons_cons left right rest ih _ =>
    rw [joinPairs_cons] at h
    obtain ⟨parent, b, middle, hjoin, h⟩ := exists_of_runs_bind h
    obtain ⟨others, b', middle', hrest, h⟩ := exists_of_runs_bind h
    obtain ⟨rfl, rfl, rfl⟩ := eq_of_runs rfl h
    simp only [List.forall_mem_cons] at hlevel
    obtain ⟨hleft, hright, hlevel⟩ := hlevel
    obtain ⟨hfirst, hparent, hrootParent, hhash⟩ :=
      joinPair_spec hgadget hvalid hleft hright hroot hjoin
    have hlevel' : ∀ n ∈ rest, n < b.nodes.size := fun n hn =>
      (hlevel n hn).trans_le hfirst.keeps.size_nodes_le
    obtain ⟨hgrows, hothers, hrootOthers, hlift⟩ :=
      ih hfirst.valid hlevel' (hroot.trans_le hfirst.keeps.size_digests_le) hrest
    have hindex := hgrows.keeps.digestIndex_eq hparent
    refine ⟨hfirst.trans hgrows, ?_, ?_, ?_⟩
    · exact List.forall_mem_cons.mpr ⟨hparent.trans_le hgrows.keeps.size_nodes_le, hothers⟩
    · intro hzero
      exact List.forall_mem_cons.mpr ⟨hindex.trans (hrootParent hzero), hrootOthers hzero⟩
    · intro V hV xs hxs
      rw [List.map_cons, List.map_cons] at hxs
      cases hxs with
      | @cons _ l _ xs hl hxs =>
        cases hxs with
        | @cons _ r _ xs hr hxs =>
          rw [List.map_cons, hindex]
          refine .cons (hhash V (hV.of_extends hgrows.keeps) l r hl hr) (hlift V hV xs ?_)
          -- the nodes that are left still have their digests
          rwa [hfirst.keeps.map_digestIndex hlevel]

/-- **The root digest carries the root above a level.** -/
theorem joinLevels_spec (hgadget : gadget.Sound hash) {root height node : ℕ} {level : List ℕ}
    (hvalid : a.Valid gadget hash) (hlevel : ∀ n ∈ level, n < a.nodes.size)
    (hroot : root < a.digests.size)
    (h : Runs (joinLevels gadget root height level) a board node a' board') :
    Grows gadget hash a board a' board'
      ∧ (height ≠ 0 → ∀ V, Closed hash a' V → ∀ xs, xs.length = 2 ^ height →
        List.Forall₂ V (level.map a.digestIndex) xs → V root (treeRoot hash height xs)) := by
  induction height generalizing a board level with
  | zero =>
    obtain ⟨rfl, rfl, rfl⟩ := eq_of_runs rfl h
    exact ⟨Grows.refl hvalid _, fun hzero => absurd rfl hzero⟩
  | succ height ih =>
    unfold joinLevels at h
    obtain ⟨parents, b, middle, hpairs, h⟩ := exists_of_runs_bind h
    obtain ⟨hfirst, hparents, hrootParents, hlift⟩ :=
      joinPairs_spec hgadget hvalid hlevel hroot hpairs
    obtain ⟨hgrows, hrest⟩ :=
      ih hfirst.valid hparents (hroot.trans_le hfirst.keeps.size_digests_le) h
    refine ⟨hfirst.trans hgrows, fun _ V hV xs hlength hxs => ?_⟩
    have hpairUp := hlift V (hV.of_extends hgrows.keeps) xs hxs
    have hhalf : (pairUp hash xs).length = 2 ^ height := by
      rw [length_pairUp, hlength, pow_succ, Nat.mul_div_cancel _ (by decide)]
    unfold treeRoot
    by_cases hheight : height = 0
    · -- the only parent stands on the root digest
      subst hheight
      obtain ⟨x, hx⟩ := List.length_eq_one_iff.mp hhalf
      rw [hx] at hpairUp ⊢
      cases parents with
      | nil => exact absurd hpairUp nofun
      | cons parent parents =>
        rw [List.map_cons, hrootParents rfl _ List.mem_cons_self] at hpairUp
        exact (List.forall₂_cons.mp hpairUp).1
    · exact hrest hheight V hV _ hhalf hpairUp

end Arena

/-- A tree is built on a board just when there is a level and it can be laid out. -/
theorem MerkleCircuit.build_eq_ok_iff {gadget : HashGadget} {board board' : Board} {depth : ℤ}
    {c : MerkleCircuit} :
    (build gadget depth).run board = (.ok c, board')
      ↔ 1 ≤ depth ∧ ∃ a, Arena.Runs (layOut gadget depth.toNat) {} board c a board' := by
  unfold build
  by_cases hdepth : depth < 1
  · rw [if_pos hdepth]
    exact ⟨fun h => absurd h nofun, fun h => absurd hdepth (not_lt.mpr h.1)⟩
  rw [if_neg hdepth]
  constructor
  · intro h
    obtain ⟨⟨c', a⟩, middle, hrun, hpure⟩ := BoardM.exists_of_run_bind h
    obtain ⟨hok, rfl⟩ := Prod.mk.inj hpure
    rw [← Except.ok.inj hok]
    exact ⟨not_lt.mp hdepth, a, hrun⟩
  · rintro ⟨-, a, hruns⟩
    exact (BoardM.run_bind_ok hruns _).trans rfl

end MerkleSnark
