import Mathlib
import MerkleSnark.Proofs.Circuit.Sha256Complete
import MerkleSnark.Proofs.Merkle.Witness

/-!
# The root binds the leaves

Let the wires of a tree be computed from two lists of leaf digests.  If no gadget hashes two
different pairs of digests to the same one, then two digests at the same place that carry the same
bits in both runs are above the same leaves.  This is carried on from the leaves up by every gadget:
the same output means the same inputs.  At the root it says that the root binds the leaves, up to a
collision of the hash at some gadget.

## Main definitions

* `MerkleCircuit.computeRoot` — computes the wires and reads the root.
* `MerkleCircuit.Collides` — a gadget hashes different digests of two runs to the same one.
* `MerkleCircuit.AgreeOnlyIf` — what follows from the same bits at a place.

## Main results

* `MerkleCircuit.Computed.closed_agreeOnlyIf` — gadgets without a collision carry on what follows
  from the same bits.
* `MerkleCircuit.root_binds_leaves` — the same root means the same leaves or a collision.
-/

namespace MerkleSnark

/-! ### Propositions above each other -/

theorem forall_mem_of_pairUp_and {ps : List Prop} (heven : 2 ∣ ps.length)
    (h : ∀ p ∈ pairUp And ps, p) : ∀ p ∈ ps, p := by
  induction ps using List.twoStepInduction with
  | nil => exact fun p hp => absurd hp List.not_mem_nil
  | singleton p => simp at heven
  | cons_cons left right rest ih _ =>
    rw [pairUp, List.forall_mem_cons] at h
    rw [List.forall_mem_cons, List.forall_mem_cons]
    refine ⟨h.1.1, h.1.2, ih ?_ h.2⟩
    simpa only [List.length_cons, Nat.dvd_add_self_right] using heven

/-- The conjunction above a level is that of all its propositions. -/
theorem forall_mem_of_treeRoot_and {depth : ℕ} {ps : List Prop} (hcount : ps.length = 2 ^ depth)
    (h : treeRoot And depth ps) : ∀ p ∈ ps, p := by
  induction depth generalizing ps with
  | zero =>
    obtain ⟨p, rfl⟩ := List.length_eq_one_iff.mp hcount
    exact List.forall_mem_singleton.mpr h
  | succ depth ih =>
    -- all hold one level above, and there every proposition is part of a conjunction
    have hhalf : (pairUp And ps).length = 2 ^ depth := by
      rw [length_pairUp, hcount, pow_succ, Nat.mul_div_cancel _ (by decide)]
    exact forall_mem_of_pairUp_and (hcount ▸ ⟨2 ^ depth, pow_succ' 2 depth⟩) (ih hhalf h)

theorem forall₂_zipWith {α β γ δ : Type} {R : α → β → Prop} {S : α → γ → Prop} {T : α → δ → Prop}
    {f : β → γ → δ} (hf : ∀ a b c, R a b → S a c → T a (f b c)) {as : List α} {bs : List β}
    {cs : List γ} (hbs : List.Forall₂ R as bs) (hcs : List.Forall₂ S as cs) :
    List.Forall₂ T as (List.zipWith f bs cs) := by
  induction hbs generalizing cs with
  | nil =>
    cases hcs
    exact .nil
  | cons hb _ ih =>
    cases hcs with
    | cons hc hcs => exact .cons (hf _ _ _ hb hc) (ih hcs)

/-- Lists are equal when they are position by position. -/
theorem eq_of_forall_mem_zipWith_eq {α : Type} {xs ys : List α} (hlength : xs.length = ys.length)
    (h : ∀ p ∈ List.zipWith (· = ·) xs ys, p) : xs = ys := by
  induction xs generalizing ys with
  | nil => exact (List.length_eq_zero_iff.mp hlength.symm).symm
  | cons x xs ih =>
    cases ys with
    | nil => cases hlength
    | cons y ys =>
      rw [List.zipWith_cons_cons, List.forall_mem_cons] at h
      rw [h.1, ih (Nat.succ.inj hlength) h.2]

namespace MerkleCircuit

variable {gadget : HashGadget} {asks : PlacedGadget → List Constraint → Prop}
  {hash : List Bool → List Bool → List Bool} {depth : ℕ} {c : MerkleCircuit} {board : Board}
  {K : Set ℕ} {leaves leaves' : List (List Bool)} {root root' : List Bool} {w v : ℕ → Fr}

/-- Computes the wires from leaf digests and reads the bits of the root. -/
def computeRoot (c : MerkleCircuit) (leaves : List (List ℤ)) : BoardM (List ℤ) := do
  c.assign leaves
  c.rootBits

/-- As many digests as the tree has leaves, all of the size of the gadget. -/
structure Fills (gadget : HashGadget) (depth : ℕ) (leaves : List (List Bool)) : Prop where
  count : leaves.length = 2 ^ depth
  size : ∀ bits ∈ leaves, bits.length = gadget.digestSize

/-! ### One gadget -/

/-- The gadget number `k` reads different pairs of digests in two runs, and hashes them to the same
one. -/
def Collides (c : MerkleCircuit) (hash : List Bool → List Bool → List Bool) (w v : ℕ → Fr) (k : ℕ) :
    Prop :=
  ∃ x l r l' r', c.arena.bindings[k]? = some x
    ∧ ((c.digestAt x.left).Carries w l ∧ (c.digestAt x.right).Carries w r)
    ∧ ((c.digestAt x.left).Carries v l' ∧ (c.digestAt x.right).Carries v r')
    ∧ (l, r) ≠ (l', r') ∧ hash l r = hash l' r'
    ∧ (c.digestAt x.output).Carries w (hash l r) ∧ (c.digestAt x.output).Carries v (hash l' r')

/-- The digest at a place carries the same bits in two runs only if the proposition holds. -/
def AgreeOnlyIf (c : MerkleCircuit) (w v : ℕ → Fr) (i : ℕ) (p : Prop) : Prop :=
  ∀ bits, (c.digestAt i).Carries w bits → (c.digestAt i).Carries v bits → p

namespace Computed

/-- **A gadget without a collision** gives the same output only for the same inputs, so what follows
from the same bits is carried on from its inputs to its output. -/
theorem closed_agreeOnlyIf (hw : c.Computed asks hash K leaves root w)
    (hv : c.Computed asks hash K leaves' root' v)
    (hinputs : ∀ x ∈ c.arena.bindings.toList,
      Arena.Known c.givenDigests c.arena.bindings.toList x.left
        ∧ Arena.Known c.givenDigests c.arena.bindings.toList x.right)
    (hno : ∀ k, ¬ c.Collides hash w v k) : c.arena.Closed And (c.AgreeOnlyIf w v) := by
  intro x hx p q hp hq bits hout hout'
  have hx' := Array.mem_toList_iff.mpr hx
  obtain ⟨l, hl⟩ := hw.known _ (hinputs x hx').1
  obtain ⟨r, hr⟩ := hw.known _ (hinputs x hx').2
  obtain ⟨l', hl'⟩ := hv.known _ (hinputs x hx').1
  obtain ⟨r', hr'⟩ := hv.known _ (hinputs x hx').2
  have hhash := (hw.done x hx').hashes l r hl hr
  have hhash' := (hv.done x hx').hashes l' r' hl' hr'
  have hsame : hash l r = hash l' r' := (hhash.unique hout).trans (hout'.unique hhash')
  -- different inputs with this one output would be a collision
  have hpair : (l, r) = (l', r') := by
    by_contra hne
    obtain ⟨k, hk⟩ := Array.getElem?_of_mem hx
    exact hno k ⟨x, l, r, l', r', hk, ⟨hl, hr⟩, ⟨hl', hr'⟩, hne, hsame, hhash, hhash'⟩
  obtain ⟨rfl, rfl⟩ := Prod.mk.inj hpair
  exact ⟨hp l hl hl', hq r hr hr'⟩

/-- The leaves carry the same bits only if they were given the same ones. -/
theorem leaf_agreeOnlyIf (hw : c.Computed asks hash K leaves root w)
    (hv : c.Computed asks hash K leaves' root' v) :
    List.Forall₂ (c.AgreeOnlyIf w v) (c.leafNodes.map c.arena.digestIndex)
      (List.zipWith (· = ·) leaves leaves') := by
  have hleaf := List.forall₂_map_left_iff.mp hw.leaf
  have hleaf' := List.forall₂_map_left_iff.mp hv.leaf
  refine List.forall₂_map_left_iff.mpr (forall₂_zipWith ?_ hleaf hleaf')
  intro n bits bits' hbits hbits' same hsame hsame'
  exact (hbits.unique hsame).trans (hsame'.unique hbits')

end Computed

/-! ### All gadgets -/

/-- **The same root means the same leaves or a collision.** -/
theorem Standing.eq_or_collides (h : c.Standing gadget depth board)
    (hw : c.Computed asks hash K leaves root w) (hv : c.Computed asks hash K leaves' root v)
    (hcount : leaves.length = 2 ^ depth) (hcount' : leaves'.length = 2 ^ depth) :
    leaves = leaves' ∨ ∃ k, c.Collides hash w v k := by
  by_cases hcollides : ∃ k, c.Collides hash w v k
  · exact Or.inr hcollides
  · -- the relation is carried from the leaves up to the root digest, which agrees in both runs
    obtain ⟨_, hlaid, -⟩ := h.laid
    have hclosed := hw.closed_agreeOnlyIf hv hlaid.chain.known_inputs (not_exists.mp hcollides)
    have hlength : (List.zipWith (· = ·) leaves leaves').length = 2 ^ depth := by
      rw [List.length_zipWith, hcount, hcount', min_self]
    have hroot := h.root _ hclosed _ hlength (hw.leaf_agreeOnlyIf hv)
    refine Or.inl (eq_of_forall_mem_zipWith_eq (hcount.trans hcount'.symm) ?_)
    exact forall_mem_of_treeRoot_and hlength (hroot root hw.rootDigest hv.rootDigest)

/-- The root is read as the one above the leaves. -/
theorem Standing.exists_computeRoot (h : c.Standing gadget depth board)
    (hgadget : gadget.Meets asks hash) {K : Set ℕ}
    (hlaid : c.arena.Laid gadget c.givenDigests c.givenWires K
      (c.digestAt c.rootPublic).span board) {start : Board}
    (hsize : start.values.size = board.values.size) (hone : start.valueAt oneWire = 1)
    (hleaves : Fills gadget depth leaves) :
    ∃ final, (c.computeRoot (leaves.map bitEntries)).run start
        = (.ok (bitEntries (treeRoot hash depth leaves)), final)
      ∧ c.Computed asks hash K leaves (treeRoot hash depth leaves) final.valueAt := by
  obtain ⟨final, hassign, hrewrites, hcomputed⟩ :=
    h.exists_computed hgadget hlaid hsize hone hleaves.count hleaves.size
  refine ⟨final, (BoardM.run_bind_ok hassign _).trans ?_, hcomputed⟩
  apply Digest.run_values _ hcomputed.rootPublic
  rw [h.rootPublic_eq, hrewrites.size_eq, hsize]
  exact h.public_le

/-- **The root binds the leaves** up to a collision.  The gadget may be any that computes a hash of
two digests, such as the one of SHA-256; its constraints play no part.  At every depth a circuit is
laid out.  Let its wires be computed twice, from any two lists of leaf digests and whatever the
wires hold before.  Both runs succeed, and when they give the same root bits, the lists are equal or
there is a gadget that reads different digests in the two runs and hashes them to the same one. -/
theorem root_binds_leaves :
    Sha256Gadget.gadget.Computes Sha256Gadget.hash
    ∧ ∀ (gadget : HashGadget) (hash : List Bool → List Bool → List Bool), gadget.Computes hash →
      ∀ depth : ℤ, 1 ≤ depth → ∃ c board, (build gadget depth).run Board.empty = (.ok c, board)
        ∧ ∀ start start' : Board,
          (∀ s ∈ [start, start'], s.values.size = board.values.size ∧ s.valueAt oneWire = 1) →
          ∀ leaves leaves' : List (List Bool),
            Fills gadget depth.toNat leaves → Fills gadget depth.toNat leaves' →
            ∃ bits bits' final final',
              (c.computeRoot (leaves.map bitEntries)).run start = (.ok bits, final)
              ∧ (c.computeRoot (leaves'.map bitEntries)).run start' = (.ok bits', final')
              ∧ bits = bitEntries (treeRoot hash depth.toNat leaves)
              ∧ bits' = bitEntries (treeRoot hash depth.toNat leaves')
              ∧ (bits = bits' → leaves = leaves'
                ∨ ∃ k, c.Collides hash final.valueAt final'.valueAt k) := by
  refine ⟨Sha256Gadget.complete.computes, ?_⟩
  intro gadget hash hgadget depth hdepth
  obtain ⟨c, board, hbuild, hc⟩ := exists_standing hgadget.meets.placeable hdepth
  refine ⟨c, board, hbuild, ?_⟩
  intro start start' hstarts leaves leaves' hleaves hleaves'
  obtain ⟨hsize, hone⟩ := hstarts start (by simp)
  obtain ⟨hsize', hone'⟩ := hstarts start' (by simp)
  obtain ⟨K, hlaid, -⟩ := hc.laid
  obtain ⟨final, hrun, hw⟩ := hc.exists_computeRoot hgadget.meets hlaid hsize hone hleaves
  obtain ⟨final', hrun', hv⟩ := hc.exists_computeRoot hgadget.meets hlaid hsize' hone' hleaves'
  refine ⟨_, _, final, final', hrun, hrun', rfl, rfl, fun hsame => ?_⟩
  -- the second root is now written as the first one
  rw [← bitEntries_injective hsame] at hv
  exact hc.eq_or_collides hw hv hleaves.count hleaves'.count

/-- Other leaves below the root of `fourLeaves`. -/
def otherLeaves : List (List Bool) :=
  [[true, false, true, false], [true, false, true, false], [true, true, true, false],
    [false, true, false, true]]

/-- The exclusive or has collisions: two lists of leaves have one root, and a gadget shows why. -/
theorem root_binds_leaves_otherLeaves :
    (XorGadget.gadget 4 1).Computes (XorGadget.hash 4 1)
      ∧ Fills (XorGadget.gadget 4 1) 2 fourLeaves ∧ Fills (XorGadget.gadget 4 1) 2 otherLeaves
      ∧ ∃ c board bits final final',
        (build (XorGadget.gadget 4 1) 2).run Board.empty = (.ok c, board)
          ∧ board.valueAt oneWire = 1
          ∧ (c.computeRoot (fourLeaves.map bitEntries)).run board = (.ok bits, final)
          ∧ (c.computeRoot (otherLeaves.map bitEntries)).run board = (.ok bits, final')
          ∧ ∃ k, c.Collides (XorGadget.hash 4 1) final.valueAt final'.valueAt k := by
  have hcomputes := (XorGadget.complete 4 1).computes
  have hfour : Fills (XorGadget.gadget 4 1) 2 fourLeaves := ⟨rfl, by decide⟩
  have hother : Fills (XorGadget.gadget 4 1) 2 otherLeaves := ⟨rfl, by decide⟩
  obtain ⟨c, board, hbuild, hruns⟩ :=
    root_binds_leaves.2 (XorGadget.gadget 4 1) (XorGadget.hash 4 1) hcomputes 2 (by decide)
  obtain ⟨c', board', hbuild', hstanding⟩ := exists_standing hcomputes.meets.placeable
    (show (1 : ℤ) ≤ 2 by decide)
  obtain ⟨-, rfl⟩ := Prod.mk.inj (hbuild'.symm.trans hbuild)
  have hone := hstanding.one_eq
  obtain ⟨bits, bits', final, final', hrun, hrun', hbits, hbits', hbinds⟩ := hruns board' board'
    (fun s hs => by
      obtain rfl : s = board' := by simpa using hs
      exact ⟨rfl, hone⟩) fourLeaves otherLeaves hfour hother
  have hsame : bits = bits' := by
    rw [hbits, hbits']
    decide
  subst hsame
  refine ⟨hcomputes, hfour, hother, c, board', bits, final, final', hbuild, hone, hrun, hrun', ?_⟩
  exact (hbinds rfl).resolve_left (by decide)

end MerkleCircuit

end MerkleSnark
