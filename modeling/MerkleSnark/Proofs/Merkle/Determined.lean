import Mathlib
import MerkleSnark.Proofs.Circuit.Determined
import MerkleSnark.Proofs.Merkle.Witness

/-!
# No wire of a tree is left open

When the gadgets of a tree leave no choice for their wires, neither does the tree: every wire is the
constant one, one of a leaf, of a gadget or of the public digest.  So the leaf digests fix all wire
values that satisfy the system, and these are the values that the circuit computes from the leaves.

## Main definitions

* `MerkleCircuit.Satisfying` — wire values that satisfy the system of a board.

## Main results

* `Arena.Chain.eq_of_holds` — gadgets one after another leave no choice.
* `MerkleCircuit.Prepared.eq_of_holds` — nor does a whole circuit.
* `MerkleCircuit.Prepared.exists_assign_eq` — the values that satisfy the constraints are computed.
* `MerkleCircuit.satisfying_unique` — the system of a tree of SHA-256 gadgets has exactly the wire
  values that are computed.
* `MerkleCircuit.assign_forgets` — these values do not depend on what was on the board before.
-/

namespace MerkleSnark

namespace Arena.Chain

variable {gadget : HashGadget} {ds : Array Digest} {D K₀ K : Set ℕ} {bs : List Binding} {w v : ℕ → Fr}

/-- **The gadgets leave no choice** for the wires that are final once they are computed. -/
theorem eq_of_holds (hgadget : gadget.Deterministic) (h : Chain gadget ds D K₀ bs K)
    (hone : w oneWire = 1) (hone' : v oneWire = 1)
    (hks : ∀ x ∈ bs, ∀ ks, BoardM.Emits x.gadget.constrain ks → ∀ k ∈ ks, k.Holds w ∧ k.Holds v)
    (hD : ∀ i ∈ D, (ds.getD i default).span ⊆ K₀ ∧ ∃ bits, (ds.getD i default).Carries w bits)
    (hwv : ∀ i ∈ K₀, v i = w i) :
    (∀ i ∈ K, v i = w i) ∧ ∀ i, Known D bs i → ∃ bits, (ds.getD i default).Carries w bits := by
  induction h with
  | nil =>
    refine ⟨hwv, fun i hi => ?_⟩
    exact hi.elim (fun hi => (hD i hi).2) fun ⟨_, hx, _⟩ => absurd hx List.not_mem_nil
  | @snoc bs K x inner before left right output_lt fresh places ih =>
    rw [List.forall_mem_append, List.forall_mem_singleton] at hks
    obtain ⟨hsame, hcarries⟩ := ih hks.1
    obtain ⟨l, hl⟩ := hcarries x.left left
    obtain ⟨r, hr⟩ := hcarries x.right right
    have hspan := fun i => before.span_subset (fun i hi => (hD i hi).1) (i := i)
    -- the inputs of the last gadget are final before, so both values agree on them
    obtain ⟨ks, hemits, hdetermines⟩ := hgadget _ _ _ _ _ places
    obtain ⟨hout, hnew⟩ := hdetermines w v hone hone' (hks.2 ks hemits)
      (fun i hi => hsame i (hi.elim (fun hi => hspan _ left hi) fun hi => hspan _ right hi)) l r hl hr
    refine ⟨fun i hi => hi.elim (hsame i) (hnew i), fun i hi => ?_⟩
    rcases known_snoc.mp hi with hi | rfl
    · exact hcarries i hi
    · exact hout

end Arena.Chain

namespace MerkleCircuit

variable {gadget : HashGadget} {hash : List Bool → List Bool → List Bool} {depth : ℕ}
  {c : MerkleCircuit} {board : Board} {w v : ℕ → Fr}

/-- The leaf digests of a circuit whose constraints hold carry bits. -/
theorem exists_carries_leaf (hone : w oneWire = 1) (hw : ∀ k, c.Asks k → k.Holds w) :
    ∀ d ∈ c.leafDigests, ∃ bits, d.Carries w bits := fun d hd =>
  Digest.exists_carries_of_holds hone fun k hk => hw k (.leaf d hd hk)

/-- Digests that carry the same bits under two assignments have the same values. -/
theorem eq_of_forall₂_carries {ds : List Digest} {leaves : List (List Bool)}
    (hw : List.Forall₂ (fun d bits => d.Carries w bits) ds leaves)
    (hv : List.Forall₂ (fun d bits => d.Carries v bits) ds leaves) :
    ∀ d ∈ ds, ∀ i ∈ d.span, v i = w i := by
  intro d hd
  obtain ⟨i, hi, rfl⟩ := List.getElem_of_mem hd
  have hi' : i < leaves.length := hi.trans_eq hw.length_eq
  exact ((List.forall₂_iff_get.mp hw).2 i hi hi').eq_of_carries
    ((List.forall₂_iff_get.mp hv).2 i hi hi')

namespace Prepared

/-- **The circuit leaves no choice.**  Wire values that agree on the leaves agree on all wires. -/
theorem eq_of_holds (hgadget : gadget.Deterministic) (h : c.Prepared gadget hash depth board)
    (hone : w oneWire = 1) (hone' : v oneWire = 1) (hw : ∀ k, c.Asks k → k.Holds w)
    (hv : ∀ k, c.Asks k → k.Holds v) (hwv : ∀ d ∈ c.leafDigests, ∀ i ∈ d.span, v i = w i) :
    ∀ i < board.values.size, v i = w i := by
  obtain ⟨K, hlaid, hcovered⟩ := h.laid
  have hleaf := exists_carries_leaf hone hw
  have hgiven : ∀ i ∈ c.givenDigests, (c.digestAt i).span ⊆ c.givenWires
      ∧ ∃ bits, (c.digestAt i).Carries w bits := by
    intro i hi
    refine ⟨hlaid.span_subset i hi, ?_⟩
    obtain ⟨n, hn, rfl⟩ := List.mem_map.mp hi
    exact hleaf _ (List.mem_map_of_mem hn)
  obtain ⟨hsame, hcarries⟩ := hlaid.chain.eq_of_holds hgadget hone hone'
    (fun x hx ks hks k hk => ⟨hw k (.gadget x hx ks hks hk), hv k (.gadget x hx ks hks hk)⟩) hgiven
    (by
      rintro i (rfl | ⟨d, hd, hi⟩)
      · rw [hone, hone']
      · exact hwv d hd i hi)
  -- the public digest carries the same bits as the root digest
  obtain ⟨root, hroot⟩ := hcarries _ h.known_root
  have hsize : (c.digestAt c.rootPublic).size = (c.digestAt c.rootDigest).size := by
    rw [h.rootPublic_eq]
    exact (hlaid.placed _ (hlaid.lt_of_known h.known_root)).1.symm
  have hrootSpan := hlaid.chain.span_subset hlaid.span_subset h.known_root
  have hpublic := carries_rootPublic hone (fun k hk => hw k (.root hk)) hsize hroot
  have hpublic' := carries_rootPublic hone' (fun k hk => hv k (.root hk)) hsize
    (hroot.congr fun i hi => hsame i (hrootSpan hi))
  intro i hi
  rcases hcovered i hi with hi | hi
  · exact hpublic.eq_of_carries hpublic' i hi
  · exact hsame i hi

/-- **The values of the wires are computed.**  Whatever values satisfy the constraints, the leaf
digests carry bits, and from these bits the circuit computes the same values on its own board. -/
theorem exists_assign_eq (hgadget : gadget.Deterministic) (h : c.Prepared gadget hash depth board)
    {state : Board} (hsize : state.values.size = board.values.size)
    (hone' : state.valueAt oneWire = 1) (hone : w oneWire = 1) (hw : ∀ k, c.Asks k → k.Holds w) :
    ∃ leaves : List (List Bool), leaves.length = 2 ^ depth
      ∧ List.Forall₂ (fun d bits => d.Carries w bits) c.leafDigests leaves
      ∧ ∃ state', (c.assign (leaves.map bitEntries)).run state = (.ok (), state')
        ∧ state'.values.size = board.values.size
        ∧ ∀ i < board.values.size, state'.valueAt i = w i := by
  obtain ⟨leaves, hleaves⟩ := exists_forall₂_carries (exists_carries_leaf hone hw)
  have hcount : leaves.length = 2 ^ depth := hleaves.length_eq.symm.trans h.length_leafDigests
  have hbits : ∀ bits ∈ leaves, bits.length = gadget.digestSize := by
    intro bits hmem
    obtain ⟨i, hi, rfl⟩ := List.getElem_of_mem hmem
    obtain ⟨hlength, hget⟩ := List.forall₂_iff_get.mp hleaves
    exact (hget i (hi.trans_eq hlength.symm) hi).length_eq.trans
      (h.leafDigest_placed _ (List.getElem_mem _)).1
  obtain ⟨state', hassign, hrewrites, hcarries, -, -, hholds⟩ :=
    h.exists_assign hsize hone' hcount hbits
  have hone'' : state'.valueAt oneWire = 1 :=
    (hrewrites.valueAt_eq oneWire fun hne => hne rfl).trans hone'
  -- bits are read off the leaves and written to them again, and the leaves decide the rest
  have hsame := eq_of_forall₂_carries hleaves hcarries
  exact ⟨leaves, hcount, hleaves, state', hassign, hrewrites.size_eq.trans hsize,
    h.eq_of_holds hgadget hone hone'' hw (fun k hk => (hholds k hk).2) hsame⟩

/-- **What was on the board does not count.**  From the same leaves the same values are computed,
whatever values the wires had before. -/
theorem exists_assign_pair (hgadget : gadget.Deterministic)
    (h : c.Prepared gadget hash depth board) {state₁ state₂ : Board}
    (hsize₁ : state₁.values.size = board.values.size)
    (hsize₂ : state₂.values.size = board.values.size)
    (hone₁ : state₁.valueAt oneWire = 1) (hone₂ : state₂.valueAt oneWire = 1)
    {leaves : List (List Bool)} (hcount : leaves.length = 2 ^ depth)
    (hbits : ∀ bits ∈ leaves, bits.length = gadget.digestSize) :
    ∃ final₁ final₂, (c.assign (leaves.map bitEntries)).run state₁ = (.ok (), final₁)
      ∧ (c.assign (leaves.map bitEntries)).run state₂ = (.ok (), final₂)
      ∧ state₁.Rewrites final₁ {i | i ≠ oneWire} ∧ state₂.Rewrites final₂ {i | i ≠ oneWire}
      ∧ final₁.values = final₂.values := by
  obtain ⟨final₁, hrun₁, hrewrites₁, hleaves₁, -, -, hholds₁⟩ :=
    h.exists_assign hsize₁ hone₁ hcount hbits
  obtain ⟨final₂, hrun₂, hrewrites₂, hleaves₂, -, -, hholds₂⟩ :=
    h.exists_assign hsize₂ hone₂ hcount hbits
  have hkept₁ : final₁.valueAt oneWire = 1 :=
    (hrewrites₁.valueAt_eq oneWire fun hne => hne rfl).trans hone₁
  have hkept₂ : final₂.valueAt oneWire = 1 :=
    (hrewrites₂.valueAt_eq oneWire fun hne => hne rfl).trans hone₂
  refine ⟨final₁, final₂, hrun₁, hrun₂, hrewrites₁, hrewrites₂, ?_⟩
  -- both results satisfy the constraints and carry the same leaves, and this decides all wires
  have hsame := h.eq_of_holds hgadget hkept₂ hkept₁ (fun k hk => (hholds₂ k hk).2)
    (fun k hk => (hholds₁ k hk).2) (eq_of_forall₂_carries hleaves₂ hleaves₁)
  refine Board.values_ext ((hrewrites₁.size_eq.trans hsize₁).trans
    (hrewrites₂.size_eq.trans hsize₂).symm) fun i hi => hsame i ?_
  rwa [hrewrites₁.size_eq, hsize₁] at hi

end Prepared

/-- The wire values of a system that is satisfied. -/
def Satisfying (board : Board) (w : ℕ → Fr) : Prop := w oneWire = 1 ∧ board.system.Satisfied w

/-- **No wire is left open.**  At every depth the tree of SHA-256 gadgets can be laid out and its
constraints be added.  Wire values that satisfy them agree on all wires as soon as they agree on those
of the leaf digests, and they are the values that the circuit computes from the bits of the leaves;
whatever these bits are, the values that it computes satisfy the constraints. -/
theorem satisfying_unique {depth : ℤ} (hdepth : 1 ≤ depth) : ∃ c board,
    BoardM.run (do (← build Sha256Gadget.gadget depth).constrain) Board.empty = (.ok c, board)
      ∧ (∀ w v, Satisfying board w → Satisfying board v →
        (∀ d ∈ c.leafDigests, ∀ i ∈ d.wires, v i = w i) → ∀ i < board.values.size, v i = w i)
      ∧ (∀ w, Satisfying board w → ∃ leaves : List (List Bool), leaves.length = 2 ^ depth.toNat
        ∧ List.Forall₂ (fun d bits => d.Carries w bits) c.leafDigests leaves
        ∧ ∃ state, (c.assign (leaves.map bitEntries)).run board = (.ok (), state)
          ∧ state.values.size = board.values.size
          ∧ ∀ i < board.values.size, state.valueAt i = w i)
      ∧ ∀ leaves : List (List Bool), leaves.length = 2 ^ depth.toNat →
        (∀ bits ∈ leaves, bits.length = Sha256Gadget.digestSize) →
          ∃ state, (c.assign (leaves.map bitEntries)).run board = (.ok (), state)
            ∧ Satisfying board state.valueAt := by
  obtain ⟨c, board, hbuild, hc⟩ := exists_build Sha256Gadget.complete hdepth
  obtain ⟨ks, hconstrain, hasks⟩ := hc.exists_constrain
  let board' : Board := { board with constraints := board.constraints ++ ks.toArray }
  have hsize : board'.values.size = board.values.size := rfl
  have hsystem : ∀ k, k ∈ board'.system.constraints ↔ c.Asks k := by
    intro k
    rw [← hasks]
    simp [board', Board.system, hc.constraints_eq]
  have hholds {w : ℕ → Fr} (hw : Satisfying board' w) : ∀ k, c.Asks k → k.Holds w :=
    fun k hk => hw.2 k ((hsystem k).mpr hk)
  refine ⟨_, board', (BoardM.run_bind_ok hbuild _).trans (hconstrain board), ?_, ?_, ?_⟩
  · intro w v hw hv hwv
    change ∀ i < board.values.size, v i = w i
    exact hc.eq_of_holds Sha256Gadget.deterministic hw.1 hv.1 (hholds hw) (hholds hv)
      fun d hd i hi => hwv d hd i (Digest.mem_wires_iff.mpr hi)
  · intro w hw
    exact hc.exists_assign_eq Sha256Gadget.deterministic hsize hc.one_eq hw.1 (hholds hw)
  · intro leaves hcount hbits
    obtain ⟨state, hassign, hrewrites, -, -, -, hstate⟩ :=
      hc.exists_assign hsize hc.one_eq hcount hbits
    refine ⟨state, hassign, ?_, fun k hk => (hstate k ((hsystem k).mp hk)).2⟩
    exact (hrewrites.valueAt_eq oneWire fun hne => hne rfl).trans hc.one_eq

/-- Two leaves whose bits are zero. -/
theorem satisfying_unique_zeroLeaves : (1 : ℤ) ≤ 1 ∧ ∃ c board,
    BoardM.run (do (← build Sha256Gadget.gadget 1).constrain) Board.empty = (.ok c, board)
      ∧ ∃ state, (c.assign (List.replicate 2 (bitEntries (List.replicate 256 false)))).run board
          = (.ok (), state)
        ∧ Satisfying board state.valueAt
        ∧ ∀ v, Satisfying board v →
          (∀ d ∈ c.leafDigests, ∀ i ∈ d.wires, v i = state.valueAt i) →
            ∀ i < board.values.size, v i = state.valueAt i := by
  obtain ⟨c, board, hrun, hunique, -, hassign⟩ := satisfying_unique (show (1 : ℤ) ≤ 1 by decide)
  have hbits : ∀ bits ∈ List.replicate 2 (List.replicate 256 false),
      bits.length = Sha256Gadget.digestSize := by
    intro bits hmem
    rw [(List.mem_replicate.mp hmem).2, List.length_replicate]
    rfl
  obtain ⟨state, hstate, hsatisfying⟩ := hassign _ List.length_replicate hbits
  rw [List.map_replicate] at hstate
  exact ⟨by decide, c, board, hrun, state, hstate, hsatisfying,
    fun v hv hleaves => hunique _ v hsatisfying hv hleaves⟩

/-- **Nothing stale is left.**  At every depth the tree of SHA-256 gadgets can be laid out.  Take any
two states of its board, before or after the constraints are added: the wires other than the constant
one have any values.  From the same leaf digests of zeros and ones both runs give the wires the same
values, and change nothing else. -/
theorem assign_forgets {depth : ℤ} (hdepth : 1 ≤ depth) : ∃ c board,
    (build Sha256Gadget.gadget depth).run Board.empty = (.ok c, board)
      ∧ board.valueAt oneWire = 1
      ∧ ∀ (marked : Bool) (state₁ state₂ : Board),
        state₁.values.size = board.values.size → state₂.values.size = board.values.size →
        state₁.valueAt oneWire = 1 → state₂.valueAt oneWire = 1 →
        ∀ leaves : List (List ℤ), leaves.length = 2 ^ depth.toNat →
          (∀ bits ∈ leaves, bits.length = 256 ∧ ∀ b ∈ bits, b = 0 ∨ b = 1) →
          ∃ values : Array Fr,
            ({ c with constrained := marked }.assign leaves).run state₁
                = (.ok (), { state₁ with values := values })
              ∧ ({ c with constrained := marked }.assign leaves).run state₂
                = (.ok (), { state₂ with values := values }) := by
  obtain ⟨c, board, hbuild, hc⟩ := exists_build Sha256Gadget.complete hdepth
  refine ⟨c, board, hbuild, hc.one_eq, ?_⟩
  intro marked state₁ state₂ hsize₁ hsize₂ hone₁ hone₂ leaves hcount hbits
  obtain ⟨bits, rfl⟩ := exists_map_bitEntries fun l hl => (hbits l hl).2
  rw [List.length_map] at hcount
  have hlength : ∀ l ∈ bits, l.length = Sha256Gadget.gadget.digestSize := by
    intro l hl
    have h := (hbits _ (List.mem_map_of_mem hl)).1
    rwa [bitEntries, List.length_map] at h
  obtain ⟨final₁, final₂, hrun₁, hrun₂, hrewrites₁, hrewrites₂, hvalues⟩ :=
    hc.exists_assign_pair Sha256Gadget.deterministic hsize₁ hsize₂ hone₁ hone₂ hcount hlength
  refine ⟨final₁.values, ?_, ?_⟩
  · rw [← hrewrites₁.rest]
    exact hrun₁
  · rw [hvalues, ← hrewrites₂.rest]
    exact hrun₂

/-- Two leaves of zeros, on the board as it was laid out and on one whose wires were tampered
with. -/
theorem assign_forgets_tampered : (1 : ℤ) ≤ 1 ∧ ∃ c board values,
    (build Sha256Gadget.gadget 1).run Board.empty = (.ok c, board)
      ∧ (c.assign (List.replicate 2 (List.replicate 256 0))).run board
        = (.ok (), { board with values := values })
      ∧ (c.assign (List.replicate 2 (List.replicate 256 0))).run
          { board with values := #[1] ++ Array.replicate (board.values.size - 1) 7 }
        = (.ok (), { board with values := values }) := by
  obtain ⟨c, board, hbuild, hone, hassign⟩ := assign_forgets (show (1 : ℤ) ≤ 1 by decide)
  have hpos : 0 < board.values.size := by
    by_contra hempty
    rw [Board.valueAt, Array.getD_eq_getD_getElem?, Array.getElem?_eq_none (by omega)] at hone
    exact absurd hone (by decide)
  obtain ⟨values, hfresh, htampered⟩ := hassign c.constrained board
    { board with values := #[1] ++ Array.replicate (board.values.size - 1) 7 } rfl
    (by rw [Array.size_append, Array.size_replicate]; exact Nat.add_sub_of_le hpos) hone
    (by simp [Board.valueAt, oneWire]) (List.replicate 2 (List.replicate 256 0)) List.length_replicate
    (by
      intro bits hmem
      rw [(List.mem_replicate.mp hmem).2]
      exact ⟨List.length_replicate, fun b hb => Or.inl (List.mem_replicate.mp hb).2⟩)
  exact ⟨by decide, c, board, values, hbuild, hfresh, htampered⟩

end MerkleCircuit

end MerkleSnark
