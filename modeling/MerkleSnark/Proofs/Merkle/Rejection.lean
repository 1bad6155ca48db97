import Mathlib
import MerkleSnark.Circuit.Registry
import MerkleSnark.Proofs.Merkle.Witness

/-!
# Leaves that are refused

Before a wire is written, the number of leaves and the number of entries of every leaf are checked.
The entries themselves are checked while they are written, so an entry that is no bit is found when
all entries before it stand on their wires.

## Main definitions

* `DigestEntry` — an entry of a leaf with its wire.
* `MerkleCircuit.leafEntries` — the entries of leaves in the order in which they are written.

## Main results

* `DigestEntry.run_forM_write_rejects` — the entries up to the first one that is no bit are written.
* `MerkleCircuit.assign_rejects` — what is on the board after leaves were refused.
* `MerkleCircuit.assign_rejects_halfway` — a board that is changed by leaves that are refused.
-/

namespace MerkleSnark

/-! ### Entries -/

/-- An entry of a digest with the wire that it is meant for. -/
structure DigestEntry where
  /-- The name of the digest. -/
  label : String
  /-- The wire. -/
  wire : ℕ
  /-- The entry. -/
  value : ℤ

namespace DigestEntry

/-- The entry is zero or one. -/
def isBit (e : DigestEntry) : Bool := e.value == 0 || e.value == 1

/-- Writes an entry that is a bit. -/
def write (e : DigestEntry) : BoardM PUnit := do
  if e.value ≠ 0 ∧ e.value ≠ 1 then throw (.notABit e.label e.value)
  BoardM.setWire e.wire (Residue.ofInt scalarOrder e.value)

variable {e : DigestEntry} {es : List DigestEntry} {state : Board}

theorem isBit_iff : e.isBit = true ↔ e.value = 0 ∨ e.value = 1 := by
  rw [isBit, Bool.or_eq_true, beq_iff_eq, beq_iff_eq]

theorem run_write (h : e.isBit = true) (hone : e.wire ≠ oneWire)
    (hlt : e.wire < state.values.size) :
    ∃ state', e.write.run state = (.ok PUnit.unit, state') ∧ state.Rewrites state' {e.wire}
      ∧ state'.valueAt e.wire = Residue.ofInt scalarOrder e.value := by
  have hbit : ¬ (e.value ≠ 0 ∧ e.value ≠ 1) := fun hne =>
    (isBit_iff.mp h).elim hne.1 hne.2
  rw [write, if_neg hbit]
  exact BoardM.run_setWire hone hlt _

theorem run_write_rejects (h : e.isBit = false) :
    e.write.run state = (.error (.notABit e.label e.value), state) := by
  have hne : e.value ≠ 0 ∧ e.value ≠ 1 := by
    rw [← not_or, ← isBit_iff, h]
    exact Bool.false_ne_true
  rw [write, if_pos hne]
  rfl

/-- **Up to the first entry that is no bit** the entries are written, and this one is refused. -/
theorem run_forM_write_rejects (hbad : ∃ e ∈ es, e.isBit = false)
    (hwires : ∀ e ∈ es, e.wire ≠ oneWire ∧ e.wire < state.values.size)
    (hnodup : (es.map wire).Nodup) :
    ∃ bad state', es[(es.takeWhile isBit).length]? = some bad ∧ bad.isBit = false
      ∧ (es.forM write).run state = (.error (.notABit bad.label bad.value), state')
      ∧ state.Rewrites state' {i | i ∈ (es.takeWhile isBit).map wire}
      ∧ ∀ e ∈ es.takeWhile isBit, state'.valueAt e.wire = Residue.ofInt scalarOrder e.value := by
  induction es generalizing state with
  | nil => exact absurd hbad (by simp)
  | cons e es ih =>
    rw [List.forall_mem_cons] at hwires
    rw [List.map_cons, List.nodup_cons] at hnodup
    cases hbit : e.isBit with
    | false =>
      have hnone : (e :: es).takeWhile isBit = [] := List.takeWhile_cons_of_neg (by simp [hbit])
      rw [hnone]
      exact ⟨e, state, rfl, hbit, BoardM.run_bind_error (run_write_rejects hbit) _, .refl _ _, by simp⟩
    | true =>
      rw [List.takeWhile_cons_of_pos hbit]
      obtain ⟨middle, hwrite, hmiddle, hvalue⟩ := run_write hbit hwires.1.1 hwires.1.2
      have hrest : ∃ f ∈ es, f.isBit = false :=
        (List.exists_mem_cons_iff ..).mp hbad |>.resolve_left (by simp [hbit])
      obtain ⟨bad, last, hget, hnot, hrun, hlast, hvalues⟩ :=
        ih hrest (hmiddle.size_eq ▸ hwires.2) hnodup.2
      refine ⟨bad, last, hget, hnot, (BoardM.run_forM_cons hwrite).trans hrun,
        (hmiddle.trans hlast).mono ?_, List.forall_mem_cons.mpr ⟨?_, hvalues⟩⟩
      · rintro i (rfl | hi)
        · exact List.mem_cons_self
        · exact List.mem_cons_of_mem _ hi
      · -- the entries behind have other wires
        rw [hlast.valueAt_eq, hvalue]
        intro hmem
        obtain ⟨f, hf, hwire⟩ := List.mem_map.mp hmem
        exact hnodup.1 (List.mem_map.mpr ⟨f, (List.takeWhile_sublist _).subset hf, hwire⟩)

end DigestEntry

/-- The entries of a digest in order. -/
def Digest.entries (d : Digest) (bits : List ℤ) : List DigestEntry :=
  (d.wires.zip bits).map fun p => ⟨d.label, p.1, p.2⟩

/-- A digest is written entry by entry. -/
theorem Digest.assign_eq {d : Digest} {bits : List ℤ} (h : bits.length = d.size) :
    d.assign bits = (d.entries bits).forM DigestEntry.write := by
  have hfrom (label : String) (bits : List ℤ) : ∀ first, assignFrom label first bits
      = (((List.range' first bits.length).zip bits).map fun p =>
          (⟨label, p.1, p.2⟩ : DigestEntry)).forM DigestEntry.write := by
    induction bits with
    | nil => exact fun _ => rfl
    | cons b bits ih =>
      intro first
      rw [List.length_cons, List.range'_succ, List.zip_cons_cons, List.map_cons, List.forM_eq_forM,
        List.forM_cons, ← List.forM_eq_forM, assignFrom, ih, DigestEntry.write]
      split <;> rfl
  rw [assign, if_neg (not_not.mpr h), entries, wires, ← h]
  exact hfrom d.label bits d.first

namespace MerkleCircuit

/-- The entries of leaves in the order in which they are written. -/
def leafEntries (c : MerkleCircuit) (leaves : List (List ℤ)) : List DigestEntry :=
  (c.leafDigests.zip leaves).flatMap fun p => p.1.entries p.2

/-- The entries before the first one that is no bit. -/
def writtenEntries (c : MerkleCircuit) (leaves : List (List ℤ)) : List DigestEntry :=
  (c.leafEntries leaves).takeWhile DigestEntry.isBit

/-- Writing the leaves has stopped at an entry that is no bit: the entries before it are on their
wires, and nothing else has changed. -/
structure StopsAt (c : MerkleCircuit) (leaves : List (List ℤ)) (state state' : Board)
    (bad : DigestEntry) : Prop where
  first : (c.leafEntries leaves)[(c.writtenEntries leaves).length]? = some bad
  isBit_eq : bad.isBit = false
  rewrites : state.Rewrites state' {i | i ∈ (c.writtenEntries leaves).map DigestEntry.wire}
  written : ∀ e ∈ c.writtenEntries leaves, state'.valueAt e.wire = Residue.ofInt scalarOrder e.value

variable {gadget : HashGadget} {depth : ℕ} {c : MerkleCircuit} {board : Board}

/-- No value has changed if the entries that were written are the old values of their wires. -/
theorem StopsAt.valueAt_eq_iff {leaves : List (List ℤ)} {state state' : Board} {bad : DigestEntry}
    (h : c.StopsAt leaves state state' bad) : (∀ i, state'.valueAt i = state.valueAt i)
      ↔ ∀ e ∈ c.writtenEntries leaves, state.valueAt e.wire = Residue.ofInt scalarOrder e.value := by
  refine ⟨fun heq e he => (heq e.wire).symm.trans (h.written e he), fun hold i => ?_⟩
  by_cases hi : i ∈ (c.writtenEntries leaves).map DigestEntry.wire
  · obtain ⟨e, he, rfl⟩ := List.mem_map.mp hi
    rw [h.written e he, hold e he]
  · exact h.rewrites.valueAt_eq i hi

/-- Leaves of the right width are written entry by entry. -/
theorem forM_assign_eq {l : List (Digest × List ℤ)} (h : ∀ p ∈ l, p.2.length = p.1.size) :
    (l.forM fun p => p.1.assign p.2)
      = (l.flatMap fun p => p.1.entries p.2).forM DigestEntry.write := by
  induction l with
  | nil => rfl
  | cons p l ih =>
    rw [List.forall_mem_cons] at h
    rw [List.flatMap_cons, List.forM_eq_forM, List.forM_eq_forM, List.forM_cons, List.forM_append,
      Digest.assign_eq h.1, ← List.forM_eq_forM, ih h.2]
    rfl

/-- The first leaf of another width is refused. -/
theorem run_checkSizes_rejects {size i : ℕ} {leaves : List (List ℤ)}
    (h : ∃ bits ∈ leaves, bits.length ≠ size) (state : Board) :
    ∃ j bits, leaves[j]? = some bits ∧ bits.length ≠ size
      ∧ (∀ l ∈ leaves.take j, l.length = size)
      ∧ (checkSizes size i leaves).run state
        = (.error (.leafSize (i + j) size bits.length), state) := by
  induction leaves generalizing i with
  | nil => exact absurd h (by simp)
  | cons bits leaves ih =>
    by_cases hsize : bits.length = size
    · have hrest : ∃ l ∈ leaves, l.length ≠ size :=
        (List.exists_mem_cons_iff ..).mp h |>.resolve_left (not_not.mpr hsize)
      obtain ⟨j, l, hget, hne, hbefore, hrun⟩ := ih (i := i + 1) hrest
      refine ⟨j + 1, l, hget, hne, List.forall_mem_cons.mpr ⟨hsize, hbefore⟩, ?_⟩
      rw [checkSizes, if_neg (not_not.mpr hsize), ← Nat.add_assoc, Nat.add_right_comm]
      exact hrun
    · refine ⟨0, bits, rfl, hsize, by simp, ?_⟩
      rw [checkSizes, if_pos hsize]
      rfl

namespace Standing

theorem numLeaves_eq (h : c.Standing gadget depth board) : c.numLeaves = 2 ^ depth := by
  rw [numLeaves, h.depth_eq, Nat.one_shiftLeft]

/-- The entries of the leaves have their own wires, other than the constant one. -/
theorem leafEntries_placed (h : c.Standing gadget depth board) {leaves : List (List ℤ)}
    (hcount : leaves.length = 2 ^ depth)
    (hsizes : ∀ bits ∈ leaves, bits.length = gadget.digestSize) :
    (∀ p ∈ c.leafDigests.zip leaves, p.2.length = p.1.size)
      ∧ (c.leafEntries leaves).map DigestEntry.value = leaves.flatten
      ∧ (∀ e ∈ c.leafEntries leaves, e.wire ≠ oneWire ∧ e.wire < board.values.size)
      ∧ ((c.leafEntries leaves).map DigestEntry.wire).Nodup := by
  have hplaced := h.leafDigest_placed
  have hlength : ∀ p ∈ c.leafDigests.zip leaves, p.2.length = p.1.size := fun p hp => by
    rw [hsizes _ (List.of_mem_zip hp).2, (hplaced _ (List.of_mem_zip hp).1).1]
  have hzip : ∀ p ∈ c.leafDigests.zip leaves, p.1.wires.length = p.2.length := fun p hp => by
    rw [Digest.wires, List.length_range', hlength p hp]
  have hwires : ∀ p ∈ c.leafDigests.zip leaves,
      (p.1.entries p.2).map DigestEntry.wire = p.1.wires := fun p hp => by
    rw [Digest.entries, List.map_map]
    exact List.map_fst_zip (hzip p hp).le
  have hvalues : ∀ p ∈ c.leafDigests.zip leaves,
      (p.1.entries p.2).map DigestEntry.value = p.2 := fun p hp => by
    rw [Digest.entries, List.map_map]
    exact List.map_snd_zip (hzip p hp).ge
  refine ⟨hlength, ?_, fun e he => ?_, ?_⟩
  · have hseconds : (c.leafDigests.zip leaves).map Prod.snd = leaves :=
      List.map_snd_zip (h.length_leafDigests.trans hcount.symm).ge
    rw [leafEntries, List.map_flatMap, List.flatMap_congr hvalues, List.flatMap_def, hseconds]
  · obtain ⟨p, hp, he⟩ := List.mem_flatMap.mp he
    have hmem : e.wire ∈ p.1.wires := hwires p hp ▸ List.mem_map_of_mem he
    obtain ⟨-, hfirst, hlast⟩ := hplaced _ (List.of_mem_zip hp).1
    obtain ⟨hge, hlt⟩ := Digest.mem_wires_iff.mp hmem
    exact ⟨(hfirst.trans_le hge).ne', hlt.trans_le hlast⟩
  · have hfirsts : (c.leafDigests.zip leaves).map Prod.fst = c.leafDigests :=
      List.map_fst_zip (h.length_leafDigests.trans hcount.symm).le
    rw [leafEntries, List.map_flatMap, List.flatMap_congr hwires, ← List.flatMap_map Prod.fst,
      hfirsts, List.nodup_flatMap]
    refine ⟨fun d _ => List.nodup_range', h.apart.imp fun hapart i hi hi' => ?_⟩
    exact Set.disjoint_left.mp hapart (Digest.mem_wires_iff.mp hi) (Digest.mem_wires_iff.mp hi')

end Standing

/-- **What is on the board after leaves were refused.**  A tree of any depth can be laid out.  On any
board with its wires, whatever their values are, and before or after the constraints are added, a wrong
number of leaves and a leaf of another width leave everything as it was.  An entry that is no bit is
found while the entries are written: those before it stand on their wires, and nothing else changes, so
that every wire keeps its value just when these entries are the old values of their wires. -/
theorem assign_rejects {gadget : HashGadget} (hgadget : gadget.Placeable) {depth : ℤ}
    (hdepth : 1 ≤ depth) : ∃ c board, (build gadget depth).run Board.empty = (.ok c, board)
      ∧ ∀ (marked : Bool) (state : Board), board.values.size ≤ state.values.size →
        ∀ leaves : List (List ℤ),
          (leaves.length ≠ 2 ^ depth.toNat →
            ({ c with constrained := marked }.assign leaves).run state
              = (.error (.leafCount (2 ^ depth.toNat) leaves.length), state))
          ∧ (leaves.length = 2 ^ depth.toNat →
            (∃ bits ∈ leaves, bits.length ≠ gadget.digestSize) →
            ∃ i bits, leaves[i]? = some bits ∧ bits.length ≠ gadget.digestSize
              ∧ (∀ l ∈ leaves.take i, l.length = gadget.digestSize)
              ∧ ({ c with constrained := marked }.assign leaves).run state
                = (.error (.leafSize i gadget.digestSize bits.length), state))
          ∧ (leaves.length = 2 ^ depth.toNat →
            (∀ bits ∈ leaves, bits.length = gadget.digestSize) →
            (∃ bits ∈ leaves, ∃ b ∈ bits, b ≠ 0 ∧ b ≠ 1) →
            ∃ bad state', ({ c with constrained := marked }.assign leaves).run state
                = (.error (.notABit bad.label bad.value), state')
              ∧ c.StopsAt leaves state state' bad
              ∧ ((∀ i, state'.valueAt i = state.valueAt i)
                ↔ ∀ e ∈ c.writtenEntries leaves,
                  state.valueAt e.wire = Residue.ofInt scalarOrder e.value)) := by
  obtain ⟨c, board, hbuild, hc⟩ := exists_standing hgadget hdepth
  refine ⟨c, board, hbuild, fun marked state hsize leaves => ?_⟩
  have hleaves : numLeaves { c with constrained := marked } = 2 ^ depth.toNat := hc.numLeaves_eq
  refine ⟨fun hcount => ?_, fun hcount hwidth => ?_, fun hcount hsizes hbad => ?_⟩
  · rw [assign, hleaves, if_pos hcount]
    rfl
  · obtain ⟨i, bits, hget, hne, hbefore, hrun⟩ := run_checkSizes_rejects (i := 0) hwidth state
    refine ⟨i, bits, hget, hne, hbefore, ?_⟩
    rw [assign, hleaves, if_neg (not_not.mpr hcount), hc.digestSize_eq]
    rw [Nat.zero_add] at hrun
    exact BoardM.run_bind_error hrun _
  · obtain ⟨hlengths, hvalues, hwires, hnodup⟩ := hc.leafEntries_placed hcount hsizes
    have hbad : ∃ e ∈ c.leafEntries leaves, e.isBit = false := by
      obtain ⟨bits, hbits, b, hb, hne⟩ := hbad
      have hmem : b ∈ (c.leafEntries leaves).map DigestEntry.value :=
        hvalues ▸ List.mem_flatten.mpr ⟨bits, hbits, hb⟩
      obtain ⟨e, he, rfl⟩ := List.mem_map.mp hmem
      exact ⟨e, he, Bool.eq_false_iff.mpr fun h => (DigestEntry.isBit_iff.mp h).elim hne.1 hne.2⟩
    obtain ⟨bad, state', hfirst, hnot, hrun, hrewrites, hwritten⟩ :=
      DigestEntry.run_forM_write_rejects hbad
        (fun e he => ⟨(hwires e he).1, (hwires e he).2.trans_le hsize⟩) hnodup
    have hstops : c.StopsAt leaves state state' bad := ⟨hfirst, hnot, hrewrites, hwritten⟩
    refine ⟨bad, state', ?_, hstops, hstops.valueAt_eq_iff⟩
    rw [assign, hleaves, if_neg (not_not.mpr hcount), hc.digestSize_eq]
    refine (BoardM.run_bind_ok (run_checkSizes hsizes state) _).trans ?_
    exact BoardM.run_bind_error
      ((congrArg (BoardM.run · state) (forM_assign_eq hlengths)).trans hrun) _

/-- Trees with two leaves of four bits: a leaf too few, a short leaf, and a leaf with a two behind its
first bit. -/
theorem assign_rejects_twoLeaves :
    (XorGadget.gadget 4 1).Placeable ∧ (1 : ℤ) ≤ 1
      ∧ ∃ c board, (build (XorGadget.gadget 4 1) 1).run Board.empty = (.ok c, board)
        ∧ (c.assign [[1, 0, 0, 0]]).run board = (.error (.leafCount 2 1), board)
        ∧ (c.assign [[1, 0, 0, 0], [0, 0]]).run board = (.error (.leafSize 1 4 2), board)
        ∧ ∃ bad state', (c.assign [[0, 2, 0, 0], [1, 0, 0, 0]]).run board
            = (.error (.notABit bad.label bad.value), state')
          ∧ c.StopsAt [[0, 2, 0, 0], [1, 0, 0, 0]] board state' bad := by
  have hgadget := (XorGadget.complete 4 1).meets.placeable
  obtain ⟨c, board, hbuild, hrejects⟩ := assign_rejects hgadget (show (1 : ℤ) ≤ 1 by decide)
  have hrejects := hrejects c.constrained board le_rfl
  refine ⟨hgadget, by decide, c, board, hbuild, (hrejects _).1 (by decide), ?_, ?_⟩
  · obtain ⟨i, bits, hget, hne, -, hrun⟩ :=
      (hrejects [[1, 0, 0, 0], [0, 0]]).2.1 rfl (by decide)
    match i, hget with
    | 0, hget =>
      obtain rfl := Option.some.inj hget
      exact absurd rfl hne
    | 1, hget =>
      obtain rfl := Option.some.inj hget
      exact hrun
  · obtain ⟨bad, state', hrun, hstops, -⟩ :=
      (hrejects [[0, 2, 0, 0], [1, 0, 0, 0]]).2.2 rfl (by decide) (by decide)
    exact ⟨bad, state', hrun, hstops⟩

/-- Two leaves, of which the second one starts with a two, are refused when the first one stands on
its wires. -/
theorem assign_rejects_halfway :
    ∃ c board state', (build (XorGadget.gadget 4 1) 1).run Board.empty = (.ok c, board)
      ∧ (c.assign [[1, 0, 0, 0], [2, 0, 0, 0]]).run board = (.error (.notABit "leaf_1" 2), state')
      ∧ board.valueAt 5 = 0 ∧ state'.valueAt 5 = 1 := by
  have hbuilds : ((build (XorGadget.gadget 4 1) 1).run Board.empty).1.toBool = true := by
    decide +kernel
  have hbefore : ((build (XorGadget.gadget 4 1) 1).run Board.empty).2.valueAt 5 = 0 := by
    decide +kernel
  have herror : ((do (← build (XorGadget.gadget 4 1) 1).assign [[1, 0, 0, 0], [2, 0, 0, 0]]).run
      Board.empty).1 = .error (.notABit "leaf_1" 2) := by
    decide +kernel
  have hafter : ((do (← build (XorGadget.gadget 4 1) 1).assign [[1, 0, 0, 0], [2, 0, 0, 0]]).run
      Board.empty).2.valueAt 5 = 1 := by
    decide +kernel
  obtain ⟨c, hc⟩ := BoardM.exists_ok_of_toBool hbuilds
  have hbuild : (build (XorGadget.gadget 4 1) 1).run Board.empty
      = (.ok c, ((build (XorGadget.gadget 4 1) 1).run Board.empty).2) := Prod.ext hc rfl
  rw [BoardM.run_bind_ok hbuild] at herror hafter
  exact ⟨c, _, _, hbuild, Prod.ext herror rfl, hbefore, hafter⟩

end MerkleCircuit

end MerkleSnark
